import Mos.Ipc.MessageQueue

namespace Mos.MessageQueue

variable {q q' : Queue} {t : Nat} {priority msize : UInt32}

/-- The caller gets bytes of the first message only, whatever the heap has behind it. -/
def Confidential (q : Queue) (msize : UInt32) : Prop :=
  ∃ msg, q.messages.head? = some msg ∧
    (∀ behind, userBuf q behind msize = some (msg.buf.take msize.toNat)) ∧
    ∀ behind behind', userBuf q behind msize = userBuf q behind' msize

theorem map_getD (l : List UInt8) (f : Nat → UInt8) {n : Nat} (h : n ≤ l.length) :
    ((List.range n).map fun i => l.getD i (f (i - l.length))) = l.take n := by
  apply List.ext_getElem
  · simp [h]
  · intro i hi hi'
    have hl : i < l.length := by
      rw [List.length_take] at hi'
      omega
    simp [hl]

/-- A receive shows nothing else exactly if it asks for no more than the message has. -/
theorem confidential_iff {msg : Message} {rest : List Message} (h : q.messages = msg :: rest) :
    Confidential q msize ↔ msize.toNat ≤ msg.buf.length := by
  constructor
  · rintro ⟨_, _, -, hsame⟩
    by_contra hlong
    -- the first byte behind the message
    have hbyte := congrArg (Option.map (·[msg.buf.length]?)) (hsame (fun _ => 0) (fun _ => 1))
    simp [userBuf, h, Nat.not_le.mp hlong] at hbyte
  · intro hle
    have hbuf : ∀ behind, userBuf q behind msize = some (msg.buf.take msize.toNat) := by
      intro behind
      simp only [userBuf, h, List.head?_cons, Option.map_some, map_getD _ behind hle]
    exact ⟨msg, by simp [h], hbuf, fun behind behind' => (hbuf behind).trans (hbuf behind').symm⟩

theorem finishReceive_head {out : Outcome} (h : finishReceive q t = .ok (q', out)) :
    ∃ msg, q.messages = msg :: q'.messages := by
  unfold finishReceive at h
  split at h
  · cases h
  · rename_i msg messages hm
    cases h
    exact ⟨msg, hm⟩

theorem wakeSender_messages (q : Queue) : (wakeSender q).messages = q.messages := by
  unfold wakeSender
  split
  · rfl
  · unfold Queue.wake
    split <;> rfl

/-- A receive that returns, at once or after it has waited. -/
theorem receive_confidential_iff {canRead : Bool}
    (h : mqReceive q t canRead priority msize = .ok (q', .returned 0) ∨
      resumeReceive q t priority = .ok (q', .returned 0)) :
    ∃ msg, q.messages = msg :: q'.messages ∧
      (Confidential q msize ↔ msize.toNat ≤ msg.buf.length) := by
  obtain ⟨msg, hm⟩ : ∃ msg, q.messages = msg :: q'.messages := by
    rcases h with h | h
    · unfold mqReceive at h
      split_ifs at h
      · simp [einval] at h
      · simp [emsgsize] at h
      · obtain ⟨msg, hm⟩ := finishReceive_head h
        exact ⟨msg, wakeSender_messages q ▸ hm⟩
      · simp [eagain] at h
      · simp at h
      · exact finishReceive_head h
    · unfold resumeReceive at h
      split_ifs at h
      · exact finishReceive_head h
      · simp at h
  exact ⟨msg, hm, confidential_iff hm⟩

def oneMessage (buf : List UInt8) : Queue :=
  { maxmsg := 4, msgsize := 2, curmsgs := 1, messages := [⟨buf, 0⟩], threads := [.idle] }

theorem receive_confidential_full : Confidential (oneMessage [7, 8]) 2 := by
  have h : mqReceive (oneMessage [7, 8]) 0 true 0 2 =
      .ok (⟨4, 2, false, 0, [], [], [], [.idle]⟩, .returned 0) := by decide
  obtain ⟨msg, hm, hiff⟩ := receive_confidential_iff (.inl h)
  cases hm
  exact hiff.mpr (by decide)

/-- A message of one byte is received with the byte that the heap has behind it. -/
theorem byte_behind_received :
    ((mqReceive (oneMessage [7]) 0 true 0 2).map Prod.snd = .ok (.returned 0)) ∧
      userBuf (oneMessage [7]) (fun _ => 0) 2 = some [7, 0] ∧
      userBuf (oneMessage [7]) (fun _ => 1) 2 = some [7, 1] := by
  decide

end Mos.MessageQueue
