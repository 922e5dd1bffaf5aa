import Mos.Proofs.NextNumber
import Mos.Proofs.SendHead
import Mos.Proofs.StepFive

namespace Mos.Tcp
open Machine Bool List UInt32

/-! ### Transmitted bytes -/

def SkBuff.numbers (x : SkBuff) : Finset Nat :=
  Finset.Ico x.seq.toNat (x.seq.toNat + x.payload.length)

/-- The numbers of the payload bytes on the wire, however often each was sent. -/
def transmitted : List SkBuff → Finset Nat
  | [] => ∅
  | x :: wire => x.numbers ∪ transmitted wire

def outstanding (una : UInt32) (wire : List SkBuff) : Finset Nat :=
  (transmitted wire).filter (una.toNat ≤ ·)

theorem transmitted_cons_empty {x : SkBuff} (h : x.payload = []) (wire : List SkBuff) :
    transmitted (x :: wire) = transmitted wire := by
  simp [transmitted, SkBuff.numbers, h]

theorem payload_of_occupies {x : SkBuff} (h : x.occupies = false) : x.payload = [] := by
  simp only [SkBuff.occupies, or_eq_false_iff] at h
  simpa using h.1.1

theorem Mute.transmitted {w w' : List SkBuff} (h : Mute w w') : transmitted w' = transmitted w := by
  obtain ⟨l, rfl, ho⟩ := h
  induction l with
  | nil => rfl
  | cons x l ih =>
    obtain ⟨hx, hl⟩ := forall_mem_cons.mp ho
    rw [cons_append, transmitted_cons_empty (payload_of_occupies hx)]
    exact ih hl

/-! ### The counter -/

def Sock.flying (s : Sock) : UInt32 × UInt32 := (s.sndUna, s.flightSize)

def firstEmpty (s : Sock) : Bool := s.txQueue.head?.all fun x => x.payload.isEmpty

section Handler

variable {s t : Sock} {seg : Segment}

variable {b : Bool} {garbage : UInt16 × UInt8}

theorem flying_send {x : SkBuff} (h : x.payload = []) :
    (tcpSendSkb s x b).flying = s.flying := by
  simp [Sock.flying, tcpSendSkb, tcpStateTransition, h]

theorem flying_reply (seq ack : UInt32) (flags : Flags) (b : Bool) :
    (tcpSendSkb s (tcpCreateSkb s seq ack flags [] []) b).flying = s.flying :=
  flying_send (by simp [tcpCreateSkb])

theorem flying_wake : (wakeOwner s).flying = s.flying := rfl

theorem flying_sendAck : (sendAck s).flying = s.flying := flying_reply _ _ _ _

theorem flying_sendRst (a : UInt32) : (sendRst s seg a).flying = s.flying := flying_reply _ _ _ _

theorem flying_stepFiveOnly : StepFiveOnly Sock.flying :=
  ⟨fun _ _ _ _ _ _ _ _ _ _ => rfl, fun _ _ _ _ _ => flying_reply _ _ _ _⟩

theorem flying_count (empty : s.numberOfDupAcks + 1 = 3 → firstEmpty s = true)
    (h : countDuplicateAck s = .ok t) : t.flying = s.flying := by
  unfold countDuplicateAck at h
  dsimp only at h
  split at h
  · rename_i third
    split at h
    · cases h
    · rename_i x rest hq
      cases h
      have hx : x.payload = [] := by simpa [firstEmpty, hq] using empty third
      exact flying_send hx
  · split at h <;> exact Except.ok.inj h ▸ rfl

/-- An acknowledgement sets the flight size back to what is left. -/
theorem flying_accept {a : UInt32} {all : Bool} (h : tcpAcceptAck s a all = .ok t) :
    t.flying = (a, s.sndNxt - a) := by
  obtain ⟨-, r, rto, srtt, rttvar, rfl, -⟩ := accept_ok h
  rfl

def advancesUna (s : Sock) (seg : Segment) : Bool :=
  s.sockState != .disconnected && acceptsAck s seg

theorem flying_stepAck (hs : s.state ≠ .synRecv)
    (empty : fastRetransmits s seg = true → firstEmpty s = true) (h : stepAck s seg = .ok (t, b)) :
    t.flying = if takesAcks s.state && newAck s seg then (seg.ackNumber, s.sndNxt - seg.ackNumber)
      else s.flying := by
  unfold stepAck at h
  rw [if_neg hs] at h
  split at h
  · rename_i ht
    split at h
    · rename_i hn
      obtain ⟨u, hu, hp⟩ := bind_ok.mp h
      cases hp
      rw [ht, hn]
      have hacc : u.flying = (seg.ackNumber, (tcpCalculateCongestion s seg.ackNumber).sndNxt -
          seg.ackNumber) := flying_accept hu
      unfold takeWindow
      split <;> exact hacc
    · rename_i hn
      rw [if_neg (by simp [hn])]
      split at h
      · cases h
        unfold updateWindow
        split <;> rfl
      · rename_i hw
        split at h
        · rename_i hd
          obtain ⟨u, hu, hp⟩ := bind_ok.mp h
          cases hp
          exact flying_count (fun h3 => empty (by simp [fastRetransmits, ht, hn, hw, hd, h3])) hu
        · split at h
          · cases h
            exact flying_reply _ _ _ _
          · cases h
            rfl
  · rename_i ht
    cases h
    rw [if_neg (by simp [ht])]

/-- The handler of an open connection changes it by new acknowledgements only. -/
theorem flying_established (hd : s.sockState ≠ .disconnected) (hs : connected s.state = true)
    (empty : resendsFirst s seg = true → firstEmpty s = true)
    (h : tcpHandlerEstablished s seg = .ok t) :
    t.flying = if advancesUna s seg then (seg.ackNumber, s.sndNxt - seg.ackNumber) else s.flying := by
  have hadv : advancesUna s seg = (reachesStepFive s seg && (takesAcks s.state && newAck s seg)) := by
    simp only [advancesUna, acceptsAck, reachesStepFive, bne_iff_ne.mpr hd, Bool.true_and,
      Bool.and_assoc]
  rw [hadv]
  rcases flying_stepFiveOnly.established hs h with ⟨hno, hf⟩ | ⟨hyes, u, b, hu, hf⟩
  · rw [hno, hf]
    rfl
  · rw [hyes, hf]
    refine flying_stepAck (connected_iff.mp hs).2 (fun hfast => empty ?_) hu
    simp only [reachesStepFive, and_eq_true] at hyes
    simp [resendsFirst, hyes, hfast]

theorem flying_sync (h : tcpHandlerSync s seg garbage = .ok t) :
    t.flying = s.flying ∨ t.flightSize = 0 := by
  unfold tcpHandlerSync at h
  split at h
  · split at h
    · cases h
      exact .inl rfl
    · cases h
      exact .inl (flying_wake.trans (flying_sendRst 0))
  · dsimp only at h
    split at h
    · split at h
      · cases h
        exact .inl rfl
      · cases h
        exact .inl rfl
    · split at h
      · split at h
        · cases h
        · obtain ⟨u, hu, hp⟩ := bind_ok.mp h
          cases hp
          have hzero : u.flightSize = 0 := by
            have hu := congrArg Prod.snd (flying_accept hu)
            exact hu.trans (sub_self seg.ackNumber)
          right
          rw [← hzero]
          unfold synAccepted
          split
          · exact congrArg Prod.snd (flying_wake.trans flying_sendAck)
          · exact congrArg Prod.snd (flying_reply _ _ _ false)
      · cases h
        exact .inl rfl

/-- What `tcp_handler` does to the counter: an accepted acknowledgement sets it, and the end of
the handshake clears it. -/
theorem flying_handler (hs : s.state ≠ .synRecv)
    (empty : resendsFirst s seg = true → firstEmpty s = true) (h : tcpHandler s seg garbage = .ok t) :
    t.flying = (if advancesUna s seg then (seg.ackNumber, s.sndNxt - seg.ackNumber) else s.flying) ∨
      s.state = .synSent ∧ t.flightSize = 0 := by
  have idle (he : takesAcks s.state = false) : advancesUna s seg = false := by
    simp [advancesUna, acceptsAck, he]
  unfold tcpHandler at h
  split at h
  · rename_i hd
    cases h
    left
    rw [if_neg (by simp [advancesUna, hd])]
  · rename_i hd
    split at h
    · rename_i he
      cases h
      left
      rw [idle (by rw [he]; rfl), if_neg Bool.false_ne_true]
      unfold tcpHandlerClose
      split
      · rfl
      · split
        · exact flying_reply _ _ _ _
        · exact flying_reply _ _ _ _
    · rename_i he
      rw [idle (by rw [he]; rfl), if_neg Bool.false_ne_true]
      rcases flying_sync h with hf | hz
      · exact .inl hf
      · exact .inr ⟨he, hz⟩
    · rename_i he
      cases h
      left
      rw [idle (by rw [he]; rfl), if_neg Bool.false_ne_true]
    · rename_i he
      cases h
      left
      rw [idle (by rw [he]; rfl), if_neg Bool.false_ne_true]
    · left
      refine flying_established hd ?_ empty h
      cases he : s.state <;> simp_all [connected, synchronized]

end Handler

/-! ### Consecutive numbers -/

def isOpen (st : TcpState) : Bool := st == .established || st == .closeWait

def isClosing (st : TcpState) : Bool := st == .finWait1 || st == .finWait2 || st == .closing

theorem takesAcks_iff (st : TcpState) : takesAcks st = (isOpen st || isClosing st) := by
  cases st <;> rfl

/-- What holds of the numbers while the connection is open: those that are not acknowledged
are all on the wire, the last of them is still queued, and a queued FIN comes next. -/
structure Covered (v : SendView) (wire : List SkBuff) : Prop where
  bytes : ∀ n, v.una.toNat ≤ n → n < v.nxt.toNat → n ∈ transmitted wire
  last : v.una ≠ v.nxt → ∃ x ∈ v.queue, x.endSeq.toNat + 1 = v.nxt.toNat
  fin : ∀ x ∈ v.queue, x.flags.fin = true → x.endSeq = v.nxt

structure FinLeft (v : SendView) : Prop where
  next : v.nxt.toNat ≤ v.una.toNat + 1
  fin : ∀ x ∈ v.queue, x.flags.fin = true → x.endSeq = v.una

structure Consecutive (v : SendView) (wire : List SkBuff) (pc : Pc) : Prop where
  below : ∀ n ∈ transmitted wire, n < v.nxt.toNat
  una : v.una ≤ v.nxt
  ends : ∀ x ∈ v.queue, x.endSeq = x.seq + UInt32.ofNat (x.payload.length - 1)
  fins : ∀ x ∈ v.queue, x.flags.fin = true → v.nxt.toNat ≤ x.endSeq.toNat + 1
  early : pc.phase = .connecting → transmitted wire = ∅ ∧ (v.queue ≠ [] → v.una = 0)
  alone : pc.phase = .closing → ∀ x ∈ v.queue, ∀ y ∈ v.queue, x = y
  covered : isOpen v.state = true → Covered v wire
  finLeft : isClosing v.state = true → FinLeft v

section Steps

variable {v w : SendView} {wire wire' : List SkBuff} {pc : Pc}

theorem Consecutive.same (h : Consecutive v wire pc) (bytes : transmitted wire' = transmitted wire)
    (una : w.una = v.una) (nxt : w.nxt = v.nxt) (queue : w.queue = v.queue)
    (opens : isOpen w.state = true → isOpen v.state = true)
    (closes : isClosing w.state = true → isClosing v.state = true) : Consecutive w wire' pc := by
  refine ⟨?_, ?_, ?_, ?_, ?_, ?_, ?_, ?_⟩
  · rw [bytes, nxt]
    exact h.below
  · rw [una, nxt]
    exact h.una
  · rw [queue]
    exact h.ends
  · rw [queue, nxt]
    exact h.fins
  · rw [bytes, queue, una]
    exact h.early
  · rw [queue]
    exact h.alone
  · intro ho
    obtain ⟨hb, hl, hf⟩ := h.covered (opens ho)
    constructor
    · rw [bytes, una, nxt]
      exact hb
    · rw [una, nxt, queue]
      exact hl
    · rw [queue, nxt]
      exact hf
  · intro hc
    obtain ⟨hn, hf⟩ := h.finLeft (closes hc)
    constructor
    · rw [una, nxt]
      exact hn
    · rw [queue, una]
      exact hf

theorem Consecutive.leave (h : Consecutive v wire pc) (bytes : transmitted wire' = transmitted wire)
    (una : w.una = v.una) (nxt : w.nxt = v.nxt) (queue : ∀ x ∈ w.queue, x ∈ v.queue)
    (opens : isOpen w.state = false) (closes : isClosing w.state = false) : Consecutive w wire' pc := by
  refine ⟨?_, ?_, fun x hx => h.ends x (queue x hx), ?_, ?_, ?_, ?_, ?_⟩
  · rw [bytes, nxt]
    exact h.below
  · rw [una, nxt]
    exact h.una
  · intro x hx
    rw [nxt]
    exact h.fins x (queue x hx)
  · intro hp
    rw [bytes, una]
    refine ⟨(h.early hp).1, fun hq => (h.early hp).2 ?_⟩
    obtain ⟨x, hx⟩ := exists_mem_of_ne_nil _ hq
    exact ne_nil_of_mem (queue x hx)
  · exact fun hp x hx y hy => h.alone hp x (queue x hx) y (queue y hy)
  · intro ho
    rw [opens] at ho
    cases ho
  · intro hc
    rw [closes] at hc
    cases hc

theorem Consecutive.fresh (queue : v.queue = []) (una : v.una = v.nxt)
    (bytes : transmitted wire = ∅) : Consecutive v wire pc := by
  have none {p : SkBuff → Prop} : ∀ x ∈ v.queue, p x := by
    rw [queue]
    exact nofun
  refine ⟨?_, UInt32.le_of_eq una, none, none, ?_, fun _ => none, ?_, ?_⟩
  · rw [bytes]
    exact nofun
  · exact fun _ => ⟨bytes, absurd queue⟩
  · intro _
    refine ⟨fun n hn hlt => ?_, absurd una, none⟩
    rw [una] at hn
    omega
  · intro _
    exact ⟨by rw [una]; omega, none⟩

theorem Consecutive.quiet {s t : Sock} (h : Consecutive s.view s.wire pc) (hq : Quiet s t) :
    Consecutive t.view t.wire pc := by
  rw [hq.view]
  exact h.same hq.wire.transmitted rfl rfl rfl id id

theorem Consecutive.fin_next (h : Consecutive v wire pc) (ho : isOpen v.state = true)
    (only : ∀ x ∈ v.queue, x.flags.fin = true) : v.una = v.nxt := by
  have hc := h.covered ho
  by_contra hne
  obtain ⟨x, hx, hend⟩ := hc.last hne
  rw [hc.fin x hx (only x hx)] at hend
  omega

variable {st : TcpState} {flags : Flags} {x : SkBuff} {n : Nat} {a : UInt32}

theorem next_closing (h : isClosing (nextState st flags) = true) :
    isClosing st = true ∨ st = .established ∧ flags.fin = true := by
  unfold nextState at h
  repeat' split at h
  all_goals simp_all [isClosing]

theorem next_open (h : isOpen (nextState st flags) = true) :
    st = .synSent ∨ isOpen st = true ∧ flags.fin = false := by
  unfold nextState at h
  repeat' split at h
  all_goals simp_all [isOpen]

theorem Pc.allows_payload {iss : UInt32} (h : pc.allows iss x)
    (hp : pc.phase ≠ .sending) : x.payload = [] := by
  cases pc with
  | transmit k | transmitLocked k | transmitSleep k =>
    cases k with
    | connect | shutdown => exact h.2.1
    | probe l | chunks l => exact absurd rfl hp
  | sendChunk l m i => exact absurd rfl hp
  | _ => exact h.elim

theorem Wf.not_closing (hw : Wf v pc) (hp : pc.phase = .sending) : isClosing v.state = false := by
  have := hw.admits
  cases hs : v.state <;> simp_all [Phase.admits, isClosing]

theorem Consecutive.fin_left (h : Consecutive v wire pc) (hx : x ∈ v.queue)
    (only : ∀ y ∈ v.queue, y.flags.fin = true) {w : SendView} (una : w.una = v.una)
    (queue : w.queue = v.queue) (state : w.state = nextState v.state x.flags)
    (next : w.nxt = v.nxt ∨ w.nxt.toNat = x.endSeq.toNat + 1) (hc : isClosing w.state = true) :
    FinLeft w := by
  have hfin : x.endSeq = v.una ∧ v.nxt.toNat ≤ v.una.toNat + 1 ∧ ∀ y ∈ v.queue, y.endSeq = v.una := by
    rcases next_closing (state ▸ hc) with hcl | ⟨he, -⟩
    · have hl := h.finLeft hcl
      exact ⟨hl.fin x hx (only x hx), hl.next, fun y hy => hl.fin y hy (only y hy)⟩
    · have ho : isOpen v.state = true := by rw [he]; rfl
      have heq := h.fin_next ho only
      have hcov := h.covered ho
      refine ⟨(hcov.fin x hx (only x hx)).trans heq.symm, by rw [heq]; omega, ?_⟩
      exact fun y hy => (hcov.fin y hy (only y hy)).trans heq.symm
  obtain ⟨hend, hnext, hall⟩ := hfin
  refine ⟨?_, ?_⟩
  · rw [una]
    rcases next with hn | hn
    · rw [hn]
      exact hnext
    · rw [hn, hend]
  · intro y hy _
    rw [queue] at hy
    rw [una]
    exact hall y hy

theorem Consecutive.resend (h : Consecutive v wire pc) (hw : Wf v pc) (hx : x ∈ v.queue)
    (empty : x.payload = []) :
    Consecutive { v with state := nextState v.state x.flags } (x :: wire) pc := by
  have hbytes := transmitted_cons_empty empty wire
  rcases hw.queued hx with ⟨-, -, hn⟩ | ⟨-, -, hn⟩ | ⟨hp, hf⟩
  · rw [hn]
    exact h.leave hbytes rfl rfl (fun _ hy => hy) rfl rfl
  · rw [hn]
    exact h.same hbytes rfl rfl rfl id id
  · have only (y : SkBuff) (hy : y ∈ v.queue) : y.flags.fin = true := by
      rw [h.alone hp y hy x hx, hf]
    refine ⟨?_, h.una, h.ends, h.fins, ?_, h.alone, ?_, ?_⟩
    · rw [hbytes]
      exact h.below
    · rw [hbytes]
      exact h.early
    · intro ho
      rcases next_open ho with hs | ⟨-, hfin⟩
      · rw [hw.connecting hs] at hp
        cases hp
      · rw [only x hx] at hfin
        cases hfin
    · exact h.fin_left hx only rfl rfl rfl (.inl rfl)

theorem Consecutive.send_data (h : Consecutive v wire pc) (hw : Wf v pc)
    (hx : x ∈ v.queue) (hp : pc.phase = .sending) (some : x.payload ≠ [])
    (next : x.seq = v.nxt) (room : x.seq.toNat + x.payload.length < 2 ^ 32) :
    (v.send x false n).nxt.toNat = v.nxt.toNat + x.payload.length ∧
      Consecutive (v.send x false n) (x :: wire) pc := by
  have hpos : 0 < x.payload.length := length_pos_iff.mpr some
  have hend : x.endSeq.toNat + 1 = x.seq.toNat + x.payload.length := by
    rw [h.ends x hx, UInt32.toNat_add, UInt32.toNat_ofNat']
    omega
  have hact : activedSend x false = true := by simp [activedSend, some]
  have hnxt : (v.send x false n).nxt.toNat = v.nxt.toNat + x.payload.length := by
    simp only [SendView.send, hact, if_true]
    rw [UInt32.toNat_add, UInt32.toNat_one, ← next]
    omega
  have hstate : (v.send x false n).state = v.state := (hw.data hp hx).2
  have data (y : SkBuff) (hy : y ∈ v.queue) : y.flags.fin = false := (hw.data hp hy).1.fin
  have hmem (m : Nat) : m ∈ transmitted (x :: wire) ↔
      v.nxt.toNat ≤ m ∧ m < v.nxt.toNat + x.payload.length ∨ m ∈ transmitted wire := by
    simp [transmitted, SkBuff.numbers, next]
  refine ⟨hnxt, ?_, ?_, h.ends, ?_, ?_, ?_, ?_, ?_⟩
  · intro m hm
    rw [hnxt]
    rcases (hmem m).mp hm with ⟨-, hlt⟩ | hm
    · exact hlt
    · exact Nat.lt_add_right _ (h.below m hm)
  · have := le_iff_toNat_le.mp h.una
    rw [le_iff_toNat_le, hnxt]
    exact Nat.le_add_right_of_le this
  · intro y hy hf
    rw [data y hy] at hf
    cases hf
  · intro hc
    rw [hp] at hc
    cases hc
  · intro hc
    rw [hp] at hc
    cases hc
  · intro ho
    have hcov := h.covered (hstate ▸ ho)
    refine ⟨?_, fun _ => ⟨x, hx, ?_⟩, ?_⟩
    · intro m hu hlt
      rw [hnxt] at hlt
      rw [hmem]
      rcases Nat.lt_or_ge m v.nxt.toNat with hlt' | hge
      · exact .inr (hcov.bytes m hu hlt')
      · exact .inl ⟨hge, hlt⟩
    · rw [hnxt, hend, next]
    · intro y hy hf
      rw [data y hy] at hf
      cases hf
  · intro hc
    rw [hstate, hw.not_closing hp] at hc
    cases hc

theorem Consecutive.send_control (h : Consecutive v wire pc) (hw : Wf v pc)
    (hx : x ∈ v.queue) (hp : pc.phase ≠ .sending)
    (room : x.flags.fin = true → x.endSeq.toNat + 1 < 2 ^ 32) :
    Consecutive (v.send x false n) (x :: wire) pc := by
  have hbytes := transmitted_cons_empty (Pc.allows_payload (hw.allows x hx) hp) wire
  rcases hw.queued hx with ⟨hp', hf, hstate⟩ | ⟨hp', -⟩ | ⟨hp', hf⟩
  · obtain ⟨hnone, hzero⟩ := h.early hp'
    have huna := hzero (ne_nil_of_mem hx)
    change (v.send x false n).state = .synSent at hstate
    have syns (y : SkBuff) (hy : y ∈ v.queue) : y.flags.fin = false := by
      rcases hw.queued hy with ⟨-, hfy, -⟩ | ⟨hpy, -⟩ | ⟨hpy, -⟩
      · rw [hfy]
      · exact absurd hpy hp
      · rw [hp'] at hpy
        cases hpy
    refine ⟨?_, ?_, h.ends, ?_, ?_, h.alone, ?_, ?_⟩
    · rw [hbytes, hnone]
      exact nofun
    · change v.una ≤ _
      rw [huna, le_iff_toNat_le]
      exact Nat.zero_le _
    · intro y hy hfin
      rw [syns y hy] at hfin
      cases hfin
    · rw [hbytes]
      exact h.early
    · rw [hstate]
      exact nofun
    · rw [hstate]
      exact nofun
  · exact absurd hp' hp
  · have hfin : x.flags.fin = true := by rw [hf]
    have only (y : SkBuff) (hy : y ∈ v.queue) : y.flags.fin = true := by
      rw [h.alone hp' y hy x hx, hfin]
    have hact : activedSend x false = true := by simp [activedSend, hfin]
    have hnxt : (v.send x false n).nxt.toNat = x.endSeq.toNat + 1 := by
      simp only [SendView.send, hact, if_true]
      have := room hfin
      rw [UInt32.toNat_add, UInt32.toNat_one]
      omega
    have hle : v.nxt.toNat ≤ (v.send x false n).nxt.toNat := hnxt ▸ h.fins x hx hfin
    refine ⟨?_, ?_, h.ends, ?_, ?_, h.alone, ?_, ?_⟩
    · rw [hbytes]
      exact fun m hm => Nat.lt_of_lt_of_le (h.below m hm) hle
    · exact le_iff_toNat_le.mpr (Nat.le_trans (le_iff_toNat_le.mp h.una) hle)
    · intro y hy _
      rw [hnxt, h.alone hp' y hy x hx]
    · rw [hbytes]
      exact h.early
    · intro ho
      rcases next_open ho with hs | ⟨-, hno⟩
      · rw [hw.connecting hs] at hp'
        cases hp'
      · rw [hfin] at hno
        cases hno
    · exact h.fin_left hx only rfl rfl rfl (.inr hnxt)

theorem Consecutive.send_empty (h : Consecutive v wire pc) (hw : Wf v pc)
    (hx : x ∈ v.queue) (empty : x.payload = [])
    (room : x.flags.fin = true → x.endSeq.toNat + 1 < 2 ^ 32) (n : Nat) :
    Consecutive (v.send x false n) (x :: wire) pc := by
  by_cases hp : pc.phase = .sending
  · have hd := (hw.data hp hx).1
    have ho : x.occupies = false := by simp [SkBuff.occupies, empty, hd.syn, hd.fin]
    rw [SendView.send_mute ho]
    exact h.resend hw hx empty
  · exact h.send_control hw hx hp room

/-- What an acknowledgement leaves in the queue is still consecutive. -/
theorem Consecutive.accept (h : Consecutive v wire pc) (hw : Wf v pc)
    (takes : takesAcks v.state = true) (after : v.una < a) (sent : a ≤ v.nxt) (una : w.una = a)
    (nxt : w.nxt = v.nxt) (state : w.state = v.state)
    (queue : w.queue = v.queue.filter fun x => !ackRemoves a false x) : Consecutive w wire pc := by
  have hsub (x : SkBuff) (hx : x ∈ w.queue) : x ∈ v.queue ∧ a ≤ x.endSeq := by
    rw [queue] at hx
    simpa [ackRemoves] using mem_filter.mp hx
  have hc : connected v.state = true := by
    cases hs : v.state <;> simp_all [takesAcks, connected, synchronized]
  rw [lt_iff_toNat_lt] at after
  refine ⟨?_, ?_, fun x hx => h.ends x (hsub x hx).1, ?_, ?_, ?_, ?_, ?_⟩
  · rw [nxt]
    exact h.below
  · rw [una, nxt]
    exact sent
  · intro x hx
    rw [nxt]
    exact h.fins x (hsub x hx).1
  · intro hp
    refine ⟨(h.early hp).1, fun hq => ?_⟩
    rw [queue, hw.empty hc hp] at hq
    exact absurd rfl hq
  · exact fun hp x hx y hy => h.alone hp x (hsub x hx).1 y (hsub y hy).1
  · intro ho
    have hcov := h.covered (state ▸ ho)
    refine ⟨?_, ?_, ?_⟩
    · intro n hn hlt
      rw [una] at hn
      rw [nxt] at hlt
      exact hcov.bytes n (by omega) hlt
    · intro hne
      have hne' : v.una ≠ v.nxt := by
        intro he
        rw [le_iff_toNat_le, ← he] at sent
        omega
      obtain ⟨x, hx, hend⟩ := hcov.last hne'
      refine ⟨x, ?_, nxt ▸ hend⟩
      rw [queue]
      refine List.mem_filter.mpr ⟨hx, ?_⟩
      rw [una, nxt, ne_eq, ← UInt32.toNat_inj] at hne
      rw [UInt32.le_iff_toNat_le] at sent
      have : a ≤ x.endSeq := UInt32.le_iff_toNat_le.mpr (by omega)
      simpa [ackRemoves] using this
    · intro x hx hf
      rw [nxt]
      exact hcov.fin x (hsub x hx).1 hf
  · intro hcl
    have hl := h.finLeft (state ▸ hcl)
    refine ⟨?_, ?_⟩
    · rw [una, nxt]
      have := hl.next
      omega
    · -- the FIN's own number is below `a`, so it is no longer queued
      intro x hx hf
      obtain ⟨hx, hge⟩ := hsub x hx
      rw [hl.fin x hx hf, le_iff_toNat_le] at hge
      omega

/-- Behind the acknowledged number the sequence numbers count the bytes. -/
theorem Consecutive.left (h : Consecutive v wire pc) (takes : takesAcks v.state = true)
    (after : v.una < a) (sent : a ≤ v.nxt) : (v.nxt - a).toNat = (outstanding a wire).card := by
  rw [UInt32.lt_iff_toNat_lt] at after
  rw [UInt32.toNat_sub_of_le _ _ sent]
  rw [takesAcks_iff, Bool.or_eq_true] at takes
  suffices hs : outstanding a wire = Finset.Ico a.toNat v.nxt.toNat by
    rw [hs, Nat.card_Ico]
  ext n
  simp only [outstanding, Finset.mem_filter, Finset.mem_Ico]
  constructor
  · intro ⟨hn, ha⟩
    exact ⟨ha, h.below n hn⟩
  · intro ⟨ha, hn⟩
    rcases takes with ho | hc
    · exact ⟨(h.covered ho).bytes n (by omega) hn, ha⟩
    · have := (h.finLeft hc).next
      omega

end Steps

/-! ### The handler -/

/-- The segment reopens the window and so flushes the transmission queue. -/
def flushes (s : Sock) (seg : Segment) : Bool :=
  acceptableSegment s seg && seg.flags.ack && takesAcks s.state && windowUpdate s seg &&
    reopens s seg && !s.txQueue.isEmpty

section Received

variable {s t : Sock} {seg : Segment} {pc : Pc}

theorem firstEmpty_head {x : SkBuff} {rest : List SkBuff} (h : firstEmpty s = true)
    (hq : s.txQueue = x :: rest) : x.payload = [] := by
  simpa [firstEmpty, hq] using h

theorem Consecutive.ackMove {u : Sock} (h : Consecutive s.view s.wire pc) (hw : Wf s.view pc)
    (empty : fastRetransmits s seg = true → firstEmpty s = true)
    (kept : windowUpdate s seg = true → takesAcks s.state = true → reopens s seg = true → s.txQueue = [])
    (hm : AckMove s seg u) :
    Consecutive u.view u.wire pc ∧ transmitted u.wire = transmitted s.wire ∧ u.sndNxt = s.sndNxt := by
  cases hm with
  | idle same => exact ⟨h.quiet same, same.wire.transmitted, congrArg SendView.nxt same.view⟩
  | accepted takes new ok =>
    obtain ⟨after, sent⟩ : s.sndUna < seg.ackNumber ∧ seg.ackNumber ≤ s.sndNxt := of_decide_eq_true new
    obtain ⟨-, r, rto, srtt, rttvar, rfl, -⟩ := accept_ok ok
    unfold takeWindow
    split
    · exact ⟨h.accept hw takes after sent rfl rfl rfl rfl, rfl, rfl⟩
    · exact ⟨h.accept hw takes after sent rfl rfl rfl rfl, rfl, rfl⟩
  | updated takes old update =>
    unfold updateWindow
    split
    · rename_i hr
      have hq : (tcpFlushTx s).txQueue = s.txQueue := (kept update takes hr).symm
      exact ⟨h.same rfl rfl rfl hq id id, rfl, rfl⟩
    · exact ⟨h.same rfl rfl rfl rfl id id, rfl, rfl⟩
  | @resent u skb rest third same first =>
    have hx : skb.payload = [] := firstEmpty_head (empty third) first
    have hmem : skb ∈ u.view.queue := by
      rw [same.view]
      exact first_mem first
    have hwu : Wf u.view pc := by rwa [same.view]
    refine ⟨?_, ?_, congrArg SendView.nxt same.view⟩
    · rw [view_send, SendView.send_again]
      exact (h.quiet same).resend hwu hmem hx
    · exact (transmitted_cons_empty hx _).trans same.wire.transmitted

theorem Consecutive.finMove (h : Consecutive s.view s.wire pc) (hm : FinMove s t) :
    Consecutive t.view t.wire pc ∧ transmitted t.wire = transmitted s.wire ∧ t.sndNxt = s.sndNxt := by
  cases hm with
  | idle same => exact ⟨h.quiet same, same.wire.transmitted, congrArg SendView.nxt same.view⟩
  | finWait2 hs finAcked =>
    refine ⟨h.same rfl rfl rfl rfl nofun fun _ => ?_, rfl, rfl⟩
    change isClosing s.state = true
    rw [hs]
    rfl
  | timeWait hs finAcked => exact ⟨h.leave rfl rfl rfl (fun _ hx => hx) rfl rfl, rfl, rfl⟩

theorem Consecutive.replyMove (h : Consecutive s.view s.wire pc)
    (room : seg.flags.fin = true → s.sndNxt.toNat + 1 < 2 ^ 32) (hm : ReplyMove s seg t) :
    Consecutive t.view t.wire pc ∧ transmitted t.wire = transmitted s.wire := by
  cases hm with
  | quiet same => exact ⟨h.quiet same, same.wire.transmitted⟩
  | passive fin hs data view mute =>
    rw [view]
    refine ⟨h.same mute.transmitted rfl rfl rfl (fun _ => ?_) nofun, mute.transmitted⟩
    change isOpen s.state = true
    rw [hs]
    rfl
  | @answered x r w fin hs isFin armed view mute wire =>
    have ho : isOpen s.view.state = true := by
      change isOpen s.state = true
      rcases hs with ⟨hs, -⟩ | hs <;> rw [hs] <;> rfl
    have hbytes : transmitted t.wire = transmitted s.wire := by
      rw [wire, transmitted_cons_empty isFin.payload]
      exact mute.transmitted
    have hnxt : (s.sndNxt + 1).toNat = s.view.nxt.toNat + 1 := by
      have := room fin
      rw [UInt32.toNat_add, UInt32.toNat_one, Nat.mod_eq_of_lt this]
      rfl
    rw [view]
    refine ⟨⟨?_, ?_, h.ends, ?_, ?_, h.alone, nofun, nofun⟩, hbytes⟩
    · rw [hbytes]
      intro n hn
      rw [hnxt]
      exact Nat.lt_succ_of_lt (h.below n hn)
    · have := le_iff_toNat_le.mp h.una
      change s.view.una ≤ s.sndNxt + 1
      rw [le_iff_toNat_le, hnxt]
      omega
    · intro y hy hf
      rw [hnxt, (h.covered ho).fin y hy hf]
    · rw [hbytes]
      exact h.early
  | closing fin hs view mute =>
    rw [view]
    refine ⟨h.same mute.transmitted rfl rfl rfl nofun fun _ => ?_, mute.transmitted⟩
    change isClosing s.state = true
    rw [hs]
    rfl
  | timeWait fin hs view mute =>
    rw [view]
    exact ⟨h.leave mute.transmitted rfl rfl (fun _ hx => hx) rfl rfl, mute.transmitted⟩
  | again fin hs view mute =>
    rw [view]
    exact ⟨h.same mute.transmitted rfl rfl rfl id id, mute.transmitted⟩

theorem Consecutive.handled (h : Consecutive s.view s.wire pc) (hw : Wf s.view pc)
    (empty : resendsFirst s seg = true → firstEmpty s = true) (kept : flushes s seg = false)
    (room : seg.flags.fin = true → s.sndNxt.toNat + 1 < 2 ^ 32) (hm : Handled s seg t) :
    Consecutive t.view t.wire pc ∧ transmitted t.wire = transmitted s.wire := by
  cases hm with
  | quiet same => exact ⟨h.quiet same, same.wire.transmitted⟩
  | rejected hs view mute | aborted hs why view mute | closed hs _ _ _ _ _ view mute =>
    rw [view]
    exact ⟨h.leave mute.transmitted rfl rfl (fun _ hx => hx) rfl rfl, mute.transmitted⟩
  | flushed hs why view mute =>
    rw [view]
    exact ⟨h.leave mute.transmitted rfl rfl nofun rfl rfl, mute.transmitted⟩
  | refused hs => exact ⟨h.leave rfl rfl rfl (fun _ hx => hx) rfl rfl, rfl⟩
  | @opened b u _ hs after sent base wire ok view mute =>
    have hempty : u.txQueue = [] := (hw.opened hs after base ok).2
    have hnone := (h.early (hw.connecting hs)).1
    obtain ⟨-, r, rto, srtt, rttvar, rfl, -⟩ := accept_ok ok
    have hbytes : transmitted t.wire = transmitted s.wire := by
      rw [mute.transmitted]
      exact congrArg transmitted wire
    have hn : b.sndNxt = seg.ackNumber := congrArg SendView.nxt base
    have hview : t.view.queue = [] ∧ t.view.una = t.view.nxt := by
      rw [view]
      exact ⟨hempty, hn.symm⟩
    exact ⟨.fresh hview.1 hview.2 (hbytes.trans hnone), hbytes⟩
  | @processed u w _ hs acceptable flag syn rst ack fin reply =>
    have hf : fastRetransmits s seg = true → firstEmpty s = true := fun hfast =>
      empty (by simp [resendsFirst, acceptable, flag, hfast])
    have hk (hu : windowUpdate s seg = true) (ht : takesAcks s.state = true)
        (hr : reopens s seg = true) : s.txQueue = [] := by
      simpa [flushes, acceptable, flag, hu, ht, hr] using kept
    obtain ⟨hu, hub, hun⟩ := h.ackMove hw hf hk ack
    obtain ⟨hv, hvb, hvn⟩ := hu.finMove fin
    have hn : w.sndNxt = s.sndNxt := hvn.trans hun
    rw [← hn] at room
    obtain ⟨ht, htb⟩ := hv.replyMove room reply
    exact ⟨ht, htb.trans (hvb.trans hub)⟩

end Received

/-! ### Whole runs -/

/-- What `tcp_transmit` sends next starts at `snd_nxt` and does not reach the end
of the sequence space. -/
def headSequential (s : Sock) (h : Nat) : Bool :=
  (s.txQueue.find? (fun x => x.addr == h)).all fun x =>
    (!x.flags.fin || x.endSeq.toNat + 1 < 2 ^ 32) &&
      (x.payload.isEmpty || (x.seq == s.sndNxt && x.seq.toNat + x.payload.length < 2 ^ 32))

/-- No payload is sent a second time, whether by `tcp_transmit` going back, by a timer
or by fast retransmit, and the queue is not flushed. -/
def countsOnce (s : Sys) : Event → Bool
  | .app =>
    match s.pc, s.sk.sendHead with
    | .transmitLocked _, some h => tcpSenderAvailableWindow s.sk == 0 || headSequential s.sk h
    | _, _ => true
  | .retransmitTimer => firstEmpty s.sk
  | .persistTimer => s.sk.sndWnd != 0
  | .receive seg _ => (!resendsFirst s.sk seg || firstEmpty s.sk) && !flushes s.sk seg &&
      (!seg.flags.fin || s.sk.sndNxt.toNat + 1 < 2 ^ 32)
  | _ => true

structure Counted (s : Sock) (pc : Pc) : Prop where
  numbers : Consecutive s.view s.wire pc
  count : s.flightSize.toNat = (outstanding s.sndUna s.wire).card

section Count

variable {s t : Sock} {pc : Pc}

/-- What sends nothing and acknowledges nothing keeps the count. -/
theorem Counted.kept (h : Counted s pc) (numbers : Consecutive t.view t.wire pc)
    (bytes : transmitted t.wire = transmitted s.wire) (flying : t.flying = s.flying) :
    Counted t pc := by
  obtain ⟨una, size⟩ := Prod.mk.inj flying
  refine ⟨numbers, ?_⟩
  rw [size, una, outstanding, bytes]
  exact h.count

theorem Counted.handled {seg : Segment} {garbage : UInt16 × UInt8} (h : Counted s pc)
    (hw : Wf s.view pc) (empty : resendsFirst s seg = true → firstEmpty s = true)
    (kept : flushes s seg = false) (room : seg.flags.fin = true → s.sndNxt.toNat + 1 < 2 ^ 32)
    (ok : tcpHandler s seg garbage = .ok t) : Counted t pc := by
  obtain ⟨hn, hbytes⟩ :=
    h.numbers.handled hw empty kept room (handler_handled hw.reached ok)
  have hr : s.state ≠ .synRecv := hw.reached
  rcases flying_handler hr empty ok with hf | ⟨hs, hz⟩
  · split at hf
    · rename_i ha
      simp only [advancesUna, acceptsAck, and_eq_true] at ha
      obtain ⟨-, ⟨-, takes⟩, new⟩ := ha
      obtain ⟨after, sent⟩ : s.sndUna < seg.ackNumber ∧ seg.ackNumber ≤ s.sndNxt :=
        of_decide_eq_true new
      obtain ⟨una, size⟩ := Prod.mk.inj hf
      refine ⟨hn, ?_⟩
      rw [size, una, outstanding, hbytes]
      exact h.numbers.left takes after sent
    · exact h.kept hn hbytes hf
  · refine ⟨hn, ?_⟩
    rw [hz, outstanding, hbytes, (h.numbers.early (hw.connecting hs)).1]
    rfl

variable {a : Nat} {x : SkBuff}

theorem flying_transmit (hx : s.txQueue.find? (fun x => x.addr == a) = some x)
    (ok : transmitHead s a = .ok t) :
    t.flying = (s.sndUna, s.flightSize + UInt32.ofNat x.payload.length) := by
  unfold transmitHead at ok
  rw [hx] at ok
  dsimp only at ok
  split at ok
  · exact Except.ok.inj ok ▸ rfl
  · split at ok
    · cases ok
    · exact Except.ok.inj ok ▸ rfl

/-- A first transmission adds its payload to what is outstanding. -/
theorem outstanding_send {v : SendView} {wire : List SkBuff}
    (h : Consecutive v wire pc) (next : x.seq = v.nxt) :
    (outstanding v.una (x :: wire)).card = x.payload.length + (outstanding v.una wire).card := by
  have hle := le_iff_toNat_le.mp h.una
  have hall : x.numbers.filter (v.una.toNat ≤ ·) = x.numbers := by
    refine Finset.filter_true_of_mem fun n hn => ?_
    simp only [SkBuff.numbers, next, Finset.mem_Ico] at hn
    omega
  have hdisj : Disjoint x.numbers ((transmitted wire).filter (v.una.toNat ≤ ·)) := by
    refine Finset.disjoint_left.mpr fun n hn hm => ?_
    simp only [SkBuff.numbers, next, Finset.mem_Ico] at hn
    have := h.below n (Finset.mem_of_mem_filter n hm)
    omega
  rw [outstanding, transmitted, Finset.filter_union, hall, Finset.card_union_of_disjoint hdisj]
  simp [SkBuff.numbers, outstanding]

theorem outstanding_le {v : SendView} {wire : List SkBuff} (h : Consecutive v wire pc) :
    (outstanding v.una wire).card ≤ v.nxt.toNat - v.una.toNat := by
  refine (Finset.card_le_card (t := Finset.Ico v.una.toNat v.nxt.toNat) fun n hn => ?_).trans ?_
  · obtain ⟨hn, hu⟩ := Finset.mem_filter.mp hn
    exact Finset.mem_Ico.mpr ⟨hu, h.below n hn⟩
  · rw [Nat.card_Ico]

/-- Sending in order counts each byte once. -/
theorem Counted.transmit (h : Counted s pc) (hw : Wf s.view pc)
    (hf : headSequential s a = true) (ok : transmitHead s a = .ok t) : Counted t pc := by
  obtain ⟨x, hfind, -, hv, hwire⟩ := transmitHead_ok ok
  have hx : x ∈ s.view.queue := mem_of_find?_eq_some hfind
  have hfly := flying_transmit hfind ok
  simp only [headSequential, hfind, Option.all_some, Bool.and_eq_true, Bool.or_eq_true,
    Bool.not_eq_true', decide_eq_true_eq, beq_iff_eq, List.isEmpty_iff] at hf
  obtain ⟨hfin, hdata⟩ := hf
  by_cases he : x.payload = []
  · have hbytes : transmitted t.wire = transmitted s.wire := by
      rw [hwire, transmitted_cons_empty he]
    refine h.kept ?_ hbytes ?_
    · have hn := h.numbers.send_empty hw hx he (fun hb => by simpa [hb] using hfin)
        (s.now + s.rto.toNat)
      rw [hv, hwire]
      exact hn.same rfl rfl rfl rfl id id
    · rw [hfly, he]
      simp [Sock.flying]
  · obtain ⟨next, room⟩ := hdata.resolve_left he
    have hp : pc.phase = .sending := by
      by_contra hp
      exact he (Pc.allows_payload (hw.allows x hx) hp)
    obtain ⟨hnxt, hn⟩ := h.numbers.send_data (n := s.now + s.rto.toNat) hw hx hp he next room
    obtain ⟨una, size⟩ := Prod.mk.inj hfly
    constructor
    · rw [hv, hwire]
      exact hn.same rfl rfl rfl rfl id id
    · have hcard := outstanding_send h.numbers next
      have hcount := h.count
      have hle := outstanding_le hn
      change (outstanding s.sndUna (x :: s.wire)).card = _ + (outstanding s.sndUna s.wire).card at hcard
      change (outstanding s.sndUna (x :: s.wire)).card ≤ _ at hle
      have hlt := UInt32.toNat_lt (s.view.send x false (s.now + s.rto.toNat)).nxt
      rw [hwire, una, size, hcard, UInt32.toNat_add, UInt32.toNat_ofNat', hcount]
      omega

theorem Counted.enqueue {pc' : Pc} (h : Counted s pc)
    (ends : x.endSeq = x.seq + UInt32.ofNat (x.payload.length - 1))
    (fin : x.flags.fin = true → x.endSeq = s.sndNxt ∧ isClosing s.state = false)
    (early : pc'.phase ≠ .connecting) (alone : pc'.phase = .closing → s.txQueue = []) :
    Counted (tcpTxQueueAddSkb s x) pc' := by
  have hmem {y : SkBuff} (hy : y ∈ (tcpTxQueueAddSkb s x).view.queue) : y ∈ s.view.queue ∨ y = x := by
    simpa [tcpTxQueueAddSkb, Sock.view] using hy
  refine ⟨⟨h.numbers.below, h.numbers.una, ?_, ?_, fun hp => absurd hp early, ?_, ?_, ?_⟩, h.count⟩
  · intro y hy
    rcases hmem hy with hy | rfl
    · exact h.numbers.ends y hy
    · exact ends
  · intro y hy hf
    rcases hmem hy with hy | rfl
    · exact h.numbers.fins y hy hf
    · rw [(fin hf).1]
      exact Nat.le_succ _
  · intro hp y hy z hz
    have hq : s.view.queue = [] := alone hp
    rcases hmem hy with hy | rfl
    · rw [hq] at hy
      cases hy
    · rcases hmem hz with hz | rfl
      · rw [hq] at hz
        cases hz
      · rfl
  · intro ho
    have hc := h.numbers.covered ho
    refine ⟨hc.bytes, fun hne => ?_, fun y hy hf => ?_⟩
    · obtain ⟨y, hy, he⟩ := hc.last hne
      exact ⟨y, mem_append_left _ hy, he⟩
    · rcases hmem hy with hy | rfl
      · exact hc.fin y hy hf
      · exact (fin hf).1
  · intro hcl
    have hl := h.numbers.finLeft hcl
    refine ⟨hl.next, fun y hy hf => ?_⟩
    rcases hmem hy with hy | rfl
    · exact hl.fin y hy hf
    · rw [show isClosing s.state = true from hcl] at fin
      cases (fin hf).2

theorem Counted.goto (h : Counted s pc) (pc' : Pc) (view : t.view = { s.view with persist := t.persistTimer })
    (wire : t.wire = s.wire) (size : t.flightSize = s.flightSize)
    (early : pc'.phase = .connecting → pc.phase = .connecting)
    (alone : pc'.phase = .closing → pc.phase = .closing) : Counted t pc' := by
  have hn : Consecutive t.view t.wire pc := by
    rw [view, wire]
    exact h.numbers.same rfl rfl rfl rfl id id
  have una : t.sndUna = s.sndUna := congrArg SendView.una view
  refine ⟨⟨hn.below, hn.una, hn.ends, hn.fins, fun hp => hn.early (early hp),
    fun hp => hn.alone (alone hp), hn.covered, hn.finLeft⟩, ?_⟩
  rw [size, una, wire]
  exact h.count

theorem flying_retransmit (first : firstEmpty s = true) (ok : tcpRetransmitTimer s = .ok t) :
    t.flying = s.flying := by
  unfold tcpRetransmitTimer at ok
  dsimp only at ok
  split at ok
  · cases ok
  · rename_i x rest hq
    split at ok
    · cases ok
    · cases ok
      exact flying_send (s := s) (b := true) (firstEmpty_head first hq)

/-- Sending a buffer without payload again counts nothing twice. -/
theorem Counted.retransmit (h : Counted s pc) (hw : Wf s.view pc) (first : firstEmpty s = true)
    (ok : tcpRetransmitTimer s = .ok t) : Counted t pc := by
  obtain ⟨x, rest, n, hq, -, hv, hwire⟩ := retransmit_ok ok
  have hx := firstEmpty_head first hq
  have hr := h.numbers.resend hw (first_mem hq) hx
  refine h.kept ?_ ?_ (flying_retransmit first ok)
  · rw [hv, hwire]
    exact hr.same rfl rfl rfl rfl id id
  · rw [hwire, transmitted_cons_empty hx]

theorem Counted.persist (h : Counted s pc) (wnd : s.sndWnd ≠ 0) (ok : tcpPersistTimer s = .ok t) :
    Counted t pc := by
  unfold tcpPersistTimer at ok
  rw [if_pos wnd] at ok
  cases ok
  exact h.goto pc rfl rfl rfl id id

theorem Counted.msl (h : Counted s pc) (ok : tcpMslTimer s = .ok t) : Counted t pc := by
  unfold tcpMslTimer at ok
  split at ok
  · cases ok
    exact h.kept (h.numbers.leave rfl rfl rfl (fun _ hx => hx) rfl rfl) rfl rfl
  · cases ok

end Count

/-- The flight size follows the numbers in every move of the socket. -/
theorem Counted.step {s t : Sys} {e : Event} (h : Counted s.sk s.pc) (hw : Wf s.sk.view s.pc)
    (ok : countsOnce s e = true) (hm : Moves s e t) : Counted t.sk t.pc := by
  cases hm with
  | refused hp => exact h
  | connect seed hp =>
    have hq : s.sk.txQueue = [] := by
      rw [hp] at hw
      exact hw.no_queue (by rintro _ ⟨⟩)
    have hsyn (x : SkBuff) (hx : x ∈ (tcpConnect s.sk seed).txQueue) :
        x.flags.fin = false ∧ x.endSeq = x.seq + UInt32.ofNat (x.payload.length - 1) := by
      change x ∈ s.sk.txQueue ++ [_] at hx
      rw [hq] at hx
      obtain rfl := mem_singleton.mp hx
      exact ⟨rfl, rfl⟩
    refine ⟨⟨(by rintro _ ⟨⟩), (by decide : (0 : UInt32) ≤ 1), fun x hx => (hsyn x hx).2, ?_,
      fun _ => ⟨rfl, fun _ => rfl⟩, (by rintro ⟨⟩), (by rintro ⟨⟩), (by rintro ⟨⟩)⟩, rfl⟩
    intro x hx hf
    rw [(hsyn x hx).1] at hf
    cases hf
  | sendmsg | recvmsg | round | chunksDone | sendReturn | recvReturn | recvWait | recvAwake
  | shutdownReturn =>
    exact h.goto _ rfl rfl rfl (fun hc => by cases hc) (fun hc => by cases hc)
  | shutdownWait hp | shutdownAwake hp =>
    rw [hp] at h
    exact h.goto _ rfl rfl rfl (fun hc => by cases hc) id
  | shutdown hp =>
    rw [hp] at hw
    have hq : s.sk.txQueue = [] := hw.no_queue (by rintro _ ⟨⟩)
    refine h.enqueue rfl (fun _ => ⟨?_, ?_⟩) (by rintro ⟨⟩) fun _ => hq
    · simp [tcpCreateSkb]
    · have := hw.admits
      cases hs : s.sk.state <;> simp_all [Sock.view, Pc.phase, Phase.admits, isClosing]
  | @probe l sk hp more hs ok' =>
    obtain ⟨-, -, rfl⟩ := queueProbe_ok ok'
    have hg : Counted { s.sk with persistTimer := some (s.sk.now + 1000) } s.pc :=
      h.goto _ rfl rfl rfl id id
    exact hg.enqueue rfl (by rintro ⟨⟩) (by rintro ⟨⟩) (by rintro ⟨⟩)
  | chunk hp lt le => exact h.enqueue rfl (by rintro ⟨⟩) (by rintro ⟨⟩) (by rintro ⟨⟩)
  | @transmitReturn k hp empty =>
    rw [hp] at h
    cases k with
    | connect | probe l | chunks l =>
      exact h.goto _ rfl rfl rfl (fun hc => by cases hc) (fun hc => by cases hc)
    | shutdown => exact h.goto _ rfl rfl rfl (fun hc => by cases hc) id
  | lock hp | sleep hp | awake hp =>
    rw [hp] at h
    exact h.goto _ rfl rfl rfl id id
  | @transmit k a sk hp head avail ok' =>
    have hf : headSequential s.sk a = true := by
      have hne : tcpSenderAvailableWindow s.sk ≠ 0 := by
        intro he
        rw [he] at avail
        exact absurd avail (by decide)
      simpa [countsOnce, hp, head, hne] using ok
    exact h.transmit hw hf ok'
  | @receive seg garbage sk unlocked ht =>
    simp only [countsOnce, and_eq_true, or_eq_true, not_eq_true',
      decide_eq_true_eq] at ok
    obtain ⟨⟨hr, hk⟩, hf⟩ := ok
    exact h.handled hw (fun he => hr.resolve_left (by simp [he])) hk
      (fun he => hf.resolve_left (by simp [he])) ht
  | retransmitTimer unlocked armed ok' => exact h.retransmit hw ok ok'
  | persistTimer unlocked armed ok' => exact h.persist (by simpa [countsOnce] using ok) ok'
  | mslTimer unlocked armed ok' => exact h.msl ok'
  | tick ms unlocked => exact h.goto _ rfl rfl rfl id id
  | wake unlocked => exact h.goto _ rfl rfl rfl id id

/-- Where every payload byte is sent once, `flight_size` is the number of bytes that
are sent and not acknowledged. -/
theorem flight_size_counts {s : Sys} (run : Run advance (fun a e => countsOnce a e = true) {} s) :
    s.sk.flightSize.toNat = (outstanding s.sk.sndUna s.sk.wire).card := by
  have h : Counted s.sk s.pc ∧ Wf s.sk.view s.pc := by
    refine run.invariant (I := fun s => Counted s.sk s.pc ∧ Wf s.sk.view s.pc) ?_ ?_
    · exact ⟨⟨.fresh rfl rfl rfl, rfl⟩, Wf.start⟩
    · intro a e b ⟨ha, hw⟩ hok hb
      have hm := moves_of_advance hb
      exact ⟨ha.step hw hok hm, hw.moves hm⟩
  exact h.1.count

theorem flight_size_two_left : ∃ s : Sys, Run advance (fun a e => countsOnce a e = true) {} s ∧
    s.sk.state = .established ∧ s.sk.flightSize = 2 ∧
    s.sk.flightSize.toNat = (outstanding s.sk.sndUna s.sk.wire).card := by
  obtain ⟨s, run, hs, hf⟩ := replay_reaches advance (fun a e => countsOnce a e = true) {}
    (fourBytesSent ++ [.receive (pureAck 476707716 4) (0, 0)])
    (P := fun s => s.sk.state = .established ∧ s.sk.flightSize = 2) (by decide)
  exact ⟨s, run, hs, hf, flight_size_counts run⟩

/-- Four bytes are sent, and the retransmission timer sends the first two of them again:
six are counted. -/
theorem flight_size_counts_twice : ∃ s : Sys, Run advance (fun _ _ => True) {} s ∧
    s.sk.state = .established ∧ s.sk.flightSize = 6 ∧
    (outstanding s.sk.sndUna s.sk.wire).card = 4 := by
  obtain ⟨s, run, hs, hf, ho⟩ := replay_reaches advance (fun _ _ => True) {}
    (fourBytesSent ++ [.tick 3000, .retransmitTimer])
    (P := fun s => s.sk.state = .established ∧ s.sk.flightSize = 6 ∧
      (outstanding s.sk.sndUna s.sk.wire).card = 4) (by decide)
  exact ⟨s, run, hs, hf, ho⟩

end Mos.Tcp
