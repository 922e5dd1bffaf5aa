import Mos.Proofs.Steps

namespace Mos.Tcp
open Machine

def firstBytes (queue : List Segment) (n : Nat) : List UInt8 := (queue.take n).flatMap Segment.payload

/-- What one look of `tcp_recvmsg` at the queue is to do: wait and leave everything as it is,
or return the number of the bytes it has copied and taken off the queue, at most `msg_len`. -/
inductive Conserves (s : Sys) (msgLen : UInt32) (t : Sys) : Prop
  | waits (pc : t.pc = .recvSleep msgLen) (queue : t.sk.rxQueue = s.sk.rxQueue)
      (received : t.received = s.received)
  | returns (n : Nat) (pc : t.pc = .user) (queue : t.sk.rxQueue = s.sk.rxQueue.drop n)
      (received : t.received = s.received ++ firstBytes s.sk.rxQueue n)
      (room : (firstBytes s.sk.rxQueue n).length ≤ msgLen.toNat)
      (ret : t.ret = (firstBytes s.sk.rxQueue n).length)

/-- Behind `total` bytes the queue goes on with segments that fit. The code keeps 16 bits of the
total; it stops at a segment with PSH or where those are `msg_len`. -/
def Fits (msgLen : Nat) : List Segment → Nat → Prop
  | [], _ => True
  | seg :: rest, total =>
    if seg.flags.psh = true ∨ (total + seg.payload.length) % 65536 = msgLen then
      total + seg.payload.length ≤ msgLen ∧ total + seg.payload.length < 2 ^ 31
    else
      (total + seg.payload.length) % 65536 ≤ msgLen ∧ Fits msgLen rest (total + seg.payload.length)

theorem firstBytes_cons (seg : Segment) (rest : List Segment) (n : Nat) :
    (firstBytes (seg :: rest) (n + 1)).length = seg.payload.length + (firstBytes rest n).length := by
  simp [firstBytes]

/-- The sum of what was copied stays in the buffer and in an `int`. -/
theorem fits_iff (msgLen : UInt32) (queue : List Segment) (total : Nat) (receivedLen : UInt16)
    (low : receivedLen.toNat = total % 65536) :
    Fits msgLen.toNat queue total ↔ ∃ found, recvScan msgLen queue receivedLen = .ok found ∧
      ∀ n, found = some n → total + (firstBytes queue n).length ≤ msgLen.toNat ∧
        total + (firstBytes queue n).length < 2 ^ 31 := by
  induction queue generalizing total receivedLen with
  | nil => exact iff_of_true trivial ⟨none, rfl, nofun⟩
  | cons seg rest ih =>
    have hnext : (receivedLen + UInt16.ofNat seg.payload.length).toNat =
        (total + seg.payload.length) % 65536 := by
      simp [low]
    have hpast : msgLen < (receivedLen + UInt16.ofNat seg.payload.length).toUInt32 ↔
        msgLen.toNat < (total + seg.payload.length) % 65536 := by
      rw [UInt32.lt_iff_toNat_lt, UInt16.toNat_toUInt32, hnext]
    have hstop : msgLen = (receivedLen + UInt16.ofNat seg.payload.length).toUInt32 ↔
        (total + seg.payload.length) % 65536 = msgLen.toNat := by
      rw [← UInt32.toNat_inj, UInt16.toNat_toUInt32, hnext, eq_comm]
    simp only [Fits, recvScan, hpast, hstop, or_comm (a := seg.flags.psh = true)]
    by_cases hp : msgLen.toNat < (total + seg.payload.length) % 65536
    · -- the assertion fails, and nothing fits
      simp only [if_pos hp, reduceCtorEq, false_and, exists_false, iff_false]
      split
      · omega
      · exact fun h => absurd h.1 (Nat.not_le.mpr hp)
    · split
      · have hone : (firstBytes (seg :: rest) 1).length = seg.payload.length := by
          simp [firstBytes]
        simp [hone]
      · rw [ih _ _ hnext, and_iff_right (Nat.not_lt.mp hp)]
        constructor
        · intro ⟨found, hs, hf⟩
          refine ⟨found.map (· + 1), by rw [hs]; rfl, ?_⟩
          intro n hn
          obtain ⟨m, rfl, rfl⟩ := Option.map_eq_some_iff.mp hn
          rw [firstBytes_cons, ← Nat.add_assoc]
          exact hf m rfl
        · intro ⟨found, hs, hf⟩
          obtain ⟨inner, hinner, rfl⟩ := map_ok.mp hs
          refine ⟨inner, hinner, ?_⟩
          intro n hn
          have := hf (n + 1) (by rw [hn]; rfl)
          rwa [firstBytes_cons, ← Nat.add_assoc] at this

theorem asInt_eq_iff (n : Nat) : asInt n = n ↔ n < 2 ^ 31 := by
  unfold asInt
  constructor
  · intro h
    have := Int.bmod_lt (x := n) (m := 2 ^ 32) (by decide)
    omega
  · intro h
    apply Int.bmod_eq_of_le <;> omega

section Pass

variable {s : Sys} {msgLen : UInt32}

theorem returnCode_open (h : s.sk.state = .established ∨ s.sk.state = .finWait1) (n : Int) :
    tcpReturnCode s.sk n = n := by
  rcases h with h | h <;> simp [tcpReturnCode, h]

theorem recvReturn_conserves (h : s.sk.state = .established ∨ s.sk.state = .finWait1) (n : Nat) :
    Conserves s msgLen (recvReturn s n) ↔ (firstBytes s.sk.rxQueue n).length ≤ msgLen.toNat ∧
      (firstBytes s.sk.rxQueue n).length < 2 ^ 31 := by
  have hret : (recvReturn s n).ret = asInt (firstBytes s.sk.rxQueue n).length :=
    returnCode_open h _
  constructor
  · intro hc
    cases hc with
    | waits pc => cases pc
    | returns m _ _ received room ret =>
      -- the copied bytes tell how many there were
      have hsame : firstBytes s.sk.rxQueue n = firstBytes s.sk.rxQueue m :=
        List.append_cancel_left received
      rw [hret, hsame] at ret
      rw [hsame]
      exact ⟨room, (asInt_eq_iff _).mp ret⟩
  · intro ⟨room, short⟩
    exact .returns n rfl rfl rfl room (hret.trans ((asInt_eq_iff _).mpr short))

theorem recvPass_closed (h : ¬(s.sk.state = .established ∨ s.sk.state = .finWait1)) {t : Sys}
    (ht : recvPass s msgLen = .ok t) : t.pc = .user ∧ t.ret = -1 := by
  rw [recvPass, if_neg h] at ht
  cases ht
  refine ⟨rfl, ?_⟩
  simp only [recvReturn, tcpReturnCode]
  split <;> simp_all

end Pass

/-- In `tcp_recvmsg`, a look at the queue conserves the bytes and trips no assertion exactly
if the connection is open for receiving and the queue fits. -/
theorem recvmsg_conserves_iff (s : Sys) (msgLen : UInt32) :
    (∃ t, step { s with pc := .recvLoop msgLen } .app = some (.ok t) ∧ Conserves s msgLen t) ↔
      (s.sk.state = .established ∨ s.sk.state = .finWait1) ∧
        Fits msgLen.toNat s.sk.rxQueue 0 := by
  have hstep : step { s with pc := .recvLoop msgLen } .app = some (recvPass s msgLen) := rfl
  simp only [hstep, Option.some.injEq]
  by_cases hopen : s.sk.state = .established ∨ s.sk.state = .finWait1
  · rw [and_iff_right hopen, fits_iff msgLen _ 0 0 rfl, recvPass, if_pos hopen]
    simp only [Nat.zero_add]
    constructor
    · intro ⟨t, ht, hc⟩
      obtain ⟨found, hs, rfl⟩ := map_ok.mp ht
      refine ⟨found, hs, ?_⟩
      intro n hn
      subst hn
      exact (recvReturn_conserves hopen n).mp hc
    · intro ⟨found, hs, hf⟩
      refine ⟨_, map_ok.mpr ⟨found, hs, rfl⟩, ?_⟩
      cases found with
      | none => exact .waits rfl rfl rfl
      | some n => exact (recvReturn_conserves hopen n).mpr (hf n rfl)
  · refine iff_of_false ?_ (fun h => hopen h.1)
    intro ⟨t, ht, hc⟩
    obtain ⟨hpc, hret⟩ := recvPass_closed hopen ht
    cases hc with
    | waits pc =>
      rw [hpc] at pc
      cases pc
    | returns _ _ _ _ _ ret =>
      omega

def twoBytes : Segment where
  seq := 6
  ackNumber := 476707714
  flags := { ack := true, psh := true }
  window := 1000
  payload := [1, 2]

/-- The peer has sent two bytes where the caller asked for one. -/
theorem recvmsg_past_end : ∃ s : Sys, Run advance (fun _ _ => True) {} s ∧ s.pc = .recvLoop 1 ∧
    s.sk.state = .established ∧ step s .app = some (.error .receivedPastEnd) := by
  obtain ⟨s, run, hp, hs, hfails⟩ := replay_reaches advance (fun _ _ => True) {}
    (opening (synAck 1000) ++ [.receive twoBytes (0, 0), .recvmsg 1])
    (P := fun s => s.pc = .recvLoop 1 ∧ s.sk.state = .established ∧
      failsWith .receivedPastEnd (step s .app) = true) (by decide)
  exact ⟨s, run, hp, hs, failsWith_eq hfails⟩

end Mos.Tcp
