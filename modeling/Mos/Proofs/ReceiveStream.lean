import Mos.Proofs.Steps

namespace Mos.Tcp
open Machine

structure RecvView where
  irs : UInt32
  nxt : UInt32
  queue : List Segment

def Sock.recv (s : Sock) : RecvView := ⟨s.rcvIrs, s.rcvNxt, s.rxQueue⟩

/-- The bytes received so far: those `tcp_recvmsg` has returned, then those queued. -/
def delivered (s : Sys) : List UInt8 := s.received ++ s.sk.rxQueue.flatMap Segment.payload

/-- The bytes received so far are a prefix of the peer's stream `S`, and `rcv_nxt`
counts them. -/
def InStream (S : List UInt8) (s : Sys) : Prop :=
  delivered s <+: S ∧ s.sk.rcvNxt = s.sk.rcvIrs + 1 + UInt32.ofNat (delivered s).length

instance (S : List UInt8) (s : Sys) : Decidable (InStream S s) :=
  inferInstanceAs (Decidable (_ ∧ _))

/-- A data segment that carries the slice of `S` its sequence number stands for. -/
def carriesSlice (S : List UInt8) (irs : UInt32) (seg : Segment) : Bool :=
  let offset := (seg.seq - (irs + 1)).toNat
  !seg.flags.syn && !seg.flags.fin && !seg.flags.rst && offset + seg.payload.length ≤ S.length &&
    (S.drop offset).take seg.payload.length == seg.payload

/-- The peer sends its stream in any order, and the thread receives. -/
def streamEvent (S : List UInt8) (irs : UInt32) : Event → Bool
  | .receive seg _ => carriesSlice S irs seg
  | .recvmsg _ | .app | .tick _ | .wake => true
  | _ => false

/-- The connection is open and nothing has been received, and the numbers of the
bytes of `S` do not wrap around. -/
def Opened (S : List UInt8) (s : Sys) : Prop :=
  s.sk.state = .established ∧ s.pc = .user ∧ delivered s = [] ∧ s.sk.rcvNxt = s.sk.rcvIrs + 1 ∧
    s.sk.rcvIrs.toNat + 1 + S.length < 2 ^ 32

instance (S : List UInt8) (s : Sys) : Decidable (Opened S s) :=
  inferInstanceAs (Decidable (_ ∧ _))

/-- The segment passes the window test and step five, so that its data is taken. -/
def reachesData (s : Sock) (seg : Segment) : Bool :=
  acceptableSegment s seg && seg.flags.ack && (seg.ackNumber ≤ s.sndNxt || duplicateAck s seg)

/-- No data is taken from a segment that does not start at `rcv_nxt`. -/
def inOrder (s : Sys) : Event → Bool
  | .receive seg _ => seg.payload.isEmpty || !reachesData s.sk seg || seg.seq == s.sk.rcvNxt
  | _ => true

variable {s t sk : Sock} {seg : Segment} {S : List UInt8} {irs : UInt32}

theorem accept_recv {a : UInt32} (h : tcpAcceptAck s a false = .ok t) :
    t.recv = s.recv ∧ t.state = s.state := by
  obtain ⟨-, r, rto, srtt, rttvar, rfl, -⟩ := accept_ok h
  exact ⟨rfl, rfl⟩

theorem takesData_next {st : TcpState} (flags : Flags) (h : takesData st = true) :
    takesData (nextState st flags) = true := by
  cases hf : flags.fin <;> cases st <;> simp_all [takesData, nextState]

theorem count_recv (hs : takesData s.state = true) (h : countDuplicateAck s = .ok t) :
    t.recv = s.recv ∧ takesData t.state = true := by
  unfold countDuplicateAck at h
  dsimp only at h
  split at h
  · split at h
    · cases h
    · rename_i skb rest _
      cases h
      exact ⟨rfl, takesData_next skb.flags hs⟩
  · split at h
    · cases h
      exact ⟨rfl, hs⟩
    · cases h
      exact ⟨rfl, hs⟩

/-- Step five leaves the receiving half alone, and goes on to the data of exactly
the segments that `reachesData` says. -/
theorem stepAck_recv {b : Bool} (hs : takesData s.state = true)
    (h : stepAck s seg = .ok (t, b)) : t.recv = s.recv ∧ takesData t.state = true ∧
      (b = false → seg.payload ≠ [] → seg.ackNumber ≤ s.sndNxt ∨ duplicateAck s seg = true) := by
  have hsyn : s.state ≠ .synRecv := by
    intro he
    simp [he, takesData] at hs
  have htakes : takesAcks s.state = true := by
    cases he : s.state <;> simp_all [takesData, takesAcks]
  unfold stepAck at h
  rw [if_neg hsyn, if_pos htakes] at h
  split at h
  · rename_i hnew
    obtain ⟨u, hu, hp⟩ := bind_ok.mp h
    cases hp
    obtain ⟨hr, hst⟩ := accept_recv hu
    have hle : seg.ackNumber ≤ s.sndNxt := (of_decide_eq_true hnew).2
    unfold takeWindow
    split <;> exact ⟨hr, hst ▸ hs, fun _ _ => .inl hle⟩
  · split at h
    · rename_i hw
      cases h
      have hempty : seg.payload = [] := (of_decide_eq_true hw).2.2.2
      unfold updateWindow
      split <;> exact ⟨rfl, hs, fun _ hne => absurd hempty hne⟩
    · split at h
      · rename_i hd
        obtain ⟨u, hu, hp⟩ := bind_ok.mp h
        cases hp
        obtain ⟨hr, hst⟩ := count_recv hs hu
        exact ⟨hr, hst, fun _ _ => .inr hd⟩
      · split at h
        · cases h
          exact ⟨rfl, takesData_next _ hs, fun hc => by cases hc⟩
        · rename_i hle
          cases h
          exact ⟨rfl, hs, fun _ _ => .inl (UInt32.not_lt.mp hle)⟩

theorem stepFinAcked_recv (hs : takesData s.state = true) :
    ∃ t, stepFinAcked s = (t, false) ∧ t.recv = s.recv ∧ takesData t.state = true := by
  unfold stepFinAcked
  cases he : s.state <;> simp only [he, takesData] at hs ⊢
  all_goals cases hs
  · exact ⟨s, rfl, rfl, by rw [he]⟩
  · split
    · exact ⟨_, rfl, rfl, rfl⟩
    · exact ⟨s, rfl, rfl, by rw [he]⟩
  · exact ⟨s, rfl, rfl, by rw [he]⟩

def RecvView.take (r : RecvView) (seg : Segment) : RecvView :=
  ⟨r.irs, r.nxt + seg.payloadLen, if seg.payload ≠ [] ∨ seg.flags.psh then r.queue ++ [seg] else r.queue⟩

theorem stepData_recv (hs : takesData s.state = true) :
    (stepData s seg).recv = s.recv.take seg ∧ takesData (stepData s seg).state = true := by
  unfold stepData
  rw [if_pos hs]
  by_cases hp : seg.payload = []
  · have hlen : seg.payloadLen = 0 := by simp [Segment.payloadLen, hp]
    have hnxt : s.rcvNxt + seg.payloadLen = s.rcvNxt := by simp [hlen]
    rw [if_neg (by simpa using hp)]
    unfold RecvView.take Sock.recv
    split
    · exact ⟨congrArg (RecvView.mk _ · (s.rxQueue ++ [seg])) hnxt.symm, hs⟩
    · exact ⟨congrArg (RecvView.mk _ · s.rxQueue) hnxt.symm, hs⟩
  · rw [if_pos hp, if_pos (.inl hp)]
    exact ⟨by simp [Sock.recv, RecvView.take, hp, sendAck, tcpSendSkb, tcpStateTransition],
      takesData_next _ hs⟩

theorem stepDataFin_recv (hs : takesData s.state = true)
    (hf : seg.flags.fin = false) :
    (stepDataFin s seg).recv = s.recv.take seg ∧ takesData (stepDataFin s seg).state = true := by
  unfold stepDataFin
  rw [if_neg (by simp [hf])]
  exact stepData_recv hs

theorem handler_recv {garbage : UInt16 × UInt8}
    (hs : takesData s.state = true) (hsyn : seg.flags.syn = false) (hfin : seg.flags.fin = false)
    (hrst : seg.flags.rst = false) (h : tcpHandler s seg garbage = .ok t) :
    takesData t.state = true ∧ (t.recv = s.recv ∨
      (seg.payload ≠ [] → reachesData s seg = true) ∧ t.recv = s.recv.take seg) := by
  have hest : tcpHandler s seg garbage = .ok t → s = t ∨ tcpHandlerEstablished s seg = .ok t := by
    intro h
    unfold tcpHandler at h
    split at h
    · exact .inl (Except.ok.inj h)
    · split at h
      all_goals simp_all [takesData]
  rcases hest h with rfl | h
  · exact ⟨hs, .inl rfl⟩
  · unfold tcpHandlerEstablished at h
    split at h
    · cases h
      refine ⟨?_, .inl ?_⟩
      · unfold refuse
        split
        · exact hs
        · exact takesData_next _ hs
      · unfold refuse
        split <;> rfl
    · rename_i hacc
      have hacc : acceptableSegment s seg = true := by simpa using hacc
      rw [if_neg (by simp [hrst])] at h
      dsimp only at h
      rw [if_neg (by simp [hsyn])] at h
      split at h
      · cases h
        exact ⟨hs, .inl rfl⟩
      · rename_i hflag
        have hflag : seg.flags.ack = true := by simpa using hflag
        obtain ⟨⟨u, b⟩, hu, hp⟩ := bind_ok.mp h
        obtain ⟨hur, hus, hreach⟩ := stepAck_recv hs hu
        dsimp only at hp
        split at hp
        · cases hp
          exact ⟨hus, .inl hur⟩
        · rename_i hb
          obtain ⟨w, hw, hwr, hws⟩ := stepFinAcked_recv hus
          rw [hw] at hp
          cases hp
          obtain ⟨htr, hts⟩ := stepDataFin_recv hws hfin
          refine ⟨hts, .inr ⟨?_, by rw [htr, hwr, hur]⟩⟩
          intro hne
          have := hreach (by simpa using hb) hne
          simpa [reachesData, hacc, hflag] using this

theorem delivered_take {s : Sys} (h : sk.recv = s.sk.recv.take seg) :
    delivered { s with sk := sk } = delivered s ++ seg.payload := by
  have hq : sk.rxQueue = if seg.payload ≠ [] ∨ seg.flags.psh then s.sk.rxQueue ++ [seg]
      else s.sk.rxQueue := congrArg RecvView.queue h
  unfold delivered
  rw [hq]
  split
  · simp
  · rename_i hn
    have hp : seg.payload = [] := by
      by_contra hne
      exact hn (.inl hne)
    simp [hp]

theorem prefix_slice {d p : List UInt8} (hd : d <+: S) (fits : d.length + p.length ≤ S.length)
    (hp : (S.drop d.length).take p.length = p) : d ++ p <+: S := by
  obtain ⟨r, rfl⟩ := hd
  rw [List.drop_left] at hp
  refine (List.prefix_append_right_inj d).mpr ?_
  rw [← hp]
  exact List.take_prefix _ _

def Pc.receives : Pc → Bool
  | .user | .recvLoop _ | .recvSleep _ => true
  | _ => false

structure Receiving (S : List UInt8) (irs : UInt32) (s : Sys) : Prop where
  state : takesData s.sk.state = true
  pc : s.pc.receives = true
  irs : s.sk.rcvIrs = irs
  stream : InStream S s

theorem Receiving.take {s : Sys}
    (h : Receiving S irs s) (short : irs.toNat + 1 + S.length < 2 ^ 32)
    (slice : carriesSlice S irs seg = true) (hs : takesData sk.state = true)
    (order : seg.payload ≠ [] → seg.seq = s.sk.rcvNxt) (hr : sk.recv = s.sk.recv.take seg) :
    Receiving S irs { s with sk := sk } := by
  obtain ⟨hpre, hnxt⟩ := h.stream
  have hirs : sk.rcvIrs = s.sk.rcvIrs := congrArg RecvView.irs hr
  have hn : sk.rcvNxt = s.sk.rcvNxt + seg.payloadLen := congrArg RecvView.nxt hr
  refine ⟨hs, h.pc, hirs.trans h.irs, ?_, ?_⟩
  · rw [delivered_take hr]
    by_cases hp : seg.payload = []
    · simpa [hp] using hpre
    · simp only [carriesSlice, Bool.and_eq_true, decide_eq_true_eq, beq_iff_eq] at slice
      obtain ⟨⟨-, hfits⟩, heq⟩ := slice
      have hoff : (seg.seq - (irs + 1)).toNat = (delivered s).length := by
        rw [order hp, hnxt, h.irs]
        have hle := hpre.length_le
        have : irs + 1 + UInt32.ofNat (delivered s).length - (irs + 1) =
            UInt32.ofNat (delivered s).length := by grind
        rw [this]
        simp only [UInt32.toNat_ofNat']
        omega
      rw [hoff] at hfits heq
      exact prefix_slice hpre hfits heq
  · rw [delivered_take hr]
    rw [hn, hirs, hnxt, List.length_append, Segment.payloadLen, UInt32.ofNat_add]
    grind

theorem Receiving.receive {s : Sys}
    {garbage : UInt16 × UInt8} (h : Receiving S irs s) (short : irs.toNat + 1 + S.length < 2 ^ 32)
    (slice : carriesSlice S irs seg = true) (order : inOrder s (.receive seg garbage) = true)
    (ok : tcpHandler s.sk seg garbage = .ok sk) : Receiving S irs { s with sk := sk } := by
  have hflags : (seg.flags.syn = false ∧ seg.flags.fin = false) ∧ seg.flags.rst = false := by
    simp only [carriesSlice, Bool.and_eq_true, Bool.not_eq_true'] at slice
    exact slice.1.1
  obtain ⟨hs, hr | ⟨hreach, hr⟩⟩ := handler_recv h.state hflags.1.1 hflags.1.2 hflags.2 ok
  · obtain ⟨hpre, hnxt⟩ := h.stream
    have hd : delivered { s with sk := sk } = delivered s :=
      congrArg (fun r : RecvView => s.received ++ r.queue.flatMap Segment.payload) hr
    refine ⟨hs, h.pc, (congrArg RecvView.irs hr).trans h.irs, hd ▸ hpre, ?_⟩
    rw [hd]
    rw [show sk.rcvNxt = s.sk.rcvNxt from congrArg RecvView.nxt hr,
      show sk.rcvIrs = s.sk.rcvIrs from congrArg RecvView.irs hr]
    exact hnxt
  · refine h.take short slice hs (fun hne => ?_) hr
    simpa [inOrder, hne, hreach hne] using order

theorem delivered_return (s : Sys) (n : Nat) : delivered (recvReturn s n) = delivered s := by
  simp only [delivered, recvReturn, List.append_assoc, ← List.flatMap_append, List.take_append_drop]

/-- A segment in order adds its bytes to the stream, and a call takes them from it. -/
theorem Receiving.step {s t : Sys} {e : Event}
    (h : Receiving S irs s) (short : irs.toNat + 1 + S.length < 2 ^ 32)
    (event : streamEvent S irs e = true) (order : inOrder s e = true) (hm : Moves s e t) :
    Receiving S irs t := by
  cases hm with
  | refused hp => exact ⟨h.state, h.pc, h.irs, h.stream⟩
  | recvmsg msgLen hp => exact ⟨h.state, rfl, h.irs, h.stream⟩
  | recvReturn hp =>
    refine ⟨h.state, rfl, h.irs, ?_⟩
    unfold InStream
    rw [delivered_return]
    exact h.stream
  | recvWait hp => exact ⟨h.state, rfl, h.irs, h.stream⟩
  | recvAwake hp => exact ⟨h.state, rfl, h.irs, h.stream⟩
  | receive unlocked ok => exact h.receive short event order ok
  | tick ms unlocked => exact ⟨h.state, h.pc, h.irs, h.stream⟩
  | wake unlocked => exact ⟨h.state, h.pc, h.irs, h.stream⟩
  | connect | sendmsg | shutdown | retransmitTimer | persistTimer | mslTimer => cases event
  | sendReturn hp | probe hp | round hp | chunk hp | chunksDone hp | transmitReturn hp | lock hp
  | transmit hp | sleep hp | awake hp | shutdownReturn hp | shutdownWait hp | shutdownAwake hp =>
    have := h.pc
    rw [hp] at this
    cases this

/-- While no data is taken out of order, what has been received is a prefix of the
peer's stream and `rcv_nxt` counts it. -/
theorem stream_received_in_order {S : List UInt8} {s t : Sys} (start : Opened S s)
    (run : Run advance (fun a e => streamEvent S s.sk.rcvIrs e = true ∧ inOrder a e = true) s t) :
    InStream S t := by
  obtain ⟨hs, hp, hd, hn, short⟩ := start
  refine (run.invariant (I := Receiving S s.sk.rcvIrs) ?_ ?_).stream
  · refine ⟨by rw [hs]; rfl, by rw [hp]; rfl, rfl, ?_, ?_⟩
    · rw [hd]
      exact List.nil_prefix
    · simp [hd, hn]
  · intro a e b ha ⟨event, order⟩ hb
    exact ha.step short event order (moves_of_advance hb)

def pairSegment (seq : UInt32) (a b : UInt8) : Segment where
  seq := seq
  ackNumber := 476707714
  flags := { ack := true, psh := true }
  window := 1000
  payload := [a, b]
  fits := by simp

theorem stream_received_two_pairs : ∃ s t, Opened [1, 2, 3, 4] s ∧
    Run advance (fun a e => streamEvent [1, 2, 3, 4] s.sk.rcvIrs e = true ∧ inOrder a e = true) s t ∧
    delivered t = [1, 2, 3, 4] ∧
    t.received = [1, 2] ∧ InStream [1, 2, 3, 4] t := by
  obtain ⟨s, -, hs, hrep⟩ := replay_reaches advance (fun _ _ => True) {}
    (opening (synAck 1000))
    (P := fun s => Opened [1, 2, 3, 4] s ∧ (replay advance (fun a e =>
        streamEvent [1, 2, 3, 4] s.sk.rcvIrs e = true ∧ inOrder a e = true) s
      [.receive (pairSegment 6 1 2) (0, 0), .recvmsg 10, .app, .receive (pairSegment 8 3 4) (0, 0)]).any
        (fun t => decide (delivered t = [1, 2, 3, 4] ∧ t.received = [1, 2])) = true) (by decide)
  obtain ⟨t, ht, hd, hr⟩ := replay_reaches _ _ _ _ hrep
  exact ⟨s, t, hs, ht, hd, hr, stream_received_in_order hs ht⟩

/-- The second half of the stream arriving first is taken for the first half. -/
theorem stream_received_out_of_order : ∃ s t, Run advance (fun _ _ => True) {} s ∧
    Opened [1, 2, 3, 4] s ∧ Run advance (fun _ e => streamEvent [1, 2, 3, 4] s.sk.rcvIrs e = true) s t ∧
    ¬ InStream [1, 2, 3, 4] t := by
  obtain ⟨s, run, hs, hrep⟩ := replay_reaches advance (fun _ _ => True) {}
    (opening (synAck 1000))
    (P := fun s => Opened [1, 2, 3, 4] s ∧
      (replay advance (fun _ e => streamEvent [1, 2, 3, 4] s.sk.rcvIrs e = true) s
        [.receive (pairSegment 8 3 4) (0, 0)]).any (fun t => decide (¬ InStream [1, 2, 3, 4] t)) = true)
    (by decide)
  obtain ⟨t, ht, hn⟩ := replay_reaches _ _ _ _ hrep
  exact ⟨s, t, run, hs, ht, hn⟩

end Mos.Tcp
