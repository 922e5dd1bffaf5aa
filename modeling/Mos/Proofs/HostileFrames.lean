import Mos.Machine.Run
import Mos.Net.Frames
import Mos.Proofs.NextHop

namespace Mos.Frames
open Machine Arp Tcp

/-! ### The default handler -/

/-- A frame with which a host announces its own addresses. -/
def Announces (s : Stack) (f : Frame) : Prop :=
  f.u32 38 ≠ htonl s.netdev.localIp ∧ f.u32 38 = f.u32 28 ∧ isBroadcastMacAddress s (macAt f 32) = true

/-- The frame is as long as `net_default_rx_handler` takes it to be: up to the type, for IP
up to the protocol, for an ICMP message up to its code and for an echo request with the
local address up to the end that the IP header gives, for ARP up to the field that ends the
check of the header. For an announcement of another host `prev_nb` is null, or a neighbour
behind the first one. -/
def RxFits (s : Stack) (prevNb : Option Nat) (f : Frame) : Prop :=
  14 ≤ f.len ∧
    (f.u16 12 = htons 0x0800 → 24 ≤ f.len ∧ (f.u8 23 = 1 → 36 ≤ f.len ∧
      (f.u8 35 = 0 → f.u8 34 = 8 → f.u32 30 = htonl s.netdev.localIp →
        28 ≤ (totalLength f).toNat ∧ 14 + (totalLength f).toNat ≤ f.len))) ∧
    (f.u16 12 = htons 0x0806 → 16 ≤ f.len ∧ (f.u16 14 = htons 1 →
      18 ≤ f.len ∧ (f.u16 16 = htons 0x0800 → 19 ≤ f.len ∧ (f.u8 18 = 6 →
        20 ≤ f.len ∧ (f.u8 19 = 4 → 42 ≤ f.len ∧ (Announces s f →
          prevNb = none ∨ ∃ nb ∈ s.lneighbour.tail, prevNb = some nb.addr))))))

variable {d : NetDevice} {s : Stack} {prevNb : Option Nat} {f : Frame}

/-- The length of the payload that `icmp_reply` gets wraps around. -/
theorem toNat_icmp_payload (t : UInt16) :
    (t.toUInt32 - 20 - 8).toNat = if 28 ≤ t.toNat then t.toNat - 28 else 2 ^ 32 - 28 + t.toNat := by
  have h := t.toNat_lt
  change (2 ^ 32 - 8 + (2 ^ 32 - 20 + t.toNat) % 2 ^ 32) % 2 ^ 32 = _
  split <;> omega

theorem fine_icmpReply (t : UInt16) : Fine (icmpReply f (t.toUInt32 - 20 - 8)) ↔
    28 ≤ t.toNat ∧ 14 + t.toNat ≤ f.len := by
  have hlen := f.size
  have hp := toNat_icmp_payload t
  simp only [icmpReply, Frame.readBytes, Frame.read32, Frame.read16, fine_within_bind, fine_ite,
    fine_pure, gt_iff_lt, UInt32.lt_iff_toNat_lt, hp, implies_true, and_true]
  unfold Frame.len
  change _ ∧ _ ∧ _ ∧ _ ∧ (0 < _ → _) ↔ _
  split <;> omega

theorem fine_rxIcmp : Fine (rxIcmp d f) ↔ 36 ≤ f.len ∧ (f.u8 35 = 0 → f.u8 34 = 8 →
    f.u32 30 = htonl d.localIp → 28 ≤ (totalLength f).toNat ∧ 14 + (totalLength f).toNat ≤ f.len) := by
  simp only [rxIcmp, Frame.read8, Frame.read16, Frame.read32, fine_within_bind, fine_ite, fine_pure,
    implies_true, and_true, fine_icmpReply]
  change 36 ≤ f.len ∧ _ ↔ _
  refine and_congr_right ?_
  intro h36
  change (_ → 35 ≤ f.len ∧ (_ → 34 ≤ f.len ∧ (_ → 18 ≤ f.len ∧ _))) ↔ _
  constructor
  · intro h hcode htype hdest
    exact ((h hcode).2 htype).2 hdest |>.2
  · intro h hcode
    refine ⟨by omega, ?_⟩
    intro htype
    refine ⟨by omega, ?_⟩
    intro hdest
    exact ⟨by omega, h hcode htype hdest⟩

theorem fine_elim {o : Option Stack} :
    Fine (o.elim (throw .wildPointer) pure : Except Fault Stack) ↔ o.isSome = true := by
  cases o with
  | none => simp
  | some s => simp

theorem fine_rxArp (allocated : Allocated s) : Fine (rxArp s prevNb f) ↔
    16 ≤ f.len ∧ (f.u16 14 = htons 1 → 18 ≤ f.len ∧ (f.u16 16 = htons 0x0800 → 19 ≤ f.len ∧
      (f.u8 18 = 6 → 20 ≤ f.len ∧ (f.u8 19 = 4 → 42 ≤ f.len ∧ (Announces s f →
        prevNb = none ∨ ∃ nb ∈ s.lneighbour.tail, prevNb = some nb.addr))))) := by
  simp only [rxArp, Frames.arpValidatePacket, Frame.read8, Frame.read16, Frame.read32, Frame.readBytes,
    bind_assoc, pure_bind, fine_within_bind, fine_ite_bind, fine_ite, fine_pure, fine_elim,
    allocated.update_isSome, implies_true, and_true, Bool.false_eq_true, if_false, beq_iff_eq]
  change 16 ≤ f.len ∧ (_ → 18 ≤ f.len ∧ (_ → 19 ≤ f.len ∧ (_ → 20 ≤ f.len ∧
    (_ → 42 ≤ f.len ∧ (_ → 28 ≤ f.len ∧ 32 ≤ f.len) ∧ (_ → 32 ≤ f.len ∧ (_ → 38 ≤ f.len ∧
      (_ → 28 ≤ f.len ∧ _))))))) ↔ _
  -- the reads of the body come after the ones of `tpa`, which is the last field
  refine and_congr_right fun _ => imp_congr_right fun _ => and_congr_right fun _ =>
    imp_congr_right fun _ => and_congr_right fun _ => imp_congr_right fun _ =>
      and_congr_right fun _ => imp_congr_right fun _ => and_congr_right fun _ => ?_
  constructor
  · rintro ⟨-, h⟩ ⟨other, own, broadcast⟩
    exact (((h other).2 own).2 broadcast).2
  · intro h
    refine ⟨fun _ => by omega, fun other => ⟨by omega, fun own => ⟨by omega, fun broadcast => ?_⟩⟩⟩
    exact ⟨by omega, h ⟨other, own, broadcast⟩⟩

theorem arp_ne_ip : htons 0x0806 ≠ htons 0x0800 := by decide

theorem fine_netDefaultRxHandler (allocated : Allocated s) :
    Fine (Frames.netDefaultRxHandler s prevNb f) ↔ RxFits s prevNb f := by
  simp only [Frames.netDefaultRxHandler, Frame.read8, Frame.read16, fine_within_bind, fine_ite,
    fine_pure, implies_true, and_true, fine_seq, fine_rxIcmp, fine_rxArp allocated]
  refine and_congr_right fun _ => and_congr_right fun _ => ?_
  constructor
  · intro h harp
    refine h ?_ harp
    rw [harp]
    exact arp_ne_ip
  · intro h _ harp
    exact h harp

def arpPacket (f : Frame) : ArpPacket where
  htype := f.u16 14
  ptype := f.u16 16
  hlen := f.u8 18
  plen := f.u8 19
  oper := f.u16 20
  sha := macAt f 22
  spa := f.u32 28
  tha := macAt f 32
  tpa := f.u32 38

/-- On a frame that is long enough, the bytes are handled as the packet in them is. -/
theorem rxArp_packet (long : 42 ≤ f.len) : rxArp s prevNb f =
    (Arp.netDefaultRxHandler s prevNb (arpPacket f)).elim (throw .wildPointer) pure := by
  have inside {α : Type} (i n : Nat) (value : α) (h : i + n ≤ 42) :
      within Fault.outside f.bytes i n value = pure value := if_pos (h.trans long)
  simp only [rxArp, Frames.arpValidatePacket, Frame.read8, Frame.read16, Frame.read32, Frame.readBytes,
    inside 14 2 _ (by decide), inside 16 2 _ (by decide), inside 18 1 _ (by decide),
    inside 19 1 _ (by decide), inside 22 6 _ (by decide), inside 28 4 _ (by decide),
    inside 32 6 _ (by decide), inside 38 4 _ (by decide), pure_bind, Arp.netDefaultRxHandler,
    Arp.arpValidatePacket, arpPacket]
  grind

/-! ### UDP -/

def udpLength (f : Frame) : UInt16 := htons (f.u16 38)

def udpValid (f : Frame) : Bool :=
  f.u16 40 == 0 || segmentChecksum f (f.slice 34 (udpLength f).toNat) 17 6 == f.u16 40

/-- The frame is as long as `udp_handler` and `udp_recvmsg` take it to be: up to the type,
the protocol and the end of the UDP header; with a checksum, up to the end that the UDP
header gives; and for the socket that it is for, up to the end of what is copied. A UDP
length of less than a header does not limit that. -/
def UdpFits (u : UdpSock) (msgLen : UInt32) (f : Frame) : Prop :=
  u.state = .disconnected ∨
    (14 ≤ f.len ∧ (f.u16 12 = htons 0x0800 → 24 ≤ f.len ∧ (f.u8 23 = 17 →
      42 ≤ f.len ∧ (f.u16 40 ≠ 0 → 34 + (udpLength f).toNat ≤ f.len) ∧
        (udpValid f = true → addressed f u.ssin u.dsin = true →
          42 + (if 8 ≤ (udpLength f).toNat then min msgLen.toNat ((udpLength f).toNat - 8)
            else msgLen.toNat) ≤ f.len))))

theorem toNat_udp_payload (t : UInt16) :
    (t.toUInt32 - 8).toNat = if 8 ≤ t.toNat then t.toNat - 8 else 2 ^ 32 - 8 + t.toNat := by
  have h := t.toNat_lt
  change (2 ^ 32 - 8 + t.toNat) % 2 ^ 32 = _
  split <;> omega

theorem fine_udpRecvmsg {msgLen : UInt32} (_ : 42 ≤ f.len) : Fine (udpRecvmsg f msgLen) ↔
    42 + (if 8 ≤ (udpLength f).toNat then min msgLen.toNat ((udpLength f).toNat - 8)
      else msgLen.toNat) ≤ f.len := by
  have hlen := f.size
  have hp := toNat_udp_payload (udpLength f)
  unfold udpRecvmsg
  rw [Frame.read16, fine_within_bind, Frame.readBytes, fine_within, UInt32.toNat_min]
  change _ ∧ 42 + min _ ((udpLength f).toUInt32 - 8).toNat ≤ _ ↔ _
  rw [hp]
  unfold Frame.len
  split <;> omega

theorem fine_udpValidateHeader {α : Type} {k : Bool → Except Fault α} (h : 42 ≤ f.len) :
    Fine (udpValidateHeader f >>= k) ↔
      (f.u16 40 ≠ 0 → 34 + (udpLength f).toNat ≤ f.len) ∧ Fine (k (udpValid f)) := by
  simp only [udpValidateHeader, Frame.read16, Frame.readBytes, bind_assoc, fine_within_bind,
    fine_ite_bind, pure_bind]
  unfold udpValid
  change 42 ≤ f.len ∧ (_ → _) ∧ (_ → 40 ≤ f.len ∧ 34 + (udpLength f).toNat ≤ f.len ∧ _) ↔ _
  by_cases hc : f.u16 40 = 0
  · simp [hc, h]
  · have h40 : 40 ≤ f.len := by omega
    have hb : (f.u16 40 == 0) = false := beq_eq_false_iff_ne.mpr hc
    simp [hc, hb, h, h40, udpLength]

theorem fine_udpReceive (u : UdpSock) (msgLen : UInt32) :
    Fine (udpReceive u msgLen f) ↔ UdpFits u msgLen f := by
  unfold udpReceive UdpFits
  by_cases hd : u.state = .disconnected
  · rw [if_pos hd]
    exact iff_of_true (fine_pure _) (.inl hd)
  rw [if_neg hd, or_iff_right hd]
  simp only [Frame.read8, Frame.read16, Frame.readBytes, fine_within_bind, fine_ite, fine_pure,
    implies_true, and_true]
  refine and_congr_right fun _ => imp_congr_right fun _ => and_congr_right fun _ =>
    imp_congr_right fun _ => ?_
  by_cases h : 42 ≤ f.len
  · rw [fine_udpValidateHeader h]
    simp only [fine_within_bind, fine_ite, fine_pure, implies_true, and_true, fine_map,
      fine_udpRecvmsg h]
    change 34 ≤ f.len ∧ _ ∧ (_ → 38 ≤ f.len ∧ _) ↔ _
    have h34 : 34 ≤ f.len := by omega
    have h38 : 38 ≤ f.len := by omega
    simp only [h34, h38, h, true_and]
  · refine iff_of_false ?_ (fun hf => h hf.1)
    intro hv
    have hv := hv.2
    rw [udpValidateHeader, bind_assoc, Frame.read16, fine_within_bind] at hv
    exact h hv.1

/-! ### TCP -/

def Asserts {α : Type} (x : Except Panic α) : Prop := ∃ p, p ≠ .optionLoop ∧ x = .error p

section Asserts
variable {α β : Type} {x y : Except Panic α}

theorem not_asserts_ok (a : α) : ¬ Asserts (.ok a) := by
  rintro ⟨p, _, h⟩
  cases h

theorem asserts_error {p : Panic} (h : p ≠ .optionLoop) : Asserts (.error p : Except Panic α) :=
  ⟨p, h, rfl⟩

theorem asserts_map {g : α → β} : Asserts (x.map g) ↔ Asserts x := by
  cases x with
  | error p =>
    constructor
    · rintro ⟨q, hq, h⟩
      cases h
      exact asserts_error hq
    · rintro ⟨q, hq, h⟩
      cases h
      exact asserts_error hq
  | ok a => exact iff_of_false (not_asserts_ok _) (not_asserts_ok _)

theorem asserts_bind {k : α → Except Panic β} (hk : ∀ a, ¬ Asserts (k a)) :
    Asserts (x >>= k) ↔ Asserts x := by
  cases x with
  | error p =>
    constructor
    · rintro ⟨q, hq, h⟩
      cases h
      exact asserts_error hq
    · rintro ⟨q, hq, h⟩
      cases h
      exact asserts_error hq
  | ok a => exact iff_of_false (hk a) (not_asserts_ok _)

theorem asserts_bind_pure {g : α → β} : Asserts (x >>= fun a => pure (g a)) ↔ Asserts x :=
  asserts_bind fun _ => not_asserts_ok _

theorem asserts_ite {c : Prop} [Decidable c] :
    Asserts (if c then x else y) ↔ (c ∧ Asserts x) ∨ (¬ c ∧ Asserts y) := by
  split
  · rename_i h
    simp [h]
  · rename_i h
    simp [h]

end Asserts

variable {s : Sock} {seg : Segment}

/-- An acknowledgement takes out the buffer at `send_head`, or leaves a first buffer that
was not retransmitted and never got a time to expire. -/
def AckAsserts (s : Sock) (ackNumber : UInt32) (isAckedAll : Bool) : Prop :=
  (∃ x ∈ s.txQueue, ackRemoves ackNumber isAckedAll x = true ∧ ackSendHead s = some x.addr) ∨
    (ackFromRetransmitted s = false ∧
      ∃ x, s.txQueue.find? (fun x => !ackRemoves ackNumber isAckedAll x) = some x ∧
        (s.cb x.addr).expires = 0)

theorem asserts_accept (s : Sock) (ackNumber : UInt32) (isAckedAll : Bool) :
    Asserts (tcpAcceptAck s ackNumber isAckedAll) ↔ AckAsserts s ackNumber isAckedAll := by
  unfold tcpAcceptAck AckAsserts
  by_cases removed : ∃ x ∈ s.txQueue,
      ackRemoves ackNumber isAckedAll x = true ∧ ackSendHead s = some x.addr
  · rw [if_pos]
    · exact iff_of_true (asserts_error (by decide)) (.inl removed)
    · simpa only [List.any_eq_true, Bool.and_eq_true, beq_iff_eq] using removed
  · rw [if_neg (by simpa only [List.any_eq_true, Bool.and_eq_true, beq_iff_eq] using removed),
      or_iff_right removed, asserts_bind_pure]
    unfold ackTimer
    simp only [List.head?_filter]
    cases hf : s.txQueue.find? (fun x => !ackRemoves ackNumber isAckedAll x) with
    | none => exact iff_of_false (not_asserts_ok _) (by simp)
    | some x =>
      simp only [asserts_ite, not_asserts_ok, and_false, false_or, or_false]
      constructor
      · rintro ⟨hr, hx, _⟩
        exact ⟨Bool.eq_false_iff.mpr hr, x, rfl, hx⟩
      · rintro ⟨hr, y, hy, hx⟩
        cases hy
        exact ⟨Bool.eq_false_iff.mp hr, hx, asserts_error (by decide)⟩

def DuplicateAsserts (s : Sock) : Prop := s.numberOfDupAcks + 1 = 3 ∧ s.txQueue = []

theorem asserts_countDuplicateAck (s : Sock) : Asserts (countDuplicateAck s) ↔ DuplicateAsserts s := by
  unfold countDuplicateAck DuplicateAsserts
  simp only [asserts_ite, not_asserts_ok, and_false, or_false]
  cases s.txQueue with
  | nil =>
    simp only [and_true, and_iff_left_iff_imp]
    intro _
    exact asserts_error (by decide)
  | cons x rest => simp [not_asserts_ok]

def StepAsserts (s : Sock) (seg : Segment) : Prop :=
  takesAcks s.state = true ∧
    ((newAck s seg = true ∧ AckAsserts s seg.ackNumber false) ∨
      (newAck s seg = false ∧ windowUpdate s seg = false ∧ duplicateAck s seg = true ∧
        DuplicateAsserts s))

/-- An acknowledgement asserts exactly where the head of the send queue goes. -/
theorem asserts_stepAck (s : Sock) (seg : Segment) : Asserts (stepAck s seg) ↔ StepAsserts s seg := by
  have congestion : AckAsserts (tcpCalculateCongestion s seg.ackNumber) seg.ackNumber false ↔
      AckAsserts s seg.ackNumber false := Iff.rfl
  unfold stepAck StepAsserts
  by_cases hs : s.state = .synRecv
  · rw [if_pos hs, hs]
    exact iff_of_false (not_asserts_ok _) (by simp [takesAcks])
  rw [if_neg hs]
  simp only [asserts_ite, not_asserts_ok, and_false, or_false, false_or, asserts_bind_pure,
    asserts_accept, congestion, asserts_countDuplicateAck, Bool.not_eq_true]

theorem asserts_stepRest (s : Sock) (seg : Segment) : Asserts (stepRest s seg) ↔ StepAsserts s seg := by
  rw [← asserts_stepAck]
  refine asserts_bind ?_
  intro a h
  dsimp only at h
  split at h
  · exact not_asserts_ok _ h
  · split at h
    · exact not_asserts_ok _ h
    · exact not_asserts_ok _ h

/-- What a segment makes `tcp_handler_established` assert: a reset in `TCP_SYN_RECV`
acknowledges everything, and other segments have the acknowledgement they carry. -/
def SegmentAsserts (s : Sock) (seg : Segment) : Prop :=
  acceptableSegment s seg = true ∧
    if seg.flags.rst = true ∧ s.state ≠ .closeWait then s.state = .synRecv ∧ AckAsserts s 0 true
    else seg.flags.syn = false ∧ seg.flags.ack = true ∧ StepAsserts s seg

theorem asserts_established (h : synchronized s.state = true) :
    Asserts (tcpHandlerEstablished s seg) ↔ SegmentAsserts s seg := by
  unfold tcpHandlerEstablished SegmentAsserts
  cases acceptableSegment s seg with
  | false => simp [not_asserts_ok]
  | true =>
    simp only [Bool.not_true, Bool.false_eq_true, if_false, true_and, h, and_true]
    by_cases hr : seg.flags.rst = true ∧ s.state ≠ .closeWait
    · unfold stepReset
      cases hs : s.state <;> rw [hs] at h hr <;>
        simp_all [synchronized, not_asserts_ok, asserts_map, asserts_accept]
    · rw [if_neg hr]
      have none' : (if seg.flags.rst = true then stepReset s else none) = none := by
        by_cases hrst : seg.flags.rst = true
        · have hs : s.state = .closeWait := by
            by_contra hne
            exact hr ⟨hrst, hne⟩
          rw [if_pos hrst, stepReset, hs]
        · rw [if_neg hrst]
      rw [none']
      simp only [asserts_ite, not_asserts_ok, and_false, false_or, asserts_stepRest,
        Bool.not_eq_true, Bool.not_eq_true', Bool.not_eq_false]

def acceptsSyn (s : Sock) (seg : Segment) : Prop :=
  seg.flags.ack = true ∧ ¬(seg.ackNumber ≤ s.sndIss ∨ seg.ackNumber > s.sndNxt) ∧
    seg.flags.rst = false ∧ seg.flags.syn = true ∧ s.sndUna ≤ seg.ackNumber ∧
      seg.ackNumber ≤ s.sndNxt

/-- What a segment makes `tcp_handler_sync` assert, if it gets past the options. -/
def SyncAsserts (s : Sock) (seg : Segment) (garbage : UInt16 × UInt8) : Prop :=
  acceptsSyn s seg ∧ (seg.options = [] ∨ (tcpParseSynOptions seg garbage).isSome = true) ∧
    AckAsserts s seg.ackNumber false

theorem asserts_sync (garbage : UInt16 × UInt8) :
    Asserts (tcpHandlerSync s seg garbage) ↔ SyncAsserts s seg garbage := by
  have loop : ¬ Asserts (.error .optionLoop : Except Panic Sock) := by
    rintro ⟨p, hp, h⟩
    cases h
    exact hp rfl
  unfold tcpHandlerSync SyncAsserts
  by_cases accepts : acceptsSyn s seg
  · obtain ⟨hack, hrange, hrst, hsyn, hun, hnxt⟩ := id accepts
    rw [if_neg (fun h => hrange h.2)]
    simp only [hrst, hack, hsyn, hun, hnxt, Bool.false_eq_true, if_false, true_and, and_self, if_true,
      accepts, List.isEmpty_iff]
    by_cases none' : seg.options = []
    · rw [if_pos none']
      simp only [asserts_bind_pure, asserts_accept, none', true_or, true_and]
      exact Iff.rfl
    · rw [if_neg none', or_iff_right none']
      cases tcpParseSynOptions seg garbage with
      | none => simp [loop]
      | some o =>
        simp only [asserts_bind_pure, asserts_accept, Option.isSome_some, true_and]
        exact Iff.rfl
  · refine iff_of_false ?_ (fun h => accepts h.1)
    simp only [asserts_ite, not_asserts_ok, and_false, or_false, false_or]
    rintro ⟨hrange, hrst, ⟨hsyn, hack, hun, hnxt⟩, _⟩
    refine accepts ⟨hack, ?_, Bool.eq_false_iff.mpr hrst, hsyn, hun, hnxt⟩
    intro h
    exact hrange ⟨hack, h⟩

def SwitchFits (t : TcpSock) (garbage : UInt16 × UInt8) (f : Frame) : Prop :=
  match t.sk.state with
  | .unset | .listen => True
  | .close => payloadFits f = true
  | .synSent =>
    (parsesOptions t.sk (segment t.sk f) = true → synOptionsInside f = true) ∧
      ¬ SyncAsserts t.sk (segment t.sk f) garbage
  | _ => payloadFits f = true ∧ ¬ SegmentAsserts t.sk (segment t.sk f)

/-- The frame is as long as `tcp_handler` takes it to be: up to the type, the protocol, the
checksum and the end that the IP header gives, which wraps around when it gives less than an
IP header; and a segment for the socket fails no assertion. -/
def TcpFits (t : TcpSock) (garbage : UInt16 × UInt8) (f : Frame) : Prop :=
  t.sk.sockState = .disconnected ∨
    (14 ≤ f.len ∧ (f.u16 12 = htons 0x0800 → 24 ≤ f.len ∧ (f.u8 23 = 6 →
      52 ≤ f.len ∧ 34 + (totalLength f - 20).toNat ≤ f.len ∧
        (segmentChecksum f (f.slice 34 (totalLength f - 20).toNat) 6 16 = f.u16 50 →
          addressed f t.ssin t.dsin = true → SwitchFits t garbage f))))

theorem fine_outcome (x : Except Panic Sock) : Fine (outcome x) ↔ ¬ Asserts x := by
  cases x with
  | ok sk => exact iff_of_true (fine_pure _) (not_asserts_ok sk)
  | error p =>
    by_cases hp : p = .optionLoop
    · subst hp
      refine iff_of_true (fine_pure _) ?_
      rintro ⟨q, hq, h⟩
      cases h
      exact hq rfl
    · refine iff_of_false ?_ (not_not_intro (asserts_error hp))
      cases p with
      | optionLoop => exact absurd rfl hp
      | _ => exact not_fine_throw _

def HandlerAsserts (s : Sock) (seg : Segment) (garbage : UInt16 × UInt8) : Prop :=
  match s.state with
  | .unset | .listen | .close => False
  | .synSent => SyncAsserts s seg garbage
  | _ => SegmentAsserts s seg

theorem asserts_tcpHandler (garbage : UInt16 × UInt8) (connected : s.sockState ≠ .disconnected) :
    Asserts (Tcp.tcpHandler s seg garbage) ↔ HandlerAsserts s seg garbage := by
  unfold Tcp.tcpHandler HandlerAsserts
  rw [if_neg connected]
  cases hs : s.state with
  | unset => exact iff_of_false (not_asserts_ok _) not_false
  | listen => exact iff_of_false (not_asserts_ok _) not_false
  | close => exact iff_of_false (not_asserts_ok _) not_false
  | synSent => exact asserts_sync garbage
  | _ => exact asserts_established (by rw [hs]; rfl)

theorem fine_earlyChecks : Fine (earlyChecks s f) ↔
    if s.state = .synSent then parsesOptions s (segment s f) = true → synOptionsInside f = true
    else payloadFits f = true := by
  unfold earlyChecks
  split
  · cases parsesOptions s (segment s f) <;> cases synOptionsInside f <;> simp
  · cases payloadFits f <;> simp

theorem fine_tcpSwitch {t : TcpSock} (garbage : UInt16 × UInt8)
    (connected : t.sk.sockState ≠ .disconnected) :
    Fine (tcpSwitch t garbage f) ↔ SwitchFits t garbage f := by
  unfold tcpSwitch
  rw [fine_ite, fine_seq, fine_outcome, asserts_tcpHandler garbage connected, fine_earlyChecks]
  unfold SwitchFits HandlerAsserts
  cases hs : t.sk.state with
  | unset => simp
  | listen => simp
  | synSent => simp
  | _ => simp

/-- The three ways a received frame is handled read inside the frame, follow no pointer that
was not set, copy what the caller has room for, and fail no assertion. -/
structure Handled (s : Stack) (prevNb : Option Nat) (u : UdpSock) (msgLen : UInt32) (t : TcpSock)
    (garbage : UInt16 × UInt8) (f : Frame) : Prop where
  rx : Fine (Frames.netDefaultRxHandler s prevNb f)
  udp : Fine (udpReceive u msgLen f)
  copied : ∀ data, udpReceive u msgLen f = .ok (some data) → data.length ≤ msgLen.toNat
  tcp : Fine (Frames.tcpHandler t garbage f)

theorem fine_tcpHandler (t : TcpSock) (garbage : UInt16 × UInt8) :
    Fine (Frames.tcpHandler t garbage f) ↔ TcpFits t garbage f := by
  unfold Frames.tcpHandler TcpFits
  by_cases hd : t.sk.sockState = .disconnected
  · rw [if_pos hd]
    exact iff_of_true (fine_pure _) (.inl hd)
  rw [if_neg hd, or_iff_right hd]
  simp only [Frame.read8, Frame.read16, Frame.readBytes, fine_within_bind, fine_ite, fine_pure,
    implies_true, and_true, fine_tcpSwitch garbage hd]
  change 14 ≤ f.len ∧ (_ → 24 ≤ f.len ∧ (_ → 18 ≤ f.len ∧ 34 ≤ f.len ∧ 52 ≤ f.len ∧
    34 + (totalLength f - 20).toNat ≤ f.len ∧ _)) ↔ _
  refine and_congr_right fun _ => imp_congr_right fun _ => and_congr_right fun _ =>
    imp_congr_right fun _ => ?_
  constructor
  · intro h
    exact ⟨h.2.2.1, h.2.2.2.1, h.2.2.2.2⟩
  · intro h
    have h52 := h.1
    exact ⟨by omega, by omega, h52, h.2.1, h.2.2⟩

theorem udpRecvmsg_length {msgLen : UInt32} {data : List UInt8}
    (h : udpRecvmsg f msgLen = .ok data) : data.length ≤ msgLen.toNat := by
  obtain ⟨length, _, h⟩ := bind_ok.mp h
  rw [within_ok h, Frame.slice, List.length_map, List.length_range, UInt32.toNat_min]
  exact Nat.min_le_left _ _

theorem udpReceive_length {u : UdpSock} {msgLen : UInt32} {data : List UInt8}
    (h : udpReceive u msgLen f = .ok (some data)) : data.length ≤ msgLen.toNat := by
  unfold udpReceive at h
  split at h
  · cases h
  obtain ⟨type, _, h⟩ := bind_ok.mp h
  split at h
  case isFalse => cases h
  obtain ⟨protocal, _, h⟩ := bind_ok.mp h
  split at h
  case isFalse => cases h
  obtain ⟨_, _, h⟩ := bind_ok.mp h
  obtain ⟨valid, _, h⟩ := bind_ok.mp h
  split at h
  case isFalse => cases h
  obtain ⟨_, _, h⟩ := bind_ok.mp h
  split at h
  case isFalse => cases h
  obtain ⟨data', hdata, he⟩ := map_ok.mp h
  cases he
  exact udpRecvmsg_length hdata

/-- A frame is handled without harm exactly if it is as long as its own headers make each
handler take it to be and the segment in it fails no assertion of the socket. -/
theorem hostile_frame_handled (s : Stack) (allocated : Allocated s) (prevNb : Option Nat)
    (u : UdpSock) (msgLen : UInt32) (t : TcpSock) (garbage : UInt16 × UInt8) (f : Frame) :
    Handled s prevNb u msgLen t garbage f ↔
      RxFits s prevNb f ∧ UdpFits u msgLen f ∧ TcpFits t garbage f := by
  rw [← fine_netDefaultRxHandler allocated, ← fine_udpReceive, ← fine_tcpHandler]
  constructor
  · intro h
    exact ⟨h.rx, h.udp, h.tcp⟩
  · intro h
    refine ⟨h.1, h.2.1, ?_, h.2.2⟩
    intro data hdata
    exact udpReceive_length hdata

def silent : Stack where
  devs _ :=
    { devAddr := Vector.replicate 6 1
      broadcastAddr := Vector.replicate 6 255
      zeroAddr := Vector.replicate 6 0
      routerAddr := Vector.replicate 6 2
      localIp := 0
      subnetMask := 0 }

theorem silent_allocated : Allocated silent := ⟨by decide, by decide⟩

def announcement : Frame where
  bytes := List.replicate 12 0 ++ [8, 6] ++ [0, 1, 8, 0, 6, 4, 0, 1] ++ [1, 2, 3, 4, 5, 6] ++
    [10, 0, 0, 7] ++ List.replicate 6 255 ++ [10, 0, 0, 7]
  size := by decide

theorem announcement_handled : Handled silent none {} 1024 { sk := {} } (0, 0) announcement := by
  have arp : announcement.u16 12 ≠ htons 0x0800 := by decide
  refine (hostile_frame_handled silent silent_allocated none {} 1024 { sk := {} } (0, 0) announcement).mpr
    ⟨⟨by decide, fun h => absurd h arp, fun _ => ?_⟩, .inr ⟨by decide, fun h => absurd h arp⟩,
      .inr ⟨by decide, fun h => absurd h arp⟩⟩
  exact ⟨by decide, fun _ => ⟨by decide, fun _ => ⟨by decide, fun _ => ⟨by decide, fun _ =>
    ⟨by decide, fun _ => .inl rfl⟩⟩⟩⟩⟩

def longDatagram : Frame where
  bytes := List.replicate 12 0 ++ [8, 0] ++ List.replicate 9 0 ++ [17] ++ List.replicate 14 0 ++
    [0, 100, 0, 0]
  size := by decide

/-- 92 bytes are copied of a frame that ends where they begin. -/
theorem datagram_read_past_end :
    udpReceive {} 1024 longDatagram = .error .outside ∧
      ∀ s prevNb t garbage, ¬ Handled s prevNb {} 1024 t garbage longDatagram := by
  have outside : udpReceive {} 1024 longDatagram = .error .outside := by decide +kernel
  refine ⟨outside, ?_⟩
  intro s prevNb t garbage h
  have := h.udp
  exact not_fine_error _ this

end Mos.Frames
