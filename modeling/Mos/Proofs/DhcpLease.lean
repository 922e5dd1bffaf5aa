import Mos.Machine.Run
import Mos.Net.Dhcp

namespace Mos.Dhcp
open Machine Arp

/-- An option of a packet: a single zero for padding, or a code, a length and a value. -/
inductive Field where
  | pad
  | item (code : UInt8) (value : List UInt8)
  deriving DecidableEq

namespace Field

def Fits : Field → Prop
  | pad => True
  | item code value => code ≠ 0 ∧ code ≠ 0xFF ∧ value.length < 256

def bytes : Field → List UInt8
  | pad => [0]
  | item code value => code :: UInt8.ofNat value.length :: value

end Field

/-- The part of a frame that the client has received has the options `fields` and the end mark
behind them. -/
structure Carries (frame : List UInt8) (fields : List Field) : Prop where
  fits : ∀ f ∈ fields, f.Fits
  bytes : fields.flatMap Field.bytes ++ [0xFF] <+: (frame.take maxPacketLen).drop 282

def transaction (frame : List UInt8) : UInt32 := htonl (Bytes.word (fun x => frame.getD x 0) 46)

def IsAck (xip : UInt32) (frame : List UInt8) : Prop :=
  transaction frame = xip ∧ ∃ fields, Carries frame fields ∧ .item 53 [5] ∈ fields

/-- What the packets are like once the request has been sent: those with valid headers belong to
the transaction of the client, their options need no padding and one byte is the message
type, and none is a DHCPNAK. -/
def Orderly (c : Client) (r : Receipt) : Prop :=
  c.phase = .ack → dhcpParseFromEhPacket (receivedEh r) ≠ none →
    transaction r.frame = c.xip ∧ ∃ fields, Carries r.frame fields ∧ .pad ∉ fields ∧
      (∀ value, .item 53 value ∈ fields → value.length = 1) ∧ .item 53 [6] ∉ fields

section Options
variable {options : Bytes} {i : Nat}

def Holds (options : Bytes) (i : Nat) (l : List UInt8) : Prop :=
  ∀ k (h : k < l.length), options (i + k) = l[k]

theorem Holds.head {a : UInt8} {l : List UInt8} (h : Holds options i (a :: l)) : options i = a :=
  h 0 (Nat.zero_lt_succ _)

theorem Holds.tail {a : UInt8} {l : List UInt8} (h : Holds options i (a :: l)) :
    Holds options (i + 1) l := by
  intro k hk
  have := h (k + 1) (Nat.succ_lt_succ hk)
  rwa [Nat.add_assoc, Nat.add_comm 1 k]

theorem Holds.right {l l' : List UInt8} (h : Holds options i (l ++ l')) :
    Holds options (i + l.length) l' := by
  induction l generalizing i with
  | nil => exact h
  | cons a l ih =>
    have := ih h.tail
    rwa [Nat.add_assoc, Nat.add_comm 1] at this

theorem ackOption_type (options : Bytes) (i : Nat) (o : AckOptions) :
    (ackOption options i o).messageType =
      if options i = 53 then options (i + 2) else o.messageType := by
  unfold ackOption
  split
  · simp_all
  · split
    · simp_all
    · split
      · simp_all
      · split
        · simp_all
        · split
          · simp_all
          · split
            · rfl
            · split <;> rfl

theorem walk_messageType {fields : List Field} (fits : ∀ f ∈ fields, f.Fits)
    (plain : .pad ∉ fields) (one : ∀ value, .item 53 value ∈ fields → value.length = 1)
    {rounds : Nat} {o o' : AckOptions}
    (holds : Holds options i (fields.flatMap Field.bytes ++ [0xFF]))
    (h : walkOptions (ackOption options) options rounds i o = some o') :
    o'.messageType = o.messageType ∨ .item 53 [o'.messageType] ∈ fields := by
  induction fields generalizing i o rounds with
  | nil =>
    cases rounds with
    | zero => cases h
    | succ rounds =>
      rw [walkOptions, if_pos holds.head] at h
      exact .inl (congrArg AckOptions.messageType (Option.some.inj h).symm)
  | cons f fields ih =>
    cases rounds with
    | zero => cases h
    | succ rounds =>
      cases f with
      | pad => exact absurd List.mem_cons_self plain
      | item code value =>
        obtain ⟨-, hend, hlen⟩ := fits _ List.mem_cons_self
        have hcode : options i = code := holds.head
        have hlength : (options (i + 1)).toNat = value.length := by
          rw [holds.tail.head]
          exact UInt8.toNat_ofNat_of_lt' hlen
        have hrest : Holds options (i + 2 + value.length) (fields.flatMap Field.bytes ++ [0xFF]) := by
          have hb : (Field.item code value :: fields).flatMap Field.bytes ++ [0xFF] =
              code :: UInt8.ofNat value.length :: (value ++ (fields.flatMap Field.bytes ++ [0xFF])) := by
            simp [Field.bytes]
          rw [hb] at holds
          exact holds.tail.tail.right
        rw [walkOptions, hcode, if_neg hend, hlength] at h
        have htype := ih (fun f hf => fits f (List.mem_cons_of_mem _ hf))
          (fun hp => plain (List.mem_cons_of_mem _ hp))
          (fun v hv => one v (List.mem_cons_of_mem _ hv)) hrest h
        rcases htype with htype | htype
        · rw [ackOption_type, hcode] at htype
          split at htype
          · rename_i h53
            subst h53
            right
            obtain ⟨t, rfl⟩ := List.length_eq_one_iff.mp (one value List.mem_cons_self)
            have ht : options (i + 2) = t := holds.tail.tail.head
            rw [htype, ht]
            exact List.mem_cons_self
          · exact .inl htype
        · exact .inr (List.mem_cons_of_mem _ htype)

end Options

theorem Carries.holds {r : Receipt} {fields : List Field} (h : Carries r.frame fields) :
    Holds (((receivedEh r).view 42).view 240) 0 (fields.flatMap Field.bytes ++ [0xFF]) := by
  intro k hk
  obtain ⟨rest, hrest⟩ := h.bytes
  have hget : ((r.frame.take maxPacketLen).drop 282)[k]? =
      some (fields.flatMap Field.bytes ++ [0xFF])[k] := by
    rw [← hrest, List.getElem?_append_left hk, List.getElem?_eq_getElem hk]
  rw [List.getElem?_drop, List.getElem?_take] at hget
  split at hget
  · change (if 42 + (240 + (0 + k)) < maxPacketLen then _ else _) = _
    rw [if_pos (by omega), List.getD_eq_getElem?_getD,
      show 42 + (240 + (0 + k)) = 282 + k by omega, hget]
    rfl
  · cases hget

theorem ackRound_dev {c : Client} {r : Receipt} (ok : Orderly c r) (phase : c.phase = .ack) :
    (ackRound c (receivedEh r)).dev = c.dev ∨ IsAck c.xip r.frame := by
  unfold ackRound
  split
  · exact .inl rfl
  · rename_i dhcp hparse
    obtain ⟨hxip, fields, carries, plain, one, noNak⟩ := ok phase (by rw [hparse]; nofun)
    split
    · exact .inl rfl
    · exact .inl rfl
    · rename_i lease hopts
      right
      have hdhcp : dhcp = (receivedEh r).view 42 := by
        unfold dhcpParseFromEhPacket at hparse
        split at hparse
        · exact (Option.some.inj hparse).symm
        · cases hparse
      subst hdhcp
      obtain ⟨o, hwalk, ho⟩ := Option.map_eq_some_iff.mp hopts
      refine ⟨hxip, fields, carries, ?_⟩
      split at ho
      · cases ho
      · rename_i htype
        have hmem := walk_messageType carries.fits plain one carries.holds hwalk
        by_cases h5 : o.messageType = 5
        · rw [h5] at hmem
          exact hmem.resolve_left (by decide)
        · have h6 : o.messageType = 6 := by
            by_contra h6
            exact htype ⟨h5, h6⟩
          rw [h6] at hmem
          exact absurd (hmem.resolve_left (by decide)) noNak

theorem offerRound_same (c : Client) (attempt : UInt8) (eh : Bytes) :
    (offerRound c attempt eh).dev = c.dev ∧ (offerRound c attempt eh).xip = c.xip := by
  unfold offerRound discoverAgain
  split
  · exact ⟨rfl, rfl⟩
  · split <;> exact ⟨rfl, rfl⟩

theorem ackRound_same (c : Client) (eh : Bytes) :
    (ackRound c eh).xip = c.xip ∧ (ackRound c eh).sent = c.sent := by
  unfold ackRound
  split
  · exact ⟨rfl, rfl⟩
  · split <;> exact ⟨rfl, rfl⟩

/-- The client has one transaction, and waits for an acknowledgement only once it has sent its
request. -/
structure Asked (xip : UInt32) (c : Client) : Prop where
  own : c.xip = xip
  request : c.phase = .ack → ∃ requestedIp serverIp, .request xip requestedIp serverIp ∈ c.sent

/-- A receipt starts no other transaction, and only a request leads to the wait for its answer. -/
theorem Asked.step {xip : UInt32} {c c' : Client} {r : Receipt} (h : Asked xip c)
    (hs : step c r = some c') : Asked xip c' := by
  unfold Dhcp.step at hs
  split at hs
  · rename_i attempt _
    cases hs
    refine ⟨(offerRound_same c attempt _).2.trans h.own, ?_⟩
    unfold offerRound discoverAgain
    rw [h.own]
    split
    · nofun
    · split
      · nofun
      · nofun
      · exact fun _ => ⟨_, _, List.mem_cons_self⟩
  · rename_i hp
    cases hs
    obtain ⟨hx, hsent⟩ := ackRound_same c (receivedEh r)
    refine ⟨hx.trans h.own, ?_⟩
    rw [hsent]
    exact fun _ => h.request hp
  · cases hs
  · cases hs

/-- The configuration of the device changes only with a packet that acknowledges a request
that the client has sent. -/
theorem lease_from_own_ack {state : UInt32} {dev : Lease} {xip : UInt32} {start c c' : Client}
    {r : Receipt} (setup : dhcpSetup state dev xip = some start) (run : Run step Orderly start c)
    (ok : Orderly c r) (next : step c r = some c') (changed : c'.dev ≠ c.dev) :
    ∃ requestedIp serverIp, .request xip requestedIp serverIp ∈ c.sent ∧ IsAck xip r.frame := by
  have hstart : Asked xip start := by
    unfold dhcpSetup at setup
    split at setup
    · cases setup
    · cases setup
      exact ⟨rfl, nofun⟩
  have asked := run.invariant (I := Asked xip) hstart fun _ _ _ i _ hs => i.step hs
  unfold step at next
  split at next
  · cases next
    exact absurd (offerRound_same c _ _).1 changed
  · rename_i hp
    cases next
    obtain ⟨requestedIp, serverIp, hsent⟩ := asked.request hp
    refine ⟨requestedIp, serverIp, hsent, ?_⟩
    rw [← asked.own]
    exact (ackRound_dev ok hp).resolve_left changed
  · cases next
  · cases next

def sampleFrame (xip : List UInt8) (fields : List Field) : List UInt8 :=
  List.replicate 14 0 ++ [0x45, 0, 0, 0, 0, 0, 0, 0, 0, 17, 0xba, 0xee] ++ List.replicate 16 0 ++
    [2, 1, 6, 0] ++ xip ++ List.replicate 8 0 ++ [10, 0, 0, 7] ++ List.replicate 216 0 ++
    [0x63, 0x82, 0x53, 0x63] ++ fields.flatMap Field.bytes ++ [0xFF]

def sampleReceipt (xip : List UInt8) (type : UInt8) : Receipt where
  frame := sampleFrame xip [.item 53 [type]]
  behind := fun _ => 0

def sampleClient : Client := { dev := {}, xip := 1, sent := [.discovery 1] }

def sampleAsking : Client := offerRound sampleClient 0 (receivedEh (sampleReceipt [0, 0, 0, 1] 2))

theorem sampleAsking_run (ok : Client → Receipt → Prop)
    (hok : ok sampleClient (sampleReceipt [0, 0, 0, 1] 2)) : Run step ok sampleClient sampleAsking :=
  .tail .refl hok rfl

theorem sampleAsking_step (r : Receipt) :
    step sampleAsking r = some (ackRound sampleAsking (receivedEh r)) := by
  have hp : sampleAsking.phase = .ack := by decide +kernel
  simp only [step, hp]

theorem sampleReceipt_carries : Carries (sampleReceipt [0, 0, 0, 1] 5).frame [.item 53 [5]] := by
  refine ⟨?_, by decide +kernel⟩
  simp [Field.Fits]

theorem lease_from_own_ack_accepted : ∃ requestedIp serverIp,
    .request 1 requestedIp serverIp ∈ sampleAsking.sent ∧
      IsAck 1 (sampleReceipt [0, 0, 0, 1] 5).frame := by
  have ok : Orderly sampleAsking (sampleReceipt [0, 0, 0, 1] 5) := by
    intro _ _
    refine ⟨by decide +kernel, _, sampleReceipt_carries, by decide, ?_, by decide⟩
    intro value hv
    obtain rfl : value = [5] := by simpa using hv
    rfl
  exact lease_from_own_ack (rfl : dhcpSetup 0 {} 1 = some sampleClient)
    (sampleAsking_run Orderly nofun) ok (sampleAsking_step _) (by decide +kernel)

/-- A refusal that belongs to another client is taken for a lease. -/
theorem foreign_refusal_taken : dhcpSetup 0 {} 1 = some sampleClient ∧
    Run step (fun _ _ => True) sampleClient sampleAsking ∧
    ∃ c', step sampleAsking (sampleReceipt [0, 0, 0, 9] 6) = some c' ∧
      c'.dev ≠ sampleAsking.dev ∧ ¬IsAck 1 (sampleReceipt [0, 0, 0, 9] 6).frame := by
  refine ⟨rfl, sampleAsking_run _ trivial, _, sampleAsking_step _, by decide +kernel, ?_⟩
  intro h
  exact absurd h.1 (by decide +kernel)

end Mos.Dhcp
