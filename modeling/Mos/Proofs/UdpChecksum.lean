import Mos.Proofs.ByteOrder
import Mos.Proofs.InternetChecksum

namespace Mos.Headers
open Machine Arp Frames

/-- The sum of the words of a datagram and of its pseudo header, with the checksum's own word
at zero. -/
def udpSum (udp : List UInt8) (packetLen : UInt16) (sourceIp : UInt32) (sourcePort : UInt16)
    (destIp : UInt32) (destPort : UInt16) : Nat :=
  pseudoSum 17 sourceIp destIp packetLen.toNat +
    (halves (setHalfAt (udpFields udp packetLen sourcePort destPort ++ udp.drop 8) 3 0)).sum

theorem pseudoSum_pos (sourceIp destIp : UInt32) (n : Nat) : 0 < pseudoSum 17 sourceIp destIp n := by
  have hmem : 0 + 256 * (17 : UInt8).toNat ∈ halves (addresses sourceIp destIp ++
      ([0, 17, (UInt16.ofNat n >>> 8).toUInt8, (UInt16.ofNat n).toUInt8] : List UInt8)) := by
    simp [addresses, wordBytes, halves]
  exact Nat.lt_of_lt_of_le (by decide) (List.le_sum_of_mem hmem)

theorem complement_eq_zero_iff {n : Nat} (h : 0 < n) :
    65535 - residue 65535 n = 0 ↔ n ≡ 0 [MOD 65535] := by
  have hle := residue_le n (show 0 < 65535 by decide)
  have hpos := residue_pos (m := 65535) h
  have hmod := residue_modEq 65535 n
  constructor
  · intro hz
    have hall : residue 65535 n = 65535 := by omega
    rw [hall] at hmod
    exact hmod.symm
  · intro hz
    have hdvd := (Nat.modEq_zero_iff_dvd).mp (hmod.trans hz)
    exact Nat.sub_eq_zero_of_le (Nat.le_of_dvd hpos hdvd)

/-- A datagram passes without a checksum or with the right one. -/
theorem udp_validates_iff {udp : List UInt8} {packetLen : UInt16} (h : udp.length = packetLen.toNat)
    (field : htons (UInt16.ofNat (halfAt udp 2)) = packetLen) (sourceIp destIp : UInt32) :
    udpValidateHeader udp sourceIp destIp = true ↔ halfAt udp 3 = 0 ∨
      Carries (fun l => transportCalculateChecksum l 17 (addresses sourceIp destIp)) 3 udp := by
  have htake : (setHalfAt udp 3 0).take packetLen.toNat = setHalfAt udp 3 0 :=
    List.take_of_length_le (by simp [h])
  rw [udpValidateHeader, field, Bool.or_eq_true, beq_iff_eq, beq_iff_eq, udpCalculateChecksum, htake]
  rfl

section Built

variable {buffer : List UInt8} {packetLen : UInt16}

theorem udpFields_length (sourcePort destPort : UInt16) :
    (udpFields buffer packetLen sourcePort destPort).length = 8 := rfl

theorem udp_built (hlen : buffer.length = packetLen.toNat) (room : 8 ≤ buffer.length)
    (sourceIp : UInt32) (sourcePort : UInt16) (destIp : UInt32) (destPort : UInt16) :
    let udp := udpBuildHeader buffer packetLen sourceIp sourcePort destIp destPort
    udp.length = packetLen.toNat ∧ htons (UInt16.ofNat (halfAt udp 2)) = packetLen ∧
      Carries (fun l => transportCalculateChecksum l 17 (addresses sourceIp destIp)) 3 udp ∧
      (halfAt udp 3 = 0 ↔
        udpSum buffer packetLen sourceIp sourcePort destIp destPort ≡ 0 [MOD 65535]) := by
  intro udp
  generalize hraw : udpFields buffer packetLen sourcePort destPort ++ buffer.drop 8 = raw
  have hrlen : raw.length = packetLen.toNat := by
    rw [← hraw, List.length_append, udpFields_length, List.length_drop]
    omega
  have hword : halfAt raw 2 = (htons packetLen).toNat := by
    rw [← hraw, ← half_bytes]
    rfl
  have hi : 2 * 3 + 1 < raw.length := by omega
  have hz : (setHalfAt raw 3 0).length ≤ 65535 := by
    have := packetLen.toNat_lt
    rw [length_setHalfAt]
    omega
  have hudp : udp = setHalfAt raw 3
      (transportCalculateChecksum (setHalfAt raw 3 0) 17 (addresses sourceIp destIp)) := by
    change setHalfAt (_ ++ _) 3 (udpCalculateChecksum (_ ++ _) _ _ _) = _
    rw [hraw, udpCalculateChecksum, List.take_of_length_le (by rw [length_setHalfAt, hrlen])]
    rfl
  rw [hudp]
  refine ⟨by rw [length_setHalfAt, hrlen], ?_, carries_setHalfAt hi, ?_⟩
  · rw [halfAt_setHalfAt_ne _ (by decide), hword, UInt16.ofNat_toNat, htons_htons]
  · have hpos : 0 < udpSum buffer packetLen sourceIp sourcePort destIp destPort :=
      Nat.lt_of_lt_of_le (pseudoSum_pos sourceIp destIp packetLen.toNat) (Nat.le_add_right _ _)
    rw [halfAt_setHalfAt _ hi, transport_toNat hz, length_setHalfAt, hrlen, ← complement_eq_zero_iff hpos,
      udpSum, hraw]

end Built

/-- A datagram has a checksum, and is not accepted with another word behind the header. -/
def Protected (udp : List UInt8) (sourceIp destIp : UInt32) : Prop :=
  halfAt udp 3 ≠ 0 ∧ ∀ i w, 4 ≤ i → 2 * i + 1 < udp.length → ¬w.toNat ≡ halfAt udp i [MOD 65535] →
    udpValidateHeader (setHalfAt udp i w) sourceIp destIp = false

/-- A datagram that `udp_build_header` leaves is protected exactly if the sum of its words is not
a multiple of 65535: otherwise its checksum is the value that means there is none. -/
theorem udp_protected_iff {buffer : List UInt8} {packetLen : UInt16}
    (hlen : buffer.length = packetLen.toNat) (room : 8 ≤ buffer.length) (sourceIp : UInt32)
    (sourcePort : UInt16) (destIp : UInt32) (destPort : UInt16) :
    Protected (udpBuildHeader buffer packetLen sourceIp sourcePort destIp destPort) sourceIp destIp ↔
      ¬udpSum buffer packetLen sourceIp sourcePort destIp destPort ≡ 0 [MOD 65535] := by
  obtain ⟨hulen, hfield, hcarries, hzero⟩ :=
    udp_built hlen room sourceIp sourcePort destIp destPort
  generalize udpBuildHeader buffer packetLen sourceIp sourcePort destIp destPort = udp at *
  rw [← hzero]
  refine ⟨And.left, fun hne => ⟨hne, fun i w hi hlt hw => ?_⟩⟩
  have hfield' : htons (UInt16.ofNat (halfAt (setHalfAt udp i w) 2)) = packetLen := by
    rw [halfAt_setHalfAt_ne w (by omega), hfield]
  have hsums := sumsHalves_transport (show packetLen.toNat ≤ 65535 by have := packetLen.toNat_lt; omega)
    17 sourceIp destIp
  rw [Bool.eq_false_iff, ne_eq, udp_validates_iff (by rw [length_setHalfAt, hulen]) hfield']
  intro h
  rcases h with hz | hc
  · rw [halfAt_setHalfAt_ne w (by omega)] at hz
    exact hne hz
  · exact hcarries.altered hsums hulen (by omega) (by omega) hw hc

theorem udp_protected_two_bytes : udpValidateHeader
    (setHalfAt (udpBuildHeader (List.replicate 8 0 ++ [1, 2]) 10 1 2 3 4) 4 7) 1 3 = false := by
  have hlen : (List.replicate 8 0 ++ [1, 2] : List UInt8).length = (10 : UInt16).toNat := by decide
  have h := (udp_protected_iff hlen (by decide) 1 2 3 4).mpr (by decide)
  exact h.2 4 7 (by decide) (by decide) (by decide)

/-- The words of this datagram add up to 65535: its checksum is 0, and it is accepted with
another payload. -/
theorem udp_unprotected : ∃ (udp : List UInt8) (w : UInt16),
    udp = udpBuildHeader (List.replicate 8 0 ++ [0xFF, 0xD0]) 10 1 2 3 4 ∧ halfAt udp 3 = 0 ∧
    ¬w.toNat ≡ halfAt udp 4 [MOD 65535] ∧ udpValidateHeader (setHalfAt udp 4 w) 1 3 = true := by
  refine ⟨_, 7, rfl, ?_, ?_, ?_⟩ <;> decide

end Mos.Headers
