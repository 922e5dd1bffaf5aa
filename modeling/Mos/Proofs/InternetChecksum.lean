import Mos.Net.Dhcp
import Mos.Net.Headers

namespace Mos.Headers
open Machine Arp Frames

/-! ### The sum -/

theorem load_toNat (a b : UInt8) :
    (a.toUInt16 ||| b.toUInt16 <<< 8).toUInt32.toNat = a.toNat + 256 * b.toNat := by
  have ha := a.toNat_lt
  have hb := b.toNat_lt
  have hor := Nat.two_pow_add_eq_or_of_lt ha b.toNat
  have hshift : (b.toUInt16 <<< 8).toNat = 2 ^ 8 * b.toNat := by
    simp [Nat.shiftLeft_eq]
    omega
  rw [UInt16.toNat_toUInt32, UInt16.toNat_or, hshift, Nat.or_comm, UInt8.toNat_toUInt16, ← hor]
  omega

theorem sumWords_toNat (packet : List UInt8) (checksum : UInt32)
    (h : checksum.toNat + (halves packet).sum < 2 ^ 32) :
    (sumWords packet checksum).toNat = checksum.toNat + (halves packet).sum := by
  induction packet, checksum using sumWords.induct with
  | case1 a b rest checksum ih =>
    simp only [halves, List.sum_cons] at h ⊢
    have hadd : (checksum + (a.toUInt16 ||| b.toUInt16 <<< 8).toUInt32).toNat =
        checksum.toNat + (a.toNat + 256 * b.toNat) := by
      rw [UInt32.toNat_add, load_toNat, Nat.mod_eq_of_lt (by omega)]
    rw [sumWords, ih (by rw [hadd]; omega), hadd]
    omega
  | case2 a checksum =>
    simp only [halves, List.sum_singleton] at h ⊢
    rw [sumWords, UInt32.toNat_add, UInt8.toNat_toUInt32, Nat.mod_eq_of_lt (by omega)]
  | case3 checksum => rfl

theorem foldChecksum_toNat (rounds : Nat) (checksum : UInt32)
    (h : checksum.toNat ≤ 65535 ∨ 0 < rounds ∧ (checksum.toNat ≤ 131070 ∨ 1 < rounds)) :
    (foldChecksum rounds checksum).toNat = residue 65535 checksum.toNat := by
  induction rounds generalizing checksum with
  | zero =>
    have hle : checksum.toNat ≤ 65535 := by omega
    exact (residue_of_le hle).symm
  | succ rounds ih =>
    have hlt := checksum.toNat_lt
    unfold foldChecksum
    split
    · rename_i hgt
      have hand : (checksum &&& (0xFFFF : UInt32)).toNat = checksum.toNat % 65536 := by
        exact Nat.and_two_pow_sub_one_eq_mod _ 16
      have hshift : (checksum >>> (16 : UInt32)).toNat = checksum.toNat / 65536 := by
        simp [Nat.shiftRight_eq_div_pow]
      have hadd : ((checksum &&& (0xFFFF : UInt32)) + checksum >>> (16 : UInt32)).toNat =
          checksum.toNat % 65536 + checksum.toNat / 65536 := by
        rw [UInt32.toNat_add, hand, hshift, Nat.mod_eq_of_lt (by omega)]
      rw [ih _ (by rw [hadd]; omega), hadd]
      exact residue_carry 65535 _
    · rename_i hsmall
      have hle : checksum.toNat ≤ 65535 := UInt32.le_iff_toNat_le.mp (UInt32.not_lt.mp hsmall)
      exact (residue_of_le hle).symm

theorem sumWords_packet {packet : List UInt8} (h : packet.length ≤ 65535) :
    (sumWords packet 0).toNat = (halves packet).sum := by
  have hsum := halves_sum_le packet
  rw [sumWords_toNat packet 0 (by simp only [UInt32.toNat_zero]; omega), UInt32.toNat_zero,
    Nat.zero_add]

theorem packetChecksumStart_toNat {packet : List UInt8} (h : packet.length ≤ 65535) :
    (packetChecksumStart packet).toNat = residue 65535 (halves packet).sum := by
  rw [packetChecksumStart, foldChecksum_toNat 3 _ (by omega), sumWords_packet h]

/-! ### The checksums -/

theorem complement_toNat {x : UInt32} (h : x.toNat ≤ 65535) :
    (x.toUInt16 ^^^ 0xFFFF).toNat = 65535 - x.toNat := by
  have hx : x.toUInt16.toNat = x.toNat := by
    rw [UInt32.toNat_toUInt16]
    omega
  have hbits : x.toUInt16 ^^^ 0xFFFF = ~~~x.toUInt16 := by
    apply UInt16.toBitVec_inj.mp
    exact BitVec.xor_allOnes
  rw [hbits, UInt16.toNat_not, hx]
  rfl

theorem singularChecksum_toNat {packet : List UInt8} (h : packet.length ≤ 65535) :
    (singularChecksum packet).toNat = 65535 - residue 65535 (halves packet).sum := by
  have hr := packetChecksumStart_toNat h
  have hle := residue_le (halves packet).sum (show 0 < 65535 by decide)
  rw [singularChecksum, complement_toNat (by omega), hr]

def addresses (sourceIp destIp : UInt32) : List UInt8 :=
  wordBytes (htonl sourceIp) ++ wordBytes (htonl destIp)

def pseudoSum (protocal : UInt8) (sourceIp destIp : UInt32) (n : Nat) : Nat :=
  (halves (addresses sourceIp destIp ++
    ([0, protocal, (UInt16.ofNat n >>> 8).toUInt8, (UInt16.ofNat n).toUInt8] : List UInt8))).sum

theorem transport_toNat {segment : List UInt8} (h : segment.length ≤ 65535) (protocal : UInt8)
    (sourceIp destIp : UInt32) :
    (transportCalculateChecksum segment protocal (addresses sourceIp destIp)).toNat =
      65535 - residue 65535
        (pseudoSum protocal sourceIp destIp segment.length + (halves segment).sum) := by
  have hpseudo (x y : UInt8) :
      (addresses sourceIp destIp ++ ([0, protocal, x, y] : List UInt8)).length ≤ 65535 := by
    simp [addresses, wordBytes]
  have hp := packetChecksumStart_toNat (hpseudo (UInt16.ofNat segment.length >>> 8).toUInt8
    (UInt16.ofNat segment.length).toUInt8)
  have hs := packetChecksumStart_toNat h
  have hple := residue_le (pseudoSum protocal sourceIp destIp segment.length) (show 0 < 65535 by decide)
  have hsle := residue_le (halves segment).sum (show 0 < 65535 by decide)
  change _ = residue 65535 (pseudoSum protocal sourceIp destIp segment.length) at hp
  unfold transportCalculateChecksum
  dsimp only
  generalize packetChecksumStart (addresses sourceIp destIp ++ _) = p at hp ⊢
  generalize packetChecksumStart segment = q at hs ⊢
  have hadd : (p + q).toNat = p.toNat + q.toNat := by
    rw [UInt32.toNat_add, Nat.mod_eq_of_lt (by omega)]
  have hfold := foldChecksum_toNat 3 (p + q) (by omega)
  have hle := residue_le (p + q).toNat (show 0 < 65535 by decide)
  rw [complement_toNat (by omega), hfold, hadd, hp, hs, residue_add_residue, Nat.add_comm,
    residue_add_residue, Nat.add_comm]

theorem congr_of_complement {a b : Nat} (h : 65535 - residue 65535 a = 65535 - residue 65535 b) :
    a ≡ b [MOD 65535] := by
  have ha := residue_le a (show 0 < 65535 by decide)
  have hb := residue_le b (show 0 < 65535 by decide)
  have heq : residue 65535 a = residue 65535 b := by omega
  exact (residue_modEq 65535 a).symm.trans (heq ▸ residue_modEq 65535 b)

theorem sumsHalves_singular {n : Nat} (hn : n ≤ 65535) : SumsHalves singularChecksum n := by
  intro l l' hl hl' h
  have heq := congrArg UInt16.toNat h
  rw [singularChecksum_toNat (by omega), singularChecksum_toNat (by omega)] at heq
  exact congr_of_complement heq

theorem sumsHalves_transport {n : Nat} (hn : n ≤ 65535) (protocal : UInt8) (sourceIp destIp : UInt32) :
    SumsHalves (fun l => transportCalculateChecksum l protocal (addresses sourceIp destIp)) n := by
  intro l l' hl hl' h
  have heq := congrArg UInt16.toNat h
  rw [transport_toNat (by omega), transport_toNat (by omega), hl, hl'] at heq
  exact Nat.ModEq.add_left_cancel' _ (congr_of_complement heq)

/-! ### The headers -/

theorem take_setHalfAt {l : List UInt8} {n i : Nat} (w : UInt16) :
    (setHalfAt l i w).take n = setHalfAt (l.take n) i w := by
  simp [setHalfAt, List.take_set]

/-- A segment passes when its field carries the checksum of the rest. -/
theorem tcp_validates_iff {tcp : List UInt8} {tcpLen : UInt16} (h : tcp.length = tcpLen.toNat)
    (sourceIp destIp : UInt32) : tcpValidateHeader tcp tcpLen sourceIp destIp = true ↔
      Carries (fun l => transportCalculateChecksum l 6 (addresses sourceIp destIp)) 8 tcp := by
  have htake : (setHalfAt tcp 8 0).take tcpLen.toNat = setHalfAt tcp 8 0 :=
    List.take_of_length_le (by simp [h])
  rw [tcpValidateHeader, beq_iff_eq, tcpCalculateChecksum, htake]
  rfl

/-- A header passes when its fixed fields are right and it carries its checksum. -/
theorem ip4_validates_iff (ip : List UInt8) (protocal : UInt8) :
    ip4ValidateHeader ip protocal = true ↔
      (ip.getD 0 0 >>> 4 = 4 ∧ ip.getD 0 0 &&& 0x0F = 5 ∧ ip.getD 9 0 = protocal) ∧
        Carries singularChecksum 5 (ip.take 20) := by
  have hat : halfAt (ip.take 20) 5 = halfAt ip 5 := by
    simp [halfAt]
  have hget (k : Nat) (hk : k ≠ 10) (hk' : k ≠ 11) : (setHalfAt ip 5 0).getD k 0 = ip.getD k 0 := by
    simp [setHalfAt, hk.symm, hk'.symm]
  rw [ip4ValidateHeader, Carries, hat]
  simp only [hget 0 (by decide) (by decide), hget 9 (by decide) (by decide), take_setHalfAt]
  simp [and_assoc]

section Built

variable (packet : List UInt8) (packetSize : UInt16) (protocal : UInt8)
  (sourceIp destIp identification : UInt32)

/-- The header that `ip4_build_header` leaves is accepted exactly if the checksum's field of the
buffer held one of the two zeros. -/
theorem ip4_built_iff :
    ip4ValidateHeader (ip4BuildHeader packet packetSize protocal sourceIp destIp identification)
        protocal = true ↔
      (packet.getD 10 0).toNat + 256 * (packet.getD 11 0).toNat ≡ 0 [MOD 65535] := by
  generalize hfields : ip4Fields packet packetSize protocal sourceIp destIp identification = fields
  have hlen : fields.length = 20 := by
    rw [← hfields]
    rfl
  have hold : halfAt fields 5 = (packet.getD 10 0).toNat + 256 * (packet.getD 11 0).toNat := by
    rw [← hfields]
    rfl
  have hpos : 0 < (halves (setHalfAt fields 5 0)).sum := by
    rw [← hfields]
    exact Nat.lt_of_lt_of_le (show 0 < 0x45 by decide) (Nat.le_add_right _ _)
  have hsum : (halves (setHalfAt fields 5 0)).sum + halfAt fields 5 = (halves fields).sum :=
    sum_setHalfAt 0 (by omega)
  have hbuilt : (ip4BuildHeader packet packetSize protocal sourceIp destIp identification).take 20 =
      setHalfAt fields 5 (singularChecksum fields) := by
    rw [ip4BuildHeader, hfields, take_setHalfAt, List.take_append_of_le_length (by omega),
      List.take_of_length_le (by omega)]
  have hfirst : (ip4BuildHeader packet packetSize protocal sourceIp destIp identification).getD 0 0 =
      0x45 := rfl
  have hninth : (ip4BuildHeader packet packetSize protocal sourceIp destIp identification).getD 9 0 =
      protocal := rfl
  rw [ip4_validates_iff, hfirst, hninth, and_iff_right ⟨by decide, by decide, rfl⟩, hbuilt, Carries,
    halfAt_setHalfAt _ (by omega), setHalfAt_setHalfAt, singularChecksum_toNat (by omega),
    singularChecksum_toNat (by simp [hlen]), ← hold]
  have hle := residue_le (halves fields).sum (show 0 < 65535 by decide)
  have hle' := residue_le (halves (setHalfAt fields 5 0)).sum (show 0 < 65535 by decide)
  rw [← residue_add_eq_iff hpos, hsum]
  omega

end Built

theorem tcp_built {buffer options tcp : List UInt8} {sourceIp destIp seqNumber ackNumber packetLen : UInt32}
    {sourcePort destPort flags window : UInt16} (hlen : buffer.length = packetLen.toNat)
    (room : 20 + options.length ≤ buffer.length) (short : buffer.length ≤ 65535)
    (h : tcpBuildHeader buffer sourceIp sourcePort destIp destPort seqNumber ackNumber flags window
      options packetLen = some tcp) :
    tcpValidateHeader tcp packetLen.toUInt16 sourceIp destIp = true := by
  unfold tcpBuildHeader at h
  split at h
  · generalize hfields : tcpFields buffer sourcePort destPort seqNumber ackNumber flags window options =
      fields at h
    have hflen : fields.length = 20 + options.length := by
      rw [← hfields]
      simp [tcpFields, halfBytes, wordBytes]
      omega
    have hall : (fields ++ buffer.drop (20 + options.length)).length = packetLen.toUInt16.toNat := by
      rw [List.length_append, List.length_drop, UInt32.toNat_toUInt16]
      omega
    cases h
    rw [tcp_validates_iff (by simpa using hall), tcpCalculateChecksum,
      List.take_of_length_le (by rw [length_setHalfAt, hall])]
    have hi : 2 * 8 + 1 < (fields ++ buffer.drop (20 + options.length)).length := by
      rw [List.length_append]
      omega
    exact carries_setHalfAt hi
  · cases h

/-! ### Built and altered packets -/

/-- The checksum of a packet is the ones'-complement sum of its words; built headers are
accepted, and an accepted packet is not once a word is replaced by one that is not congruent
to it. -/
theorem internet_checksum :
    (∀ packet : List UInt8, packet.length ≤ 65535 →
      (sumWords packet 0).toNat = (halves packet).sum ∧
        (packetChecksumStart packet).toNat = onesSum 65535 (halves packet)) ∧
    (∀ buffer options tcp sourceIp destIp seqNumber ackNumber packetLen sourcePort destPort flags window,
      buffer.length = packetLen.toNat → buffer.length ≤ 65535 → 20 + options.length ≤ buffer.length →
      tcpBuildHeader buffer sourceIp sourcePort destIp destPort seqNumber ackNumber flags window
        options packetLen = some tcp →
      tcpValidateHeader tcp packetLen.toUInt16 sourceIp destIp = true) ∧
    (∀ packet packetSize protocal sourceIp destIp identification,
      packet.getD 10 0 = 0 → packet.getD 11 0 = 0 →
      ip4ValidateHeader (ip4BuildHeader packet packetSize protocal sourceIp destIp identification)
        protocal = true) ∧
    (∀ tcp tcpLen sourceIp destIp i w, tcp.length = tcpLen.toNat → 20 ≤ tcp.length →
      tcpValidateHeader tcp tcpLen sourceIp destIp = true → 2 * i + 1 < tcp.length →
      ¬w.toNat ≡ halfAt tcp i [MOD 65535] →
      tcpValidateHeader (setHalfAt tcp i w) tcpLen sourceIp destIp = false) ∧
    (∀ ip protocal i w, 20 ≤ ip.length → ip4ValidateHeader ip protocal = true → i < 10 →
      ¬w.toNat ≡ halfAt ip i [MOD 65535] →
      ip4ValidateHeader (setHalfAt ip i w) protocal = false) := by
  refine ⟨?_, ?_, ?_, ?_, ?_⟩
  · intro packet h
    refine ⟨sumWords_packet h, ?_⟩
    rw [packetChecksumStart_toNat h, onesSum_eq (by decide) (halves_le packet)]
  · intro buffer options tcp sourceIp destIp seqNumber ackNumber packetLen sourcePort destPort flags
      window hlen short room h
    exact tcp_built hlen room short h
  · intro packet packetSize protocal sourceIp destIp identification h10 h11
    rw [ip4_built_iff, h10, h11]
    rfl
  · intro tcp tcpLen sourceIp destIp i w hlen hmin hvalid hi hw
    have hcarries := (tcp_validates_iff hlen sourceIp destIp).mp hvalid
    have hsums := sumsHalves_transport (show tcp.length ≤ 65535 by have := tcpLen.toNat_lt; omega) 6
      sourceIp destIp
    rw [Bool.eq_false_iff, ne_eq, tcp_validates_iff (by simpa using hlen)]
    exact hcarries.altered hsums rfl hi (by omega) hw
  · intro ip protocal i w hlen hvalid hi hw
    have hcarries := ((ip4_validates_iff ip protocal).mp hvalid).2
    have hat : halfAt (ip.take 20) i = halfAt ip i := by
      simp [halfAt, show 2 * i < 20 by omega, show 2 * i + 1 < 20 by omega]
    rw [Bool.eq_false_iff, ne_eq, ip4_validates_iff, take_setHalfAt]
    intro h
    have hlen' : (ip.take 20).length = 20 := by simp [hlen]
    exact hcarries.altered (sumsHalves_singular (by decide)) hlen' (by omega) (by decide)
      (by rwa [hat]) h.2

theorem internet_checksum_syn : ∃ tcp,
    tcpBuildHeader (List.replicate 20 0) 1 2 3 4 5 6 2 7 [] 20 = some tcp ∧
    tcpValidateHeader tcp 20 1 3 = true ∧ tcpValidateHeader (setHalfAt tcp 0 7) 20 1 3 = false := by
  obtain ⟨-, built, -, altered, -⟩ := internet_checksum
  obtain ⟨tcp, htcp, hlen, hfirst⟩ : ∃ tcp,
      tcpBuildHeader (List.replicate 20 0) 1 2 3 4 5 6 2 7 [] 20 = some tcp ∧ tcp.length = 20 ∧
        halfAt tcp 0 = 512 :=
    ⟨_, rfl, by simp [tcpFields, halfBytes, wordBytes], by decide⟩
  have hvalid := built _ _ _ _ _ _ _ _ _ _ _ _ (by decide) (by decide) (by decide) htcp
  refine ⟨tcp, htcp, hvalid, ?_⟩
  exact altered tcp 20 1 3 0 7 hlen (by omega) hvalid (by omega) (by rw [hfirst]; decide)

end Mos.Headers
