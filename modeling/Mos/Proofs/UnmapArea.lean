import Mos.Proofs.MappedAreas

namespace Mos.Memory
open Machine

def Covers (mm : Mm) (v : UInt32) (a : Nat) : Prop := (mm.vmStart v).toNat ≤ a ∧ a < (mm.vmEnd v).toNat

def Covered (mm : Mm) (l : List UInt32) (a : Nat) : Prop := ∃ v ∈ l, Covers mm v a

def InRange (addr len : UInt32) (a : Nat) : Prop := addr.toNat ≤ a ∧ a < addr.toNat + len.toNat

/-- What unmapping is for: exactly the addresses of the range have left the areas, and no page of
the range is mapped. -/
structure Unmapped (s s' : Space) (l : List UInt32) (addr len : UInt32) : Prop where
  areas : ∃ l', Laid s'.mm l' ∧ ∀ a, Covered s'.mm l' a ↔ Covered s.mm l a ∧ ¬InRange addr len a
  pages : ∀ page, InRange addr len (page * 4096) → s'.table page = none

section
variable {s s' : Space} {mm : Mm} {l : List UInt32} {v w addr len : UInt32}

/-- The comparison is that the area covers the address. -/
theorem hasAddr_iff : hasAddr mm addr v = true ↔ Covers mm v addr.toNat := by
  rw [hasAddr, decide_eq_true_iff, UInt32.le_iff_toNat_le, UInt32.lt_iff_toNat_lt]
  rfl

theorem Laid.unique (laid : Laid mm l) {a : Nat} (hv : v ∈ l) (hw : w ∈ l) (h : Covers mm v a)
    (h' : Covers mm w a) : v = w := by
  let R : UInt32 → UInt32 → Prop := fun v w => Covers mm v a → Covers mm w a → v = w
  have symm : Std.Symm R := ⟨fun _ _ h h₁ h₂ => (h h₂ h₁).symm⟩
  have order : l.Pairwise R := by
    refine laid.order.imp fun hxy hx hy => ?_
    have := UInt32.le_iff_toNat_le.mp hxy
    have := hx.2
    have := hy.1
    omega
  exact List.Pairwise.forall_of_forall (fun _ _ _ _ => rfl) order hv hw h h'

theorem Laid.find_some (laid : Laid mm l) (hv : v ∈ l) (h : Covers mm v addr.toNat) :
    l.find? (hasAddr mm addr) = some v := by
  cases hfind : l.find? (hasAddr mm addr) with
  | none => exact absurd (hasAddr_iff.mpr h) (List.find?_eq_none.mp hfind v hv)
  | some w =>
    have hw := hasAddr_iff.mp (List.find?_some hfind)
    rw [laid.unique (List.mem_of_find?_eq_some hfind) hv hw h]

theorem Laid.drop (laid : Laid mm l) (hw : w ∈ l) :
    Laid { mm with vmEnd := Function.update mm.vmEnd w (mm.vmStart w) } l ∧
      ∀ a, Covered { mm with vmEnd := Function.update mm.vmEnd w (mm.vmStart w) } l a ↔
        Covered mm l a ∧ ¬Covers mm w a := by
  have hle : ∀ u ∈ l, Function.update mm.vmEnd w (mm.vmStart w) u ≤ mm.vmEnd u := by
    intro u hu
    by_cases huw : u = w
    · subst huw
      rw [Function.update_self]
      exact laid.each u hu
    · rw [Function.update_of_ne huw]
      exact UInt32.le_refl _
  constructor
  · refine ⟨laid.ring, fun u hu => ?_, ?_⟩
    · by_cases huw : u = w
      · subst huw
        simp
      · simp only [Function.update_of_ne huw]
        exact laid.each u hu
    · exact laid.order.imp_of_mem fun hx _ hxy => UInt32.le_trans (hle _ hx) hxy
  · intro a
    constructor
    · intro ⟨u, hu, hlo, hhi⟩
      have huw : u ≠ w := by
        rintro rfl
        simp only [Function.update_self] at hhi
        exact absurd hlo (Nat.not_le_of_lt hhi)
      simp only [Function.update_of_ne huw] at hhi
      refine ⟨⟨u, hu, hlo, hhi⟩, fun hcov => huw (laid.unique hu hw ⟨hlo, hhi⟩ hcov)⟩
    · intro ⟨⟨u, hu, hcov⟩, hout⟩
      have huw : u ≠ w := by
        rintro rfl
        exact hout hcov
      refine ⟨u, hu, hcov.1, ?_⟩
      simp only [Function.update_of_ne huw]
      exact hcov.2

theorem Unmapped.covered (h : Unmapped s s' l addr len) {l' : List UInt32} (laid : Laid s'.mm l') (a : Nat) :
    Covered s'.mm l' a ↔ Covered s.mm l a ∧ ¬InRange addr len a := by
  obtain ⟨l'', laid', hcov⟩ := h.areas
  rw [laid.ring.unique laid'.ring]
  exact hcov a

/-- What `do_munmap` does to a range of an area. -/
theorem doMunmap_eq (laid : Laid s.mm l) (hv : v ∈ l) (hl : len.toNat % 4096 = 0)
    (lo : (s.mm.vmStart v).toNat ≤ addr.toNat) (hi : addr.toNat + len.toNat ≤ (s.mm.vmEnd v).toNat) :
    doMunmap s addr len = .ok (match l.find? (hasAddr s.mm addr) with
      | none => s
      | some w => if s.mm.vmStart w < addr then s
        else { s with mm := { s.mm with vmEnd := Function.update s.mm.vmEnd w (s.mm.vmStart w) } }) := by
  have halign : pageAlign len = len := ((pageAlign_eq len).mpr hl).symm
  rw [doMunmap, laid.findVma]
  cases hfind : l.find? (hasAddr s.mm addr) with
  | none => rfl
  | some w =>
    dsimp only
    have hw := hasAddr_iff.mp (List.find?_some hfind)
    split
    · rfl
    · rename_i hstart
      have heq : s.mm.vmStart w = addr := by
        apply UInt32.toNat_inj.mp
        have := hw.1
        rw [UInt32.lt_iff_toNat_lt] at hstart
        omega
      have hfits : len ≤ s.mm.vmEnd w - s.mm.vmStart w := by
        have hle : s.mm.vmStart w ≤ s.mm.vmEnd w := laid.each w (List.mem_of_find?_eq_some hfind)
        rw [UInt32.le_iff_toNat_le, UInt32.toNat_sub_of_le _ _ hle, heq]
        by_cases hz : len.toNat = 0
        · omega
        · rw [laid.find_some hv ⟨lo, by omega⟩] at hfind
          cases hfind
          omega
      rw [halign, if_pos hfits, heq]

theorem toNat_pos (h : len ≠ 0) : 0 < len.toNat :=
  Nat.pos_of_ne_zero fun hz => h (UInt32.toNat_inj.mp hz)

/-- Nothing has to change only for a length of zero. -/
theorem unmapped_refl_iff (laid : Laid s.mm l) (hv : v ∈ l)
    (lo : (s.mm.vmStart v).toNat ≤ addr.toNat) (hi : addr.toNat + len.toNat ≤ (s.mm.vmEnd v).toNat) :
    Unmapped s s l addr len ↔ len = 0 := by
  constructor
  · intro h
    by_contra hz
    have hpos := toNat_pos hz
    have hcov : Covered s.mm l addr.toNat := ⟨v, hv, lo, by omega⟩
    exact ((h.covered laid addr.toNat).mp hcov).2 ⟨Nat.le_refl _, by omega⟩
  · rintro rfl
    have hout : ∀ a, ¬InRange addr 0 a := by
      intro a ⟨h₁, h₂⟩
      change a < addr.toNat + 0 at h₂
      omega
    exact ⟨⟨l, laid, fun a => ⟨fun h => ⟨h, hout a⟩, And.left⟩⟩, fun page h => absurd h (hout _)⟩

theorem unmapped_drop_iff (laid : Laid s.mm l) (hw : w ∈ l) (start : s.mm.vmStart w = addr)
    (more : addr.toNat < (s.mm.vmEnd w).toNat) (hi : addr.toNat + len.toNat ≤ (s.mm.vmEnd w).toNat) :
    Unmapped s { s with mm := { s.mm with vmEnd := Function.update s.mm.vmEnd w (s.mm.vmStart w) } } l
        addr len ↔
      (s.mm.vmEnd w).toNat = addr.toNat + len.toNat ∧
        ∀ page, InRange addr len (page * 4096) → s.table page = none := by
  obtain ⟨laid', hcov⟩ := laid.drop hw
  have hstart : (s.mm.vmStart w).toNat = addr.toNat := congrArg _ start
  constructor
  · intro h
    refine ⟨?_, h.pages⟩
    by_contra hne
    -- the last address of the area is outside the range
    have hlast : Covers s.mm w ((s.mm.vmEnd w).toNat - 1) := ⟨by omega, by omega⟩
    have hkept := (h.covered laid' ((s.mm.vmEnd w).toNat - 1)).mpr
      ⟨⟨w, hw, hlast⟩, fun hin => by have := hin.2; omega⟩
    exact ((hcov _).mp hkept).2 hlast
  · intro ⟨hend, hpages⟩
    refine ⟨⟨l, laid', fun a => (hcov a).trans (and_congr_right fun _ => not_congr ?_)⟩, hpages⟩
    rw [Covers, InRange, hstart, hend]

theorem Laid.empty_at (laid : Laid s.mm l) (hw : w ∈ l) (start : s.mm.vmStart w = addr)
    (out : ¬Covers s.mm w addr.toNat) : s.mm.vmEnd w = addr := by
  have hle := UInt32.le_iff_toNat_le.mp (laid.each w hw)
  have hstart : (s.mm.vmStart w).toNat = addr.toNat := congrArg _ start
  apply UInt32.toNat_inj.mp
  by_contra hne
  exact out ⟨by omega, by omega⟩

/-- A range of an area is unmapped exactly if it is the whole area and has no page that is mapped,
or if it is empty and nothing starts at it: `do_munmap` passes over an area that starts below the
range, drops the whole of one that starts with it, and leaves the page tables alone. -/
theorem munmap_unmaps_iff (laid : Laid s.mm l) (hv : v ∈ l)
    (hl : len.toNat % 4096 = 0) (lo : (s.mm.vmStart v).toNat ≤ addr.toNat)
    (hi : addr.toNat + len.toNat ≤ (s.mm.vmEnd v).toNat) :
    (∃ s', doMunmap s addr len = .ok s' ∧ Unmapped s s' l addr len) ↔
      len = 0 ∧ (∀ w ∈ l, s.mm.vmStart w = addr → s.mm.vmEnd w = addr) ∨
      len ≠ 0 ∧ s.mm.vmStart v = addr ∧ (s.mm.vmEnd v).toNat = addr.toNat + len.toNat ∧
        ∀ page, InRange addr len (page * 4096) → s.table page = none := by
  have hok := doMunmap_eq laid hv hl lo hi
  have hresult : ∀ {r : Space}, doMunmap s addr len = .ok r →
      ((∃ s', doMunmap s addr len = .ok s' ∧ Unmapped s s' l addr len) ↔ Unmapped s r l addr len) := by
    intro r hr
    constructor
    · rintro ⟨s', hs', h⟩
      cases hr.symm.trans hs'
      exact h
    · exact fun h => ⟨r, hr, h⟩
  rw [hresult hok]
  by_cases hz : len = 0
  · subst hz
    simp only [true_and, ne_eq, not_true_eq_false, false_and, or_false]
    cases hfind : l.find? (hasAddr s.mm addr) with
    | none =>
      refine iff_of_true ((unmapped_refl_iff laid hv lo hi).mpr rfl) fun u hu hstart => ?_
      exact laid.empty_at hu hstart fun hcov => List.find?_eq_none.mp hfind u hu (hasAddr_iff.mpr hcov)
    | some w =>
      have hw := List.mem_of_find?_eq_some hfind
      have hcov := hasAddr_iff.mp (List.find?_some hfind)
      dsimp only
      split
      · rename_i hbelow
        refine iff_of_true ((unmapped_refl_iff laid hv lo hi).mpr rfl) fun u hu hstart => ?_
        refine laid.empty_at hu hstart fun hcov' => ?_
        rw [laid.unique hw hu hcov hcov', hstart] at hbelow
        exact absurd hbelow (UInt32.lt_irrefl _)
      · rename_i hbelow
        have hstart : s.mm.vmStart w = addr :=
          UInt32.le_antisymm (UInt32.le_iff_toNat_le.mpr hcov.1) (UInt32.not_lt.mp hbelow)
        have hmore := hcov.2
        have hle : addr.toNat + (0 : UInt32).toNat ≤ (s.mm.vmEnd w).toNat := Nat.le_of_lt hmore
        refine iff_of_false (fun h => ?_) fun h => ?_
        · have hend := ((unmapped_drop_iff laid hw hstart hmore hle).mp h).1
          change _ = addr.toNat + 0 at hend
          omega
        · have hend := congrArg UInt32.toNat (h w hw hstart)
          omega
  · have hpos := toNat_pos hz
    rw [laid.find_some hv ⟨lo, by omega⟩]
    simp only [hz, false_and, false_or, ne_eq, not_false_eq_true, true_and]
    split
    · rename_i hbelow
      refine iff_of_false (fun h => hz ((unmapped_refl_iff laid hv lo hi).mp h)) fun h => ?_
      rw [h.1] at hbelow
      exact absurd hbelow (UInt32.lt_irrefl _)
    · rename_i hbelow
      have hstart : s.mm.vmStart v = addr :=
        UInt32.le_antisymm (UInt32.le_iff_toNat_le.mpr lo) (UInt32.not_lt.mp hbelow)
      rw [unmapped_drop_iff laid hv hstart (by omega) hi]
      exact (and_iff_right hstart).symm

end

def twoPages (table : Nat → Option Nat) : Space where
  mm := oneArea 0x50000000 0x50002000 0x8000000
  table := table
  tables := fun _ => true
  phys := fun _ _ => 0
  frames := []
  areas := []

theorem munmap_unmaps_whole : ∃ s', doMunmap (twoPages fun _ => none) 0x50000000 0x2000 = .ok s' ∧
    Unmapped (twoPages fun _ => none) s' [2] 0x50000000 0x2000 := by
  have laid : Laid (twoPages fun _ => none).mm [2] := oneArea_laid _ (by decide)
  exact (munmap_unmaps_iff laid (List.mem_singleton.mpr rfl) (by decide) (by decide)
    (by decide)).mpr (.inr ⟨by decide, rfl, by decide, fun _ _ => rfl⟩)

/-- Of two mapped pages the first is to be unmapped: it stays mapped, and the second is no longer
in an area. -/
theorem munmap_drops_rest : ∃ s', doMunmap (twoPages some) 0x50000000 0x1000 = .ok s' ∧
    s'.table 0x50000 = some 0x50000 ∧ Covered (twoPages some).mm [2] 0x50001000 ∧
    ¬InRange 0x50000000 0x1000 0x50001000 ∧ ¬Covered s'.mm [2] 0x50001000 := by
  refine ⟨_, rfl, rfl, ⟨2, List.mem_singleton.mpr rfl, by decide, by decide⟩, fun h => ?_, ?_⟩
  · exact absurd h.2 (by decide)
  · rintro ⟨v, hv, hcov⟩
    obtain rfl := List.mem_singleton.mp hv
    exact absurd hcov.2 (by decide)

end Mos.Memory
