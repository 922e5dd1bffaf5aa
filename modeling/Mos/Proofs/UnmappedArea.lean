import Mos.Memory.Mmap

namespace Mos.Memory
open Machine List UInt32

def roundUp (len : UInt32) : Nat := (len.toNat + 4095) / 4096 * 4096

/-- The areas of an `mm`: the list is well linked, sorted by address and disjoint. -/
structure Laid (mm : Mm) (l : List UInt32) : Prop where
  ring : Ring mm.links mm.mmap l
  each : ∀ v ∈ l, mm.vmStart v ≤ mm.vmEnd v
  order : l.Pairwise fun v w => mm.vmEnd v ≤ mm.vmStart w

/-- The area `vma` is linked once among the areas of `l`, which are as they were, and
has the page-rounded length. -/
structure Inserted (mm mm' : Mm) (l : List UInt32) (vma len : UInt32) : Prop where
  linked : ∃ l', Laid mm' l' ∧ l'.Perm (vma :: l)
  kept : ∀ v ∈ l, mm'.vmStart v = mm.vmStart v ∧ mm'.vmEnd v = mm.vmEnd v
  length : (mm'.vmStart vma).toNat + roundUp len = (mm'.vmEnd vma).toNat

/-- Between an area of the list and the next one, or behind the last one, there is a
place for `n` bytes at `a`, or below `a` for all that the gap is too short above it. -/
def gapBehind (mm : Mm) (a n : Nat) : List UInt32 → Bool
  | [] => false
  | [v] => decide ((mm.vmEnd v).toNat ≤ a)
  | v :: w :: l =>
    decide ((mm.vmEnd v).toNat ≤ a) && (decide (a + n ≤ (mm.vmStart w).toNat) ||
      decide (a < (mm.vmStart w).toNat ∧ (mm.vmEnd v).toNat + n ≤ (mm.vmStart w).toNat ∧
        n < (mm.vmStart w).toNat)) || gapBehind mm a n (w :: l)

/-- The hint is page-aligned and not 0, the area ends within the address space, and it
does not have to be put in front of the first area or into a place that is taken. -/
def fitsBehind (mm : Mm) (l : List UInt32) (addr len : UInt32) : Bool :=
  let a := (areaHint mm addr).toNat
  let n := roundUp len
  decide (a % 4096 = 0 ∧ a + n < 2 ^ 32 ∧ (0 < a ∨ n = 0)) &&
    match l with
    | [] => true
    | v :: _ => decide ((mm.vmStart v).toNat < a + n) && gapBehind mm a n l

section Scan

/-- Where the loop stops: in front of an area, behind an area with the address found,
or at the end of the list. -/
inductive Stop where
  | before (v : UInt32)
  | behind (v p : UInt32)
  | missed
  deriving DecidableEq, Repr

def scanAreas (mm : Mm) (addr len : UInt32) : List UInt32 → Stop
  | [] => .missed
  | v :: l =>
    if addr + len ≤ mm.vmStart v then .before v
    else
      match l with
      | [] => if mm.vmEnd v ≤ addr then .behind v addr else .missed
      | w :: _ =>
        if mm.vmEnd v ≤ addr ∧ addr + len ≤ mm.vmStart w then .behind v addr
        else if (mm.vmEnd v ≤ addr ∧ addr < mm.vmStart w) ∧
            len ≤ mm.vmStart w - mm.vmEnd v then .behind v (mm.vmStart w - len)
        else scanAreas mm addr len l

def Stop.result (mm : Mm) (vma addr : UInt32) : Stop → Links UInt32 × UInt32
  | .before v => (mm.links.addAfter v mm.mmap, addr)
  | .behind v p => (mm.links.addAfter vma v, p)
  | .missed => (mm.links, addr)

variable {mm : Mm} {vma addr len : UInt32}

theorem findGap_eq (vma addr len : UInt32) {x : UInt32} {l : List UInt32}
    (h : Path mm.links x l mm.mmap) (hl : mm.mmap ∉ l) {n : Nat} (hn : l.length < n) :
    findGap mm vma addr len n (mm.links.next x) =
      some ((scanAreas mm addr len l).result mm vma addr) := by
  induction l generalizing x n with
  | nil =>
    obtain _ | n := n
    · simp at hn
    cases h with
    | nil next _ => simp [findGap, next, scanAreas, Stop.result]
  | cons v l ih =>
    obtain _ | n := n
    · simp at hn
    cases h with
    | cons next _ rest =>
      simp only [mem_cons, not_or] at hl
      have hv : v ≠ mm.mmap := Ne.symm hl.1
      have hih := ih rest hl.2 (n := n) (by simpa using hn)
      unfold findGap scanAreas
      rw [next, if_neg hv]
      cases rest with
      | nil hlast _ =>
        simp only [hlast, decide_true, true_or, and_true, Bool.true_eq_false, false_and, if_false]
        rw [hlast] at hih
        split
        · rfl
        · split
          · rfl
          · exact hih
      | @cons _ w _ l' hnext _ rest' =>
        have hw : w ≠ mm.mmap := by
          rintro rfl
          simp at hl
        simp only [hnext, hw, decide_false, Bool.false_eq_true, false_or, true_and]
        rw [hnext] at hih
        split
        · rfl
        · split
          · rfl
          · split
            · rfl
            · exact hih

/-- Areas in the order of their addresses, none of them overlapping the next one. -/
structure Ordered (mm : Mm) (l : List UInt32) : Prop where
  each : ∀ v ∈ l, mm.vmStart v ≤ mm.vmEnd v
  order : l.Pairwise fun v w => mm.vmEnd v ≤ mm.vmStart w

variable {v : UInt32}

theorem Ordered.tail {l : List UInt32} (h : Ordered mm (v :: l)) : Ordered mm l :=
  ⟨fun w hw => h.each w (mem_cons_of_mem v hw), (pairwise_cons.mp h.order).2⟩

theorem gapBehind_head {a n : Nat} {l : List UInt32} (h : Ordered mm (v :: l))
    (gap : gapBehind mm a n (v :: l) = true) : (mm.vmStart v).toNat ≤ a := by
  induction l generalizing v with
  | nil =>
    have := le_iff_toNat_le.mp (h.each v (by simp))
    simp only [gapBehind, decide_eq_true_eq] at gap
    omega
  | cons w l ih =>
    have hv := le_iff_toNat_le.mp (h.each v (by simp))
    have hvw := le_iff_toNat_le.mp ((pairwise_cons.mp h.order).1 w (by simp))
    simp only [gapBehind, Bool.or_eq_true, Bool.and_eq_true, decide_eq_true_eq] at gap
    rcases gap with gap | gap
    · omega
    · have := ih h.tail gap
      omega

theorem scanAreas_finds {l : List UInt32} (h : Ordered mm l)
    (room : addr.toNat + len.toNat < 2 ^ 32) (pos : 0 < addr.toNat ∨ len.toNat = 0)
    (front : ∀ v ∈ l.head?, (mm.vmStart v).toNat < addr.toNat + len.toNat)
    (gap : gapBehind mm addr.toNat len.toNat l = true) :
    ∃ v p, scanAreas mm addr len l = .behind v p ∧ p.toNat + len.toNat < 2 ^ 32 ∧
      (0 < p.toNat ∨ len.toNat = 0) := by
  have hsum : (addr + len).toNat = addr.toNat + len.toNat := by
    rw [UInt32.toNat_add]
    omega
  induction l with
  | nil => cases gap
  | cons v l ih =>
    have hfront := front v (by simp)
    unfold scanAreas
    rw [if_neg (by rw [UInt32.le_iff_toNat_le, hsum]; omega)]
    cases l with
    | nil =>
      simp only [gapBehind, decide_eq_true_eq] at gap
      exact ⟨v, addr, if_pos (UInt32.le_iff_toNat_le.mpr gap), room, pos⟩
    | cons w l =>
      have hvw := UInt32.le_iff_toNat_le.mp ((List.pairwise_cons.mp h.order).1 w (by simp))
      have hsub : (mm.vmStart w - mm.vmEnd v).toNat = (mm.vmStart w).toNat - (mm.vmEnd v).toNat :=
        UInt32.toNat_sub_of_le _ _ (UInt32.le_iff_toNat_le.mpr hvw)
      simp only [gapBehind, Bool.or_eq_true, Bool.and_eq_true, decide_eq_true_eq] at gap
      simp only [UInt32.le_iff_toNat_le, UInt32.lt_iff_toNat_lt, hsum, hsub]
      by_cases h₂ : (mm.vmEnd v).toNat ≤ addr.toNat ∧
          addr.toNat + len.toNat ≤ (mm.vmStart w).toNat
      · rw [if_pos h₂]
        exact ⟨v, addr, rfl, room, pos⟩
      · rw [if_neg h₂]
        by_cases h₃ : ((mm.vmEnd v).toNat ≤ addr.toNat ∧ addr.toNat < (mm.vmStart w).toNat) ∧
            len.toNat ≤ (mm.vmStart w).toNat - (mm.vmEnd v).toNat
        · rw [if_pos h₃]
          have hlen : (mm.vmStart w - len).toNat = (mm.vmStart w).toNat - len.toNat :=
            UInt32.toNat_sub_of_le _ _ (UInt32.le_iff_toNat_le.mpr (by omega))
          refine ⟨v, _, rfl, by omega, ?_⟩
          rcases gap with gap | gap
          · omega
          · have := gapBehind_head h.tail gap
            omega
        · rw [if_neg h₃]
          have hgap := gap.resolve_left (by omega)
          have := gapBehind_head h.tail hgap
          refine ih h.tail (fun u hu => ?_) hgap
          obtain rfl : w = u := Option.some.inj hu
          omega

/-- Where the loop puts the new area. -/
theorem scanAreas_behind {l : List UInt32} {p : UInt32} (h : Ordered mm l)
    (hs : scanAreas mm addr len l = .behind v p) (ok : p.toNat + len.toNat < 2 ^ 32)
    (pos : 0 < p.toNat ∨ len.toNat = 0) :
    addr.toNat + len.toNat < 2 ^ 32 ∧ (0 < addr.toNat ∨ len.toNat = 0) ∧
      (∀ v ∈ l.head?, (mm.vmStart v).toNat < addr.toNat + len.toNat) ∧
      gapBehind mm addr.toNat len.toNat l = true ∧
      ∃ pre post, l = pre ++ v :: post ∧ (mm.vmEnd v).toNat ≤ p.toNat ∧
        ∀ w ∈ post.head?, p.toNat + len.toNat ≤ (mm.vmStart w).toNat := by
  have hsum : (addr + len).toNat = (addr.toNat + len.toNat) % 2 ^ 32 := UInt32.toNat_add _ _
  induction l with
  | nil => cases hs
  | cons u l ih =>
    unfold scanAreas at hs
    split at hs
    · cases hs
    · rename_i h₁
      rw [UInt32.le_iff_toNat_le, hsum] at h₁
      cases l with
      | nil =>
        simp only at hs
        split at hs
        · rename_i h₂
          obtain ⟨rfl, rfl⟩ := Stop.behind.inj hs
          have h₂ := UInt32.le_iff_toNat_le.mp h₂
          refine ⟨ok, pos, ?_, by simpa [gapBehind] using h₂, [], [], rfl, h₂, by simp⟩
          intro x hx
          obtain rfl : u = x := Option.some.inj hx
          omega
        · cases hs
      | cons w l =>
        have hvw := UInt32.le_iff_toNat_le.mp ((List.pairwise_cons.mp h.order).1 w (by simp))
        have hsub : (mm.vmStart w - mm.vmEnd u).toNat = (mm.vmStart w).toNat - (mm.vmEnd u).toNat :=
          UInt32.toNat_sub_of_le _ _ (UInt32.le_iff_toNat_le.mpr hvw)
        simp only [UInt32.le_iff_toNat_le, UInt32.lt_iff_toNat_lt, hsum, hsub] at hs
        simp only [gapBehind, Bool.or_eq_true, Bool.and_eq_true, decide_eq_true_eq]
        split at hs
        · rename_i h₂
          obtain ⟨rfl, rfl⟩ := Stop.behind.inj hs
          refine ⟨ok, pos, ?_, .inl (by omega), [], w :: l, rfl, h₂.1, ?_⟩
          · intro x hx
            obtain rfl : u = x := Option.some.inj hx
            omega
          · intro x hx
            obtain rfl : w = x := Option.some.inj hx
            omega
        · split at hs
          · obtain ⟨rfl, rfl⟩ := Stop.behind.inj hs
            have hlen : (mm.vmStart w - len).toNat = (mm.vmStart w).toNat - len.toNat :=
              UInt32.toNat_sub_of_le _ _ (UInt32.le_iff_toNat_le.mpr (by omega))
            refine ⟨by omega, by omega, ?_, .inl (by omega), [], w :: l, rfl, by omega, ?_⟩
            · intro x hx
              obtain rfl : u = x := Option.some.inj hx
              omega
            · intro x hx
              obtain rfl : w = x := Option.some.inj hx
              omega
          · obtain ⟨hroom, hpos, _, hgap, pre, post, hl, hp, hpost⟩ := ih h.tail hs
            refine ⟨hroom, hpos, ?_, .inr hgap, u :: pre, post, by rw [hl]; rfl, hp, hpost⟩
            intro x hx
            obtain rfl : u = x := Option.some.inj hx
            omega

theorem scanAreas_before {l : List UInt32}
    (h : scanAreas mm addr len l = .before v) : v ∈ l := by
  induction l with
  | nil => cases h
  | cons u l ih =>
    unfold scanAreas at h
    split at h
    · obtain rfl := Stop.before.inj h
      simp
    · cases l with
      | nil =>
        simp only at h
        split at h <;> cases h
      | cons w l =>
        simp only at h
        split at h
        · cases h
        · split at h
          · cases h
          · exact mem_cons_of_mem _ (ih h)

theorem scanAreas_congr {mm' : Mm} {l : List UInt32}
    (same : ∀ v ∈ l, mm'.vmStart v = mm.vmStart v ∧ mm'.vmEnd v = mm.vmEnd v) :
    scanAreas mm' addr len l = scanAreas mm addr len l := by
  induction l with
  | nil => rfl
  | cons v l ih =>
    have hv := same v (by simp)
    cases l with
    | nil => simp only [scanAreas, hv]
    | cons w l =>
      have hw := same w (by simp)
      have hl := ih fun u hu => same u (mem_cons_of_mem _ hu)
      unfold scanAreas
      simp only [hv, hw, hl]

end Scan

section
variable {mm : Mm} {vma addr len : UInt32} {l : List UInt32}

theorem pageAlign_toNat (x : UInt32) : (pageAlign x).toNat = roundUp x % 2 ^ 32 := by
  have hd := alignDown_toNat (x + 4096 - 1) (k := 12) (by omega)
  have hs : (x + 4096 - 1).toNat = (x.toNat + 4095) % 2 ^ 32 := by
    rw [UInt32.toNat_sub, UInt32.toNat_add]
    simp
    omega
  unfold roundUp
  refine hd.trans ?_
  omega

theorem pageAlign_eq (x : UInt32) : x = pageAlign x ↔ x.toNat % 4096 = 0 := by
  have hx := x.toNat_lt
  rw [← UInt32.toNat_inj, pageAlign_toNat]
  unfold roundUp
  omega

def settle (mm : Mm) (vma len : UInt32) (r : Links UInt32 × UInt32) : Mm :=
  { mm with
    links := r.1
    vmStart := Function.update mm.vmStart vma r.2
    vmEnd := Function.update mm.vmEnd vma (if r.2 = 0 then 0 else r.2 + len)
    freeAreaCache := if r.2 = 0 then mm.freeAreaCache else r.2 + len }

def placing (mm : Mm) (vma addr len : UInt32) (l : List UInt32) : Links UInt32 × UInt32 :=
  match l with
  | [] => (mm.links.addAfter vma mm.mmap, addr)
  | v :: l => (scanAreas mm addr len (v :: l)).result mm vma addr

theorem ring_length_lt {k : Links UInt32} {h : UInt32} (r : Ring k h l) : l.length < 2 ^ 32 := by
  have hmap : ((h :: l).map UInt32.toNat).Nodup := r.nodup.map fun x y hxy => UInt32.toNat_inj.mp hxy
  have hsub : (h :: l).map UInt32.toNat ⊆ List.range (2 ^ 32) := by
    intro x hx
    obtain ⟨y, _, rfl⟩ := List.mem_map.mp hx
    exact List.mem_range.mpr y.toNat_lt
  have := hmap.length_le_of_subset hsub
  simp at this
  omega

theorem getUnmappedArea_eq (laid : Laid mm l) (fresh : vma ∉ mm.mmap :: l) :
    getUnmappedArea mm vma addr len =
      if (areaHint mm addr).toNat % 4096 = 0 then
        some (settle mm vma (pageAlign len) (placing mm vma (areaHint mm addr) (pageAlign len) l))
      else none := by
  obtain ⟨mm₀, hmm₀⟩ : ∃ mm₀ : Mm, mm₀ = { mm with
      vmStart := Function.update mm.vmStart vma 0
      vmEnd := Function.update mm.vmEnd vma 0 } := ⟨_, rfl⟩
  have hlinks : mm₀.links = mm.links ∧ mm₀.mmap = mm.mmap ∧ mm₀.freeAreaCache = mm.freeAreaCache := by
    rw [hmm₀]
    exact ⟨rfl, rfl, rfl⟩
  have hhint : areaHint mm₀ addr = areaHint mm addr := by rw [hmm₀]; rfl
  have hplace : (if mm.links.next mm.mmap = mm.mmap then
        some (mm.links.addAfter vma mm.mmap, areaHint mm addr)
      else findGap mm₀ vma (areaHint mm addr) (pageAlign len) (2 ^ 32) (mm.links.next mm.mmap)) =
      some (placing mm vma (areaHint mm addr) (pageAlign len) l) := by
    have hpath := laid.ring.path
    have hmem := (nodup_cons.mp laid.ring.nodup).1
    cases l with
    | nil =>
      cases hpath with
      | nil next _ =>
        rw [if_pos next]
        rfl
    | cons v l =>
      have hne : mm.links.next mm.mmap ≠ mm.mmap := by
        cases hpath with
        | cons next _ _ =>
          rw [next]
          rintro rfl
          simp at hmem
      have hpath₀ : Path mm₀.links mm.mmap (v :: l) mm₀.mmap := by
        rw [hlinks.1, hlinks.2.1]
        exact hpath
      have hgap := findGap_eq vma (areaHint mm addr) (pageAlign len) hpath₀
        (by rw [hlinks.2.1]; exact hmem) (ring_length_lt laid.ring)
      have hscan : scanAreas mm₀ (areaHint mm addr) (pageAlign len) (v :: l) =
          scanAreas mm (areaHint mm addr) (pageAlign len) (v :: l) := by
        refine scanAreas_congr fun u hu => ?_
        have hu' : u ≠ vma := by
          rintro rfl
          exact fresh (mem_cons_of_mem _ hu)
        rw [hmm₀]
        exact ⟨Function.update_of_ne hu' _ _, Function.update_of_ne hu' _ _⟩
      rw [hlinks.1] at hgap
      rw [if_neg hne, hgap, hscan]
      unfold placing Stop.result
      rw [hlinks.1, hlinks.2.1]
  unfold getUnmappedArea
  simp only [← hmm₀, hhint, pageAlign_eq]
  split
  · rw [hplace, Option.map_some]
    unfold settle
    by_cases hr : (placing mm vma (areaHint mm addr) (pageAlign len) l).2 = 0
    · simp [hr]
    · simp [hr, Function.update_idem]
  · rfl

theorem Laid.ordered (laid : Laid mm l) : Ordered mm l := ⟨laid.each, laid.order⟩

variable {mm' : Mm} {n : UInt32} {r : Links UInt32 × UInt32}

theorem Ordered.insert {v : UInt32} {pre post : List UInt32}
    (h : Ordered mm (pre ++ v :: post))
    (same : ∀ u ∈ pre ++ v :: post, mm'.vmStart u = mm.vmStart u ∧ mm'.vmEnd u = mm.vmEnd u)
    (hv : mm.vmEnd v ≤ mm'.vmStart vma) (hvma : mm'.vmStart vma ≤ mm'.vmEnd vma)
    (hpost : ∀ w ∈ post.head?, mm'.vmEnd vma ≤ mm.vmStart w) :
    Ordered mm' (pre ++ v :: vma :: post) := by
  have hold : Ordered mm' (pre ++ v :: post) := by
    refine ⟨fun u hu => ?_, h.order.imp_of_mem fun {u w} hu hw huw => ?_⟩
    · rw [(same u hu).1, (same u hu).2]
      exact h.each u hu
    · rw [(same u hu).2, (same w hw).1]
      exact huw
  have hv' : mm'.vmEnd v ≤ mm'.vmStart vma := by
    rw [(same v (by simp)).2]
    exact hv
  obtain ⟨hpre, hrest, hcross⟩ := List.pairwise_append.mp hold.order
  obtain ⟨hvpost, hposts⟩ := List.pairwise_cons.mp hrest
  have hbelow : ∀ w ∈ post, mm'.vmEnd vma ≤ mm'.vmStart w := by
    cases post with
    | nil => simp
    | cons w post =>
      have hw : mm'.vmEnd vma ≤ mm'.vmStart w := by
        rw [(same w (by simp)).1]
        exact hpost w (by simp)
      intro u hu
      rcases List.mem_cons.mp hu with rfl | hu
      · exact hw
      · have h₁ := hold.each w (by simp)
        have h₂ := (List.pairwise_cons.mp hposts).1 u hu
        exact UInt32.le_trans hw (UInt32.le_trans h₁ h₂)
  refine ⟨fun u hu => ?_, List.pairwise_append.mpr ⟨hpre, ?_, fun u hu w hw => ?_⟩⟩
  · by_cases huv : u = vma
    · rw [huv]
      exact hvma
    · refine hold.each u ?_
      simp only [List.mem_append, List.mem_cons] at hu ⊢
      tauto
  · refine List.pairwise_cons.mpr ⟨fun w hw => ?_, List.pairwise_cons.mpr ⟨hbelow, hposts⟩⟩
    rcases List.mem_cons.mp hw with rfl | hw
    · exact hv'
    · exact hvpost w hw
  · have huv := hcross u hu v (by simp)
    rcases List.mem_cons.mp hw with rfl | hw
    · exact huv
    · rcases List.mem_cons.mp hw with rfl | hw
      · exact UInt32.le_trans huv (UInt32.le_trans (hold.each v (by simp)) hv')
      · exact hcross u hu w (List.mem_cons_of_mem _ hw)

theorem settle_kept (fresh : vma ∉ mm.mmap :: l) :
    ∀ v ∈ l, (settle mm vma n r).vmStart v = mm.vmStart v ∧
      (settle mm vma n r).vmEnd v = mm.vmEnd v := by
  intro v hv
  have hne : v ≠ vma := by
    rintro rfl
    exact fresh (mem_cons_of_mem _ hv)
  exact ⟨Function.update_of_ne hne _ _, Function.update_of_ne hne _ _⟩

theorem settle_start (mm : Mm) (vma n : UInt32) (r : Links UInt32 × UInt32) :
    (settle mm vma n r).vmStart vma = r.2 := Function.update_self _ _ _

theorem settle_end (mm : Mm) (vma : UInt32)
    (room : r.2.toNat + n.toNat < 2 ^ 32) (pos : 0 < r.2.toNat ∨ n.toNat = 0) :
    ((settle mm vma n r).vmEnd vma).toNat = r.2.toNat + n.toNat := by
  have hend : (settle mm vma n r).vmEnd vma = if r.2 = 0 then 0 else r.2 + n :=
    Function.update_self _ _ _
  rw [hend]
  split
  · rename_i h
    rw [h] at pos ⊢
    simp at pos ⊢
    omega
  · rw [UInt32.toNat_add]
    omega

theorem settle_behind {v p : UInt32} {pre post : List UInt32}
    (laid : Laid mm (pre ++ v :: post)) (fresh : vma ∉ mm.mmap :: (pre ++ v :: post))
    (hlen : n.toNat = roundUp len) (room : p.toNat + n.toNat < 2 ^ 32)
    (pos : 0 < p.toNat ∨ n.toNat = 0) (hv : (mm.vmEnd v).toNat ≤ p.toNat)
    (hpost : ∀ w ∈ post.head?, p.toNat + n.toNat ≤ (mm.vmStart w).toNat) :
    Inserted mm (settle mm vma n (mm.links.addAfter vma v, p)) (pre ++ v :: post) vma len := by
  have hstart := settle_start mm vma n (mm.links.addAfter vma v, p)
  have hend := settle_end mm vma (r := (mm.links.addAfter vma v, p)) room pos
  have hkept := settle_kept (n := n) (r := (mm.links.addAfter vma v, p)) fresh
  have hord := laid.ordered.insert hkept
    (by rw [hstart]; exact le_iff_toNat_le.mpr hv)
    (by rw [hstart, le_iff_toNat_le, hend]; exact Nat.le_add_right _ _)
    (fun w hw => by rw [le_iff_toNat_le, hend]; exact hpost w hw)
  refine ⟨⟨_, ⟨laid.ring.addAfter fresh, hord.each, hord.order⟩, ?_⟩, hkept, ?_⟩
  · have := @perm_middle _ vma (pre ++ [v]) post
    simpa using this
  · rw [hend, hstart, hlen]

theorem settle_first {p : UInt32} (laid : Laid mm []) (fresh : vma ∉ [mm.mmap])
    (hlen : n.toNat = roundUp len) (room : p.toNat + n.toNat < 2 ^ 32)
    (pos : 0 < p.toNat ∨ n.toNat = 0) :
    Inserted mm (settle mm vma n (mm.links.addAfter vma mm.mmap, p)) [] vma len := by
  have hstart := settle_start mm vma n (mm.links.addAfter vma mm.mmap, p)
  have hend := settle_end mm vma (r := (mm.links.addAfter vma mm.mmap, p)) room pos
  refine ⟨⟨[vma], ⟨laid.ring.addHead fresh, ?_, by simp⟩, .refl _⟩, by simp, ?_⟩
  · intro v hv
    obtain rfl := mem_singleton.mp hv
    rw [hstart, le_iff_toNat_le, hend]
    exact Nat.le_add_right _ _
  · rw [hend, hstart, hlen]

theorem not_inserted (fresh : vma ∉ mm.mmap :: l) (same : mm'.mmap = mm.mmap)
    (closed : ∀ y ∈ mm.mmap :: l, mm'.links.next y ∈ mm.mmap :: l) :
    ¬ Inserted mm mm' l vma len := by
  intro h
  obtain ⟨l', laid', perm⟩ := h.linked
  have hpath := laid'.ring.path
  rw [same] at hpath
  exact fresh (hpath.closed closed (by simp) vma (perm.mem_iff.mpr (by simp)))

theorem Inserted.room
    (h : Inserted mm (settle mm vma n r) l vma len) (hn : n.toNat = roundUp len % 2 ^ 32) :
    n.toNat = roundUp len ∧ r.2.toNat + n.toNat < 2 ^ 32 ∧ (0 < r.2.toNat ∨ n.toNat = 0) := by
  have hlen := h.length
  have hlt := ((settle mm vma n r).vmEnd vma).toNat_lt
  rw [settle_start] at hlen
  have hn' : n.toNat = roundUp len := by omega
  refine ⟨hn', by omega, ?_⟩
  by_cases hr : r.2 = 0
  · have hend : (settle mm vma n r).vmEnd vma = 0 := by
      unfold settle
      simp [hr]
    rw [hend, hr] at hlen
    omega
  · have := UInt32.toNat_inj.not.mpr hr
    simp at this
    omega

theorem inserted_of_fits (laid : Laid mm l) (fresh : vma ∉ mm.mmap :: l)
    (fits : fitsBehind mm l addr len = true) :
    ∃ mm', getUnmappedArea mm vma addr len = some mm' ∧ Inserted mm mm' l vma len := by
  unfold fitsBehind at fits
  simp only [Bool.and_eq_true, decide_eq_true_eq] at fits
  obtain ⟨⟨haligned, room, pos⟩, hgap⟩ := fits
  have hn : (pageAlign len).toNat = roundUp len := by
    rw [pageAlign_toNat]
    omega
  rw [getUnmappedArea_eq laid fresh, if_pos haligned]
  refine ⟨_, rfl, ?_⟩
  rw [← hn] at room pos
  cases l with
  | nil => exact settle_first laid fresh hn room pos
  | cons v l =>
    simp only [Bool.and_eq_true, decide_eq_true_eq, ← hn] at hgap
    obtain ⟨u, p, hscan, hroom, hpos⟩ := scanAreas_finds laid.ordered room pos
      (fun w hw => by obtain rfl : v = w := Option.some.inj hw; exact hgap.1) hgap.2
    obtain ⟨_, _, _, _, pre, post, hl, hend, hnext⟩ :=
      scanAreas_behind laid.ordered hscan hroom hpos
    unfold placing
    simp only [hscan, Stop.result]
    rw [hl] at laid fresh ⊢
    exact settle_behind laid fresh hn hroom hpos hend hnext

theorem fits_of_inserted (laid : Laid mm l) (fresh : vma ∉ mm.mmap :: l)
    (run : getUnmappedArea mm vma addr len = some mm') (h : Inserted mm mm' l vma len) :
    fitsBehind mm l addr len = true := by
  rw [getUnmappedArea_eq laid fresh] at run
  split at run
  · rename_i haligned
    cases run
    obtain ⟨hn, room, pos⟩ := h.room (pageAlign_toNat len)
    unfold fitsBehind
    simp only [Bool.and_eq_true, decide_eq_true_eq, ← hn]
    cases l with
    | nil => exact ⟨⟨haligned, room, pos⟩, rfl⟩
    | cons v l =>
      have hnext (y : UInt32) (hy : y ∈ mm.mmap :: v :: l) : mm.links.next y ∈ mm.mmap :: v :: l := by
        rcases mem_append.mp (laid.ring.path.next_mem y hy) with hm | hm
        · exact mem_cons_of_mem _ hm
        · rw [mem_singleton.mp hm]
          exact .head _
      simp only [placing] at h room pos
      cases hscan : scanAreas mm (areaHint mm addr) (pageAlign len) (v :: l) with
      | before u =>
        rw [hscan] at h
        refine absurd h (not_inserted fresh rfl fun y hy => ?_)
        have hu := scanAreas_before hscan
        simp only [settle, Stop.result, Links.addAfter, Links.between, Function.update_apply]
        split
        · exact mem_cons_of_mem _ hu
        · split
          · exact hnext mm.mmap (.head _)
          · exact hnext y hy
      | missed =>
        rw [hscan] at h
        exact absurd h (not_inserted fresh rfl hnext)
      | behind u p =>
        rw [hscan] at room pos
        obtain ⟨hroom, hpos, hfront, hgap, _⟩ := scanAreas_behind laid.ordered hscan room pos
        exact ⟨⟨haligned, hroom, hpos⟩, by simpa [hgap] using hfront v (by simp)⟩
  · cases run

/-- A call of `get_unmapped_area` puts the new area into the list of the areas exactly
when there is a place for it behind one of them. -/
theorem unmapped_area_inserted (laid : Laid mm l) (fresh : vma ∉ mm.mmap :: l) :
    (∃ mm', getUnmappedArea mm vma addr len = some mm' ∧ Inserted mm mm' l vma len) ↔
      fitsBehind mm l addr len = true := by
  constructor
  · rintro ⟨mm', run, h⟩
    exact fits_of_inserted laid fresh run h
  · exact inserted_of_fits laid fresh

end

section
def oneArea (start stop brk : UInt32) : Mm where
  links := ⟨Function.update (fun _ => 1) 1 2, Function.update (fun _ => 1) 1 2⟩
  mmap := 1
  vmStart := fun _ => start
  vmEnd := fun _ => stop
  endBrk := brk
  freeAreaCache := 0

theorem oneArea_laid {start stop : UInt32} (brk : UInt32) (h : start ≤ stop) :
    Laid (oneArea start stop brk) [2] := by
  refine ⟨⟨.cons rfl rfl (.nil rfl rfl), by simp [oneArea]⟩, ?_, by simp⟩
  intro v _
  exact h

theorem unmapped_area_inserted_behind :
    Laid (oneArea 0x50000000 0x50001000 0x8000000) [2] ∧
      ∃ mm', getUnmappedArea (oneArea 0x50000000 0x50001000 0x8000000) 3 0x60000000 5000 = some mm' ∧
        Inserted (oneArea 0x50000000 0x50001000 0x8000000) mm' [2] 3 5000 := by
  have laid : Laid (oneArea 0x50000000 0x50001000 0x8000000) [2] := oneArea_laid _ (by decide)
  exact ⟨laid, (unmapped_area_inserted laid (by decide)).mpr
    (by simp [fitsBehind, areaHint, oneArea, roundUp, gapBehind])⟩

/-- An area is asked for in front of the only one, with all the room up to it free. -/
theorem front_not_inserted :
    Laid (oneArea 0x50000000 0x50001000 0x8000000) [2] ∧
      (∀ v ∈ [(2 : UInt32)], 0x40000000 + 0x1000 ≤
        (oneArea 0x50000000 0x50001000 0x8000000).vmStart v) ∧
      ¬ ∃ mm', getUnmappedArea (oneArea 0x50000000 0x50001000 0x8000000) 3 0x40000000 0x1000 = some mm' ∧
        Inserted (oneArea 0x50000000 0x50001000 0x8000000) mm' [2] 3 0x1000 := by
  have laid : Laid (oneArea 0x50000000 0x50001000 0x8000000) [2] := oneArea_laid _ (by decide)
  refine ⟨laid, by simp [oneArea], ?_⟩
  rintro ⟨mm', run, h⟩
  have fits := fits_of_inserted laid (by decide) run h
  simp [fitsBehind, areaHint, oneArea, roundUp] at fits

end

end Mos.Memory
