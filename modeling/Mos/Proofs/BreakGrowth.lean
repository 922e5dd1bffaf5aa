import Mos.Proofs.UnmapArea

namespace Mos.Memory
open Machine Function UInt32 List

/-- An entry of the directory that is not in use maps no page. -/
def Tabular (s : Space) : Prop := ∀ page, s.tables (page / 1024) = false → s.table page = none

def AlignedAreas (mm : Mm) (l : List UInt32) : Prop :=
  ∀ v ∈ l, (mm.vmStart v).toNat % 4096 = 0 ∧ (mm.vmEnd v).toNat % 4096 = 0

def brkEnd (addr len : UInt32) : Nat := (addr.toNat + len.toNat + 4095) / 4096 * 4096

/-- The request would reach into an area behind the heap. -/
def Collides (mm : Mm) (l : List UInt32) (v addr len : UInt32) : Prop :=
  ∃ w ∈ l, w ≠ v ∧ (mm.vmEnd v).toNat ≤ (mm.vmStart w).toNat ∧ (mm.vmStart w).toNat < brkEnd addr len

/-- What a call of `do_brk` is for, where the heap is the area that has `addr`: the areas are
disjoint, all pages of the heap are mapped, every other page and area is as it was, the heap
reaches to the new end, and a request that collides fails. -/
structure BrkDone (s s' : BrkSpace) (ret : Int) (l : List UInt32) (addr len : UInt32) : Prop where
  areas : Laid s'.mm l
  mapped : ∀ v ∈ l, Covers s'.mm v addr.toNat → ∀ page, Covers s'.mm v (page * 4096) →
    s'.table page ≠ none
  pages : ∀ page, (∀ v ∈ l, Covers s'.mm v addr.toNat → ¬Covers s'.mm v (page * 4096)) →
    s'.table page = s.table page
  others : ∀ w ∈ l, ¬Covers s.mm w addr.toNat →
    s'.mm.vmStart w = s.mm.vmStart w ∧ s'.mm.vmEnd w = s.mm.vmEnd w
  grown : ∀ v ∈ l, Covers s.mm v addr.toNat → ¬Collides s.mm l v addr len →
    brkEnd addr len < 2 ^ 32 → brkEnd addr len ≤ (s'.mm.vmEnd v).toNat
  refused : ∀ v ∈ l, Covers s.mm v addr.toNat → Collides s.mm l v addr len → ret ≠ 0 ∧ s' = s

section Pages
variable {s : Space}

theorem Tabular.ensure (h : Tabular s) (entry : Nat) :
    (ensureTable s entry).table = s.table ∧ (ensureTable s entry).mm = s.mm ∧
      (ensureTable s entry).tables entry = true ∧ Tabular (ensureTable s entry) := by
  unfold ensureTable
  split
  · rename_i present
    exact ⟨rfl, rfl, present, h⟩
  · rename_i absent
    have htable : (createPageTable s entry).table = s.table := by
      funext page
      simp only [createPageTable]
      split
      · rename_i he
        rw [h page (by simpa [he] using absent)]
      · rfl
    refine ⟨htable, rfl, update_self _ _ _, fun page hpage => ?_⟩
    rw [htable]
    apply h
    by_cases he : page / 1024 = entry
    · simpa [he] using absent
    · simpa [createPageTable, update_of_ne he] using hpage

theorem Tabular.mapFrame (h : Tabular s) (page frame : Nat) :
    (mapFrame s page frame).table = Function.update s.table page (some frame) ∧
      (mapFrame s page frame).mm = s.mm ∧ Tabular (mapFrame s page frame) := by
  obtain ⟨htable, hmm, hpresent, htabular⟩ := h.ensure (page / 1024)
  have hupdate : (Memory.mapFrame s page frame).table = Function.update s.table page (some frame) := by
    rw [Memory.mapFrame, htable]
  refine ⟨hupdate, hmm, fun q hq => ?_⟩
  · have hne : q ≠ page := by
      rintro rfl
      change (ensureTable s (q / 1024)).tables (q / 1024) = false at hq
      rw [hpresent] at hq
      cases hq
    rw [hupdate, update_of_ne hne, ← htable]
    exact htabular q hq

theorem Tabular.mapRun (h : Tabular s) {pages rounds first : Nat} {vaddr vmEnd : UInt32}
    (start : vaddr.toNat = first * 4096) (span : vmEnd.toNat = (first + pages) * 4096)
    (enough : pages < rounds) (frame : Nat) :
    (mapRun vmEnd rounds s vaddr frame).mm = s.mm ∧
      ∀ page, (mapRun vmEnd rounds s vaddr frame).table page =
        if first ≤ page ∧ page < first + pages then some (frame + (page - first)) else s.table page := by
  induction pages generalizing s rounds first frame vaddr with
  | zero =>
    obtain ⟨rounds, rfl⟩ := Nat.exists_eq_succ_of_ne_zero (Nat.ne_of_gt enough)
    have hstop : ¬vaddr < vmEnd := by
      rw [lt_iff_toNat_lt]
      omega
    rw [Memory.mapRun, if_neg hstop]
    exact ⟨rfl, fun page => (if_neg (by omega)).symm⟩
  | succ pages ih =>
    obtain ⟨rounds, rfl⟩ := Nat.exists_eq_succ_of_ne_zero (Nat.ne_of_gt (Nat.zero_lt_of_lt enough))
    have hend := vmEnd.toNat_lt
    have hgo : vaddr < vmEnd := by
      rw [lt_iff_toNat_lt]
      omega
    have hadd : (vaddr + 4096).toNat = vaddr.toNat + 4096 := by
      rw [UInt32.toNat_add]
      simp
      omega
    have hnext : (vaddr + 4096).toNat = (first + 1) * 4096 := by omega
    have hdiv : vaddr.toNat / 4096 = first := by omega
    have hspan : vmEnd.toNat = (first + 1 + pages) * 4096 := by
      rw [span]
      omega
    obtain ⟨htable, hmm, htabular⟩ := h.mapFrame first frame
    obtain ⟨hmm', htable'⟩ := ih htabular hnext hspan (Nat.lt_of_succ_lt_succ enough) (frame + 1)
    rw [Memory.mapRun, if_pos hgo, hdiv]
    refine ⟨hmm'.trans hmm, fun page => ?_⟩
    rw [htable', htable]
    by_cases hfirst : page = first
    · subst hfirst
      rw [if_neg (by omega), update_self, if_pos (by omega), Nat.sub_self, Nat.add_zero]
    · rw [update_of_ne hfirst]
      by_cases hin : first + 1 ≤ page ∧ page < first + 1 + pages
      · have hoff : frame + 1 + (page - (first + 1)) = frame + (page - first) := by omega
        rw [if_pos hin, if_pos (by omega), hoff]
      · rw [if_neg hin, if_neg (by omega)]

end Pages

/-- No request of the process would collide, and the pages of the heap are mapped. -/
def BrkFits (s : BrkSpace) (l : List UInt32) (addr len : UInt32) : Prop :=
  ∀ v ∈ l, Covers s.mm v addr.toNat →
    ¬Collides s.mm l v addr len ∧ ∀ page, Covers s.mm v (page * 4096) → s.table page ≠ none

section Brk
variable {s : BrkSpace} {l : List UInt32} {v addr len : UInt32}

theorem brkEnd_eq (h : brkEnd addr len < 2 ^ 32) : (pageAlign (addr + len)).toNat = brkEnd addr len := by
  unfold brkEnd at h
  have hadd : (addr + len).toNat = addr.toNat + len.toNat := by
    rw [UInt32.toNat_add]
    omega
  rw [pageAlign_toNat, roundUp, hadd, brkEnd, Nat.mod_eq_of_lt h]

/-- A request beyond the address space is taken for one that ends below the heap's end. -/
theorem brkEnd_wraps {e : Nat} (h : 2 ^ 32 ≤ brkEnd addr len) (aligned : e % 4096 = 0)
    (ha : addr.toNat < e) : (pageAlign (addr + len)).toNat ≤ e := by
  have hl := len.toNat_lt
  unfold brkEnd at h
  rw [pageAlign_toNat, roundUp, UInt32.toNat_add]
  by_cases hsum : addr.toNat + len.toNat < 2 ^ 32
  · rw [Nat.mod_eq_of_lt hsum]
    omega
  · omega

/-- Where the heap's area is long enough only the break moves. -/
theorem brkDone_same_iff (laid : Laid s.mm l) (brk : UInt32)
    (inside : ∀ v ∈ l, Covers s.mm v addr.toNat → brkEnd addr len < 2 ^ 32 →
      brkEnd addr len ≤ (s.mm.vmEnd v).toNat) :
    BrkDone s { s with brk } 0 l addr len ↔ BrkFits s l addr len := by
  constructor
  · intro h v hv hcov
    exact ⟨fun hcol => (h.refused v hv hcov hcol).1 rfl, h.mapped v hv hcov⟩
  · intro h
    refine ⟨laid, fun v hv hcov => (h v hv hcov).2, fun _ _ => rfl, fun _ _ _ => ⟨rfl, rfl⟩,
      fun v hv hcov _ => inside v hv hcov, fun v hv hcov hcol => absurd hcol (h v hv hcov).1⟩

theorem Laid.extend (laid : Laid s.mm l) (hv : v ∈ l) {e : UInt32} (le : s.mm.vmEnd v ≤ e)
    (free : ∀ w ∈ l, w ≠ v → s.mm.vmEnd v ≤ s.mm.vmStart w → e ≤ s.mm.vmStart w)
    (full : s.mm.vmStart v < s.mm.vmEnd v) :
    Laid { s.mm with vmEnd := Function.update s.mm.vmEnd v e } l := by
  refine ⟨laid.ring, fun w hw => ?_, ?_⟩
  · by_cases hwv : w = v
    · subst hwv
      simp only [Function.update_self]
      exact UInt32.le_trans (laid.each w hw) le
    · simp only [Function.update_of_ne hwv]
      exact laid.each w hw
  · have hnodup : l.Nodup := (List.nodup_cons.mp laid.ring.nodup).2
    refine (laid.order.and hnodup).imp_of_mem fun {x y} _ hy hxy => ?_
    by_cases hxv : x = v
    · subst hxv
      simp only [update_self]
      exact free y hy (Ne.symm hxy.2) hxy.1
    · simp only [update_of_ne hxv]
      exact hxy.1

/-- Where it is not, the area must be able to grow. -/
theorem brkDone_grow_iff {s' : BrkSpace} (laid : Laid s.mm l) (hv : v ∈ l)
    (hcov : Covers s.mm v addr.toNat) (aligned : AlignedAreas s.mm l)
    (grows : (s.mm.vmEnd v).toNat < brkEnd addr len) (fits : brkEnd addr len < 2 ^ 32)
    (hmm : s'.mm = { s.mm with vmEnd := Function.update s.mm.vmEnd v (pageAlign (addr + len)) })
    {frame : Nat} (htable : ∀ page, s'.table page =
      if (s.mm.vmEnd v).toNat / 4096 ≤ page ∧ page < brkEnd addr len / 4096 then
        some (frame + (page - (s.mm.vmEnd v).toNat / 4096))
      else s.table page) :
    BrkDone s s' 0 l addr len ↔ BrkFits s l addr len := by
  have hend := brkEnd_eq fits
  have hdvd : brkEnd addr len % 4096 = 0 := by
    unfold brkEnd
    omega
  obtain ⟨hstart, hvend⟩ := aligned v hv
  have hvmEnd : (s'.mm.vmEnd v).toNat = brkEnd addr len := by
    rw [hmm]
    simp only [update_self, hend]
  have hvmStart : s'.mm.vmStart = s.mm.vmStart := by rw [hmm]
  have hcov' : Covers s'.mm v addr.toNat := by
    refine ⟨by rw [hvmStart]; exact hcov.1, ?_⟩
    have := hcov.2
    omega
  have hold : ∀ page, page * 4096 < (s.mm.vmEnd v).toNat → s'.table page = s.table page := by
    intro page hpage
    rw [htable, if_neg (by omega)]
  constructor
  · intro h u hu hcovu
    obtain rfl := laid.unique hu hv hcovu hcov
    refine ⟨fun hcol => (h.refused u hu hcovu hcol).1 rfl, fun page hpage => ?_⟩
    rw [← hold page hpage.2]
    refine h.mapped u hu hcov' page ⟨by rw [hvmStart]; exact hpage.1, ?_⟩
    have := hpage.2
    omega
  · intro h
    obtain ⟨hfree, hmapped⟩ := h v hv hcov
    have hlaid : Laid s'.mm l := by
      rw [hmm]
      refine laid.extend hv ?_ ?_ ?_
      · rw [le_iff_toNat_le]
        omega
      · intro w hw hne hbehind
        rw [le_iff_toNat_le] at hbehind ⊢
        by_contra hlt
        exact hfree ⟨w, hw, hne, hbehind, by omega⟩
      · rw [lt_iff_toNat_lt]
        exact Nat.lt_of_le_of_lt hcov.1 hcov.2
    have honly : ∀ u ∈ l, Covers s'.mm u addr.toNat → u = v := fun u hu hcovu =>
      hlaid.unique hu hv hcovu hcov'
    refine ⟨hlaid, ?_, ?_, ?_, ?_, ?_⟩
    · intro u hu hcovu page hpage
      obtain rfl := honly u hu hcovu
      obtain ⟨hlo, hhi⟩ := hpage
      rw [hvmStart] at hlo
      rw [htable]
      split
      · exact Option.some_ne_none _
      · exact hmapped page ⟨hlo, by omega⟩
    · intro page hout
      rw [htable, if_neg]
      intro ⟨h₁, h₂⟩
      refine hout v hv hcov' ⟨?_, by omega⟩
      have := le_iff_toNat_le.mp (laid.each v hv)
      rw [hvmStart]
      omega
    · intro w hw hnot
      have hne : w ≠ v := by
        rintro rfl
        exact hnot hcov
      rw [hmm]
      exact ⟨rfl, update_of_ne hne _ _⟩
    · intro u hu hcovu _ _
      obtain rfl := laid.unique hu hv hcovu hcov
      omega
    · intro u hu hcovu hcol
      exact absurd hcol (h u hu hcovu).1

/-- What `do_brk` does to a heap that has to grow. -/
theorem doBrk_grows (laid : Laid s.mm l) (hv : v ∈ l) (hcov : Covers s.mm v addr.toNat)
    (aligned : AlignedAreas s.mm l) (tabular : Tabular s.toSpace) (frame : Nat)
    (grows : (s.mm.vmEnd v).toNat < brkEnd addr len) (fits : brkEnd addr len < 2 ^ 32) :
    ∃ s', doBrk frame s addr len = .ok (s', 0) ∧
      s'.mm = { s.mm with vmEnd := Function.update s.mm.vmEnd v (pageAlign (addr + len)) } ∧
      ∀ page, s'.table page =
        if (s.mm.vmEnd v).toNat / 4096 ≤ page ∧ page < brkEnd addr len / 4096 then
          some (frame + (page - (s.mm.vmEnd v).toNat / 4096))
        else s.table page := by
  have hend := brkEnd_eq fits
  have hdvd : brkEnd addr len % 4096 = 0 := by
    unfold brkEnd
    omega
  have hvend := (aligned v hv).2
  have hfirst : (s.mm.vmEnd v).toNat = (s.mm.vmEnd v).toNat / 4096 * 4096 := by omega
  have hcount : (s.mm.vmEnd v).toNat / 4096 + (brkEnd addr len / 4096 - (s.mm.vmEnd v).toNat / 4096) =
      brkEnd addr len / 4096 := by omega
  have hspan : (pageAlign (addr + len)).toNat = ((s.mm.vmEnd v).toNat / 4096 +
      (brkEnd addr len / 4096 - (s.mm.vmEnd v).toNat / 4096)) * 4096 := by omega
  have henough : brkEnd addr len / 4096 - (s.mm.vmEnd v).toNat / 4096 < 2 ^ 20 := by omega
  let space := mapRun (pageAlign (addr + len)) (2 ^ 20) s.toSpace (s.mm.vmEnd v) frame
  obtain ⟨hmm, htable⟩ : space.mm = s.mm ∧ _ := tabular.mapRun hfirst hspan henough frame
  rw [hcount] at htable
  have hnot : ¬pageAlign (addr + len) ≤ s.mm.vmEnd v := by
    rw [le_iff_toNat_le]
    omega
  have hlt : s.mm.vmEnd v < pageAlign (addr + len) := by
    rw [lt_iff_toNat_lt]
    omega
  have hfind := laid.findVma addr
  rw [laid.find_some hv hcov] at hfind
  have hnew : newVmEnd s.mm (pageAlign (addr + len)) v (pageAlign (addr + len)) =
      some (pageAlign (addr + len)) := if_neg (UInt32.lt_irrefl _)
  refine ⟨{ space with
    mm := { space.mm with vmEnd := Function.update space.mm.vmEnd v (pageAlign (addr + len)) }
    brk := pageAlign (addr + len) }, ?_, ?_, htable⟩
  · rw [doBrk]
    simp only [hfind, if_neg hnot, hnew, if_pos hlt]
    rfl
  · simp only [hmm]

/-- `do_brk` does what it is for exactly if the request does not reach into an area behind the heap
and the heap was mapped: `mm->brk` has its new value before it is compared with it, so that the
check for the next area is never made. -/
theorem brk_done_iff (laid : Laid s.mm l) (aligned : AlignedAreas s.mm l) (tabular : Tabular s.toSpace)
    (frame : Nat) :
    (∃ s' ret, doBrk frame s addr len = .ok (s', ret) ∧ BrkDone s s' ret l addr len) ↔
      BrkFits s l addr len := by
  have hresult : ∀ {r : BrkSpace}, doBrk frame s addr len = .ok (r, 0) →
      ((∃ s' ret, doBrk frame s addr len = .ok (s', ret) ∧ BrkDone s s' ret l addr len) ↔
        BrkDone s r 0 l addr len) := by
    intro r hr
    constructor
    · rintro ⟨s', ret, hs', h⟩
      cases hr.symm.trans hs'
      exact h
    · exact fun h => ⟨r, 0, hr, h⟩
  have hfind := laid.findVma addr
  cases hcase : l.find? (hasAddr s.mm addr) with
  | none =>
    rw [hcase] at hfind
    have hok : doBrk frame s addr len = .ok ({ s with brk := pageAlign (addr + len) }, 0) := by
      rw [doBrk]
      simp only [hfind]
    rw [hresult hok]
    refine brkDone_same_iff laid _ fun v hv hcov => ?_
    exact absurd (hasAddr_iff.mpr hcov) (List.find?_eq_none.mp hcase v hv)
  | some v =>
    rw [hcase] at hfind
    have hv := mem_of_find?_eq_some hcase
    have hcov := hasAddr_iff.mp (List.find?_some hcase)
    by_cases hle : pageAlign (addr + len) ≤ s.mm.vmEnd v
    · have hok : doBrk frame s addr len = .ok ({ s with brk := pageAlign (addr + len) }, 0) := by
        rw [doBrk]
        simp only [hfind, if_pos hle]
      rw [hresult hok]
      refine brkDone_same_iff laid _ fun u hu hcovu hfits => ?_
      obtain rfl := laid.unique hu hv hcovu hcov
      rw [← brkEnd_eq hfits]
      exact le_iff_toNat_le.mp hle
    · have hlt : (s.mm.vmEnd v).toNat < (pageAlign (addr + len)).toNat := by
        rw [le_iff_toNat_le] at hle
        omega
      obtain ⟨hstart, hvend⟩ := aligned v hv
      have hfits : brkEnd addr len < 2 ^ 32 := by
        by_contra hbig
        exact absurd (brkEnd_wraps (by omega) hvend hcov.2) (Nat.not_le_of_lt hlt)
      have hend := brkEnd_eq hfits
      obtain ⟨s', hs', hmm, htable⟩ := doBrk_grows laid hv hcov aligned tabular frame (by omega) hfits
      rw [hresult hs']
      exact brkDone_grow_iff laid hv hcov aligned (by omega) hfits hmm htable

end Brk

def heapAndArea (start : UInt32) : BrkSpace where
  mm :=
    { links := ⟨fun x => if x = 1 then 2 else if x = 2 then 3 else 1,
        fun x => if x = 1 then 3 else if x = 3 then 2 else 1⟩
      mmap := 1
      vmStart := fun v => if v = 2 then 0x50000000 else start
      vmEnd := fun v => if v = 2 then 0x50001000 else start + 0x1000
      endBrk := 0x50000000
      freeAreaCache := 0 }
  table := fun page => some page
  tables := fun _ => true
  phys := fun _ _ => 0
  frames := []
  areas := []
  brk := 0x50000000

theorem heapAndArea_ring (start : UInt32) :
    Ring (heapAndArea start).mm.links (heapAndArea start).mm.mmap [2, 3] :=
  ⟨.cons rfl rfl (.cons rfl rfl (.nil rfl rfl)), by change [1, 2, 3].Nodup; decide⟩

theorem heapAndArea_tabular (start : UInt32) : Tabular (heapAndArea start).toSpace := nofun

theorem heapAndArea_laid {start : UInt32} (behind : 0x50001000 ≤ start)
    (fits : start ≤ start + 0x1000) : Laid (heapAndArea start).mm [2, 3] := by
  refine ⟨heapAndArea_ring start, ?_, ?_⟩
  · have heap : (0x50000000 : UInt32) ≤ 0x50001000 := by decide
    exact forall_mem_cons.mpr ⟨heap, forall_mem_singleton.mpr fits⟩
  · exact pairwise_pair.mpr behind

theorem heapAndArea_aligned {start : UInt32} (first : start.toNat % 4096 = 0)
    (last : (start + 0x1000).toNat % 4096 = 0) : AlignedAreas (heapAndArea start).mm [2, 3] := by
  have heap : (0x50000000 : UInt32).toNat % 4096 = 0 ∧ (0x50001000 : UInt32).toNat % 4096 = 0 := by
    decide
  exact forall_mem_cons.mpr ⟨heap, forall_mem_singleton.mpr ⟨first, last⟩⟩

theorem heapAndArea_covers (start : UInt32) :
    Covers (heapAndArea start).mm 2 (0x50000000 : UInt32).toNat := by
  have heap : (0x50000000 : UInt32).toNat < (0x50001000 : UInt32).toNat := by decide
  exact ⟨Nat.le_refl _, heap⟩

theorem brk_done_two_pages : ∃ s' ret,
    doBrk 7 (heapAndArea 0x60000000) 0x50000000 0x2800 = .ok (s', ret) ∧
      BrkDone (heapAndArea 0x60000000) s' ret [2, 3] 0x50000000 0x2800 := by
  have laid : Laid (heapAndArea 0x60000000).mm [2, 3] :=
    heapAndArea_laid (by decide +kernel) (by decide +kernel)
  have aligned : AlignedAreas (heapAndArea 0x60000000).mm [2, 3] :=
    heapAndArea_aligned (by decide +kernel) (by decide +kernel)
  refine (brk_done_iff laid aligned (heapAndArea_tabular _) 7).mpr fun v hv hcov => ?_
  obtain rfl := laid.unique hv mem_cons_self hcov (heapAndArea_covers _)
  refine ⟨?_, fun page _ => Option.some_ne_none _⟩
  intro ⟨w, hw, hne, _, hlt⟩
  obtain rfl : w = 3 := by simpa [hne] using hw
  exact absurd hlt (by decide +kernel)

/-- The area behind the heap starts one page behind it, and the heap is to grow by two pages: the
areas overlap, and the page of the area has another frame. -/
theorem brk_overlaps : ∃ s', doBrk 7 (heapAndArea 0x50002000) 0x50000000 0x3000 = .ok (s', 0) ∧
    (heapAndArea 0x50002000).table 0x50002 = some 0x50002 ∧ s'.table 0x50002 = some 8 ∧
    Covers s'.mm 2 0x50002000 ∧ Covers s'.mm 3 0x50002000 := by
  have laid : Laid (heapAndArea 0x50002000).mm [2, 3] :=
    heapAndArea_laid (by decide +kernel) (by decide +kernel)
  have aligned : AlignedAreas (heapAndArea 0x50002000).mm [2, 3] :=
    heapAndArea_aligned (by decide +kernel) (by decide +kernel)
  have grows : ((heapAndArea 0x50002000).mm.vmEnd 2).toNat < brkEnd 0x50000000 0x3000 := by
    decide +kernel
  obtain ⟨s', hs', hmm, htable⟩ := doBrk_grows laid mem_cons_self (heapAndArea_covers _) aligned
    (heapAndArea_tabular _) 7 grows (by decide +kernel)
  refine ⟨s', hs', rfl, ?_, ?_, ?_⟩
  · rw [htable]
    decide +kernel
  · rw [hmm]
    exact ⟨by decide +kernel, by decide +kernel⟩
  · rw [hmm]
    exact ⟨by decide +kernel, by decide +kernel⟩

end Mos.Memory
