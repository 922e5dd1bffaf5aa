import Mos.Proofs.BreakGrowth

namespace Mos.Memory
open Machine Function List UInt32

/-- The frames that mapping a page takes: its own, and one for a table if there is none yet. -/
def pageFrames (tables : Nat → Bool) (page : Nat) : Nat := if tables (page / 1024) then 1 else 2

def framesFor (tables : Nat → Bool) (first : Nat) : Nat → Nat
  | 0 => 0
  | pages + 1 => pageFrames tables first +
      framesFor (Function.update tables (first / 1024) true) (first + 1) pages

/-- The frames that are going to be handed out are no frames of the process. -/
structure Backed (s : Space) : Prop where
  nodup : s.frames.Nodup
  used : ∀ p < 0xC0000, ∀ f, s.table p = some f → f ∉ s.frames
  tabular : Tabular s

/-- What mapping pages in a row does: they get frames of their own, and the other pages and their
frames are as they were. -/
structure Filled (s s' : Space) (first pages : Nat) : Prop where
  backed : Backed s'
  frames : s'.frames ⊆ s.frames
  inside : ∀ p, first ≤ p → p < first + pages → ∃ f ∈ s.frames, s'.table p = some f
  outside : ∀ p, ¬(first ≤ p ∧ p < first + pages) → s'.table p = s.table p
  own : ∀ p < 0xC0000, ∀ q < 0xC0000, ∀ f ∈ s.frames, s'.table p = some f → s'.table q = some f → p = q
  phys : ∀ f ∉ s.frames, s'.phys f = s.phys f
  flags : ∀ p, first ≤ p → p < first + pages →
    s'.tables (p / 1024) = true ∧ s'.flags p = userFlags
  flagsOutside : ∀ p, ¬(first ≤ p ∧ p < first + pages) → s.tables (p / 1024) = true →
    s'.flags p = s.flags p
  tables : ∀ e, s.tables e = true → s'.tables e = true
  tableFlags : ∀ e, s'.tables e = true →
    s'.tableFlags e = if s.tables e then s.tableFlags e else userFlags

section Pages
variable {s s' : Space}

theorem nextFrame_mem (room : s.frames ≠ []) : nextFrame s ∈ s.frames := by
  obtain ⟨f, rest, hf⟩ := exists_cons_of_ne_nil room
  simp [nextFrame, hf]

theorem mapPage_tables (s : Space) (page : Nat) :
    (mapPage s page).tables = Function.update s.tables (page / 1024) true := by
  change (ensureTable (takeFrame s) (page / 1024)).tables = _
  unfold ensureTable
  split
  · rename_i present
    exact (update_eq_self_iff.mpr present.symm).symm
  · rfl

theorem mapPage_frames (s : Space) (page : Nat) :
    (mapPage s page).frames.length = s.frames.length - pageFrames s.tables page := by
  have hlength : (mapPage s page).frames = (ensureTable (takeFrame s) (page / 1024)).frames := rfl
  have htables : (takeFrame s).tables = s.tables := rfl
  rw [hlength, ensureTable, pageFrames, htables]
  split
  · simp [takeFrame]
  · simp [createPageTable, takeFrame]
    omega

theorem ensureTable_frames (s : Space) (entry : Nat) :
    (ensureTable s entry).frames.Sublist s.frames := by
  unfold ensureTable
  split
  · exact List.Sublist.refl _
  · exact tail_sublist _

theorem ensureTable_phys {entry f : Nat} (room : s.tables entry = false → s.frames ≠ [])
    (hf : f ∉ s.frames) : (ensureTable s entry).phys f = s.phys f := by
  unfold ensureTable
  split
  · rfl
  · rename_i absent
    refine update_of_ne ?_ _ _
    rintro rfl
    exact hf (nextFrame_mem (room (by simpa using absent)))

/-- A page is mapped with the flags for a program. -/
theorem mapPage_flags (s : Space) (page : Nat) {p : Nat} (present : s.tables (p / 1024) = true) :
    (mapPage s page).flags p = if p = page then userFlags else s.flags p := by
  change Function.update (ensureTable (takeFrame s) (page / 1024)).flags page userFlags p = _
  rw [update_apply]
  split
  · rfl
  · unfold ensureTable
    split
    · rfl
    · rename_i absent
      refine if_neg fun he => absent ?_
      rw [← he]
      exact present

theorem mapPage_tableFlags (s : Space) (page e : Nat) (present : (mapPage s page).tables e = true) :
    (mapPage s page).tableFlags e = if s.tables e then s.tableFlags e else userFlags := by
  rw [mapPage_tables, update_apply] at present
  change (ensureTable (takeFrame s) (page / 1024)).tableFlags e = _
  unfold ensureTable
  split
  · rename_i there
    have there : s.tables (page / 1024) = true := there
    rw [if_pos]
    · rfl
    · split at present
      · rename_i he
        exact he ▸ there
      · exact present
  · rename_i absent
    have absent : ¬s.tables (page / 1024) = true := absent
    change Function.update s.tableFlags (page / 1024) userFlags e = _
    by_cases he : e = page / 1024
    · subst e
      rw [update_self, if_neg absent]
    · rw [update_of_ne he]
      rw [if_neg he] at present
      rw [if_pos present]

theorem Backed.fillPage (h : Backed s) (page : Nat)
    (room : pageFrames s.tables page ≤ s.frames.length) : Filled s (mapPage s page) page 1 := by
  obtain ⟨frame, rest, hframes⟩ : ∃ frame rest, s.frames = frame :: rest := by
    apply exists_cons_of_ne_nil
    refine ne_nil_of_length_pos (Nat.lt_of_lt_of_le ?_ room)
    unfold pageFrames
    split <;> decide
  have hnodup := h.nodup
  rw [hframes, nodup_cons] at hnodup
  have htail : (takeFrame s).frames = rest := by simp [takeFrame, hframes]
  have hnext : nextFrame s = frame := by simp [nextFrame, hframes]
  have htabular : Tabular (takeFrame s) := h.tabular
  obtain ⟨htable, -, htabular⟩ := htabular.mapFrame page frame
  have hpage : mapPage s page = mapFrame (takeFrame s) page frame := by rw [mapPage, hnext, mapFrame]
  rw [← hpage] at htable htabular
  have hsub : (mapPage s page).frames.Sublist rest := by
    rw [← htail]
    exact ensureTable_frames _ _
  have hused : ∀ p < 0xC0000, ∀ f, s.table p = some f → f ≠ frame ∧ f ∉ rest := by
    intro p hp f hf
    have := h.used p hp f hf
    rw [hframes] at this
    simpa using this
  refine ⟨⟨hnodup.2.sublist hsub, ?_, htabular⟩, ?_, ?_, ?_, ?_, ?_, ?_, ?_, ?_,
    mapPage_tableFlags s page⟩
  · intro p hp f hf hmem
    rw [htable, update_apply] at hf
    split at hf
    · exact hnodup.1 (Option.some.inj hf ▸ hsub.subset hmem)
    · exact (hused p hp f hf).2 (hsub.subset hmem)
  · intro f hf
    rw [hframes]
    exact mem_cons_of_mem _ (hsub.subset hf)
  · intro p lo hi
    obtain rfl : p = page := by omega
    rw [htable, update_self, hframes]
    exact ⟨frame, mem_cons_self, rfl⟩
  · intro p out
    rw [htable, update_of_ne (by omega)]
    rfl
  · have honly : ∀ p < 0xC0000, ∀ f ∈ s.frames, (mapPage s page).table p = some f → p = page := by
      intro p hp f hf hmap
      by_contra hne
      rw [htable, update_of_ne hne] at hmap
      exact h.used p hp f hmap hf
    intro p hp q hq f hf h₁ h₂
    rw [honly p hp f hf h₁, honly q hq f hf h₂]
  · intro f hf
    refine ensureTable_phys (fun absent => ?_) fun hm => hf (mem_of_mem_tail hm)
    have habsent : s.tables (page / 1024) = false := absent
    rw [pageFrames, habsent, hframes, length_cons] at room
    rw [htail]
    exact ne_nil_of_length_pos (Nat.lt_of_succ_le (Nat.le_of_succ_le_succ room))
  · intro p lo hi
    obtain rfl : p = page := by omega
    rw [mapPage_tables]
    exact ⟨update_self .., update_self ..⟩
  · intro p out present
    rw [mapPage_flags s page present, if_neg (by omega)]
  · intro e present
    rw [mapPage_tables, update_apply]
    split
    · rfl
    · exact present

/-- The first page and the pages behind it make a range. -/
theorem Filled.step {s₁ : Space} {first pages : Nat} (h : Filled s s₁ first 1)
    (h' : Filled s₁ s' (first + 1) pages) : Filled s s' first (pages + 1) := by
  -- A frame that the later pages did not take is where the first page has left it.
  have hback : ∀ p f, f ∉ s₁.frames → s'.table p = some f → s₁.table p = some f := by
    intro p f hf hp
    by_cases hin : first + 1 ≤ p ∧ p < first + 1 + pages
    · obtain ⟨g, hg, hmap⟩ := h'.inside p hin.1 hin.2
      exact absurd (Option.some.inj (hmap.symm.trans hp) ▸ hg) hf
    · rw [← h'.outside p hin]
      exact hp
  refine ⟨h'.backed, fun f hf => h.frames (h'.frames hf), ?_, ?_, ?_, ?_, ?_, ?_,
    fun e he => h'.tables e (h.tables e he), ?_⟩
  · intro p lo hi
    by_cases hfirst : p = first
    · rw [h'.outside p (by omega)]
      exact h.inside p lo (by omega)
    · obtain ⟨f, hf, hmap⟩ := h'.inside p (by omega) (by omega)
      exact ⟨f, h.frames hf, hmap⟩
  · intro p out
    rw [h'.outside p (by omega), h.outside p (by omega)]
  · intro p hp q hq f hf h₁ h₂
    by_cases hlater : f ∈ s₁.frames
    · exact h'.own p hp q hq f hlater h₁ h₂
    · exact h.own p hp q hq f hf (hback p f hlater h₁) (hback q f hlater h₂)
  · intro f hf
    rw [h'.phys f fun hm => hf (h.frames hm), h.phys f hf]
  · intro p lo hi
    by_cases hfirst : p = first
    · obtain ⟨hp, hflags⟩ := h.flags p lo (by omega)
      exact ⟨h'.tables _ hp, (h'.flagsOutside p (by omega) hp).trans hflags⟩
    · exact h'.flags p (by omega) (by omega)
  · intro p out present
    rw [h'.flagsOutside p (by omega) (h.tables _ present), h.flagsOutside p (by omega) present]
  · intro e he
    rw [h'.tableFlags e he]
    by_cases hs₁ : s₁.tables e = true
    · rw [if_pos hs₁, h.tableFlags e hs₁]
    · rw [if_neg hs₁, if_neg fun hs => hs₁ (h.tables e hs)]

theorem Backed.fillFrom {pages rounds : Nat} {vaddr vmEnd : UInt32} (h : Backed s)
    (span : (vmEnd.toNat - vaddr.toNat + 4095) / 4096 = pages) (below : vmEnd.toNat ≤ 0xC0000000)
    (enough : pages < rounds)
    (room : framesFor s.tables (vaddr.toNat / 4096) pages ≤ s.frames.length) :
    Filled s (mapFrom vmEnd rounds s vaddr) (vaddr.toNat / 4096) pages := by
  induction pages generalizing s rounds vaddr with
  | zero =>
    obtain ⟨rounds, rfl⟩ := Nat.exists_eq_succ_of_ne_zero (Nat.ne_of_gt enough)
    have hstop : ¬vaddr < vmEnd := by
      rw [lt_iff_toNat_lt]
      omega
    rw [mapFrom, if_neg hstop]
    refine ⟨h, fun _ hf => hf, fun _ _ _ => by omega, fun _ _ => rfl, ?_, fun _ _ => rfl,
      fun _ _ _ => by omega, fun _ _ _ => rfl, fun _ he => he, fun e he => (if_pos he).symm⟩
    exact fun p hp _ _ f hf h₁ _ => absurd hf (h.used p hp f h₁)
  | succ pages ih =>
    obtain ⟨rounds, rfl⟩ := Nat.exists_eq_succ_of_ne_zero (Nat.ne_of_gt (Nat.zero_lt_of_lt enough))
    have hgo : vaddr < vmEnd := by
      rw [lt_iff_toNat_lt]
      omega
    have hadd : (vaddr + 4096).toNat = vaddr.toNat + 4096 := by
      rw [UInt32.toNat_add]
      simp
      omega
    have hpage : (vaddr + 4096).toNat / 4096 = vaddr.toNat / 4096 + 1 := by omega
    have hspan : (vmEnd.toNat - (vaddr + 4096).toNat + 4095) / 4096 = pages := by omega
    rw [framesFor] at room
    have hfirst := h.fillPage (vaddr.toNat / 4096) (by omega)
    have hrest := ih hfirst.backed hspan (Nat.lt_of_succ_lt_succ enough) (by
      rw [mapPage_tables, mapPage_frames, hpage]
      omega)
    rw [hpage] at hrest
    rw [mapFrom, if_pos hgo]
    exact hfirst.step hrest

end Pages

/-- Where an area of `n` bytes is put that is asked for at `a`: at the end of the gap around `a`
if it is long enough but ends too early, and at `a` otherwise. -/
def placeAt (mm : Mm) (a n : Nat) : List UInt32 → Nat
  | v :: w :: l =>
    if (mm.vmEnd v).toNat ≤ a ∧ a < (mm.vmStart w).toNat ∧ (mm.vmStart w).toNat < a + n ∧
        (mm.vmEnd v).toNat + n ≤ (mm.vmStart w).toNat then (mm.vmStart w).toNat - n
    else placeAt mm a n (w :: l)
  | _ => a

/-- The start and the end of the area that a request is about: the area with the page of `addr`,
as far as the request reaches, or else a new one. -/
def mmapPlace (mm : Mm) (l : List UInt32) (addr len : UInt32) : Nat × Nat :=
  match l.find? (hasAddr mm (alignDown addr 4096)) with
  | some v =>
    ((mm.vmStart v).toNat,
      if (mm.vmEnd v).toNat < addr.toNat + len.toNat then brkEnd addr len else (mm.vmEnd v).toNat)
  | none =>
    let a := placeAt mm (areaHint mm (alignDown addr 4096)).toNat (roundUp len) l
    (a, if a = 0 then 0 else a + roundUp len)

def pagesOf (r : Nat × Nat) : Nat := (r.2 - r.1 + 4095) / 4096

def InPlace (r : Nat × Nat) (page : Nat) : Prop := r.1 / 4096 ≤ page ∧ page < r.1 / 4096 + pagesOf r

/-- The request and its area end below the kernel, and there is memory for the pages. A new area
has a hint that is page-aligned, and an area that grows does not run into the next one. -/
structure MmapFits (s : Space) (l : List UInt32) (addr len : UInt32) : Prop where
  range : addr.toNat + len.toNat ≤ 0xC0000000
  place : (mmapPlace s.mm l addr len).2 ≤ 0xC0000000
  frames : framesFor s.tables ((mmapPlace s.mm l addr len).1 / 4096)
    (pagesOf (mmapPlace s.mm l addr len)) ≤ s.frames.length
  new : (∀ v ∈ l, ¬Covers s.mm v (alignDown addr 4096).toNat) → s.areas ≠ [] ∧
    (areaHint s.mm (alignDown addr 4096)).toNat % 4096 = 0 ∧
    (areaHint s.mm (alignDown addr 4096)).toNat + roundUp len < 2 ^ 32
  grown : ∀ v ∈ l, Covers s.mm v (alignDown addr 4096).toNat →
    (s.mm.vmEnd v).toNat < addr.toNat + len.toNat → ¬Collides s.mm l v addr len

def Meets (a len page : Nat) : Prop := page * 4096 < a + len ∧ a < page * 4096 + 4096

def UserWritable (flags : UInt32) : Prop := flags &&& userFlags = userFlags

instance (flags : UInt32) : Decidable (UserWritable flags) := inferInstanceAs (Decidable (_ = _))

/-- What mapping memory is for: every page of the range is mapped user-writable to the frame that
it had or to one that no other page has, and every page that was mapped has its frame, with the
bytes that were there. -/
structure MmapRight (s s' : Space) (ret len : UInt32) : Prop where
  writable : ∀ page, Meets ret.toNat len.toNat page →
    UserWritable (s'.flags page) ∧ UserWritable (s'.tableFlags (page / 1024))
  mapped : ∀ page, Meets ret.toNat len.toNat page → ∃ f, s'.table page = some f ∧
    (s.table page = some f ∨ f ∈ s.frames ∧ ∀ q < 0xC0000, s'.table q = some f → q = page)
  kept : ∀ page f, s.table page = some f → s'.table page = some f ∧
    (page < 0xC0000 → s'.phys f = s.phys f)

/-- No page of the area was mapped, and every page of the range outside of the area was, and
user-writable. A table that is there for a page of the range is user-writable. -/
structure MmapOpen (s : Space) (l : List UInt32) (addr len : UInt32) : Prop where
  free : ∀ page, InPlace (mmapPlace s.mm l addr len) page → s.table page = none
  outside : ∀ page,
    Meets (if addr ≠ 0 then addr.toNat else (mmapPlace s.mm l addr len).1) len.toNat page →
    InPlace (mmapPlace s.mm l addr len) page ∨ s.table page ≠ none ∧ UserWritable (s.flags page)
  tables : ∀ page,
    Meets (if addr ≠ 0 then addr.toNat else (mmapPlace s.mm l addr len).1) len.toNat page →
    s.tables (page / 1024) = true → UserWritable (s.tableFlags (page / 1024))

section Place
variable {mm : Mm} {addr len : UInt32} {l : List UInt32}

theorem placeAt_front {v : UInt32} {a n : Nat} (h : Ordered mm (v :: l))
    (front : a + n ≤ (mm.vmStart v).toNat) : placeAt mm a n (v :: l) = a := by
  induction l generalizing v with
  | nil => rfl
  | cons w l ih =>
    have hv := le_iff_toNat_le.mp (h.each v mem_cons_self)
    have hvw := le_iff_toNat_le.mp ((pairwise_cons.mp h.order).1 w mem_cons_self)
    rw [placeAt, if_neg (by omega)]
    exact ih h.tail (by omega)

/-- Where the search of `get_unmapped_area` puts the area. -/
theorem scanAreas_place (h : Ordered mm l) (vma : UInt32) (room : addr.toNat + len.toNat < 2 ^ 32) :
    ((scanAreas mm addr len l).result mm vma addr).2.toNat = placeAt mm addr.toNat len.toNat l := by
  have hsum : (addr + len).toNat = addr.toNat + len.toNat := by
    rw [UInt32.toNat_add]
    omega
  induction l with
  | nil => rfl
  | cons v l ih =>
    unfold scanAreas
    split
    · rename_i front
      rw [le_iff_toNat_le, hsum] at front
      exact (placeAt_front h front).symm
    · cases l with
      | nil =>
        dsimp only
        split <;> rfl
      | cons w l =>
        have hvw := le_iff_toNat_le.mp ((pairwise_cons.mp h.order).1 w mem_cons_self)
        have hsub : (mm.vmStart w - mm.vmEnd v).toNat = (mm.vmStart w).toNat - (mm.vmEnd v).toNat :=
          UInt32.toNat_sub_of_le _ _ (UInt32.le_iff_toNat_le.mpr hvw)
        simp only [UInt32.le_iff_toNat_le, UInt32.lt_iff_toNat_lt, hsum, hsub]
        split
        · rename_i here
          rw [placeAt, if_neg (by omega)]
          exact (placeAt_front h.tail here.2).symm
        · split
          · rename_i below
            rw [placeAt, if_pos (by omega)]
            exact UInt32.toNat_sub_of_le _ _ (UInt32.le_iff_toNat_le.mpr (by omega))
          · rw [placeAt, if_neg (by omega)]
            exact ih h.tail

end Place

section Mmap
variable {s : Space} {l : List UInt32} {v addr len : UInt32}

theorem mmapArea_new (laid : Laid s.mm l) (fresh : (s.mm.mmap :: l ++ s.areas).Nodup)
    (fits : MmapFits s l addr len)
    (hnone : l.find? (hasAddr s.mm (alignDown addr 4096)) = none) :
    ∃ mm areas vma, mmapArea s addr len = .ok ({ s with mm, areas }, vma) ∧
      (mm.vmStart vma).toNat = (mmapPlace s.mm l addr len).1 ∧
      (mm.vmEnd vma).toNat = (mmapPlace s.mm l addr len).2 := by
  obtain ⟨more, aligned, room⟩ := fits.new fun v hv hcov =>
    List.find?_eq_none.mp hnone v hv (hasAddr_iff.mpr hcov)
  obtain ⟨vma, areas, hareas⟩ := exists_cons_of_ne_nil more
  have hvma : vma ∉ s.mm.mmap :: l := by
    intro hm
    rw [hareas] at fresh
    exact (nodup_append.mp fresh).2.2 vma hm vma mem_cons_self rfl
  have hfind := laid.findVma (alignDown addr 4096)
  rw [hnone] at hfind
  have hn : (pageAlign len).toNat = roundUp len := by
    rw [pageAlign_toNat]
    omega
  have hget : getUnmappedArea s.mm vma (alignDown addr 4096) len = _ := getUnmappedArea_eq laid hvma
  rw [if_pos aligned] at hget
  generalize hr : placing s.mm vma (areaHint s.mm (alignDown addr 4096)) (pageAlign len) l = r at hget
  have hstart : r.2.toNat = placeAt s.mm (areaHint s.mm (alignDown addr 4096)).toNat (roundUp len) l := by
    rw [← hr, ← hn]
    cases l with
    | nil => rfl
    | cons v l => exact scanAreas_place laid.ordered vma (hn.symm ▸ room)
  have hplace : mmapPlace s.mm l addr len =
      (r.2.toNat, if r.2.toNat = 0 then 0 else r.2.toNat + roundUp len) := by
    rw [mmapPlace, hnone, hstart]
  have below := fits.place
  refine ⟨settle s.mm vma (pageAlign len) r, areas, vma, ?_, ?_, ?_⟩
  · rw [mmapArea]
    simp only [hfind, hareas, hget]
  · rw [settle_start, hplace]
  · have hend : (settle s.mm vma (pageAlign len) r).vmEnd vma =
        if r.2 = 0 then 0 else r.2 + pageAlign len := update_self _ _ _
    rw [hend]
    rw [hplace] at below ⊢
    by_cases hzero : r.2 = 0
    · simp [hzero]
    · have hpos : r.2.toNat ≠ 0 := fun h => hzero (UInt32.toNat_inj.mp h)
      simp only [if_neg hpos] at below ⊢
      rw [if_neg hzero, UInt32.toNat_add, hn]
      omega

theorem Laid.next (laid : Laid s.mm l) (hv : v ∈ l) (h : s.mm.links.next v ≠ s.mm.mmap) :
    s.mm.links.next v ∈ l ∧ s.mm.links.next v ≠ v ∧ s.mm.vmEnd v ≤ s.mm.vmStart (s.mm.links.next v) := by
  obtain ⟨pre, post, rfl⟩ := append_of_mem hv
  have hpath := laid.ring.path.split.2
  obtain ⟨-, hrest, -⟩ := pairwise_append.mp laid.order
  cases hpath with
  | nil next _ => exact absurd next h
  | cons next _ _ =>
    have hnodup := laid.ring.nodup
    rw [next]
    refine ⟨by simp, ?_, (pairwise_cons.mp hrest).1 _ mem_cons_self⟩
    rintro rfl
    simp [nodup_append] at hnodup

theorem mmapArea_old (laid : Laid s.mm l) (fits : MmapFits s l addr len)
    (hsome : l.find? (hasAddr s.mm (alignDown addr 4096)) = some v) :
    ∃ mm areas, mmapArea s addr len = .ok ({ s with mm, areas }, v) ∧
      (mm.vmStart v).toNat = (mmapPlace s.mm l addr len).1 ∧
      (mm.vmEnd v).toNat = (mmapPlace s.mm l addr len).2 := by
  have hv := mem_of_find?_eq_some hsome
  have hcov := hasAddr_iff.mp (List.find?_some hsome)
  have hfind := laid.findVma (alignDown addr 4096)
  rw [hsome] at hfind
  have hrange := fits.range
  have hadd : (addr + len).toNat = addr.toNat + len.toNat := by
    rw [UInt32.toNat_add]
    omega
  have hplace : mmapPlace s.mm l addr len = ((s.mm.vmStart v).toNat,
      if (s.mm.vmEnd v).toNat < addr.toNat + len.toNat then brkEnd addr len else (s.mm.vmEnd v).toNat) := by
    rw [mmapPlace, hsome]
  rw [mmapArea, hplace]
  simp only [hfind, lt_iff_toNat_lt, hadd]
  by_cases hgrow : (s.mm.vmEnd v).toNat < addr.toNat + len.toNat
  · have hfree := fits.grown v hv hcov hgrow
    have hend : (pageAlign (addr + len)).toNat = brkEnd addr len := brkEnd_eq (by unfold brkEnd; omega)
    have hup : addr.toNat + len.toNat ≤ brkEnd addr len := by
      unfold brkEnd
      omega
    have hlong : ¬pageAlign (addr + len) ≤ s.mm.vmEnd v := by
      rw [le_iff_toNat_le]
      omega
    have hnext : s.mm.links.next v = s.mm.mmap ∨
        pageAlign (addr + len) ≤ s.mm.vmStart (s.mm.links.next v) := by
      by_cases hlast : s.mm.links.next v = s.mm.mmap
      · exact .inl hlast
      · obtain ⟨hmem, hne, hbehind⟩ := laid.next hv hlast
        refine .inr (le_iff_toNat_le.mpr ?_)
        by_contra hlt
        exact hfree ⟨_, hmem, hne, le_iff_toNat_le.mp hbehind, by omega⟩
    refine ⟨{ s.mm with vmEnd := Function.update s.mm.vmEnd v (pageAlign (addr + len)) }, s.areas, ?_⟩
    simp only [if_pos hgrow, expandArea, if_neg hlong, if_pos hnext, update_self, hend, and_self]
  · refine ⟨s.mm, s.areas, ?_⟩
    simp only [if_neg hgrow, and_self]

theorem MmapFits.below (fits : MmapFits s l addr len) :
    (if addr ≠ 0 then addr.toNat else (mmapPlace s.mm l addr len).1) + len.toNat ≤ 0xC0000000 := by
  have hrange := fits.range
  have hplace := fits.place
  split
  · exact hrange
  · rename_i hzero
    have hzero : addr = 0 := by simpa using hzero
    subst hzero
    have halign : alignDown 0 4096 = 0 := by decide
    rw [mmapPlace, halign] at hplace ⊢
    cases hfind : l.find? (hasAddr s.mm 0) with
    | none =>
      rw [hfind] at hplace
      dsimp only at hplace ⊢
      have hlen : len.toNat ≤ roundUp len := by
        unfold roundUp
        omega
      split at hplace
      · simp at hrange
        omega
      · omega
    | some v =>
      have hcov := (hasAddr_iff.mp (List.find?_some hfind)).1
      simp at hrange hcov ⊢
      omega

/-- `do_mmap` fills its area with new frames. -/
theorem doMmap_filled (backed : Backed s) (laid : Laid s.mm l) (fresh : (s.mm.mmap :: l ++ s.areas).Nodup)
    (fits : MmapFits s l addr len) : ∃ s' ret, doMmap s addr len = .ok (s', ret) ∧
      ret.toNat = (if addr ≠ 0 then addr.toNat else (mmapPlace s.mm l addr len).1) ∧
      Filled s s' ((mmapPlace s.mm l addr len).1 / 4096) (pagesOf (mmapPlace s.mm l addr len)) := by
  obtain ⟨mm, areas, vma, harea, hstart, hend⟩ : ∃ mm areas vma,
      mmapArea s addr len = .ok ({ s with mm, areas }, vma) ∧
        (mm.vmStart vma).toNat = (mmapPlace s.mm l addr len).1 ∧
        (mm.vmEnd vma).toNat = (mmapPlace s.mm l addr len).2 := by
    cases hfind : l.find? (hasAddr s.mm (alignDown addr 4096)) with
    | none => exact mmapArea_new laid fresh fits hfind
    | some v =>
      obtain ⟨mm, areas, harea⟩ := mmapArea_old laid fits hfind
      exact ⟨mm, areas, v, harea⟩
  have hbacked : Backed { s with mm, areas } := ⟨backed.nodup, backed.used, backed.tabular⟩
  have hplace := fits.place
  have hroom := fits.frames
  have hspan : ((mm.vmEnd vma).toNat - (mm.vmStart vma).toNat + 4095) / 4096 =
      pagesOf (mmapPlace s.mm l addr len) := by rw [hstart, hend, pagesOf]
  have enough : pagesOf (mmapPlace s.mm l addr len) < 2 ^ 20 := by
    unfold pagesOf
    omega
  rw [← hstart] at hroom
  have hfilled := hbacked.fillFrom hspan (hend ▸ hplace) enough hroom
  rw [hstart] at hfilled
  refine ⟨mapFrom (mm.vmEnd vma) (2 ^ 20) { s with mm, areas } (mm.vmStart vma),
    if addr ≠ 0 then addr else mm.vmStart vma, ?_, ?_, ?_⟩
  · rw [doMmap, harea, ok_bind]
    rfl
  · rw [← hstart]
    split <;> rfl
  · exact ⟨hfilled.backed, hfilled.frames, hfilled.inside, hfilled.outside, hfilled.own,
      hfilled.phys, hfilled.flags, hfilled.flagsOutside, hfilled.tables, hfilled.tableFlags⟩

/-- A call of `do_mmap` maps the pages of the range user-writable and keeps those that were
mapped exactly if none of the area was: all its pages get new frames. -/
theorem mmap_right_iff (backed : Backed s) (laid : Laid s.mm l)
    (fresh : (s.mm.mmap :: l ++ s.areas).Nodup) (fits : MmapFits s l addr len) :
    (∃ s' ret, doMmap s addr len = .ok (s', ret) ∧ MmapRight s s' ret len) ↔ MmapOpen s l addr len := by
  obtain ⟨s', ret, hcall, hret, hfilled⟩ := doMmap_filled backed laid fresh fits
  have hbelow := fits.below
  have hplace := fits.place
  rw [← hret] at hbelow
  have huser : ∀ page, Meets ret.toNat len.toNat page → page < 0xC0000 := by
    intro page hmeets
    have := hmeets.1
    omega
  have hin : ∀ page, InPlace (mmapPlace s.mm l addr len) page → page < 0xC0000 := by
    intro page hpage
    obtain ⟨hlo, hhi⟩ := hpage
    unfold pagesOf at hhi
    omega
  -- a page that is mapped has a table, and one without a table is not mapped
  have htabled : ∀ page, s.table page ≠ none → s.tables (page / 1024) = true := by
    intro page hmapped
    by_contra absent
    exact hmapped (backed.tabular page (Bool.eq_false_iff.mpr absent))
  have hopen : MmapRight s s' ret len ↔ MmapOpen s l addr len := by
    constructor
    · intro right
      refine ⟨fun page hpage => ?_, fun page hmeets => ?_, fun page hmeets present => ?_⟩
      · cases hold : s.table page with
        | none => rfl
        | some f =>
          obtain ⟨g, hg, hnew⟩ := hfilled.inside page hpage.1 hpage.2
          rw [(right.kept page f hold).1] at hnew
          exact absurd (Option.some.inj hnew ▸ hg) (backed.used page (hin page hpage) f hold)
      · rw [← hret] at hmeets
        by_cases hpage : InPlace (mmapPlace s.mm l addr len) page
        · exact .inl hpage
        · obtain ⟨f, hf, -⟩ := right.mapped page hmeets
          rw [hfilled.outside page hpage] at hf
          have hmapped : s.table page ≠ none := by simp [hf]
          refine .inr ⟨hmapped, ?_⟩
          rw [← hfilled.flagsOutside page hpage (htabled page hmapped)]
          exact (right.writable page hmeets).1
      · rw [← hret] at hmeets
        have hflags := (right.writable page hmeets).2
        rwa [hfilled.tableFlags _ (hfilled.tables _ present), if_pos present] at hflags
    · intro hopen
      refine ⟨fun page hmeets => ?_, fun page hmeets => ?_, fun page f hold => ?_⟩
      · have huserFlags : UserWritable userFlags := by decide
        by_cases hpage : InPlace (mmapPlace s.mm l addr len) page
        · obtain ⟨hpresent, hflags⟩ := hfilled.flags page hpage.1 hpage.2
          refine ⟨hflags ▸ huserFlags, ?_⟩
          rw [hfilled.tableFlags _ hpresent]
          split
          · rename_i present
            exact hopen.tables page (hret ▸ hmeets) present
          · exact huserFlags
        · obtain ⟨hmapped, hflags⟩ := (hopen.outside page (hret ▸ hmeets)).resolve_left hpage
          have present := htabled page hmapped
          rw [hfilled.flagsOutside page hpage present,
            hfilled.tableFlags _ (hfilled.tables _ present), if_pos present]
          exact ⟨hflags, hopen.tables page (hret ▸ hmeets) present⟩
      · have hp := huser page hmeets
        by_cases hpage : InPlace (mmapPlace s.mm l addr len) page
        · obtain ⟨f, hf, hnew⟩ := hfilled.inside page hpage.1 hpage.2
          exact ⟨f, hnew, .inr ⟨hf, fun q hq hsame => hfilled.own q hq page hp f hf hsame hnew⟩⟩
        · have hold := ((hopen.outside page (hret ▸ hmeets)).resolve_left hpage).1
          obtain ⟨f, hf⟩ := Option.ne_none_iff_exists'.mp hold
          exact ⟨f, (hfilled.outside page hpage).trans hf, .inl hf⟩
      · have hpage : ¬InPlace (mmapPlace s.mm l addr len) page := by
          intro hpage
          rw [hopen.free page hpage] at hold
          cases hold
        refine ⟨(hfilled.outside page hpage).trans hold, fun hp => ?_⟩
        exact hfilled.phys f (backed.used page hp f hold)
  rw [← hopen]
  constructor
  · intro ⟨s₂, ret₂, hcall₂, h⟩
    cases hcall.symm.trans hcall₂
    exact h
  · exact fun h => ⟨s', ret, hcall, h⟩

def onePage : Space where
  mm := oneArea 0x50000000 0x50001000 0x8000000
  table := fun page => if page = 0x50000 then some 5 else none
  tables := fun _ => true
  phys := fun _ _ => 0
  frames := [6, 7, 8]
  areas := [3]

theorem onePage_backed : Backed onePage := by
  refine ⟨by decide, ?_, nofun⟩
  intro p _ f hp
  simp only [onePage] at hp ⊢
  split at hp
  · rw [← Option.some.inj hp]
    decide
  · cases hp

theorem onePage_laid : Laid onePage.mm [2] := oneArea_laid _ (by decide)

theorem onePage_new : mmapPlace onePage.mm [2] 0x60000000 0x1800 = (0x60000000, 0x60002000) := by
  decide +kernel

theorem mmap_right_two_pages : ∃ s' ret, doMmap onePage 0x60000000 0x1800 = .ok (s', ret) ∧
    MmapRight onePage s' ret 0x1800 := by
  have out : ∀ v ∈ [2], ¬Covers onePage.mm v (alignDown 0x60000000 4096).toNat := by
    refine forall_mem_singleton.mpr fun hcov => absurd hcov.2 ?_
    decide +kernel
  have fits : MmapFits onePage [2] 0x60000000 0x1800 := by
    refine ⟨by decide, ?_, ?_, fun _ => ?_, fun v hv hcov => absurd hcov (out v hv)⟩
    · rw [onePage_new]
      decide
    · rw [onePage_new]
      decide +kernel
    · decide +kernel
  refine (mmap_right_iff onePage_backed onePage_laid (by decide) fits).mpr ⟨?_, ?_, ?_⟩
  · intro page hpage
    rw [onePage_new] at hpage
    obtain ⟨hlo, hhi⟩ := hpage
    exact if_neg (by omega)
  · intro page hmeets
    have hret : (if (0x60000000 : UInt32) ≠ 0 then (0x60000000 : UInt32).toNat else 0x60000000) =
        0x60000000 := by decide
    have hlen : (0x1800 : UInt32).toNat = 0x1800 := by decide
    rw [onePage_new] at hmeets ⊢
    dsimp only at hmeets
    rw [hret, hlen] at hmeets
    obtain ⟨hlo, hhi⟩ := hmeets
    have hpages : pagesOf (0x60000000, 0x60002000) = 2 := by decide
    refine .inl ⟨?_, ?_⟩
    · dsimp only
      omega
    · rw [hpages]
      omega
  · intro page _ _
    exact (by decide : UserWritable userFlags)

/-- A page more is asked for behind the area: the page that the area has gets another frame. -/
theorem mmap_loses_page : Backed onePage ∧ Laid onePage.mm [2] ∧
    MmapFits onePage [2] 0x50000000 0x2000 ∧
    ∃ s', doMmap onePage 0x50000000 0x2000 = .ok (s', 0x50000000) ∧
      onePage.table 0x50000 = some 5 ∧ s'.table 0x50000 = some 6 := by
  have hplace : mmapPlace onePage.mm [2] 0x50000000 0x2000 = (0x50000000, 0x50002000) := by
    decide +kernel
  have inside : Covers onePage.mm 2 (alignDown 0x50000000 4096).toNat :=
    ⟨by decide +kernel, by decide +kernel⟩
  refine ⟨onePage_backed, onePage_laid, ⟨by decide, ?_, ?_, fun h => ?_, ?_⟩, _, rfl, rfl, rfl⟩
  · rw [hplace]
    decide
  · rw [hplace]
    decide +kernel
  · exact absurd inside (h 2 mem_cons_self)
  · intro v hv _ _ ⟨w, hw, hne, _⟩
    rw [mem_singleton.mp hv, mem_singleton.mp hw] at hne
    exact hne rfl

end Mmap

end Mos.Memory
