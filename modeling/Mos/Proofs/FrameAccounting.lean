import Mos.Proofs.PhysicalFrames

namespace Mos.Memory
open Machine UInt32 List Bool

section Init

def regionFrames (addr length : UInt32) : List Nat :=
  List.range' (addr / pmmFrameSize).toNat (divCeil length pmmFrameSize).toNat

/-- The frames of the regions that are available, a frame once for each region it is in. -/
def availableFrames : List MmapEntry → List Nat
  | [] => []
  | mmap :: rest =>
    if 4 < mmap.type ∧ mmap.addr = 0 then []
    else if mmap.type = 1 then
      regionFrames mmap.addr.toUInt32 mmap.len.toUInt32 ++ availableFrames rest
    else availableFrames rest

def reservedFrames (kernelEnd maxFrames : UInt32) : List Nat :=
  regionFrames 0 kernelBoot ++
    regionFrames kernelBoot (kernelEnd - kernelStart + divCeil maxFrames 8)

def remainingFrames (kernelEnd maxFrames : UInt32) (mmap : List MmapEntry) : Nat :=
  (List.range maxFrames.toNat).countP fun f =>
    decide (f ∈ availableFrames mmap) && !decide (f ∈ reservedFrames kernelEnd maxFrames)

/-- What the available regions give back, counted once for each region, is what is
reserved again and what remains. -/
def balanced (kernelEnd maxFrames : UInt32) (mmap : List MmapEntry) : Prop :=
  (availableFrames mmap).length =
    (reservedFrames kernelEnd maxFrames).length + remainingFrames kernelEnd maxFrames mmap

variable {p : Pmm} {addr length kernelEnd memLower memUpper : UInt32} {mmap : List MmapEntry}

theorem regionFrames_bound (addr length : UInt32) :
    (addr / pmmFrameSize).toNat + (divCeil length pmmFrameSize).toNat ≤ 2 ^ 32 := by
  have ha := addr.toNat_lt
  have hl := length.toNat_lt
  have hd := divCeil_toNat length (y := pmmFrameSize) (by decide)
  rw [show pmmFrameSize.toNat = 4096 from rfl] at hd
  rw [UInt32.toNat_div, hd]
  change _ / 4096 + _ ≤ _
  omega

theorem foldl_regionFrames (f : Words → Nat → Words) (b : Words) (addr length : UInt32) :
    (List.range (divCeil length pmmFrameSize).toNat).foldl
        (fun b i => f b (addr / pmmFrameSize + UInt32.ofNat i).toNat) b =
      (regionFrames addr length).foldl f b := by
  have hb := regionFrames_bound addr length
  have hl := (divCeil length pmmFrameSize).toNat_lt
  rw [regionFrames, List.range'_eq_map_range, List.foldl_map]
  apply foldl_ext
  intro b i hi
  have := mem_range.mp hi
  have hi' : (UInt32.ofNat i).toNat = i := UInt32.toNat_ofNat_of_lt' (show i < 2 ^ 32 by omega)
  rw [UInt32.toNat_add, hi', Nat.mod_eq_of_lt (by omega)]

theorem initRegion_test (p : Pmm) (addr length : UInt32) (f : Nat) :
    (pmmInitRegion p addr length).bitmap.test f =
      (decide (f = 0) || !decide (f ∈ regionFrames addr length) && p.bitmap.test f) := by
  have hloop := foldl_regionFrames Words.unset p.bitmap addr length
  change (Words.set (List.foldl (fun b i => Words.unset b _) _ _) (0 : UInt32).toNat).test f = _
  rw [hloop, Words.test_set, Words.test_unsetAll]
  simp [eq_comm]

theorem deinitRegion_test (p : Pmm) (addr length : UInt32) (f : Nat) :
    (pmmDeinitRegion p addr length).bitmap.test f =
      (decide (f ∈ regionFrames addr length) || p.bitmap.test f) := by
  have hloop := foldl_regionFrames Words.set p.bitmap addr length
  change (List.foldl (fun b i => Words.set b _) _ _ : Words).test f = _
  rw [hloop, Words.test_setAll]

/-- The bits after the loop over the memory map: a frame of an available region is
clear, but for frame 0. -/
theorem regions_test (p : Pmm) (mmap : List MmapEntry) (f : Nat) (hf : f ≠ 0) :
    (pmmRegions p mmap).bitmap.test f = (!decide (f ∈ availableFrames mmap) && p.bitmap.test f) := by
  induction mmap generalizing p with
  | nil => simp [pmmRegions, availableFrames]
  | cons e rest ih =>
    unfold pmmRegions availableFrames
    split
    · simp
    · split
      · rw [ih, initRegion_test]
        simp [hf, Bool.and_assoc, Bool.and_comm]
      · exact ih p

theorem regions_max (p : Pmm) (mmap : List MmapEntry) :
    (pmmRegions p mmap).maxFrames = p.maxFrames := by
  induction mmap generalizing p with
  | nil => rfl
  | cons e rest ih =>
    unfold pmmRegions
    split
    · rfl
    · split
      · exact ih _
      · exact ih p

theorem regions_used (p : Pmm) (mmap : List MmapEntry) :
    (pmmRegions p mmap).usedFrames =
      p.usedFrames - UInt32.ofNat (availableFrames mmap).length := by
  induction mmap generalizing p with
  | nil => simp [pmmRegions, availableFrames]
  | cons e rest ih =>
    unfold pmmRegions availableFrames
    split
    · simp
    · split
      · rw [ih]
        simp only [pmmInitRegion, regionFrames, length_append, length_range',
          UInt32.ofNat_add, UInt32.ofNat_toNat]
        grind
      · exact ih p

variable {memory : Words}

theorem init_max (memory : Words) (kernelEnd memLower memUpper : UInt32) (mmap : List MmapEntry) :
    (pmmInit memory kernelEnd memLower memUpper mmap).maxFrames = pmmMaxFrames memLower memUpper := by
  simp only [pmmInit, pmmDeinitRegion, regions_max]

theorem init_used (memory : Words) (kernelEnd memLower memUpper : UInt32) (mmap : List MmapEntry) :
    (pmmInit memory kernelEnd memLower memUpper mmap).usedFrames =
      pmmMaxFrames memLower memUpper - UInt32.ofNat (availableFrames mmap).length +
        UInt32.ofNat (reservedFrames kernelEnd (pmmMaxFrames memLower memUpper)).length := by
  simp only [pmmInit, pmmDeinitRegion, regions_used, reservedFrames, regionFrames,
    List.length_append, List.length_range', UInt32.ofNat_add, UInt32.ofNat_toNat]
  rw [UInt32.add_assoc]

theorem zero_reserved (kernelEnd maxFrames : UInt32) : 0 ∈ reservedFrames kernelEnd maxFrames := by
  apply mem_append_left
  decide

theorem init_test {f : Nat} (hf : f < (pmmMaxFrames memLower memUpper).toNat) :
    (pmmInit memory kernelEnd memLower memUpper mmap).bitmap.test f =
      !(decide (f ∈ availableFrames mmap) &&
        !decide (f ∈ reservedFrames kernelEnd (pmmMaxFrames memLower memUpper))) := by
  have hsize := divCeil_toNat (pmmMaxFrames memLower memUpper) (y := 8) (by decide)
  rw [show (8 : UInt32).toNat = 8 from rfl] at hsize
  simp only [pmmInit, deinitRegion_test]
  by_cases hz : f = 0
  · subst hz
    have h0 : 0 ∈ regionFrames 0 kernelBoot := by decide
    simp [h0, zero_reserved]
  · have hfill : f < 8 * (divCeil (pmmMaxFrames memLower memUpper) 8).toNat := by omega
    rw [regions_test _ _ _ hz, Words.test_fillBytes, decide_eq_true hfill]
    by_cases ha : f ∈ availableFrames mmap
    · simp [ha, reservedFrames, Bool.or_comm]
    · simp [ha]

theorem init_ones (memory : Words) (kernelEnd memLower memUpper : UInt32) (mmap : List MmapEntry) :
    (pmmInit memory kernelEnd memLower memUpper mmap).bitmap.ones
        (pmmMaxFrames memLower memUpper).toNat +
      remainingFrames kernelEnd (pmmMaxFrames memLower memUpper) mmap =
        (pmmMaxFrames memLower memUpper).toNat := by
  have hclear := Words.ones_clear (pmmInit memory kernelEnd memLower memUpper mmap).bitmap
    (pmmMaxFrames memLower memUpper).toNat
  have hcount : remainingFrames kernelEnd (pmmMaxFrames memLower memUpper) mmap =
      (List.range (pmmMaxFrames memLower memUpper).toNat).countP
        fun f => !(pmmInit memory kernelEnd memLower memUpper mmap).bitmap.test f := by
    apply countP_congr
    intro f hf
    rw [init_test (List.mem_range.mp hf), Bool.not_not]
  rw [hcount]
  exact hclear

theorem init_accounted (h : balanced kernelEnd (pmmMaxFrames memLower memUpper) mmap) :
    (pmmInit memory kernelEnd memLower memUpper mmap).usedFrames.toNat =
      (pmmInit memory kernelEnd memLower memUpper mmap).bitmap.ones
        (pmmMaxFrames memLower memUpper).toNat := by
  have hones := init_ones memory kernelEnd memLower memUpper mmap
  have hlt := (pmmMaxFrames memLower memUpper).toNat_lt
  have hback : (pmmInit memory kernelEnd memLower memUpper mmap).usedFrames +
      UInt32.ofNat (remainingFrames kernelEnd (pmmMaxFrames memLower memUpper) mmap) =
        pmmMaxFrames memLower memUpper := by
    rw [init_used, h, ofNat_add]
    grind
  have hnat := congrArg UInt32.toNat hback
  have hu := (pmmInit memory kernelEnd memLower memUpper mmap).usedFrames.toNat_lt
  rw [UInt32.toNat_add, toNat_ofNat_lt (n := pmmMaxFrames memLower memUpper) (by omega)] at hnat
  omega

end Init

theorem balanced_of_covered {kernelEnd maxFrames : UInt32} {mmap : List MmapEntry}
    (nodup : (availableFrames mmap).Nodup) (inside : ∀ f ∈ availableFrames mmap, f < maxFrames.toNat)
    (reserved : (reservedFrames kernelEnd maxFrames).Nodup)
    (covered : ∀ f ∈ reservedFrames kernelEnd maxFrames, f ∈ availableFrames mmap) :
    balanced kernelEnd maxFrames mmap := by
  have hset : ((Finset.range maxFrames.toNat).filter fun f =>
      (decide (f ∈ availableFrames mmap) && !decide (f ∈ reservedFrames kernelEnd maxFrames)) = true) =
      (availableFrames mmap).toFinset \ (reservedFrames kernelEnd maxFrames).toFinset := by
    ext f
    simp only [Finset.mem_filter, Finset.mem_range, Finset.mem_sdiff, mem_toFinset,
      and_eq_true, not_eq_true', decide_eq_true_eq, decide_eq_false_iff_not]
    constructor
    · exact And.right
    · intro h
      exact ⟨inside f h.1, h⟩
  have hsub : (reservedFrames kernelEnd maxFrames).toFinset ⊆ (availableFrames mmap).toFinset := by
    intro f hf
    exact mem_toFinset.mpr (covered f (mem_toFinset.mp hf))
  have hcard := Finset.card_sdiff_add_card_eq_card hsub
  rw [toFinset_card_of_nodup nodup, toFinset_card_of_nodup reserved] at hcard
  rw [balanced, remainingFrames, Words.countP_range_eq_card, hset]
  omega

section Calls

/-- A call that keeps the count: the search finds a run of free frames, and a frame
that is marked is in the memory or was marked already. -/
def countsRight (s : Frames) : FrameCall → Bool
  | .request e => findsRun s e
  | .markUsedAddr paddr =>
    decide (paddr / pmmFrameSize < s.pmm.maxFrames) ||
      memoryBitmapTest s.pmm.bitmap (paddr / pmmFrameSize)

/-- `used_frames` is the number of bits that are set, and outstanding frames are in
the memory. -/
structure Accounted (s : Frames) : Prop where
  exclusive : Exclusive s
  below : ∀ f ∈ s.held.flatten, f ≠ 0 ∧ f < s.pmm.maxFrames.toNat
  zero : s.pmm.bitmap.test 0 = true
  count : s.pmm.usedFrames.toNat = s.pmm.bitmap.ones s.pmm.maxFrames.toNat

variable {s t : Frames} {size addr : UInt32}

theorem allocBlock_counts (p : Pmm) :
    pmmAllocBlock p = (p, 0) ∨ (pmmAllocBlock p).1.maxFrames = p.maxFrames ∧
      (pmmAllocBlock p).1.usedFrames = p.usedFrames + 1 := by
  unfold pmmAllocBlock
  split
  · exact .inl rfl
  · split
    · exact .inl rfl
    · exact .inr ⟨rfl, rfl⟩

theorem allocBlocks_counts (p : Pmm) (size : UInt32) :
    pmmAllocBlocks p size = (p, 0) ∨ (pmmAllocBlocks p size).1.maxFrames = p.maxFrames ∧
      (pmmAllocBlocks p size).1.usedFrames = p.usedFrames + size := by
  unfold pmmAllocBlocks
  split
  · exact .inl rfl
  · split
    · exact .inl rfl
    · exact .inr ⟨rfl, rfl⟩

theorem Accounted.used_le (h : Accounted s) : s.pmm.usedFrames.toNat ≤ s.pmm.maxFrames.toNat := by
  rw [h.count]
  exact Words.ones_le _ _

theorem Accounted.counts {q : Pmm} {l : List Nat} (h : Accounted s) (max : q.maxFrames = s.pmm.maxFrames)
    (nodup : l.Nodup) (fresh : ∀ f ∈ l, s.pmm.bitmap.test f = false ∧ f < s.pmm.maxFrames.toNat)
    (bits : ∀ f < s.pmm.maxFrames.toNat, q.bitmap.test f = (decide (f ∈ l) || s.pmm.bitmap.test f))
    (used : q.usedFrames = s.pmm.usedFrames + size) (length : l.length = size.toNat) :
    q.usedFrames.toNat = q.bitmap.ones q.maxFrames.toNat := by
  have hones := Words.ones_add nodup fresh bits
  have hle := Words.ones_le q.bitmap s.pmm.maxFrames.toNat
  have hmax := s.pmm.max_le
  rw [max, used, UInt32.toNat_add, h.count, hones, length]
  apply Nat.mod_eq_of_lt
  omega

theorem Accounted.granted {q : Pmm} {f : Nat} (h : Accounted s)
    (hg : Granted s.pmm f size.toNat q addr) (max : q.maxFrames = s.pmm.maxFrames)
    (used : q.usedFrames = s.pmm.usedFrames + size) : Accounted ⟨q, grant s.held addr size⟩ := by
  refine ⟨h.exclusive.granted hg, ?_, ?_, ?_⟩
  · intro g hm
    change _ ∧ g < q.maxFrames.toNat
    rw [max]
    rcases hg.held s.held with he | he
    · rw [he] at hm
      exact h.below g hm
    · rw [he] at hm
      rcases mem_append.mp (flatten_cons ▸ hm) with hm | hm
      · obtain ⟨hclear, hlt⟩ := hg.fresh hm
        refine ⟨?_, hlt⟩
        intro hz
        rw [hz, h.zero] at hclear
        cases hclear
      · exact h.below g hm
  · change q.bitmap.test 0 = true
    rw [hg.bits, h.zero, Bool.or_true]
  · exact h.counts max List.nodup_range' (fun g hm => hg.fresh hm) (fun g _ => hg.bits g) used
      List.length_range'

theorem Accounted.freed (h : Accounted s) (held : (addr / pmmFrameSize).toNat ∈ s.held.flatten) :
    Accounted ⟨pmmFreeBlock s.pmm addr, release (addr / pmmFrameSize).toNat s.held⟩ := by
  obtain ⟨hz, hlt⟩ := h.below _ held
  have hset := h.exclusive.used _ held
  have htest (g : Nat) : (pmmFreeBlock s.pmm addr).bitmap.test g =
      (!decide ((addr / pmmFrameSize).toNat = g) && s.pmm.bitmap.test g) := Words.test_unset _ _ _
  refine ⟨h.exclusive.freed addr, ?_, ?_, ?_⟩
  · intro g hm
    rw [flatten_release] at hm
    exact h.below g (mem_of_mem_erase hm)
  · change (pmmFreeBlock s.pmm addr).bitmap.test 0 = true
    rw [htest, h.zero]
    simpa using hz
  · have hclear : ∀ g ∈ [(addr / pmmFrameSize).toNat],
        (pmmFreeBlock s.pmm addr).bitmap.test g = false ∧ g < s.pmm.maxFrames.toNat := by
      intro g hg
      obtain rfl := mem_singleton.mp hg
      exact ⟨by rw [htest]; simp, hlt⟩
    have hbits : ∀ g < s.pmm.maxFrames.toNat, s.pmm.bitmap.test g =
        (decide (g ∈ [(addr / pmmFrameSize).toNat]) || (pmmFreeBlock s.pmm addr).bitmap.test g) := by
      intro g _
      rw [htest]
      by_cases hg : (addr / pmmFrameSize).toNat = g
      · simp only [← hg, hset, List.mem_singleton, decide_true, Bool.true_or]
      · simp only [hg, Ne.symm hg, List.mem_singleton, decide_false, Bool.false_or, Bool.not_false,
          Bool.true_and]
    have hones := Words.ones_add (List.nodup_singleton _) hclear hbits
    have hused := h.count
    have hmax := s.pmm.max_le
    have hle := h.used_le
    change (s.pmm.usedFrames - 1).toNat = (pmmFreeBlock s.pmm addr).bitmap.ones s.pmm.maxFrames.toNat
    rw [List.length_singleton] at hones
    rw [UInt32.toNat_sub_of_le _ _ (UInt32.le_iff_toNat_le.mpr (by simp; omega)), UInt32.toNat_one]
    omega

theorem Accounted.marked (h : Accounted s) {paddr : UInt32}
    (ok : countsRight s (.markUsedAddr paddr) = true) :
    Accounted { s with pmm := pmmMarkUsedAddr s.pmm paddr } := by
  simp only [countsRight, or_eq_true, decide_eq_true_eq] at ok
  unfold pmmMarkUsedAddr
  simp only
  split
  · exact h
  · rename_i hclear
    have hlt := lt_iff_toNat_lt.mp (ok.resolve_right hclear)
    have hclear : s.pmm.bitmap.test (paddr / pmmFrameSize).toNat = false :=
      eq_false_of_not_eq_true hclear
    have htest (g : Nat) : (memoryBitmapSet s.pmm.bitmap (paddr / pmmFrameSize)).test g =
        (decide (g ∈ [(paddr / pmmFrameSize).toNat]) || s.pmm.bitmap.test g) := by
      rw [memoryBitmapSet, Words.test_set]
      simp [eq_comm]
    refine ⟨⟨?_, h.exclusive.nodup⟩, h.below, ?_, ?_⟩
    · intro g hg
      change (memoryBitmapSet _ _).test g = true
      rw [htest, h.exclusive.used g hg, Bool.or_true]
    · change (memoryBitmapSet _ _).test 0 = true
      rw [htest, h.zero, Bool.or_true]
    · have hfresh : ∀ g ∈ [(paddr / pmmFrameSize).toNat],
          s.pmm.bitmap.test g = false ∧ g < s.pmm.maxFrames.toNat := by
        intro g hg
        obtain rfl := mem_singleton.mp hg
        exact ⟨hclear, hlt⟩
      exact h.counts (q := { s.pmm with
        bitmap := memoryBitmapSet s.pmm.bitmap (paddr / pmmFrameSize)
        usedFrames := s.pmm.usedFrames + 1 }) rfl (nodup_singleton _) hfresh
        (fun g _ => htest g) rfl rfl

/-- A request changes the count by what it changes in the bitmap. -/
theorem Accounted.step {e : FrameCall} (h : Accounted s) (ok : countsRight s e = true)
    (next : frameStep s e = some t) : Accounted t := by
  cases e with
  | markUsedAddr paddr =>
    cases next
    exact h.marked ok
  | request e =>
    cases e with
    | allocBlock =>
      cases next
      rcases allocBlock_granted s.pmm with he | ⟨f, hg⟩
      · rw [he]
        exact h
      · rcases allocBlock_counts s.pmm with he | ⟨hmax, hused⟩
        · rw [he]
          exact h
        · exact h.granted hg hmax hused
    | allocBlocks size =>
      cases next
      rcases allocBlocks_granted ok with he | ⟨f, hg⟩
      · rw [he]
        exact h
      · rcases allocBlocks_counts s.pmm size with he | ⟨hmax, hused⟩
        · rw [he]
          exact h
        · exact h.granted hg hmax hused
    | freeBlock addr =>
      simp only [frameStep, serve] at next
      split at next
      · rename_i held
        cases next
        exact h.freed held
      · cases next

end Calls

section Refusals
variable {s : Frames} {p : Pmm} {size : UInt32}

def freeFrames (p : Pmm) : Nat := (List.range p.maxFrames.toNat).countP fun f => !p.bitmap.test f

theorem Accounted.free (h : Accounted s) :
    freeFrames s.pmm = (s.pmm.maxFrames - s.pmm.usedFrames).toNat := by
  have := Words.ones_clear s.pmm.bitmap s.pmm.maxFrames.toNat
  have hused := h.count
  rw [UInt32.toNat_sub_of_le _ _ (UInt32.le_iff_toNat_le.mpr h.used_le)]
  unfold freeFrames
  omega

theorem clearRun_free {n f : Nat} (h : clearRun p n f = true) : n ≤ freeFrames p := by
  obtain ⟨hle, hclear⟩ := clearRun_iff.mp h
  have hsub : List.range' f n ⊆ (List.range p.maxFrames.toNat).filter fun f => !p.bitmap.test f := by
    intro g hg
    obtain ⟨c, hc, rfl⟩ := mem_range'.mp hg
    rw [mem_filter, mem_range, Nat.one_mul, hclear c hc]
    exact ⟨by omega, rfl⟩
  have := List.Nodup.length_le_of_subset nodup_range' hsub
  rw [length_range', ← countP_eq_length_filter] at this
  exact this

theorem firstFrees_some {f : Nat} (h : memoryBitmapFirstFrees p size = some f) :
    p.bitmap.test f = false ∧ f < p.maxFrames.toNat := by
  have hs := p.searched_le
  unfold memoryBitmapFirstFrees at h
  split at h
  · cases h
  · split at h
    · obtain ⟨hlt, hclear, _⟩ := Words.scan_some h
      exact ⟨hclear, by omega⟩
    · obtain ⟨hlt, hclear, _⟩ := Words.scan_some h
      exact ⟨hclear, by omega⟩

/-- The search passes over no run of free frames. -/
theorem firstFrees_none (hz : size ≠ 0) (h : memoryBitmapFirstFrees p size = none) {f : Nat}
    (hf : f < p.maxFrames.toNat / 32 * 32) : clearRun p size.toNat f = false := by
  have hpos : 0 < size.toNat := Nat.pos_of_ne_zero fun he => hz (UInt32.toNat_inj.mp he)
  have hdiv : (p.maxFrames / 32).toNat = p.maxFrames.toNat / 32 := UInt32.toNat_div _ _
  by_contra hc
  have hc := Bool.not_eq_false _ ▸ hc
  have hclear := (clearRun_iff.mp hc).2 0 hpos
  rw [← hdiv] at hf
  rw [memoryBitmapFirstFrees, if_neg hz] at h
  split at h
  · cases Words.scan_none h hf hclear
  · have := Words.scan_none h hf hclear
    rw [clearRun_counts hpos hc] at this
    cases this

theorem frame_addr {f : Nat} (hz : f ≠ 0) (hf : f < p.maxFrames.toNat) :
    UInt32.ofNat f * pmmFrameSize ≠ 0 := by
  have hmax := p.max_le
  intro h
  have h := congrArg UInt32.toNat h
  rw [UInt32.toNat_mul, toNat_ofNat_lt (n := p.maxFrames) (by omega)] at h
  change f * 4096 % 2 ^ 32 = 0 at h
  omega

theorem Accounted.refused (h : Accounted s) (hz : size ≠ 0)
    (null : (pmmAllocBlocks s.pmm size).2 = 0) {f : Nat}
    (hf : f < s.pmm.maxFrames.toNat / 32 * 32) : clearRun s.pmm size.toNat f = false := by
  unfold pmmAllocBlocks at null
  split at null
  · rename_i few
    by_contra hc
    have := clearRun_free (not_eq_false _ ▸ hc)
    rw [h.free] at this
    have := lt_iff_toNat_lt.mp few
    omega
  · split at null
    · rename_i none
      exact firstFrees_none hz none hf
    · rename_i g found
      obtain ⟨hclear, hlt⟩ := firstFrees_some found
      refine absurd null (frame_addr (p := s.pmm) ?_ hlt)
      intro hg
      rw [hg, h.zero] at hclear
      cases hclear

theorem Accounted.start {memory : Words} {kernelEnd memLower memUpper : UInt32}
    {mmap : List MmapEntry} (map : balanced kernelEnd (pmmMaxFrames memLower memUpper) mmap) :
    Accounted { pmm := pmmInit memory kernelEnd memLower memUpper mmap } := by
  refine ⟨⟨by simp, by simp⟩, by simp, ?_, ?_⟩
  · have h0 : 0 ∈ regionFrames 0 kernelBoot := by decide
    simp [pmmInit, deinitRegion_test, h0]
  · simp only [init_max]
    exact init_accounted map

/-- From a balanced memory map on, `used_frames` is the number of frames in use, the
tests for it refuse only what there are too few free frames for, and so does the
search, as far as it goes. -/
theorem frames_accounted {memory : Words} {kernelEnd memLower memUpper : UInt32}
    {mmap : List MmapEntry} (map : balanced kernelEnd (pmmMaxFrames memLower memUpper) mmap)
    (run : Run frameStep (fun s e => countsRight s e = true)
      { pmm := pmmInit memory kernelEnd memLower memUpper mmap } s) :
    s.pmm.usedFrames.toNat = s.pmm.bitmap.ones s.pmm.maxFrames.toNat ∧
    (s.pmm.maxFrames ≤ s.pmm.usedFrames → freeFrames s.pmm = 0) ∧
    (∀ size, s.pmm.maxFrames - s.pmm.usedFrames < size → freeFrames s.pmm < size.toNat) ∧
    ∀ size ≠ 0, (pmmAllocBlocks s.pmm size).2 = 0 → ∀ f < s.pmm.maxFrames.toNat / 32 * 32,
      clearRun s.pmm size.toNat f = false := by
  have h : Accounted s := run.invariant (.start map) fun _ _ _ ha ok next => ha.step ok next
  refine ⟨h.count, ?_, ?_, ?_⟩
  · intro full
    rw [h.free, UInt32.toNat_sub_of_le _ _ (UInt32.le_iff_toNat_le.mpr h.used_le)]
    exact Nat.sub_eq_zero_of_le (UInt32.le_iff_toNat_le.mp full)
  · intro size few
    rw [h.free]
    exact lt_iff_toNat_lt.mp few
  · intro size hz null f hf
    exact h.refused hz null hf

end Refusals

theorem regionFrames_eq {addr length : UInt32} {f n : Nat} (hf : (addr / pmmFrameSize).toNat = f)
    (hn : (divCeil length pmmFrameSize).toNat = n) : regionFrames addr length = List.range' f n := by
  rw [regionFrames, hf, hn]

theorem smallReserved : reservedFrames 0xC0108000 512 = List.range' 0 256 ++ List.range' 256 9 := by
  have hlow : regionFrames 0 kernelBoot = List.range' 0 256 := regionFrames_eq (by decide) (by decide)
  have hkernel : regionFrames kernelBoot (0xC0108000 - kernelStart + divCeil 512 8) =
      List.range' 256 9 := regionFrames_eq (by decide) (by decide)
  rw [reservedFrames, hlow, hkernel]

theorem frames_accounted_small :
    ∃ s, Run frameStep (fun s e => countsRight s e = true)
        { pmm := pmmInit (fun _ => 0) 0xC0108000 640 1408 [⟨0, 0x200000, 1⟩] } s ∧
      s.pmm.usedFrames.toNat = s.pmm.bitmap.ones s.pmm.maxFrames.toNat := by
  have hmax : pmmMaxFrames 640 1408 = 512 := by decide +kernel
  have havailable : availableFrames [⟨0, 0x200000, 1⟩] = List.range' 0 512 := by
    have hregion : regionFrames 0 0x200000 = List.range' 0 512 :=
      regionFrames_eq (by decide) (by decide)
    simpa [availableFrames] using hregion
  have map : balanced 0xC0108000 (pmmMaxFrames 640 1408) [⟨0, 0x200000, 1⟩] := by
    rw [hmax]
    apply balanced_of_covered
    · rw [havailable]
      exact nodup_range'
    · intro f hf
      rw [havailable, mem_range'_1] at hf
      exact hf.2
    · rw [smallReserved, nodup_append]
      refine ⟨nodup_range', nodup_range', ?_⟩
      intro f hf g hg
      rw [mem_range'_1] at hf hg
      omega
    · intro f hf
      rw [smallReserved, mem_append, mem_range'_1, mem_range'_1] at hf
      rw [havailable, mem_range'_1]
      omega
  have hinit := init_max (fun _ => 0) 0xC0108000 640 1408 [⟨0, 0x200000, 1⟩]
  generalize hp : pmmInit (fun _ => 0) 0xC0108000 640 1408 [⟨0, 0x200000, 1⟩] = p at hinit ⊢
  have hkept : (pmmAllocBlock p).1.maxFrames = 512 := by
    rw [← hmax, ← hinit]
    rcases allocBlock_counts p with he | ⟨he, _⟩
    · rw [he]
    · exact he
  have hok : countsRight ⟨(pmmAllocBlock p).1, grant [] (pmmAllocBlock p).2 1⟩
      (.markUsedAddr 0x150000) = true := by
    simp only [countsRight, hkept]
    rfl
  have run : Run frameStep (fun s e => countsRight s e = true) { pmm := p } _ :=
    .tail (.tail .refl (e := .request .allocBlock) rfl rfl) hok rfl
  subst hp
  exact ⟨_, run, (frames_accounted map run).1⟩

/-- The area between 640 KiB and 1 MiB is not available. It is counted as used from
the start on, and once more when the frames below the kernel are reserved. -/
theorem reserved_counted_twice :
    ∃ s, Run frameStep (fun _ _ => True)
        { pmm := pmmInit (fun _ => 0) 0xC0108000 640 1408
            [⟨0, 0xA0000, 1⟩, ⟨0x100000, 0x100000, 1⟩] } s ∧
      s.pmm.maxFrames = 512 ∧ s.pmm.usedFrames.toNat = s.pmm.bitmap.ones 512 + 96 := by
  have hmax : pmmMaxFrames 640 1408 = 512 := by decide +kernel
  have havailable : availableFrames [⟨0, 0xA0000, 1⟩, ⟨0x100000, 0x100000, 1⟩] =
      List.range' 0 160 ++ List.range' 256 256 := by
    have hlow : regionFrames 0 0xA0000 = List.range' 0 160 := regionFrames_eq (by decide) (by decide)
    have hhigh : regionFrames 0x100000 0x100000 = List.range' 256 256 :=
      regionFrames_eq (by decide) (by decide)
    simp [availableFrames, hlow, hhigh]
  have h512 : (512 : UInt32).toNat = 512 := by decide
  have hremaining : remainingFrames 0xC0108000 512
      [⟨0, 0xA0000, 1⟩, ⟨0x100000, 0x100000, 1⟩] = 247 := by
    have hset : ((Finset.range 512).filter fun f =>
        (decide (f ∈ List.range' 0 160 ++ List.range' 256 256) &&
          !decide (f ∈ List.range' 0 256 ++ List.range' 256 9)) = true) = Finset.Ico 265 512 := by
      ext f
      simp only [mem_append, mem_range'_1, and_eq_true, not_eq_true',
        decide_eq_true_eq, decide_eq_false_iff_not, Finset.mem_filter, Finset.mem_range,
        Finset.mem_Ico]
      omega
    rw [remainingFrames, havailable, smallReserved, Words.countP_range_eq_card, h512, hset]
    exact Nat.card_Ico 265 512
  have hinit := init_max (fun _ => 0) 0xC0108000 640 1408
    [⟨0, 0xA0000, 1⟩, ⟨0x100000, 0x100000, 1⟩]
  have hused := init_used (fun _ => 0) 0xC0108000 640 1408
    [⟨0, 0xA0000, 1⟩, ⟨0x100000, 0x100000, 1⟩]
  have hones := init_ones (fun _ => 0) 0xC0108000 640 1408
    [⟨0, 0xA0000, 1⟩, ⟨0x100000, 0x100000, 1⟩]
  rw [hmax] at hinit
  rw [hmax, hremaining] at hones
  rw [hmax, havailable, smallReserved] at hused
  simp only [length_append, length_range'] at hused
  have hvalue : (512 - UInt32.ofNat (160 + 256) + UInt32.ofNat (256 + 9)).toNat = 361 := by decide +kernel
  have hcount (p : Pmm) (max : p.maxFrames = 512) (used : p.usedFrames.toNat = 361)
      (ones : p.bitmap.ones 512 + 247 = 512) : ∃ s, Run frameStep (fun _ _ => True) { pmm := p } s ∧
        s.pmm.maxFrames = 512 ∧ s.pmm.usedFrames.toNat = s.pmm.bitmap.ones 512 + 96 := by
    refine ⟨{ pmm := p }, .refl, max, ?_⟩
    simp only
    omega
  rw [h512] at hones
  exact hcount _ hinit ((congrArg UInt32.toNat hused).trans hvalue) hones

end Mos.Memory
