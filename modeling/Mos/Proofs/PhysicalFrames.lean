import Mos.Machine.Run
import Mos.Memory.Pmm

namespace Mos.Memory
open Machine UInt32 List Bool

def freeAt (b : Words) (s c : Nat) : Bool := !memoryBitmapTest b (UInt32.ofNat (s + c))

/-- There are `n` free frames in a row from frame `s` on, below `max_frames`. -/
def clearRun (p : Pmm) (n s : Nat) : Bool :=
  (List.range n).all (freeAt p.bitmap s) && decide (s + n ≤ p.maxFrames.toNat)

/-- From the free frame `s` on there are enough free frames for the count, though
not in a row or not below `max_frames`: one of the first `size` is in use and the
frame after them is free, or all are free and some are beyond the end. -/
def miscounts (p : Pmm) (size : UInt32) (s : Nat) : Bool :=
  freeAt p.bitmap s 0 && (size == 0xffffffff ||
    (List.range size.toNat).countP (fun c => !freeAt p.bitmap s c) == 1 &&
      freeAt p.bitmap s size.toNat ||
    (List.range size.toNat).all (freeAt p.bitmap s) && decide (p.maxFrames.toNat < s + size.toNat))

/-- A run of free frames comes before every frame from which the search miscounts. -/
def findsRun (s : Frames) : Request → Bool
  | .allocBlocks size =>
    decide (s.pmm.maxFrames - s.pmm.usedFrames < size) ||
    (List.range ((s.pmm.maxFrames / 32).toNat * 32)).all fun f =>
      !miscounts s.pmm size f || (List.range f).any (clearRun s.pmm size.toNat)
  | _ => true

variable {f : Nat} {size addr : UInt32} {p q : Pmm} {s t : Frames}

theorem toNat_ofNat_lt {n : UInt32} (h : f ≤ n.toNat) : (UInt32.ofNat f).toNat = f :=
  toNat_ofNat_of_lt' (Nat.lt_of_le_of_lt h n.toNat_lt)

/-- The innermost loop compares `size` with the number of free frames it looks at. -/
theorem countFrees_eq (b : Words) (s : Nat) (rounds c : Nat)
    (hf : f < size.toNat) :
    countFrees b (UInt32.ofNat s) size rounds (UInt32.ofNat c) (UInt32.ofNat f) =
      decide (size.toNat ≤ f + (List.range rounds).countP fun i => freeAt b s (c + i)) := by
  induction rounds generalizing c f with
  | zero => simpa [countFrees] using hf
  | succ rounds ih =>
    have hs : (fun i => freeAt b s (c + i)) ∘ Nat.succ = fun i => freeAt b s (c + 1 + i) := by
      funext i
      simp [Nat.add_comm, Nat.add_left_comm]
    have ha : UInt32.ofNat s + UInt32.ofNat c = UInt32.ofNat (s + c) := (ofNat_add s c).symm
    have hc (n : Nat) : UInt32.ofNat n + 1 = UInt32.ofNat (n + 1) := (ofNat_add n 1).symm
    rw [range_succ_eq_map, countP_cons, countP_map, hs, countFrees, ha, hc, hc]
    cases ht : memoryBitmapTest b (UInt32.ofNat (s + c)) with
    | true =>
      have hu : freeAt b s c = false := congrArg not ht
      have hn : UInt32.ofNat f ≠ size := by
        rintro rfl
        rw [toNat_ofNat'] at hf
        omega
      simp only [if_true, if_neg hn, ih (c + 1) hf, Nat.add_zero, hu, false_eq_true, if_false]
    | false =>
      have hu : freeAt b s c = true := congrArg not ht
      have hv := toNat_ofNat_lt (f := f + 1) (n := size) hf
      by_cases he : f + 1 = size.toNat
      · have hn : UInt32.ofNat (f + 1) = size := UInt32.toNat_inj.mp (hv.trans he)
        simp only [Bool.false_eq_true, if_false, if_pos hn, Nat.add_zero, hu, if_true]
        exact (decide_eq_true (by omega)).symm
      · have hn : UInt32.ofNat (f + 1) ≠ size := fun hn => he (hv.symm.trans (congrArg _ hn))
        have hl : f + 1 < size.toNat := by omega
        simp only [false_eq_true, if_false, if_neg hn, ih (c + 1) hl, Nat.add_zero, hu, if_true]
        exact decide_eq_decide.mpr (by omega)

theorem countFrees_start (b : Words) (s : Nat) (h : 0 < size.toNat) (rounds : Nat) :
    countFrees b (UInt32.ofNat s) size rounds 0 0 =
      decide (size.toNat ≤ (List.range rounds).countP (freeAt b s)) := by
  have := countFrees_eq b s rounds 0 h
  simpa using this

theorem freeAt_lt {b : Words} {s c : Nat} (h : s + c < 2 ^ 32) : freeAt b s c = !b.test (s + c) := by
  unfold freeAt memoryBitmapTest
  rw [toNat_ofNat_of_lt' h]

theorem Pmm.max_le (p : Pmm) : p.maxFrames.toNat ≤ 0x100000 := UInt32.le_iff_toNat_le.mp p.bounded

theorem Pmm.searched_le (p : Pmm) : (p.maxFrames / 32).toNat * 32 ≤ p.maxFrames.toNat := by
  exact Nat.div_mul_le_self _ _

/-- The search tests every frame of a run, all of them below the end. -/
theorem clearRun_iff {n s : Nat} :
    clearRun p n s = true ↔ s + n ≤ p.maxFrames.toNat ∧ ∀ c < n, p.bitmap.test (s + c) = false := by
  have hm := p.max_le
  simp only [clearRun, and_eq_true, all_eq_true, mem_range, decide_eq_true_eq]
  constructor
  · rintro ⟨hc, hl⟩
    refine ⟨hl, fun c hn => ?_⟩
    have := hc c hn
    rw [freeAt_lt (by omega)] at this
    simpa using this
  · rintro ⟨hl, hc⟩
    refine ⟨fun c hn => ?_, hl⟩
    rw [freeAt_lt (by omega), hc c hn]
    rfl

theorem clearRun_counts {s : Nat} (hz : 0 < size.toNat)
    (h : clearRun p size.toNat s = true) :
    countFrees p.bitmap (UInt32.ofNat s) size (countRounds size) 0 0 = true := by
  rw [countFrees_start p.bitmap s hz, decide_eq_true_eq]
  have ha : (List.range size.toNat).countP (freeAt p.bitmap s) = size.toNat := by
    have hall := (and_eq_true _ _ ▸ h).1
    rw [all_eq_true] at hall
    simpa using countP_eq_length.mpr hall
  have hr : size.toNat ≤ countRounds size := by
    have := size.toNat_lt
    unfold countRounds
    split <;> omega
  calc size.toNat = (List.range size.toNat).countP (freeAt p.bitmap s) := ha.symm
    _ ≤ _ := (range_sublist.mpr hr).countP_le

/-- Whatever else is accepted, the search miscounts. -/
theorem accepted_start {s : Nat} (hz : 0 < size.toNat)
    (free : freeAt p.bitmap s 0 = true)
    (h : countFrees p.bitmap (UInt32.ofNat s) size (countRounds size) 0 0 = true) :
    clearRun p size.toNat s = true ∨ miscounts p size s = true := by
  unfold miscounts clearRun
  by_cases hm : size = 0xffffffff
  · simp [hm, free]
  · rw [countFrees_start p.bitmap s hz, decide_eq_true_eq, countRounds, if_neg hm] at h
    rcases good_window h with hall | ⟨hone, hlast⟩
    · have ha : (List.range size.toNat).all (freeAt p.bitmap s) = true := by simpa using hall
      simp only [ha, free, Bool.true_and, Bool.or_eq_true, decide_eq_true_eq]
      omega
    · right
      simp [free, hone, hlast]

structure Granted (p : Pmm) (f n : Nat) (q : Pmm) (addr : UInt32) : Prop where
  pos : 0 < n
  clear : clearRun p n f = true
  bits : ∀ g, q.bitmap.test g = (decide (g ∈ List.range' f n) || p.bitmap.test g)
  addr : addr = UInt32.ofNat f * pmmFrameSize

theorem firstFree_clear (h : memoryBitmapFirstFree p = some f) :
    clearRun p 1 f = true := by
  obtain ⟨hl, hf, -⟩ := Words.scan_some h
  have := p.searched_le
  refine clearRun_iff.mpr ⟨by omega, ?_⟩
  intro c hc
  obtain rfl : c = 0 := by omega
  exact hf

theorem allocBlock_granted (p : Pmm) :
    pmmAllocBlock p = (p, 0) ∨
      ∃ f, Granted p f (UInt32.toNat 1) (pmmAllocBlock p).1 (pmmAllocBlock p).2 := by
  unfold pmmAllocBlock
  split
  · exact .inl rfl
  · split
    · exact .inl rfl
    · rename_i f hf
      have hc := firstFree_clear hf
      have hl := (clearRun_iff.mp hc).1
      refine .inr ⟨f, Nat.one_pos, hc, fun g => ?_, rfl⟩
      change (p.bitmap.set (UInt32.ofNat f).toNat).test g = _
      rw [toNat_ofNat_lt (n := p.maxFrames) (by omega), Words.test_set]
      simp [eq_comm]

/-- The search returns a run of free frames when one comes before every frame from
which it miscounts. -/
theorem firstFrees_clear
    (passed : ¬s.pmm.maxFrames - s.pmm.usedFrames < size)
    (ok : findsRun s (.allocBlocks size) = true) (h : memoryBitmapFirstFrees s.pmm size = some f) :
    0 < size.toNat ∧ clearRun s.pmm size.toNat f = true := by
  unfold memoryBitmapFirstFrees at h
  split at h
  · cases h
  · rename_i hz
    have hz : 0 < size.toNat := Nat.pos_of_ne_zero fun he => hz (UInt32.toNat_inj.mp he)
    refine ⟨hz, ?_⟩
    split at h
    · rename_i h1
      rw [h1]
      exact firstFree_clear h
    · obtain ⟨hl, hf, hc, hb⟩ := Words.scan_some h
      have hm := s.pmm.max_le
      have hs := s.pmm.searched_le
      have free : freeAt s.pmm.bitmap f 0 = true := by
        rw [freeAt_lt (by omega)]
        exact congrArg not hf
      rcases accepted_start hz free hc with hr | hr
      · exact hr
      · simp only [findsRun, or_eq_true, decide_eq_true_eq, all_eq_true, mem_range,
          not_eq_true', any_eq_true] at ok
        rcases (ok.resolve_left passed) f hl with hn | ⟨r, hr', hclear⟩
        · rw [hr] at hn
          cases hn
        · have := hb r hr' ((clearRun_iff.mp hclear).2 0 hz)
          rw [clearRun_counts hz hclear] at this
          cases this

theorem setAll_eq {b : Words} {n : Nat} (h : f + n ≤ 2 ^ 32) :
    (List.range n).foldl (fun b i => memoryBitmapSet b (UInt32.ofNat f + UInt32.ofNat i)) b =
      (List.range' f n).foldl Words.set b := by
  rw [List.range'_eq_map_range, foldl_map]
  refine foldl_ext _ _ b ?_
  intro b i hi
  have := mem_range.mp hi
  rw [memoryBitmapSet, ← ofNat_add, toNat_ofNat_of_lt' (show f + i < 2 ^ 32 by omega)]

theorem allocBlocks_granted
    (ok : findsRun s (.allocBlocks size) = true) :
    pmmAllocBlocks s.pmm size = (s.pmm, 0) ∨ ∃ f, Granted s.pmm f size.toNat
      (pmmAllocBlocks s.pmm size).1 (pmmAllocBlocks s.pmm size).2 := by
  unfold pmmAllocBlocks
  split
  · exact .inl rfl
  · rename_i passed
    split
    · exact .inl rfl
    · rename_i f hf
      obtain ⟨hz, hc⟩ := firstFrees_clear passed ok hf
      have hl := (clearRun_iff.mp hc).1
      have hm := s.pmm.max_le
      refine .inr ⟨f, hz, hc, fun g => ?_, rfl⟩
      rw [setAll_eq (by omega), Words.test_setAll]

theorem Granted.fresh {n g : Nat} (h : Granted p f n q addr)
    (hg : g ∈ List.range' f n) : p.bitmap.test g = false ∧ g < p.maxFrames.toNat := by
  obtain ⟨hl, hc⟩ := clearRun_iff.mp h.clear
  obtain ⟨c, hn, rfl⟩ := mem_range'.mp hg
  rw [Nat.one_mul]
  exact ⟨hc c hn, by omega⟩

theorem Granted.held (h : Granted p f size.toNat q addr)
    (held : List (List Nat)) :
    grant held addr size = held ∨ grant held addr size = List.range' f size.toNat :: held := by
  have hl := (clearRun_iff.mp h.clear).1
  have hm := p.max_le
  have hp := h.pos
  have hd : (UInt32.ofNat f * pmmFrameSize / pmmFrameSize).toNat = f := by
    rw [UInt32.toNat_div, UInt32.toNat_mul, toNat_ofNat_lt (n := p.maxFrames) (by omega)]
    change f * 4096 % 2 ^ 32 / 4096 = f
    omega
  unfold grant
  split
  · exact .inl rfl
  · rw [h.addr, hd]
    exact .inr rfl

structure Exclusive (s : Frames) : Prop where
  used : ∀ f ∈ s.held.flatten, s.pmm.bitmap.test f = true
  nodup : s.held.flatten.Nodup

theorem Exclusive.granted (hs : Exclusive s)
    (h : Granted s.pmm f size.toNat q addr) : Exclusive ⟨q, grant s.held addr size⟩ := by
  have hu : ∀ g ∈ s.held.flatten, q.bitmap.test g = true := by
    intro g hg
    rw [h.bits, hs.used g hg, Bool.or_true]
  rcases h.held s.held with he | he
  · rw [he]
    exact ⟨hu, hs.nodup⟩
  · rw [he]
    refine ⟨?_, ?_⟩
    · intro g hg
      rcases List.mem_append.mp (List.flatten_cons ▸ hg) with hg | hg
      · rw [h.bits, decide_eq_true hg, Bool.true_or]
      · exact hu g hg
    · rw [List.flatten_cons, List.nodup_append]
      refine ⟨List.nodup_range', hs.nodup, ?_⟩
      rintro g hg _ hg' rfl
      have := (h.fresh hg).1
      rw [hs.used g hg'] at this
      cases this

theorem flatten_release (frame : Nat) (held : List (List Nat)) :
    (release frame held).flatten = held.flatten.erase frame := by
  induction held with
  | nil => rfl
  | cons a rest ih =>
    unfold release
    split
    · rename_i hm
      rw [flatten_cons, flatten_cons, erase_append_left _ hm]
    · rename_i hm
      rw [flatten_cons, flatten_cons, erase_append_right _ hm, ih]

theorem length_release (frame : Nat) (held : List (List Nat)) :
    (release frame held).length = held.length := by
  induction held with
  | nil => rfl
  | cons a rest ih =>
    unfold release
    split <;> simp [ih]

theorem Exclusive.freed (hs : Exclusive s) (addr : UInt32) :
    Exclusive ⟨pmmFreeBlock s.pmm addr, release (addr / pmmFrameSize).toNat s.held⟩ := by
  refine ⟨?_, ?_⟩
  · intro g hg
    rw [flatten_release, hs.nodup.mem_erase_iff] at hg
    change (Words.unset _ _).test g = true
    rw [Words.test_unset, hs.used g hg.2]
    simpa using Ne.symm hg.1
  · rw [flatten_release]
    exact hs.nodup.erase _

theorem serve_freeBlock (h : serve s (.freeBlock addr) = some t) :
    t = ⟨pmmFreeBlock s.pmm addr, release (addr / pmmFrameSize).toNat s.held⟩ := by
  simp only [serve] at h
  split at h
  · exact (Option.some.inj h).symm
  · cases h

/-- A request leaves no frame with two owners. -/
theorem Exclusive.step {e : Request} (hs : Exclusive s) (ok : findsRun s e = true)
    (h : serve s e = some t) : Exclusive t := by
  cases e with
  | allocBlock =>
    cases h
    rcases allocBlock_granted s.pmm with he | ⟨f, hg⟩
    · rw [he]
      exact hs
    · exact hs.granted hg
  | allocBlocks size =>
    cases h
    rcases allocBlocks_granted ok with he | ⟨f, hg⟩
    · rw [he]
      exact hs
    · exact hs.granted hg
  | freeBlock addr =>
    obtain rfl := serve_freeBlock h
    exact hs.freed addr

theorem Granted.adds {a : List Nat}
    {held : List (List Nat)} (h : Granted p f size.toNat q addr)
    (ha : grant held addr size = a :: held) :
    ∀ g ∈ a, p.bitmap.test g = false ∧ g < p.maxFrames.toNat := by
  rcases h.held held with he | he
  · exact absurd (he.symm.trans ha) (cons_ne_self a held).symm
  · obtain rfl := (List.cons.inj (he.symm.trans ha)).1
    exact fun g hg => h.fresh hg

theorem serve_fresh {e : Request} {a : List Nat} (ok : findsRun s e = true)
    (h : serve s e = some t) (ha : t.held = a :: s.held) :
    ∀ f ∈ a, s.pmm.bitmap.test f = false ∧ f < s.pmm.maxFrames.toNat := by
  have hn : s.held ≠ a :: s.held := (cons_ne_self a s.held).symm
  cases e with
  | allocBlock =>
    cases h
    rcases allocBlock_granted s.pmm with he | ⟨f, hg⟩
    · rw [he] at ha
      exact absurd ha hn
    · exact hg.adds ha
  | allocBlocks size =>
    cases h
    rcases allocBlocks_granted ok with he | ⟨f, hg⟩
    · rw [he] at ha
      exact absurd ha hn
    · exact hg.adds ha
  | freeBlock addr =>
    obtain rfl := serve_freeBlock h
    have hl := congrArg List.length ha
    rw [length_release, length_cons] at hl
    omega

/-- From any bitmap on, outstanding allocations have no frame in common, and every
range of frames handed out was free and lies below `max_frames`. -/
theorem allocations_exclusive {p : Pmm} {s : Frames}
    (run : Run serve (fun s e => findsRun s e = true) { pmm := p } s) :
    s.held.Pairwise List.Disjoint ∧
    ∀ e t a, findsRun s e = true → serve s e = some t → t.held = a :: s.held →
      ∀ f ∈ a, s.pmm.bitmap.test f = false ∧ f < s.pmm.maxFrames.toNat := by
  have hs : Exclusive s := run.invariant ⟨by simp, by simp⟩ fun _ _ _ ha ok h => ha.step ok h
  exact ⟨(nodup_flatten.mp hs.nodup).2, fun e t a ok h ha => serve_fresh ok h ha⟩

def smallPmm : Pmm where
  bitmap := fun _ => 1
  maxFrames := 32
  usedFrames := 1

theorem allocations_exclusive_small :
    ∃ s t, Run serve (fun s e => findsRun s e = true) { pmm := smallPmm } s ∧
      serve s (.allocBlocks 3) = some t ∧ t.held = [4, 5, 6] :: s.held ∧
      s.held.Pairwise List.Disjoint ∧
      ∀ f ∈ [4, 5, 6], s.pmm.bitmap.test f = false ∧ f < s.pmm.maxFrames.toNat := by
  obtain ⟨s, run, ok, hany⟩ := replay_reaches serve (fun s e => findsRun s e = true)
    { pmm := smallPmm } [.allocBlock, .allocBlocks 2, .freeBlock 4096]
    (P := fun s => findsRun s (.allocBlocks 3) = true ∧
      (serve s (.allocBlocks 3)).any fun t => t.held = [4, 5, 6] :: s.held) (by decide +kernel)
  obtain ⟨t, ht, hh⟩ := (Option.any_eq_true _ _).mp hany
  have hh := of_decide_eq_true hh
  have hx := allocations_exclusive run
  exact ⟨s, t, run, ht, hh, hx.1, hx.2 _ t _ ok ht hh⟩

/-- With frames 1 and 3 free and frame 2 held, a request for two frames counts
frames 1 and 3, and returns frames 1 and 2. -/
theorem allocations_overlap :
    ∃ s, Run serve (fun _ _ => True) { pmm := smallPmm } s ∧ ¬s.held.Pairwise List.Disjoint := by
  obtain ⟨s, run, hs⟩ := replay_reaches serve (fun _ _ => True) { pmm := smallPmm }
    [.allocBlock, .allocBlock, .allocBlock, .freeBlock 4096, .freeBlock 12288, .allocBlocks 2]
    (P := fun s => s.held = [[1, 2], [], [2], []]) (by decide +kernel)
  refine ⟨s, run, fun hp => ?_⟩
  rw [hs] at hp
  simp [List.Disjoint] at hp

end Mos.Memory
