import Mos.Proofs.PageTables
import Mos.Proofs.PhysicalFrames

namespace Mos.Vmm
open Machine Memory List UInt32

def pageMaps (p g k : Nat) : List (UInt32 × UInt32) :=
  (List.range k).map fun i => (UInt32.ofNat (4096 * (p + i)), UInt32.ofNat (4096 * (g + i)))

theorem pageMaps_succ (p g k : Nat) :
    pageMaps p g (k + 1) =
      (UInt32.ofNat (4096 * p), UInt32.ofNat (4096 * g)) :: pageMaps (p + 1) (g + 1) k := by
  have hf (i : Nat) : (UInt32.ofNat (4096 * (p + (i + 1))), UInt32.ofNat (4096 * (g + (i + 1)))) =
      (UInt32.ofNat (4096 * (p + 1 + i)), UInt32.ofNat (4096 * (g + 1 + i))) := by
    rw [Nat.add_comm i, ← Nat.add_assoc, ← Nat.add_assoc]
  simp only [pageMaps, range_succ_eq_map, map_cons, map_map, Function.comp_def,
    Nat.succ_eq_add_one, Nat.add_zero, hf]

/-- The `k` pages from `p` on have been mapped to the frames from `g` on. -/
structure Mapped (t : Tables) (m m' : Kernel) (p k g : Nat) : Prop where
  walks : Walks m' t
  rest : m' = { m with phys := m'.phys, maps := m'.maps }
  maps : m'.maps = (pageMaps p g k).reverse ++ m.maps
  new : ∀ i < k, (m'.phys.word (t.slot (p + i))).toNat = 4096 * (g + i) + 3
  old : ∀ q, 768 ≤ q / 1024 → q / 1024 < 1023 → (q < p ∨ p + k ≤ q) →
    m'.phys.word (t.slot q) = m.phys.word (t.slot q)

section
variable {m : Kernel} {t : Tables}

theorem add_frame {x : UInt32} {n : Nat} (hx : x.toNat = 4096 * n) (hn : n + 1 < 2 ^ 20) :
    (x + pmmFrameSize).toNat = 4096 * (n + 1) := by
  have h := UInt32.toNat_add x pmmFrameSize
  have hf : pmmFrameSize.toNat = 4096 := rfl
  omega

variable {p g k : Nat} {a z n : UInt32}

/-- One round of the loop maps one page. -/
theorem mapPages_step (w : Walks m t) {n : Nat} {pa : UInt32} (ha : a.toNat = 4096 * p)
    (hpa : pa.toNat = 4096 * g) (lo : 832 ≤ p / 1024) (hi : p / 1024 < 1023)
    (below : 4096 * p < z.toNat) :
    ∃ m₁, mapPages m z (n + 1) a pa =
        mapPages m₁ z n (a + pmmFrameSize) (pa + pmmFrameSize) ∧ Mapped t m m₁ p 1 g := by
  have hlt : a < z := by
    rw [lt_iff_toNat_lt, ha]
    exact below
  have hdiv : a.toNat / 4096 = p := by omega
  have hpdi : a.toNat / 4194304 = p / 1024 := by omega
  have hmap := vmmMapAddress_home w a pa 3 (hpdi ▸ (by omega)) (hpdi ▸ hi)
  rw [hdiv] at hmap
  refine ⟨{ m with phys := m.phys.setWord (t.slot p) (pa ||| 3), maps := (a, pa) :: m.maps }, ?_,
    ⟨?_, rfl, ?_, ?_, ?_⟩⟩
  · conv_lhs => unfold mapPages
    rw [if_pos hlt]
    have hflags : i86PtePresent ||| i86PteWritable = 3 := rfl
    simp only [bind, Except.bind, hflags, hmap]
  · exact (w.setSlot lo hi (pa ||| 3)).agree rfl rfl (.refl _ _ _) (.refl _ _ _) (.refl _ _ _)
  · have h₁ : UInt32.ofNat (4096 * p) = a := by rw [← ha, UInt32.ofNat_toNat]
    have h₂ : UInt32.ofNat (4096 * g) = pa := by rw [← hpa, UInt32.ofNat_toNat]
    rw [pageMaps_succ, h₁, h₂]
    rfl
  · intro i hi
    obtain rfl : i = 0 := by omega
    rw [Nat.add_zero, Nat.add_zero, Bytes.word_setWord, or_flags (by omega) (by decide), hpa]
    rfl
  · intro q hq₁ hq₂ hq
    exact Bytes.word_setWord_of _ (w.slots_apart ⟨by omega, hi⟩ ⟨hq₁, hq₂⟩ (by omega))

theorem Mapped.trans {m₁ m₂ : Kernel} (h₁ : Mapped t m m₁ p 1 g)
    (h₂ : Mapped t m₁ m₂ (p + 1) k (g + 1)) (lo : 768 ≤ p / 1024) (hi : p / 1024 < 1023) :
    Mapped t m m₂ p (k + 1) g := by
  refine ⟨h₂.walks, ?_, ?_, fun i hi' => ?_, fun q hq₁ hq₂ hq => ?_⟩
  · rw [h₂.rest, h₁.rest]
  · rw [h₂.maps, h₁.maps, pageMaps_succ p g k, pageMaps_succ p g 0]
    simp [pageMaps]
  · obtain _ | i := i
    · rw [h₂.old _ (by simpa using lo) (by simpa using hi) (by omega)]
      exact h₁.new 0 (by omega)
    · have := h₂.new i (by omega)
      rw [Nat.add_assoc, Nat.add_comm 1, Nat.add_assoc g, Nat.add_comm 1] at this
      exact this
  · rw [h₂.old q hq₁ hq₂ (by omega), h₁.old q hq₁ hq₂ (by omega)]

theorem mapPages_spec (w : Walks m t) {n : Nat} {q : UInt32} (hn : k < n)
    (ha : a.toNat = 4096 * p) (hpa : q.toNat = 4096 * g ∨ k = 0) (lo : 832 ≤ p / 1024)
    (hi : p + k ≤ 1023 * 1024) (room : g + k ≤ 2 ^ 20)
    (above : z.toNat ≤ 4096 * (p + k)) (below : 4096 * (p + k) < z.toNat + 4096) :
    ∃ m' page', mapPages m z n a q = .ok (m', page') ∧ page'.toNat = 4096 * (p + k) ∧
      Mapped t m m' p k g := by
  induction k generalizing m n p g a q with
  | zero =>
    obtain _ | n := n
    · omega
    · refine ⟨m, a, ?_, by omega, ⟨w, rfl, rfl, fun i hi => by omega, fun q _ _ _ => rfl⟩⟩
      have : ¬a < z := by
        rw [lt_iff_toNat_lt]
        omega
      rw [mapPages, if_neg this]
      rfl
  | succ k ih =>
    obtain _ | n := n
    · omega
    · have hg := hpa.resolve_right (by omega)
      obtain ⟨m₁, hstep, hm₁⟩ := mapPages_step (n := n) (z := z) w ha hg lo (by omega)
        (by omega)
      have hpa' : (q + pmmFrameSize).toNat = 4096 * (g + 1) ∨ k = 0 := by
        by_cases hk : k = 0
        · exact .inr hk
        · exact .inl (add_frame hg (by omega))
      obtain ⟨m', page', hok, hend, hm⟩ := ih hm₁.walks (n := n) (p := p + 1) (g := g + 1)
        (a := a + pmmFrameSize) (by omega) (add_frame ha (by omega)) hpa' (by omega) (by omega)
        (by omega) (by omega) (by omega)
      refine ⟨m', page', hstep.trans hok, by omega, hm₁.trans hm (by omega) (by omega)⟩

/-- The allocation that a call of `sbrk` asks for succeeds: it returns frames in a row
that were free. -/
def allocates (m : Kernel) (n : UInt32) : Bool :=
  n == 0 || decide (n ≤ m.kernelRemainingFromLastUsed) ||
    let size := divCeil (n - m.kernelRemainingFromLastUsed) pmmFrameSize
    let addr := (pmmAllocBlocks m.pmm size).2
    addr != 0 && clearRun m.pmm size.toNat (addr.toNat / 4096)

def pageAbove (a : Nat) : Nat := (a + 4095) / 4096

/-- What `sbrk` keeps: the pages below the break are mapped, page `q` to the frame `F q`. -/
structure Ready (m : Kernel) (t : Tables) (F : Nat → Nat) : Prop where
  walks : Walks m t
  used : ∀ f, t.Holds f → m.pmm.bitmap.test f = true
  low : 0xD0000000 ≤ m.kernelHeapCurrent.toNat
  top : m.kernelHeapCurrent.toNat ≤ 0xFFC00000
  remaining : m.kernelHeapCurrent.toNat + m.kernelRemainingFromLastUsed.toNat =
    4096 * pageAbove m.kernelHeapCurrent.toNat
  backed : ∀ q, 0xD0000 ≤ q → q < pageAbove m.kernelHeapCurrent.toNat → Backed t m.phys q (F q)

/-- The mappings and the request of a call that adds the pages from `a` to `b`. -/
structure Adds (F : Nat → Nat) (a b : Nat) (maps requests : List (UInt32 × UInt32)) : Prop where
  le : a ≤ b
  maps : maps.reverse = (List.range' a (b - a)).map fun q =>
    (UInt32.ofNat (4096 * q), UInt32.ofNat (4096 * F q))
  requests : requests = [] ∧ b = a ∨
    ∃ g, requests = [(UInt32.ofNat (b - a), UInt32.ofNat (4096 * g))] ∧ g + (b - a) ≤ 2 ^ 20 ∧
      ∀ q, a ≤ q → q < b → F q = g + (q - a)

theorem allocBlocks_used (p : Pmm) (size : UInt32) {f : Nat} (h : p.bitmap.test f = true) :
    (pmmAllocBlocks p size).1.bitmap.test f = true := by
  have hset (l : List UInt32) (b : Words) (hb : b.test f = true) :
      (l.foldl (fun b i => memoryBitmapSet b i) b).test f = true := by
    induction l generalizing b with
    | nil => exact hb
    | cons i l ih =>
      refine ih _ ?_
      simp only [memoryBitmapSet, Words.test_set, hb, Bool.or_true]
  unfold pmmAllocBlocks
  split
  · exact h
  · split
    · exact h
    · rename_i frame _
      have := hset ((List.range size.toNat).map fun i => UInt32.ofNat frame + UInt32.ofNat i) _ h
      rw [foldl_map] at this
      exact this

theorem allocBlocks_aligned (p : Pmm) (size : UInt32) :
    (pmmAllocBlocks p size).2.toNat % 4096 = 0 := by
  have hmul (x : UInt32) : (x * pmmFrameSize).toNat % 4096 = 0 := by
    rw [UInt32.toNat_mul]
    have hf : pmmFrameSize.toNat = 4096 := rfl
    rw [hf]
    omega
  unfold pmmAllocBlocks
  split
  · rfl
  · split
    · rfl
    · exact hmul _

theorem pageMaps_eq {F : Nat → Nat} (hF : ∀ q, p ≤ q → q < p + k → F q = g + (q - p)) :
    pageMaps p g k = (List.range' p k).map fun q =>
      (UInt32.ofNat (4096 * q), UInt32.ofNat (4096 * F q)) := by
  rw [pageMaps, List.range'_eq_map_range, map_map]
  refine map_congr_left fun i hi => ?_
  have hi := mem_range.mp hi
  have := hF (p + i) (by omega) (by omega)
  rw [Function.comp_apply, this, Nat.add_sub_cancel_left]

theorem allocates_frames (hn : n ≠ 0) (more : ¬n ≤ m.kernelRemainingFromLastUsed)
    (alloc : allocates m n = true)
    (hz : z = divCeil (n - m.kernelRemainingFromLastUsed) pmmFrameSize) :
    ∃ g, (pmmAllocBlocks m.pmm z).2.toNat = 4096 * g ∧ g + z.toNat ≤ 2 ^ 20 ∧
      ∀ i < z.toNat, m.pmm.bitmap.test (g + i) = false := by
  simp only [allocates, beq_iff_eq, hn, more, Bool.or_eq_true, false_or,
    Bool.and_eq_true, decide_false, Bool.false_eq_true, bne_iff_ne, ← hz] at alloc
  obtain ⟨hle, hfree⟩ := clearRun_iff.mp alloc.2
  have hal := allocBlocks_aligned m.pmm z
  have hm := m.pmm.max_le
  exact ⟨_, by omega, by omega, hfree⟩

theorem extendHeap_more {F : Nat → Nat} (r : Ready m t F) (hn : n ≠ 0)
    (more : ¬n ≤ m.kernelRemainingFromLastUsed)
    (top : m.kernelHeapCurrent.toNat + n.toNat ≤ 0xFFC00000) (alloc : allocates m n = true)
    (maps : m.maps = []) (requests : m.requests = []) :
    ∃ m' F', extendHeap m n = .ok m' ∧ m'.kernelHeapCurrent = m.kernelHeapCurrent ∧
      (∀ q, q < pageAbove m.kernelHeapCurrent.toNat → F' q = F q) ∧
      Adds F' (pageAbove m.kernelHeapCurrent.toNat)
        (pageAbove (m.kernelHeapCurrent.toNat + n.toNat)) m'.maps m'.requests ∧
      Ready { m' with kernelHeapCurrent := m.kernelHeapCurrent + n } t F' := by
  have hlow := r.low
  have hrem := r.remaining
  have hlt := UInt32.lt_iff_toNat_lt.mp (UInt32.not_le.mp more)
  have hsum : (m.kernelHeapCurrent + n).toNat = m.kernelHeapCurrent.toNat + n.toNat := by
    rw [UInt32.toNat_add]
    omega
  have hsub : (n - m.kernelRemainingFromLastUsed).toNat =
      n.toNat - m.kernelRemainingFromLastUsed.toNat :=
    UInt32.toNat_sub_of_le _ _ (UInt32.le_of_lt (UInt32.not_le.mp more))
  obtain ⟨z, hz⟩ : ∃ z, z = divCeil (n - m.kernelRemainingFromLastUsed) pmmFrameSize := ⟨_, rfl⟩
  have hsize : z.toNat = (n.toNat - m.kernelRemainingFromLastUsed.toNat + 4095) / 4096 := by
    rw [hz, divCeil_toNat _ (by decide), hsub]
    rfl
  obtain ⟨g, haddr, hroom, hfree⟩ := allocates_frames hn more alloc hz
  have hstart : (divCeil m.kernelHeapCurrent pmmFrameSize * pmmFrameSize).toNat =
      4096 * pageAbove m.kernelHeapCurrent.toNat := by
    rw [UInt32.toNat_mul, divCeil_toNat _ (by decide)]
    have hf : pmmFrameSize.toNat = 4096 := rfl
    rw [hf]
    unfold pageAbove
    omega
  have hend : pageAbove (m.kernelHeapCurrent.toNat + n.toNat) =
      pageAbove m.kernelHeapCurrent.toNat + z.toNat := by
    unfold pageAbove at *
    omega
  generalize hP : pageAbove m.kernelHeapCurrent.toNat = P at *
  obtain ⟨m', page', hok, hpage', hm⟩ := mapPages_spec (k := z.toNat) (n := 2 ^ 20 + 1) (p := P)
    (g := g) (z := m.kernelHeapCurrent + n) (q := (pmmAllocBlocks m.pmm z).2)
    (m := { m with
      pmm := (pmmAllocBlocks m.pmm z).1
      requests := (z, (pmmAllocBlocks m.pmm z).2) :: m.requests })
    (r.walks.agree rfl rfl (.refl _ _ _) (.refl _ _ _) (.refl _ _ _)) (by omega) hstart (.inl haddr)
    (by omega) (by omega) hroom (by omega) (by omega)
  have hcur : m'.kernelHeapCurrent = m.kernelHeapCurrent := by rw [hm.rest]
  have hpmm : m'.pmm = (pmmAllocBlocks m.pmm z).1 := by rw [hm.rest]
  have hrest : (page' - (m.kernelHeapCurrent + n)).toNat =
      4096 * (P + z.toNat) - (m.kernelHeapCurrent.toNat + n.toNat) := by
    rw [UInt32.toNat_sub_of_le _ _ (UInt32.le_iff_toNat_le.mpr (by omega)), hpage', hsum]
  have hnew (q : Nat) (hq : ¬q < P) : (if q < P then F q else g + (q - P)) = g + (q - P) := if_neg hq
  refine ⟨{ m' with kernelRemainingFromLastUsed := page' - (m.kernelHeapCurrent + n) },
    fun q => if q < P then F q else g + (q - P), ?_, hcur, fun q hq => if_pos hq, ?_, ?_⟩
  · unfold extendHeap
    rw [if_neg more]
    simp only [bind, Except.bind]
    rw [← hz, hok]
    rfl
  · rw [hend]
    refine ⟨by omega, ?_, .inr ⟨g, ?_, ?_, fun q hq _ => hnew q (by omega)⟩⟩
    · rw [Nat.add_sub_cancel_left, hm.maps, maps, append_nil, reverse_reverse]
      exact pageMaps_eq fun q hq _ => hnew q (by omega)
    · have hr : m'.requests = (z, (pmmAllocBlocks m.pmm z).2) :: m.requests := by rw [hm.rest]
      simp only [hr, requests, Nat.add_sub_cancel_left, UInt32.ofNat_toNat, ← haddr]
    · rw [Nat.add_sub_cancel_left]
      exact hroom
  · refine ⟨?_, fun f hf => ?_, ?_, ?_, ?_, fun q hq₁ hq₂ => ?_⟩
    · exact hm.walks.agree rfl rfl (.refl _ _ _) (.refl _ _ _) (.refl _ _ _)
    · simp only [hpmm]
      exact allocBlocks_used _ _ (r.used f hf)
    · simp only [hsum]
      omega
    · simp only [hsum]
      exact top
    · simp only [hsum, hrest, hend]
      omega
    · simp only [hsum, hend] at hq₂
      by_cases hq : q < P
      · have hb := r.backed q hq₁ (hP ▸ hq)
        have hold := hm.old q (by omega) (by omega) (.inl hq)
        simp only [hq, if_true]
        exact ⟨hold ▸ hb.enabled, hold ▸ hb.frame, hb.clean⟩
      · rw [hnew q hq]
        have hw := hm.new (q - P) (by omega)
        rw [Nat.add_sub_cancel' (by omega)] at hw
        refine ⟨?_, ?_, fun hc => ?_⟩
        · rw [isPageEnabled_iff, hw]
          omega
        · rw [frameOf, hw]
          omega
        · have hu := r.used _ hc
          rw [hfree _ (by omega)] at hu
          cases hu

theorem extendHeap_spec {F : Nat → Nat} (r : Ready m t F) (hn : n ≠ 0)
    (top : m.kernelHeapCurrent.toNat + n.toNat ≤ 0xFFC00000) (alloc : allocates m n = true)
    (maps : m.maps = []) (requests : m.requests = []) :
    ∃ m' F', extendHeap m n = .ok m' ∧ m'.kernelHeapCurrent = m.kernelHeapCurrent ∧
      (∀ q, q < pageAbove m.kernelHeapCurrent.toNat → F' q = F q) ∧
      Adds F' (pageAbove m.kernelHeapCurrent.toNat)
        (pageAbove (m.kernelHeapCurrent.toNat + n.toNat)) m'.maps m'.requests ∧
      Ready { m' with kernelHeapCurrent := m.kernelHeapCurrent + n } t F' := by
  have hlow := r.low
  have hrem := r.remaining
  have hsum : (m.kernelHeapCurrent + n).toNat = m.kernelHeapCurrent.toNat + n.toNat := by
    rw [UInt32.toNat_add]
    omega
  by_cases more : n ≤ m.kernelRemainingFromLastUsed
  · unfold extendHeap
    rw [if_pos more]
    have hle := le_iff_toNat_le.mp more
    have hsub : (m.kernelRemainingFromLastUsed - n).toNat =
        m.kernelRemainingFromLastUsed.toNat - n.toNat := UInt32.toNat_sub_of_le _ _ more
    have hsame : pageAbove (m.kernelHeapCurrent.toNat + n.toNat) =
        pageAbove m.kernelHeapCurrent.toNat := by
      unfold pageAbove at *
      omega
    refine ⟨_, F, rfl, rfl, fun _ _ => rfl, ?_, ?_⟩
    · rw [hsame]
      refine ⟨le_rfl, ?_, .inl ⟨requests, rfl⟩⟩
      simp [maps]
    · refine ⟨?_, r.used, ?_, ?_, ?_, ?_⟩
      · exact r.walks.agree rfl rfl (.refl _ _ _) (.refl _ _ _) (.refl _ _ _)
      · simp only [hsum]
        omega
      · simp only [hsum]
        omega
      · simp only [hsum, hsub, hsame]
        omega
      · simp only [hsum, hsame]
        exact r.backed
  · exact extendHeap_more r hn more top alloc maps requests

theorem Ready.stored {F : Nat → Nat} {p : Bytes} (r : Ready m t F)
    (same : ∀ x, t.Holds (x / 4096) → p x = m.phys x) : Ready { m with phys := p } t F := by
  refine ⟨r.walks.clean same, r.used, r.low, r.top, r.remaining, fun q hq₁ hq₂ => ?_⟩
  have htop := r.top
  simp only [pageAbove] at hq₂
  exact (r.backed q hq₁ hq₂).same (by omega) (by omega) same

theorem sbrk_spec {F : Nat → Nat} (r : Ready m t F)
    (top : m.kernelHeapCurrent.toNat + n.toNat ≤ 0xFFC00000) (alloc : allocates m n = true)
    (maps : m.maps = []) (requests : m.requests = []) :
    ∃ m' F', sbrk m n = .ok (m', m.kernelHeapCurrent) ∧
      m'.kernelHeapCurrent.toNat = m.kernelHeapCurrent.toNat + n.toNat ∧
      (∀ q, q < pageAbove m.kernelHeapCurrent.toNat → F' q = F q) ∧
      Adds F' (pageAbove m.kernelHeapCurrent.toNat)
        (pageAbove (m.kernelHeapCurrent.toNat + n.toNat)) m'.maps m'.requests ∧
      Ready m' t F' := by
  unfold sbrk
  by_cases hn : n = 0
  · subst hn
    exact ⟨m, F, rfl, rfl, fun _ _ => rfl, ⟨le_rfl, by simp [maps], .inl ⟨requests, rfl⟩⟩, r⟩
  · rw [if_neg hn]
    obtain ⟨m₁, F', hext, hcur, hF, hadds, hready⟩ := extendHeap_spec r hn top alloc maps requests
    have hlow := r.low
    have hsum : (m.kernelHeapCurrent + n).toNat = m.kernelHeapCurrent.toNat + n.toNat := by
      rw [UInt32.toNat_add]
      omega
    obtain ⟨p, hset, htab, _, _⟩ := memset_spec hready.walks 0 n.toNat F' (d := m.kernelHeapCurrent)
      (by omega) top fun a h₁ h₂ => hready.backed _ (by omega) (by
        simp only [hsum, pageAbove]
        omega)
    refine ⟨_, F', ?_, ?_, hF, ?_, hready.stored htab⟩
    · simp only [bind, Except.bind]
      rw [hext]
      simp only [hcur]
      rw [hset]
      rfl
    · exact hsum
    · exact hadds

end

/-- The calls of a run of `sbrk`, which have added the pages up to `hi`. -/
inductive Logged (F : Nat → Nat) : List Extension → Nat → Prop where
  | nil : Logged F [] 0xD0000000
  | snoc {cs : List Extension} {hi : Nat} (c : Extension) (before : Logged F cs hi)
      (base : c.base.toNat = hi)
      (adds : Adds F (pageAbove hi) (pageAbove (hi + c.n.toNat)) c.maps.reverse c.requests) :
      Logged F (cs ++ [c]) (hi + c.n.toNat)

theorem Adds.congr {F F' : Nat → Nat} {a b : Nat} {maps requests : List (UInt32 × UInt32)}
    (h : Adds F a b maps requests) (hF : ∀ q < b, F' q = F q) : Adds F' a b maps requests := by
  refine ⟨h.le, ?_, ?_⟩
  · rw [h.maps]
    refine map_congr_left fun q hq => ?_
    obtain ⟨i, hi, rfl⟩ := mem_range'.mp hq
    rw [hF _ (by omega)]
  · refine h.requests.imp_right fun hg => ?_
    obtain ⟨g, hr, hroom, hq⟩ := hg
    exact ⟨g, hr, hroom, fun q h₁ h₂ => (hF q h₂).trans (hq q h₁ h₂)⟩

theorem Logged.congr {F F' : Nat → Nat} {cs : List Extension} {hi : Nat} (h : Logged F cs hi)
    (hF : ∀ q < pageAbove hi, F' q = F q) : Logged F' cs hi := by
  induction h with
  | nil => exact .nil
  | snoc c _ base adds ih =>
    refine .snoc c (ih fun q hq => hF q ?_) base (adds.congr hF)
    have := adds.le
    omega

def handedOut (cs : List Extension) : Nat := (cs.map fun c => c.n.toNat).sum

theorem Logged.top {F : Nat → Nat} {cs : List Extension} {hi : Nat} (h : Logged F cs hi) :
    hi = 0xD0000000 + handedOut cs := by
  induction h with
  | nil => rfl
  | snoc c _ _ _ ih =>
    simp only [handedOut, map_append, sum_append] at ih ⊢
    simp
    omega

/-- The calls together map every page once, in order. -/
theorem Logged.maps {F : Nat → Nat} {cs : List Extension} {hi : Nat} (h : Logged F cs hi) :
    0xD0000 ≤ pageAbove hi ∧
    cs.flatMap Extension.maps = (List.range' 0xD0000 (pageAbove hi - 0xD0000)).map fun q =>
      (UInt32.ofNat (4096 * q), UInt32.ofNat (4096 * F q)) := by
  induction h with
  | nil => exact ⟨by decide, rfl⟩
  | @snoc cs hi c _ base adds ih =>
    have hm := adds.maps
    have hle := adds.le
    refine ⟨by omega, ?_⟩
    have hsplit : pageAbove (hi + c.n.toNat) - 0xD0000 =
        (pageAbove hi - 0xD0000) + (pageAbove (hi + c.n.toNat) - pageAbove hi) := by omega
    have hstart : 0xD0000 + (pageAbove hi - 0xD0000) = pageAbove hi := by omega
    rw [flatMap_append, ih.2, hsplit, ← List.range'_append_1, hstart, map_append, ← hm]
    simp

def Extension.Hands (c : Extension) (f : Nat) : Prop :=
  ∃ r ∈ c.requests, r.2.toNat / 4096 ≤ f ∧ f < r.2.toNat / 4096 + r.1.toNat

theorem Adds.count {F : Nat → Nat} {a b : Nat} {maps requests : List (UInt32 × UInt32)}
    (h : Adds F a b maps requests) : (requests.map fun r => r.1.toNat).sum = maps.length := by
  have hl : maps.length = b - a := by
    rw [← length_reverse, h.maps]
    simp
  rcases h.requests with ⟨hr, he⟩ | ⟨g, hr, hroom, _⟩
  · simp [hr, hl, he]
  · have : (UInt32.ofNat (b - a)).toNat = b - a := toNat_ofNat_of_lt' (by
      simp only [UInt32.size]
      omega)
    simp [hr, hl, this]

theorem Adds.hands {F : Nat → Nat} {a b q : Nat} {c : Extension}
    (h : Adds F a b c.maps.reverse c.requests) (h₁ : a ≤ q) (h₂ : q < b) :
    (UInt32.ofNat (4096 * q), UInt32.ofNat (4096 * F q)) ∈ c.maps ∧ c.Hands (F q) := by
  have hm := h.maps
  rw [reverse_reverse] at hm
  constructor
  · rw [hm]
    exact mem_map_of_mem (mem_range'_1.mpr ⟨h₁, by omega⟩)
  · rcases h.requests with ⟨_, he⟩ | ⟨g, hr, hroom, hq⟩
    · omega
    · refine ⟨_, by rw [hr]; exact mem_singleton_self _, ?_⟩
      have hb : (UInt32.ofNat (b - a)).toNat = b - a := toNat_ofNat_of_lt' (by
        simp only [UInt32.size]
        omega)
      have hg : (UInt32.ofNat (4096 * g)).toNat = 4096 * g := toNat_ofNat_of_lt' (by
        simp only [UInt32.size]
        omega)
      simp only [hb, hg, hq q h₁ h₂]
      omega

section
variable {F : Nat → Nat} {cs : List Extension} {hi : Nat}

theorem Logged.hands {q : Nat} (h : Logged F cs hi) (h₁ : 0xD0000 ≤ q) (h₂ : q < pageAbove hi) :
    ∃ c ∈ cs, (UInt32.ofNat (4096 * q), UInt32.ofNat (4096 * F q)) ∈ c.maps ∧ c.Hands (F q) := by
  induction h with
  | nil =>
    simp only [pageAbove] at h₂
    omega
  | @snoc cs hi c _ _ adds ih =>
    by_cases hq : q < pageAbove hi
    · obtain ⟨d, hd, hmem, hhand⟩ := ih hq
      exact ⟨d, by simp [hd], hmem, hhand⟩
    · exact ⟨c, by simp, adds.hands (by omega) h₂⟩

theorem Logged.counts (h : Logged F cs hi) :
    ∀ c ∈ cs, (c.requests.map fun r => r.1.toNat).sum = c.maps.length := by
  induction h with
  | nil => simp
  | snoc c _ _ adds ih =>
    intro d hd
    rcases mem_append.mp hd with hd | hd
    · exact ih d hd
    · obtain rfl := mem_singleton.mp hd
      rw [adds.count, length_reverse]

theorem Logged.bases (h : Logged F cs hi) :
    ∀ i c, cs[i]? = some c → c.base.toNat = 0xD0000000 + handedOut (cs.take i) := by
  induction h with
  | nil => simp
  | @snoc cs hi c before base _ ih =>
    intro i d hd
    by_cases hi : i < cs.length
    · rw [List.getElem?_append_left hi] at hd
      rw [take_append_of_le_length (by omega)]
      exact ih i d hd
    · rw [List.getElem?_append_right (by omega)] at hd
      obtain hlast | ⟨j, hj⟩ : i = cs.length ∨ ∃ j, i - cs.length = j + 1 :=
        (Nat.eq_zero_or_pos (i - cs.length)).imp (by omega) fun hp => ⟨i - cs.length - 1, by omega⟩
      · rw [hlast, Nat.sub_self] at hd
        cases hd
        rw [hlast, take_left, base, before.top]
      · rw [hj] at hd
        cases hd

theorem Logged.stops (h : Logged F cs hi) : ∀ c ∈ cs, c.base.toNat + c.n.toNat ≤ hi := by
  induction h with
  | nil => simp
  | snoc c _ base _ ih =>
    intro d hd
    rcases mem_append.mp hd with hd | hd
    · have := ih d hd
      omega
    · obtain rfl := mem_singleton.mp hd
      omega

theorem Logged.disjoint (h : Logged F cs hi) :
    cs.Pairwise fun c d => c.base.toNat + c.n.toNat ≤ d.base.toNat := by
  induction h with
  | nil => exact .nil
  | snoc c before base _ ih =>
    refine pairwise_append.mpr ⟨ih, pairwise_singleton _ _, fun d hd e he => ?_⟩
    obtain rfl := mem_singleton.mp he
    rw [base]
    exact before.stops d hd

theorem Logged.once {q : Nat} (h : Logged F cs hi) (h₁ : 0xD0000 ≤ q) (h₂ : q < pageAbove hi)
    (top : hi ≤ 0xFFC00000) :
    (cs.flatMap Extension.maps).filter (fun e => e.1.toNat / 4096 == q) =
      [(UInt32.ofNat (4096 * q), UInt32.ofNat (4096 * F q))] := by
  have hm := h.maps.2
  have hpages : (List.range' 0xD0000 (pageAbove hi - 0xD0000)).filter
      (fun p => (UInt32.ofNat (4096 * p)).toNat / 4096 == q) = [q] := by
    have hcongr : (List.range' 0xD0000 (pageAbove hi - 0xD0000)).filter
        (fun p => (UInt32.ofNat (4096 * p)).toNat / 4096 == q) =
        (List.range' 0xD0000 (pageAbove hi - 0xD0000)).filter (fun p => p == q) := by
      refine filter_congr fun p hp => ?_
      have hp := mem_range'_1.mp hp
      have : (UInt32.ofNat (4096 * p)).toNat = 4096 * p := toNat_ofNat_of_lt' (by
        simp only [UInt32.size, pageAbove] at *
        omega)
      rw [this, Nat.mul_div_cancel_left _ (by decide)]
    rw [hcongr, filter_beq, count_eq_one_of_mem (nodup_range' (h := by decide))
      (mem_range'_1.mpr ⟨h₁, by omega⟩)]
    rfl
  rw [hm, filter_map]
  simp only [Function.comp_def]
  rw [hpages]
  rfl

end

/-- The kernel before the first call of `sbrk`: its tables are set up and in use. -/
structure Booted (m : Kernel) (t : Tables) : Prop where
  walks : Walks m t
  used : ∀ f, t.Holds f → m.pmm.bitmap.test f = true
  current : m.kernelHeapCurrent = kernelHeapBottom
  remaining : m.kernelRemainingFromLastUsed = 0

/-- What `sbrk` is for: the regions of its calls follow each other, the pages below the
break are mapped once and to the frames of their call, and no frame is left over. -/
structure Growth.Kept (s : Growth) : Prop where
  consecutive : ∀ i c, s.calls[i]? = some c →
    c.base.toNat = kernelHeapBottom.toNat + handedOut (s.calls.take i)
  current : s.kernel.kernelHeapCurrent.toNat = kernelHeapBottom.toNat + handedOut s.calls
  disjoint : s.calls.Pairwise fun c d => c.base.toNat + c.n.toNat ≤ d.base.toNat
  mapped : ∀ q, kernelHeapBottom.toNat ≤ 4096 * q → 4096 * q < s.kernel.kernelHeapCurrent.toNat →
    ∃ c ∈ s.calls, ∃ f, c.Hands f ∧
      (UInt32.ofNat (4096 * q), UInt32.ofNat (4096 * f)) ∈ c.maps ∧
      (s.calls.flatMap Extension.maps).filter (fun e => e.1.toNat / 4096 == q) =
        [(UInt32.ofNat (4096 * q), UInt32.ofNat (4096 * f))] ∧
      ∀ va : UInt32, va.toNat / 4096 = q →
        s.kernel.translate va = some (f * 4096 + va.toNat % 4096)
  counts : ∀ c ∈ s.calls, (c.requests.map fun r => r.1.toNat).sum = c.maps.length
  remaining : (s.kernel.kernelHeapCurrent.toNat + s.kernel.kernelRemainingFromLastUsed.toNat) % 4096
      = 0 ∧ s.kernel.kernelRemainingFromLastUsed.toNat < 4096

structure Grown (s : Growth) (t : Tables) (F : Nat → Nat) : Prop where
  ready : Ready s.kernel t F
  logged : Logged F s.calls s.kernel.kernelHeapCurrent.toNat

section
variable {s : Growth} {t : Tables} {F : Nat → Nat}

theorem Grown.start {m : Kernel} (h : Booted m t) (F : Nat → Nat) : Grown ⟨m, []⟩ t F := by
  have hcur : m.kernelHeapCurrent.toNat = 0xD0000000 := by rw [h.current]; rfl
  have hrem : m.kernelRemainingFromLastUsed.toNat = 0 := by rw [h.remaining]; rfl
  refine ⟨⟨h.walks, h.used, hcur.ge, by simp only [hcur]; omega, ?_, fun q h₁ h₂ => ?_⟩, ?_⟩
  · simp only [hcur, hrem, pageAbove]
  · simp only [hcur, pageAbove] at h₂
    omega
  · simp only [hcur]
    exact .nil

/-- An extension of the heap adds its pages to those mapped before. -/
theorem Grown.step {n : UInt32} (h : Grown s t F)
    (top : s.kernel.kernelHeapCurrent.toNat + n.toNat ≤ 0xFFC00000)
    (alloc : allocates s.kernel n = true) :
    ∃ s' F', sbrkStep s n = some s' ∧ Grown s' t F' := by
  have hr : Ready { s.kernel with maps := [], requests := [] } t F :=
    ⟨h.ready.walks.agree rfl rfl (.refl _ _ _) (.refl _ _ _) (.refl _ _ _), h.ready.used, h.ready.low,
      h.ready.top, h.ready.remaining, h.ready.backed⟩
  obtain ⟨m', F', hok, hcur, hF, hadds, hready⟩ := sbrk_spec hr top alloc rfl rfl
  refine ⟨⟨m', s.calls ++ [⟨s.kernel.kernelHeapCurrent, n, m'.requests, m'.maps.reverse⟩]⟩, F', ?_,
    hready, ?_⟩
  · unfold sbrkStep
    rw [hok]
  · simp only [hcur]
    refine .snoc ⟨s.kernel.kernelHeapCurrent, n, m'.requests, m'.maps.reverse⟩ (h.logged.congr hF) rfl ?_
    simp only [reverse_reverse]
    exact hadds

/-- The conclusion that is stated of every run. -/
theorem Grown.kept (h : Grown s t F) : s.Kept := by
  have hbottom : kernelHeapBottom.toNat = 0xD0000000 := rfl
  have htop := h.ready.top
  have hrem := h.ready.remaining
  refine ⟨h.logged.bases, h.logged.top, h.logged.disjoint, fun q h₁ h₂ => ?_, h.logged.counts, ?_⟩
  · have hq₁ : 0xD0000 ≤ q := by omega
    have hq₂ : q < pageAbove s.kernel.kernelHeapCurrent.toNat := by
      omega
    obtain ⟨c, hc, hmem, hhand⟩ := h.logged.hands hq₁ hq₂
    refine ⟨c, hc, F q, hhand, hmem, h.logged.once hq₁ hq₂ htop, fun va hva => ?_⟩
    refine Backed.translate h.ready.walks ?_ (by omega) (by omega)
    rw [hva]
    exact h.ready.backed q hq₁ hq₂
  · simp only [pageAbove] at hrem
    omega

end

/-- As long as the break stays below the page table window, every call of `sbrk` whose
allocation succeeds returns, and all that `sbrk` is for holds throughout. -/
theorem kernel_break_kept {m : Kernel} {t : Tables} (boot : Booted m t) {s : Growth}
    (h : Run sbrkStep (fun s n => allocates s.kernel n = true ∧
      s.kernel.kernelHeapCurrent.toNat + n.toNat ≤ pageTableBase.toNat) ⟨m, []⟩ s) :
    s.Kept ∧ ∀ n, allocates s.kernel n = true →
      s.kernel.kernelHeapCurrent.toNat + n.toNat ≤ pageTableBase.toNat →
      ∃ s', sbrkStep s n = some s' := by
  have hinv : ∃ F, Grown s t F := by
    refine h.invariant (I := fun s => ∃ F, Grown s t F) ⟨fun _ => 0, .start boot _⟩ ?_
    intro a n b ha hok hstep
    obtain ⟨F, ha⟩ := ha
    obtain ⟨s', F', hs', hg⟩ := ha.step hok.2 hok.1
    rw [hs'] at hstep
    cases hstep
    exact ⟨F', hg⟩
  obtain ⟨F, hg⟩ := hinv
  refine ⟨hg.kept, fun n alloc top => ?_⟩
  obtain ⟨s', _, hs', _⟩ := hg.step top alloc
  exact ⟨s', hs'⟩

/-- The words of a small kernel: the directory in frame 1, the tables behind it, and
the page of the directory itself in the first table. -/
def bootWord (k : Nat) : Nat :=
  if 1024 + 768 ≤ k ∧ k < 1024 + 1023 then (k - 1024 - 766) * 4096 + 3
  else if k = 1024 + 1023 ∨ k = 2048 + 1 then 4096 + 3
  else 0

def bootKernel : Kernel where
  phys x := UInt8.ofNat (bootWord (x / 4) / 256 ^ (x % 4))
  cr3 := 0x1000
  currentDir := 0xC0001000
  pmm := { bitmap := fun w => if w < 9 then 0xffffffff else 0, maxFrames := 0x40000, usedFrames := 288 }
  kernelHeapCurrent := kernelHeapBottom
  kernelRemainingFromLastUsed := 0

def bootTables : Tables := ⟨1, 1, fun i => i - 766⟩

theorem bootKernel_word (k : Nat) : (bootKernel.phys.word (4 * k)).toNat = bootWord k := by
  have hlt : bootWord k < 2 ^ 32 := by
    unfold bootWord
    split
    · omega
    · split <;> omega
  have h₀ : 4 * k / 4 = k ∧ 4 * k % 4 = 0 := by omega
  have h₁ : (4 * k + 1) / 4 = k ∧ (4 * k + 1) % 4 = 1 := by omega
  have h₂ : (4 * k + 2) / 4 = k ∧ (4 * k + 2) % 4 = 2 := by omega
  have h₃ : (4 * k + 3) / 4 = k ∧ (4 * k + 3) % 4 = 3 := by omega
  simp only [Bytes.word, bootKernel, h₀, h₁, h₂, h₃]
  simp
  omega

theorem bootKernel_entry {a k : Nat} (ha : a = 4 * k) {f : Nat} (hk : bootWord k = f * 4096 + 3) :
    isPageEnabled (bootKernel.phys.word a) = true ∧ frameOf (bootKernel.phys.word a) = f * 4096 := by
  have hw := bootKernel_word k
  rw [ha, isPageEnabled_iff, frameOf, hw, hk]
  omega

theorem bootKernel_walks : Walks bootKernel bootTables := by
  have hdir (i : Nat) (h₁ : 768 ≤ i) (h₂ : i < 1023) : bootWord (1024 + i) = (i - 766) * 4096 + 3 := by
    rw [bootWord, if_pos (by omega)]
    omega
  have hhome : bootKernel.currentDir.toNat = 0xC0001000 := rfl
  refine ⟨rfl, ?_, fun i h₁ h₂ => ?_, fun i j _ _ _ _ hij => ?_, fun i _ _ => ?_, fun i _ _ => ?_, ?_, ?_,
    fun i h₁ h₂ => ?_⟩
  · exact bootKernel_entry (k := 1024 + 1023) (f := 1) (by decide) (by decide)
  · refine bootKernel_entry (k := 1024 + i) ?_ (hdir i h₁ h₂)
    simp only [bootTables]
    omega
  · simp only [bootTables] at hij
    omega
  · simp only [bootTables]
    omega
  · simp only [bootTables]
    omega
  · omega
  · exact bootKernel_entry (k := 2048 + 1) (f := 1) (by decide) (by decide)
  · refine (bootKernel_entry (k := 1024 + i) ?_ (hdir i h₁ h₂)).1
    simp only [bootTables]
    omega

theorem bootKernel_test (f : Nat) : bootKernel.pmm.bitmap.test f = decide (f < 288) := by
  simp only [Words.test_eq, bootKernel]
  by_cases hf : f < 288
  · have hw : f / 32 < 9 := by omega
    simp only [hw, hf, if_true, decide_true]
    exact (Nat.testBit_two_pow_sub_one 32 (f % 32)).trans (decide_eq_true (Nat.mod_lt f (by decide)))
  · have hw : ¬f / 32 < 9 := by omega
    simp [hw, hf]

theorem bootKernel_booted : Booted bootKernel bootTables := by
  refine ⟨bootKernel_walks, fun f hf => ?_, rfl, rfl⟩
  rw [bootKernel_test, decide_eq_true_eq]
  rcases hf with h | h | ⟨i, h₁, h₂, h⟩
  · simp only [bootTables] at h
    omega
  · simp only [bootTables] at h
    omega
  · simp only [bootTables] at h
    omega

theorem kernel_break_kept_first : ∃ s : Growth, Run sbrkStep (fun s n =>
      allocates s.kernel n = true ∧
      s.kernel.kernelHeapCurrent.toNat + n.toNat ≤ pageTableBase.toNat) ⟨bootKernel, []⟩ s ∧
    s.calls.length = 1 ∧ s.Kept := by
  have hok : allocates bootKernel 100 = true ∧
      bootKernel.kernelHeapCurrent.toNat + UInt32.toNat 100 ≤ pageTableBase.toNat := by
    decide +kernel
  obtain ⟨s, hs⟩ := (kernel_break_kept bootKernel_booted .refl).2 100 hok.1 hok.2
  have hrun : Run sbrkStep (fun s n => allocates s.kernel n = true ∧
      s.kernel.kernelHeapCurrent.toNat + n.toNat ≤ pageTableBase.toNat) ⟨bootKernel, []⟩ s :=
    .tail .refl hok hs
  refine ⟨s, hrun, ?_, (kernel_break_kept bootKernel_booted hrun).1⟩
  unfold sbrkStep at hs
  split at hs
  · rw [← Option.some.inj hs]
    rfl
  · cases hs

theorem bootKernel_clear : clearRun bootKernel.pmm (UInt32.toNat 0x30000) 288 = true := by
  refine clearRun_iff.mpr ⟨by decide, fun c _ => ?_⟩
  rw [bootKernel_test, decide_eq_false_iff_not]
  omega

theorem bootKernel_frees : memoryBitmapFirstFrees bootKernel.pmm 0x30000 = some 288 := by
  have hcount := clearRun_counts (by decide) bootKernel_clear
  unfold memoryBitmapFirstFrees
  rw [if_neg (by decide), if_neg (by decide), Words.scan_eq, List.find?_range_eq_some]
  refine ⟨?_, mem_range.mpr (by decide), fun j hj => ?_⟩
  · rw [hcount, bootKernel_test]
    rfl
  · rw [bootKernel_test, decide_eq_true hj]
    rfl

theorem extendHeap_wraps {m : Kernel} {n z pa : UInt32} {pmm : Pmm}
    (more : ¬n ≤ m.kernelRemainingFromLastUsed) (wraps : m.kernelHeapCurrent + n = 0)
    (hz : divCeil (n - m.kernelRemainingFromLastUsed) pmmFrameSize = z)
    (halloc : pmmAllocBlocks m.pmm z = (pmm, pa)) :
    extendHeap m n = .ok { m with
      pmm
      requests := (z, pa) :: m.requests
      kernelRemainingFromLastUsed := divCeil m.kernelHeapCurrent pmmFrameSize * pmmFrameSize } := by
  have hmap (k : Kernel) (page : UInt32) : mapPages k 0 (2 ^ 20 + 1) page pa = .ok (k, page) := by
    have : ¬page < 0 := by simp
    rfl
  unfold extendHeap
  rw [if_neg more]
  simp only [bind, Except.bind]
  rw [hz, halloc]
  simp only [wraps, hmap, pure, Except.pure, sub_zero]

theorem allocates_of {m : Kernel} {n z pa : UInt32} {pmm : Pmm}
    (hz : divCeil (n - m.kernelRemainingFromLastUsed) pmmFrameSize = z)
    (halloc : pmmAllocBlocks m.pmm z = (pmm, pa)) (hpa : pa ≠ 0)
    (clear : clearRun m.pmm z.toNat (pa.toNat / 4096) = true) : allocates m n = true := by
  simp [allocates, hz, halloc, hpa, clear]

theorem sbrk_faults {m m' : Kernel} {n : UInt32} (hn : n ≠ 0) (hext : extendHeap m n = .ok m')
    (unmapped : m'.translate m.kernelHeapCurrent = none) : sbrk m n = .error .fault := by
  obtain ⟨k, hk⟩ : ∃ k, n.toNat = k + 1 := by
    refine ⟨n.toNat - 1, ?_⟩
    have : n.toNat ≠ 0 := fun h => hn ((UInt32.toNat_inj (b := 0)).mp h)
    omega
  have hstore : Kernel.storeByte { m' with kernelHeapCurrent := m'.kernelHeapCurrent + n }
      m.kernelHeapCurrent 0 = .error .fault := by
    have htr : Kernel.translate { m' with kernelHeapCurrent := m'.kernelHeapCurrent + n }
        m.kernelHeapCurrent = none := unmapped
    simp only [Kernel.storeByte, htr]
    rfl
  unfold sbrk
  rw [if_neg hn]
  simp only [bind, Except.bind]
  rw [hext]
  simp only
  rw [hk, memset, hstore]
  rfl

/-- A call of `sbrk` that takes the break to the end of the address space. The limit
of its loop is 0 then: no page is mapped, though the frames have been taken, and the
call does not return. -/
theorem break_wraps : ∃ m t n, Booted m t ∧ allocates m n = true ∧
    (∃ m', extendHeap m n = .ok m' ∧ (m'.requests.map fun r => r.1.toNat).sum = 0x30000 ∧
      m'.maps.length = 0) ∧ sbrk m n = .error .fault := by
  have hsize : divCeil (0x30000000 - bootKernel.kernelRemainingFromLastUsed) pmmFrameSize =
      0x30000 := by decide
  have halloc : ∃ pmm, pmmAllocBlocks bootKernel.pmm 0x30000 = (pmm, 288 * pmmFrameSize) := by
    unfold pmmAllocBlocks
    rw [if_neg (by decide), bootKernel_frees]
    exact ⟨_, rfl⟩
  obtain ⟨pmm, halloc⟩ := halloc
  have hext := extendHeap_wraps (n := 0x30000000) (by decide) (by decide) hsize halloc
  refine ⟨bootKernel, bootTables, 0x30000000, bootKernel_booted,
    allocates_of hsize halloc (by decide) bootKernel_clear, ⟨_, hext, rfl, rfl⟩,
    sbrk_faults (by decide) hext ?_⟩
  have hcur : bootKernel.kernelHeapCurrent.toNat = 0xD0000000 := rfl
  have hword := bootKernel_word (66 * 1024)
  have hslot : bootTables.slot (0xD0000000 / 4096) = 4 * (66 * 1024) := by decide
  refine (bootKernel_walks.translate (by omega) (by omega)).trans (if_neg ?_)
  decide

end Mos.Vmm
