import Mos.Machine.BlockList
import Mos.Memory.Heap

namespace Mos.Memory
open Machine KernelMemory UInt32 List

def kernelLayout : Layout := ⟨blockMagic, 0x2000000⟩

section Access
variable {s : Arena} {p v : UInt32} {b : Block}

theorem Arena.holds_iff {n : Nat} :
    s.holds p n = true ↔ 0xD0000000 ≤ p.toNat ∧ p.toNat + n ≤ s.kernelHeapCurrent.toNat := by
  simp [Arena.holds, kernelHeapBottom, le_iff_toNat_le]

theorem load_at {a : Nat} (hp : p.toNat = a) (lo : 0xD0000000 ≤ a)
    (hi : a + 4 ≤ s.kernelHeapCurrent.toNat) : load s p = .ok (s.mem.word a) := by
  subst hp
  exact if_pos (Arena.holds_iff.mpr ⟨lo, hi⟩)

theorem loadByte_at {a : Nat} (hp : p.toNat = a) (lo : 0xD0000000 ≤ a)
    (hi : a + 1 ≤ s.kernelHeapCurrent.toNat) : loadByte s p = .ok (s.mem a) := by
  subst hp
  exact if_pos (Arena.holds_iff.mpr ⟨lo, hi⟩)

theorem store_at {a : Nat} (hp : p.toNat = a) (lo : 0xD0000000 ≤ a)
    (hi : a + 4 ≤ s.kernelHeapCurrent.toNat) :
    store s p v = .ok ⟨s.mem.setWord a v, s.kernelHeapCurrent⟩ := by
  subst hp
  exact if_pos (Arena.holds_iff.mpr ⟨lo, hi⟩)

theorem storeByte_at {a : Nat} {x : UInt8} (hp : p.toNat = a) (lo : 0xD0000000 ≤ a)
    (hi : a + 1 ≤ s.kernelHeapCurrent.toNat) :
    storeByte s p x = .ok ⟨s.mem.setByte a x, s.kernelHeapCurrent⟩ := by
  subst hp
  exact if_pos (Arena.holds_iff.mpr ⟨lo, hi⟩)

structure Placed (s : Arena) (p : UInt32) (b : Block) : Prop where
  ptr : p.toNat = b.addr
  header : b.Header kernelLayout s.mem
  low : 0xD0000000 ≤ b.addr
  high : b.stop ≤ s.kernelHeapCurrent.toNat

namespace Placed
variable (h : Placed s p b)
include h

theorem offset {k : UInt32} (hk : k.toNat ≤ 16) : (p + k).toNat = b.addr + k.toNat := by
  have := s.kernelHeapCurrent.toNat_lt
  have := h.high
  have := h.ptr
  unfold Block.stop at *
  rw [UInt32.toNat_add]
  omega

theorem ne_zero : p ≠ 0 := by
  intro hp
  have := h.low
  rw [← h.ptr, hp] at this
  simp at this

theorem within {k n : Nat} (hk : k + n ≤ 16) :
    0xD0000000 ≤ b.addr + k ∧ b.addr + k + n ≤ s.kernelHeapCurrent.toNat := by
  have := h.low
  have := h.high
  unfold Block.stop at this
  omega

theorem size : load s p = .ok (s.mem.word b.addr) :=
  load_at h.ptr (h.within (k := 0) (n := 4) (by omega)).1 (h.within (k := 0) (by omega)).2

theorem next : load s (p + 4) = .ok (s.mem.word (b.addr + 4)) :=
  load_at (h.offset (by decide)) (h.within (n := 4) (by omega)).1 (h.within (by omega)).2

theorem free : loadByte s (p + 8) = .ok (s.mem (b.addr + 8)) :=
  loadByte_at (h.offset (by decide)) (h.within (n := 1) (by omega)).1 (h.within (by omega)).2

theorem setFree (x : UInt8) :
    storeByte s (p + 8) x = .ok ⟨s.mem.setByte (b.addr + 8) x, s.kernelHeapCurrent⟩ :=
  storeByte_at (h.offset (by decide)) (h.within (n := 1) (by omega)).1 (h.within (by omega)).2

theorem valid : assertKblockValid s p = .ok () := by
  have hm : load s (p + 12) = .ok blockMagic := by
    rw [load_at (h.offset (by decide)) (h.within (n := 4) (by decide)).1 (h.within (by decide)).2]
    exact congrArg _ h.header.magic
  have hlt : ¬0x2000000 < s.mem.word b.addr := by
    rw [lt_iff_toNat_lt, h.header.size]
    simpa [kernelLayout] using h.header.limit
  simp [assertKblockValid, hm, h.size, hlt, bind, Except.bind, pure, Except.pure]

end Placed

theorem Block.placed {lo hi after : Nat} {l : List Block} (hb : b ∈ l)
    (h : Tiled kernelLayout s.mem after lo hi l) (low : 0xD0000000 ≤ lo)
    (high : hi ≤ s.kernelHeapCurrent.toNat) (hp : p.toNat = b.addr) : Placed s p b :=
  ⟨hp, h.header_mem hb, by have := (h.bounds_mem hb).1; omega,
    by have := (h.bounds_mem hb).2; omega⟩

end Access

section Operations
variable {s : Arena} {l : List Block} {lo hi : Nat} {z : UInt32}

variable {n : Nat} {q t : UInt32} {l' : List Block}

theorem findFreeBlock_hit {b : Block} (hpl : Placed s q b)
    (free : b.free = true) (fits : z.toNat ≤ b.size) :
    findFreeBlock s z (n + 1) q t = .ok (q, t) := by
  have hfit : s.mem (b.addr + 8) ≠ 0 ∧ z ≤ s.mem.word b.addr := by
    refine ⟨hpl.header.free.mpr free, le_iff_toNat_le.mpr ?_⟩
    rw [hpl.header.size]
    exact fits
  unfold findFreeBlock
  rw [if_neg hpl.ne_zero, hpl.free, hpl.size]
  exact if_pos hfit

theorem findFreeBlock_skip {b : Block} (hpl : Placed s q b)
    (unfit : ¬(b.free = true ∧ z.toNat ≤ b.size))
    (valid : s.mem.word (b.addr + 4) ≠ 0 →
      assertKblockValid s (s.mem.word (b.addr + 4)) = .ok ()) :
    findFreeBlock s z (n + 1) q t = findFreeBlock s z n (s.mem.word (b.addr + 4)) q := by
  have hfit : ¬(s.mem (b.addr + 8) ≠ 0 ∧ z ≤ s.mem.word b.addr) := by
    rw [hpl.header.free, le_iff_toNat_le, hpl.header.size]
    exact unfit
  conv_lhs => unfold findFreeBlock
  rw [if_neg hpl.ne_zero, hpl.free, hpl.size]
  simp only [bind, Except.bind]
  rw [if_neg hfit, hpl.valid, hpl.next]
  simp only
  split
  · rw [valid ‹_›]
  · rfl

theorem findFreeBlock_spec (h : Tiled kernelLayout s.mem 0 lo hi l) (low : 0xD0000000 ≤ lo)
    (high : hi ≤ s.kernelHeapCurrent.toNat) (hn : l.length < n)
    (hq : q.toNat = firstLinked 0 l) :
    (∃ pre b post p t', l = pre ++ b :: post ∧ b.linked = true ∧ b.free = true ∧
        z.toNat ≤ b.size ∧ p.toNat = b.addr ∧ findFreeBlock s z n q t = .ok (p, t')) ∨
      ∃ t', findFreeBlock s z n q t = .ok (0, t') ∧ t'.toNat = lastLinked t.toNat l := by
  induction h generalizing n q t with
  | nil a =>
    have : q = 0 := UInt32.toNat_inj.mp hq
    obtain _ | n := n
    · simp at hn
    · exact .inr ⟨t, by simp [findFreeBlock, this, pure, Except.pure], rfl⟩
  | @cons hi l b header next rest ih =>
    have htiled : Tiled kernelLayout s.mem 0 b.addr hi (b :: l) := .cons b header next rest
    have low' : 0xD0000000 ≤ b.stop := by unfold Block.stop; omega
    simp only [length_cons] at hn
    cases hb : b.linked with
    | false =>
      simp only [firstLinked, hb, Bool.false_eq_true, if_false] at hq
      rcases ih low' high (n := n) (by omega) hq (t := t) with
        ⟨pre, c, post, p, t', rfl, hfound⟩ | ⟨t', hend⟩
      · exact .inl ⟨b :: pre, c, post, p, t', rfl, hfound⟩
      · exact .inr ⟨t', by simpa [lastLinked, hb] using hend⟩
    | true =>
      simp only [firstLinked, hb, if_true] at hq
      have hpl : Placed s q b := Block.placed (by simp) htiled low high hq
      have hnext := next hb
      obtain _ | n := n
      · omega
      by_cases hfit : b.free = true ∧ z.toNat ≤ b.size
      · exact .inl ⟨[], b, l, q, t, rfl, hb, hfit.1, hfit.2, hq, findFreeBlock_hit hpl hfit.1 hfit.2⟩
      · rw [findFreeBlock_skip hpl hfit]
        · rcases ih low' high (n := n) (by omega) hnext (t := q) with
            ⟨pre, c, post, p, t', rfl, hfound⟩ | ⟨t', hend⟩
          · exact .inl ⟨b :: pre, c, post, p, t', rfl, hfound⟩
          · exact .inr ⟨t', by simpa [lastLinked, hb, hq] using hend⟩
        · intro hne
          rcases firstLinked_cases 0 l with ⟨h0, _⟩ | ⟨pre, c, post, rfl, _, h0⟩
          · exact absurd ((UInt32.toNat_inj (b := 0)).mp (hnext.trans h0)) hne
          · exact (Block.placed (by simp) rest low' high (hnext.trans (h0 0))).valid

theorem splitBlock_spec {pre post : List Block} {b : Block} {p : UInt32}
    (h : Tiled kernelLayout s.mem 0 lo hi (pre ++ b :: post)) (hpl : Placed s p b)
    (linked : b.linked = true) (fits : z.toNat ≤ b.size) (whole : z.toNat % 4 = 0) :
    ∃ s' c rest, splitBlock s p z = .ok s' ∧ s'.kernelHeapCurrent = s.kernelHeapCurrent ∧
      Tiled kernelLayout s'.mem 0 lo hi (pre ++ (c :: rest ++ post)) ∧ c.addr = b.addr ∧
      c.free = b.free ∧ c.linked = true ∧ z.toNat ≤ c.size := by
  have hs := hpl.header.size
  have hlim := hpl.header.limit
  have hsz := hpl.size
  have hlow := hpl.low
  have hhigh := hpl.high
  have hlt := s.kernelHeapCurrent.toNat_lt
  simp only [Block.stop, kernelLayout] at hhigh hlim
  have h16 : (z + sizeofBlockMeta).toNat = z.toNat + 16 := by
    simp [sizeofBlockMeta]
    omega
  unfold splitBlock
  rw [hsz]
  simp only [bind, Except.bind]
  by_cases hcut : z + sizeofBlockMeta < s.mem.word b.addr
  · rw [if_pos hcut]
    have hcut' : z.toNat + 16 < b.size := by
      rw [lt_iff_toNat_lt, h16, hs] at hcut
      exact hcut
    have hq : (p + sizeofBlockMeta + z).toNat = b.addr + 16 + z.toNat := by
      rw [UInt32.toNat_add, hpl.offset (by decide)]
      simp [sizeofBlockMeta]
      omega
    have hk (k : UInt32) (hk : k.toNat ≤ 12) :
        (p + sizeofBlockMeta + z + k).toNat = b.addr + 16 + z.toNat + k.toNat := by
      rw [UInt32.toNat_add, hq]
      omega
    have h4 := hk 4 (by decide)
    have h8 := hk 8 (by decide)
    have h12 := hk 12 (by decide)
    have hp4 := hpl.offset (k := 4) (by decide)
    simp only [UInt32.reduceToNat] at h4 h8 h12 hp4
    rw [storeByte_at h8 (by omega) (by omega)]
    simp only
    rw [store_at h12 (by omega) (by simp only; omega)]
    simp only
    rw [store_at hq (by omega) (by simp only; omega)]
    simp only
    rw [load_at hp4 (by omega) (by simp only; omega)]
    simp only
    rw [store_at h4 (by omega) (by simp only; omega)]
    simp only
    rw [store_at hpl.ptr (by omega) (by simp only; omega)]
    simp only
    rw [store_at hp4 (by omega) (by simp only; omega)]
    have hleft : (s.mem.word b.addr - z - sizeofBlockMeta).toNat + z.toNat + 16 = b.size := by
      rw [UInt32.toNat_sub, UInt32.toNat_sub, hs]
      simp [sizeofBlockMeta]
      omega
    have htiled := h.cut linked hq hleft whole
    refine ⟨_, { b with size := z.toNat },
      [⟨b.addr + 16 + z.toNat, (s.mem.word b.addr - z - sizeofBlockMeta).toNat, true, true⟩],
      rfl, rfl, ?_, rfl, rfl, linked, le_rfl⟩
    simp (disch := omega) only [Bytes.word_setWord_of, Bytes.word_setByte_of]
    rw [hq] at htiled
    exact htiled
  · rw [if_neg hcut]
    refine ⟨s, b, [], rfl, rfl, ?_, rfl, rfl, linked, fits⟩
    simpa using h

def Relinks (l : List Block) (t : Nat) (l' : List Block) : Prop :=
  (t = 0 ∧ l' = l ∧ ∀ b ∈ l, b.linked = false) ∨
    ∃ pre b post, l = pre ++ b :: post ∧ b.linked = true ∧ t = b.addr ∧
      l' = pre ++ b :: post.map Block.unlink

theorem linkBehind_spec
    (h : Tiled kernelLayout s.mem 0 lo hi l) (low : 0xD0000000 ≤ lo)
    (high : hi ≤ s.kernelHeapCurrent.toNat) (links : Relinks l t.toNat l') :
    ∃ m, linkBehind s t q = .ok ⟨m, s.kernelHeapCurrent⟩ ∧
      Tiled kernelLayout m q.toNat lo hi l' := by
  rcases links with ⟨ht, rfl, hl⟩ | ⟨pre, b, post, rfl, hb, ht, rfl⟩
  · have : t = 0 := (UInt32.toNat_inj (b := 0)).mp ht
    exact ⟨s.mem, by simp [linkBehind, this, pure, Except.pure], h.ended hl _⟩
  · have hpl : Placed s t b := Block.placed (by simp) h low high ht
    refine ⟨s.mem.setWord (b.addr + 4) q, ?_, h.relink hb q⟩
    rw [linkBehind, if_pos hpl.ne_zero]
    exact store_at (hpl.offset (by decide)) (hpl.within (n := 4) (by decide)).1
      (hpl.within (by decide)).2

theorem requestSpace_spec
    (h : Tiled kernelLayout s.mem 0 lo s.kernelHeapCurrent.toNat l) (low : 0xD0000000 ≤ lo)
    (links : Relinks l t.toNat l') (fits : z.toNat ≤ 0x2000000) (whole : z.toNat % 4 = 0) :
    requestSpace s t z = .error .noMemory ∨
      ∃ s', requestSpace s t z = .ok (s', s.kernelHeapCurrent) ∧
        Tiled kernelLayout s'.mem 0 lo s'.kernelHeapCurrent.toNat
          (l' ++ [⟨s.kernelHeapCurrent.toNat, z.toNat, false, true⟩]) := by
  have hle := h.le
  have h16 : (z + sizeofBlockMeta).toNat = z.toNat + 16 := by
    simp [sizeofBlockMeta]
    omega
  by_cases room : s.kernelHeapCurrent.toNat + (z + sizeofBlockMeta).toNat < 2 ^ 32
  · right
    have hsum : (s.kernelHeapCurrent + (z + sizeofBlockMeta)).toNat =
        s.kernelHeapCurrent.toNat + z.toNat + 16 := by
      rw [UInt32.toNat_add]
      omega
    have hsbrk : sbrk s (z + sizeofBlockMeta) = .ok
        (⟨s.mem.fill s.kernelHeapCurrent.toNat (z.toNat + 16) 0,
          s.kernelHeapCurrent + (z + sizeofBlockMeta)⟩, s.kernelHeapCurrent) := by
      rw [← h16]
      exact if_pos room
    generalize hq : s.kernelHeapCurrent = q at *
    generalize hend : q + (z + sizeofBlockMeta) = q' at *
    have hk (k : UInt32) (hk : k.toNat ≤ 12) : (q + k).toNat = q.toNat + k.toNat := by
      rw [UInt32.toNat_add]
      omega
    have h4 := hk 4 (by decide)
    have h8 := hk 8 (by decide)
    have h12 := hk 12 (by decide)
    simp only [UInt32.reduceToNat] at h4 h8 h12
    obtain ⟨m, hm, htiled⟩ := linkBehind_spec (q := q) (s := ⟨s.mem.fill q.toNat (z.toNat + 16) 0, q'⟩)
      (h.outside (Bytes.fill_agree 0 (.inr (by omega)))) low (by simp only; omega) links
    unfold requestSpace
    rw [hsbrk]
    simp only [bind, Except.bind]
    rw [hm]
    simp only
    rw [store_at rfl (by omega) (by simp only; omega)]
    simp only
    rw [store_at h4 (by omega) (by simp only; omega)]
    simp only
    rw [storeByte_at h8 (by omega) (by simp only; omega)]
    simp only
    rw [store_at h12 (by omega) (by simp only; omega)]
    refine ⟨_, rfl, ?_⟩
    have hend' : q'.toNat = q.toNat + 16 + z.toNat := by omega
    simp only [hend']
    exact htiled.extend fits whole
  · left
    have hsbrk : sbrk s (z + sizeofBlockMeta) = .error .noMemory := if_neg room
    unfold requestSpace
    rw [hsbrk]
    rfl

end Operations

/-- The blocks of a heap: they fill what `sbrk` has handed out, and `kblocklist`
starts the list of those that are linked. -/
structure Heaped (h : Kheap Arena) (l : List Block) : Prop where
  tiled : Tiled kernelLayout h.ram.mem 0 0xD0000000 h.ram.kernelHeapCurrent.toNat l
  head : h.kblocklist.toNat = firstLinked 0 l

structure Allotted (l l' : List Block) (addr size : Nat) : Prop where
  new : ∃ b ∈ l', b.addr = addr ∧ b.free = false ∧ size ≤ b.size
  kept : ∀ b ∈ l, b.free = false →
    b.addr ≠ addr ∧ ∃ c ∈ l', c.addr = b.addr ∧ c.size = b.size ∧ c.free = false

section Heap
variable {h : Kheap Arena} {l : List Block} {z : UInt32}

theorem Heaped.length (hh : Heaped h l) : l.length < pointers := by
  have := hh.tiled.le
  have := h.ram.kernelHeapCurrent.toNat_lt
  unfold pointers
  omega

theorem Heaped.empty (hh : Heaped h l) (h0 : h.kblocklist = 0) : ∀ b ∈ l, b.linked = false := by
  have hhead := hh.head
  rcases firstLinked_cases 0 l with ⟨_, hn⟩ | ⟨pre, b, post, rfl, _, hf⟩
  · exact hn
  · have := hh.tiled.bounds.1
    rw [hf, h0] at hhead
    simp only [UInt32.toNat_zero] at hhead
    omega

theorem Heaped.nonempty (hh : Heaped h l) (h0 : h.kblocklist ≠ 0) :
    ∃ pre b post, l = pre ++ b :: post ∧ b.linked = true ∧
      ∀ k, firstLinked k l = h.kblocklist.toNat := by
  have hhead := hh.head
  rcases firstLinked_cases 0 l with ⟨hz, _⟩ | ⟨pre, b, post, rfl, hb, hf⟩
  · exact absurd ((UInt32.toNat_inj (b := 0)).mp (hhead.trans hz)) h0
  · exact ⟨pre, b, post, rfl, hb, fun k => by rw [hhead, hf, hf]⟩

variable {l' pre post : List Block} {addr n : Nat}

theorem Allotted.append (below : ∀ b ∈ l, b.stop ≤ addr)
    (same : ∀ b ∈ l, ∃ c ∈ l', c.addr = b.addr ∧ c.size = b.size ∧ c.free = b.free) :
    Allotted l (l' ++ [⟨addr, n, false, true⟩]) addr n := by
  refine ⟨⟨⟨addr, n, false, true⟩, by simp, rfl, rfl, le_rfl⟩, fun b hb hf => ⟨?_, ?_⟩⟩
  · have := below b hb
    unfold Block.stop at this
    omega
  · obtain ⟨c, hc, ha, hs, hfr⟩ := same b hb
    exact ⟨c, by simp [hc], ha, hs, hfr.trans hf⟩

theorem Allotted.reuse {rest : List Block} {b c : Block} (free : b.free = true)
    (used : c.free = false) (addr : c.addr = b.addr) (size : n ≤ c.size)
    (apart : ∀ d ∈ pre ++ b :: post, d = b ∨ d.stop ≤ b.addr ∨ b.stop ≤ d.addr) :
    Allotted (pre ++ b :: post) (pre ++ (c :: rest ++ post)) b.addr n := by
  refine ⟨⟨c, by simp, addr, used, size⟩, fun d hd hf => ?_⟩
  have hne : d ≠ b := by
    intro he
    rw [he, free] at hf
    cases hf
  refine ⟨?_, d, ?_, rfl, rfl, hf⟩
  · have := (apart d hd).resolve_left hne
    unfold Block.stop at this
    omega
  · have : d ∈ pre ∨ d ∈ post := by
      simpa [hne] using hd
    simp
    tauto

theorem takeBlock_spec (hh : Heaped h l) (fits : z.toNat ≤ 0x2000000)
    (whole : z.toNat % 4 = 0) :
    takeBlock h z = .error .noMemory ∨ ∃ h' p l', takeBlock h z = .ok (h', p) ∧
      Heaped h' l' ∧ Allotted l l' p.toNat z.toNat := by
  have below : ∀ b ∈ l, b.stop ≤ h.ram.kernelHeapCurrent.toNat :=
    fun b hb => (hh.tiled.bounds_mem hb).2
  unfold takeBlock
  by_cases h0 : h.kblocklist ≠ 0
  · rw [if_pos h0]
    obtain ⟨_, _, _, _, _, hhead⟩ := hh.nonempty h0
    rcases findFreeBlock_spec (z := z) (t := h.kblocklist) hh.tiled le_rfl le_rfl hh.length
        hh.head with ⟨pre, b, post, p, t', rfl, hb, hfree, hfit, hp, hfind⟩ | ⟨t', hfind, ht⟩
    · right
      have hpl : Placed h.ram p b := Block.placed (by simp) hh.tiled le_rfl le_rfl hp
      have hused := hh.tiled.setFree 0
      obtain ⟨s', c, rest, hsplit, hcur, htiled, haddr, hcfree, hclink, hcsize⟩ :=
        splitBlock_spec (s := ⟨h.ram.mem.setByte (b.addr + 8) 0, h.ram.kernelHeapCurrent⟩)
          (p := p) (z := z) hused (Block.placed (by simp) hused le_rfl le_rfl hp) hb hfit whole
      refine ⟨⟨s', h.kblocklist⟩, p, pre ++ (c :: rest ++ post), ?_, ⟨?_, ?_⟩, ?_⟩
      · rw [hfind]
        simp only [bind, Except.bind]
        rw [if_pos hpl.ne_zero, hpl.setFree]
        simp only
        rw [hsplit]
        rfl
      · rw [hcur]
        exact htiled
      · rw [hh.head, firstLinked_append, firstLinked_append, cons_append]
        simp [firstLinked, hclink, hb, haddr]
      · rw [hp]
        exact .reuse hfree hcfree haddr hcsize fun d hd => by
          have := hh.tiled.apart_mem hd (show b ∈ pre ++ b :: post by simp)
          tauto
    · have hlinks : Relinks l t'.toNat l := by
        rcases lastLinked_cases h.kblocklist.toNat l with
          ⟨_, hn⟩ | ⟨pre, b, post, rfl, hb, hlast, hpost⟩
        · have := firstLinked_eq 0 hn
          rw [← hh.head] at this
          exact absurd ((UInt32.toNat_inj (b := 0)).mp this) h0
        · exact .inr ⟨pre, b, post, rfl, hb, ht.trans hlast, by rw [map_unlink hpost]⟩
      rw [hfind]
      simp only [bind, Except.bind, ne_eq, not_true, if_false]
      rcases requestSpace_spec hh.tiled le_rfl hlinks fits whole with herr | ⟨s', hok, htiled⟩
      · rw [herr]
        exact .inl rfl
      · rw [hok]
        refine .inr ⟨⟨s', h.kblocklist⟩, _, _, rfl, ⟨htiled, ?_⟩,
          .append below fun b hb => ⟨b, hb, rfl, rfl, rfl⟩⟩
        rw [firstLinked_append, hhead]
  · rw [if_neg h0]
    have hlinks : Relinks l (0 : UInt32).toNat l := .inl ⟨rfl, rfl, hh.empty (not_not.mp h0)⟩
    rcases requestSpace_spec hh.tiled le_rfl hlinks fits whole with herr | ⟨s', hok, htiled⟩
    · rw [herr]
      exact .inl rfl
    · rw [hok]
      refine .inr ⟨⟨s', h.ram.kernelHeapCurrent⟩, _, _, rfl, ⟨htiled, ?_⟩,
        .append below fun b hb => ⟨b, hb, rfl, rfl, rfl⟩⟩
      rw [firstLinked_append, firstLinked_eq _ (hh.empty (not_not.mp h0))]
      rfl

/-- What a call returns: nothing, or the payload of a block that was not in use. -/
def Serves (l : List Block) (h' : Kheap Arena) (p : UInt32) (n : Nat) : Prop :=
  (p = 0 ∧ Heaped h' l) ∨
    ∃ l' addr, p.toNat = addr + 16 ∧ Heaped h' l' ∧ Allotted l l' addr n

theorem Allotted.mono {k : Nat} (hg : Allotted l l' addr n) (hk : k ≤ n) :
    Allotted l l' addr k := by
  obtain ⟨b, hb, ha, hf, hs⟩ := hg.new
  exact ⟨⟨b, hb, ha, hf, by omega⟩, hg.kept⟩

theorem kmalloc_spec (hh : Heaped h l) (fits : z.toNat ≤ 0x2000000) :
    kmalloc h z = .error .noMemory ∨
      ∃ h' p, kmalloc h z = .ok (h', p) ∧ Serves l h' p z.toNat := by
  unfold kmalloc
  by_cases h0 : z = 0
  · rw [if_pos h0]
    exact .inr ⟨h, 0, rfl, .inl ⟨rfl, hh⟩⟩
  · rw [if_neg h0]
    have hup : (alignUp z 4).toNat = (z.toNat + 4 - 1) / 4 * 4 :=
      alignUp_toNat (k := 2) (by omega) (by omega)
    rcases takeBlock_spec (z := alignUp z 4) hh (by omega) (by omega) with
      herr | ⟨h', p, l', hok, hh', hg⟩
    · rw [herr]
      exact .inl rfl
    · obtain ⟨b, hb, ha, _, _⟩ := hg.new
      have hpl : Placed h'.ram p b := Block.placed hb hh'.tiled le_rfl le_rfl ha.symm
      refine .inr ⟨h', p + sizeofBlockMeta, ?_,
        .inr ⟨l', p.toNat, ?_, hh', hg.mono (by omega)⟩⟩
      · rw [hok]
        simp only [bind, Except.bind]
        rw [hpl.valid]
        exact if_pos hpl.ne_zero
      · rw [hpl.offset (by decide), ha]
        rfl

theorem Heaped.payload {m : Bytes} {b : Block} (hh : Heaped h l) (hb : b ∈ l)
    (before : ∀ x, x < b.addr + 16 → m x = h.ram.mem x)
    (behind : ∀ x, b.stop ≤ x → m x = h.ram.mem x) :
    Heaped { h with ram := { h.ram with mem := m } } l :=
  ⟨hh.tiled.payload hb before behind, hh.head⟩

theorem kcalloc_spec {n : UInt32} (hh : Heaped h l) (fits : n.toNat * z.toNat ≤ 0x2000000) :
    kcalloc h n z = .error .noMemory ∨
      ∃ h' p, kcalloc h n z = .ok (h', p) ∧ Serves l h' p (n.toNat * z.toNat) := by
  have hmul : (n * z).toNat = n.toNat * z.toNat := by
    rw [UInt32.toNat_mul]
    omega
  unfold kcalloc
  rcases kmalloc_spec (z := n * z) hh (by omega) with herr | ⟨h', p, hok, hserves⟩
  · rw [herr]
    exact .inl rfl
  · right
    rw [hok]
    simp only [bind, Except.bind]
    rw [hmul] at hserves
    rcases hserves with ⟨rfl, hh'⟩ | ⟨l', addr, hp, hh', hg⟩
    · exact ⟨h', 0, rfl, .inl ⟨rfl, hh'⟩⟩
    · obtain ⟨b, hb, ha, _, hs⟩ := hg.new
      have hbounds := hh'.tiled.bounds_mem hb
      unfold Block.stop at hbounds
      have hp0 : p ≠ 0 := by
        intro hp0
        rw [hp0, UInt32.toNat_zero] at hp
        omega
      have hset : KernelMemory.memset h'.ram p 0 (n * z) = .ok
          { h'.ram with mem := h'.ram.mem.fill p.toNat (n * z).toNat 0 } :=
        if_pos (Arena.holds_iff.mpr ⟨by omega, by omega⟩)
      rw [if_pos hp0, hset]
      refine ⟨_, p, rfl, .inr ⟨l', addr, hp, hh'.payload hb (fun x hx => ?_) (fun x hx => ?_), hg⟩⟩
      · exact Bytes.fill_agree (k := 1) 0 (.inr (by omega)) x le_rfl (by omega)
      · unfold Block.stop at hx
        exact Bytes.fill_agree (k := 1) 0 (.inl (by omega)) x le_rfl (by omega)

theorem kfree_spec {b : Block} {p : UInt32}
    (hh : Heaped h (pre ++ b :: post)) (hp : p.toNat = b.addr + 16) :
    ∃ h', kfree h p = .ok h' ∧ Heaped h' (pre ++ { b with free := true } :: post) := by
  have hbounds := hh.tiled.bounds
  have hp0 : p ≠ 0 := by
    intro hp0
    rw [hp0, UInt32.toNat_zero] at hp
    omega
  have hptr : (getBlockPtr p).toNat = b.addr := by
    unfold getBlockPtr
    rw [UInt32.toNat_sub, hp]
    simp [sizeofBlockMeta]
    have := h.ram.kernelHeapCurrent.toNat_lt
    unfold Block.stop at hbounds
    omega
  have hpl : Placed h.ram (getBlockPtr p) b := Block.placed (by simp) hh.tiled le_rfl le_rfl hptr
  refine ⟨⟨⟨h.ram.mem.setByte (b.addr + 8) 1, h.ram.kernelHeapCurrent⟩, h.kblocklist⟩, ?_,
    hh.tiled.setFree 1, ?_⟩
  · unfold kfree
    rw [if_neg hp0]
    simp only [bind, Except.bind]
    rw [hpl.valid]
    rw [hpl.setFree]
    rfl
  · rw [hh.head, firstLinked_append, firstLinked_append]
    rfl

theorem sbrk_zero (s : Arena) : sbrk s 0 = .ok (s, s.kernelHeapCurrent) := by
  have hlt := s.kernelHeapCurrent.toNat_lt
  have hfill : s.mem.fill s.kernelHeapCurrent.toNat 0 0 = s.mem := by
    funext x
    exact if_neg (by omega)
  have : sbrk s 0 = .ok (⟨s.mem.fill s.kernelHeapCurrent.toNat 0 0, s.kernelHeapCurrent + 0⟩,
      s.kernelHeapCurrent) := if_pos (by simpa using hlt)
  rw [this, hfill, add_zero]

/-- The search for the last block either stops at the first block, or comes to a
null pointer. -/
theorem alignLast_spec (hh : Heaped h l) (n : Nat) :
    (∃ e, alignLast h.ram n h.kblocklist = .error e ∧ e ≠ .assertNotReached) ∨
      alignLast h.ram n h.kblocklist = .ok h.kblocklist ∧ h.kblocklist ≠ 0 := by
  have hnull (n : Nat) : ∃ e, alignLast h.ram n 0 = .error e ∧ e ≠ .assertNotReached := by
    cases n with
    | zero => exact ⟨.loops, rfl, by decide⟩
    | succ n => exact ⟨.fault, rfl, by decide⟩
  by_cases h0 : h.kblocklist = 0
  · rw [h0]
    exact .inl (hnull n)
  · obtain ⟨pre, b, post, rfl, hb, hf⟩ := hh.nonempty h0
    cases n with
    | zero => exact .inl ⟨.loops, rfl, by decide⟩
    | succ n =>
      rcases firstLinked_cases 0 (pre ++ b :: post) with ⟨hz, hn⟩ | ⟨pre', c, post', hl, hc, hcf⟩
      · rw [hn b (by simp)] at hb
        cases hb
      · have hpl : Placed h.ram h.kblocklist c :=
          Block.placed (by rw [hl]; simp) hh.tiled le_rfl le_rfl ((hf 0).symm.trans (hcf 0))
        unfold alignLast
        rw [hpl.next]
        simp only [bind, Except.bind]
        split
        · exact .inr ⟨rfl, h0⟩
        · rename_i hz
          rw [not_not.mp hz]
          exact .inl (hnull n)

theorem requestSpace_first (hh : Heaped h l) (h0 : h.kblocklist ≠ 0) (fits : z.toNat ≤ 0x2000000)
    (whole : z.toNat % 4 = 0) :
    requestSpace h.ram h.kblocklist z = .error .noMemory ∨
      ∃ s' p l', requestSpace h.ram h.kblocklist z = .ok (s', p) ∧
        Heaped { h with ram := s' } l' ∧ Allotted l l' p.toNat z.toNat := by
  have hhead := hh.head
  have below : ∀ b ∈ l, b.stop ≤ h.ram.kernelHeapCurrent.toNat :=
    fun b hb => (hh.tiled.bounds_mem hb).2
  rcases firstLinked_cases 0 l with ⟨hz, _⟩ | ⟨pre, b, post, rfl, hb, hf⟩
  · exact absurd ((UInt32.toNat_inj (b := 0)).mp (hhead.trans hz)) h0
  · have hlinks : Relinks (pre ++ b :: post) h.kblocklist.toNat
        (pre ++ b :: post.map Block.unlink) :=
      .inr ⟨pre, b, post, rfl, hb, hhead.trans (hf 0), rfl⟩
    rcases requestSpace_spec hh.tiled le_rfl hlinks fits whole with herr | ⟨s', hok, htiled⟩
    · exact .inl herr
    · refine .inr ⟨s', _, _, hok, ⟨htiled, ?_⟩, .append below fun c hc => ?_⟩
      · rw [hhead, append_assoc, firstLinked_append, firstLinked_append]
        simp [firstLinked, hb]
      · rcases mem_append.mp hc with hc | hc
        · exact ⟨c, by simp [hc], rfl, rfl, rfl⟩
        · rcases mem_cons.mp hc with rfl | hc
          · exact ⟨c, by simp, rfl, rfl, rfl⟩
          · refine ⟨c.unlink, ?_, rfl, rfl, rfl⟩
            have := mem_map_of_mem (f := Block.unlink) hc
            simp [this]

theorem alignPadding_spec (hh : Heaped h l) (n : Nat) {d : UInt32} (small : d.toNat ≤ 4128)
    (whole : d.toNat % 4 = 0) :
    (∃ e, alignPadding h 4096 n d = .error e ∧ e ≠ .assertNotReached) ∨
      ∃ h' p, alignPadding h 4096 n d = .ok (h', p) ∧ Serves l h' p 0 := by
  induction n generalizing d with
  | zero => exact .inl ⟨.loops, rfl, by decide⟩
  | succ n ih =>
    have htop : d ≤ kernelHeapTop := by
      rw [le_iff_toNat_le]
      simp [kernelHeapTop]
      omega
    have h32 : (sizeofBlockMeta * 2).toNat = 32 := rfl
    unfold alignPadding
    rw [if_pos htop]
    by_cases hbig : sizeofBlockMeta * 2 < d
    · rw [if_pos hbig]
      rw [lt_iff_toNat_lt, h32] at hbig
      have hsize : (d - sizeofBlockMeta * 2).toNat = d.toNat - 32 := by
        rw [UInt32.toNat_sub, h32]
        omega
      rcases alignLast_spec hh pointers with ⟨e, he, hne⟩ | ⟨hlast, h0⟩
      · rw [he]
        exact .inl ⟨e, rfl, hne⟩
      · rw [hlast]
        simp only [bind, Except.bind]
        rcases requestSpace_first (z := d - sizeofBlockMeta * 2) hh h0 (by omega) (by omega) with
          herr | ⟨s', p, l', hok, hh', hg⟩
        · rw [herr]
          exact .inl ⟨.noMemory, rfl, by decide⟩
        · rw [hok]
          obtain ⟨b, hb, ha, _, _⟩ := hg.new
          have hpl : Placed s' p b := Block.placed hb hh'.tiled le_rfl le_rfl ha.symm
          refine .inr ⟨_, _, rfl, .inr ⟨l', p.toNat, ?_, hh', hg.mono (Nat.zero_le _)⟩⟩
          rw [hpl.offset (by decide), ha]
          rfl
    · rw [if_neg hbig]
      rw [lt_iff_toNat_lt, h32] at hbig
      have hnext : (d + 4096).toNat = d.toNat + 4096 := by
        simp
        omega
      exact ih (by omega) (by omega)

theorem kalignHeap_spec (hh : Heaped h l) :
    (∃ e, kalignHeap h 4096 = .error e ∧ e ≠ .assertNotReached) ∨
      ∃ h' p, kalignHeap h 4096 = .ok (h', p) ∧ Serves l h' p 0 := by
  unfold kalignHeap
  rw [sbrk_zero]
  simp only [bind, Except.bind]
  split
  · exact .inr ⟨h, 0, rfl, .inl ⟨rfl, hh⟩⟩
  · have h4 := (hh.tiled.whole (by omega)).1
    have hceil := divCeil_toNat h.ram.kernelHeapCurrent (y := 4096) (by decide)
    have hlt := h.ram.kernelHeapCurrent.toNat_lt
    have hpad : (divCeil h.ram.kernelHeapCurrent 4096 * 4096 - h.ram.kernelHeapCurrent).toNat =
        (h.ram.kernelHeapCurrent.toNat + 4095) / 4096 * 4096 - h.ram.kernelHeapCurrent.toNat := by
      rw [UInt32.toNat_sub, UInt32.toNat_mul, hceil]
      simp
      omega
    exact alignPadding_spec hh pointers (by omega) (by omega)

end Heap

/-- The heap's blocks and the payloads its clients hold, each of a block in use. -/
structure Kept (s : Tenancy) (l : List Block) : Prop where
  heaped : Heaped s.heap l
  nodup : (s.live.map Live.ptr).Nodup
  held : ∀ v ∈ s.live, ∃ b ∈ l, b.free = false ∧ v.ptr.toNat = b.addr + 16 ∧ v.requested ≤ b.size

section Tenancy
variable {s : Tenancy} {l : List Block}

theorem Kept.start (mem : Bytes) : Kept (heapStart mem) [] :=
  ⟨⟨.nil _, rfl⟩, .nil, by simp [heapStart]⟩

theorem Kept.grant {h' : Kheap Arena} {p : UInt32} {n : Nat} (hs : Kept s l)
    (hserves : Serves l h' p n) : ∃ l', Kept (s.grant n (h', p)) l' := by
  rcases hserves with ⟨rfl, hh⟩ | ⟨l', addr, hp, hh, hg⟩
  · exact ⟨l, hh, hs.nodup, hs.held⟩
  · have hp0 : p ≠ 0 := by
      intro hp0
      rw [hp0, UInt32.toNat_zero] at hp
      omega
    have hlive : (s.grant n (h', p)).live = ⟨p, n⟩ :: s.live := if_neg hp0
    refine ⟨l', hh, ?_, ?_⟩
    · rw [hlive, map_cons, nodup_cons]
      refine ⟨?_, hs.nodup⟩
      intro hmem
      obtain ⟨v, hv, hvp⟩ := mem_map.mp hmem
      obtain ⟨b, hb, hf, ha, _⟩ := hs.held v hv
      have hne := (hg.kept b hb hf).1
      rw [hvp, hp] at ha
      omega
    · rw [hlive]
      intro v hv
      rcases mem_cons.mp hv with rfl | hv
      · obtain ⟨b, hb, ha, hf, hn⟩ := hg.new
        exact ⟨b, hb, hf, by rw [hp, ha], hn⟩
      · obtain ⟨b, hb, hf, ha, hn⟩ := hs.held v hv
        obtain ⟨_, c, hc, hca, hcs, hcf⟩ := hg.kept b hb hf
        exact ⟨c, hc, hcf, by rw [hca, ha], by rw [hcs]; exact hn⟩

theorem Kept.kfree {p : UInt32} (hs : Kept s l) (hp : ∃ v ∈ s.live, v.ptr = p) :
    ∃ s' l', perform s (.kfree p) = .ok s' ∧ Kept s' l' := by
  obtain ⟨v, hv, rfl⟩ := hp
  obtain ⟨b, hb, _, ha, _⟩ := hs.held v hv
  obtain ⟨pre, post, rfl⟩ := append_of_mem hb
  obtain ⟨h', hok, hh⟩ := kfree_spec hs.heaped ha
  refine ⟨⟨h', s.live.filter fun w => w.ptr ≠ v.ptr⟩, _, by simp [perform, hok, Except.map], hh, ?_, ?_⟩
  · exact hs.nodup.sublist (List.Sublist.map _ filter_sublist)
  · intro w hw
    obtain ⟨hw, hne⟩ := mem_filter.mp hw
    obtain ⟨c, hc, hf, hca, hn⟩ := hs.held w hw
    refine ⟨c, ?_, hf, hca, hn⟩
    have hcb : c ≠ b := by
      intro he
      subst he
      have : w.ptr = v.ptr := UInt32.toNat_inj.mp (hca.trans ha.symm)
      simp [this] at hne
    have : c ∈ pre ∨ c ∈ post := by simpa [hcb] using hc
    simp
    tauto

theorem Kept.write {addr : UInt32} {x : UInt8} (hs : Kept s l)
    (inside : ∃ v ∈ s.live, v.ptr ≤ addr ∧ addr.toNat < v.ptr.toNat + v.requested) :
    ∃ s' l', perform s (.write addr x) = .ok s' ∧ Kept s' l' := by
  obtain ⟨v, hv, hlo, hhi⟩ := inside
  obtain ⟨b, hb, _, ha, hn⟩ := hs.held v hv
  have hbounds := hs.heaped.tiled.bounds_mem hb
  rw [le_iff_toNat_le] at hlo
  have hstop : b.stop = b.addr + 16 + b.size := rfl
  have hok : storeByte s.heap.ram addr x =
      .ok ⟨s.heap.ram.mem.setByte addr.toNat x, s.heap.ram.kernelHeapCurrent⟩ :=
    storeByte_at rfl (by omega) (by omega)
  have hh : Heaped ⟨⟨s.heap.ram.mem.setByte addr.toNat x, s.heap.ram.kernelHeapCurrent⟩,
      s.heap.kblocklist⟩ l := by
    refine hs.heaped.payload hb (fun y hy => ?_) (fun y hy => ?_)
    · exact Bytes.setByte_of x (by omega)
    · exact Bytes.setByte_of x (by omega)
  exact ⟨⟨_, s.live⟩, l, by rw [perform, hok]; rfl, hh, hs.nodup, hs.held⟩

theorem Kept.perform {c : HeapCall} (hs : Kept s l) (hc : c.allowed s = true) :
    (∃ e, perform s c = .error e ∧ e ≠ .assertNotReached) ∨
      ∃ s' l', perform s c = .ok s' ∧ Kept s' l' := by
  cases c with
  | kmalloc size =>
    rcases kmalloc_spec hs.heaped (of_decide_eq_true hc) with herr | ⟨h', p, hok, hserves⟩
    · exact .inl ⟨.noMemory, by simp [Memory.perform, herr, Except.map], by decide⟩
    · obtain ⟨l', hl⟩ := hs.grant hserves
      exact .inr ⟨_, l', by simp [Memory.perform, hok, Except.map], hl⟩
  | kcalloc n size =>
    rcases kcalloc_spec hs.heaped (of_decide_eq_true hc) with herr | ⟨h', p, hok, hserves⟩
    · exact .inl ⟨.noMemory, by simp [Memory.perform, herr, Except.map], by decide⟩
    · obtain ⟨l', hl⟩ := hs.grant hserves
      exact .inr ⟨_, l', by simp [Memory.perform, hok, Except.map], hl⟩
  | kfree p =>
    exact .inr (hs.kfree (by simpa [HeapCall.allowed] using hc))
  | kalignHeap =>
    rcases kalignHeap_spec hs.heaped with ⟨e, herr, hne⟩ | ⟨h', p, hok, hserves⟩
    · exact .inl ⟨e, by simp [Memory.perform, herr, Except.map], hne⟩
    · obtain ⟨l', hl⟩ := hs.grant hserves
      exact .inr ⟨_, l', by simp [Memory.perform, hok, Except.map], hl⟩
  | write addr x =>
    exact .inr (hs.write (by simpa [HeapCall.allowed] using hc))

/-- After every call the blocks fill the heap, and each client's payload is in a block of its own.
-/
theorem Kept.step {c : HeapCall} {s' : Tenancy} (hs : Kept s l) (h : heapStep s c = some s') :
    ∃ l', Kept s' l' := by
  unfold heapStep at h
  split at h
  · rename_i hc
    rcases hs.perform hc with ⟨e, herr, _⟩ | ⟨t, l', hok, hl⟩
    · rw [herr] at h
      cases h
    · rw [hok] at h
      cases h
      exact ⟨l', hl⟩
  · cases h

/-- The same along every run. -/
theorem Kept.of_run {mem : Bytes} (h : Run heapStep (fun _ _ => True) (heapStart mem) s) :
    ∃ l, Kept s l := by
  refine h.invariant (I := fun s => ∃ l, Kept s l) ⟨[], .start mem⟩ ?_
  intro a c b ha _ hstep
  obtain ⟨l, ha⟩ := ha
  exact ha.step hstep

def Tenancy.size (s : Tenancy) (v : Live) : Nat :=
  (s.heap.ram.mem.word (getBlockPtr v.ptr).toNat).toNat

def Tenancy.headers (s : Tenancy) : List Nat :=
  headersFrom s.heap.ram.mem s.heap.ram.kernelHeapCurrent.toNat
    s.heap.ram.kernelHeapCurrent.toNat kernelHeapBottom.toNat

structure Tenancy.Safe (s : Tenancy) : Prop where
  disjoint : s.live.Pairwise fun v w =>
    v.ptr.toNat + s.size v ≤ w.ptr.toNat ∨ w.ptr.toNat + s.size w ≤ v.ptr.toNat
  headers : ∀ v ∈ s.live, ∀ a ∈ s.headers, a + 16 ≤ v.ptr.toNat ∨ v.ptr.toNat + s.size v ≤ a
  listed : ∀ a ∈ listedFrom s.heap.ram.mem pointers s.heap.kblocklist, a ∈ s.headers
  own : ∀ v ∈ s.live, (getBlockPtr v.ptr).toNat ∈ s.headers
  inside : ∀ v ∈ s.live, kernelHeapBottom.toNat ≤ v.ptr.toNat ∧
    v.ptr.toNat + s.size v ≤ s.heap.ram.kernelHeapCurrent.toNat
  aligned : ∀ v ∈ s.live, v.ptr.toNat % 4 = 0
  large : ∀ v ∈ s.live, v.requested ≤ s.size v

theorem Kept.headers (hs : Kept s l) : s.headers = l.map Block.addr := by
  refine hs.heaped.tiled.headers ?_
  have := hs.heaped.tiled.le
  omega

theorem Kept.block {v : Live} (hs : Kept s l) (hv : v ∈ s.live) :
    ∃ b ∈ l, (getBlockPtr v.ptr).toNat = b.addr ∧ v.ptr.toNat = b.addr + 16 ∧ s.size v = b.size ∧
      v.requested ≤ b.size := by
  obtain ⟨b, hb, _, ha, hn⟩ := hs.held v hv
  have hptr : (getBlockPtr v.ptr).toNat = b.addr := by
    have := v.ptr.toNat_lt
    unfold getBlockPtr
    rw [UInt32.toNat_sub, ha]
    simp [sizeofBlockMeta]
    omega
  refine ⟨b, hb, hptr, ha, ?_, hn⟩
  unfold Tenancy.size
  rw [hptr]
  exact (hs.heaped.tiled.header_mem hb).size

theorem Kept.safe (hs : Kept s l) : s.Safe := by
  have hbottom : kernelHeapBottom.toNat = 0xD0000000 := rfl
  refine ⟨?_, fun v hv a ha => ?_, ?_, fun v hv => ?_, fun v hv => ?_, fun v hv => ?_, fun v hv => ?_⟩
  · have hne : s.live.Pairwise fun v w => v.ptr ≠ w.ptr := pairwise_map.mp hs.nodup
    refine hne.imp_of_mem fun {v w} hv hw hvw => ?_
    obtain ⟨b, hb, _, hvp, hvs, _⟩ := hs.block hv
    obtain ⟨c, hc, _, hwp, hws, _⟩ := hs.block hw
    rcases hs.heaped.tiled.apart_mem hb hc with rfl | h | h
    · exact absurd (UInt32.toNat_inj.mp (hvp.trans hwp.symm)) hvw
    · unfold Block.stop at h
      omega
    · unfold Block.stop at h
      omega
  · rw [hs.headers] at ha
    obtain ⟨c, hc, rfl⟩ := mem_map.mp ha
    obtain ⟨b, hb, _, hvp, hvs, _⟩ := hs.block hv
    rcases hs.heaped.tiled.apart_mem hb hc with rfl | h | h
    · omega
    · unfold Block.stop at h
      omega
    · unfold Block.stop at h
      omega
  · rw [hs.headers]
    exact hs.heaped.tiled.listed hs.heaped.head
  · obtain ⟨b, hb, hptr, _⟩ := hs.block hv
    rw [hs.headers, hptr]
    exact mem_map_of_mem hb
  · obtain ⟨b, hb, _, hvp, hvs, _⟩ := hs.block hv
    have := hs.heaped.tiled.bounds_mem hb
    unfold Block.stop at this
    omega
  · obtain ⟨b, hb, _, hvp, _⟩ := hs.block hv
    have := (hs.heaped.tiled.whole (by omega)).2 b hb
    omega
  · obtain ⟨b, _, _, _, hvs, hn⟩ := hs.block hv
    rw [hvs]
    exact hn

end Tenancy

/-- In every run of the kernel heap the live payloads are apart from each other and
from all headers, and no call comes to an assertion. -/
theorem kernel_heap_safe {mem : Bytes} {s : Tenancy}
    (h : Run heapStep (fun _ _ => True) (heapStart mem) s) :
    s.Safe ∧ ∀ c : HeapCall, c.allowed s = true → perform s c ≠ .error .assertNotReached := by
  obtain ⟨l, hs⟩ := Kept.of_run h
  refine ⟨hs.safe, fun c hc herr => ?_⟩
  rcases hs.perform hc with ⟨e, he, hne⟩ | ⟨s', l', hok, _⟩
  · rw [he] at herr
    exact hne (Except.error.inj herr)
  · rw [hok] at herr
    cases herr

theorem kernel_heap_safe_reuse : ∃ s : Tenancy,
    Run heapStep (fun _ _ => True) (heapStart fun _ => 0) s ∧
      s.live.map Live.ptr = [0xD0000010, 0xD000004C, 0xD0000038] ∧
      s.Safe ∧ ∀ c : HeapCall, c.allowed s = true → perform s c ≠ .error .assertNotReached := by
  obtain ⟨s, hrun, hlive⟩ := replay_reaches heapStep (fun _ _ => True) (heapStart fun _ => 0)
    [.kmalloc 21, .kmalloc 4, .kalignHeap, .write 0xD0000010 7, .kfree 0xD0000010, .kcalloc 2 3]
    (P := fun s => s.live.map Live.ptr = [0xD0000010, 0xD000004C, 0xD0000038]) (by decide +kernel)
  exact ⟨s, hrun, hlive, kernel_heap_safe hrun⟩

end Mos.Memory
