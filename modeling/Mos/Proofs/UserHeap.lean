import Mos.Libc.Malloc
import Mos.Machine.Checked
import Mos.Proofs.KernelHeap

namespace Mos.UserHeap
open Machine
open Memory (Allotted)

def userLayout : Layout := ⟨blockMagic, 0x2000000⟩

theorem offset_eq {p : UInt32} {a : Nat} (hp : p.toNat = a) (k : UInt32)
    (room : a + k.toNat < 2 ^ 32) : (p + k).toNat = a + k.toNat := by
  rw [UInt32.toNat_add, hp, Nat.mod_eq_of_lt room]

section Operations
variable {m : Bytes} {l : List Block} {lo hi : Nat} {z : UInt32}

theorem assertBlockValid_of_header {p : UInt32} {b : Block} (hp : p.toNat = b.addr)
    (hb : b.Header userLayout m) (room : b.stop < 2 ^ 32) : assertBlockValid m p = .ok () := by
  have h12 : (p + 12).toNat = b.addr + 12 := by
    apply offset_eq hp
    unfold Block.stop at room
    simp only [UInt32.reduceToNat]
    omega
  have hlimit : ¬upperLimit < m.word b.addr := by
    rw [UInt32.lt_iff_toNat_lt, hb.size]
    simpa [upperLimit, userLayout] using hb.limit
  unfold assertBlockValid
  rw [h12, hp, hb.magic]
  exact if_neg (by simpa [userLayout] using hlimit)

theorem findFreeBlock_spec (h : Tiled userLayout m 0 lo hi l) (low : 0 < lo) (high : hi < 2 ^ 32)
    (linked : ∀ b ∈ l, b.linked = true) {n : Nat} (hn : l.length < n) {q t : UInt32}
    (hq : q.toNat = firstLinked 0 l) :
    (∃ pre b post p t', l = pre ++ b :: post ∧ b.free = true ∧ z.toNat ≤ b.size ∧
        p.toNat = b.addr ∧ findFreeBlock m z n q t = .ok (p, t')) ∨
      ∃ t', findFreeBlock m z n q t = .ok (0, t') ∧
        t'.toNat = lastLinked t.toNat l := by
  induction h generalizing n q t with
  | nil a =>
    obtain rfl : q = 0 := UInt32.toNat_inj.mp hq
    cases n with
    | zero => simp at hn
    | succ n => exact .inr ⟨t, by simp [findFreeBlock, pure, Except.pure], rfl⟩
  | @cons hi l b header next rest ih =>
    have hlinked : b.linked = true := linked b (by simp)
    have hstop : b.stop < 2 ^ 32 := by
      have := rest.le
      omega
    have hnext := next hlinked
    simp only [firstLinked, hlinked, if_true] at hq
    simp only [List.length_cons] at hn
    cases n with
    | zero => omega
    | succ n =>
      have h4 : (q + 4).toNat = b.addr + 4 := offset_eq hq 4 (by unfold Block.stop at hstop; simp; omega)
      have h8 : (q + 8).toNat = b.addr + 8 := offset_eq hq 8 (by unfold Block.stop at hstop; simp; omega)
      have hq0 : q ≠ 0 := by
        rintro rfl
        simp at hq
        omega
      have htest : (m (q + 8).toNat ≠ 0 ∧ z ≤ m.word q.toNat) ↔ b.free = true ∧ z.toNat ≤ b.size := by
        rw [h8, hq, header.free, UInt32.le_iff_toNat_le, header.size]
      by_cases hfit : b.free = true ∧ z.toNat ≤ b.size
      · refine .inl ⟨[], b, l, q, t, rfl, hfit.1, hfit.2, hq, ?_⟩
        rw [findFreeBlock, if_neg (fun hn => hn.2 (htest.mpr hfit))]
        rfl
      · have hvalid : assertNextValid m (m.word (q + 4).toNat) = .ok () := by
          unfold assertNextValid
          split
          · rename_i hne
            rw [h4] at hne ⊢
            cases l with
            | nil => exact absurd (UInt32.toNat_inj.mp hnext) hne
            | cons c l =>
              obtain ⟨hc, hheader, -, hrest⟩ := rest.inv
              apply assertBlockValid_of_header (b := c) _ hheader
              · have := hrest.le
                omega
              · rw [hnext, firstLinked, if_pos (linked c (by simp))]
          · rfl
        have hstep : findFreeBlock m z (n + 1) q t =
            findFreeBlock m z n (m.word (b.addr + 4)) q := by
          rw [findFreeBlock, if_pos ⟨hq0, fun ht => hfit (htest.mp ht)⟩]
          rw [h4] at hvalid
          simp only [h4, hvalid, ok_bind]
        rw [hstep]
        have low' : 0 < b.stop := by
          unfold Block.stop
          omega
        rcases ih low' high (fun c hc => linked c (by simp [hc])) (n := n) (by omega) hnext (t := q)
          with ⟨pre, c, post, p, t', rfl, hfound⟩ | ⟨t', hfind, hlast⟩
        · exact .inl ⟨b :: pre, c, post, p, t', rfl, hfound⟩
        · exact .inr ⟨t', hfind, by simpa [lastLinked, hlinked, hq] using hlast⟩

theorem splitBlock_spec {pre post : List Block} {b : Block} {p : UInt32}
    (h : Tiled userLayout m 0 lo hi (pre ++ b :: post)) (high : hi < 2 ^ 32)
    (hp : p.toNat = b.addr) (linked : b.linked = true) (fits : z.toNat ≤ b.size)
    (whole : z.toNat % 4 = 0) :
    ∃ c rest, Tiled userLayout (splitBlock m p z) 0 lo hi (pre ++ (c :: rest ++ post)) ∧
      c.addr = b.addr ∧ c.free = b.free ∧ (∀ d ∈ c :: rest, d.linked = true) ∧
      z.toNat ≤ c.size := by
  have hb := h.header
  have hs := hb.size
  have hlim := hb.limit
  have hbounds := h.bounds
  simp only [Block.stop, userLayout] at hbounds hlim
  have h16 : (z + sizeofBlockMeta).toNat = z.toNat + 16 := by
    simp [sizeofBlockMeta]
    omega
  unfold splitBlock
  rw [hp]
  by_cases hcut : z + sizeofBlockMeta < m.word b.addr
  · simp only [if_pos hcut]
    have hcut' : z.toNat + 16 < b.size := by
      rw [UInt32.lt_iff_toNat_lt, h16, hs] at hcut
      exact hcut
    have hq : (p + z + sizeofBlockMeta).toNat = b.addr + 16 + z.toNat := by
      simp [sizeofBlockMeta]
      omega
    have hk (k : UInt32) (hk : k.toNat ≤ 12) :
        (p + z + sizeofBlockMeta + k).toNat = b.addr + 16 + z.toNat + k.toNat :=
      offset_eq hq k (by omega)
    have h4 := hk 4 (by decide)
    have h8 := hk 8 (by decide)
    have h12 := hk 12 (by decide)
    have hp4 := offset_eq hp 4 (by simp only [UInt32.reduceToNat]; omega)
    simp only [UInt32.reduceToNat] at h4 h8 h12 hp4
    rw [h4, h8, h12, hq, hp4]
    have hleft : (m.word b.addr - z - sizeofBlockMeta).toNat + z.toNat + 16 = b.size := by
      rw [UInt32.toNat_sub, UInt32.toNat_sub, hs]
      simp [sizeofBlockMeta]
      omega
    have htiled := h.cut linked hq hleft whole
    refine ⟨{ b with size := z.toNat },
      [⟨b.addr + 16 + z.toNat, (m.word b.addr - z - sizeofBlockMeta).toNat, true, true⟩],
      ?_, rfl, rfl, by simp [linked], le_rfl⟩
    simp (disch := omega) only [Bytes.word_setWord_of, Bytes.word_setByte_of]
    rw [hq] at htiled
    exact htiled
  · rw [if_neg hcut]
    refine ⟨b, [], ?_, rfl, rfl, by simp [linked], fits⟩
    simpa using h

end Operations

section Break
variable {h : Heap} {z : UInt32}

theorem sbrk_spec (h : Heap) (increment : UInt32) :
    sbrk h increment = .error .noMemory ∨ ∃ brk : UInt32,
      sbrk h increment = .ok (h.brk, { h with brk }) ∧ h.brk.toNat + increment.toNat ≤ brk.toNat ∧
        brk.toNat % 4096 = 0 ∧
        (h.brk.toNat % 4096 = 0 → increment = 0 → brk = h.brk) := by
  by_cases room : h.brk.toNat + increment.toNat + 4095 < 2 ^ 32
  · have hsum : (h.brk + increment).toNat = h.brk.toNat + increment.toNat := by
      rw [UInt32.toNat_add]
      omega
    have hup : (alignUp (h.brk + increment) 4096).toNat =
        ((h.brk + increment).toNat + 4096 - 1) / 4096 * 4096 := alignUp_toNat (k := 12) (by omega) (by omega)
    refine .inr ⟨_, if_pos room, by omega, by omega, ?_⟩
    rintro hpage rfl
    apply UInt32.toNat_inj.mp
    simp only [UInt32.reduceToNat] at hsum
    omega
  · exact .inl (if_neg room)

/-- What `get_heap` can be called with: `remaining` lies between `user_heap_current` and the
break, and before the first call it is 0. -/
structure Ready (h : Heap) : Prop where
  le : h.userHeapCurrent.toNat + h.remaining.toNat ≤ h.brk.toNat
  eq : h.remaining ≠ 0 → h.userHeapCurrent.toNat + h.remaining.toNat = h.brk.toNat

def Heap.top (h : Heap) : UInt32 := if h.userHeapCurrent = 0 then h.brk else h.userHeapCurrent

theorem initHeap_spec (hr : Ready h) (fresh : h.userHeapCurrent = 0 → h.remaining = 0) :
    initHeap h = .error .noMemory ∨ ∃ h', initHeap h = .ok h' ∧ Ready h' ∧
      h'.userHeapCurrent = h.top ∧ h'.mem = h.mem ∧ h'.blocklist = h.blocklist := by
  unfold initHeap Heap.top
  by_cases h0 : h.userHeapCurrent = 0
  · rw [if_pos h0, if_pos h0]
    obtain herr | ⟨brk, hok, hle, -⟩ := sbrk_spec h 0
    · rw [herr]
      exact .inl rfl
    · rw [hok, ok_bind]
      have hrem := fresh h0
      refine .inr ⟨_, rfl, ⟨?_, absurd hrem⟩, rfl, rfl, rfl⟩
      simpa [hrem] using hle
  · rw [if_neg h0, if_neg h0]
    exact .inr ⟨h, rfl, hr, rfl, rfl, rfl⟩

theorem getHeap_spec (hr : Ready h) (fresh : h.userHeapCurrent = 0 → h.remaining = 0)
    (hz : 0 < z.toNat) :
    getHeap h z = .error .noMemory ∨ ∃ h', getHeap h z = .ok (h.top, h') ∧
      h'.userHeapCurrent.toNat = h.top.toNat + z.toNat ∧
      h'.userHeapCurrent.toNat + h'.remaining.toNat = h'.brk.toNat ∧
      h'.mem = h.mem ∧ h'.blocklist = h.blocklist := by
  unfold getHeap
  obtain herr | ⟨i, hok, hi, htop, hmem, hlist⟩ := initHeap_spec hr fresh
  · rw [herr]
    exact .inl rfl
  · rw [hok, ok_bind, ← htop, ← hmem, ← hlist]
    have hlt := i.brk.toNat_lt
    have hle := hi.le
    simp only
    by_cases hrem : z ≤ i.remaining
    · rw [if_pos hrem]
      rw [UInt32.le_iff_toNat_le] at hrem
      have hsum : (i.userHeapCurrent + z).toNat = i.userHeapCurrent.toNat + z.toNat := by
        rw [UInt32.toNat_add]
        omega
      have hsub : (i.remaining - z).toNat = i.remaining.toNat - z.toNat := by
        rw [UInt32.toNat_sub]
        omega
      have heq := hi.eq (by rintro h0; simp [h0] at hrem; omega)
      exact .inr ⟨_, rfl, hsum, by simp only; omega, rfl, rfl⟩
    · rw [if_neg hrem]
      obtain herr | ⟨brk, hok, hge, hpage, -⟩ := sbrk_spec i z
      · rw [herr]
        exact .inl rfl
      · rw [hok, ok_bind]
        obtain herr | ⟨brk', hok', -, -, hsame⟩ := sbrk_spec { i with brk } 0
        · rw [herr]
          exact .inl rfl
        · obtain rfl := hsame hpage rfl
          rw [hok', ok_bind]
          have hlt' := brk'.toNat_lt
          have hsum : (i.userHeapCurrent + z).toNat = i.userHeapCurrent.toNat + z.toNat := by
            rw [UInt32.toNat_add]
            omega
          have hsub : (brk' - (i.userHeapCurrent + z)).toNat =
              brk'.toNat - (i.userHeapCurrent.toNat + z.toNat) := by
            rw [UInt32.toNat_sub, hsum]
            omega
          exact .inr ⟨_, rfl, hsum, by simp only; omega, rfl, rfl⟩

end Break

/-- The blocks of a heap that has been used: all are in the list, from the first one up to
`user_heap_current`, and what is left goes up to the break. -/
structure Used (h : Heap) (l : List Block) : Prop where
  tiled : Tiled userLayout h.mem 0 h.blocklist.toNat h.userHeapCurrent.toNat l
  linked : ∀ b ∈ l, b.linked = true
  nonempty : l ≠ []
  low : h.blocklist ≠ 0
  balance : h.userHeapCurrent.toNat + h.remaining.toNat = h.brk.toNat

structure Fresh (h : Heap) : Prop where
  current : h.userHeapCurrent = 0
  remaining : h.remaining = 0
  blocklist : h.blocklist = 0
  brk : h.brk ≠ 0

def Heaped (h : Heap) (l : List Block) : Prop := Used h l ∨ (Fresh h ∧ l = [])

section Used
variable {h : Heap} {l : List Block} {z : UInt32}

theorem Used.low_pos (hu : Used h l) : 0 < h.blocklist.toNat := by
  apply Nat.pos_of_ne_zero
  intro h0
  exact hu.low (UInt32.toNat_inj.mp h0)

theorem Used.head (hu : Used h l) : h.blocklist.toNat = firstLinked 0 l := by
  cases l with
  | nil => exact absurd rfl hu.nonempty
  | cons b l => rw [firstLinked, if_pos (hu.linked b (by simp)), hu.tiled.inv.1]

theorem Used.length (hu : Used h l) : l.length < pointers := by
  have := hu.tiled.le
  have := h.userHeapCurrent.toNat_lt
  unfold pointers
  omega

theorem Used.current_ne (hu : Used h l) : h.userHeapCurrent ≠ 0 := by
  intro h0
  have hlow := hu.low_pos
  have hle := hu.tiled.le
  rw [h0, UInt32.toNat_zero] at hle
  omega

theorem Used.ready (hu : Used h l) : Ready h := ⟨Nat.le_of_eq hu.balance, fun _ => hu.balance⟩

theorem Fresh.ready (hf : Fresh h) : Ready h := by
  refine ⟨?_, absurd hf.remaining⟩
  simp [hf.current, hf.remaining]

theorem requestSpace_spec (last : UInt32) (hr : Ready h)
    (fresh : h.userHeapCurrent = 0 → h.remaining = 0) {lo : Nat} (fits : z.toNat ≤ 0x2000000)
    (whole : z.toNat % 4 = 0)
    (tiled : Tiled userLayout (if last ≠ 0 then h.mem.setWord (last + 4).toNat h.top else h.mem)
      h.top.toNat lo h.top.toNat l) :
    requestSpace h last z = .error .noMemory ∨ ∃ h', requestSpace h last z = .ok (h.top, h') ∧
      Tiled userLayout h'.mem 0 lo h'.userHeapCurrent.toNat
        (l ++ [⟨h.top.toNat, z.toNat, false, true⟩]) ∧
      h'.userHeapCurrent.toNat + h'.remaining.toNat = h'.brk.toNat ∧
      h'.blocklist = h.blocklist := by
  have h16 : (z + sizeofBlockMeta).toNat = z.toNat + 16 := by
    simp [sizeofBlockMeta]
    omega
  unfold requestSpace
  obtain herr | ⟨h', hok, hcur, hbal, hmem, hlist⟩ :=
    getHeap_spec (z := z + sizeofBlockMeta) hr fresh (by omega)
  · rw [herr]
    exact .inl rfl
  · rw [hok, ok_bind]
    have hlt := h'.userHeapCurrent.toNat_lt
    refine .inr ⟨_, rfl, ?_, hbal, hlist⟩
    have htiled := tiled.extend (f := userLayout) fits whole
    have h4 := offset_eq (p := h.top) rfl 4 (by simp only [UInt32.reduceToNat]; omega)
    have h8 := offset_eq (p := h.top) rfl 8 (by simp only [UInt32.reduceToNat]; omega)
    have h12 := offset_eq (p := h.top) rfl 12 (by simp only [UInt32.reduceToNat]; omega)
    have hend : h'.userHeapCurrent.toNat = h.top.toNat + 16 + z.toNat := by omega
    simp only [putHeader, h4, h8, h12, hmem, hend]
    exact htiled

theorem Used.reuse (hu : Used h l) {pre post : List Block} {b : Block} {p : UInt32}
    (hl : l = pre ++ b :: post) (hp : p.toNat = b.addr) (free : b.free = true)
    (fits : z.toNat ≤ b.size) (whole : z.toNat % 4 = 0) :
    ∃ l', Used { h with mem := splitBlock (h.mem.setByte (p + 8).toNat 0) p z } l' ∧
      Allotted l l' p.toNat z.toNat := by
  subst hl
  have hlt := h.userHeapCurrent.toNat_lt
  have hb : b ∈ pre ++ b :: post := by simp
  have hbounds := hu.tiled.bounds
  have h8 : (p + 8).toNat = b.addr + 8 := by
    apply offset_eq hp
    unfold Block.stop at hbounds
    simp only [UInt32.reduceToNat]
    omega
  have hused := hu.tiled.setFree 0
  rw [← h8] at hused
  obtain ⟨c, rest, htiled, haddr, hfree, hlinked, hsize⟩ :=
    splitBlock_spec (z := z) (p := p) hused hlt hp (hu.linked b hb) fits whole
  refine ⟨pre ++ (c :: rest ++ post), ⟨htiled, ?_, by simp, hu.low, hu.balance⟩, ?_⟩
  · intro d hd
    simp only [List.mem_append] at hd
    rcases hd with hd | hd | hd
    · exact hu.linked d (by simp [hd])
    · exact hlinked d hd
    · exact hu.linked d (by simp [hd])
  · rw [hp]
    apply Allotted.reuse free hfree haddr hsize
    intro d hd
    have := hu.tiled.apart_mem hd hb
    tauto

theorem Used.extend (hu : Used h l) {last : UInt32} (hlast : last.toNat = lastLinked 0 l)
    (fits : z.toNat ≤ 0x2000000) (whole : z.toNat % 4 = 0) :
    requestSpace h last z = .error .noMemory ∨ ∃ p h' l', requestSpace h last z = .ok (p, h') ∧
      Used h' l' ∧ Allotted l l' p.toNat z.toNat := by
  have htop : h.top = h.userHeapCurrent := if_neg hu.current_ne
  obtain ⟨-, hnone⟩ | ⟨pre, b, post, rfl, hb, hlast', hpost⟩ := lastLinked_cases 0 l
  · obtain ⟨b, hb⟩ := List.exists_mem_of_ne_nil l hu.nonempty
    have := hu.linked b hb
    rw [hnone b hb] at this
    cases this
  · have hbounds := hu.tiled.bounds
    have hlow := hu.low_pos
    have hlt := h.userHeapCurrent.toNat_lt
    have hl0 : last ≠ 0 := by
      rintro rfl
      rw [hlast', UInt32.toNat_zero] at hlast
      omega
    have h4 : (last + 4).toNat = b.addr + 4 := by
      apply offset_eq (hlast.trans hlast')
      unfold Block.stop at hbounds
      simp only [UInt32.reduceToNat]
      omega
    have hrelink := hu.tiled.relink hb h.userHeapCurrent
    rw [map_unlink hpost, ← h4] at hrelink
    obtain herr | ⟨h', hok, htiled, hbal, hlist⟩ := requestSpace_spec last hu.ready
      (fun h0 => absurd h0 hu.current_ne) fits whole (by rw [if_pos hl0, htop]; exact hrelink)
    · exact .inl herr
    · refine .inr ⟨_, h', _, hok, ⟨by rw [hlist]; exact htiled, ?_, by simp, by rw [hlist]; exact hu.low,
        hbal⟩, ?_⟩
      · intro d hd
        rcases List.mem_append.mp hd with hd | hd
        · exact hu.linked d hd
        · rw [List.mem_singleton.mp hd]
      · rw [htop]
        exact .append (fun d hd => (hu.tiled.bounds_mem hd).2) fun d hd => ⟨d, hd, rfl, rfl, rfl⟩

theorem Fresh.first (hf : Fresh h) (fits : z.toNat ≤ 0x2000000) (whole : z.toNat % 4 = 0) :
    requestSpace h 0 z = .error .noMemory ∨ ∃ p h' l', requestSpace h 0 z = .ok (p, h') ∧
      Used { h' with blocklist := p } l' ∧ Allotted [] l' p.toNat z.toNat := by
  have htop : h.top = h.brk := if_pos hf.current
  obtain herr | ⟨h', hok, htiled, hbal, -⟩ := requestSpace_spec 0 hf.ready (l := [])
    (fun _ => hf.remaining) fits whole (by rw [if_neg (by simp)]; exact .nil _)
  · exact .inl herr
  · refine .inr ⟨_, h', _, hok, ⟨htiled, by simp, by simp, by rw [htop]; exact hf.brk, hbal⟩, ?_⟩
    exact .append (by simp) (by simp)

theorem takeBlock_spec (hh : Heaped h l) (fits : z.toNat ≤ 0x2000000) (whole : z.toNat % 4 = 0) :
    takeBlock h z = .error .noMemory ∨ ∃ p h' l', takeBlock h z = .ok (p, h') ∧
      Used h' l' ∧ Allotted l l' p.toNat z.toNat := by
  unfold takeBlock
  obtain hu | ⟨hf, rfl⟩ := hh
  · rw [if_pos hu.low]
    obtain ⟨pre, b, post, p, t, hl, hfree, hfit, hp, hfind⟩ | ⟨t, hfind, ht⟩ :=
      findFreeBlock_spec (z := z) (t := 0) hu.tiled hu.low_pos h.userHeapCurrent.toNat_lt hu.linked
        hu.length hu.head
    · obtain ⟨l', hu', hg⟩ := hu.reuse hl hp hfree hfit whole
      have hp0 : p ≠ 0 := by
        rintro rfl
        have := (hu.tiled.bounds_mem (b := b) (by simp [hl])).1
        have := hu.low_pos
        simp at hp
        omega
      rw [hfind, ok_bind]
      exact .inr ⟨p, _, l', if_pos hp0, hu', hg⟩
    · rw [hfind, ok_bind]
      simpa using hu.extend ht fits whole
  · rw [if_neg (by simp [hf.blocklist])]
    obtain herr | ⟨p, h', l', hok, hu, hg⟩ := hf.first fits whole
    · rw [herr]
      exact .inl rfl
    · rw [hok]
      exact .inr ⟨p, _, l', rfl, hu, hg⟩

/-- What a call returns: NULL, or the payload of a block that was not in use. -/
def Serves (l : List Block) (h' : Heap) (p : UInt32) (n : Nat) : Prop :=
  (p = 0 ∧ Heaped h' l) ∨ ∃ l' addr, p.toNat = addr + 16 ∧ Used h' l' ∧ Allotted l l' addr n

theorem malloc_spec (hh : Heaped h l) (fits : z.toNat ≤ 0x2000000) :
    malloc h z = .error .noMemory ∨
      ∃ p h', malloc h z = .ok (p, h') ∧ Serves l h' p z.toNat := by
  unfold malloc
  by_cases h0 : z = 0
  · rw [if_pos h0]
    exact .inr ⟨0, h, rfl, .inl ⟨rfl, hh⟩⟩
  · rw [if_neg h0]
    have hup : (alignUp z 4).toNat = (z.toNat + 4 - 1) / 4 * 4 :=
      alignUp_toNat (k := 2) (by omega) (by omega)
    obtain herr | ⟨p, h', l', hok, hu, hg⟩ :=
      takeBlock_spec (z := alignUp z 4) hh (by omega) (by omega)
    · rw [herr]
      exact .inl rfl
    · obtain ⟨b, hb, ha, -, -⟩ := hg.new
      have hbounds := hu.tiled.bounds_mem hb
      have hlow := hu.low_pos
      have hlt := h'.userHeapCurrent.toNat_lt
      have hp0 : p ≠ 0 := by
        rintro rfl
        rw [UInt32.toNat_zero] at ha
        omega
      have h16 : (p + sizeofBlockMeta).toNat = p.toNat + 16 := by
        apply offset_eq rfl
        unfold Block.stop at hbounds
        simp only [sizeofBlockMeta, UInt32.reduceToNat]
        omega
      have hvalid : assertBlockValid h'.mem p = .ok () :=
        assertBlockValid_of_header ha.symm (hu.tiled.header_mem hb) (by omega)
      refine .inr ⟨p + sizeofBlockMeta, h', ?_, .inr ⟨l', p.toNat, h16, hu, hg.mono (by omega)⟩⟩
      simp only [hok, ok_bind, hvalid]
      exact if_pos hp0

theorem Used.payload {m : Bytes} {b : Block} (hu : Used h l) (hb : b ∈ l)
    (before : ∀ x, x < b.addr + 16 → m x = h.mem x) (behind : ∀ x, b.stop ≤ x → m x = h.mem x) :
    Used { h with mem := m } l :=
  ⟨hu.tiled.payload hb before behind, hu.linked, hu.nonempty, hu.low, hu.balance⟩

theorem calloc_spec {n : UInt32} (hh : Heaped h l) (fits : n.toNat * z.toNat ≤ 0x2000000) :
    calloc h n z = .error .noMemory ∨
      ∃ p h', calloc h n z = .ok (p, h') ∧ Serves l h' p (n.toNat * z.toNat) := by
  have hmul : (n * z).toNat = n.toNat * z.toNat := by
    rw [UInt32.toNat_mul]
    omega
  unfold calloc
  obtain herr | ⟨p, h', hok, hserves⟩ := malloc_spec (z := n * z) hh (by omega)
  · rw [herr]
    exact .inl rfl
  · rw [hok, ok_bind]
    rw [hmul] at hserves
    obtain ⟨rfl, hh'⟩ | ⟨l', addr, hp, hu, hg⟩ := hserves
    · exact .inr ⟨0, h', rfl, .inl ⟨rfl, hh'⟩⟩
    · obtain ⟨b, hb, ha, -, hs⟩ := hg.new
      have hp0 : p ≠ 0 := by
        rintro rfl
        rw [UInt32.toNat_zero] at hp
        omega
      refine .inr ⟨p, _, if_pos hp0, .inr ⟨l', addr, hp, hu.payload hb ?_ ?_, hg⟩⟩
      · intro x hx
        exact Bytes.fill_agree (k := 1) 0 (.inr (by omega)) x le_rfl (by omega)
      · intro x hx
        unfold Block.stop at hx
        exact Bytes.fill_agree (k := 1) 0 (.inl (by omega)) x le_rfl (by omega)

theorem free_spec {pre post : List Block} {b : Block} {p : UInt32}
    (hu : Used h (pre ++ b :: post)) (hp : p.toNat = b.addr + 16) :
    Used (free h p) (pre ++ { b with free := true } :: post) := by
  have hbounds := hu.tiled.bounds
  have hlt := h.userHeapCurrent.toNat_lt
  unfold Block.stop at hbounds
  have hp0 : p ≠ 0 := by
    rintro rfl
    rw [UInt32.toNat_zero] at hp
    omega
  have h8 : (getBlockPtr p + 8).toNat = b.addr + 8 := by
    have hptr : (getBlockPtr p).toNat = b.addr := by
      unfold getBlockPtr
      rw [UInt32.toNat_sub, hp]
      simp [sizeofBlockMeta]
      omega
    apply offset_eq hptr
    simp only [UInt32.reduceToNat]
    omega
  have hlinked := hu.linked
  unfold free
  rw [if_neg hp0, h8]
  refine ⟨hu.tiled.setFree 1, ?_, by simp, hu.low, hu.balance⟩
  intro d hd
  rcases List.mem_append.mp hd with hd | hd
  · exact hlinked d (by simp [hd])
  · rcases List.mem_cons.mp hd with rfl | hd
    · exact hlinked b (by simp)
    · exact hlinked d (by simp [hd])

end Used

/-- The heap's blocks and the payloads the program holds, each of a block in use. -/
structure Kept (s : Program) (l : List Block) : Prop where
  heaped : Heaped s.heap l
  nodup : (s.live.map Live.ptr).Nodup
  held : ∀ v ∈ s.live, ∃ b ∈ l, b.free = false ∧ v.ptr.toNat = b.addr + 16 ∧ v.requested ≤ b.size

section Program
variable {s : Program} {l : List Block}

theorem Kept.start (mem : Bytes) {brk : UInt32} (pos : brk ≠ 0) :
    Kept (UserHeap.start mem brk) [] :=
  ⟨.inr ⟨⟨rfl, rfl, rfl, pos⟩, rfl⟩, .nil, nofun⟩

theorem Kept.used {v : Live} (hs : Kept s l) (hv : v ∈ s.live) : Used s.heap l := by
  obtain hu | ⟨-, rfl⟩ := hs.heaped
  · exact hu
  · obtain ⟨b, hb, -⟩ := hs.held v hv
    cases hb

theorem Kept.grant {h' : Heap} {p : UInt32} {n : Nat} (hs : Kept s l) (hserves : Serves l h' p n) :
    ∃ l', Kept (s.grant n (p, h')) l' := by
  obtain ⟨rfl, hh⟩ | ⟨l', addr, hp, hu, hg⟩ := hserves
  · exact ⟨l, hh, hs.nodup, hs.held⟩
  · have hp0 : p ≠ 0 := by
      rintro rfl
      rw [UInt32.toNat_zero] at hp
      omega
    have hlive : (s.grant n (p, h')).live = ⟨p, n⟩ :: s.live := if_neg hp0
    refine ⟨l', .inl hu, ?_, ?_⟩
    · rw [hlive, List.map_cons, List.nodup_cons]
      refine ⟨?_, hs.nodup⟩
      intro hmem
      obtain ⟨v, hv, hvp⟩ := List.mem_map.mp hmem
      obtain ⟨b, hb, hf, ha, -⟩ := hs.held v hv
      have hne := (hg.kept b hb hf).1
      rw [hvp, hp] at ha
      omega
    · rw [hlive]
      intro v hv
      rcases List.mem_cons.mp hv with rfl | hv
      · obtain ⟨b, hb, ha, hf, hn⟩ := hg.new
        exact ⟨b, hb, hf, by rw [hp, ha], hn⟩
      · obtain ⟨b, hb, hf, ha, hn⟩ := hs.held v hv
        obtain ⟨-, c, hc, hca, hcs, hcf⟩ := hg.kept b hb hf
        exact ⟨c, hc, hcf, by rw [hca, ha], by rw [hcs]; exact hn⟩

theorem Kept.free {p : UInt32} (hs : Kept s l) (hp : ∃ v ∈ s.live, v.ptr = p) :
    ∃ s' l', perform s (.free p) = .ok s' ∧ Kept s' l' := by
  obtain ⟨v, hv, rfl⟩ := hp
  have hu := hs.used hv
  obtain ⟨b, hb, -, ha, -⟩ := hs.held v hv
  obtain ⟨pre, post, rfl⟩ := List.append_of_mem hb
  refine ⟨_, _, rfl, .inl (free_spec hu ha), ?_, ?_⟩
  · exact hs.nodup.sublist (List.Sublist.map _ List.filter_sublist)
  · intro w hw
    obtain ⟨hw, hne⟩ := List.mem_filter.mp hw
    obtain ⟨c, hc, hf, hca, hn⟩ := hs.held w hw
    have hcb : c ≠ b := by
      rintro rfl
      have : w.ptr = v.ptr := UInt32.toNat_inj.mp (hca.trans ha.symm)
      simp [this] at hne
    refine ⟨c, ?_, hf, hca, hn⟩
    have : c ∈ pre ∨ c ∈ post := by simpa [hcb] using hc
    simp
    tauto

theorem Kept.write {addr : UInt32} {x : UInt8} (hs : Kept s l)
    (inside : ∃ v ∈ s.live, v.ptr ≤ addr ∧ addr.toNat < v.ptr.toNat + v.requested) :
    ∃ s' l', perform s (.write addr x) = .ok s' ∧ Kept s' l' := by
  obtain ⟨v, hv, hlo, hhi⟩ := inside
  obtain ⟨b, hb, -, ha, hn⟩ := hs.held v hv
  rw [UInt32.le_iff_toNat_le] at hlo
  refine ⟨_, l, rfl, .inl ((hs.used hv).payload hb ?_ ?_), hs.nodup, hs.held⟩
  · intro y hy
    exact Bytes.setByte_of x (by omega)
  · intro y hy
    unfold Block.stop at hy
    exact Bytes.setByte_of x (by omega)

theorem Kept.perform {c : Call} (hs : Kept s l) (hc : c.allowed s = true) :
    perform s c = .error .noMemory ∨ ∃ s' l', perform s c = .ok s' ∧ Kept s' l' := by
  cases c with
  | malloc size =>
    obtain herr | ⟨p, h', hok, hserves⟩ := malloc_spec hs.heaped (of_decide_eq_true hc)
    · exact .inl (by simp [UserHeap.perform, herr, Except.map])
    · obtain ⟨l', hl⟩ := hs.grant hserves
      exact .inr ⟨_, l', by simp [UserHeap.perform, hok, Except.map], hl⟩
  | calloc n size =>
    obtain herr | ⟨p, h', hok, hserves⟩ := calloc_spec hs.heaped (of_decide_eq_true hc)
    · exact .inl (by simp [UserHeap.perform, herr, Except.map])
    · obtain ⟨l', hl⟩ := hs.grant hserves
      exact .inr ⟨_, l', by simp [UserHeap.perform, hok, Except.map], hl⟩
  | free p => exact .inr (hs.free (by simpa [Call.allowed] using hc))
  | write addr x => exact .inr (hs.write (by simpa [Call.allowed] using hc))

/-- A call of the allocator keeps its list of blocks. -/
theorem Kept.step {c : Call} {s' : Program} (hs : Kept s l) (h : step s c = some s') :
    ∃ l', Kept s' l' := by
  unfold UserHeap.step at h
  split at h
  · rename_i hc
    obtain herr | ⟨t, l', hok, hl⟩ := hs.perform hc
    · rw [herr] at h
      cases h
    · rw [hok] at h
      cases h
      exact ⟨l', hl⟩
  · cases h

/-- The list from `p` on, whose headers are `l`: each block ends where the next one of the list
begins, and the last one at `stop`. -/
inductive Tiles (m : Bytes) (stop : Nat) : UInt32 → List UInt32 → Prop where
  | last {p : UInt32} (ended : m.word (p.toNat + 4) = 0)
      (fills : p.toNat + 16 + (m.word p.toNat).toNat = stop) : Tiles m stop p [p]
  | next {p : UInt32} {l : List UInt32}
      (follows : (m.word (p.toNat + 4)).toNat = p.toNat + 16 + (m.word p.toNat).toNat)
      (rest : Tiles m stop (m.word (p.toNat + 4)) l) : Tiles m stop p (p :: l)

theorem Tiled.tiles {m : Bytes} {lo hi : Nat} {p : UInt32} (h : Tiled userLayout m 0 lo hi l)
    (linked : ∀ b ∈ l, b.linked = true) (nonempty : l ≠ []) (hp : p.toNat = lo) :
    ∃ headers, Tiles m hi p headers ∧ headers.map UInt32.toNat = l.map Block.addr := by
  induction h generalizing p with
  | nil => exact absurd rfl nonempty
  | @cons hi l b header next rest ih =>
    have hnext := next (linked b (by simp))
    cases l with
    | nil =>
      have hstop : hi = b.stop := by
        generalize b.stop = a at rest
        cases rest
        rfl
      refine ⟨[p], .last ?_ ?_, by simp [hp]⟩
      · rw [hp]
        exact UInt32.toNat_inj.mp hnext
      · rw [hp, header.size, hstop]
        rfl
    | cons c l =>
      rw [firstLinked, if_pos (linked c (by simp)), ← rest.inv.1] at hnext
      obtain ⟨headers, htiles, hmap⟩ :=
        ih (fun d hd => linked d (by simp [hd])) (by simp) hnext
      refine ⟨p :: headers, .next ?_ (by rw [hp]; exact htiles), by simp [hp, hmap]⟩
      rw [hp, hnext, header.size]
      rfl

def Program.size (s : Program) (v : Live) : Nat :=
  (s.heap.mem.word (getBlockPtr v.ptr).toNat).toNat

structure Program.Safe (s : Program) : Prop where
  unused : s.heap.blocklist = 0 →
    s.live = [] ∧ s.heap.userHeapCurrent = 0 ∧ s.heap.remaining = 0
  tiles : s.heap.blocklist ≠ 0 →
    ∃ headers, Tiles s.heap.mem s.heap.userHeapCurrent.toNat s.heap.blocklist headers ∧
      ∀ v ∈ s.live, getBlockPtr v.ptr ∈ headers
  disjoint : s.live.Pairwise fun v w =>
    v.ptr.toNat + s.size v ≤ w.ptr.toNat ∨ w.ptr.toNat + s.size w ≤ v.ptr.toNat
  large : ∀ v ∈ s.live, v.requested ≤ s.size v
  below : ∀ v ∈ s.live, v.ptr.toNat + s.size v ≤ s.heap.brk.toNat
  balance : s.heap.blocklist ≠ 0 →
    s.heap.userHeapCurrent.toNat + s.heap.remaining.toNat = s.heap.brk.toNat

theorem Kept.block {v : Live} (hs : Kept s l) (hv : v ∈ s.live) :
    ∃ b ∈ l, (getBlockPtr v.ptr).toNat = b.addr ∧ v.ptr.toNat = b.addr + 16 ∧ s.size v = b.size ∧
      v.requested ≤ b.size := by
  obtain ⟨b, hb, -, ha, hn⟩ := hs.held v hv
  have hptr : (getBlockPtr v.ptr).toNat = b.addr := by
    have := v.ptr.toNat_lt
    unfold getBlockPtr
    rw [UInt32.toNat_sub, ha]
    simp [sizeofBlockMeta]
    omega
  refine ⟨b, hb, hptr, ha, ?_, hn⟩
  unfold Program.size
  rw [hptr]
  exact ((hs.used hv).tiled.header_mem hb).size

theorem Kept.used_of_list (hs : Kept s l) (h0 : s.heap.blocklist ≠ 0) : Used s.heap l := by
  obtain hu | ⟨hf, -⟩ := hs.heaped
  · exact hu
  · exact absurd hf.blocklist h0

theorem Kept.safe (hs : Kept s l) : s.Safe := by
  refine ⟨?_, ?_, ?_, ?_, ?_, fun h0 => (hs.used_of_list h0).balance⟩
  · intro h0
    obtain hu | ⟨hf, -⟩ := hs.heaped
    · exact absurd h0 hu.low
    · refine ⟨List.eq_nil_iff_forall_not_mem.mpr ?_, hf.current, hf.remaining⟩
      intro v hv
      exact (hs.used hv).low h0
  · intro h0
    have hu := hs.used_of_list h0
    obtain ⟨headers, htiles, hmap⟩ := Tiled.tiles hu.tiled hu.linked hu.nonempty rfl
    refine ⟨headers, htiles, ?_⟩
    intro v hv
    obtain ⟨b, hb, hptr, -⟩ := hs.block hv
    have hmem : b.addr ∈ headers.map UInt32.toNat := hmap ▸ List.mem_map_of_mem hb
    obtain ⟨q, hq, hqa⟩ := List.mem_map.mp hmem
    rwa [UInt32.toNat_inj.mp (hptr.trans hqa.symm)]
  · have hne : s.live.Pairwise fun v w => v.ptr ≠ w.ptr := List.pairwise_map.mp hs.nodup
    apply hne.imp_of_mem
    intro v w hv hw hvw
    obtain ⟨b, hb, -, hvp, hvs, -⟩ := hs.block hv
    obtain ⟨c, hc, -, hwp, hws, -⟩ := hs.block hw
    rcases (hs.used hv).tiled.apart_mem hb hc with rfl | h | h
    · exact absurd (UInt32.toNat_inj.mp (hvp.trans hwp.symm)) hvw
    · unfold Block.stop at h
      omega
    · unfold Block.stop at h
      omega
  · intro v hv
    obtain ⟨b, -, -, -, hvs, hn⟩ := hs.block hv
    rw [hvs]
    exact hn
  · intro v hv
    obtain ⟨b, hb, -, hvp, hvs, -⟩ := hs.block hv
    have hbounds := ((hs.used hv).tiled.bounds_mem hb).2
    have hbalance := (hs.used hv).balance
    unfold Block.stop at hbounds
    omega

end Program

/-- In every run the blocks of the list lie side by side up to `user_heap_current`, the
payloads in use are apart and below the break, and each call returns. -/
theorem user_heap_safe {mem : Bytes} {brk : UInt32} {s : Program} (pos : brk ≠ 0)
    (run : Run step (fun _ _ => True) (start mem brk) s) :
    s.Safe ∧ ∀ c : Call, c.allowed s = true →
      perform s c = .error .noMemory ∨ ∃ s', perform s c = .ok s' := by
  obtain ⟨l, hs⟩ : ∃ l, Kept s l := by
    apply run.invariant (I := fun s => ∃ l, Kept s l) ⟨[], .start mem pos⟩
    intro a c b ha _ next
    obtain ⟨l, ha⟩ := ha
    exact ha.step next
  refine ⟨hs.safe, ?_⟩
  intro c hc
  obtain herr | ⟨s', l', hok, -⟩ := hs.perform hc
  · exact .inl herr
  · exact .inr ⟨s', hok⟩

theorem user_heap_safe_reuse : ∃ s : Program,
    Run step (fun _ _ => True) (start (fun _ => 0) 0x8000) s ∧
      s.live.map Live.ptr = [0x8010, 0x8044] ∧ s.Safe := by
  obtain ⟨s, run, live⟩ := replay_reaches step (fun _ _ => True) (start (fun _ => 0) 0x8000)
    [.malloc 33, .malloc 5000, .write 0x8010 7, .free 0x8010, .calloc 2 3]
    (P := fun s => s.live.map Live.ptr = [0x8010, 0x8044]) (by decide +kernel)
  exact ⟨s, run, live, (user_heap_safe (by decide) run).1⟩

/-- Before the first block is requested, `user_heap_current` is 0 and the break is not. -/
theorem unused_heap_unbalanced : ∃ s : Program,
    Run step (fun _ _ => True) (start (fun _ => 0) 0x8000) s ∧
      s.heap.userHeapCurrent.toNat + s.heap.remaining.toNat ≠ s.heap.brk.toNat :=
  ⟨_, .refl, by decide⟩

end Mos.UserHeap
