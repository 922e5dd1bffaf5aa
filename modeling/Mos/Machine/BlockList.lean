import Mos.Machine.Bytes

namespace Mos.Machine

/-- A block of a heap as its header describes it: 16 bytes with the size, the next
block of a list, a free byte and a magic number, then `size` bytes of payload. -/
structure Block where
  addr : Nat
  size : Nat
  free : Bool
  linked : Bool
  deriving DecidableEq, Repr

/-- The magic number of a heap's headers and the largest size they may hold. -/
structure Layout where
  magic : UInt32
  limit : Nat

namespace Block

def stop (b : Block) : Nat := b.addr + 16 + b.size

structure Header (f : Layout) (m : Bytes) (b : Block) : Prop where
  size : (m.word b.addr).toNat = b.size
  free : m (b.addr + 8) ≠ 0 ↔ b.free = true
  magic : m.word (b.addr + 12) = f.magic
  limit : b.size ≤ f.limit
  whole : b.size % 4 = 0

end Block

/-- The list continues with the first linked block of `l`, or with `after`. -/
def firstLinked (after : Nat) : List Block → Nat
  | [] => after
  | b :: l => if b.linked then b.addr else firstLinked after l

def lastLinked (before : Nat) : List Block → Nat
  | [] => before
  | b :: l => lastLinked (if b.linked then b.addr else before) l

/-- The blocks of `l` lie side by side from `lo` to `hi`. Those that are linked form
a list in the order of their addresses, which goes on at `after`. -/
inductive Tiled (f : Layout) (m : Bytes) (after : Nat) : Nat → Nat → List Block → Prop where
  | nil (a : Nat) : Tiled f m after a a []
  | cons {hi : Nat} {l : List Block} (b : Block) (header : b.Header f m)
      (next : b.linked = true → (m.word (b.addr + 4)).toNat = firstLinked after l)
      (rest : Tiled f m after b.stop hi l) : Tiled f m after b.addr hi (b :: l)

section
variable {f : Layout} {m m' : Bytes} {after lo hi : Nat} {l pre post : List Block} {b : Block}

theorem firstLinked_append (after : Nat) (l₁ l₂ : List Block) :
    firstLinked after (l₁ ++ l₂) = firstLinked (firstLinked after l₂) l₁ := by
  induction l₁ with
  | nil => rfl
  | cons b l ih => simp only [List.cons_append, firstLinked, ih]

theorem firstLinked_eq (after : Nat) (hl : ∀ b ∈ l, b.linked = false) :
    firstLinked after l = after := by
  induction l with
  | nil => rfl
  | cons b l ih =>
    rw [firstLinked, hl b (by simp)]
    exact ih fun c hc => hl c (by simp [hc])

theorem firstLinked_cases (after : Nat) (l : List Block) :
    (firstLinked after l = after ∧ ∀ b ∈ l, b.linked = false) ∨
      ∃ pre b post, l = pre ++ b :: post ∧ b.linked = true ∧
        ∀ k, firstLinked k l = b.addr := by
  induction l with
  | nil => exact .inl ⟨rfl, by simp⟩
  | cons c l ih =>
    cases hc : c.linked with
    | true => exact .inr ⟨[], c, l, rfl, hc, fun k => by simp [firstLinked, hc]⟩
    | false =>
      rcases ih with ⟨he, hn⟩ | ⟨pre, b, post, rfl, hb, he⟩
      · exact .inl ⟨by simpa [firstLinked, hc] using he, by simpa [hc] using hn⟩
      · exact .inr ⟨c :: pre, b, post, rfl, hb, fun k => by simpa [firstLinked, hc] using he k⟩

/-- Either nothing is linked, or the last linked block can be singled out. -/
theorem lastLinked_cases (before : Nat) (l : List Block) :
    (lastLinked before l = before ∧ ∀ b ∈ l, b.linked = false) ∨
      ∃ pre b post, l = pre ++ b :: post ∧ b.linked = true ∧ lastLinked before l = b.addr ∧
        ∀ c ∈ post, c.linked = false := by
  induction l generalizing before with
  | nil => exact .inl ⟨rfl, by simp⟩
  | cons c l ih =>
    rw [lastLinked]
    rcases ih (if c.linked then c.addr else before) with ⟨he, hn⟩ | ⟨pre, b, post, hl, hb, he, hn⟩
    · cases hc : c.linked with
      | true =>
        rw [hc] at he
        exact .inr ⟨[], c, l, rfl, hc, he, hn⟩
      | false =>
        rw [hc] at he
        exact .inl ⟨he, by simpa [hc] using hn⟩
    · exact .inr ⟨c :: pre, b, post, by rw [hl]; rfl, hb, he, hn⟩

theorem Tiled.le (h : Tiled f m after lo hi l) : lo + 16 * l.length ≤ hi := by
  induction h with
  | nil => simp
  | cons b _ _ _ ih =>
    simp only [Block.stop, List.length_cons] at ih ⊢
    omega

theorem Tiled.inv (h : Tiled f m after lo hi (b :: l)) :
    lo = b.addr ∧ b.Header f m ∧
      (b.linked = true → (m.word (b.addr + 4)).toNat = firstLinked after l) ∧
      Tiled f m after b.stop hi l := by
  cases h with
  | cons _ header next rest => exact ⟨rfl, header, next, rest⟩

theorem Tiled.append {l₁ l₂ : List Block} {k : Nat}
    (h₁ : Tiled f m (firstLinked after l₂) lo k l₁) (h₂ : Tiled f m after k hi l₂) :
    Tiled f m after lo hi (l₁ ++ l₂) := by
  induction h₁ with
  | nil => exact h₂
  | cons b header next _ ih =>
    refine .cons b header (fun hb => ?_) (ih h₂)
    exact (next hb).trans (firstLinked_append after _ _).symm

theorem Tiled.split {l₁ l₂ : List Block} (h : Tiled f m after lo hi (l₁ ++ l₂)) :
    ∃ mid, Tiled f m (firstLinked after l₂) lo mid l₁ ∧ Tiled f m after mid hi l₂ := by
  induction l₁ generalizing lo with
  | nil => exact ⟨lo, .nil lo, h⟩
  | cons b l ih =>
    obtain ⟨rfl, header, next, rest⟩ := h.inv
    obtain ⟨mid, h₁, h₂⟩ := ih rest
    exact ⟨mid, .cons b header (fun hb => firstLinked_append after l l₂ ▸ next hb) h₁, h₂⟩

theorem Tiled.at (h : Tiled f m after lo hi (pre ++ b :: post)) :
    Tiled f m (firstLinked after (b :: post)) lo b.addr pre ∧
      Tiled f m (firstLinked after post) b.addr b.stop [b] ∧ Tiled f m after b.stop hi post := by
  obtain ⟨mid, h₁, h₂⟩ := h.split
  obtain ⟨rfl, header, next, rest⟩ := h₂.inv
  exact ⟨h₁, .cons b header next (.nil _), rest⟩

theorem Tiled.header (h : Tiled f m after lo hi (pre ++ b :: post)) : b.Header f m := by
  obtain ⟨_, hb, _⟩ := h.at
  exact hb.inv.2.1

theorem Tiled.next (h : Tiled f m after lo hi (pre ++ b :: post)) (hb : b.linked = true) :
    (m.word (b.addr + 4)).toNat = firstLinked after post := by
  obtain ⟨_, hb', _⟩ := h.at
  exact hb'.inv.2.2.1 hb

theorem Tiled.bounds (h : Tiled f m after lo hi (pre ++ b :: post)) : lo ≤ b.addr ∧ b.stop ≤ hi := by
  obtain ⟨h₁, _, h₂⟩ := h.at
  have := h₁.le
  have := h₂.le
  omega

theorem Tiled.bounds_mem (h : Tiled f m after lo hi l) (hb : b ∈ l) : lo ≤ b.addr ∧ b.stop ≤ hi := by
  obtain ⟨pre, post, rfl⟩ := List.append_of_mem hb
  exact h.bounds

theorem Tiled.header_mem (h : Tiled f m after lo hi l) (hb : b ∈ l) : b.Header f m := by
  obtain ⟨pre, post, rfl⟩ := List.append_of_mem hb
  exact h.header

theorem Tiled.whole (h : Tiled f m after lo hi l) (h4 : lo % 4 = 0) :
    hi % 4 = 0 ∧ ∀ b ∈ l, b.addr % 4 = 0 := by
  induction h with
  | nil => exact ⟨h4, by simp⟩
  | cons b header _ _ ih =>
    have := header.whole
    obtain ⟨h₁, h₂⟩ := ih (by unfold Block.stop; omega)
    exact ⟨h₁, by simpa [h4] using h₂⟩

theorem Tiled.apart_mem {c : Block} (h : Tiled f m after lo hi l) (hb : b ∈ l) (hc : c ∈ l) :
    b = c ∨ b.stop ≤ c.addr ∨ c.stop ≤ b.addr := by
  obtain ⟨pre, post, rfl⟩ := List.append_of_mem hb
  obtain ⟨h₁, _, h₂⟩ := h.at
  rcases List.mem_append.mp hc with hc | hc
  · exact .inr (.inr (h₁.bounds_mem hc).2)
  · rcases List.mem_cons.mp hc with hc | hc
    · exact .inl hc.symm
    · exact .inr (.inl (h₂.bounds_mem hc).1)

theorem Block.Header.agree (h : b.Header f m) (ag : Bytes.Agree m m' b.addr 16) : b.Header f m' := by
  refine ⟨?_, ?_, ?_, h.limit, h.whole⟩
  · rw [ag.word (by omega) (by omega)]
    exact h.size
  · rw [ag (b.addr + 8) (by omega) (by omega)]
    exact h.free
  · rw [ag.word (by omega) (by omega)]
    exact h.magic

theorem Tiled.agree (h : Tiled f m after lo hi l) (ag : ∀ b ∈ l, Bytes.Agree m m' b.addr 16) :
    Tiled f m' after lo hi l := by
  induction h with
  | nil a => exact .nil a
  | cons b header next _ ih =>
    have hb := ag b (by simp)
    refine .cons b (header.agree hb) (fun hl => ?_) (ih fun c hc => ag c (by simp [hc]))
    rw [hb.word (by omega) (by omega)]
    exact next hl

theorem Tiled.outside (h : Tiled f m after lo hi l) (ag : Bytes.Agree m m' lo (hi - lo)) :
    Tiled f m' after lo hi l := by
  refine h.agree fun b hb => ag.mono (h.bounds_mem hb).1 ?_
  have := h.bounds_mem hb
  unfold Block.stop at this
  omega

theorem Tiled.replace (h : Tiled f m after lo hi (pre ++ b :: post))
    (before : Bytes.Agree m m' lo (b.addr - lo)) (behind : Bytes.Agree m m' b.stop (hi - b.stop))
    (new : Tiled f m' (firstLinked after post) b.addr b.stop l)
    (first : ∀ k, firstLinked k l = firstLinked k [b]) :
    Tiled f m' after lo hi (pre ++ (l ++ post)) := by
  obtain ⟨h₁, _, h₂⟩ := h.at
  refine .append ?_ (.append new (h₂.outside behind))
  rw [firstLinked_append, first]
  exact h₁.outside before

theorem Tiled.payload (h : Tiled f m after lo hi l) (hb : b ∈ l)
    (before : ∀ x, x < b.addr + 16 → m' x = m x) (behind : ∀ x, b.stop ≤ x → m' x = m x) :
    Tiled f m' after lo hi l := by
  refine h.agree fun c hc x h₁ h₂ => ?_
  rcases h.apart_mem hb hc with rfl | ha | ha
  · exact before x h₂
  · exact behind x (by omega)
  · exact before x (by unfold Block.stop at ha; omega)

theorem Tiled.ended (h : Tiled f m after lo hi l) (hl : ∀ b ∈ l, b.linked = false) (k : Nat) :
    Tiled f m k lo hi l := by
  induction h with
  | nil a => exact .nil a
  | cons b header _ _ ih =>
    refine .cons b header (fun hb => ?_) (ih fun c hc => hl c (by simp [hc]))
    rw [hl b (by simp)] at hb
    cases hb

def Block.unlink (b : Block) : Block := { b with linked := false }

theorem map_unlink (hl : ∀ b ∈ l, b.linked = false) : l.map Block.unlink = l := by
  induction l with
  | nil => rfl
  | cons b l ih =>
    obtain ⟨addr, size, free, linked⟩ := b
    obtain rfl : linked = false := hl ⟨addr, size, free, linked⟩ (by simp)
    rw [List.map_cons, ih fun c hc => hl c (by simp [hc])]
    rfl

/-- Blocks that have been cut off from the list still lie where they were. -/
theorem Tiled.unlink (h : Tiled f m after lo hi l) (k : Nat) :
    Tiled f m k lo hi (l.map Block.unlink) := by
  induction h with
  | nil a => exact .nil a
  | cons b header _ _ ih =>
    exact .cons b.unlink ⟨header.size, header.free, header.magic, header.limit, header.whole⟩
      (fun hl => by cases hl) ih

/-- A store to the link of a linked block cuts off those behind it. -/
theorem Tiled.relink (h : Tiled f m after lo hi (pre ++ b :: post)) (hb : b.linked = true)
    (v : UInt32) :
    Tiled f (m.setWord (b.addr + 4) v) v.toNat lo hi (pre ++ b :: post.map Block.unlink) := by
  obtain ⟨h₁, _, h₃⟩ := h.at
  have hh := h.header
  have hp : Tiled f (m.setWord (b.addr + 4) v) v.toNat b.stop hi (post.map Block.unlink) := by
    refine (h₃.outside ?_).unlink _
    exact Bytes.setWord_agree v (.inl (by unfold Block.stop; omega))
  refine .append ?_ (.cons b ⟨?_, ?_, ?_, hh.limit, hh.whole⟩ (fun _ => ?_) hp)
  · simp only [firstLinked, hb, if_true] at h₁ ⊢
    exact h₁.outside (Bytes.setWord_agree v (.inr (by have := h₁.le; omega)))
  · rw [Bytes.word_setWord_of v (.inr le_rfl)]
    exact hh.size
  · rw [Bytes.setWord_of v (.inr le_rfl)]
    exact hh.free
  · rw [Bytes.word_setWord_of v (.inl (by omega))]
    exact hh.magic
  · rw [Bytes.word_setWord, firstLinked_eq]
    simp [Block.unlink]

theorem Tiled.setFree (h : Tiled f m after lo hi (pre ++ b :: post)) (v : UInt8) :
    Tiled f (m.setByte (b.addr + 8) v) after lo hi
      (pre ++ { b with free := decide (v ≠ 0) } :: post) := by
  obtain ⟨_, h₂, _⟩ := h.at
  obtain ⟨_, hh, next, _⟩ := h₂.inv
  refine h.replace (l := [{ b with free := decide (v ≠ 0) }]) ?_ ?_ ?_ fun k => rfl
  · exact Bytes.setByte_agree v (.inr (by have := h.bounds.1; omega))
  · exact Bytes.setByte_agree v (.inl (by unfold Block.stop; omega))
  · refine .cons { b with free := decide (v ≠ 0) } ⟨?_, ?_, ?_, hh.limit, hh.whole⟩ (fun hb => ?_)
      (.nil _)
    · rw [Bytes.word_setByte_of v (.inr (by simp only; omega))]
      exact hh.size
    · simp
    · rw [Bytes.word_setByte_of v (.inl (by simp only; omega))]
      exact hh.magic
    · rw [Bytes.word_setByte_of v (.inr (by simp only; omega))]
      exact next hb

theorem Tiled.extend {p : Nat} (h : Tiled f m p lo p l) {z : UInt32} (limit : z.toNat ≤ f.limit)
    (whole : z.toNat % 4 = 0) :
    Tiled f ((((m.setWord p z).setWord (p + 4) 0).setByte (p + 8) 0).setWord (p + 12) f.magic)
      0 lo (p + 16 + z.toNat) (l ++ [⟨p, z.toNat, false, true⟩]) := by
  refine .append (k := p) (h.outside fun x h₁ h₂ => ?_)
    (.cons ⟨p, z.toNat, false, true⟩ ⟨?_, ?_, ?_, limit, whole⟩ (fun _ => ?_) (.nil _))
  · simp (disch := omega) only [Bytes.setWord_of, Bytes.setByte_of]
  · simp (disch := omega) only [Bytes.word_setWord_of, Bytes.word_setWord, Bytes.word_setByte_of]
  · simp (disch := omega) only [Bytes.setWord_of, Bytes.setByte_same]
    decide
  · simp only [Bytes.word_setWord]
  · simp (disch := omega) only [Bytes.word_setWord_of, Bytes.word_setWord, Bytes.word_setByte_of]
    rfl

/-- A linked block is made smaller, and a free block in the list takes up the rest. -/
theorem Tiled.cut (h : Tiled f m after lo hi (pre ++ b :: post)) (linked : b.linked = true)
    {z q left : UInt32} (hq : q.toNat = b.addr + 16 + z.toNat)
    (hleft : left.toNat + z.toNat + 16 = b.size) (whole : z.toNat % 4 = 0) :
    Tiled f ((((((m.setByte (q.toNat + 8) 1).setWord (q.toNat + 12) f.magic).setWord
        q.toNat left).setWord (q.toNat + 4) (m.word (b.addr + 4))).setWord b.addr z).setWord
        (b.addr + 4) q)
      after lo hi (pre ++ ({ b with size := z.toNat } ::
        [⟨q.toNat, left.toNat, true, true⟩] ++ post)) := by
  have hh := h.header
  have hlimit := hh.limit
  have hwhole := hh.whole
  have hstop : b.stop = Block.stop ⟨q.toNat, left.toNat, true, true⟩ := by
    simp only [Block.stop]
    omega
  have hend : q.toNat = Block.stop { b with size := z.toNat } := hq
  refine h.replace (fun x h₁ h₂ => ?_) (fun x h₁ h₂ => ?_) ?_ (by simp [firstLinked, linked])
  · simp (disch := omega) only [Bytes.setWord_of, Bytes.setByte_of]
  · simp only [Block.stop] at h₁ h₂
    simp (disch := omega) only [Bytes.setWord_of, Bytes.setByte_of]
  · rw [hstop]
    refine .cons { b with size := z.toNat } ⟨?_, ?_, ?_, by simp only; omega, whole⟩ (fun _ => ?_)
      (hend ▸ .cons ⟨q.toNat, left.toNat, true, true⟩
        ⟨?_, ?_, ?_, by simp only; omega, by simp only; omega⟩ (fun _ => ?_) (.nil _))
    · simp (disch := omega) only [Bytes.word_setWord_of, Bytes.word_setWord]
    · simp (disch := omega) only [Bytes.setWord_of, Bytes.setByte_of]
      exact hh.free
    · simp (disch := omega) only [Bytes.word_setWord_of, Bytes.word_setByte_of]
      exact hh.magic
    · simp [firstLinked]
    · simp (disch := omega) only [Bytes.word_setWord_of, Bytes.word_setWord]
    · simp (disch := omega) only [Bytes.setWord_of, Bytes.setByte_same]
      decide
    · simp (disch := omega) only [Bytes.word_setWord_of, Bytes.word_setWord]
    · simp (disch := omega) only [Bytes.word_setWord_of, Bytes.word_setWord]
      rw [h.next linked]
      rfl

/-- The headers from `lo` to `hi`, each found behind the payload before it. -/
def headersFrom (m : Bytes) (hi : Nat) : Nat → Nat → List Nat
  | 0, _ => []
  | rounds + 1, lo =>
    if lo < hi then lo :: headersFrom m hi rounds (lo + 16 + (m.word lo).toNat) else []

theorem Tiled.headers {rounds : Nat} (h : Tiled f m after lo hi l) (hr : l.length ≤ rounds) :
    headersFrom m hi rounds lo = l.map Block.addr := by
  induction h generalizing rounds with
  | nil a => cases rounds <;> simp [headersFrom]
  | cons b header _ rest ih =>
    cases rounds with
    | zero => simp at hr
    | succ rounds =>
      have hlt := rest.le
      unfold Block.stop at hlt
      have := ih (show _ ≤ rounds by simpa using hr)
      simp only [headersFrom, header.size, List.map_cons]
      rw [if_pos (by omega)]
      exact congrArg _ this

def listedFrom (m : Bytes) : Nat → UInt32 → List Nat
  | 0, _ => []
  | rounds + 1, p => if p = 0 then [] else p.toNat :: listedFrom m rounds (m.word (p.toNat + 4))

theorem Tiled.listed {rounds : Nat} {p : UInt32} (h : Tiled f m 0 lo hi l)
    (hp : p.toNat = firstLinked 0 l) :
    ∀ a ∈ listedFrom m rounds p, a ∈ l.map Block.addr := by
  induction h generalizing rounds p with
  | nil a =>
    have : p = 0 := UInt32.toNat_inj.mp hp
    cases rounds <;> simp [listedFrom, this]
  | cons b _ next _ ih =>
    cases hb : b.linked with
    | true =>
      simp only [firstLinked, hb, if_true] at hp
      cases rounds with
      | zero => simp [listedFrom]
      | succ rounds =>
        intro a ha
        rw [listedFrom] at ha
        split at ha
        · cases ha
        · rcases List.mem_cons.mp ha with rfl | ha
          · simp [hp]
          · rw [hp] at ha
            have := ih (next hb) a ha
            simp [this]
    | false =>
      simp only [firstLinked, hb, Bool.false_eq_true, if_false] at hp
      intro a ha
      have := ih hp a ha
      simp [this]

end

end Mos.Machine
