import Mathlib

namespace Mos.Machine

structure Links (α : Type) where
  next : α → α
  prev : α → α

section
variable {α : Type}

/-- A node is put between two nodes by four stores: to `next` of the new node and
then of the one before it, to `prev` of the one behind it and then of the new node. -/
def Links.between [DecidableEq α] (k : Links α) (new prev next : α) : Links α where
  next := Function.update (Function.update k.next new next) prev new
  prev := Function.update (Function.update k.prev next new) new prev

def Links.addAfter [DecidableEq α] (k : Links α) (new x : α) : Links α := k.between new x (k.next x)

/-- From `a` through the nodes of `l` to `b`, and the same way back. -/
inductive Path (k : Links α) : α → List α → α → Prop where
  | nil {a b : α} (next : k.next a = b) (prev : k.prev b = a) : Path k a [] b
  | cons {a x b : α} {l : List α} (next : k.next a = x) (prev : k.prev x = a)
      (rest : Path k x l b) : Path k a (x :: l) b

structure Ring (k : Links α) (h : α) (l : List α) : Prop where
  path : Path k h l h
  nodup : (h :: l).Nodup

variable {k k' : Links α} {a b h new x : α} {l pre post : List α}

theorem Path.append (h₁ : Path k a pre x) (h₂ : Path k x post b) : Path k a (pre ++ x :: post) b := by
  induction h₁ with
  | nil next prev => exact .cons next prev h₂
  | cons next prev _ ih => exact .cons next prev (ih h₂)

theorem Path.split (h : Path k a (pre ++ x :: post) b) : Path k a pre x ∧ Path k x post b := by
  induction pre generalizing a with
  | nil =>
    cases h with
    | cons next prev rest => exact ⟨.nil next prev, rest⟩
  | cons y pre ih =>
    cases h with
    | cons next prev rest =>
      obtain ⟨h₁, h₂⟩ := ih rest
      exact ⟨.cons next prev h₁, h₂⟩

theorem Path.agree (h : Path k a l b) (next : ∀ y ∈ a :: l, k'.next y = k.next y)
    (prev : ∀ y ∈ l ++ [b], k'.prev y = k.prev y) : Path k' a l b := by
  induction h with
  | nil hn hp => exact .nil ((next _ (by simp)).trans hn) ((prev _ (by simp)).trans hp)
  | cons hn hp _ ih =>
    refine .cons ((next _ (by simp)).trans hn) ((prev _ (by simp)).trans hp) (ih ?_ ?_)
    · exact fun y hy => next y (List.mem_cons_of_mem _ hy)
    · exact fun y hy => prev y (List.mem_cons_of_mem _ hy)

theorem Path.closed {s : List α} (h : Path k a l b) (closed : ∀ y ∈ s, k.next y ∈ s) (ha : a ∈ s) :
    ∀ y ∈ l, y ∈ s := by
  induction h with
  | nil => simp
  | cons next _ _ ih =>
    have hx := closed _ ha
    rw [next] at hx
    intro y hy
    rcases List.mem_cons.mp hy with rfl | hy
    · exact hx
    · exact ih hx y hy

theorem Path.next_mem (h : Path k a l b) : ∀ y ∈ a :: l, k.next y ∈ l ++ [b] := by
  induction h with
  | nil next _ =>
    intro y hy
    obtain rfl := List.mem_singleton.mp hy
    simp [next]
  | cons next _ _ ih =>
    intro y hy
    rcases List.mem_cons.mp hy with rfl | hy
    · simp [next]
    · exact List.mem_cons_of_mem _ (ih y hy)

/-- The nodes between two nodes are determined by the links. -/
theorem Path.unique {l' : List α} (h : Path k a l b) (h' : Path k a l' b) (hb : b ∉ l) (hb' : b ∉ l') :
    l = l' := by
  induction h generalizing l' with
  | nil next _ =>
    cases h' with
    | nil => rfl
    | cons next' _ _ => exact absurd List.mem_cons_self (next'.symm.trans next ▸ hb')
  | cons next _ _ ih =>
    cases h' with
    | nil next' _ => exact absurd List.mem_cons_self (next.symm.trans next' ▸ hb)
    | cons next' _ rest' =>
      obtain rfl := next.symm.trans next'
      rw [ih rest' (fun hm => hb (List.mem_cons_of_mem _ hm)) fun hm => hb' (List.mem_cons_of_mem _ hm)]

theorem Ring.unique {l' : List α} (r : Ring k h l) (r' : Ring k h l') : l = l' :=
  r.path.unique r'.path (List.nodup_cons.mp r.nodup).1 (List.nodup_cons.mp r'.nodup).1

variable [DecidableEq α]

theorem Path.add (h : Path k x post b) (hpost : post.Nodup) (hx : x ∉ post) (hb : b ∉ post)
    (hnew : new ≠ x ∧ new ≠ b ∧ new ∉ post) : Path (k.addAfter new x) x (new :: post) b := by
  obtain ⟨hnx, hnb, hnp⟩ := hnew
  unfold Links.addAfter Links.between
  refine .cons (by simp) (by simp) ?_
  cases h with
  | nil next prev =>
    refine .nil ?_ ?_
    · simp [Function.update_of_ne hnx, next]
    · simp [Function.update_of_ne (Ne.symm hnb), next]
  | @cons _ y _ l next prev rest =>
    simp only [List.mem_cons, not_or] at hx hb hnp
    refine .cons ?_ ?_ (rest.agree ?_ ?_)
    · simp [Function.update_of_ne hnx, next]
    · simp [Function.update_of_ne (Ne.symm hnp.1), next]
    · intro z hz
      have hzx : z ≠ x := by
        rintro rfl
        simp_all
      have hzn : z ≠ new := by
        rintro rfl
        simp_all
      simp [Function.update_of_ne hzx, Function.update_of_ne hzn]
    · intro z hz
      have hzn : z ≠ new := by
        rintro rfl
        simp_all
      have hzy : z ≠ y := by
        rintro rfl
        simp_all
      simp [Function.update_of_ne hzn, next, Function.update_of_ne hzy]

theorem Ring.addHead (r : Ring k h l) (hnew : new ∉ h :: l) : Ring (k.addAfter new h) h (new :: l) := by
  obtain ⟨hh, hl⟩ := List.nodup_cons.mp r.nodup
  simp only [List.mem_cons, not_or] at hnew
  refine ⟨r.path.add hl hh hh ⟨hnew.1, hnew.1, hnew.2⟩, ?_⟩
  simp only [List.nodup_cons, List.mem_cons, not_or]
  exact ⟨⟨Ne.symm hnew.1, hh⟩, hnew.2, hl⟩

theorem Ring.addAfter (r : Ring k h (pre ++ x :: post)) (hnew : new ∉ h :: (pre ++ x :: post)) :
    Ring (k.addAfter new x) h (pre ++ x :: new :: post) := by
  have hnd := r.nodup
  obtain ⟨h₁, h₂⟩ := r.path.split
  simp only [List.mem_cons, List.mem_append, not_or] at hnew
  simp only [List.nodup_cons, List.nodup_append, List.mem_cons, List.mem_append, not_or] at hnd
  obtain ⟨⟨hhp, hhx, hhq⟩, hpre, ⟨hxq, hpost⟩, hdis⟩ := hnd
  refine ⟨.append (h₁.agree ?_ ?_) (h₂.add hpost hxq hhq ⟨hnew.2.2.1, hnew.1, hnew.2.2.2⟩), ?_⟩
  · intro y hy
    have hyx : y ≠ x := by
      rintro rfl
      rcases List.mem_cons.mp hy with rfl | hy
      · exact hhx rfl
      · exact hdis y hy y (.inl rfl) rfl
    have hyn : y ≠ new := by
      rintro rfl
      rcases List.mem_cons.mp hy with rfl | hy
      · exact hnew.1 rfl
      · exact hnew.2.1 hy
    simp [Links.addAfter, Links.between, Function.update_of_ne hyx, Function.update_of_ne hyn]
  · intro y hy
    have hyn : y ≠ new := by
      rintro rfl
      rcases List.mem_append.mp hy with hy | hy
      · exact hnew.2.1 hy
      · exact hnew.2.2.1 (List.mem_singleton.mp hy)
    have hynext : y ≠ k.next x := by
      intro he
      have hm := h₂.next_mem x (by simp)
      rw [← he] at hm
      rcases List.mem_append.mp hy with hy | hy
      · rcases List.mem_append.mp hm with hm | hm
        · exact hdis y hy y (.inr hm) rfl
        · exact hhp (List.mem_singleton.mp hm ▸ hy)
      · obtain rfl := List.mem_singleton.mp hy
        rcases List.mem_append.mp hm with hm | hm
        · exact hxq hm
        · exact hhx (List.mem_singleton.mp hm).symm
    simp [Links.addAfter, Links.between, Function.update_of_ne hyn, Function.update_of_ne hynext]
  · have : (h :: (pre ++ x :: new :: post)).Perm (new :: h :: (pre ++ x :: post)) := by
      refine (List.Perm.cons h ?_).trans (List.Perm.swap new h _)
      have := @List.perm_middle _ new (pre ++ [x]) post
      simpa using this
    rw [this.nodup_iff, List.nodup_cons]
    refine ⟨?_, r.nodup⟩
    simp only [List.mem_cons, List.mem_append, not_or]
    exact hnew

end

end Mos.Machine
