import Mos.Proofs.PathNames

namespace Mos.Namei

variable {F : Type} {D : Driver F} {v v' w : Vfs F} {nd nd' : Nameidata} {flags mode : UInt32}
    {parent d c : Nat} {part : Name} {i : Option Inode}

/-- The dentries of `v` are still there, with children added behind the old ones. -/
structure Grows (v v' : Vfs F) : Prop where
  dentries : v.dentries ≤ v'.dentries
  mounts : v'.mounts = v.mounts
  name : ∀ d < v.dentries, (v'.dentry d).dName = (v.dentry d).dName
  subdirs : ∀ d < v.dentries, (v.dentry d).dSubdirs <+: (v'.dentry d).dSubdirs

theorem Grows.refl (v : Vfs F) : Grows v v :=
  ⟨le_rfl, rfl, fun _ _ => rfl, fun _ _ => List.prefix_rfl⟩

theorem Grows.trans (h : Grows v v') (k : Grows v' w) : Grows v w := by
  refine ⟨h.dentries.trans k.dentries, k.mounts.trans h.mounts, fun d hd => ?_, fun d hd => ?_⟩
  · rw [k.name d (hd.trans_le h.dentries), h.name d hd]
  · exact (h.subdirs d hd).trans (k.subdirs d (hd.trans_le h.dentries))

def Closed (v : Vfs F) : Prop := ∀ d < v.dentries, ∀ c ∈ (v.dentry d).dSubdirs, c < v.dentries

theorem Grows.child (h : Grows v v') (closed : Closed v) (hd : d < v.dentries)
    (hc : v.child d part = some c) : v'.child d part = some c := by
  obtain ⟨added, ha⟩ := h.subdirs d hd
  have same : ∀ e ∈ (v.dentry d).dSubdirs, decide ((v'.dentry e).dName = part) =
      decide ((v.dentry e).dName = part) := by
    intro e he
    rw [h.name e (closed d hd e he)]
  unfold Vfs.child at hc ⊢
  rw [← ha, List.find?_append, List.find?_congr same, hc, Option.some_or]

theorem link_entry (v : Vfs F) (parent : Nat) (part : Name) (i : Option Inode) (d : Nat) :
    ((v.link parent part i).dentry d).dName =
        (if d = v.dentries then part else (v.dentry d).dName) ∧
      ((v.link parent part i).dentry d).dSubdirs =
        (if d = v.dentries then [] else (v.dentry d).dSubdirs) ++
          if d = parent then [v.dentries] else [] := by
  cases i <;>
    simp only [Vfs.link, Vfs.allocInode, Vfs.allocDentry, Vfs.listAdd, Function.update_apply] <;>
    grind

/-- A new dentry takes nothing from the tree. -/
theorem link_grows (closed : Closed v) (hp : parent < v.dentries) (part : Name) (i : Option Inode) :
    Grows v (v.link parent part i) ∧ Closed (v.link parent part i) := by
  have hn : (v.link parent part i).dentries = v.dentries + 1 := by cases i <;> rfl
  have hm : (v.link parent part i).mounts = v.mounts := by cases i <;> rfl
  have he := link_entry v parent part i
  refine ⟨⟨by omega, hm, fun d hd => ?_, fun d hd => ?_⟩, fun d hd c hc => ?_⟩
  · rw [(he d).1, if_neg hd.ne]
  · rw [(he d).2, if_neg hd.ne]
    exact List.prefix_append _ _
  · grind [Closed]

/-- It is found by its name. -/
theorem link_child (hp : parent < v.dentries) (closed : Closed v) (miss : v.child parent part = none)
    (i : Option Inode) : (v.link parent part i).child parent part = some v.dentries := by
  have he := link_entry v parent part i
  have same : ∀ e ∈ (v.dentry parent).dSubdirs,
      decide (((v.link parent part i).dentry e).dName = part) = decide ((v.dentry e).dName = part) := by
    intro e hmem
    rw [(he e).1, if_neg (closed parent hp e hmem).ne]
  unfold Vfs.child at miss ⊢
  rw [(he parent).2, if_pos rfl, if_neg hp.ne, List.find?_append, List.find?_congr same, miss,
    Option.none_or]
  simp [(he v.dentries).1]

/-- What a walk from `v` to `v'` met is in the tree of `v'`, where the same walk ends at once,
whatever the file systems would say. -/
structure Kept (v v' : Vfs F) (nd : Nameidata) (parts : List Name) (nd' : Nameidata) : Prop where
  grows : Grows v v'
  again : ∀ (D : Driver F) (mode : UInt32), walk D oRdonly mode v' nd parts = some (v', 0, nd')

theorem Kept.cons {rest : List Name} (h : Kept w v' (v.arrive nd c) rest nd') (grows : Grows v w)
    (closed : Closed w) (hd : nd.dentry < v.dentries) (short : ¬256 ≤ part.length)
    (hc : w.child nd.dentry part = some c) : Kept v v' nd (part :: rest) nd' := by
  have grows' := grows.trans h.grows
  refine ⟨grows', fun D mode => ?_⟩
  have harrive : v'.arrive nd c = v.arrive nd c := by
    unfold Vfs.arrive
    rw [grows'.mounts]
  rw [walk, if_neg short]
  simp only [h.grows.child closed (hd.trans_le grows.dentries) hc]
  rw [if_neg fun hc => absurd hc.1.2 (by decide), harrive]
  exact h.again D mode

/-- A walk only adds to the tree, and leads to the same place again. -/
theorem walk_kept {parts : List Name} (closed : Closed v) (hd : nd.dentry < v.dentries)
    (h : walk D flags mode v nd parts = some (v', 0, nd')) : Kept v v' nd parts nd' := by
  induction parts generalizing v nd with
  | nil =>
    cases h
    exact ⟨.refl _, fun _ _ => rfl⟩
  | cons part rest ih =>
    rw [walk] at h
    split at h
    · cases h
    rename_i short
    -- a part that is looked up or created becomes the last child
    have linked : ∀ fs i, v.child nd.dentry part = none →
        walk D flags mode (Vfs.link { v with fs } nd.dentry part i) (v.arrive nd v.dentries) rest =
          some (v', 0, nd') → Kept v v' nd (part :: rest) nd' := by
      intro fs i miss hrest
      obtain ⟨hg, hclosed⟩ := link_grows (v := { v with fs }) closed hd part i
      exact (ih hclosed (by cases i <;> exact Nat.lt_succ_self _) hrest).cons
        ⟨hg.dentries, hg.mounts, hg.name, hg.subdirs⟩ hclosed hd short
        (link_child (v := { v with fs }) hd closed miss i)
    split at h
    · rename_i c hc
      split at h
      · cases h
      · have hlt := closed _ hd c (List.mem_of_find?_eq_some hc)
        exact (ih closed hlt h).cons (.refl v) closed hd short hc
    · rename_i miss
      split at h
      · cases h
      split at h
      · split at h
        · cases h
        · exact linked v.fs _ miss h
      · split at h
        · split at h
          · cases h
          · exact linked _ _ miss h
        · cases h

/-- A path is walked part after part. -/
theorem walk_append {parts rest : List Name} (more : rest ≠ []) :
    walk D flags mode v nd (parts ++ rest) =
      (walk D oRdonly mode v nd parts).bind fun r =>
        if r.2.1 < 0 then some r else walk D flags mode r.1 r.2.2 rest := by
  induction parts generalizing v nd with
  | nil => rfl
  | cons part parts ih =>
    have last : ¬(parts ++ rest = [] ∧ flags &&& oCreat ≠ 0) := by simp [more]
    have ro : ¬(parts = [] ∧ oRdonly &&& oCreat ≠ 0) := fun h => absurd h.2 (by decide)
    rw [List.cons_append, walk, walk]
    simp only [last, ro, false_and, if_false, ih]
    split
    · rfl
    split
    · rfl
    split
    · rfl
    split <;> rfl

/-- Once a path has been walked, by any call that may also have created its last part, it is
found in the tree of dentries: no file system is asked, and nothing changes. -/
theorem path_found_again {p : Proc} {path : List Char} (closed : Closed v)
    (root : p.mntRoot < v.dentries) (cwd : p.dRoot < v.dentries)
    (h : pathWalk D p v path flags mode = some (v', 0, nd')) (D' : Driver F) (mode' : UInt32) :
    pathWalk D' p v' path oRdonly mode' = some (v', 0, nd') := by
  refine (walk_kept closed ?_ h).again D' mode'
  dsimp only
  split
  · exact root
  · exact cwd

theorem path_found_again_small : ∃ v' nd,
    pathWalk small {} (mounted root ()) ['/', 'a'] oRdonly 0 = some (v', 0, nd) ∧ v'.dentries = 2 ∧
      pathWalk small {} v' ['/', 'a'] oRdonly 0 = some (v', 0, nd) := by
  have h : pathWalk small {} (mounted root ()) ['/', 'a'] oRdonly 0 = some (_, 0, _) := rfl
  exact ⟨_, _, h, rfl, path_found_again (by unfold Closed; decide) (by decide) (by decide) h small 0⟩

/-- Walking to `dir/path` is walking to `dir` and from there on, and if `dir` is not there the
error is the one for `dir`. -/
theorem path_walk_composes {p : Proc} (dir path : List Char) (hdir : dir ≠ []) (hpath : parts path ≠ []) :
    pathWalk D p v (dir ++ '/' :: path) flags mode =
      (pathWalk D p v dir oRdonly mode).bind fun r =>
        if r.2.1 < 0 then some r else walk D flags mode r.1 r.2.2 (parts path) := by
  unfold pathWalk
  rw [parts_append, walk_append hpath, List.head?_append_of_ne_nil _ hdir]

theorem path_walk_composes_sample : ∃ r, pathWalk small {} sampleTree ['/', 'a'] oRdonly 0 = some r ∧
    pathWalk small {} sampleTree ['/', 'a', '/', 'x'] oRdonly 0 =
      walk small oRdonly 0 r.1 r.2.2 [['x']] :=
  ⟨_, rfl, path_walk_composes ['/', 'a'] ['x'] (by decide) (by decide)⟩

end Mos.Namei
