import Mos.Proofs.DirectoryFd

namespace Mos.Namei
open List

variable {F : Type} {v : Vfs F} {root d c : Nat}

/-- `d` is in the tree of `root`. Each entry on the way to it points back to its directory and
has a name of its own there, which is a part of a path that fits into the buffer. -/
inductive Rooted (v : Vfs F) (root : Nat) : Nat → Prop
  | top : (v.dentry root).dParent = none → Rooted v root root
  | entry {d c : Nat} : Rooted v root d → c ∈ (v.dentry d).dSubdirs →
    (v.dentry c).dParent = some d → (v.dentry c).dName ≠ [] → '/' ∉ (v.dentry c).dName →
    (v.dentry c).dName.length < 256 →
    (∀ e ∈ (v.dentry d).dSubdirs, (v.dentry e).dName = (v.dentry c).dName → e = c) →
    Rooted v root c

theorem parts_append (dir path : List Char) :
    parts (dir ++ '/' :: path) = parts dir ++ parts path := by
  simp only [parts, splitOn_append_cons_self, filter_append]

theorem parts_name {part : Name} (ne : part ≠ []) (slash : '/' ∉ part) : parts part = [part] := by
  simp [parts, splitOn_eq_singleton slash, ne]

theorem parts_child (path : List Char) {name : Name} (h : name ≠ []) (slash : '/' ∉ name) :
    parts (if path.getLast? = some '/' then path ++ name else path ++ '/' :: name) =
      parts path ++ [name] := by
  have hname := parts_name h slash
  split
  · rename_i hlast
    obtain ⟨dir, rfl⟩ := List.getLast?_eq_some_iff.mp hlast
    rw [append_assoc, singleton_append, parts_append, parts_append, hname]
    simp [parts]
  · rw [parts_append, hname]

theorem child_eq (hc : c ∈ (v.dentry d).dSubdirs)
    (unique : ∀ e ∈ (v.dentry d).dSubdirs, (v.dentry e).dName = (v.dentry c).dName → e = c) :
    v.child d (v.dentry c).dName = some c := by
  have hfound : (v.child d (v.dentry c).dName).isSome := by
    simpa [Vfs.child] using ⟨c, hc, rfl⟩
  obtain ⟨e, he⟩ := Option.isSome_iff_exists.mp hfound
  have hname : (v.dentry e).dName = (v.dentry c).dName := by
    simpa using List.find?_some he
  rw [he, unique e (mem_of_find?_eq_some he) hname]

/-- `path` is built for `d`, and a walk along it comes to `d` and goes on from there. -/
structure Leads (v : Vfs F) (root d : Nat) (path : List Char) : Prop where
  built : ∃ depth, ∀ fuel > depth, vfsBuildPathBackward v fuel d = some path
  absolute : path.head? = some '/'
  walked : ∀ (D : Driver F) (flags mode : UInt32) (mnt : Nat), ∃ mnt',
    (∀ part rest, walk D flags mode v ⟨mnt, root⟩ (parts path ++ part :: rest) =
      walk D flags mode v ⟨mnt', d⟩ (part :: rest)) ∧
    ∃ ret nd, walk D flags mode v ⟨mnt, root⟩ (parts path) = some (v, ret, nd) ∧ nd.dentry = d ∧
      (flags &&& oCreat = 0 ∨ flags &&& oExcl = 0 → ret = 0)

theorem Rooted.leads (hd : Rooted v root d) : ∃ path, Leads v root d path := by
  induction hd with
  | top hparent =>
    refine ⟨['/'], ⟨0, ?_⟩, rfl, ?_⟩
    · intro fuel hfuel
      obtain ⟨fuel, rfl⟩ := Nat.exists_eq_succ_of_ne_zero (Nat.ne_of_gt hfuel)
      simp only [vfsBuildPathBackward, hparent]
    · intro D flags mode mnt
      exact ⟨mnt, fun part rest => rfl, 0, _, rfl, rfl, fun _ => rfl⟩
  | @entry d c hd hc hparent hname hslash hlen unique ih =>
    obtain ⟨path, ⟨depth, hbuilt⟩, habs, hwalk⟩ := ih
    refine ⟨if path.getLast? = some '/' then path ++ (v.dentry c).dName
      else path ++ '/' :: (v.dentry c).dName, ⟨depth + 1, ?_⟩, ?_, ?_⟩
    · intro fuel hfuel
      obtain ⟨fuel, rfl⟩ := Nat.exists_eq_succ_of_ne_zero (Nat.ne_of_gt (by omega : 0 < fuel))
      simp only [vfsBuildPathBackward, hparent, hbuilt fuel (by omega), Option.map_some]
    · split <;> simp [habs]
    · intro D flags mode mnt
      obtain ⟨mnt', hto, -⟩ := hwalk D flags mode mnt
      rw [parts_child path hname hslash]
      refine ⟨(v.arrive ⟨mnt', d⟩ c).mnt, ?_, ?_⟩
      · intro part rest
        rw [append_assoc, singleton_append, hto, walk]
        simp only [child_eq hc unique, Nat.not_le.mpr hlen, if_false, reduceCtorEq, false_and]
        rfl
      · rw [hto, walk]
        simp only [child_eq hc unique, Nat.not_le.mpr hlen, if_false, true_and]
        -- the last entry exists, which `O_CREAT` with `O_EXCL` reports
        split
        · rename_i hexcl
          refine ⟨_, _, rfl, rfl, ?_⟩
          intro h
          exact absurd hexcl (not_and_or.mpr (h.imp not_not.mpr not_not.mpr))
        · exact ⟨_, _, rfl, rfl, fun _ => rfl⟩

/-- The path that is built for a dentry leads back to it. -/
theorem built_path_walked {p : Proc} (hd : Rooted v p.mntRoot d) (D : Driver F)
    (flags mode : UInt32) :
    ∃ path, (∃ depth, ∀ fuel > depth, vfsBuildPathBackward v fuel d = some path) ∧
      ∃ ret nd, pathWalk D p v path flags mode = some (v, ret, nd) ∧ nd.dentry = d ∧
        (flags &&& oCreat = 0 ∨ flags &&& oExcl = 0 → ret = 0) := by
  obtain ⟨path, hbuilt, habs, hwalk⟩ := hd.leads
  obtain ⟨-, -, hto⟩ := hwalk D flags mode p.mntRoot
  refine ⟨path, hbuilt, ?_⟩
  rw [pathWalk, if_pos habs]
  exact hto

theorem built_path_walked_mounted :
    let v := { sampleTree with mounts := [1] }
    ∃ path, (∃ depth, ∀ fuel > depth, vfsBuildPathBackward v fuel 3 = some path) ∧
      ∃ ret nd, pathWalk small {} v path oRdonly 0 = some (v, ret, nd) ∧ nd.dentry = 3 ∧
        (oRdonly &&& oCreat = 0 ∨ oRdonly &&& oExcl = 0 → ret = 0) := by
  have ha : Rooted { sampleTree with mounts := [1] } 0 1 := by
    apply Rooted.entry (.top rfl) <;> decide
  have hx : Rooted { sampleTree with mounts := [1] } 0 3 := by
    apply Rooted.entry ha <;> decide
  exact built_path_walked (p := {}) hx small oRdonly 0

section Normal
variable {D : Driver F} {flags mode : UInt32} {path path' : List Char} {part : Name}
  {nd : Nameidata}

/-- `path_walk` over the parts of a path, each copied before it is looked up. -/
def walkParts (D : Driver F) (flags mode : UInt32) : List Name → Vfs F → Nameidata → PathWalk F
  | [], v, nd => .returned v 0 nd
  | part :: rest, v, nd =>
    if 256 < part.length then .overflow
    else
      .round (walkParts D flags mode rest)
        (walk D (if rest = [] then flags else oRdonly) mode v nd [part])

theorem parts_long (slash : '/' ∉ part) (ne : part ≠ []) :
    ∃ whole rest, parts (part ++ path) = whole :: rest ∧ part.length ≤ whole.length := by
  induction path generalizing part with
  | nil => exact ⟨part, [], by simp [parts_name ne slash], le_rfl⟩
  | cons c path ih =>
    by_cases hc : c = '/'
    · exact ⟨part, parts path, by simp [hc, parts_append, parts_name ne slash], le_rfl⟩
    · obtain ⟨whole, rest, hp, hlen⟩ := @ih (part ++ [c]) (by simp [slash, Ne.symm hc]) (by simp)
      exact ⟨whole, rest, by simpa using hp, by simp at hlen; omega⟩

/-- Slashes alone have no parts. -/
theorem parts_nil_iff : parts path = [] ↔ path.all (· == '/') = true := by
  induction path with
  | nil => simp [parts]
  | cons c path ih =>
    by_cases hc : c = '/'
    · have h := parts_append [] path
      rw [nil_append] at h
      rw [hc, h]
      simpa [parts] using ih
    · obtain ⟨whole, rest, hp, -⟩ := @parts_long path [c] (by simp [Ne.symm hc]) (by simp)
      rw [singleton_append] at hp
      simp [hp, hc]

/-- Copying the bytes gives the parts, up to one that is too long. -/
theorem walkChars_eq (slash : '/' ∉ part) (len : part.length ≤ 256) :
    walkChars D flags mode path part v nd = walkParts D flags mode (parts (part ++ path)) v nd := by
  induction path generalizing part v nd with
  | nil =>
    rw [walkChars, append_nil]
    by_cases hp : part = []
    · subst hp
      rfl
    · rw [if_neg hp, parts_name hp slash, walkParts, if_neg (by omega), if_pos rfl]
      rfl
  | cons c path ih =>
    rw [walkChars]
    by_cases hc : c = '/'
    · subst c
      rw [if_neg (not_not.mpr rfl), parts_append]
      have next : walkChars D flags mode path [] = walkParts D flags mode (parts path) := by
        funext v nd
        exact ih (by simp) (by simp)
      by_cases hp : part = []
      · rw [if_pos hp, hp, next]
        rfl
      · rw [if_neg hp, parts_name hp slash, singleton_append, walkParts,
          if_neg (show ¬256 < part.length by omega), next]
        simp only [parts_nil_iff]
    · rw [if_pos hc]
      have hslash : '/' ∉ part ++ [c] := by simp [slash, Ne.symm hc]
      split
      · rename_i hlen
        rw [ih hslash (by simp; omega), append_assoc, singleton_append]
      · obtain ⟨whole, rest, hp, hlen⟩ := @parts_long path (part ++ [c]) hslash (by simp)
        rw [append_assoc, singleton_append] at hp
        rw [length_append, length_singleton] at hlen
        rw [hp, walkParts, if_pos (by omega)]

theorem walk_one_ret {ret : Int} {v' : Vfs F} {nd' : Nameidata}
    (h : walk D flags mode v nd [part] = some (v', ret, nd')) : ret < 0 ∨ ret = 0 := by
  simp only [walk] at h
  grind [eexist, enoent]

/-- The flags count for the last part only. -/
theorem walk_cons (rest : List Name) :
    walk D flags mode v nd (part :: rest) =
      (walk D (if rest = [] then flags else oRdonly) mode v nd [part]).bind fun r =>
        if r.2.1 < 0 then some r else walk D flags mode r.1 r.2.2 rest := by
  by_cases hr : rest = []
  · subst hr
    rw [if_pos rfl]
    cases h : walk D flags mode v nd [part] with
    | none => rfl
    | some r =>
      rcases walk_one_ret h with neg | zero
      · simp [neg]
      · obtain ⟨v', ret, nd'⟩ := r
        obtain rfl : ret = 0 := zero
        simp [walk]
  · have excl : oRdonly &&& oCreat = 0 := by decide
    rw [if_neg hr]
    simp only [walk, hr, excl, ne_eq, not_true, false_and, and_false, if_false]
    split
    · rfl
    · cases v.child nd.dentry part with
      | some d => rfl
      | none =>
        cases v.dInode nd.dentry with
        | none => rfl
        | some dir =>
          simp only
          cases (D.lookup dir).bind fun lookup => lookup v.fs part with
          | some i => rfl
          | none => simp [enoent]

/-- A long part that the walk gets to is the first one, or the walk gets past the first one and
to it from there. -/
theorem long_cons (part : Name) (names : List Name) :
    (∃ before whole rest, part :: names = before ++ whole :: rest ∧ 256 < whole.length ∧
        ∃ v' nd', walk D oRdonly mode v nd before = some (v', 0, nd')) ↔
      256 < part.length ∨ ∃ v₁ nd₁, walk D oRdonly mode v nd [part] = some (v₁, 0, nd₁) ∧
        ∃ before whole rest, names = before ++ whole :: rest ∧ 256 < whole.length ∧
          ∃ v' nd', walk D oRdonly mode v₁ nd₁ before = some (v', 0, nd') := by
  constructor
  · rintro ⟨before, whole, rest, hn, long, v', nd', hw⟩
    cases before with
    | nil =>
      obtain ⟨rfl, -⟩ := cons.inj hn
      exact .inl long
    | cons head before =>
      obtain ⟨rfl, tail⟩ := cons.inj hn
      rw [walk_cons before, ite_self] at hw
      obtain ⟨⟨v₁, ret, nd₁⟩, h₁, hw⟩ := Option.bind_eq_some_iff.mp hw
      rcases walk_one_ret h₁ with neg | rfl
      · simp only [if_pos neg, Option.some.injEq, Prod.mk.injEq] at hw
        omega
      · exact .inr ⟨v₁, nd₁, h₁, before, whole, rest, tail, long, v', nd', hw⟩
  · rintro (long | ⟨v₁, nd₁, h₁, before, whole, rest, hn, long, v', nd', hw⟩)
    · exact ⟨[], part, names, rfl, long, v, nd, rfl⟩
    · refine ⟨part :: before, whole, rest, by rw [hn, cons_append], long, v', nd', ?_⟩
      rw [walk_cons before, ite_self, h₁]
      exact hw

/-- A part is stored behind the end of the buffer exactly if it is too long and the walk gets
to it. -/
theorem walkParts_overflow {names : List Name} :
    walkParts D flags mode names v nd = .overflow ↔
      ∃ before part rest, names = before ++ part :: rest ∧ 256 < part.length ∧
        ∃ v' nd', walk D oRdonly mode v nd before = some (v', 0, nd') := by
  induction names generalizing v nd with
  | nil => simp [walkParts]
  | cons part names ih =>
    rw [walkParts, long_cons]
    split
    · rename_i long
      exact iff_of_true rfl (.inl long)
    · rename_i short
      simp only [short, false_or, ← ih]
      cases names with
      | nil =>
        refine iff_of_false ?_ (by simp [walkParts])
        unfold PathWalk.round
        split
        · simp
        · split <;> intro h <;> cases h
      | cons next names =>
        rw [if_neg (by simp)]
        cases h : walk D oRdonly mode v nd [part] with
        | none => simp [PathWalk.round]
        | some r =>
          obtain ⟨v₁, ret, nd₁⟩ := r
          rcases walk_one_ret h with neg | rfl
          · refine iff_of_false (by simp [PathWalk.round, neg]) ?_
            rintro ⟨v₂, nd₂, h₂, -⟩
            cases h₂
            omega
          · simp [PathWalk.round]

theorem walkParts_returned {names : List Name} {ret : Int} {v' : Vfs F} {nd' : Nameidata} :
    walkParts D flags mode names v nd = .returned v' ret nd' ↔
      walk D flags mode v nd names = some (v', ret, nd') := by
  induction names generalizing v nd with
  | nil => simp [walkParts, walk]
  | cons part names ih =>
    rw [walkParts, walk_cons names]
    cases h : walk D (if names = [] then flags else oRdonly) mode v nd [part] with
    | none =>
      split
      · simp
      · simp [PathWalk.round]
    | some r =>
      have short : ¬256 < part.length := by
        intro long
        simp [walk, long.le] at h
      rw [if_neg short]
      simp only [PathWalk.round, Option.bind_some]
      split
      · simp [Prod.ext_iff]
      · exact ih

/-- What `path_walk` returns is the result of the walk over the parts. -/
theorem pathWalk_returned {p : Proc} {ret : Int} {v' : Vfs F} {nd' : Nameidata}
    (len : path.length < 2 ^ 31) :
    pathWalkCopied D p v path flags mode = .returned v' ret nd' ↔
      pathWalk D p v path flags mode = some (v', ret, nd') := by
  rw [pathWalkCopied, if_pos len, walkChars_eq (by simp) (by simp), nil_append]
  exact walkParts_returned

theorem long_name_overflows {p : Proc} (slash : '/' ∉ part) (long : 256 < part.length)
    (len : part.length < 2 ^ 31) : pathWalkCopied D p v part flags mode = .overflow := by
  have ne : part ≠ [] := by
    rintro rfl
    cases long
  rw [pathWalkCopied, if_pos len, walkChars_eq (by simp) (by simp), nil_append,
    parts_name ne slash, walkParts, if_pos long]

end Normal

end Mos.Namei
