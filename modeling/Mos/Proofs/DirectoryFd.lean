import Mos.Proofs.InodeIdentity

namespace Mos.Namei

/-- Where a walk without `O_CREAT` comes to: a dentry, a name that is not there, or an access
that is undefined (a part that does not fit into its buffer, a dentry without inode). -/
inductive Reach where
  | found
  | missing
  | undefined
  deriving DecidableEq, Repr

variable {F : Type} {D : Driver F} {v v' : Vfs F} {parent d : Nat} {part : Name} {i : Inode}

def reachBelow (D : Driver F) (fs : F) : Inode → List Name → Reach
  | _, [] => .found
  | dir, part :: rest =>
    if 256 ≤ part.length then .undefined
    else
      match (D.lookup dir).bind fun lookup => lookup fs part with
      | none => .missing
      | some i => reachBelow D fs i rest

/-- From a dentry, by its children as long as they have the names. -/
def reach (D : Driver F) (v : Vfs F) : Nat → List Name → Reach
  | _, [] => .found
  | d, part :: rest =>
    if 256 ≤ part.length then .undefined
    else
      match v.child d part with
      | some c => reach D v c rest
      | none =>
        match v.dInode d with
        | none => .undefined
        | some dir =>
          match (D.lookup dir).bind fun lookup => lookup v.fs part with
          | none => .missing
          | some i => reachBelow D v.fs i rest

def Tree (v : Vfs F) : Prop :=
  ∀ d < v.dentries, ∀ c ∈ (v.dentry d).dSubdirs, c < v.dentries ∧ (v.dentry c).dParent = some d

instance (v : Vfs F) : Decidable (Tree v) :=
  inferInstanceAs (Decidable (∀ d, d < v.dentries → _))

def ancestor (v : Vfs F) : Nat → Nat → Option Nat
  | 0, d => some d
  | n + 1, d => (ancestor v n d).bind fun e => (v.dentry e).dParent

theorem link_parent (hp : parent < v.dentries) (hd : d < v.dentries) :
    ((v.link parent part (some i)).dentry d).dParent = (v.dentry d).dParent := by
  rw [Vfs.link_old hp hd]
  split
  · rename_i he
    rw [he]
  · rfl

theorem Tree.link (h : Tree v) (hp : parent < v.dentries) : Tree (v.link parent part (some i)) := by
  intro d hd c hc
  rw [Vfs.link_dentries] at hd ⊢
  by_cases hnew : d = v.dentries
  · subst hnew
    rw [Vfs.link_new hp] at hc
    cases hc
  · have hd' : d < v.dentries := by omega
    rw [Vfs.link_subdirs hp hd'] at hc
    have hold : c ∈ (v.dentry d).dSubdirs →
        c < v.dentries + 1 ∧ ((v.link parent part (some i)).dentry c).dParent = some d := by
      intro hc
      obtain ⟨hlt, hparent⟩ := h d hd' c hc
      rw [link_parent hp hlt]
      exact ⟨by omega, hparent⟩
    split at hc
    · rename_i he
      subst he
      rcases List.mem_append.mp hc with hc | hc
      · exact hold hc
      · rw [List.mem_singleton.mp hc, Vfs.link_new hp]
        exact ⟨Nat.lt_succ_self _, rfl⟩
    · exact hold hc

/-- Below a directory without cached dentries only the file system decides. -/
theorem reach_eq_below {parts : List Name} (subdirs : (v.dentry d).dSubdirs = [])
    (inode : v.dInode d = some i) : reach D v d parts = reachBelow D v.fs i parts := by
  cases parts with
  | nil => rfl
  | cons part rest =>
    have hchild : v.child d part = none := by
      unfold Vfs.child
      rw [subdirs]
      rfl
    simp only [reach, reachBelow, hchild, inode]

/-- What a walk of `n` parts from `start` has given. If it came to a dentry, that is `n` levels
below the start. -/
def Walked (v : Vfs F) (start n : Nat) (w : Option (Vfs F × Int × Nameidata)) : Reach → Prop
  | .undefined => w = none
  | .missing => ∃ v' nd, w = some (v', -enoent, nd)
  | .found => ∃ v' nd, w = some (v', 0, nd) ∧ ancestor v' n nd.dentry = some start ∧
      ∀ e < v.dentries, (v'.dentry e).dParent = (v.dentry e).dParent

theorem Walked.up {c n : Nat} {w : Option (Vfs F × Int × Nameidata)} {r : Reach}
    (h : Walked v' c n w r) (hc : c < v'.dentries) (hparent : (v'.dentry c).dParent = some d)
    (more : v.dentries ≤ v'.dentries)
    (same : ∀ e < v.dentries, (v'.dentry e).dParent = (v.dentry e).dParent) :
    Walked v d (n + 1) w r := by
  cases r with
  | undefined => exact h
  | missing => exact h
  | found =>
    obtain ⟨v₂, nd, hw, hup, hkept⟩ := h
    refine ⟨v₂, nd, hw, ?_, ?_⟩
    · rw [ancestor, hup, Option.bind_some, hkept c hc, hparent]
    · intro e he
      rw [hkept e (by omega), same e he]

/-- The walk comes to where the entries of the file system lead. -/
theorem walk_reach (D : Driver F) (parts : List Name) (nd : Nameidata) (tree : Tree v)
    (hd : nd.dentry < v.dentries) :
    Walked v nd.dentry parts.length (walk D oRdonly 0 v nd parts) (reach D v nd.dentry parts) := by
  induction parts generalizing v nd with
  | nil => exact ⟨v, nd, rfl, rfl, fun _ _ => rfl⟩
  | cons part rest ih =>
    have noCreate : ¬(rest = [] ∧ oRdonly &&& oCreat ≠ 0) := fun hc => hc.2 (by decide)
    rw [reach, walk]
    simp only [noCreate, false_and, if_false]
    by_cases hlong : 256 ≤ part.length
    · rw [if_pos hlong, if_pos hlong]
      rfl
    · rw [if_neg hlong, if_neg hlong]
      cases hc : v.child nd.dentry part with
      | some c =>
        obtain ⟨hlt, hparent⟩ := tree _ hd c (List.mem_of_find?_eq_some hc)
        have hnext := ih (v.arrive nd c) tree hlt
        exact hnext.up hlt hparent le_rfl fun _ _ => rfl
      | none =>
        cases hdir : v.dInode nd.dentry with
        | none => rfl
        | some dir =>
          cases hl : (D.lookup dir).bind fun lookup => lookup v.fs part with
          | none =>
            simp only [hl]
            exact ⟨v, nd, rfl⟩
          | some i =>
            simp only [hl]
            have htree : Tree (v.link nd.dentry part (some i)) := tree.link hd
            have hsub : ((v.link nd.dentry part (some i)).dentry v.dentries).dSubdirs = [] := by
              rw [Vfs.link_new hd]
            have hnext := ih (v.arrive nd v.dentries) htree (Nat.lt_succ_self _)
            rw [show (v.arrive nd v.dentries).dentry = v.dentries from rfl,
              reach_eq_below hsub (link_dInode_new hd)] at hnext
            refine hnext.up (Nat.lt_succ_self _) ?_ (Nat.le_succ v.dentries) ?_
            · rw [Vfs.link_new hd]
            · intro e he
              exact link_parent hd he

def resolved (w : Vfs F × Int × Nameidata) : Except Int (Vfs F × Nat) :=
  if w.2.1 < 0 then .error w.2.1 else .ok (w.1, w.2.2.dentry)

theorem Walked.resolved {start n : Nat} {w : Vfs F × Int × Nameidata} {r : Reach}
    (h : Walked v start n (some w) r) :
    (r = .missing ∧ resolved w = .error (-enoent)) ∨
      r = .found ∧ ∃ v' e, resolved w = .ok (v', e) ∧ ancestor v' n e = some start := by
  cases r with
  | undefined => cases h
  | missing =>
    obtain ⟨v', nd, hw⟩ := h
    cases hw
    exact .inl ⟨rfl, rfl⟩
  | found =>
    obtain ⟨v', nd, hw, hup, -⟩ := h
    cases hw
    exact .inr ⟨rfl, v', nd.dentry, rfl, hup⟩

theorem Walked.defined {start n : Nat} {w : Option (Vfs F × Int × Nameidata)} {r : Reach}
    (h : Walked v start n w r) (hr : r ≠ .undefined) : ∃ x, w = some x := by
  cases r with
  | undefined => exact absurd rfl hr
  | missing =>
    obtain ⟨v', nd, hw⟩ := h
    exact ⟨_, hw⟩
  | found =>
    obtain ⟨v', nd, hw, -⟩ := h
    exact ⟨_, hw⟩

/-- The path that is computed for a directory and a relative path resolves, and to what the
relative path resolves to from the directory's dentry. -/
def ResolvesFrom (D : Driver F) (p : Proc) (v : Vfs F) (files : Int → Option Nat) (dirfd : Int)
    (path : List Char) (d : Nat) : Prop :=
  ∃ computed w w', interpretPathFromFd v files dirfd path = some (.ok computed) ∧
    pathWalk D p v computed oRdonly 0 = some w ∧
    walk D oRdonly 0 v { mnt := p.mntRoot, dentry := d } (parts path) = some w' ∧
    resolved w = resolved w'

/-- An open directory with a path that fits into the buffer, and a relative path. -/
structure Opened (p : Proc) (v : Vfs F) (files : Int → Option Nat) (dirfd : Int)
    (path : List Char) (d : Nat) : Prop where
  tree : Tree v
  cwd : p.dRoot < v.dentries
  dentry : d < v.dentries
  file : files dirfd = some d
  directory : ∃ i, v.dInode d = some i ∧ i.iMode &&& sIfdir ≠ 0
  fits : ∃ dir, vfsBuildPathBackward v (v.dentries + 1) d = some dir ∧ dir.length < pathMax
  relative : path.head? ≠ some '/'
  descriptor : dirfd ≠ atFdcwd

section Opened
variable {p : Proc} {files : Int → Option Nat} {dirfd : Int} {path : List Char}

/-- What is computed is the relative path itself. -/
theorem Opened.interpret (h : Opened p v files dirfd path d) :
    interpretPathFromFd v files dirfd path =
      if path.length < pathMax then some (.ok path) else none := by
  obtain ⟨i, hi, hmode⟩ := h.directory
  obtain ⟨dir, hdir, hlen⟩ := h.fits
  unfold interpretPathFromFd
  rw [if_neg (not_or_intro h.relative h.descriptor), h.file]
  simp only [hi, if_neg hmode, hdir, Option.bind_some, hlen, true_and]
  rfl

/-- A path relative to a descriptor names what it names below the descriptor's directory. -/
theorem relative_path_resolves (h : Opened p v files dirfd path d) :
    ResolvesFrom D p v files dirfd path d ↔
      path.length < pathMax ∧
        ((p.dRoot = d ∧ reach D v d (parts path) ≠ .undefined) ∨
          (reach D v p.dRoot (parts path) = .missing ∧ reach D v d (parts path) = .missing)) := by
  have hcwd := walk_reach D (parts path) ⟨p.mntRoot, p.dRoot⟩ h.tree h.cwd
  have hdir := walk_reach D (parts path) ⟨p.mntRoot, d⟩ h.tree h.dentry
  have hwalk : pathWalk D p v path oRdonly 0 =
      walk D oRdonly 0 v ⟨p.mntRoot, p.dRoot⟩ (parts path) := by
    unfold pathWalk
    rw [if_neg h.relative]
  unfold ResolvesFrom
  rw [h.interpret]
  constructor
  · rintro ⟨computed, w, w', hpath, hw, hw', heq⟩
    split at hpath
    · rename_i hlen
      obtain rfl : path = computed := by simpa using hpath
      rw [hwalk] at hw
      refine ⟨hlen, ?_⟩
      rw [hw] at hcwd
      rw [hw'] at hdir
      obtain ⟨hmiss, herr⟩ | ⟨hfound, v₁, e, hok, hup⟩ := hcwd.resolved
      · obtain ⟨hmiss', -⟩ | ⟨-, v₂, e', hok', -⟩ := hdir.resolved
        · exact .inr ⟨hmiss, hmiss'⟩
        · rw [herr, hok'] at heq
          cases heq
      · obtain ⟨-, herr'⟩ | ⟨hfound', v₂, e', hok', hup'⟩ := hdir.resolved
        · rw [hok, herr'] at heq
          cases heq
        · -- one dentry of one tree: the same number of levels up there is one directory
          rw [hok, hok'] at heq
          cases heq
          refine .inl ⟨Option.some.inj (hup.symm.trans hup'), ?_⟩
          rw [hfound']
          decide
    · cases hpath
  · rintro ⟨hlen, hreach⟩
    rw [if_pos hlen]
    obtain ⟨rfl, hdefined⟩ | ⟨hmiss, hmiss'⟩ := hreach
    · obtain ⟨w, hw⟩ := hdir.defined hdefined
      exact ⟨path, w, w, rfl, hwalk.trans hw, hw, rfl⟩
    · obtain ⟨w, hw⟩ := hcwd.defined (by rw [hmiss]; decide)
      obtain ⟨w', hw'⟩ := hdir.defined (by rw [hmiss']; decide)
      refine ⟨path, w, w', rfl, hwalk.trans hw, hw', ?_⟩
      rw [hw, hmiss] at hcwd
      rw [hw', hmiss'] at hdir
      obtain ⟨v₁, nd, h₁⟩ := hcwd
      obtain ⟨v₂, nd', h₂⟩ := hdir
      cases h₁
      cases h₂
      rfl

end Opened

def sampleTree : Vfs Unit where
  dentry
    | 0 => { dName := ['/'], dParent := none, dInode := some 0, dSubdirs := [1, 2] }
    | 1 => { dName := ['a'], dParent := some 0, dInode := some 1, dSubdirs := [3] }
    | 2 => { dName := ['b'], dParent := some 0, dInode := some 2, dSubdirs := [4] }
    | 3 => { dName := ['x'], dParent := some 1, dInode := some 3 }
    | _ => { dName := ['x'], dParent := some 2, dInode := some 4 }
  dentries := 5
  inode n := { iSb := 0, iIno := n, iMode := if n ≤ 2 then sIfdir else sIfreg }
  inodes := 5
  fs := ()

theorem sampleTree_opened {p : Proc} (hp : p.dRoot < 5) :
    Opened p sampleTree (fun _ => some 2) 3 ['x'] 2 where
  tree := by decide
  cwd := hp
  dentry := by decide
  file := rfl
  directory := ⟨_, rfl, by decide⟩
  fits := ⟨_, rfl, by decide⟩
  relative := by decide
  descriptor := by decide

theorem relative_path_resolves_here :
    ResolvesFrom small { dRoot := 2 } sampleTree (fun _ => some 2) 3 ['x'] 2 :=
  (relative_path_resolves (sampleTree_opened (by decide))).mpr
    ⟨by decide, .inl ⟨rfl, by decide⟩⟩

/-- From `/a` the file `x` of the directory `/b` is taken to be `/a/x`. -/
theorem directory_ignored : Opened { dRoot := 1 } sampleTree (fun _ => some 2) 3 ['x'] 2 ∧
    interpretPathFromFd sampleTree (fun _ => some 2) 3 ['x'] = some (.ok ['x']) ∧
    (pathWalk small { dRoot := 1 } sampleTree ['x'] oRdonly 0).map (fun w => w.2.2.dentry) =
      some 3 ∧
    (walk small oRdonly 0 sampleTree { mnt := 0, dentry := 2 } [['x']]).map
      (fun w => w.2.2.dentry) = some 4 :=
  ⟨sampleTree_opened (by decide), rfl, rfl, rfl⟩

end Mos.Namei
