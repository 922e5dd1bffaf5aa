import Mos.Machine.Run
import Mos.Fs.Namei

namespace Mos.Namei
open Machine Function

def Inode.key (i : Inode) : Nat × Nat := (i.iSb, i.iIno)

/-- A name other than `.` and `..`, which path_walk looks up like any other. -/
def PlainName (name : Name) : Prop := name ≠ ['.'] ∧ name ≠ ['.', '.']

instance (name : Name) : Decidable (PlainName name) := by
  unfold PlainName
  infer_instance

variable {F : Type} {D : Driver F} {v v' : Vfs F} {nd nd' : Nameidata} {parent d : Nat}
  {part : Name} {i dir : Inode} {ret : Int}

/-- The directory `dir` has an entry for the inode `i`. -/
def Entry (D : Driver F) (fs : F) (dir : Inode) (name : Name) (i : Inode) : Prop :=
  ∃ lookup, D.lookup dir = some lookup ∧ lookup fs name = some i

/-- No inode has two names, apart from `.` and `..`. -/
def OneName (D : Driver F) (fs : F) : Prop :=
  ∀ dir name i dir' name' i', Entry D fs dir name i → Entry D fs dir' name' i' →
    PlainName name → PlainName name' → i.key = i'.key → dir.key = dir'.key ∧ name = name'

namespace Vfs

@[simp] theorem link_dentries : (v.link parent part (some i)).dentries = v.dentries + 1 := rfl

@[simp] theorem link_inodes : (v.link parent part (some i)).inodes = v.inodes + 1 := rfl

theorem link_dentry : (v.link parent part (some i)).dentry =
    Function.update
      (Function.update v.dentry v.dentries
        { dName := part, dParent := some parent, dInode := some v.inodes }) parent
      { Function.update v.dentry v.dentries
          { dName := part, dParent := some parent, dInode := some v.inodes } parent with
        dSubdirs := (Function.update v.dentry v.dentries
          { dName := part, dParent := some parent, dInode := some v.inodes } parent).dSubdirs ++
            [v.dentries] } := rfl

theorem link_new (hp : parent < v.dentries) :
    (v.link parent part (some i)).dentry v.dentries =
      { dName := part, dParent := some parent, dInode := some v.inodes } := by
  rw [link_dentry, update_of_ne hp.ne', update_self]

theorem link_old (hp : parent < v.dentries) (hd : d < v.dentries) :
    (v.link parent part (some i)).dentry d =
      if d = parent then
        { v.dentry parent with dSubdirs := (v.dentry parent).dSubdirs ++ [v.dentries] }
      else v.dentry d := by
  rw [link_dentry]
  by_cases he : d = parent
  · subst he
    rw [if_pos rfl, update_self, update_of_ne hd.ne]
  · rw [if_neg he, update_of_ne he, update_of_ne hd.ne]

theorem link_name (hp : parent < v.dentries) (hd : d < v.dentries) :
    ((v.link parent part (some i)).dentry d).dName = (v.dentry d).dName := by
  rw [link_old hp hd]
  split
  · rename_i he
    rw [he]
  · rfl

theorem link_object (hp : parent < v.dentries) (hd : d < v.dentries) :
    ((v.link parent part (some i)).dentry d).dInode = (v.dentry d).dInode := by
  rw [link_old hp hd]
  split
  · rename_i he
    rw [he]
  · rfl

theorem link_subdirs (hp : parent < v.dentries) (hd : d < v.dentries) :
    ((v.link parent part (some i)).dentry d).dSubdirs =
      if d = parent then (v.dentry parent).dSubdirs ++ [v.dentries] else (v.dentry d).dSubdirs := by
  rw [link_old hp hd]
  split <;> rfl

theorem link_inode : (v.link parent part (some i)).inode = Function.update v.inode v.inodes i := rfl

end Vfs

/-- Every dentry has a different inode, and an entry for the inode of a dentry is the one by
which the tree reaches this dentry. -/
structure Sound (D : Driver F) (v : Vfs F) : Prop where
  subdirs : ∀ d < v.dentries, ∀ c ∈ (v.dentry d).dSubdirs, c < v.dentries
  objects : ∀ d < v.dentries, ∀ o, (v.dentry d).dInode = some o → o < v.inodes
  distinct : ∀ d < v.dentries, ∀ e < v.dentries, ∀ i j, v.dInode d = some i →
    v.dInode e = some j → i.key = j.key → d = e
  named : ∀ d < v.dentries, ∀ i, v.dInode d = some i → ∀ dir name j, PlainName name →
    Entry D v.fs dir name j → j.key = i.key →
    ∃ parent < v.dentries, ∃ pi, v.dInode parent = some pi ∧ pi.key = dir.key ∧
      d ∈ (v.dentry parent).dSubdirs ∧ (v.dentry d).dName = name

theorem Sound.link_dInode (h : Sound D v) (hp : parent < v.dentries) (hd : d < v.dentries) :
    (v.link parent part (some i)).dInode d = v.dInode d := by
  unfold Vfs.dInode
  rw [Vfs.link_object hp hd, Vfs.link_inode]
  cases ho : (v.dentry d).dInode with
  | none => rfl
  | some o =>
    have := h.objects d hd o ho
    rw [Option.map_some, Option.map_some, update_of_ne (by omega)]

theorem link_dInode_new (hp : parent < v.dentries) :
    (v.link parent part (some i)).dInode v.dentries = some i := by
  unfold Vfs.dInode
  rw [Vfs.link_new hp, Option.map_some, Vfs.link_inode, update_self]

theorem Sound.fresh (h : Sound D v) (hp : parent < v.dentries) (hdir : v.dInode parent = some dir)
    (plain : PlainName part) (entry : Entry D v.fs dir part i) (miss : v.child parent part = none) :
    ∀ d < v.dentries, ∀ j, v.dInode d = some j → i.key ≠ j.key := by
  intro d hd j hj hk
  obtain ⟨q, hq, qi, hqi, hqk, hmem, hname⟩ := h.named d hd j hj dir part i plain entry hk
  obtain rfl := h.distinct q hq parent hp qi dir hqi hdir hqk
  have := List.find?_eq_none.mp miss d hmem
  simp [hname] at this

theorem Sound.link (h : Sound D v) (one : OneName D v.fs) (hp : parent < v.dentries)
    (hdir : v.dInode parent = some dir) (plain : PlainName part)
    (entry : Entry D v.fs dir part i) (miss : v.child parent part = none) :
    Sound D (v.link parent part (some i)) := by
  have fresh := h.fresh hp hdir plain entry miss
  have old : ∀ d < v.dentries, (v.link parent part (some i)).dInode d = v.dInode d :=
    fun d hd => h.link_dInode hp hd
  have new : (v.link parent part (some i)).dInode v.dentries = some i := link_dInode_new hp
  have split : ∀ d, d < v.dentries + 1 → d < v.dentries ∨ d = v.dentries := by omega
  refine ⟨?_, ?_, ?_, ?_⟩
  · intro d hd c hc
    rw [Vfs.link_dentries] at hd ⊢
    rcases split d hd with hd | rfl
    · rw [Vfs.link_subdirs hp hd] at hc
      split at hc
      · rcases List.mem_append.mp hc with hc | hc
        · have := h.subdirs parent hp c hc
          omega
        · have := List.mem_singleton.mp hc
          omega
      · have := h.subdirs d hd c hc
        omega
    · rw [Vfs.link_new hp] at hc
      cases hc
  · intro d hd o ho
    rw [Vfs.link_inodes]
    rcases split d hd with hd | rfl
    · rw [Vfs.link_object hp hd] at ho
      have := h.objects d hd o ho
      omega
    · rw [Vfs.link_new hp] at ho
      have := Option.some.inj ho
      omega
  · intro d hd e he a b ha hb hk
    rcases split d hd with hd | rfl
    · rw [old d hd] at ha
      rcases split e he with he | rfl
      · rw [old e he] at hb
        exact h.distinct d hd e he a b ha hb hk
      · rw [new] at hb
        cases hb
        exact absurd hk.symm (fresh d hd a ha)
    · rw [new] at ha
      cases ha
      rcases split e he with he | rfl
      · rw [old e he] at hb
        exact absurd hk (fresh e he b hb)
      · rfl
  · intro d hd a ha dir' name j hn hj hk
    rcases split d hd with hd | rfl
    · rw [old d hd] at ha
      obtain ⟨q, hq, qi, hqi, hqk, hmem, hname⟩ := h.named d hd a ha dir' name j hn hj hk
      refine ⟨q, by rw [Vfs.link_dentries]; omega, qi, by rw [old q hq]; exact hqi, hqk, ?_, ?_⟩
      · rw [Vfs.link_subdirs hp hq]
        split
        · rename_i he
          exact List.mem_append_left _ (he ▸ hmem)
        · exact hmem
      · rw [Vfs.link_name hp hd]
        exact hname
    · rw [new] at ha
      cases ha
      obtain ⟨hkey, rfl⟩ := one _ _ _ _ _ _ hj entry hn plain hk
      refine ⟨parent, by rw [Vfs.link_dentries]; omega, dir, by rw [old parent hp]; exact hdir,
        hkey.symm, ?_, ?_⟩
      · rw [Vfs.link_subdirs hp hp, if_pos rfl]
        exact List.mem_append_right _ (List.mem_singleton.mpr rfl)
      · rw [Vfs.link_new hp]

def Extends (v v' : Vfs F) : Prop :=
  v.dentries ≤ v'.dentries ∧ v'.fs = v.fs ∧
    (∀ d < v.dentries, (v'.dentry d).dInode = (v.dentry d).dInode) ∧
    ∀ d < v.dentries, v'.dInode d = v.dInode d

theorem Extends.refl (v : Vfs F) : Extends v v := ⟨le_rfl, rfl, fun _ _ => rfl, fun _ _ => rfl⟩

theorem Extends.trans {v'' : Vfs F} (h : Extends v v') (h' : Extends v' v'') : Extends v v'' := by
  refine ⟨h.1.trans h'.1, h'.2.1.trans h.2.1, ?_, ?_⟩
  · intro d hd
    rw [h'.2.2.1 d (hd.trans_le h.1), h.2.2.1 d hd]
  · intro d hd
    rw [h'.2.2.2 d (hd.trans_le h.1), h.2.2.2 d hd]

theorem child_lt (h : Sound D v) (hp : parent < v.dentries) (hc : v.child parent part = some d) :
    d < v.dentries := h.subdirs parent hp d (List.mem_of_find?_eq_some hc)

/-- A walk through plain names keeps the tree sound and ends at one of its dentries. -/
theorem Sound.walk {mode : UInt32} : ∀ {parts : List Name} {v : Vfs F} {nd : Nameidata},
    Sound D v → OneName D v.fs → nd.dentry < v.dentries → (∀ part ∈ parts, PlainName part) →
    walk D oRdonly mode v nd parts = some (v', ret, nd') →
    Sound D v' ∧ Extends v v' ∧ nd'.dentry < v'.dentries
  | [], v, nd, h, _, hn, _, hw => by
    obtain ⟨rfl, -, rfl⟩ : v = v' ∧ 0 = ret ∧ nd = nd' := by simpa [Namei.walk] using hw
    exact ⟨h, .refl v, hn⟩
  | part :: rest, v, nd, h, one, hn, plain, hw => by
    have plain' : ∀ q ∈ rest, PlainName q := fun q hq => plain q (List.mem_cons_of_mem _ hq)
    have noCreate : ¬(rest = [] ∧ oRdonly &&& oCreat ≠ 0) := fun hc => hc.2 (by decide)
    rw [Namei.walk] at hw
    simp only [noCreate, false_and, if_false] at hw
    split at hw
    · cases hw
    cases hc : v.child nd.dentry part with
    | some d =>
      simp only [hc] at hw
      exact Sound.walk h one (child_lt h hn hc) plain' hw
    | none =>
      simp only [hc] at hw
      cases hdir : v.dInode nd.dentry with
      | none =>
        rw [hdir] at hw
        cases hw
      | some dir =>
        simp only [hdir] at hw
        cases hl : (D.lookup dir).bind fun lookup => lookup v.fs part with
        | none =>
          simp only [hl] at hw
          obtain ⟨rfl, -, rfl⟩ : v = v' ∧ -enoent = ret ∧ nd = nd' := by simpa using hw
          exact ⟨h, .refl v, hn⟩
        | some i =>
          simp only [hl] at hw
          have entry : Entry D v.fs dir part i := Option.bind_eq_some_iff.mp hl
          have hs := h.link one hn hdir (plain part List.mem_cons_self) entry hc
          have ext : Extends v (v.link nd.dentry part (some i)) :=
            ⟨Nat.le_succ _, rfl, fun d hd => Vfs.link_object hn hd,
              fun d hd => h.link_dInode hn hd⟩
          obtain ⟨hs', ext', hn'⟩ := Sound.walk hs one (Nat.lt_succ_self _) plain' hw
          exact ⟨hs', ext.trans ext', hn'⟩

structure Resolution where
  proc : Proc := {}
  path : List Char
  deriving DecidableEq, Repr

def resolve (D : Driver F) (v : Vfs F) (e : Resolution) : Option (Vfs F × Int × Nameidata) :=
  pathWalk D e.proc v e.path oRdonly 0

def next (D : Driver F) (v : Vfs F) (e : Resolution) : Option (Vfs F) :=
  (resolve D v e).map fun w => w.1

/-- The current directory and the root of the process are in the tree. -/
def Stands (v : Vfs F) (e : Resolution) : Prop :=
  e.proc.dRoot < v.dentries ∧ e.proc.mntRoot < v.dentries

def Plain (e : Resolution) : Prop := ∀ part ∈ parts e.path, PlainName part

instance (v : Vfs F) (e : Resolution) : Decidable (Stands v e) := by
  unfold Stands
  infer_instance

instance (e : Resolution) : Decidable (Plain e) := by
  unfold Plain
  infer_instance

/-- Two resolutions, one after the other, that end at the same inode number of the same
superblock end at the same inode object. -/
def SameObject (D : Driver F) (v : Vfs F) (e e' : Resolution) : Prop :=
  ∀ v₁ ret nd v₂ ret' nd', resolve D v e = some (v₁, ret, nd) → 0 ≤ ret → Stands v₁ e' →
    resolve D v₁ e' = some (v₂, ret', nd') → 0 ≤ ret' →
    ∀ i j, v₂.dInode nd.dentry = some i → v₂.dInode nd'.dentry = some j → i.key = j.key →
      (v₂.dentry nd.dentry).dInode = (v₂.dentry nd'.dentry).dInode

theorem Sound.resolve {e : Resolution} (h : Sound D v) (one : OneName D v.fs) (hs : Stands v e)
    (plain : Plain e) (hr : resolve D v e = some (v', ret, nd')) :
    Sound D v' ∧ Extends v v' ∧ nd'.dentry < v'.dentries := by
  apply Sound.walk h one _ plain hr
  split
  · exact hs.2
  · exact hs.1

/-- In every state that resolutions of plain paths reach, any two plain paths that arrive at
one inode arrive at one object. -/
theorem inode_identity {v₀ : Vfs F} (start : Sound D v₀) (one : OneName D v₀.fs)
    (run : Run (next D) (fun v e => Stands v e ∧ Plain e) v₀ v) (e e' : Resolution)
    (hs : Stands v e) (plain : Plain e) (plain' : Plain e') : SameObject D v e e' := by
  obtain ⟨h, hfs⟩ : Sound D v ∧ v.fs = v₀.fs := by
    apply run.invariant (I := fun v => Sound D v ∧ v.fs = v₀.fs) ⟨start, rfl⟩
    intro a e b ha ok hn
    obtain ⟨⟨v', ret, nd⟩, hr, rfl⟩ := Option.map_eq_some_iff.mp hn
    obtain ⟨hb, ext, -⟩ := ha.1.resolve (ha.2 ▸ one) ok.1 ok.2 hr
    exact ⟨hb, ext.2.1.trans ha.2⟩
  intro v₁ ret nd v₂ ret' nd' hr _ hs' hr' _ i j hi hj hk
  obtain ⟨h₁, ext₁, hn₁⟩ := h.resolve (hfs ▸ one) hs plain hr
  have hfs₁ : v₁.fs = v₀.fs := ext₁.2.1.trans hfs
  obtain ⟨h₂, ext₂, hn₂⟩ := h₁.resolve (hfs₁ ▸ one) hs' plain' hr'
  rw [h₂.distinct _ (hn₁.trans_le ext₂.1) _ hn₂ i j hi hj hk]

def mounted (root : Inode) (fs : F) : Vfs F where
  dentry _ := { dName := ['/'], dParent := none, dInode := some 0 }
  dentries := 1
  inode _ := root
  inodes := 1
  mounts := [0]
  fs

/-- The root alone is sound, unless an entry leads back to it. -/
theorem mounted_sound {root : Inode} {fs : F}
    (unnamed : ∀ dir name i, PlainName name → Entry D fs dir name i → i.key ≠ root.key) :
    Sound D (mounted root fs) := by
  have only : ∀ d < (mounted root fs).dentries, d = 0 := fun d hd => Nat.lt_one_iff.mp hd
  refine ⟨?_, ?_, ?_, ?_⟩
  · intro d _ c hc
    cases hc
  · intro d _ o ho
    cases ho
    exact Nat.zero_lt_one
  · intro d hd e he _ _ _ _ _
    rw [only d hd, only e he]
  · intro d _ i hi dir name j hn hj hk
    cases hi
    exact absurd hk (unnamed dir name j hn hj)

def small : Driver Unit where
  lookup dir :=
    if dir.key = (0, 2) then
      some fun _ name =>
        if name = ['.'] then some { iSb := 0, iIno := 2, iMode := sIfdir }
        else if name = ['a'] then some { iSb := 0, iIno := 12, iMode := sIfreg }
        else none
    else none
  create _ := none
  unlink _ := none
  rename _ := none
  fop _ := none

theorem small_entry {name : Name} (plain : PlainName name) (h : Entry small () dir name i) :
    dir.key = (0, 2) ∧ name = ['a'] ∧ i.key = (0, 12) := by
  obtain ⟨lookup, hl, hi⟩ := h
  simp only [small] at hl
  split at hl
  · rename_i hd
    cases hl
    simp only [if_neg plain.1] at hi
    split at hi
    · rename_i hn
      cases hi
      exact ⟨hd, hn, rfl⟩
    · cases hi
  · cases hl

def root : Inode := { iSb := 0, iIno := 2, iMode := sIfdir }

theorem inode_identity_relative :
    ∃ v, Run (next small) (fun v e => Stands v e ∧ Plain e) (mounted root ()) v ∧
      v.dentries = 2 ∧ SameObject small v { path := ['/', 'a'] } { path := ['a'] } := by
  obtain ⟨v, hr, hd, hs⟩ := replay_reaches (next small) (fun v e => Stands v e ∧ Plain e)
    (mounted root ()) [{ path := ['/', 'a'] }]
    (P := fun v => v.dentries = 2 ∧ Stands v { path := ['/', 'a'] }) (by decide +kernel)
  refine ⟨v, hr, hd, inode_identity (mounted_sound ?_) ?_ hr _ _ hs (by decide) (by decide)⟩
  · intro dir name i hn hi
    rw [(small_entry hn hi).2.2]
    decide
  · intro dir name i dir' name' i' hi hi' hn hn' _
    have he := small_entry hn hi
    have he' := small_entry hn' hi'
    exact ⟨he.1.trans he'.1.symm, he.2.1.trans he'.2.1.symm⟩

/-- The root and its entry `.` are one inode with two objects. -/
theorem dot_is_another_object :
    ¬SameObject small (mounted root ()) { path := ['/'] } { path := ['/', '.'] } := by
  intro h
  have hd := h _ _ _ _ _ _ rfl (by decide) (by decide) rfl (by decide) root root rfl rfl rfl
  exact absurd hd (by decide +kernel)

end Mos.Namei
