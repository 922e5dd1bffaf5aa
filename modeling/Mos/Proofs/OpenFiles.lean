import Mos.Machine.Run
import Mos.Machine.Slots
import Mos.Fs.Files

namespace Mos.Fs
open Machine List Function

def slots : Option FilesStruct → List (Option Nat)
  | some t => t.fd.toList
  | none => []

def System.refs (s : System) (id : Nat) : Nat := Machine.refs (s.procs.map slots) id

def lastRef (s : System) : Option Nat → Bool
  | some id => decide ((s.files id).fCount = 1) && (s.files id).hasRelease
  | none => true

/-- The calls that keep the counts: an `open` that succeeds finds a free slot, no
descriptor is duplicated onto another one, and a process that exits holds the last
reference to each of its files, all of which have a release operation. -/
def keepsCounts (s : System) : Nat × Call → Bool
  | (pid, call) =>
    match s.procs[pid]? with
    | some (some t) =>
      match call with
      | .open walk _ => (openFails walk).isSome || (findUnusedFdSlot t 0).isSome
      | .fcntl fd (.dupfd arg) => (t.fd.get fd).isNone || (findUnusedFdSlot t arg).isNone
      | .dup2 oldfd newfd => t.fd.get newfd == t.fd.get oldfd
      | .exit => t.fd.toList.all (lastRef s)
      | _ => true
    | _ => true

/-- How a file with `n` referring slots is kept: it is counted while there is one,
and has been released and freed once when there is none. -/
structure Accounted (f : VfsFile) (n : Nat) : Prop where
  count : f.freed = 0 → f.fCount = n
  freed : f.freed = if n = 0 then 1 else 0
  released : f.released = if n = 0 ∧ f.hasRelease = true then 1 else 0

variable {f g : VfsFile} {fd : Fin 256} {id : Nat} {s' : System}

theorem live_accounted {n : Nat} (hn : n ≠ 0) (freed : f.freed = 0)
    (count : f.fCount = n) (released : f.released = 0) : Accounted f n :=
  ⟨fun _ => count, by rw [if_neg hn, freed], by simp [hn, released]⟩

theorem Accounted.live {n : Nat} (h : Accounted f n) (hn : n ≠ 0) :
    f.freed = 0 ∧ f.fCount = n ∧ f.released = 0 := by
  have hf : f.freed = 0 := by rw [h.freed, if_neg hn]
  exact ⟨hf, h.count hf, by simp [h.released, hn]⟩

structure Counted (s : System) : Prop where
  known : ∀ id, s.refs id ≠ 0 → id < s.opened
  each : ∀ id < s.opened, Accounted (s.files id) (s.refs id)

variable {s : System} {pid : Nat} {t : FilesStruct}

theorem tables_get (hp : s.procs[pid]? = some (some t)) :
    (s.procs.map slots)[pid]? = some t.fd.toList := by
  rw [List.getElem?_map, hp]
  rfl

theorem slot_get (t : FilesStruct) (fd : Fin 256) : t.fd.toList[fd.val]? = some (t.fd.get fd) := by
  simp [Vector.get_eq_getElem]

theorem refs_ne_zero (hp : s.procs[pid]? = some (some t))
    (hf : t.fd.get fd = some id) : s.refs id ≠ 0 := by
  have hm : some id ∈ t.fd.toList := mem_of_getElem? (hf ▸ slot_get t fd)
  have := count_le_refs (tables_get hp) id
  have := count_pos_iff.mpr hm
  unfold System.refs
  omega

theorem install_refs (hp : s.procs[pid]? = some (some t)) (fd : Fin 256) (slot : Option Nat) (id : Nat) :
    (install s pid t fd slot).refs id + (if t.fd.get fd = some id then 1 else 0) =
      s.refs id + (if slot = some id then 1 else 0) := by
  have := refs_set_slot (w := slot) (tables_get hp) (slot_get t fd) id
  simpa [System.refs, install, setSlot, slots, map_set, Vector.toList_set] using this

theorem Counted.congr (hs : Counted s) (opened : s'.opened = s.opened)
    (files : s'.files = s.files) (refs : ∀ id, s'.refs id = s.refs id) : Counted s' := by
  refine ⟨fun id hn => ?_, fun id hl => ?_⟩
  · rw [opened]
    exact hs.known id (refs id ▸ hn)
  · rw [files, refs id]
    exact hs.each id (opened ▸ hl)

theorem Counted.rewrite {slot : Option Nat} (hs : Counted s)
    (hp : s.procs[pid]? = some (some t)) (same : t.fd.get fd = slot) :
    Counted (install s pid t fd slot) := by
  refine hs.congr rfl rfl fun id => ?_
  have := install_refs hp fd slot id
  rw [same] at this
  omega

theorem Counted.change (hs : Counted s)
    (opened : s'.opened = s.opened) (files : s'.files = Function.update s.files id g)
    (old : s.refs id ≠ 0) (new : Accounted g (s'.refs id))
    (refs : ∀ x, x ≠ id → s'.refs x = s.refs x) : Counted s' := by
  refine ⟨fun x hn => ?_, fun x hl => ?_⟩
  · rw [opened]
    by_cases hx : x = id
    · exact hs.known x (hx ▸ old)
    · exact hs.known x (refs x hx ▸ hn)
  · rw [files]
    by_cases hx : x = id
    · subst hx
      rwa [update_self]
    · rw [update_of_ne hx, refs x hx]
      exact hs.each x (opened ▸ hl)

theorem openFails_neg {walk : Walk} {e : Int} (h : openFails walk = some e) : e < 0 := by
  unfold openFails at h
  split at h
  · cases h
    assumption
  · split at h
    · split at h
      · cases h
        assumption
      · cases h
    · cases h

theorem setSlot_get (t : FilesStruct) (i j : Fin 256) (x : Option Nat) :
    (setSlot t i x).fd.get j = if j = i then x else t.fd.get j := by
  simp only [setSlot, Vector.get_eq_getElem, Vector.getElem_set, Fin.ext_iff, eq_comm]

theorem unused_none {lower : Nat} (h : findUnusedFdSlot t lower = some fd) :
    t.fd.get fd = none := by
  have := List.find?_some h
  simp only [Bool.and_eq_true, Option.isNone_iff_eq_none] at this
  exact this.2

theorem Counted.fresh (hs : Counted s)
    (hp : s.procs[pid]? = some (some t)) (free : t.fd.get fd = none) (new : Accounted g 1) :
    Counted (install { s with files := Function.update s.files s.opened g, opened := s.opened + 1 }
      pid t fd (some s.opened)) := by
  have hz : s.refs s.opened = 0 := by
    by_contra hn
    exact absurd (hs.known _ hn) (Nat.lt_irrefl _)
  have hr (id : Nat) := install_refs (s := { s with
    files := Function.update s.files s.opened g
    opened := s.opened + 1 }) hp fd (some s.opened) id
  simp only [free, reduceCtorEq, if_false, Nat.add_zero, Option.some.injEq] at hr
  refine ⟨fun id hn => ?_, fun id hl => ?_⟩
  · change id < s.opened + 1
    by_cases he : s.opened = id
    · omega
    · rw [hr, if_neg he] at hn
      exact Nat.lt_succ_of_lt (hs.known id hn)
  · change Accounted (Function.update s.files s.opened g id) _
    rw [hr]
    by_cases he : s.opened = id
    · subst he
      rw [update_self, if_pos rfl]
      change Accounted g (s.refs s.opened + 1)
      rwa [hz]
    · rw [update_of_ne (Ne.symm he), if_neg he]
      exact hs.each id (Nat.lt_of_le_of_ne (Nat.le_of_lt_succ hl) (Ne.symm he))

theorem Counted.opens {walk : Walk} {flags : UInt32} (hs : Counted s)
    (hp : s.procs[pid]? = some (some t))
    (ok : ((openFails walk).isSome || (findUnusedFdSlot t 0).isSome) = true) :
    Counted (vfsOpen s pid t walk flags).1 := by
  unfold vfsOpen
  split
  · exact hs
  · rename_i hopen
    split
    · rename_i fd hfd
      exact hs.fresh hp (unused_none hfd) (live_accounted Nat.one_ne_zero rfl rfl rfl)
    · rename_i hfd
      rw [hopen, hfd] at ok
      cases ok

theorem destroy_accounted (freed : f.freed = 0) (released : f.released = 0) :
    Accounted f.destroy 0 := by
  refine ⟨fun hz => ?_, ?_, ?_⟩
  · simp [VfsFile.destroy] at hz
  · simp [VfsFile.destroy, freed]
  · change (if f.hasRelease then f.released + 1 else f.released) =
      if 0 = 0 ∧ f.hasRelease = true then 1 else 0
    simp [released]

theorem Counted.clear (hs : Counted s)
    (hp : s.procs[pid]? = some (some t)) (hf : t.fd.get fd = some id)
    (new : Accounted g (s.refs id - 1)) :
    Counted (install { s with files := Function.update s.files id g } pid t fd none) := by
  have hr (x : Nat) := install_refs (s := { s with files := Function.update s.files id g }) hp fd none x
  simp only [hf, reduceCtorEq, if_false, Nat.add_zero, Option.some.injEq] at hr
  refine hs.change rfl rfl (refs_ne_zero hp hf) ?_ fun x hx => ?_
  · have := hr id
    rw [if_pos rfl] at this
    rwa [Nat.eq_sub_of_add_eq this]
  · have := hr x
    rwa [if_neg (Ne.symm hx)] at this

theorem Counted.closes (hs : Counted s) (hp : s.procs[pid]? = some (some t)) :
    Counted (vfsClose s pid t fd).1 := by
  unfold vfsClose
  split
  · rename_i hf
    exact hs.rewrite hp hf
  · rename_i id hf
    have hn := refs_ne_zero hp hf
    obtain ⟨freed, count, released⟩ := (hs.each id (hs.known id hn)).live hn
    dsimp only
    split
    · refine hs.clear hp hf ?_
      obtain h1 : s.refs id - 1 = 0 := by omega
      rw [h1]
      exact destroy_accounted freed released
    · refine hs.clear hp hf (live_accounted (by omega) freed ?_ released)
      change (s.files id).fCount - 1 = _
      omega

theorem Counted.fcntls {cmd : Fcntl} (hs : Counted s)
    (hp : s.procs[pid]? = some (some t))
    (ok : ∀ arg, cmd = .dupfd arg →
      ((t.fd.get fd).isNone || (findUnusedFdSlot t arg).isNone) = true) :
    Counted (doFcntl s pid t fd cmd).1 := by
  unfold doFcntl
  split
  · exact hs
  · rename_i id hf
    have hn := refs_ne_zero hp hf
    have ha := hs.each id (hs.known id hn)
    cases cmd with
    | dupfd arg =>
      have := ok arg rfl
      rw [hf, Option.isNone_some, Bool.false_or, Option.isNone_iff_eq_none] at this
      dsimp only
      rw [this]
      exact hs
    | getfd | getfl => exact hs
    | setfd arg | setfl arg =>
      exact hs.change rfl rfl hn ⟨ha.count, ha.freed, ha.released⟩ fun _ _ => rfl

theorem clone_files (files : Nat → VfsFile) (l : List (Option Nat)) (id : Nat) :
    cloneFileDescriptorTable files l id =
      { files id with fCount := (files id).fCount + l.count (some id) } := by
  induction l generalizing files with
  | nil => simp [cloneFileDescriptorTable]
  | cons slot l ih =>
    cases slot with
    | none => simp [cloneFileDescriptorTable, ih]
    | some x =>
      rw [cloneFileDescriptorTable, ih]
      by_cases hx : id = x
      · subst hx
        simp
        omega
      · rw [update_of_ne hx, count_cons_of_ne]
        simpa using Ne.symm hx

theorem Counted.forks (hs : Counted s) (hp : s.procs[pid]? = some (some t)) :
    Counted (sysFork s t).1 := by
  have hr (id : Nat) : (sysFork s t).1.refs id = s.refs id + t.fd.toList.count (some id) := by
    have := refs_append (s.procs.map slots) t.fd.toList id
    simpa [System.refs, sysFork, slots] using this
  have hle (id : Nat) : t.fd.toList.count (some id) ≤ s.refs id := count_le_refs (tables_get hp) id
  refine ⟨fun id hn => ?_, fun id hl => ?_⟩
  · have := hle id
    rw [hr] at hn
    exact hs.known id (by omega)
  · have ha := hs.each id hl
    change Accounted (cloneFileDescriptorTable s.files t.fd.toList id) _
    rw [hr, clone_files]
    by_cases hz : s.refs id = 0
    · have := hle id
      have hc : t.fd.toList.count (some id) = 0 := by omega
      rw [hc]
      simpa using ha
    · obtain ⟨freed, count, released⟩ := ha.live hz
      refine live_accounted (by omega) freed ?_ released
      change (s.files id).fCount + (t.fd.toList.count (some id) : Int) = _
      omega

theorem exit_files {files : Nat → VfsFile} {l : List (Option Nat)}
    (last : ∀ id, some id ∈ l → (files id).fCount = 1 ∧ (files id).hasRelease = true)
    (once : ∀ id, l.count (some id) ≤ 1) :
    ∃ files', exitFiles files l = some files' ∧
      ∀ id, files' id = if some id ∈ l then (files id).destroy else files id := by
  induction l generalizing files with
  | nil => exact ⟨files, rfl, by simp⟩
  | cons slot l ih =>
    have hl (id : Nat) : l.count (some id) ≤ 1 := Nat.le_trans count_le_count_cons (once id)
    cases slot with
    | none =>
      obtain ⟨files', he, hf⟩ := ih (fun id hm => last id (.tail _ hm)) hl
      exact ⟨files', he, by simpa using hf⟩
    | some x =>
      obtain ⟨hc, hr⟩ := last x (.head _)
      have hx : some x ∉ l := by
        intro hm
        have := once x
        rw [count_cons_self] at this
        have := count_pos_iff.mpr hm
        omega
      have hlast : ∀ id, some id ∈ l →
          (Function.update files x (files x).destroy id).fCount = 1 ∧
          (Function.update files x (files x).destroy id).hasRelease = true := by
        intro id hm
        have hn : id ≠ x := fun he => hx (he ▸ hm)
        rw [update_of_ne hn]
        exact last id (.tail _ hm)
      obtain ⟨files', he, hf⟩ := ih hlast hl
      refine ⟨files', ?_, fun id => ?_⟩
      · obtain ⟨op, hop⟩ : ∃ op, (files x).fOp = some op := by
          cases ho : (files x).fOp with
          | none => simp [VfsFile.hasRelease, ho] at hr
          | some op => exact ⟨op, rfl⟩
        have hrel : op.release.isSome = true := by simpa [VfsFile.hasRelease, hop] using hr
        simp [exitFiles, hc, hop, hrel, he]
      · rw [hf]
        by_cases hn : id = x
        · subst hn
          simp [hx]
        · simp [hn]

theorem Counted.exits (hs : Counted s) (hp : s.procs[pid]? = some (some t))
    (ok : t.fd.toList.all (lastRef s) = true) (h : doExit s pid t = some s') : Counted s' := by
  have hr (id : Nat) : Machine.refs ((s.procs.set pid none).map slots) id +
      t.fd.toList.count (some id) = s.refs id := by
    have := refs_set (u := []) (tables_get hp) id
    simpa [System.refs, slots, map_set] using this
  have last (id : Nat) (hm : some id ∈ t.fd.toList) :
      (s.files id).fCount = 1 ∧ (s.files id).hasRelease = true := by
    simpa [lastRef] using all_eq_true.mp ok _ hm
  have one (id : Nat) (hm : some id ∈ t.fd.toList) : id < s.opened ∧ s.refs id = 1 ∧
      t.fd.toList.count (some id) = 1 := by
    have := hr id
    have := count_pos_iff.mpr hm
    have hn : s.refs id ≠ 0 := by omega
    have hl := hs.known id hn
    have := ((hs.each id hl).live hn).2.1
    have := (last id hm).1
    omega
  obtain ⟨files', he, hf⟩ := exit_files last fun id => by
    by_cases hm : some id ∈ t.fd.toList
    · exact Nat.le_of_eq (one id hm).2.2
    · rw [count_eq_zero.mpr hm]
      exact Nat.zero_le 1
  rw [doExit, he] at h
  cases h
  refine ⟨fun id hn => hs.known id ?_, fun id hl => ?_⟩
  · have := hr id
    change Machine.refs ((s.procs.set pid none).map slots) id ≠ 0 at hn
    omega
  · change Accounted (files' id) (Machine.refs _ id)
    have hrid := hr id
    rw [hf]
    split
    · rename_i hm
      obtain ⟨-, h1, hc⟩ := one id hm
      obtain ⟨freed, -, released⟩ := (hs.each id hl).live (h1 ▸ Nat.one_ne_zero)
      have hz : Machine.refs ((s.procs.set pid none).map slots) id = 0 := by omega
      rw [hz]
      exact destroy_accounted freed released
    · rename_i hm
      rw [count_eq_zero.mpr hm, Nat.add_zero] at hrid
      rw [hrid]
      exact hs.each id hl

/-- A call changes the counts by the descriptors it opens and closes. -/
theorem Counted.step {e : Nat × Call} (hs : Counted s) (ok : keepsCounts s e = true)
    (h : invoke s e = some s') : Counted s' := by
  obtain ⟨pid, call⟩ := e
  unfold invoke at h
  dsimp only at h
  split at h
  · rename_i t hp
    unfold keepsCounts at ok
    dsimp only at ok
    rw [hp] at ok
    cases call with
    | «open» walk flags =>
      cases h
      exact hs.opens hp ok
    | close fd =>
      cases h
      exact hs.closes hp
    | fcntl fd cmd =>
      cases h
      refine hs.fcntls hp fun arg he => ?_
      subst he
      exact ok
    | dup2 oldfd newfd =>
      cases h
      exact hs.rewrite hp (beq_iff_eq.mp ok)
    | fork =>
      cases h
      exact hs.forks hp
    | exit => exact hs.exits hp ok h
  · cases h

theorem Counted.start : Counted {} := by
  refine ⟨fun id hn => absurd ?_ hn, fun id hl => absurd hl (Nat.not_lt_zero id)⟩
  have hc : List.count (some id) (Vector.replicate 256 (none : Option Nat)).toList = 0 := by
    rw [Vector.toList_replicate, count_replicate, if_neg (by simp)]
  simp only [System.refs, Machine.refs, map_cons, map_nil, slots, sum_cons,
    sum_nil, hc, Nat.add_zero]

/-- In every run of calls that keep the counts, the count of a file that has not been
freed is the number of slots referring to it, and a file has been released and freed
once as soon as no slot refers to it, and not before. -/
theorem open_files_counted {s : System}
    (run : Run invoke (fun s e => keepsCounts s e = true) {} s) (id : Nat) (opened : id < s.opened) :
    ((s.files id).freed = 0 → (s.files id).fCount = s.refs id) ∧
    (s.files id).freed = (if s.refs id = 0 then 1 else 0) ∧
    (s.files id).released = if s.refs id = 0 ∧ (s.files id).hasRelease = true then 1 else 0 := by
  have hs : Counted s := run.invariant Counted.start fun _ _ _ ha ok h => ha.step ok h
  have ha := hs.each id opened
  exact ⟨ha.count, ha.freed, ha.released⟩

def plainFile : Walk where
  ret := 0
  iFop := some { openRet := some 0, release := some 0 }

theorem open_files_counted_fork :
    ∃ s, Run invoke (fun s e => keepsCounts s e = true) {} s ∧
      s.refs 0 = 0 ∧ (s.files 0).freed = 1 ∧ (s.files 0).released = 1 ∧
      s.refs 1 = 1 ∧ ((s.files 1).freed = 0 → (s.files 1).fCount = s.refs 1) := by
  obtain ⟨s, run, h0, hz, h1, hr⟩ := replay_reaches invoke (fun s e => keepsCounts s e = true) {}
    [(0, .open plainFile 0), (0, .fork), (1, .close 0), (0, .exit), (1, .open plainFile 0)]
    (P := fun s => s.opened = 2 ∧ s.refs 0 = 0 ∧ s.refs 1 = 1 ∧ (s.files 0).hasRelease = true)
    (by decide +kernel)
  have hs (id : Nat) (hl : id < 2) := open_files_counted run id (h0 ▸ hl)
  refine ⟨s, run, hz, ?_, ?_, h1, (hs 1 (by decide)).1⟩
  · rw [(hs 0 (by decide)).2.1, if_pos hz]
  · rw [(hs 0 (by decide)).2.2, if_pos ⟨hz, hr⟩]

/-- After `F_DUPFD`, closing one of the two descriptors frees the file the other one
still refers to. -/
theorem duplicate_outlives_file :
    ∃ s, Run invoke (fun _ _ => True) {} s ∧
      s.opened = 1 ∧ s.refs 0 = 1 ∧ (s.files 0).freed = 1 :=
  replay_reaches invoke (fun _ _ => True) {}
    [(0, .open plainFile 0), (0, .fcntl 0 (.dupfd 0)), (0, .close 0)]
    (P := fun s => s.opened = 1 ∧ s.refs 0 = 1 ∧ (s.files 0).freed = 1) (by decide +kernel)

end Mos.Fs
