import Mos.Proofs.KernelBreak

namespace Mos.Vmm
open Machine Memory

inductive PageCall where
  | map (virt phys flags : UInt32)
  | unmap (virt : UInt32)

namespace PageCall

def virt : PageCall → UInt32
  | map virt _ _ => virt
  | unmap virt => virt

def run (m : Kernel) : PageCall → Except Halt Kernel
  | map virt phys flags => vmmMapAddress m m.currentDir virt phys flags
  | unmap virt => vmmUnmapAddress m m.currentDir virt

def apply (entries : Nat → UInt32) : PageCall → Nat → UInt32
  | map virt phys flags => Function.update entries (virt.toNat / 4096) (phys ||| flags)
  | unmap virt =>
    if isPageEnabled (entries (virt.toNat / 4096)) then
      Function.update entries (virt.toNat / 4096) 0
    else entries

end PageCall

/-- The pages from 0xD0000000 on, up to the window of the tables. -/
def Movable (q : Nat) : Prop := 832 ≤ q / 1024 ∧ q / 1024 < 1023

structure Shows (m : Kernel) (t : Tables) (entries : Nat → UInt32) : Prop where
  walks : Walks m t
  entry : ∀ q, Movable q → m.phys.word (t.slot q) = entries q

section Refinement
variable {m : Kernel} {t : Tables} {entries : Nat → UInt32} {va : UInt32}

theorem Shows.set (h : Shows m t entries) {q : Nat} (hq : Movable q) (v : UInt32)
    (maps : List (UInt32 × UInt32)) :
    Shows { m with phys := m.phys.setWord (t.slot q) v, maps } t (Function.update entries q v) := by
  have w := h.walks.setSlot hq.1 hq.2 v
  refine ⟨⟨w.cr3, w.self, w.tables, w.inj, w.ne_dir, w.ne_boot, w.home, w.homeEntry, w.boot⟩, ?_⟩
  intro p hp
  by_cases he : p = q
  · subst he
    rw [Function.update_self]
    exact Bytes.word_setWord v
  · rw [Function.update_of_ne he, ← h.entry p hp]
    exact Bytes.word_setWord_of v (h.walks.slots_apart ⟨le_trans (by decide) hq.1, hq.2⟩
      ⟨le_trans (by decide) hp.1, hp.2⟩ (Ne.symm he))

theorem Movable.window (h : Movable (va.toNat / 4096)) :
    768 ≤ va.toNat / 4194304 ∧ va.toNat / 4194304 < 1023 := by
  unfold Movable at h
  omega

theorem Shows.load_entry (h : Shows m t entries) (hv : Movable (va.toNat / 4096)) :
    m.load (tableEntry va) = .ok (entries (va.toNat / 4096)) := by
  rw [← h.entry _ hv]
  exact load_eq (h.walks.slot_window hv.window.1 hv.window.2)

/-- A call changes the map at its own page only. -/
theorem Shows.step (h : Shows m t entries) {c : PageCall} (hc : Movable (c.virt.toNat / 4096)) :
    ∃ m', c.run m = .ok m' ∧ Shows m' t (c.apply entries) := by
  cases c with
  | map virt phys flags =>
    have hw := hc.window
    exact ⟨_, vmmMapAddress_home h.walks virt phys flags hw.1 hw.2, h.set hc _ _⟩
  | unmap virt =>
    change Movable (virt.toNat / 4096) at hc
    have hw := hc.window
    have hidx := getPageDirectoryIndex_toNat virt
    have hdir : m.load (m.currentDir + 4 * getPageDirectoryIndex virt) =
        .ok (m.phys.word (t.boot * 4096 + 4 * (virt.toNat / 4194304))) := by
      rw [← hidx]
      exact load_eq (h.walks.home_entry (by omega))
    simp only [PageCall.run, PageCall.apply, vmmUnmapAddress, hdir, h.load_entry hc, bind,
      Except.bind, h.walks.boot _ hw.1 hw.2, if_true]
    split
    · exact ⟨_, store_eq (h.walks.slot_window hw.1 hw.2) 0, h.set hc 0 _⟩
    · exact ⟨m, rfl, h⟩

/-- The tables show what the calls one after another leave. -/
theorem Shows.run (h : Shows m t entries) {calls : List PageCall}
    (hc : ∀ c ∈ calls, Movable (c.virt.toNat / 4096)) :
    ∃ m', calls.foldlM PageCall.run m = .ok m' ∧ Shows m' t (calls.foldl PageCall.apply entries) := by
  induction calls generalizing m entries with
  | nil => exact ⟨m, rfl, h⟩
  | cons c calls ih =>
    obtain ⟨m₁, hrun, h₁⟩ := h.step (hc c List.mem_cons_self)
    obtain ⟨m₂, hrest, h₂⟩ := ih h₁ fun d hd => hc d (List.mem_cons_of_mem c hd)
    refine ⟨m₂, ?_, h₂⟩
    rw [List.foldlM_cons, hrun]
    exact hrest

theorem frame_and_offset (entry va : UInt32) :
    ((entry &&& ~~~0xfff) ||| (va &&& 0xfff)).toNat = frameOf entry + va.toNat % 4096 := by
  have hm : (va &&& 0xfff).toNat = va.toNat % 4096 := Nat.and_two_pow_sub_one_eq_mod _ 12
  have hf : (entry &&& ~~~0xfff).toNat = frameOf entry := by
    have hs : entry &&& ~~~(0xfff : UInt32) = entry >>> 12 <<< 12 := by
      apply UInt32.toBitVec_inj.mp
      ext i hi
      interval_cases i <;> simp
    have hlt := entry.toNat_lt
    have hn : (entry >>> 12 <<< 12).toNat = entry.toNat / 4096 * 4096 % 4294967296 := by
      simp [Nat.shiftRight_eq_div_pow, Nat.shiftLeft_eq]
    rw [hs, hn, frameOf]
    omega
  rw [or_flags _ (by omega), hf, hm]
  rw [hf, frameOf]
  omega

/-- Mapping and unmapping pages through the tables' window in the address space itself is
updating a map from pages to entries: every call returns, and the processor and
`vmm_get_physical_address` find at each page what the map has there. -/
theorem page_tables_refine_map (w : Walks m t) (calls : List PageCall)
    (movable : ∀ c ∈ calls, Movable (c.virt.toNat / 4096)) :
    ∃ m', calls.foldlM PageCall.run m = .ok m' ∧ Walks m' t ∧
      ∀ va : UInt32, Movable (va.toNat / 4096) → ∀ entry,
        calls.foldl PageCall.apply (fun q => m.phys.word (t.slot q)) (va.toNat / 4096) = entry →
        vmmGetPhysicalAddress m' va true = .ok entry ∧
        (vmmGetPhysicalAddress m' va false).map UInt32.toNat =
          .ok (frameOf entry + va.toNat % 4096) ∧
        m'.translate va =
          if isPageEnabled entry then some (frameOf entry + va.toNat % 4096) else none := by
  obtain ⟨m', hrun, h⟩ := Shows.run ⟨w, fun _ _ => rfl⟩ movable
  refine ⟨m', hrun, h.walks, fun va hv entry he => ?_⟩
  have hload := h.load_entry hv
  rw [he] at hload
  refine ⟨?_, ?_, ?_⟩
  · simp [vmmGetPhysicalAddress, hload, bind, Except.bind, pure, Except.pure]
  · simp only [vmmGetPhysicalAddress, hload, bind, Except.bind, pure, Except.pure, Except.map,
      Bool.false_eq_true, if_false, frame_and_offset]
  · rw [h.walks.translate hv.window.1 hv.window.2, h.entry _ hv, he]

theorem page_tables_refine_map_boot : ∃ m',
    List.foldlM PageCall.run bootKernel [.map 0xD0001000 0x500000 3, .map 0xD0002000 0x500000 3,
      .unmap 0xD0001000] = .ok m' ∧
      m'.translate 0xD0001004 = none ∧ m'.translate 0xD0002004 = some 0x500004 := by
  obtain ⟨m', hrun, _, h⟩ := page_tables_refine_map bootKernel_walks [.map 0xD0001000 0x500000 3,
    .map 0xD0002000 0x500000 3, .unmap 0xD0001000] (by simp [PageCall.virt, Movable])
  exact ⟨m', hrun, (h 0xD0001004 (by simp [Movable]) 0 rfl).2.2,
    (h 0xD0002004 (by simp [Movable]) 0x500003 rfl).2.2⟩

end Refinement

end Mos.Vmm
