import Mos.Memory.Vmm

namespace Mos.Vmm
open Machine Memory

section Entries

theorem getPageDirectoryIndex_toNat (x : UInt32) :
    (getPageDirectoryIndex x).toNat = x.toNat / 4194304 := by
  have := x.toNat_lt
  have hs : (x >>> 22).toNat = x.toNat / 4194304 := by
    simp [Nat.shiftRight_eq_div_pow]
  rw [getPageDirectoryIndex, UInt32.toNat_and, hs]
  exact (Nat.and_two_pow_sub_one_eq_mod _ 10).trans (Nat.mod_eq_of_lt (by omega))

theorem getPageTableEntryIndex_toNat (x : UInt32) :
    (getPageTableEntryIndex x).toNat = x.toNat / 4096 % 1024 := by
  have hs : (x >>> 12).toNat = x.toNat / 4096 := by
    simp [Nat.shiftRight_eq_div_pow]
  rw [getPageTableEntryIndex, UInt32.toNat_and, hs]
  exact Nat.and_two_pow_sub_one_eq_mod _ 10

theorem tableEntry_toNat (x : UInt32) :
    (tableEntry x).toNat = 0xFFC00000 + 4 * (x.toNat / 4096) := by
  have := x.toNat_lt
  have hb : pageTableBase.toNat = 0xFFC00000 := rfl
  have hf : pmmFrameSize.toNat = 4096 := rfl
  simp only [tableEntry, UInt32.toNat_add, UInt32.toNat_mul, getPageDirectoryIndex_toNat,
    getPageTableEntryIndex_toNat, hb, hf, UInt32.reduceToNat]
  omega

theorem isPageEnabled_iff (x : UInt32) : isPageEnabled x = true ↔ x.toNat % 2 = 1 := by
  have h : (x &&& 1).toNat = x.toNat % 2 := by
    exact Nat.and_one_is_mod _
  rw [isPageEnabled, bne_iff_ne, ne_eq, ← UInt32.toNat_inj, h, UInt32.toNat_zero]
  omega

theorem or_flags {pa flags : UInt32} (aligned : pa.toNat % 4096 = 0) (small : flags.toNat < 4096) :
    (pa ||| flags).toNat = pa.toNat + flags.toNat := by
  have h := Nat.two_pow_add_eq_or_of_lt (i := 12) small (pa.toNat / 4096)
  have hp : 2 ^ 12 * (pa.toNat / 4096) = pa.toNat := by omega
  rw [hp] at h
  exact h.symm

end Entries

/-- The frames of the current directory, of the directory the kernel started with, and
of the page tables of the kernel's half. -/
structure Tables where
  dir : Nat
  boot : Nat
  table : Nat → Nat

namespace Tables

def slot (t : Tables) (q : Nat) : Nat := t.table (q / 1024) * 4096 + 4 * (q % 1024)

/-- The frames that take part in the translation of kernel addresses. -/
def Holds (t : Tables) (f : Nat) : Prop :=
  f = t.dir ∨ f = t.boot ∨ ∃ i, 768 ≤ i ∧ i < 1023 ∧ f = t.table i

end Tables

/-- The processor finds the tables of the kernel's half through the current directory,
which is its own last table. -/
structure Walks (m : Kernel) (t : Tables) : Prop where
  cr3 : frameOf m.cr3 = t.dir * 4096
  self : isPageEnabled (m.phys.word (t.dir * 4096 + 4 * 1023)) = true ∧
    frameOf (m.phys.word (t.dir * 4096 + 4 * 1023)) = t.dir * 4096
  tables : ∀ i, 768 ≤ i → i < 1023 → isPageEnabled (m.phys.word (t.dir * 4096 + 4 * i)) = true ∧
    frameOf (m.phys.word (t.dir * 4096 + 4 * i)) = t.table i * 4096
  inj : ∀ i j, 768 ≤ i → i < 1023 → 768 ≤ j → j < 1023 → t.table i = t.table j → i = j
  ne_dir : ∀ i, 768 ≤ i → i < 1023 → t.table i ≠ t.dir
  ne_boot : ∀ i, 768 ≤ i → i < 1023 → t.table i ≠ t.boot
  home : m.currentDir.toNat % 4096 = 0 ∧ 768 ≤ m.currentDir.toNat / 4194304 ∧
    m.currentDir.toNat / 4194304 < 832
  homeEntry : isPageEnabled (m.phys.word (t.slot (m.currentDir.toNat / 4096))) = true ∧
    frameOf (m.phys.word (t.slot (m.currentDir.toNat / 4096))) = t.boot * 4096
  boot : ∀ i, 768 ≤ i → i < 1023 → isPageEnabled (m.phys.word (t.boot * 4096 + 4 * i)) = true

section Walks
variable {m m' : Kernel} {t : Tables} {va : UInt32}

theorem translate_eq {d f : Nat} (cr3 : frameOf m.cr3 = d)
    (pde : isPageEnabled (m.phys.word (d + 4 * (va.toNat / 4194304))) = true ∧
      frameOf (m.phys.word (d + 4 * (va.toNat / 4194304))) = f) :
    m.translate va =
      if isPageEnabled (m.phys.word (f + 4 * (va.toNat / 4096 % 1024))) then
        some (frameOf (m.phys.word (f + 4 * (va.toNat / 4096 % 1024))) + va.toNat % 4096)
      else none := by
  unfold Kernel.translate
  simp only [cr3, pde.1, pde.2, if_true]

theorem Walks.translate (w : Walks m t) (lo : 768 ≤ va.toNat / 4194304)
    (hi : va.toNat / 4194304 < 1023) :
    m.translate va =
      if isPageEnabled (m.phys.word (t.slot (va.toNat / 4096))) then
        some (frameOf (m.phys.word (t.slot (va.toNat / 4096))) + va.toNat % 4096)
      else none := by
  have hdiv : va.toNat / 4096 / 1024 = va.toNat / 4194304 := Nat.div_div_eq_div_mul _ _ _
  rw [translate_eq w.cr3 (w.tables _ lo hi), Tables.slot, hdiv]

theorem Walks.window {f : Nat} (w : Walks m t)
    (pde : isPageEnabled (m.phys.word (t.dir * 4096 + 4 * (va.toNat / 4194304))) = true ∧
      frameOf (m.phys.word (t.dir * 4096 + 4 * (va.toNat / 4194304))) = f) :
    m.translate (tableEntry va) = some (f + 4 * (va.toNat / 4096 % 1024)) := by
  have hv := va.toNat_lt
  have he := tableEntry_toNat va
  have h₁ : (tableEntry va).toNat / 4194304 = 1023 := by omega
  have h₂ : (tableEntry va).toNat / 4096 % 1024 = va.toNat / 4194304 := by omega
  have h₃ : (tableEntry va).toNat % 4096 = 4 * (va.toNat / 4096 % 1024) := by omega
  rw [translate_eq w.cr3 (h₁ ▸ w.self), h₂, if_pos pde.1, pde.2, h₃]

theorem Walks.slot_window (w : Walks m t) (lo : 768 ≤ va.toNat / 4194304)
    (hi : va.toNat / 4194304 < 1023) :
    m.translate (tableEntry va) = some (t.slot (va.toNat / 4096)) := by
  have hdiv : va.toNat / 4096 / 1024 = va.toNat / 4194304 := Nat.div_div_eq_div_mul _ _ _
  rw [w.window (w.tables _ lo hi), Tables.slot, hdiv]

theorem Walks.home_entry (w : Walks m t) {i : UInt32} (hi : i.toNat < 1024) :
    m.translate (m.currentDir + 4 * i) = some (t.boot * 4096 + 4 * i.toNat) := by
  obtain ⟨ha, hlo, hhi⟩ := w.home
  have hm : (m.currentDir + 4 * i).toNat = m.currentDir.toNat + 4 * i.toNat := by
    simp
    omega
  have h₁ : (m.currentDir + 4 * i).toNat / 4096 = m.currentDir.toNat / 4096 := by omega
  have h₂ : (m.currentDir + 4 * i).toNat % 4096 = 4 * i.toNat := by omega
  rw [w.translate (by omega) (by omega), h₁, h₂, if_pos w.homeEntry.1, w.homeEntry.2]

theorem Walks.agree (w : Walks m t) (cr3 : m'.cr3 = m.cr3) (dir : m'.currentDir = m.currentDir)
    (hd : Bytes.Agree m.phys m'.phys (t.dir * 4096) 4096)
    (hb : Bytes.Agree m.phys m'.phys (t.boot * 4096) 4096)
    (hh : Bytes.Agree m.phys m'.phys (t.slot (m.currentDir.toNat / 4096)) 4) : Walks m' t := by
  refine ⟨cr3 ▸ w.cr3, ?_, fun i lo hi => ?_, w.inj, w.ne_dir, w.ne_boot, dir ▸ w.home, ?_,
    fun i lo hi => ?_⟩
  · rw [hd.word (by omega) (by omega)]
    exact w.self
  · rw [hd.word (by omega) (by omega)]
    exact w.tables i lo hi
  · rw [dir, hh.word le_rfl le_rfl]
    exact w.homeEntry
  · rw [hb.word (by omega) (by omega)]
    exact w.boot i lo hi

theorem Walks.slots_apart (w : Walks m t) {p q : Nat} (hp : 768 ≤ p / 1024 ∧ p / 1024 < 1023)
    (hq : 768 ≤ q / 1024 ∧ q / 1024 < 1023) (hne : p ≠ q) :
    t.slot p + 4 ≤ t.slot q ∨ t.slot q + 4 ≤ t.slot p := by
  unfold Tables.slot
  by_cases h : t.table (p / 1024) = t.table (q / 1024)
  · have := w.inj _ _ hp.1 hp.2 hq.1 hq.2 h
    omega
  · omega

theorem Walks.setSlot (w : Walks m t) {q : Nat} (lo : 832 ≤ q / 1024) (hi : q / 1024 < 1023)
    (v : UInt32) : Walks { m with phys := m.phys.setWord (t.slot q) v } t := by
  have hd := w.ne_dir (q / 1024) (by omega) hi
  have hb := w.ne_boot (q / 1024) (by omega) hi
  obtain ⟨_, hlo, hhi⟩ := w.home
  refine w.agree rfl rfl (Bytes.setWord_agree v ?_) (Bytes.setWord_agree v ?_)
    (Bytes.setWord_agree v ?_)
  · unfold Tables.slot
    omega
  · unfold Tables.slot
    omega
  · exact w.slots_apart ⟨by omega, hi⟩ (by omega) (by omega)

theorem load_eq {pa : Nat} (h : m.translate va = some pa) : m.load va = .ok (m.phys.word pa) := by
  simp [Kernel.load, h, pure, Except.pure]

theorem store_eq {pa : Nat} (h : m.translate va = some pa) (v : UInt32) :
    m.store va v = .ok { m with phys := m.phys.setWord pa v } := by
  simp [Kernel.store, h, pure, Except.pure]

theorem storeByte_eq {pa : Nat} (h : m.translate va = some pa) (v : UInt8) :
    m.storeByte va v = .ok { m with phys := m.phys.setByte pa v } := by
  simp [Kernel.storeByte, h, pure, Except.pure]

theorem vmmMapAddress_eq (w : Walks m t) (phys flags : UInt32) {vaDir : UInt32} {pa : Nat}
    (lo : 768 ≤ va.toNat / 4194304) (hi : va.toNat / 4194304 < 1023)
    (dir : m.translate (vaDir + 4 * getPageDirectoryIndex va) = some pa)
    (enabled : isPageEnabled (m.phys.word pa) = true) :
    vmmMapAddress m vaDir va phys flags = .ok { m with
      phys := m.phys.setWord (t.slot (va.toNat / 4096)) (phys ||| flags)
      maps := (va, phys) :: m.maps } := by
  have hl : Kernel.load { m with maps := (va, phys) :: m.maps }
      (vaDir + 4 * getPageDirectoryIndex va) = .ok (m.phys.word pa) := load_eq dir
  unfold vmmMapAddress ensurePageTable
  simp only [hl, bind, Except.bind, enabled, if_true, pure, Except.pure]
  exact store_eq (m := { m with maps := (va, phys) :: m.maps }) (w.slot_window lo hi) _

theorem vmmMapAddress_home (w : Walks m t) (va phys flags : UInt32)
    (lo : 768 ≤ va.toNat / 4194304) (hi : va.toNat / 4194304 < 1023) :
    vmmMapAddress m m.currentDir va phys flags = .ok { m with
      phys := m.phys.setWord (t.slot (va.toNat / 4096)) (phys ||| flags)
      maps := (va, phys) :: m.maps } := by
  have hidx := getPageDirectoryIndex_toNat va
  refine vmmMapAddress_eq w phys flags lo hi (w.home_entry (by omega)) ?_
  rw [hidx]
  exact w.boot _ lo hi

theorem Walks.clean (w : Walks m t) {phys : Bytes}
    (same : ∀ x, t.Holds (x / 4096) → phys x = m.phys x) : Walks { m with phys } t := by
  obtain ⟨_, hlo, hhi⟩ := w.home
  refine w.agree rfl rfl (fun x h₁ h₂ => same x ?_) (fun x h₁ h₂ => same x ?_)
    (fun x h₁ h₂ => same x ?_)
  · exact .inl (by omega)
  · exact .inr (.inl (by omega))
  · refine .inr (.inr ⟨m.currentDir.toNat / 4194304, hlo, by omega, ?_⟩)
    unfold Tables.slot at h₁ h₂
    have hdiv : m.currentDir.toNat / 4096 / 1024 = m.currentDir.toNat / 4194304 :=
      Nat.div_div_eq_div_mul _ _ _
    rw [hdiv] at h₁ h₂
    omega

theorem Tables.slot_holds (t : Tables) {q x : Nat} (lo : 768 ≤ q / 1024) (hi : q / 1024 < 1023)
    (h₁ : t.slot q ≤ x) (h₂ : x < t.slot q + 4) : t.Holds (x / 4096) := by
  refine .inr (.inr ⟨q / 1024, lo, hi, ?_⟩)
  unfold Tables.slot at h₁ h₂
  omega

theorem Tables.slot_same (t : Tables) {q : Nat} {b b' : Bytes} (lo : 768 ≤ q / 1024)
    (hi : q / 1024 < 1023) (same : ∀ x, t.Holds (x / 4096) → b' x = b x) :
    b'.word (t.slot q) = b.word (t.slot q) := by
  have ag : Bytes.Agree b b' (t.slot q) 4 := fun x h₁ h₂ => same x (t.slot_holds lo hi h₁ h₂)
  exact ag.word le_rfl le_rfl

structure Backed (t : Tables) (b : Bytes) (q f : Nat) : Prop where
  enabled : isPageEnabled (b.word (t.slot q)) = true
  frame : frameOf (b.word (t.slot q)) = f * 4096
  clean : ¬t.Holds f

theorem Backed.same {q f : Nat} {b b' : Bytes} (h : Backed t b q f) (lo : 768 ≤ q / 1024)
    (hi : q / 1024 < 1023) (same : ∀ x, t.Holds (x / 4096) → b' x = b x) : Backed t b' q f := by
  have hs := t.slot_same lo hi same
  exact ⟨hs ▸ h.enabled, hs ▸ h.frame, h.clean⟩

theorem Backed.translate {f : Nat} (w : Walks m t) (h : Backed t m.phys (va.toNat / 4096) f)
    (lo : 768 ≤ va.toNat / 4194304) (hi : va.toNat / 4194304 < 1023) :
    m.translate va = some (f * 4096 + va.toNat % 4096) := by
  rw [w.translate lo hi, if_pos h.enabled, h.frame]

theorem memset_spec (w : Walks m t) (v : UInt8) (n : Nat) (F : Nat → Nat) {d : UInt32}
    (lo : 0xC0000000 ≤ d.toNat) (hi : d.toNat + n ≤ 0xFFC00000)
    (backed : ∀ a, d.toNat ≤ a → a < d.toNat + n →
      Backed t m.phys (a / 4096) (F (a / 4096))) :
    ∃ p, memset m d v n = .ok { m with phys := p } ∧
      (∀ x, t.Holds (x / 4096) → p x = m.phys x) ∧
      (∀ a, d.toNat ≤ a → a < d.toNat + n → p (F (a / 4096) * 4096 + a % 4096) = v) ∧
      ∀ x, (∀ a, d.toNat ≤ a → a < d.toNat + n → x ≠ F (a / 4096) * 4096 + a % 4096) →
        p x = m.phys x := by
  induction n generalizing m d with
  | zero => exact ⟨m.phys, rfl, fun _ _ => rfl, fun a h₁ h₂ => by omega, fun _ _ => rfl⟩
  | succ n ih =>
    have hb := backed d.toNat le_rfl (by omega)
    have hst := storeByte_eq (hb.translate w (by omega) (by omega)) v
    have hsame : ∀ x, t.Holds (x / 4096) →
        m.phys.setByte (F (d.toNat / 4096) * 4096 + d.toNat % 4096) v x = m.phys x := by
      intro x hx
      refine Bytes.setByte_of v fun he => hb.clean ?_
      have : x / 4096 = F (d.toNat / 4096) := by omega
      exact this ▸ hx
    have hnext : (d + 1).toNat = d.toNat + 1 := by
      simp
      omega
    obtain ⟨p, hok, htab, hin, hout⟩ := ih (w.clean hsame) (d := d + 1) (by omega) (by omega)
      fun a h₁ h₂ => (backed a (by omega) (by omega)).same (by omega) (by omega) hsame
    refine ⟨p, ?_, fun x hx => ?_, fun a h₁ h₂ => ?_, fun x hx => ?_⟩
    · unfold memset
      rw [hst]
      exact hok
    · exact (htab x hx).trans (hsame x hx)
    · by_cases ha : ∃ c, d.toNat + 1 ≤ c ∧ c < d.toNat + 1 + n ∧
          F (a / 4096) * 4096 + a % 4096 = F (c / 4096) * 4096 + c % 4096
      · obtain ⟨c, hc₁, hc₂, he⟩ := ha
        rw [he]
        exact hin c (by omega) (by omega)
      · have hlast : a = d.toNat := by
          by_contra hne
          exact ha ⟨a, by omega, by omega, rfl⟩
        rw [hout _ fun c hc₁ hc₂ he => ha ⟨c, by omega, by omega, he⟩, hlast]
        simp
    · rw [hout x fun c hc₁ hc₂ => hx c (by omega) (by omega)]
      exact Bytes.setByte_of v (hx d.toNat le_rfl (by omega))

end Walks

end Mos.Vmm
