import Mos.Proofs.SignalSteps

namespace Mos.Signal
open Machine

/-- `IF`, `IOPL`, `RF`, `VM`, `VIF` and `VIP`, which a user program cannot set itself. -/
def privilegedFlags : UInt32 := 0x1B3200

/-- The same code and stack segments, and the same privileged flags. -/
def SamePrivilege (r r' : Registers) : Prop :=
  r.cs = r'.cs ∧ r.ss = r'.ss ∧ r.eflags &&& privilegedFlags = r'.eflags &&& privilegedFlags

theorem savedRegisters_fields (r : Registers) : (savedRegisters r).cs = r.cs ∧
    (savedRegisters r).ss = r.ss ∧ (savedRegisters r).eflags = r.eflags := by
  unfold savedRegisters
  split
  · exact ⟨rfl, rfl, rfl⟩
  · exact ⟨rfl, rfl, rfl⟩

/-- Registers are read back as they were stored. -/
theorem load_setWords (m : Bytes) (a : Nat) (r : Registers) :
    loadRegisters (m.setWords a r.words) a = r := by
  have word (i : Nat) (w : UInt32) (h : r.words[i]? = some w) :
      (m.setWords a r.words).word (a + 4 * i) = w := Bytes.word_setWords h
  exact Registers.ext (word 0 _ rfl) (word 1 _ rfl) (word 2 _ rfl) (word 3 _ rfl) (word 4 _ rfl)
    (word 5 _ rfl) (word 6 _ rfl) (word 7 _ rfl) (word 8 _ rfl) (word 9 _ rfl) (word 10 _ rfl)
    (word 11 _ rfl) (word 12 _ rfl) (word 13 _ rfl) (word 14 _ rfl) (word 15 _ rfl)
    (word 16 _ rfl) (word 17 _ rfl) (word 18 _ rfl)

theorem load_agree {m m' : Bytes} {a : Nat} (h : m.Agree m' a 76) :
    loadRegisters m' a = loadRegisters m a := by
  unfold loadRegisters
  congr 1 <;> exact h.word (by omega) (by omega)

theorem handleSignal_delivers (kill : Kill) {s : Kernel} (t : Trap) (restored : SigSet)
    (h : (s.proc s.current).handlerMask.isSome = true) :
    ∃ sig, handleSignal kill s t restored =
      .ok (deliver (s.modify s.current (Process.interrupted (savedRegisters t.regs) sig)) t sig
        (s.proc s.current).thread.signaling restored) := by
  unfold Process.handlerMask at h
  simp only at h
  split at h
  · rename_i hu
    obtain ⟨i, _, hn, hp, _⟩ := next_signal_pending hu.1
    have pending : (s.proc s.current).thread.pending ≠ 0 := by
      intro hz
      simp [hz] at hp
    refine ⟨i + 1, ?_⟩
    unfold handleSignal
    simp only
    rw [if_neg (not_or.mpr ⟨pending, hu.1⟩), hn, modify_current, modify_same]
    rw [hn] at hu
    generalize hq : (s.proc s.current).interrupted (savedRegisters t.regs) (i + 1) = p
    have same : sigHandler p (i + 1) = sigHandler (s.proc s.current) (i + 1) := by rw [← hq]; rfl
    have user := hu.2
    simp only [sigUserDefined, ← same, Bool.and_eq_true, bne_iff_ne] at user
    have heeded : sigIgnored p (i + 1) = false := by
      simp [sigIgnored, ignores, beq_eq_false_iff_ne.mpr user.1, beq_eq_false_iff_ne.mpr user.2]
    have acts : sigDefaultAction p (i + 1) = false := beq_eq_false_iff_ne.mpr user.1
    have defined : sigUserDefined p (i + 1) = true := by
      rw [sigUserDefined, Bool.and_eq_true, bne_iff_ne, bne_iff_ne]
      exact user
    rw [heeded, acts, defined]
    rfl
  · cases h

theorem storeFrame_below {m : Bytes} {a : Nat} {sigreturn : UInt32} {signum : Nat}
    {signaling : Bool} {blocked : SigSet} {uregs : Registers} :
    (storeFrame m a sigreturn signum signaling blocked uregs).word (a + 12) = ⟨blocked⟩ ∧
      (storeFrame m a sigreturn signum signaling blocked uregs (a + 8) != 0) = signaling := by
  unfold storeFrame
  have below (m : Bytes) : m.Agree (m.setWords (a + 16) uregs.words) a 16 :=
    Bytes.setWords_agree le_rfl
  constructor
  · rw [(below _).word (by omega) (by omega), Bytes.word_setWord]
  · rw [below _ (a + 8) (by omega) (by omega), Bytes.setWord_of _ (by omega), Bytes.setByte_same]
    cases signaling with
    | false => decide
    | true => decide

/-- What `handle_signal` leaves in the frame. -/
theorem handleSignal_saves {kill : Kill} {s s₁ : Kernel} {t t₁ : Trap} {restored : SigSet}
    (runs : (s.proc s.current).handlerMask.isSome = true)
    (h : handleSignal kill s t restored = .ok (s₁, t₁)) :
    (s₁.proc s₁.current).thread.uregs = savedRegisters t.regs ∧
      loadRegisters t₁.mem (t₁.regs.useresp.toNat + 16) = savedRegisters t.regs ∧
      t₁.mem.word (t₁.regs.useresp.toNat + 12) = ⟨restored⟩ ∧
      (t₁.mem (t₁.regs.useresp.toNat + 8) != 0) = (s.proc s.current).thread.signaling := by
  obtain ⟨sig, hd⟩ := handleSignal_delivers kill t restored runs
  rw [hd] at h
  have hp := Except.ok.inj h
  rw [show s₁ = _ from (congrArg Prod.fst hp).symm, show t₁ = _ from (congrArg Prod.snd hp).symm]
  refine ⟨?_, load_setWords _ _ _, storeFrame_below⟩
  simp only [deliver, modify_current, modify_same]
  rfl

/-- What `sigreturn` finds there, if the program has left it alone. -/
theorem frame_kept {kill : Kill} {s s₁ : Kernel} {t t₁ t₂ : Trap} {restored : SigSet}
    (runs : (s.proc s.current).handlerMask.isSome = true)
    (h : handleSignal kill s t restored = .ok (s₁, t₁))
    (same : t₁.mem.Agree t₂.mem t₁.regs.useresp.toNat 92)
    (esp : t₂.regs.useresp = t₁.regs.useresp + 4) :
    frameRegisters t₂ = savedRegisters t.regs ∧ frameBlocked t₂ = restored ∧
      (t₂.mem (frameAt t₂.regs + 8) != 0) = (s.proc s.current).thread.signaling := by
  obtain ⟨-, regs, blocked, signaling⟩ := handleSignal_saves runs h
  rw [frameRegisters, frameBlocked, frameAt, esp, UInt32.add_sub_cancel,
    load_agree (same.mono (by omega) (by omega)), same.word (by omega) (by omega),
    same _ (by omega) (by omega), blocked]
  exact ⟨regs, rfl, signaling⟩

theorem pageFault_sigreturn (s : Kernel) {t : Trap} (user : t.regs.cs = userCs) :
    threadPageFault s t s.sigreturnAt = .ok (sigreturn s t) := by
  rw [threadPageFault, if_pos user, if_pos rfl]

/-- The trap frame `sigreturn` installs has the privileges `handle_signal` saved exactly
when the words for `cs`, `ss` and `eflags` at the user's stack pointer have them; they do
when the user left the frame and the stack pointer as they were. -/
theorem sigreturn_privileges {kill : Kill} {s s₁ s₂ : Kernel} {t t₁ t₂ : Trap} {restored : SigSet}
    (runs : (s.proc s.current).handlerMask.isSome = true)
    (saves : handleSignal kill s t restored = .ok (s₁, t₁)) (user : t₂.regs.cs = userCs) :
    ∃ s₃ t₃, threadPageFault s₂ t₂ s₂.sigreturnAt = .ok (s₃, t₃) ∧
      (SamePrivilege t₃.regs (s₁.proc s₁.current).thread.uregs ↔
        t₂.mem.word (frameAt t₂.regs + 76) = t.regs.cs ∧
        t₂.mem.word (frameAt t₂.regs + 88) = t.regs.ss ∧
        t₂.mem.word (frameAt t₂.regs + 80) &&& privilegedFlags =
          t.regs.eflags &&& privilegedFlags) ∧
      (t₁.mem.Agree t₂.mem t₁.regs.useresp.toNat 92 → t₂.regs.useresp = t₁.regs.useresp + 4 →
        SamePrivilege t₃.regs (s₁.proc s₁.current).thread.uregs) := by
  have saved := (handleSignal_saves runs saves).1
  obtain ⟨hcs, hss, hfl⟩ := savedRegisters_fields t.regs
  rw [saved]
  refine ⟨_, _, pageFault_sigreturn s₂ user, ?_, ?_⟩
  · rw [SamePrivilege, hcs, hss, hfl]
    rfl
  · intro same esp
    rw [(frame_kept runs saves same esp).1]
    exact ⟨rfl, rfl, rfl⟩

def signalled : Kernel where
  mprocess := [2]
  distinct := by decide
  proc _ :=
    { thread := { state := .running, pending := sigmask 10 }
      sighand := fun _ => { saHandler := 0x8048000 } }
  current := 2

def interrupted : Trap := { regs := { useresp := 0x8000 } }

theorem sigreturn_privileges_untouched :
    ∃ s₁ t₁ s₃ t₃, handleSignal (doKill 0) signalled interrupted 0 = .ok (s₁, t₁) ∧
      threadPageFault s₁ { t₁ with regs := { t₁.regs with useresp := t₁.regs.useresp + 4 } }
        s₁.sigreturnAt = .ok (s₃, t₃) ∧
      SamePrivilege t₃.regs (s₁.proc s₁.current).thread.uregs := by
  have runs : (signalled.proc signalled.current).handlerMask.isSome = true := by decide
  obtain ⟨s₁, t₁, hd, hcs⟩ : ∃ s₁ t₁, handleSignal (doKill 0) signalled interrupted 0 =
      .ok (s₁, t₁) ∧ t₁.regs.cs = userCs := by
    obtain ⟨sig, hd⟩ := handleSignal_delivers (doKill 0) interrupted 0 runs
    exact ⟨_, _, hd, rfl⟩
  have user : Registers.cs (Trap.regs
      { t₁ with regs := { t₁.regs with useresp := t₁.regs.useresp + 4 } }) = userCs := hcs
  obtain ⟨s₃, t₃, h, _, keeps⟩ := sigreturn_privileges runs hd user
  exact ⟨s₁, t₁, s₃, t₃, hd, h, keeps (.refl _ _ _) rfl⟩

def forged : Trap :=
  { regs := { useresp := 0x8004 }, mem := Bytes.setWord (fun _ => 0) (0x8000 + 76) 0x08 }

/-- A program that writes the kernel's code selector into the frame continues with it. -/
theorem forged_frame_enters_kernel :
    ∃ s₁ t₁ s₃ t₃, handleSignal (doKill 0) signalled interrupted 0 = .ok (s₁, t₁) ∧
      forged.regs.cs = userCs ∧ threadPageFault s₁ forged s₁.sigreturnAt = .ok (s₃, t₃) ∧
      t₃.regs.cs = 0x08 ∧ ¬SamePrivilege t₃.regs (s₁.proc s₁.current).thread.uregs := by
  have runs : (signalled.proc signalled.current).handlerMask.isSome = true := by decide
  obtain ⟨sig, hd⟩ := handleSignal_delivers (doKill 0) interrupted 0 runs
  have saved := (handleSignal_saves runs hd).1
  have cs : (frameRegisters forged).cs = 0x08 := by decide
  refine ⟨_, _, _, _, hd, rfl, pageFault_sigreturn _ rfl, cs, ?_⟩
  intro h
  have hcs : (frameRegisters forged).cs = 0x1B := h.1
  exact absurd hcs (by decide)

/-- A delivery: what it interrupts, the mask to be restored, and what the handler starts with. -/
structure Delivery where
  kernel : Kernel
  trap : Trap
  restored : SigSet
  handler : Trap

/-- The states that deliveries and returns lead to, with the deliveries whose handlers have not
returned, the last one first. In between anything may happen. -/
inductive Nested (kill : Kill) : Kernel → Trap → List Delivery → Prop
  | start (s : Kernel) (t : Trap) : Nested kill s t []
  | handle {s : Kernel} {d : Delivery} {l : List Delivery} : Nested kill d.kernel d.trap l →
    (d.kernel.proc d.kernel.current).handlerMask.isSome = true →
    handleSignal kill d.kernel d.trap d.restored = .ok (s, d.handler) →
    Nested kill s d.handler (d :: l)
  | between {s : Kernel} {t : Trap} {l : List Delivery} (s' : Kernel) (t' : Trap) :
    Nested kill s t l → Nested kill s' t' l
  | sigreturn {s s' : Kernel} {t t' : Trap} {d : Delivery} {l : List Delivery} :
    Nested kill s t (d :: l) → threadPageFault s t s.sigreturnAt = .ok (s', t') →
    Nested kill s' t' l

variable {kill : Kill} {s : Kernel} {t : Trap} {d : Delivery} {l : List Delivery}

/-- The last delivery on the stack was one of `handle_signal`. -/
theorem Nested.delivered (h : Nested kill s t l) (hd : d ∈ l) :
    (d.kernel.proc d.kernel.current).handlerMask.isSome = true ∧
      ∃ s₁, handleSignal kill d.kernel d.trap d.restored = .ok (s₁, d.handler) := by
  induction h with
  | start => cases hd
  | handle _ runs saves ih =>
    rcases List.mem_cons.mp hd with rfl | hd
    · exact ⟨runs, _, saves⟩
    · exact ih hd
  | between _ _ _ ih => exact ih hd
  | sigreturn _ _ ih => exact ih (List.mem_cons_of_mem _ hd)

/-- A handler that returns with its frame as it was delivered, and the stack pointer behind the
return address, brings back what it interrupted. -/
theorem handlers_transparent (h : Nested kill s t (d :: l))
    (frame : d.handler.mem.Agree t.mem d.handler.regs.useresp.toNat 92)
    (esp : t.regs.useresp = d.handler.regs.useresp + 4) (user : t.regs.cs = userCs) :
    ∃ s' t', threadPageFault s t s.sigreturnAt = .ok (s', t') ∧ Nested kill s' t' l ∧
      (d.trap.regs.intNo = 0x7F → t'.regs = { d.trap.regs with eax := -4 }) ∧
      (d.trap.regs.intNo ≠ 0x7F → t'.regs = d.trap.regs) ∧
      (s'.proc s'.current).thread.blocked = d.restored ∧
      (s'.proc s'.current).thread.signaling =
        (d.kernel.proc d.kernel.current).thread.signaling := by
  obtain ⟨runs, s₁, saves⟩ := h.delivered List.mem_cons_self
  obtain ⟨regs, blocked, signaling⟩ := frame_kept runs saves frame esp
  have hret := pageFault_sigreturn s user
  refine ⟨_, _, hret, h.sigreturn hret, fun hi => ?_, fun hi => ?_, ?_⟩
  · rw [regs, savedRegisters, if_pos hi]
  · rw [regs, savedRegisters, if_neg hi]
  simp only [modify_current, modify_same]
  exact ⟨blocked, signaling⟩

def called : Trap := { regs := { useresp := 0x8000, eax := 114, intNo := 0x7F } }

theorem handlers_transparent_once : ∃ s t d s' t', Nested (doKill 0) s t [d] ∧
    threadPageFault s t s.sigreturnAt = .ok (s', t') ∧ d.trap.regs.eax = 114 ∧
      t'.regs = { d.trap.regs with eax := -4 } := by
  have runs : (signalled.proc signalled.current).handlerMask.isSome = true := by decide
  obtain ⟨s₁, t₁, saves⟩ : ∃ s₁ t₁, handleSignal (doKill 0) signalled called 0 = .ok (s₁, t₁) := by
    obtain ⟨sig, saves⟩ := handleSignal_delivers (doKill 0) called 0 runs
    exact ⟨_, _, saves⟩
  have h := (Nested.handle (d := ⟨_, _, _, t₁⟩) (.start _ _) runs saves).between s₁
    { t₁ with regs := { useresp := t₁.regs.useresp + 4 } }
  obtain ⟨s', t', hret, -, regs, -⟩ := handlers_transparent h (.refl _ _ _) rfl rfl
  exact ⟨_, _, _, s', t', h, hret, rfl, regs rfl⟩

end Mos.Signal
