import Mos.Proofs.WaitStatus

namespace Mos.Proc
open Machine Signal

def Ended (p : Process) : Prop := p.flags &&& endedFlags ≠ 0

instance (p : Process) : Decidable (Ended p) := inferInstanceAs (Decidable (_ ≠ _))

structure Alike (p p' : Process) : Prop where
  gid : p'.gid = p.gid
  parent : p'.parent = p.parent
  children : p'.children = p.children
  ended : Ended p → Ended p'

theorem Alike.refl (p : Process) : Alike p p := ⟨rfl, rfl, rfl, id⟩

theorem Alike.trans {p p' p'' : Process} (h : Alike p p') (h' : Alike p' p'') : Alike p p'' :=
  ⟨h'.gid.trans h.gid, h'.parent.trans h.parent, h'.children.trans h.children, h'.ended ∘ h.ended⟩

structure Similar (k k' : Kernel) : Prop where
  mprocess : k'.mprocess = k.mprocess
  each : ∀ q, Alike (k.proc q) (k'.proc q)

theorem Similar.refl (k : Kernel) : Similar k k := ⟨rfl, fun _ => .refl _⟩

variable {k k' : Kernel} {q pid : Int} {fuel : Nat} {c : WaitCall}

theorem Similar.trans {k'' : Kernel} (h : Similar k k') (h' : Similar k' k'') :
    Similar k k'' :=
  ⟨h'.mprocess.trans h.mprocess, fun q => (h.each q).trans (h'.each q)⟩

theorem similar_modify (k : Kernel) (pid : Int) (f : Process → Process)
    (h : Alike (k.proc pid) (f (k.proc pid))) : Similar k (k.modify pid f) :=
  ⟨rfl, modify_each Alike.refl h⟩

theorem similar_signalled {wakes halts : Int → Prop}
    (h : Signalled wakes halts k k') : Similar k k' := by
  refine ⟨h.mprocess, fun q => ?_⟩
  obtain ⟨flags, state, pending, he, hf, _⟩ := h.each q
  rw [he]
  refine ⟨rfl, rfl, rfl, ?_⟩
  intro hq hz
  exact hq (hf.symm.trans hz)

theorem similar_switchTo (k : Kernel) (pid : Int) : Similar k (switchTo k pid) := by
  have hp : Similar k (if (k.proc k.current).thread.state = .running then
      k.modify k.current (updateThread .ready) else k) := by
    split
    · exact similar_modify _ _ _ ⟨rfl, rfl, rfl, id⟩
    · exact .refl k
  refine hp.trans ⟨rfl, ?_⟩
  exact modify_each Alike.refl ⟨rfl, rfl, rfl, id⟩

theorem Similar.selects (h : Similar k k') (c : WaitCall) (pid : Int) :
    c.selects k' pid = c.selects k pid := by
  simp only [WaitCall.selects, (h.each pid).gid]

theorem Similar.childExist (h : Similar k k') (q : Int) (c : WaitCall) :
    childExist k' q c = childExist k q c := by
  have hs : c.selects k' = c.selects k := funext (h.selects c)
  simp only [Proc.childExist, (h.each q).children, hs]

def System.reaped (s : System) : List Int := s.reports.map Report.child

/-- Every process is linked under its parent until its end has been reported once. -/
structure Tree (s : System) : Prop where
  fresh : ∀ p ∈ s.kernel.mprocess, p < s.nextPid
  parents : ∀ p ∈ s.kernel.mprocess, ∀ q, (s.kernel.proc p).parent = some q → q ∈ s.kernel.mprocess
  known : ∀ q, ∀ p ∈ (s.kernel.proc q).children, p ∈ s.kernel.mprocess
  nodup : ∀ q, (s.kernel.proc q).children.Nodup
  linked : ∀ p ∈ s.kernel.mprocess, ∀ q,
    p ∈ (s.kernel.proc q).children ↔ (s.kernel.proc p).parent = some q ∧ p ∉ s.reaped
  once : s.reaped.Nodup
  reported : ∀ r ∈ s.reports, r.child ∈ s.kernel.mprocess ∧ Ended (s.kernel.proc r.child) ∧
    (s.kernel.proc r.child).parent = some r.parent ∧
    (r.code = cldExited ∨ r.code = cldKilled ∨ r.code = cldDumped)
  asleep : ∀ q c, s.waits q = some c → childExist s.kernel q c = true

theorem Tree.similar {s : System} (h : Tree s) (hk : Similar s.kernel k) :
    Tree { s with kernel := k } where
  fresh := by
    rw [hk.mprocess]
    exact h.fresh
  parents p hp q hq := by
    rw [hk.mprocess] at hp ⊢
    rw [(hk.each p).parent] at hq
    exact h.parents p hp q hq
  known q p hp := by
    rw [(hk.each q).children] at hp
    rw [hk.mprocess]
    exact h.known q p hp
  nodup q := by
    rw [(hk.each q).children]
    exact h.nodup q
  linked p hp q := by
    rw [hk.mprocess] at hp
    rw [(hk.each q).children, (hk.each p).parent]
    exact h.linked p hp q
  once := h.once
  reported r hr := by
    obtain ⟨hm, he, hp, hc⟩ := h.reported r hr
    rw [hk.mprocess, (hk.each r.child).parent]
    exact ⟨hm, (hk.each r.child).ended he, hp, hc⟩
  asleep q c hc := (hk.childExist q c).trans (h.asleep q c hc)

/-- The child that a call returns is not marked as stopped or continued. -/
def Unmarked (k : Kernel) (q : Int) (c : WaitCall) : Prop :=
  ∀ pid ∈ findChild k q c, (k.proc pid).flags &&& (signalStoped ||| signalContinued) = 0

instance (k : Kernel) (q : Int) (c : WaitCall) : Decidable (Unmarked k q c) :=
  inferInstanceAs (Decidable (∀ pid ∈ findChild k q c, _))

/-- A process may leave children behind only if it is the one that gets them. -/
def Childless (k : Kernel) (q : Int) : Prop := (k.proc q).children = [] ∨ q = initPid

instance (k : Kernel) (q : Int) : Decidable (Childless k q) := inferInstanceAs (Decidable (_ ∨ _))

/-- No process exits while it has children, no handler interrupts `do_wait`, no child is
returned that is marked as stopped or continued, and who has no child to wait for asks not
to wait. -/
def Orderly (s : System) (e : Int × Op) : Prop :=
  match e.2 with
  | .exit _ => Childless s.kernel e.1
  | .signal t => (dies (s.kernel.proc e.1) = true → Childless s.kernel e.1) ∧
      (s.waits e.1 = none ∨ interrupts (s.kernel.proc e.1) t = false)
  | .wait c => Unmarked s.kernel e.1 c ∧
      (c.options &&& wnohang ≠ 0 ∨ childExist s.kernel e.1 c = true)
  | .resume => ∀ c ∈ s.waits e.1, Unmarked s.kernel e.1 c
  | _ => True

instance (s : System) (e : Int × Op) : Decidable (Orderly s e) := by
  unfold Orderly
  split <;> infer_instance

theorem ended_or (f flag : UInt32) (h : f &&& endedFlags ≠ 0) : (f ||| flag) &&& endedFlags ≠ 0 := by
  intro hz
  apply h
  have hb := congrArg UInt32.toBitVec hz
  rw [UInt32.toBitVec_and, UInt32.toBitVec_or, BitVec.and_comm, BitVec.and_or_distrib_left] at hb
  apply UInt32.toBitVec_inj.mp
  rw [UInt32.toBitVec_and, BitVec.and_comm]
  exact (BitVec.or_eq_zero_iff.mp hb).1

theorem Similar.childless (h : Similar k k') (hc : Childless k q) :
    Childless k' q := by
  rcases hc with hc | hc
  · exact .inl ((h.each q).children.trans hc)
  · exact .inr hc

theorem similar_leaving {s : System} (h : Tree s) (hm : s.kernel.current ∈ s.kernel.mprocess)
    (hc : Childless s.kernel s.kernel.current) (code : Int) :
    Similar s.kernel (leaving s.kernel code) := by
  have kept (q : Int) : newParent s.kernel q = (s.kernel.proc q).parent := by
    unfold newParent
    split
    · rename_i hq
      rcases hc with hc | hc
      · rw [hc] at hq
        cases hq
      · rw [hc] at hm
        rw [if_pos hm, ((h.linked q (h.known _ q hq) _).mp hq).1, hc]
    · rfl
  refine ⟨leaving_mprocess .., fun q => ?_⟩
  by_cases hq : q = s.kernel.current
  · subst q
    rw [leaving_self]
    refine ⟨rfl, kept _, rfl, ?_⟩
    intro he
    split
    · exact ended_or _ _ he
    · exact he
  · rw [leaving_of hq]
    exact ⟨rfl, kept q, rfl, id⟩

theorem similar_doExit {s : System} (h : Tree s)
    (hm : s.kernel.current ∈ s.kernel.mprocess) (hc : Childless s.kernel s.kernel.current)
    {code : Int} (hk : doExit (doKill fuel) s.kernel code = .ok k) :
    Similar s.kernel k :=
  (similar_leaving h hm hc code).trans (similar_signalled (doExit_signalled (doKill_signalled fuel) hk))

theorem ended_terminated (sig : Nat) (p : Process) : Ended (p.terminated sig) := by
  intro hz
  have ht := flag_of_ended hz signalTerminated (by decide)
  rw [Process.terminated, UInt32.and_assoc,
    show ~~~(signalContinued ||| signalStoped) &&& signalTerminated = signalTerminated by decide,
    or_and_self] at ht
  exact absurd ht (by decide)

theorem handleSignal_similar {s : System} (h : Tree s)
    (hm : s.kernel.current ∈ s.kernel.mprocess)
    (hc : dies (s.kernel.proc s.kernel.current) = true → Childless s.kernel s.kernel.current)
    {t t' : Trap} {restored : SigSet}
    (hk : handleSignal (doKill fuel) s.kernel t restored = .ok (k, t')) : Similar s.kernel k := by
  rcases handleSignal_cases hk with ⟨g, _, _, rfl⟩ | ⟨regs, sig, hd, hx⟩
  · exact similar_modify _ _ _ ⟨rfl, rfl, rfl, id⟩
  · have ht : Similar s.kernel (s.kernel.modify s.kernel.current fun p =>
        (p.interrupted regs sig).terminated sig) :=
      similar_modify _ _ _ ⟨rfl, rfl, rfl, fun _ => ended_terminated _ _⟩
    exact ht.trans (similar_doExit (h.similar ht) hm (ht.childless (hc hd)) hx)

theorem putKey_mem {place : Nat} {p : Int} {keys : List Int} :
    p ∈ putKey place pid keys ↔ p = pid ∨ p ∈ keys := by
  unfold putKey
  split
  · rename_i hm
    refine ⟨.inr, ?_⟩
    rintro (rfl | h)
    · exact hm
    · exact h
  · nth_rewrite 3 [← List.take_append_drop place keys]
    grind

section Child
variable {s : System} {child : Process} {place : Nat}

theorem addChild_new (k : Kernel) (place : Nat) (pid : Int) (child : Process) :
    (addChild k place pid child).proc pid = child := by
  simp [addChild]

variable {k : Kernel} {pid q : Int}

theorem addChild_current {place : Nat} {child : Process}
    (h : k.current ≠ pid) :
    (addChild k place pid child).proc k.current = link pid (k.proc k.current) := by
  simp [addChild, h]

theorem addChild_of {place : Nat} {child : Process}
    (h : q ≠ pid) (hc : q ≠ k.current) : (addChild k place pid child).proc q = k.proc q := by
  simp [addChild, h, modify_of _ _ _ hc]

theorem addChild_old {place : Nat} {child : Process}
    (h : q ≠ pid) : (addChild k place pid child).proc q =
      if q = k.current then link pid (k.proc q) else k.proc q := by
  split
  · subst q
    exact addChild_current h
  · rename_i hc
    exact addChild_of h hc

theorem addChild_kept (k : Kernel) (place : Nat) (child : Process) (h : q ≠ pid) :
    ((addChild k place pid child).proc q).gid = (k.proc q).gid ∧
      ((addChild k place pid child).proc q).parent = (k.proc q).parent ∧
      ((addChild k place pid child).proc q).flags = (k.proc q).flags := by
  rw [addChild_old h]
  split
  · exact ⟨rfl, rfl, rfl⟩
  · exact ⟨rfl, rfl, rfl⟩

theorem Tree.next_unknown (h : Tree s) : s.nextPid ∉ s.kernel.mprocess :=
  fun hm => lt_irrefl _ (h.fresh _ hm)

theorem Tree.next_unlinked (h : Tree s) (q : Int) : s.nextPid ∉ (s.kernel.proc q).children :=
  fun hm => h.next_unknown (h.known q _ hm)

theorem Tree.next_unreaped (h : Tree s) : s.nextPid ∉ s.reaped := by
  intro hm
  obtain ⟨r, hr, he⟩ := List.mem_map.mp hm
  exact h.next_unknown (he ▸ (h.reported r hr).1)

theorem addChild_children (h : Tree s) (hc : s.kernel.current ∈ s.kernel.mprocess)
    (hn : child.children = []) (p q : Int) :
    p ∈ ((addChild s.kernel place s.nextPid child).proc q).children ↔
      (p = s.nextPid ∧ q = s.kernel.current) ∨ (q ≠ s.nextPid ∧ p ∈ (s.kernel.proc q).children) := by
  have hne : s.kernel.current ≠ s.nextPid := fun he => h.next_unknown (he ▸ hc)
  by_cases hq : q = s.nextPid
  · subst q
    rw [addChild_new, hn]
    simp [hne.symm]
  · rw [addChild_old hq]
    split
    · subst q
      simp [link, hq, or_comm]
    · rename_i he
      simp [hq, he]

theorem addChild_nodup (h : Tree s) (hn : child.children = []) (q : Int) :
    ((addChild s.kernel place s.nextPid child).proc q).children.Nodup := by
  by_cases hq : q = s.nextPid
  · subst q
    rw [addChild_new, hn]
    exact List.nodup_nil
  · rw [addChild_old hq]
    split
    · rw [link, List.nodup_append]
      refine ⟨h.nodup q, List.nodup_singleton _, ?_⟩
      intro a ha b hb he
      rw [List.mem_singleton.mp hb] at he
      exact h.next_unlinked q (he ▸ ha)
    · exact h.nodup q

theorem Tree.addChild (h : Tree s) (hc : s.kernel.current ∈ s.kernel.mprocess)
    (hn : child.children = []) (hp : child.parent = some s.kernel.current) :
    Tree { s with
      kernel := Proc.addChild s.kernel place s.nextPid child
      nextPid := s.nextPid + 1 } where
  fresh p hm := by
    rcases putKey_mem.mp hm with rfl | hm
    · exact Int.lt_succ _
    · exact (h.fresh p hm).trans (Int.lt_succ _)
  parents p hm q hq := by
    apply putKey_mem.mpr
    rcases putKey_mem.mp hm with rfl | hm
    · rw [addChild_new, hp] at hq
      cases hq
      exact .inr hc
    · rw [(addChild_kept _ _ _ (ne_of_mem_of_not_mem hm h.next_unknown)).2.1] at hq
      exact .inr (h.parents p hm q hq)
  known q p hm := by
    apply putKey_mem.mpr
    rcases (addChild_children h hc hn p q).mp hm with hm | hm
    · exact .inl hm.1
    · exact .inr (h.known q p hm.2)
  nodup := addChild_nodup h hn
  linked p hm q := by
    rw [addChild_children h hc hn]
    rcases putKey_mem.mp hm with rfl | hm
    · rw [addChild_new, hp]
      simp only [true_and, h.next_unlinked, and_false, or_false, Option.some.injEq]
      exact ⟨fun he => ⟨he.symm, h.next_unreaped⟩, fun he => he.1.symm⟩
    · have hne := ne_of_mem_of_not_mem hm h.next_unknown
      rw [(addChild_kept _ _ _ hne).2.1]
      simp only [hne, false_and, false_or, h.linked p hm q]
      refine ⟨And.right, fun he => ⟨?_, he⟩⟩
      rintro rfl
      exact h.next_unknown (h.parents p hm _ he.1)
  once := h.once
  reported r hr := by
    obtain ⟨hm, he, hq, hcode⟩ := h.reported r hr
    obtain ⟨_, hpar, hf⟩ := addChild_kept s.kernel place child
      (ne_of_mem_of_not_mem hm h.next_unknown)
    refine ⟨putKey_mem.mpr (.inr hm), ?_, hpar.trans hq, hcode⟩
    intro hz
    exact he (hf ▸ hz)
  asleep q c hw := by
    obtain ⟨p, hp, hs⟩ := List.any_eq_true.mp (h.asleep q c hw)
    have hm := h.known q p hp
    have hq : q ≠ s.nextPid := by
      rintro rfl
      exact h.next_unknown (h.parents p hm _ ((h.linked p hm _).mp hp).1)
    refine List.any_eq_true.mpr ⟨p, (addChild_children h hc hn p q).mpr (.inr ⟨hq, hp⟩), ?_⟩
    rw [← hs]
    simp only [WaitCall.selects, (addChild_kept _ _ _ (ne_of_mem_of_not_mem hm h.next_unknown)).1]

end Child

theorem doWaitRound_cases (k : Kernel) (c : WaitCall) :
    (∃ pid, findChild k k.current c = some pid ∧ doWaitRound k c =
      ((k.modify k.current (inWaitChld false)).modify k.current (unlink pid),
        .returned 1 (some (childStatus pid (k.proc pid))))) ∨
    (∃ k', Similar k k' ∧ k'.current = k.current ∧
      ((c.options &&& wnohang ≠ 0 ∧ ∃ ret, doWaitRound k c = (k', .returned ret none)) ∨
        (c.options &&& wnohang = 0 ∧ doWaitRound k c = (k', .sleeps)))) := by
  unfold doWaitRound
  split
  · rename_i pid hf
    exact .inl ⟨pid, hf, rfl⟩
  · right
    split
    · rename_i hw
      exact ⟨_, similar_modify _ _ _ ⟨rfl, rfl, rfl, id⟩, rfl, .inl ⟨hw, _, rfl⟩⟩
    · rename_i hw
      exact ⟨_, similar_modify _ _ _ ⟨rfl, rfl, rfl, id⟩, rfl, .inr ⟨not_not.mp hw, rfl⟩⟩

theorem flags_unmarked {f : UInt32} (h : f &&& (signalStoped ||| signalContinued) = 0) :
    f &&& signalStoped = 0 ∧ f &&& signalContinued = 0 := by
  constructor
  · rw [show signalStoped = (signalStoped ||| signalContinued) &&& signalStoped by decide,
      ← UInt32.and_assoc, h, UInt32.zero_and]
  · rw [show signalContinued = (signalStoped ||| signalContinued) &&& signalContinued by decide,
      ← UInt32.and_assoc, h, UInt32.zero_and]

theorem available_ended {options : UInt32} {p : Process} (pid : Int)
    (hm : p.flags &&& (signalStoped ||| signalContinued) = 0) (ha : available options p = true) :
    Ended p ∧ (childStatus pid p).siPid = pid ∧ ((childStatus pid p).siCode = cldExited ∨
      (childStatus pid p).siCode = cldKilled ∨ (childStatus pid p).siCode = cldDumped) := by
  obtain ⟨hs, hc⟩ := flags_unmarked hm
  refine ⟨fun hz => ?_, ?_⟩
  · rcases available_marked hz ha with h | h
    · exact h hs
    · exact h hc
  · rw [childStatus, if_neg (not_not.mpr hs), if_neg (not_not.mpr hc)]
    split
    · split
      · exact ⟨rfl, .inr (.inr rfl)⟩
      · exact ⟨rfl, .inr (.inl rfl)⟩
    · exact ⟨rfl, .inl rfl⟩

theorem unlink_children (hn : ∀ q, (k.proc q).children.Nodup) (p q : Int) :
    p ∈ ((k.modify k.current (unlink pid)).proc q).children ↔
      p ∈ (k.proc q).children ∧ ¬ (p = pid ∧ q = k.current) := by
  by_cases hq : q = k.current
  · subst q
    rw [modify_same, unlink, (hn _).mem_erase_iff]
    simp [and_comm]
  · rw [modify_of _ _ _ hq]
    simp [hq]

theorem unlink_kept (k : Kernel) (pid q : Int) :
    ((k.modify k.current (unlink pid)).proc q).gid = (k.proc q).gid ∧
      ((k.modify k.current (unlink pid)).proc q).parent = (k.proc q).parent ∧
      ((k.modify k.current (unlink pid)).proc q).flags = (k.proc q).flags := by
  by_cases hq : q = k.current
  · subst q
    rw [modify_same]
    exact ⟨rfl, rfl, rfl⟩
  · rw [modify_of _ _ _ hq]
    exact ⟨rfl, rfl, rfl⟩

theorem waits_cleared {waits : Int → Option WaitCall} {p : Int}
    (h : Function.update waits q none p = some c) : p ≠ q ∧ waits p = some c := by
  by_cases hp : p = q
  · subst p
    rw [Function.update_self] at h
    cases h
  · rw [Function.update_of_ne hp] at h
    exact ⟨hp, h⟩

theorem Tree.reap {s : System} (h : Tree s) {code : UInt32}
    (hm : pid ∈ (s.kernel.proc s.kernel.current).children) (he : Ended (s.kernel.proc pid))
    (hc : code = cldExited ∨ code = cldKilled ∨ code = cldDumped) :
    Tree { s with
      kernel := s.kernel.modify s.kernel.current (unlink pid)
      waits := Function.update s.waits s.kernel.current none
      reports := ⟨s.kernel.current, pid, code⟩ :: s.reports } := by
  have hk := h.known _ _ hm
  obtain ⟨hp, hr⟩ := (h.linked pid hk _).mp hm
  have kept := unlink_kept s.kernel pid
  exact {
    fresh := h.fresh
    parents := by
      intro p hp q hq
      rw [(kept p).2.1] at hq
      exact h.parents p hp q hq
    known := by
      intro q p hp
      exact h.known q p ((unlink_children h.nodup p q).mp hp).1
    nodup := by
      intro q
      by_cases hq : q = s.kernel.current
      · subst q
        rw [modify_same]
        exact (h.nodup _).erase _
      · rw [modify_of _ _ _ hq]
        exact h.nodup q
    linked := by
      intro p hq q
      rw [unlink_children h.nodup, h.linked p hq, (kept p).2.1]
      change _ ↔ _ ∧ p ∉ pid :: s.reaped
      rw [List.mem_cons, not_or, and_assoc]
      refine and_congr_right fun hpar => ?_
      rw [and_comm]
      refine and_congr_left fun _ => not_congr ⟨And.left, ?_⟩
      rintro rfl
      exact ⟨rfl, Option.some.inj (hpar.symm.trans hp)⟩
    once := List.nodup_cons.mpr ⟨hr, h.once⟩
    reported := by
      intro r hr
      rcases List.mem_cons.mp hr with rfl | hr
      · refine ⟨hk, ?_, (kept pid).2.1.trans hp, hc⟩
        intro hz
        exact he ((kept pid).2.2 ▸ hz)
      · obtain ⟨h₁, h₂, h₃, h₄⟩ := h.reported r hr
        refine ⟨h₁, ?_, (kept _).2.1.trans h₃, h₄⟩
        intro hz
        exact h₂ ((kept _).2.2 ▸ hz)
    asleep := by
      intro q c hw
      obtain ⟨hq, hw⟩ := waits_cleared hw
      obtain ⟨p, hp, hs⟩ := List.any_eq_true.mp (h.asleep q c hw)
      refine List.any_eq_true.mpr ⟨p, (unlink_children h.nodup p q).mpr ⟨hp, fun hn => hq hn.2⟩, ?_⟩
      rw [← hs]
      simp only [WaitCall.selects, (kept p).1] }

theorem Tree.awake {s : System} (h : Tree s) (q : Int) :
    Tree { s with waits := Function.update s.waits q none } := by
  refine { h with asleep := ?_ }
  intro p c hw
  exact h.asleep p c (waits_cleared hw).2

theorem Tree.sleeps {s : System} (h : Tree s)
    (he : childExist s.kernel q c = true) :
    Tree { s with waits := Function.update s.waits q (some c) } := by
  refine { h with asleep := ?_ }
  intro p c' hw
  have hw : Function.update s.waits q (some c) p = some c' := hw
  by_cases hp : p = q
  · subst p
    rw [Function.update_self] at hw
    cases hw
    exact he
  · rw [Function.update_of_ne hp] at hw
    exact h.asleep p c' hw

theorem Tree.waited {s : System} (h : Tree s)
    (hu : Unmarked s.kernel s.kernel.current c)
    (he : c.options &&& wnohang ≠ 0 ∨ childExist s.kernel s.kernel.current c = true) :
    Tree (s.waited c (doWaitRound s.kernel c)) := by
  rcases doWaitRound_cases s.kernel c with ⟨pid, hf, hd⟩ | ⟨k, hk, hcur, ⟨_, ret, hd⟩ | ⟨hw, hd⟩⟩
  · have ha := List.find?_some hf
    rw [Bool.and_eq_true] at ha
    obtain ⟨hend, hpid, hcode⟩ := available_ended pid (hu pid hf) ha.2
    have hs : Similar s.kernel (s.kernel.modify s.kernel.current (inWaitChld false)) :=
      similar_modify _ _ _ ⟨rfl, rfl, rfl, id⟩
    have hm : pid ∈ ((s.kernel.modify s.kernel.current (inWaitChld false)).proc
        s.kernel.current).children := by
      rw [(hs.each _).children]
      exact List.mem_of_find?_eq_some hf
    have hr := (h.similar hs).reap hm ((hs.each pid).ended hend) hcode
    rw [hd]
    simp only [System.waited, Option.map_some, Option.toList_some, List.singleton_append, Report.of,
      hpid]
    exact hr
  · rw [hd]
    exact (h.similar hk).awake _
  · rw [hd]
    refine (h.similar hk).sleeps ?_
    rw [hk.childExist, hcur]
    exact he.resolve_left (not_not.mpr hw)

theorem switchTo_proc (k : Kernel) (pid q : Int) :
    ∃ state, (switchTo k pid).proc q = updateThread state (k.proc q) := by
  have hp : ∃ state, (if (k.proc k.current).thread.state = .running then
      k.modify k.current (updateThread .ready) else k).proc q = updateThread state (k.proc q) := by
    split
    · by_cases hq : q = k.current
      · subst q
        exact ⟨_, modify_same ..⟩
      · exact ⟨(k.proc q).thread.state, modify_of _ _ _ hq⟩
    · exact ⟨(k.proc q).thread.state, rfl⟩
  obtain ⟨state, hs⟩ := hp
  by_cases hq : q = pid
  · subst q
    refine ⟨.running, (modify_same ..).trans ?_⟩
    simp only [hs]
    rfl
  · exact ⟨state, (modify_of _ _ _ hq).trans hs⟩

theorem switchTo_unmarked (h : Unmarked k pid c) :
    Unmarked (switchTo k pid) pid c := by
  have hp := switchTo_proc k pid
  have hf : findChild (switchTo k pid) pid c = findChild k pid c := by
    unfold findChild
    have hc : ((switchTo k pid).proc pid).children = (k.proc pid).children := by
      obtain ⟨state, hs⟩ := hp pid
      rw [hs]
      rfl
    congr 1
    funext q
    obtain ⟨state, hs⟩ := hp q
    simp only [WaitCall.selects, available, hs]
    rfl
  intro q hq
  rw [hf] at hq
  obtain ⟨state, hs⟩ := hp q
  rw [hs]
  exact h q hq

theorem switchTo_dies (k : Kernel) (pid q : Int) :
    dies ((switchTo k pid).proc q) = dies (k.proc q) := by
  obtain ⟨state, hs⟩ := switchTo_proc k pid q
  rw [hs]
  rfl

theorem switchTo_interrupts (k : Kernel) (pid q : Int) (t : Trap) :
    interrupts ((switchTo k pid).proc q) t = interrupts (k.proc q) t := by
  obtain ⟨state, hs⟩ := switchTo_proc k pid q
  rw [hs]
  rfl

theorem Tree.onKernel {s t : System} (h : Tree s) {r : Except Fault Kernel}
    (ht : s.onKernel r = some t) (hr : ∀ k, r = .ok k → Similar s.kernel k) : Tree t := by
  obtain ⟨k, hk, rfl⟩ := Option.map_eq_some_iff.mp ht
  cases r with
  | error fault => cases hk
  | ok m =>
    cases hk
    exact h.similar (hr _ rfl)

theorem Tree.act {s t : System} {op : Op} (h : Tree s)
    (hm : s.kernel.current ∈ s.kernel.mprocess) (ho : Orderly s (s.kernel.current, op))
    (ht : act fuel s op = some t) : Tree t := by
  unfold Proc.act at ht
  simp only at ht
  split at ht
  · cases ht
    exact h.addChild hm rfl rfl
  · cases ht
    exact h.addChild hm rfl rfl
  · exact h.onKernel ht fun k hk => similar_doExit h hm ho hk
  · refine h.onKernel ht fun k hk => ?_
    obtain ⟨r, hr, rfl⟩ := map_ok.mp hk
    exact similar_signalled (doKill_signalled fuel hr)
  · rename_i c hw
    cases ht
    have hs : Similar s.kernel (s.kernel.modify s.kernel.current (inWaitChld true)) :=
      similar_modify _ _ _ ⟨rfl, rfl, rfl, id⟩
    refine (h.similar hs).waited ?_ ?_
    · intro pid hp
      rw [enter_findChild] at hp
      obtain ⟨w, hw⟩ := enter_proc s.kernel true pid
      simp only [hw]
      exact ho.1 pid hp
    · exact ho.2.imp_right fun he => (hs.childExist _ _).trans he
  · rename_i c hw
    cases ht
    exact h.waited (ho c hw) (.inr (h.asleep _ c hw))
  · have hi (b : Bool) : Tree (if b then
        { s with waits := Function.update s.waits s.kernel.current none } else s) := by
      cases b with
      | true => exact h.awake _
      | false => exact h
    refine (hi _).onKernel ht fun k hk => ?_
    obtain ⟨⟨k', t'⟩, hr, rfl⟩ := map_ok.mp hk
    have hs := handleSignal_similar h hm ho.1 hr
    split
    · exact hs
    · exact hs
  · cases ht

/-- An event keeps parents and lists of children to each other. -/
theorem Tree.step {s t : System} {e : Int × Op} (h : Tree s) (ho : Orderly s e)
    (ht : step fuel s e = some t) : Tree t := by
  unfold Proc.step at ht
  split at ht
  · rename_i hm
    have hs := similar_switchTo s.kernel e.1
    refine (h.similar hs).act (hs.mprocess ▸ hm.1) ?_ ht
    obtain ⟨pid, op⟩ := e
    cases op with
    | exit code => exact hs.childless ho
    | signal t =>
      refine ⟨fun hd => hs.childless (ho.1 ((switchTo_dies ..).symm.trans hd)), ?_⟩
      exact ho.2.imp_right (switchTo_interrupts ..).trans
    | wait c => exact ⟨switchTo_unmarked ho.1, ho.2.imp_right (hs.childExist _ _).trans⟩
    | resume => exact fun c hc => switchTo_unmarked (ho c hc)
    | fork place => trivial
    | create place => trivial
    | kill target signum => trivial
  · cases ht

/-- Parents and children agree, ends are reported once, and nobody waits for nothing. -/
structure Accounted (s : System) : Prop where
  linked : ∀ p ∈ s.kernel.mprocess, p ∉ s.reaped → ∀ q,
    p ∈ (s.kernel.proc q).children ↔ (s.kernel.proc p).parent = some q
  unlinked : ∀ p ∈ s.reaped, ∀ q, p ∉ (s.kernel.proc q).children
  once : s.reaped.Nodup
  reported : ∀ r ∈ s.reports, Ended (s.kernel.proc r.child) ∧
    (s.kernel.proc r.child).parent = some r.parent ∧
    (r.code = cldExited ∨ r.code = cldKilled ∨ r.code = cldDumped)
  returned : ∀ p ∈ s.kernel.mprocess, p ∉ s.reaped → Ended (s.kernel.proc p) → ∀ q,
    (s.kernel.proc p).parent = some q → ∃ i,
      (doWait { s.kernel with current := q } ⟨.pid, p, wexited⟩).2 = .returned 1 (some i) ∧ i.siPid = p
  waiting : ∀ q c, s.waits q = some c → childExist s.kernel q c = true
  refused : ∀ q c, Orderly s (q, .wait c) → childExist s.kernel q c = false →
    (doWait { s.kernel with current := q } c).2 = .returned (-echild) none

theorem available_of_ended {p : Process} (h : Ended p) : available wexited p = true := by
  have hf : p.flags &&& signalTerminated ≠ 0 ∨ p.flags &&& exitTerminated ≠ 0 := by
    by_contra hn
    rw [not_or, not_not, not_not] at hn
    apply h
    have ht := congrArg UInt32.toBitVec hn.1
    have he := congrArg UInt32.toBitVec hn.2
    apply UInt32.toBitVec_inj.mp
    rw [UInt32.toBitVec_and] at ht he ⊢
    rw [endedFlags, UInt32.toBitVec_or, BitVec.and_or_distrib_left, ht, he]
    rfl
  rcases hf with hf | hf
  · simp [available, hf, wexited]
  · simp [available, hf, wexited]

theorem doWait_returns {p : Int} (hm : p ∈ (k.proc k.current).children)
    (he : Ended (k.proc p)) : ∃ i,
      (doWait k ⟨.pid, p, wexited⟩).2 = .returned 1 (some i) ∧ i.siPid = p := by
  have only (q : Int) : q ∈ (k.proc k.current).children ∧
      (WaitCall.mk .pid p wexited).selects k q = true ↔ q = p := by
    simp only [WaitCall.selects, beq_iff_eq]
    refine ⟨And.right, ?_⟩
    rintro rfl
    exact ⟨hm, rfl⟩
  have hf : findChild k k.current ⟨.pid, p, wexited⟩ = some p := by
    rw [findChild_only only, if_pos (available_of_ended he)]
  refine ⟨childStatus p (k.proc p), ?_, childStatus_pid ..⟩
  unfold doWait doWaitRound
  rw [modify_current, enter_findChild, hf]
  simp only [enter_childStatus]

theorem doWait_refuses (hw : c.options &&& wnohang ≠ 0)
    (he : childExist k k.current c = false) :
    (doWait k c).2 = .returned (-echild) none := by
  have hs : Similar k (k.modify k.current (inWaitChld true)) :=
    similar_modify _ _ _ ⟨rfl, rfl, rfl, id⟩
  have hf : findChild k k.current c = none := by
    refine List.find?_eq_none.mpr fun p hp hn => ?_
    rw [Bool.and_eq_true] at hn
    have hx : childExist k k.current c = true := List.any_eq_true.mpr ⟨p, hp, hn.1⟩
    exact Bool.false_ne_true (he.symm.trans hx)
  unfold doWait doWaitRound
  rw [modify_current, enter_findChild, hf]
  simp only [hs.childExist, he, if_pos hw]
  rfl

theorem Tree.accounted {s : System} (h : Tree s) : Accounted s where
  linked p hp hr q := by
    rw [h.linked p hp q, and_iff_left hr]
  unlinked p hp q hq := ((h.linked p (h.known q p hq) q).mp hq).2 hp
  once := h.once
  reported r hr := (h.reported r hr).2
  returned p hp hr he q hq :=
    doWait_returns (k := { s.kernel with current := q }) ((h.linked p hp q).mpr ⟨hq, hr⟩) he
  waiting := h.asleep
  refused q c ho he := by
    have hw := ho.2.resolve_right fun hx => Bool.false_ne_true (he.symm.trans hx)
    exact doWait_refuses (k := { s.kernel with current := q }) hw he

def booted : System where
  kernel :=
    { mprocess := [0, 1]
      distinct := by decide
      proc := fun pid => if pid = 0 then { children := [1] } else if pid = 1 then { parent := some 0 } else {}
      current := 0 }
  nextPid := 2

theorem booted_tree : Tree booted where
  fresh := by decide
  parents p hp q hq := by
    simp [booted] at hp hq ⊢
    grind
  known q p hp := by
    simp [booted] at hp ⊢
    grind
  nodup q := by
    simp only [booted]
    split
    · exact List.nodup_singleton _
    · split
      · exact List.nodup_nil
      · exact List.nodup_nil
  linked p hp q := by
    simp [booted, System.reaped] at hp ⊢
    grind
  once := List.nodup_nil
  reported r hr := by cases hr
  asleep q c hw := by cases hw

end Mos.Proc
