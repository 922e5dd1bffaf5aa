import Mathlib

namespace Mos.Machine

variable {σ ε : Type} {step : σ → ε → Option σ} {ok ok' : σ → ε → Prop} {s t u : σ}

variable {π α β : Type} {x : Except π α}

theorem bind_ok {f : α → Except π β} {b : β} :
    (x >>= f) = .ok b ↔ ∃ a, x = .ok a ∧ f a = .ok b := by
  cases x with
  | error p => exact ⟨fun h => (nomatch h), fun ⟨_, h, _⟩ => (nomatch h)⟩
  | ok a => exact ⟨fun h => ⟨a, rfl, h⟩, fun ⟨_, h, k⟩ => Except.ok.inj h ▸ k⟩

theorem map_ok {f : α → β} {b : β} :
    x.map f = .ok b ↔ ∃ a, x = .ok a ∧ f a = b := by
  cases x with
  | error p => exact ⟨fun h => (nomatch h), fun ⟨_, h, _⟩ => (nomatch h)⟩
  | ok a =>
    exact ⟨fun h => ⟨a, rfl, Except.ok.inj h⟩, fun ⟨_, h, k⟩ => congrArg _ (Except.ok.inj h ▸ k)⟩

theorem bind_error {f : α → Except π β} {p : π} :
    (x >>= f) = .error p ↔ x = .error p ∨ ∃ a, x = .ok a ∧ f a = .error p := by
  cases x with
  | error q =>
    exact ⟨fun h => .inl (congrArg _ (Except.error.inj h)), fun
      | .inl h => congrArg _ (Except.error.inj h)
      | .inr ⟨_, h, _⟩ => (nomatch h)⟩
  | ok a => exact ⟨fun h => .inr ⟨a, rfl, h⟩, fun | .inr ⟨_, h, k⟩ => Except.ok.inj h ▸ k⟩

theorem map_error {f : α → β} {p : π} :
    x.map f = .error p ↔ x = .error p := by
  cases x with
  | error q => exact ⟨fun h => congrArg _ (Except.error.inj h), fun h => congrArg _ (Except.error.inj h)⟩
  | ok a => exact ⟨fun h => (nomatch h), fun h => (nomatch h)⟩

theorem toOption_ok {a : α} : x.toOption = some a ↔ x = .ok a := by
  cases x with
  | error p => exact ⟨fun h => (nomatch h), fun h => (nomatch h)⟩
  | ok b => exact ⟨fun h => congrArg _ (Option.some.inj h), fun h => congrArg _ (Except.ok.inj h)⟩

/-- The states a partial step function reaches from `s` by steps which all meet
`ok`. A step that is refused, because its event is not enabled, ends no run. -/
inductive Run (step : σ → ε → Option σ) (ok : σ → ε → Prop) (s : σ) : σ → Prop where
  | refl : Run step ok s s
  | tail {t u : σ} {e : ε} (before : Run step ok s t) (meets : ok t e)
      (next : step t e = some u) : Run step ok s u

/-- What holds at the start and survives every admitted step holds throughout. -/
theorem Run.invariant {I : σ → Prop} (h : Run step ok s t) (start : I s)
    (keep : ∀ a e b, I a → ok a e → step a e = some b → I b) : I t := by
  induction h with
  | refl => exact start
  | tail _ meets next ih => exact keep _ _ _ ih meets next

theorem Run.trans (h : Run step ok s t) (h' : Run step ok t u) : Run step ok s u := by
  induction h' with
  | refl => exact h
  | tail _ meets next ih => exact .tail ih meets next

theorem Run.mono (h : Run step ok s t) (le : ∀ a e, ok a e → ok' a e) : Run step ok' s t := by
  induction h with
  | refl => exact .refl
  | tail _ meets next ih => exact .tail ih (le _ _ meets) next

/-- Replay a list of events, stopping with `none` at the first one that is
refused or does not meet `ok`. -/
def replay (step : σ → ε → Option σ) (ok : σ → ε → Prop) [∀ s e, Decidable (ok s e)] (s : σ) :
    List ε → Option σ
  | [] => some s
  | e :: es =>
    if ok s e then
      match step s e with
      | some t => replay step ok t es
      | none => none
    else none

theorem replay_run [∀ s e, Decidable (ok s e)] {es : List ε}
    (h : replay step ok s es = some t) : Run step ok s t := by
  induction es generalizing s with
  | nil =>
    cases h
    exact .refl
  | cons e es ih =>
    unfold replay at h
    split at h
    · rename_i hok
      split at h
      · rename_i u hu
        exact (Run.tail .refl hok hu).trans (ih h)
      · cases h
    · cases h

/-- A run found by replaying events, with what can be decided of its last state. -/
theorem replay_reaches (step : σ → ε → Option σ) (ok : σ → ε → Prop) [∀ s e, Decidable (ok s e)]
    (s : σ) (es : List ε) {P : σ → Prop} [DecidablePred P]
    (h : (replay step ok s es).any (fun t => decide (P t)) = true) :
    ∃ t, Run step ok s t ∧ P t := by
  obtain ⟨t, ht, hP⟩ := (Option.any_eq_true _ _).mp h
  exact ⟨t, replay_run ht, of_decide_eq_true hP⟩

end Mos.Machine
