import Mathlib.Data.List.Basic

/-! Runs of a deterministic machine.

    A machine is a step function on states and events; what may go differently (a fault, a choice of
    the environment) is part of the event. A condition on a state and the next event holds along a
    run when it holds before every step of it. -/

namespace Machine

variable {σ ε : Type*}

/-- The state after a list of events. -/
def run (step : σ → ε → σ) (s : σ) (events : List ε) : σ := events.foldl step s

/-- A condition that holds before every step of a run. -/
def Along (step : σ → ε → σ) (P : σ → ε → Prop) : σ → List ε → Prop
  | _, [] => True
  | s, e :: events => P s e ∧ Along step P (step s e) events

variable {step : σ → ε → σ} {P C : σ → ε → Prop} {Inv : σ → Prop}

theorem inv_of_run (hstep : ∀ s e, Inv s → Inv (step s e)) {s : σ} (hs : Inv s) (events : List ε) :
    Inv (run step s events) := by
  induction events generalizing s with
  | nil => exact hs
  | cons e events ih => exact ih (hstep s e hs)

/-- An invariant kept by every step that meets the condition holds after every such run. -/
theorem inv_of_along (hstep : ∀ s e, Inv s → C s e → Inv (step s e)) {s : σ} {events : List ε}
    (hs : Inv s) (hrun : Along step C s events) : Inv (run step s events) := by
  induction events generalizing s with
  | nil => exact hs
  | cons e events ih => exact ih (hstep s e hs hrun.1) hrun.2

/-- Two machines that keep a relation at every event keep it along runs. -/
theorem rel_of_run {τ : Type*} {step' : τ → ε → τ} {Rel : σ → τ → Prop}
    (hstep : ∀ s t e, Rel s t → Rel (step s e) (step' t e)) {s : σ} {t : τ} (hst : Rel s t)
    (events : List ε) : Rel (run step s events) (run step' t events) := by
  induction events generalizing s t with
  | nil => exact hst
  | cons e events ih => exact ih (hstep s t e hst)

/-- Under an invariant that the condition keeps, a property equivalent to the condition at one step
    is equivalent to it along runs. -/
theorem along_iff (hstep : ∀ s e, Inv s → C s e → Inv (step s e))
    (hiff : ∀ s e, Inv s → (P s e ↔ C s e)) {s : σ} {events : List ε} (hs : Inv s) :
    Along step P s events ↔ Along step C s events := by
  induction events generalizing s with
  | nil => exact Iff.rfl
  | cons e events ih =>
    constructor
    · rintro ⟨hp, hrest⟩
      have hc := (hiff s e hs).mp hp
      exact ⟨hc, (ih (hstep s e hs hc)).mp hrest⟩
    · rintro ⟨hc, hrest⟩
      exact ⟨(hiff s e hs).mpr hc, (ih (hstep s e hs hc)).mpr hrest⟩

end Machine
