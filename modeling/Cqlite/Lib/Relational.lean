/-! Two fallible runs side by side.

    Runs are alike when they fail with the same error or return related results. The relation goes
    through binds and folds, so two implementations of one loop are compared step by step. -/

namespace Relational

variable {ε α β γ δ ι : Type}

/-- Both fail with one error, or both return and the results are related. -/
inductive Alike (R : α → β → Prop) : Except ε α → Except ε β → Prop
  | error (e : ε) : Alike R (.error e) (.error e)
  | ok {a : α} {b : β} (h : R a b) : Alike R (.ok a) (.ok b)

theorem Alike.refl {R : α → α → Prop} (h : ∀ a, R a a) (x : Except ε α) : Alike R x x := by
  cases x with
  | error e => exact .error e
  | ok a => exact .ok (h a)

theorem Alike.eq {x y : Except ε α} (h : Alike Eq x y) : x = y := by
  cases h with
  | error e => rfl
  | ok h => rw [h]

variable {R : α → β → Prop} {S : γ → δ → Prop}

theorem Alike.bind {x : Except ε α} {y : Except ε β} {f : α → Except ε γ} {g : β → Except ε δ}
    (h : Alike R x y) (hfg : ∀ a b, R a b → Alike S (f a) (g b)) : Alike S (x >>= f) (y >>= g) := by
  cases h with
  | error e => exact .error e
  | ok h => exact hfg _ _ h

/-- Steps that agree give folds that agree. -/
theorem Alike.foldlM {f : α → ι → Except ε α} {g : β → ι → Except ε β}
    (hstep : ∀ a b, R a b → ∀ i, Alike R (f a i) (g b i)) {a : α} {b : β} (h : R a b) (l : List ι) :
    Alike R (l.foldlM f a) (l.foldlM g b) := by
  induction l generalizing a b with
  | nil => exact .ok h
  | cons i l ih =>
    rw [List.foldlM_cons, List.foldlM_cons]
    exact (hstep a b h i).bind fun a' b' h' => ih h'

end Relational
