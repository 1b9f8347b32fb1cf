import Cqlite.Lib.Checked

/-! Parsers that keep a position in a buffer.

    A parser takes a position and gives back a value and the position behind it. Positions are
    machine integers: their sums are taken modulo `2 ^ 64`. A sum that wraps around can be checked
    for; where no sum does, the check makes no difference. -/

namespace Cursor

open Checked

variable {ε α β γ : Type}

/-- `a + b` modulo `2 ^ 64`; where sums are checked, one that wraps around is the error
    `overflow`. -/
def plus (overflow : ε) (checked : Bool) (a b : Nat) : Run ε Nat :=
  if a + b < 2 ^ 64 then pure (a + b)
  else if checked then fail overflow
  else pure ((a + b) % 2 ^ 64)

theorem plus_of_lt {overflow : ε} {checked : Bool} {a b : Nat} (h : a + b < 2 ^ 64) :
    plus overflow checked a b = pure (a + b) := if_pos h

theorem plus_sound (overflow : ε) (checked : Bool) (a b : Nat) :
    (plus overflow checked a b).outcome ≠ .fault := by
  rw [plus]
  split
  · exact nofun
  split
  · exact nofun
  · exact nofun

/-- A checked sum is the sum. -/
theorem plus_ok {overflow : ε} {a b c : Nat} (h : (plus overflow true a b).outcome = .ok c) :
    c = a + b := by
  rw [plus] at h
  split at h
  · exact (Outcome.ok.inj h).symm
  · cases h

/-! ### Progress -/

/-- From `pos`, in a buffer of `len` bytes, a parser does not fault, and it stops at least `least`
    bytes further on and no later than at the end. -/
structure Advances (len pos least : Nat) (x : Run ε (α × Nat)) : Prop where
  sound : x.outcome ≠ .fault
  next : ∀ a n, x.outcome = .ok (a, n) → pos + least ≤ n ∧ n ≤ len

namespace Advances

variable {len pos least j k : Nat}

theorem pure {a : α} {n : Nat} (h : pos + least ≤ n ∧ n ≤ len) :
    Advances len pos least (Pure.pure (a, n) : Run ε (α × Nat)) :=
  ⟨nofun, fun _ _ hok => by
    obtain ⟨-, rfl⟩ := Prod.mk.inj (Outcome.ok.inj hok)
    exact h⟩

theorem fail (e : ε) : Advances len pos least (Checked.fail e : Run ε (α × Nat)) :=
  ⟨nofun, nofun⟩

/-- One parser behind another. -/
theorem bind {x : Run ε (α × Nat)} {f : α × Nat → Run ε (β × Nat)} (hx : Advances len pos j x)
    (hf : ∀ a n, x.outcome = .ok (a, n) → pos + j ≤ n → n ≤ len → Advances len n k (f (a, n))) :
    Advances len pos (j + k) (x >>= f) where
  sound h := by
    rcases outcome_bind_fault.1 h with h | ⟨⟨a, n⟩, hok, h⟩
    · exact hx.sound h
    · obtain ⟨hle, hlen⟩ := hx.next a n hok
      exact (hf a n hok hle hlen).sound h
  next b m h := by
    obtain ⟨⟨a, n⟩, hok, h⟩ := outcome_bind_ok.1 h
    obtain ⟨hle, hlen⟩ := hx.next a n hok
    obtain ⟨hle', hlen'⟩ := (hf a n hok hle hlen).next b m h
    omega

/-- A parser behind a step that keeps the position. -/
theorem step {x : Run ε α} {f : α → Run ε (β × Nat)} (hx : x.outcome ≠ .fault)
    (hf : ∀ a, x.outcome = .ok a → Advances len pos least (f a)) :
    Advances len pos least (x >>= f) where
  sound h := by
    rcases outcome_bind_fault.1 h with h | ⟨a, hok, h⟩
    · exact hx h
    · exact (hf a hok).sound h
  next b m h := by
    obtain ⟨a, hok, h⟩ := outcome_bind_ok.1 h
    exact (hf a hok).next b m h

theorem mono {x : Run ε (α × Nat)} (hx : Advances len pos j x) (h : least ≤ j) :
    Advances len pos least x :=
  ⟨hx.sound, fun a n hok => by
    obtain ⟨hle, hlen⟩ := hx.next a n hok
    omega⟩

/-- No step back. -/
theorem loose {x : Run ε (α × Nat)} (hx : Advances len pos j x) : Advances len pos 0 x :=
  hx.mono (Nat.zero_le j)

end Advances

/-! ### Positions and suffixes -/

/-- Where the run fails, there is no value; where it ends with a value, there is a related one. -/
structure Mirrors (R : α → β → Prop) (x : Run ε α) (parsed : Option β) : Prop where
  sound : x.outcome ≠ .fault
  ok : ∀ a, x.outcome = .ok a → ∃ b, parsed = some b ∧ R a b
  error : ∀ e, x.outcome = .error e → parsed = none

/-- The same value, and the position of the bytes that are left. -/
def Leaves (data : List γ) (p : α × Nat) (q : α × List γ) : Prop :=
  p.2 ≤ data.length ∧ q = (p.1, data.drop p.2)

namespace Mirrors

variable {R : α → β → Prop} {x : Run ε α} {parsed : Option β} {data : List γ}

theorem pure {a : α} {b : β} (h : R a b) : Mirrors R (Pure.pure a : Run ε α) (some b) :=
  ⟨nofun, fun _ hok => ⟨b, rfl, Outcome.ok.inj hok ▸ h⟩, nofun⟩

theorem fail (e : ε) (h : parsed = none) : Mirrors R (Checked.fail e : Run ε α) parsed :=
  ⟨nofun, nofun, fun _ _ => h⟩

/-- A run behind a step that finds `c`. -/
theorem step {c : γ} {y : Run ε γ} {f : γ → Run ε α} (hy : y.outcome = .ok c)
    (hf : Mirrors R (f c) parsed) : Mirrors R (y >>= f) parsed := by
  have hrun : (y >>= f).outcome = (f c).outcome := by
    change (Run.bind y f).outcome = _
    rw [Run.bind, hy]
  exact ⟨hrun ▸ hf.sound, hrun ▸ hf.ok, hrun ▸ hf.error⟩

theorem bind {α' β' : Type} {S : α' → β' → Prop} {f : α → Run ε α'} {g : β → Option β'}
    (hx : Mirrors R x parsed)
    (hf : ∀ a b, x.outcome = .ok a → R a b → Mirrors S (f a) (g b)) :
    Mirrors S (x >>= f) (parsed.bind g) := by
  cases hend : x.outcome with
  | ok a =>
    obtain ⟨b, hparsed, hab⟩ := hx.ok a hend
    rw [hparsed]
    exact step hend (hf a b hend hab)
  | error e =>
    have hrun : (x >>= f).outcome = .error e := by
      change (Run.bind x f).outcome = _
      rw [Run.bind, hend]
    rw [hx.error e hend]
    exact ⟨hrun ▸ nofun, hrun ▸ nofun, fun _ _ => rfl⟩
  | fault => exact absurd hend hx.sound

/-- One parser behind another. -/
theorem next {α' β' : Type} {S : α' → β' → Prop} {x : Run ε (α × Nat)}
    {parsed : Option (α × List γ)} {f : α × Nat → Run ε α'} {g : α × List γ → Option β'}
    (hx : Mirrors (Leaves data) x parsed)
    (hf : ∀ a n, n ≤ data.length → Mirrors S (f (a, n)) (g (a, data.drop n))) :
    Mirrors S (x >>= f) (parsed.bind g) := by
  refine hx.bind fun p q _ hpq => ?_
  rw [hpq.2]
  exact hf p.1 p.2 hpq.1

/-- The last parser of a row of them. -/
theorem last {α' β' : Type} {S : α' → β' → Prop} {x : Run ε (α × Nat)}
    {parsed : Option (α × List γ)} {f : α × Nat → α'} {g : α × List γ → β'}
    (hx : Mirrors (Leaves data) x parsed)
    (hf : ∀ a n, n ≤ data.length → S (f (a, n)) (g (a, data.drop n))) :
    Mirrors S (x >>= fun p => Pure.pure (f p)) (parsed.map g) := by
  rw [Option.map_eq_bind]
  exact hx.next fun a n hn => pure (hf a n hn)

/-- A checked sum beyond the end of the data is an error either way. -/
theorem plus {overflow : ε} {f : Nat → Run ε α} {a b : Nat} (hlen : data.length < 2 ^ 64)
    (hnone : data.length < a + b → parsed = none) (hf : Mirrors R (f (a + b)) parsed) :
    Mirrors R (Cursor.plus overflow true a b >>= f) parsed := by
  by_cases hlt : a + b < 2 ^ 64
  · exact step (by rw [plus_of_lt hlt, outcome_pure]) hf
  · have hend : Cursor.plus overflow true a b = Checked.fail overflow := by
      rw [Cursor.plus, if_neg hlt, if_pos rfl]
    rw [hend]
    exact fail overflow (hnone (by omega))

end Mirrors

/-! ### Sums that are not checked -/

/-- The second run is the first unless a sum wraps around in it. -/
def Agrees (overflow : ε) (x y : Run ε α) : Prop := x.outcome ≠ .error overflow → y = x

namespace Agrees

variable {overflow : ε}

theorem refl (x : Run ε α) : Agrees overflow x x := fun _ => rfl

theorem plus (a b : Nat) :
    Agrees overflow (Cursor.plus overflow true a b) (Cursor.plus overflow false a b) := fun h => by
  by_cases hlt : a + b < 2 ^ 64
  · rw [plus_of_lt hlt, plus_of_lt hlt]
  · rw [Cursor.plus, if_neg hlt, if_pos rfl] at h
    exact absurd rfl h

theorem bind {x y : Run ε α} {f g : α → Run ε β} (hx : Agrees overflow x y)
    (hf : ∀ a, Agrees overflow (f a) (g a)) : Agrees overflow (x >>= f) (y >>= g) := fun h => by
  have hbind : ∀ (z : Run ε α) (k : α → Run ε β), z >>= k = Run.bind z k := fun _ _ => rfl
  rw [hbind, Run.bind] at h
  have hfirst : x.outcome ≠ .error overflow := fun herror => h (by rw [herror])
  rw [hx hfirst, hbind, hbind, Run.bind, Run.bind]
  cases hok : x.outcome with
  | ok a =>
    rw [hok] at h
    dsimp only at h ⊢
    rw [hf a h]
  | error e => rfl
  | fault => rfl

end Agrees

end Cursor
