import Mathlib.Algebra.Order.Ring.Int
import Mathlib.Data.List.Forall2

/-! Computations that may fault.

    A program over untrusted bytes ends with a value or an error it returns. What it must not do is
    index out of range or let an operation on machine integers leave its range: a fault. On the way
    it asks for memory, and every request is recorded with the number of elements asked for. -/

namespace Checked

/-- How a computation ends. -/
inductive Outcome (ε α : Type)
  | ok (a : α)
  | error (e : ε)
  | fault
  deriving DecidableEq

/-- A computation: its end, and the sizes it asked memory for. -/
structure Run (ε α : Type) where
  outcome : Outcome ε α
  requests : List Nat

namespace Run

variable {ε α β : Type}

protected def pure (a : α) : Run ε α := ⟨.ok a, []⟩

protected def bind (x : Run ε α) (f : α → Run ε β) : Run ε β :=
  match x.outcome with
  | .ok a => ⟨(f a).outcome, x.requests ++ (f a).requests⟩
  | .error e => ⟨.error e, x.requests⟩
  | .fault => ⟨.fault, x.requests⟩

instance : Monad (Run ε) where
  pure := Run.pure
  bind := Run.bind

instance : LawfulMonad (Run ε) := LawfulMonad.mk' (Run ε)
  (fun x => by
    change Run.bind x Run.pure = x
    obtain ⟨o, requests⟩ := x
    cases o <;> simp [Run.bind, Run.pure])
  (fun a f => by
    change Run.bind (Run.pure a) f = f a
    simp [Run.bind, Run.pure])
  (fun x f g => by
    change Run.bind (Run.bind x f) g = Run.bind x fun a => Run.bind (f a) g
    obtain ⟨o, requests⟩ := x
    cases o with
    | ok a =>
      simp only [Run.bind]
      cases (f a).outcome <;> simp
    | error e => rfl
    | fault => rfl)

end Run

variable {ε α β : Type}

/-! ### Steps -/

def fail (e : ε) : Run ε α := ⟨.error e, []⟩

/-- Memory for `n` elements. -/
def request (n : Nat) : Run ε Unit := ⟨.ok (), [n]⟩

/-- `a - b` on unsigned integers. -/
def sub (a b : Nat) : Run ε Nat := if b ≤ a then ⟨.ok (a - b), []⟩ else ⟨.fault, []⟩

/-- `a + b` on integers of 64 bits. -/
def add (a b : Nat) : Run ε Nat := if a + b < 2 ^ 64 then ⟨.ok (a + b), []⟩ else ⟨.fault, []⟩

/-- `xs[i]`. -/
def index (xs : List α) (i : Nat) : Run ε α :=
  match xs[i]? with
  | some a => ⟨.ok a, []⟩
  | none => ⟨.fault, []⟩

/-- `xs[i..j]`. -/
def slice (xs : List α) (i j : Nat) : Run ε (List α) :=
  if i ≤ j ∧ j ≤ xs.length then ⟨.ok ((xs.take j).drop i), []⟩ else ⟨.fault, []⟩

/-! ### Ends -/

variable {f : α → Run ε β} {x : Run ε α} {a b i j : Nat} {xs : List α}

theorem outcome_bind_ok {b : β} :
    (x >>= f).outcome = .ok b ↔ ∃ a, x.outcome = .ok a ∧ (f a).outcome = .ok b := by
  change (Run.bind x f).outcome = .ok b ↔ _
  rw [Run.bind]
  cases h : x.outcome <;> simp

theorem outcome_bind_fault :
    (x >>= f).outcome = .fault ↔
      x.outcome = .fault ∨ ∃ a, x.outcome = .ok a ∧ (f a).outcome = .fault := by
  change (Run.bind x f).outcome = .fault ↔ _
  rw [Run.bind]
  cases h : x.outcome <;> simp

@[simp] theorem outcome_pure (a : α) : (pure a : Run ε α).outcome = .ok a := rfl

@[simp] theorem outcome_fail (e : ε) : (fail e : Run ε α).outcome = .error e := rfl

@[simp] theorem outcome_request (n : Nat) : (request n : Run ε Unit).outcome = .ok () := rfl

theorem outcome_sub_ok {c : Nat} : (sub a b : Run ε Nat).outcome = .ok c ↔ b ≤ a ∧ a - b = c := by
  rw [sub]
  split
  · rename_i h
    exact ⟨fun heq => ⟨h, Outcome.ok.inj heq⟩, fun heq => congrArg Outcome.ok heq.2⟩
  · rename_i h
    exact ⟨nofun, fun hle => absurd hle.1 h⟩

theorem outcome_sub_fault : (sub a b : Run ε Nat).outcome = .fault ↔ a < b := by
  rw [sub]
  split <;> simp <;> omega

theorem outcome_add_ok {c : Nat} :
    (add a b : Run ε Nat).outcome = .ok c ↔ a + b < 2 ^ 64 ∧ a + b = c := by
  rw [add]
  split
  · rename_i h
    exact ⟨fun heq => ⟨h, Outcome.ok.inj heq⟩, fun heq => congrArg Outcome.ok heq.2⟩
  · rename_i h
    exact ⟨nofun, fun hlt => absurd hlt.1 h⟩

theorem outcome_index_ok {a : α} : (index xs i : Run ε α).outcome = .ok a ↔ xs[i]? = some a := by
  rw [index]
  cases xs[i]? <;> simp

theorem outcome_index_fault : (index xs i : Run ε α).outcome = .fault ↔ xs.length ≤ i := by
  rw [index, ← List.getElem?_eq_none_iff]
  cases xs[i]? <;> simp

theorem outcome_slice_ok {ys : List α} :
    (slice xs i j : Run ε (List α)).outcome = .ok ys ↔
      (i ≤ j ∧ j ≤ xs.length) ∧ (xs.take j).drop i = ys := by
  rw [slice]
  split
  · rename_i h
    exact ⟨fun heq => ⟨h, Outcome.ok.inj heq⟩, fun heq => congrArg Outcome.ok heq.2⟩
  · rename_i h
    exact ⟨nofun, fun hle => absurd hle.1 h⟩

theorem outcome_slice_fault :
    (slice xs i j : Run ε (List α)).outcome = .fault ↔ j < i ∨ xs.length < j := by
  rw [slice]
  split <;> simp <;> omega

/-- All succeed, one by one. -/
theorem outcome_mapM_ok {l : List α} {bs : List β} :
    (l.mapM f).outcome = .ok bs ↔ List.Forall₂ (fun a b => (f a).outcome = .ok b) l bs := by
  induction l generalizing bs with
  | nil =>
    rw [List.mapM_nil, List.forall₂_nil_left_iff, outcome_pure]
    exact ⟨fun h => (Outcome.ok.inj h).symm, fun h => h ▸ rfl⟩
  | cons a l ih =>
    rw [List.mapM_cons, List.forall₂_cons_left_iff, outcome_bind_ok]
    constructor
    · rintro ⟨b, hb, h⟩
      obtain ⟨bs', hbs, h⟩ := outcome_bind_ok.1 h
      exact ⟨b, bs', hb, ih.1 hbs, (Outcome.ok.inj h).symm⟩
    · rintro ⟨b, bs', hb, hbs, rfl⟩
      exact ⟨b, hb, outcome_bind_ok.2 ⟨bs', ih.2 hbs, rfl⟩⟩

theorem outcome_mapM_index (xs : List α) :
    ((List.range xs.length).mapM (index xs) : Run ε (List α)).outcome = .ok xs := by
  refine outcome_mapM_ok.2 (List.forall₂_iff_get.2 ⟨List.length_range, fun i _ hi => ?_⟩)
  rw [outcome_index_ok, List.get_eq_getElem, List.get_eq_getElem, List.getElem_range,
    List.getElem?_eq_getElem hi]

theorem outcome_mapM_window (before xs after : List α) :
    ((List.range xs.length).mapM fun k => index (before ++ (xs ++ after)) (before.length + k) :
      Run ε (List α)).outcome = .ok xs := by
  refine outcome_mapM_ok.2 (List.forall₂_iff_get.2 ⟨List.length_range, fun i _ hi => ?_⟩)
  rw [outcome_index_ok, List.get_eq_getElem, List.get_eq_getElem, List.getElem_range,
    List.getElem?_append_right (Nat.le_add_right _ _), Nat.add_sub_cancel_left,
    List.getElem?_append_left hi, List.getElem?_eq_getElem hi]

/-! ### Safety -/

/-- No fault, and no request beyond the bound. -/
structure Safe (bound : Nat) (x : Run ε α) : Prop where
  sound : x.outcome ≠ .fault
  within : ∀ n ∈ x.requests, n ≤ bound

namespace Safe

variable {bound : Nat}

theorem pure (a : α) : Safe bound (Pure.pure a : Run ε α) := ⟨nofun, nofun⟩

theorem fail (e : ε) : Safe bound (Checked.fail e : Run ε α) := ⟨nofun, nofun⟩

theorem request {n : Nat} (h : n ≤ bound) : Safe bound (Checked.request n : Run ε Unit) :=
  ⟨nofun, by simpa [Checked.request] using h⟩

theorem sub (h : b ≤ a) : Safe bound (Checked.sub a b : Run ε Nat) := by
  rw [Checked.sub, if_pos h]
  exact ⟨nofun, nofun⟩

theorem slice (h : i ≤ j ∧ j ≤ xs.length) : Safe bound (Checked.slice xs i j : Run ε (List α)) := by
  rw [Checked.slice, if_pos h]
  exact ⟨nofun, nofun⟩

theorem index (h : i < xs.length) : Safe bound (Checked.index xs i : Run ε α) := by
  rw [Checked.index, List.getElem?_eq_getElem h]
  exact ⟨nofun, nofun⟩

/-- Steps are safe when each is, on the values the ones before it leave. -/
theorem bind (hx : Safe bound x) (hf : ∀ a, x.outcome = .ok a → Safe bound (f a)) :
    Safe bound (x >>= f) := by
  change Safe bound (Run.bind x f)
  rw [Run.bind]
  cases h : x.outcome with
  | ok a =>
    refine ⟨(hf a h).sound, fun n hn => ?_⟩
    exact (List.mem_append.1 hn).elim (hx.within n) ((hf a h).within n)
  | error e => exact ⟨nofun, hx.within⟩
  | fault => exact absurd h hx.sound

/-- A loop is safe when every step is. -/
theorem mapM {l : List α} (h : ∀ a ∈ l, Safe bound (f a)) : Safe bound (l.mapM f) := by
  induction l with
  | nil => exact pure []
  | cons a l ih =>
    rw [List.mapM_cons]
    refine bind (h a List.mem_cons_self) fun b _ => bind (ih fun c hc => ?_) fun bs _ => pure _
    exact h c (List.mem_cons_of_mem _ hc)

end Safe

end Checked
