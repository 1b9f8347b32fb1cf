import Mathlib.Data.List.Basic

/-! Three-valued logic.

    A conjunction is true when all its parts are and false when one of them is; anything else is
    unknown. A two-valued evaluation reads every unknown part as true or false; it can then turn
    unknown into either, but it never contradicts a known value. -/

/-- Three truth values. -/
inductive Truth
  | false
  | unknown
  | true
  deriving DecidableEq, Repr

namespace Truth

def ofBool : Bool → Truth
  | .true => .true
  | .false => .false

def not : Truth → Truth
  | .true => .false
  | .unknown => .unknown
  | .false => .true

def and : Truth → Truth → Truth
  | .true, b => b
  | .false, _ => .false
  | .unknown, .false => .false
  | .unknown, _ => .unknown

def or : Truth → Truth → Truth
  | .false, b => b
  | .true, _ => .true
  | .unknown, .true => .true
  | .unknown, _ => .unknown

/-- A conjunction of any number of parts. -/
def all (ts : List Truth) : Truth := ts.foldr and .true

/-- A disjunction of any number of parts. -/
def any (ts : List Truth) : Truth := ts.foldr or .false

@[simp] theorem ofBool_eq_true {b : Bool} : ofBool b = .true ↔ b = .true := by cases b <;> simp [ofBool]

@[simp] theorem and_eq_true {a b : Truth} : and a b = .true ↔ a = .true ∧ b = .true := by
  cases a <;> cases b <;> simp [and]

@[simp] theorem or_eq_true {a b : Truth} : or a b = .true ↔ a = .true ∨ b = .true := by
  cases a <;> cases b <;> simp [or]

@[simp] theorem all_nil : all [] = .true := rfl

@[simp] theorem all_cons (t : Truth) (ts : List Truth) : all (t :: ts) = and t (all ts) := rfl

@[simp] theorem any_nil : any [] = .false := rfl

@[simp] theorem any_cons (t : Truth) (ts : List Truth) : any (t :: ts) = or t (any ts) := rfl

theorem any_eq_true {ts : List Truth} : any ts = .true ↔ ∃ t ∈ ts, t = .true := by
  induction ts with
  | nil => simp
  | cons t ts ih => simp only [any_cons, or_eq_true, ih, List.mem_cons, exists_eq_or_imp]

/-! ### Two-valued readings -/

/-- A boolean that does not contradict a truth value. -/
def Resolves (b : Bool) (t : Truth) : Prop := t = .unknown ∨ t = ofBool b

variable {b : Bool} {t u : Truth}

theorem Resolves.not (h : Resolves b t) : Resolves (!b) t.not := by
  rcases h with rfl | rfl
  · exact .inl rfl
  · cases b <;> exact .inr rfl

theorem Resolves.and_false (h : Resolves .false t) : Resolves .false (t.and u) := by
  rcases h with rfl | rfl
  · cases u <;> simp [Truth.and, Resolves, ofBool]
  · exact .inr rfl

theorem Resolves.and_true (h : Resolves .true t) (hu : Resolves b u) : Resolves b (t.and u) := by
  rcases h with rfl | rfl
  · rcases hu with rfl | rfl
    · exact .inl rfl
    · cases b <;> simp [Truth.and, Resolves, ofBool]
  · exact hu

theorem Resolves.or_true (h : Resolves .true t) : Resolves .true (t.or u) := by
  rcases h with rfl | rfl
  · cases u <;> simp [Truth.or, Resolves, ofBool]
  · exact .inr rfl

theorem Resolves.or_false (h : Resolves .false t) (hu : Resolves b u) : Resolves b (t.or u) := by
  rcases h with rfl | rfl
  · rcases hu with rfl | rfl
    · exact .inl rfl
    · cases b <;> simp [Truth.or, Resolves, ofBool]
  · exact hu

end Truth
