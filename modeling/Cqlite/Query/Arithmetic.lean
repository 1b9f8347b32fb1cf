import Cqlite.Query.Where
import Mathlib.Tactic.Positivity
import Mathlib.Tactic.Ring

/-! Arithmetic in select expressions (`select_executor/value_ops.rs` and the two evaluators of
    `select_executor/mod.rs`).

    The operators are those of the machine: a build with overflow checks panics where a result
    leaves its width, one without wraps it, and `MIN / -1` and `MIN % -1` panic in every build. The
    arithmetic of doubles is a parameter. -/

namespace Cqlite.Arithmetic

/-! ### Expressions -/

inductive ArithmeticOperator
  | add
  | subtract
  | multiply
  | divide
  | modulo
  deriving DecidableEq, Repr

/-- `computed` stands for collection access and `WRITETIME`/`TTL`. -/
inductive SelectExpression
  | column (name : String)
  | aggregate
  | function
  | literal (value : Value)
  | bindMarker (index : Nat)
  | computed (eval : QueryRow → Except QueryError Value)
  | arithmetic (left : SelectExpression) (operator : ArithmeticOperator) (right : SelectExpression)
  | aliased (expr : SelectExpression) (name : String)

/-- How an evaluation ends when it has no value. -/
inductive Failure
  | error (e : QueryError)
  | panic
  deriving DecidableEq, Repr

/-! ### Operators -/

/-- The least number of `w` bits. -/
def least (w : Nat) : Int := -(2 ^ (w - 1))

/-- The numbers of `w` bits. -/
def InWidth (w : Nat) (n : Int) : Prop := least w ≤ n ∧ n < 2 ^ (w - 1)

instance (w : Nat) (n : Int) : Decidable (InWidth w n) := inferInstanceAs (Decidable (_ ∧ _))

/-- The low `w` bits with their sign. -/
def wrap (w : Nat) (n : Int) : Int := (n + 2 ^ (w - 1)) % 2 ^ w - 2 ^ (w - 1)

/-- A sum, difference or product of numbers of `w` bits. -/
def machine (overflowChecks : Bool) (w : Nat) (n : Int) : Except Failure Int :=
  if InWidth w n then .ok n else if overflowChecks then .error .panic else .ok (wrap w n)

/-- A quotient or remainder of `a` by `b`, whose exact value is `n`. -/
def quotient (w : Nat) (a b : Int) (n : Int) (zero : QueryError) : Except Failure Int :=
  if b = 0 then .error (.error zero)
  else if a = least w ∧ b = -1 then .error .panic
  else .ok n

/-- `int_op!`. -/
def intOp (overflowChecks : Bool) (op : ArithmeticOperator) (w : Nat) (a b : Int) :
    Except Failure Int :=
  match op with
  | .add => machine overflowChecks w (a + b)
  | .subtract => machine overflowChecks w (a - b)
  | .multiply => machine overflowChecks w (a * b)
  | .divide => quotient w a b (a.tdiv b) "Division by zero"
  | .modulo => quotient w a b (a.tmod b) "Modulo by zero"

variable (floatOp : ArithmeticOperator → UInt64 → UInt64 → UInt64) (overflowChecks : Bool)

def evalArithmetic (op : ArithmeticOperator) : Value → Value → Except Failure Value
  | .integer a, .integer b => (intOp overflowChecks op 32 a b).map .integer
  | .bigInt a, .bigInt b => (intOp overflowChecks op 64 a b).map .bigInt
  | .float a, .float b => .ok (.float (floatOp op a b))
  | _, _ => .error (.error "Incompatible types for arithmetic")

/-- The word for an operator in an error. -/
def verb : ArithmeticOperator → String
  | .add => "add"
  | .subtract => "subtract"
  | .multiply => "multiply"
  | .divide => "divide"
  | .modulo => "modulo"

/-- `b == 0.0`. -/
def isZero (bits : UInt64) : Bool := bits.toNat % 2 ^ 63 = 0

def constArithmetic (op : ArithmeticOperator) (left right : Value) : Except Failure Value :=
  if op = .modulo then
    match left, right with
    | .integer a, .integer b => evalArithmetic floatOp overflowChecks op (.integer a) (.integer b)
    | .bigInt a, .bigInt b => evalArithmetic floatOp overflowChecks op (.bigInt a) (.bigInt b)
    | _, _ => .error (.error "Modulo only supported for integers")
  else
    match left, right with
    | .integer a, .integer b => evalArithmetic floatOp overflowChecks op (.integer a) (.integer b)
    | .bigInt a, .bigInt b => evalArithmetic floatOp overflowChecks op (.bigInt a) (.bigInt b)
    | .float a, .float b =>
      if op = .divide ∧ isZero b then .error (.error "Division by zero")
      else evalArithmetic floatOp overflowChecks op (.float a) (.float b)
    | _, _ => .error (.error ("Cannot " ++ verb op ++ " incompatible types"))

/-! ### Evaluators -/

def evaluateArithmetic (op : ArithmeticOperator) (left right : Value) : Except Failure Value :=
  match left, right with
  | .integer a, .integer b => evalArithmetic floatOp overflowChecks op (.integer a) (.integer b)
  | .float a, .float b => evalArithmetic floatOp overflowChecks op (.float a) (.float b)
  | _, _ => .error (.error "Incompatible types for arithmetic")

def evaluateSelectExpression (row : QueryRow) : SelectExpression → Except Failure Value
  | .column name =>
    match row.values name with
    | some v => .ok v
    | none => .error (.error ("Column not found: " ++ name))
  | .literal v => .ok v
  | .bindMarker index =>
    .error (.error ("Unbound parameter placeholder ?" ++ toString index ++
      " reached execution; parameters must be bound before the query runs"))
  | .computed eval => (eval row).mapError .error
  | .arithmetic left op right => do
    let l ← evaluateSelectExpression row left
    let r ← evaluateSelectExpression row right
    evaluateArithmetic floatOp overflowChecks op l r
  | .aliased expr _ => evaluateSelectExpression row expr
  | .aggregate => .error (.error ("Aggregate expressions should be processed during " ++
      "aggregation step, not row evaluation"))
  | .function => .error (.error "Function expressions not yet implemented")

/-- The value and the alias around it. -/
def evaluateConstantExpression : SelectExpression → Except Failure (Value × Option String)
  | .literal v => .ok (v, none)
  | .aliased expr name => do
    let (value, _) ← evaluateConstantExpression expr
    return (value, some name)
  | .arithmetic left op right => do
    let (l, _) ← evaluateConstantExpression left
    let (r, _) ← evaluateConstantExpression right
    let result ← constArithmetic floatOp overflowChecks op l r
    return (result, none)
  | _ => .error (.error "Expression type not supported in constant queries")

/-- The value a constant expression evaluates to. -/
def constantValue (expr : SelectExpression) : Except Failure Value :=
  (evaluateConstantExpression floatOp overflowChecks expr).map (·.1)

/-! ### Exact arithmetic -/

/-- An operator on integers of any size: division truncates towards zero, the remainder has the
    sign of the dividend, a zero divisor has no result. -/
def exactOp : ArithmeticOperator → Int → Int → Option Int
  | .add, a, b => some (a + b)
  | .subtract, a, b => some (a - b)
  | .multiply, a, b => some (a * b)
  | .divide, a, b => if b = 0 then none else some (a.tdiv b)
  | .modulo, a, b => if b = 0 then none else some (a.tmod b)

/-- An operator on two integers of one type. -/
def exactArithmetic (bigInts : Bool) (op : ArithmeticOperator) : Value → Value → Option Value
  | .integer a, .integer b => (exactOp op a b).map .integer
  | .bigInt a, .bigInt b => if bigInts then (exactOp op a b).map .bigInt else none
  | _, _ => none

/-- The exact value of a tree of integers, over the columns that can be read and with or without
    arithmetic on bigints; `none` where the tree has none. -/
def exactIn (columns : String → Option Value) (bigInts : Bool) : SelectExpression → Option Value
  | .column name => columns name
  | .literal v => some v
  | .aliased expr _ => exactIn columns bigInts expr
  | .arithmetic left op right => do
    let a ← exactIn columns bigInts left
    let b ← exactIn columns bigInts right
    exactArithmetic bigInts op a b
  | _ => none

/-- The exact value of a tree over a row. -/
def exactValue (row : QueryRow) : SelectExpression → Option Value := exactIn row.values true

/-- A tree of int and bigint literals, columns, aliases and operators. -/
def IntTree : SelectExpression → Prop
  | .literal (.integer _) => True
  | .literal (.bigInt _) => True
  | .column _ => True
  | .aliased expr _ => IntTree expr
  | .arithmetic left _ right => IntTree left ∧ IntTree right
  | _ => False

/-- A tree of int literals without columns. -/
def IntLiterals : SelectExpression → Prop
  | .literal (.integer _) => True
  | .aliased expr _ => IntLiterals expr
  | .arithmetic left _ right => IntLiterals left ∧ IntLiterals right
  | _ => False

/-- No column of the row is a float. -/
def IntRow (row : QueryRow) : Prop := ∀ name bits, row.values name ≠ some (.float bits)

/-- The nodes that an evaluator evaluates: the right operand only behind a value on the left. -/
def visited (eval : SelectExpression → Except Failure Value) :
    SelectExpression → List SelectExpression
  | .arithmetic left op right =>
    .arithmetic left op right ::
      (visited eval left ++ if (eval left).isOk then visited eval right else [])
  | .aliased expr name => .aliased expr name :: visited eval expr
  | expr => [expr]

/-- A result is an error or the exact value. -/
def NodeExact (result : Except Failure Value) (exact : Option Value) : Prop :=
  match result with
  | .ok v => exact = some v
  | .error (.error _) => True
  | .error .panic => False

/-- At every node that is evaluated the result is an error or the exact value of the node. -/
def ExactOrRefused (eval : SelectExpression → Except Failure Value) (row : QueryRow)
    (expr : SelectExpression) : Prop :=
  ∀ node ∈ visited eval expr, NodeExact (eval node) (exactValue row node)

/-! ### When it is exact -/

/-- An operator on numbers of `w` bits stays in its width; the least number is not divided by -1. -/
def OpFits (op : ArithmeticOperator) (w : Nat) (a b : Int) : Prop :=
  match op with
  | .add => InWidth w (a + b)
  | .subtract => InWidth w (a - b)
  | .multiply => InWidth w (a * b)
  | .divide => ¬(a = least w ∧ b = -1)
  | .modulo => ¬(a = least w ∧ b = -1)

/-- An operator on the exact values of its operands. -/
def NodeFits (bigInts : Bool) (op : ArithmeticOperator) : Value → Value → Prop
  | .integer a, .integer b => OpFits op 32 a b
  | .bigInt a, .bigInt b => bigInts = true → OpFits op 64 a b
  | _, _ => True

/-- Every operator whose operands have exact values fits. -/
def Fits (columns : String → Option Value) (bigInts : Bool) : SelectExpression → Prop
  | .arithmetic left op right =>
    Fits columns bigInts left ∧ ∀ a, exactIn columns bigInts left = some a →
      Fits columns bigInts right ∧ ∀ b, exactIn columns bigInts right = some b →
        NodeFits bigInts op a b
  | .aliased expr _ => Fits columns bigInts expr
  | _ => True

/-! ### One operator -/

theorem wrap_inWidth {w : Nat} (hw : 0 < w) (n : Int) : InWidth w (wrap w n) := by
  obtain ⟨k, rfl⟩ : ∃ k, w = k + 1 := ⟨w - 1, by omega⟩
  rw [InWidth, least, wrap, Nat.add_sub_cancel]
  have hpow : (2 : Int) ^ (k + 1) = 2 * 2 ^ k := by rw [pow_succ, mul_comm]
  have hpos : (0 : Int) < 2 ^ k := by positivity
  have hlow := Int.emod_nonneg (n + 2 ^ k) (show (2 : Int) ^ (k + 1) ≠ 0 by positivity)
  have hhigh := Int.emod_lt_of_pos (n + 2 ^ k) (show (0 : Int) < 2 ^ (k + 1) by positivity)
  omega

variable {overflowChecks}

/-- An operator that fits returns its exact result, or refuses a zero divisor. -/
theorem intOp_of_fits {op : ArithmeticOperator} {w : Nat} {a b : Int} (h : OpFits op w a b) :
    (∃ n, intOp overflowChecks op w a b = .ok n ∧ exactOp op a b = some n) ∨
      (∃ e, intOp overflowChecks op w a b = .error (.error e)) ∧ exactOp op a b = none := by
  cases op with
  | add => exact .inl ⟨a + b, if_pos h, rfl⟩
  | subtract => exact .inl ⟨a - b, if_pos h, rfl⟩
  | multiply => exact .inl ⟨a * b, if_pos h, rfl⟩
  | divide =>
    by_cases hb : b = 0
    · exact .inr ⟨⟨_, if_pos hb⟩, if_pos hb⟩
    · exact .inl ⟨a.tdiv b, by rw [intOp, quotient, if_neg hb, if_neg h], if_neg hb⟩
  | modulo =>
    by_cases hb : b = 0
    · exact .inr ⟨⟨_, if_pos hb⟩, if_pos hb⟩
    · exact .inl ⟨a.tmod b, by rw [intOp, quotient, if_neg hb, if_neg h], if_neg hb⟩

theorem inWidth_of_machine {w : Nat} (hw : 0 < w) {n : Int}
    (hpanic : machine overflowChecks w n ≠ .error .panic)
    (hok : ∀ m, machine overflowChecks w n = .ok m → m = n) : InWidth w n := by
  by_contra h
  rw [machine, if_neg h] at hpanic hok
  cases overflowChecks with
  | true => exact hpanic rfl
  | false => exact h (hok _ rfl ▸ wrap_inWidth hw n)

/-- An operator that does not panic and returns the exact result fits. -/
theorem fits_of_intOp {op : ArithmeticOperator} {w : Nat} (hw : 0 < w) {a b : Int}
    (hpanic : intOp overflowChecks op w a b ≠ .error .panic)
    (hok : ∀ n, intOp overflowChecks op w a b = .ok n → exactOp op a b = some n) :
    OpFits op w a b := by
  have hquotient : ∀ (n : Int) (zero : QueryError),
      quotient w a b n zero ≠ .error .panic → ¬(a = least w ∧ b = -1) := by
    rintro n zero hne ⟨rfl, rfl⟩
    exact hne (by rw [quotient, if_neg (by decide), if_pos ⟨rfl, rfl⟩])
  cases op with
  | add => exact inWidth_of_machine hw hpanic fun m hm => (Option.some.inj (hok m hm)).symm
  | subtract => exact inWidth_of_machine hw hpanic fun m hm => (Option.some.inj (hok m hm)).symm
  | multiply => exact inWidth_of_machine hw hpanic fun m hm => (Option.some.inj (hok m hm)).symm
  | divide => exact hquotient _ _ hpanic
  | modulo => exact hquotient _ _ hpanic

/-! ### One node -/

/-- What the arithmetic of an evaluator does with two values that are not both floats. -/
structure Computes (overflowChecks bigInts : Bool)
    (arith : ArithmeticOperator → Value → Value → Except Failure Value) : Prop where
  integers : ∀ op a b,
    arith op (.integer a) (.integer b) = (intOp overflowChecks op 32 a b).map .integer
  wide : bigInts = true → ∀ op a b,
    arith op (.bigInt a) (.bigInt b) = (intOp overflowChecks op 64 a b).map .bigInt
  refuses : ∀ op v w, (∀ a b, ¬(v = .integer a ∧ w = .integer b)) →
    (∀ a b, bigInts = true → ¬(v = .bigInt a ∧ w = .bigInt b)) →
    (∀ a b, ¬(v = .float a ∧ w = .float b)) → ∃ e, arith op v w = .error (.error e)

section Node

variable {bigInts : Bool} {arith : ArithmeticOperator → Value → Value → Except Failure Value}
  {op : ArithmeticOperator}

/-- The two ends of a node that fits. -/
def Agrees (result : Except Failure Value) (exact : Option Value) : Prop :=
  (∃ v, result = .ok v ∧ exact = some v) ∨ (∃ e, result = .error (.error e)) ∧ exact = none

theorem agrees_map {w : Nat} {a b : Int} (c : Int → Value) (h : OpFits op w a b) :
    Agrees ((intOp overflowChecks op w a b).map c) ((exactOp op a b).map c) := by
  rcases @intOp_of_fits overflowChecks _ _ _ _ h with ⟨n, hn, he⟩ | ⟨⟨e, hn⟩, he⟩
  · exact .inl ⟨c n, by rw [hn]; rfl, by rw [he]; rfl⟩
  · exact .inr ⟨⟨e, by rw [hn]; rfl⟩, by rw [he]; rfl⟩

theorem fits_of_map {w : Nat} (hw : 0 < w) {a b : Int} {c : Int → Value}
    (hc : Function.Injective c)
    (h : NodeExact ((intOp overflowChecks op w a b).map c) ((exactOp op a b).map c)) :
    OpFits op w a b := by
  refine @fits_of_intOp overflowChecks _ _ hw _ _ ?_ ?_
  · intro hpanic
    rw [hpanic] at h
    exact h
  · intro n hn
    rw [hn] at h
    obtain ⟨m, hm, hcm⟩ := Option.map_eq_some_iff.mp h
    rw [hm, hc hcm]

theorem operands_cases (v w : Value) :
    (∃ a b, v = .integer a ∧ w = .integer b) ∨ (∃ a b, v = .bigInt a ∧ w = .bigInt b) ∨
      (∀ a b, ¬(v = .integer a ∧ w = .integer b)) ∧ ∀ a b, ¬(v = .bigInt a ∧ w = .bigInt b) := by
  by_cases hint : ∃ a b, v = .integer a ∧ w = .integer b
  · exact .inl hint
  · by_cases hbig : ∃ a b, v = .bigInt a ∧ w = .bigInt b
    · exact .inr (.inl hbig)
    · exact .inr (.inr ⟨fun a b h => hint ⟨a, b, h⟩, fun a b h => hbig ⟨a, b, h⟩⟩)

theorem exactArithmetic_none {v w : Value} (hint : ∀ a b, ¬(v = .integer a ∧ w = .integer b))
    (hbig : ∀ a b, ¬(v = .bigInt a ∧ w = .bigInt b)) : exactArithmetic bigInts op v w = none := by
  rw [exactArithmetic]
  · exact fun a b hv hw => hint a b ⟨hv, hw⟩
  · exact fun a b hv hw => hbig a b ⟨hv, hw⟩

theorem nodeFits_other {v w : Value} (hint : ∀ a b, ¬(v = .integer a ∧ w = .integer b))
    (hbig : ∀ a b, ¬(v = .bigInt a ∧ w = .bigInt b)) : NodeFits bigInts op v w := by
  rw [NodeFits]
  · trivial
  · exact fun a b hv hw => hint a b ⟨hv, hw⟩
  · exact fun a b hv hw => hbig a b ⟨hv, hw⟩

theorem Computes.agrees (h : Computes overflowChecks bigInts arith) {v w : Value}
    (hfloat : ∀ a b, ¬(v = .float a ∧ w = .float b)) (hfits : NodeFits bigInts op v w) :
    Agrees (arith op v w) (exactArithmetic bigInts op v w) := by
  rcases operands_cases v w with ⟨a, b, rfl, rfl⟩ | ⟨a, b, rfl, rfl⟩ | ⟨hint, hbig⟩
  · rw [h.integers]
    exact agrees_map _ hfits
  · cases bigInts with
    | true =>
      rw [h.wide rfl]
      exact agrees_map _ (hfits rfl)
    | false => exact .inr ⟨h.refuses op _ _ (by simp) (by simp) (by simp), rfl⟩
  · exact .inr ⟨h.refuses op v w hint (fun a b _ => hbig a b) hfloat,
      exactArithmetic_none hint hbig⟩

theorem Computes.fits (h : Computes overflowChecks bigInts arith) {v w : Value}
    (hexact : NodeExact (arith op v w) (exactArithmetic true op v w)) :
    NodeFits bigInts op v w := by
  rcases operands_cases v w with ⟨a, b, rfl, rfl⟩ | ⟨a, b, rfl, rfl⟩ | ⟨hint, hbig⟩
  · rw [h.integers] at hexact
    exact fits_of_map (by decide) (fun _ _ => Value.integer.inj) hexact
  · intro hbigInts
    rw [h.wide hbigInts] at hexact
    exact fits_of_map (by decide) (fun _ _ => Value.bigInt.inj) hexact
  · exact nodeFits_other hint hbig

theorem exactArithmetic_mono {v w u : Value} (h : exactArithmetic bigInts op v w = some u) :
    exactArithmetic true op v w = some u := by
  rcases operands_cases v w with ⟨a, b, rfl, rfl⟩ | ⟨a, b, rfl, rfl⟩ | ⟨hint, hbig⟩
  · exact h
  · cases bigInts with
    | true => exact h
    | false => cases h
  · rw [exactArithmetic_none hint hbig] at h
    cases h

end Node

/-! ### A whole tree -/

/-- An evaluator of trees over the columns it can read. -/
structure Evaluates (overflowChecks : Bool) (columns : String → Option Value) (bigInts : Bool)
    (arith : ArithmeticOperator → Value → Value → Except Failure Value)
    (eval : SelectExpression → Except Failure Value) : Prop where
  computes : Computes overflowChecks bigInts arith
  literal : ∀ v, eval (.literal v) = .ok v
  column : ∀ name, Agrees (eval (.column name)) (columns name)
  aliased : ∀ expr name, eval (.aliased expr name) = eval expr
  arithmetic : ∀ left op right, eval (.arithmetic left op right) = do
    let l ← eval left
    let r ← eval right
    arith op l r

section Tree

variable {columns : String → Option Value} {bigInts : Bool} {row : QueryRow}
  {arith : ArithmeticOperator → Value → Value → Except Failure Value}
  {eval : SelectExpression → Except Failure Value} {expr : SelectExpression}

theorem exactIn_ne_float (hcolumns : ∀ name bits, columns name ≠ some (.float bits))
    (htree : IntTree expr) (bits : UInt64) : exactIn columns bigInts expr ≠ some (.float bits) := by
  induction expr with
  | column name => exact hcolumns name bits
  | literal v => cases v <;> simp_all [IntTree, exactIn]
  | aliased expr name ih => exact ih htree
  | arithmetic left op right ihl ihr =>
    rw [exactIn]
    intro h
    obtain ⟨a, -, h⟩ := Option.bind_eq_some_iff.mp h
    obtain ⟨b, -, h⟩ := Option.bind_eq_some_iff.mp h
    rcases operands_cases a b with ⟨m, n, rfl, rfl⟩ | ⟨m, n, rfl, rfl⟩ | ⟨hint, hbig⟩
    · obtain ⟨k, -, hk⟩ := Option.map_eq_some_iff.mp h
      cases hk
    · cases bigInts with
      | true =>
        obtain ⟨k, -, hk⟩ := Option.map_eq_some_iff.mp h
        cases hk
      | false => cases h
    · rw [exactArithmetic_none hint hbig] at h
      cases h
  | _ => exact htree.elim

theorem exactIn_mono (hcolumns : ∀ name v, columns name = some v → row.values name = some v)
    {v : Value} (h : exactIn columns bigInts expr = some v) : exactValue row expr = some v := by
  induction expr generalizing v with
  | column name => exact hcolumns name v h
  | literal w => exact h
  | aliased expr name ih => exact ih h
  | arithmetic left op right ihl ihr =>
    rw [exactIn] at h
    obtain ⟨a, ha, h⟩ := Option.bind_eq_some_iff.mp h
    obtain ⟨b, hb, h⟩ := Option.bind_eq_some_iff.mp h
    have hl := ihl ha
    have hr := ihr hb
    rw [exactValue] at hl hr ⊢
    rw [exactIn, hl, hr]
    exact exactArithmetic_mono h
  | _ => cases h

/-- Where every step fits, the result is exact. -/
theorem Evaluates.agrees (h : Evaluates overflowChecks columns bigInts arith eval)
    (hcolumns : ∀ name bits, columns name ≠ some (.float bits)) (htree : IntTree expr)
    (hfits : Fits columns bigInts expr) : Agrees (eval expr) (exactIn columns bigInts expr) := by
  induction expr with
  | column name => exact h.column name
  | literal v => exact .inl ⟨v, h.literal v, rfl⟩
  | aliased expr name ih =>
    rw [h.aliased]
    exact ih htree hfits
  | arithmetic left op right ihl ihr =>
    obtain ⟨htl, htr⟩ := htree
    obtain ⟨hfl, hright⟩ := hfits
    rw [h.arithmetic, exactIn]
    rcases ihl htl hfl with ⟨a, hl, ha⟩ | ⟨⟨e, hl⟩, ha⟩
    · obtain ⟨hfr, hnode⟩ := hright a ha
      rcases ihr htr hfr with ⟨b, hr, hb⟩ | ⟨⟨e, hr⟩, hb⟩
      · rw [hl, hr, ha, hb]
        refine h.computes.agrees ?_ (hnode b hb)
        rintro m n ⟨rfl, -⟩
        exact exactIn_ne_float hcolumns htl m ha
      · rw [hl, hr, ha, hb]
        exact .inr ⟨⟨e, rfl⟩, rfl⟩
    · rw [hl, ha]
      exact .inr ⟨⟨e, rfl⟩, rfl⟩
  | _ => exact htree.elim

theorem exactOrRefused_arithmetic {left right : SelectExpression} {op : ArithmeticOperator} :
    ExactOrRefused eval row (.arithmetic left op right) ↔
      NodeExact (eval (.arithmetic left op right)) (exactValue row (.arithmetic left op right)) ∧
        ExactOrRefused eval row left ∧ ∀ a, eval left = .ok a → ExactOrRefused eval row right := by
  rw [ExactOrRefused, visited, List.forall_mem_cons, List.forall_mem_append]
  refine and_congr_right fun _ => and_congr_right fun _ => ?_
  cases eval left with
  | ok a => simp [Except.isOk, Except.toBool, ExactOrRefused]
  | error e => simp [Except.isOk, Except.toBool]

theorem nodeExact_of_agrees (hcolumns : ∀ name v, columns name = some v → row.values name = some v)
    (h : Agrees (eval expr) (exactIn columns bigInts expr)) :
    NodeExact (eval expr) (exactValue row expr) := by
  rcases h with ⟨v, hv, he⟩ | ⟨⟨e, hv⟩, -⟩
  · rw [hv]
    exact exactIn_mono hcolumns he
  · rw [hv]
    trivial

/-- An evaluator is exact at every node if and only if every operator it applies fits. -/
theorem Evaluates.exact_iff (h : Evaluates overflowChecks columns bigInts arith eval)
    (hcolumns : ∀ name v, columns name = some v → row.values name = some v) (hrow : IntRow row)
    (htree : IntTree expr) : ExactOrRefused eval row expr ↔ Fits columns bigInts expr := by
  have hfloats : ∀ name bits, columns name ≠ some (.float bits) := fun name bits hname =>
    hrow name bits (hcolumns name _ hname)
  induction expr with
  | column name =>
    refine ⟨fun _ => trivial, fun _ => ?_⟩
    refine List.forall_mem_singleton.mpr ?_
    exact @nodeExact_of_agrees columns bigInts row eval _ hcolumns (h.column name)
  | literal v =>
    refine ⟨fun _ => trivial, fun _ => ?_⟩
    refine List.forall_mem_singleton.mpr ?_
    rw [h.literal]
    rfl
  | aliased expr name ih =>
    have hinner : ExactOrRefused eval row expr ↔ Fits columns bigInts expr := ih htree
    constructor
    · intro hall
      exact hinner.mp (List.forall_mem_cons.mp hall).2
    · intro hfits
      refine List.forall_mem_cons.mpr ⟨?_, hinner.mpr hfits⟩
      rw [h.aliased]
      exact @nodeExact_of_agrees columns bigInts row eval expr hcolumns (h.agrees hfloats htree hfits)
  | arithmetic left op right ihl ihr =>
    obtain ⟨htl, htr⟩ := htree
    rw [exactOrRefused_arithmetic]
    constructor
    · rintro ⟨hnode, hleft, hright⟩
      have hfl := (ihl htl).mp hleft
      refine ⟨hfl, fun a ha => ?_⟩
      have hl : eval left = .ok a := by
        rcases h.agrees hfloats htl hfl with ⟨v, hv, he⟩ | ⟨-, he⟩
        · rw [hv, Option.some.inj (he.symm.trans ha)]
        · exact absurd (he.symm.trans ha) (by simp)
      have hfr := (ihr htr).mp (hright a hl)
      refine ⟨hfr, fun b hb => ?_⟩
      have hr : eval right = .ok b := by
        rcases h.agrees hfloats htr hfr with ⟨v, hv, he⟩ | ⟨-, he⟩
        · rw [hv, Option.some.inj (he.symm.trans hb)]
        · exact absurd (he.symm.trans hb) (by simp)
      have hexact : exactValue row (.arithmetic left op right) = exactArithmetic true op a b := by
        have hla := exactIn_mono hcolumns ha
        have hrb := exactIn_mono hcolumns hb
        rw [exactValue] at hla hrb ⊢
        rw [exactIn, hla, hrb]
        rfl
      rw [h.arithmetic, hl, hr, hexact] at hnode
      exact h.computes.fits hnode
    · intro hfits
      have hagrees := @Evaluates.agrees _ _ _ _ _ (.arithmetic left op right) h hfloats ⟨htl, htr⟩ hfits
      obtain ⟨hfl, hright⟩ := hfits
      refine ⟨nodeExact_of_agrees hcolumns hagrees, (ihl htl).mpr hfl, fun a hl => ?_⟩
      rcases h.agrees hfloats htl hfl with ⟨v, hv, he⟩ | ⟨⟨e, hv⟩, -⟩
      · exact (ihr htr).mpr (hright v he).1
      · exact absurd (hv.symm.trans hl) (by simp)
  | _ => exact htree.elim

end Tree

/-! ### The two evaluators -/

variable (overflowChecks)

theorem evaluateArithmetic_computes :
    Computes overflowChecks false (evaluateArithmetic floatOp overflowChecks) where
  integers _ _ _ := rfl
  wide h := nomatch h
  refuses op v w hint _ hfloat := by
    rw [evaluateArithmetic]
    · exact ⟨_, rfl⟩
    · exact fun a b hv hw => hint a b ⟨hv, hw⟩
    · exact fun a b hv hw => hfloat a b ⟨hv, hw⟩

theorem constArithmetic_computes :
    Computes overflowChecks true (constArithmetic floatOp overflowChecks) where
  integers op a b := by cases op <;> rfl
  wide _ op a b := by cases op <;> rfl
  refuses op v w hint hbig hfloat := by
    unfold constArithmetic
    split
    · split
      · exact (hint _ _ ⟨rfl, rfl⟩).elim
      · exact (hbig _ _ rfl ⟨rfl, rfl⟩).elim
      · exact ⟨_, rfl⟩
    · split
      · exact (hint _ _ ⟨rfl, rfl⟩).elim
      · exact (hbig _ _ rfl ⟨rfl, rfl⟩).elim
      · exact (hfloat _ _ ⟨rfl, rfl⟩).elim
      · exact ⟨_, rfl⟩

theorem evaluateSelectExpression_evaluates (row : QueryRow) :
    Evaluates overflowChecks row.values false (evaluateArithmetic floatOp overflowChecks)
      (evaluateSelectExpression floatOp overflowChecks row) where
  computes := evaluateArithmetic_computes floatOp overflowChecks
  literal _ := rfl
  column name := by
    rw [evaluateSelectExpression]
    cases row.values name with
    | some v => exact .inl ⟨v, rfl, rfl⟩
    | none => exact .inr ⟨⟨_, rfl⟩, rfl⟩
  aliased _ _ := rfl
  arithmetic _ _ _ := rfl

theorem constantValue_evaluates :
    Evaluates overflowChecks (fun _ => none) true (constArithmetic floatOp overflowChecks)
      (constantValue floatOp overflowChecks) where
  computes := constArithmetic_computes floatOp overflowChecks
  literal _ := rfl
  column _ := .inr ⟨⟨_, rfl⟩, rfl⟩
  aliased expr _ := by
    rw [constantValue, evaluateConstantExpression, constantValue]
    cases evaluateConstantExpression floatOp overflowChecks expr <;> rfl
  arithmetic left op right := by
    rw [constantValue, evaluateConstantExpression, constantValue, constantValue]
    cases evaluateConstantExpression floatOp overflowChecks left with
    | error e => rfl
    | ok l =>
      cases evaluateConstantExpression floatOp overflowChecks right with
      | error e => rfl
      | ok r =>
        change Except.map _ (constArithmetic floatOp overflowChecks op l.1 r.1 >>= _) =
          constArithmetic floatOp overflowChecks op l.1 r.1
        cases constArithmetic floatOp overflowChecks op l.1 r.1 <;> rfl

/-- On int literals the two evaluators end alike, with an int where they have a value. -/
theorem evaluators_agree (row : QueryRow) {expr : SelectExpression} (h : IntLiterals expr) :
    evaluateSelectExpression floatOp overflowChecks row expr =
        constantValue floatOp overflowChecks expr ∧
      ∀ v, constantValue floatOp overflowChecks expr = .ok v → ∃ n, v = .integer n := by
  have hselect := evaluateSelectExpression_evaluates floatOp overflowChecks row
  have hconst := constantValue_evaluates floatOp overflowChecks
  induction expr with
  | literal v =>
    cases v with
    | integer n => exact ⟨rfl, fun v hv => ⟨n, (Except.ok.inj hv).symm⟩⟩
    | _ => exact h.elim
  | aliased expr name ih =>
    rw [hselect.aliased, hconst.aliased]
    exact ih h
  | arithmetic left op right ihl ihr =>
    obtain ⟨hleft, hintl⟩ := ihl h.1
    obtain ⟨hright, hintr⟩ := ihr h.2
    rw [hselect.arithmetic, hconst.arithmetic, hleft, hright]
    cases hl : constantValue floatOp overflowChecks left with
    | error e => exact ⟨rfl, fun v hv => nomatch hv⟩
    | ok l =>
      cases hr : constantValue floatOp overflowChecks right with
      | error e => exact ⟨rfl, fun v hv => nomatch hv⟩
      | ok r =>
        obtain ⟨a, rfl⟩ := hintl l hl
        obtain ⟨b, rfl⟩ := hintr r hr
        have hc := (constArithmetic_computes floatOp overflowChecks).integers op a b
        refine ⟨((evaluateArithmetic_computes floatOp overflowChecks).integers op a b).trans hc.symm,
          fun v hv => ?_⟩
        obtain ⟨n, -, hn⟩ := map_eq_ok.mp (hc.symm.trans hv)
        exact ⟨n, hn.symm⟩
  | _ => exact h.elim

/-- Arithmetic is exact or refused at every node that is evaluated if and only if every operator
    that is applied to exact values fits its width; the two evaluators agree on int literals. -/
theorem arithmetic_exact_iff (row : QueryRow) (expr : SelectExpression) (hrow : IntRow row)
    (htree : IntTree expr) :
    (ExactOrRefused (evaluateSelectExpression floatOp overflowChecks row) row expr ↔
        Fits row.values false expr) ∧
      (ExactOrRefused (constantValue floatOp overflowChecks) row expr ↔
        Fits (fun _ => none) true expr) ∧
      (IntLiterals expr → evaluateSelectExpression floatOp overflowChecks row expr =
        constantValue floatOp overflowChecks expr) :=
  ⟨(evaluateSelectExpression_evaluates floatOp overflowChecks row).exact_iff
      (fun _ _ h => h) hrow htree,
    (constantValue_evaluates floatOp overflowChecks).exact_iff (fun _ _ h => nomatch h) hrow htree,
    fun h => (evaluators_agree floatOp overflowChecks row h).1⟩

/-- A row with the column `n`. -/
def rowWith (n : Int) : QueryRow := ⟨fun name => if name = "n" then some (.integer n) else none, []⟩

/-- Doubles do not occur in the runs below. -/
def noFloats : ArithmeticOperator → UInt64 → UInt64 → UInt64 := fun _ a _ => a

/-- `(n + 1) / 2` over a row where `n` is 20. -/
theorem half_exact :
    ExactOrRefused (evaluateSelectExpression noFloats true (rowWith 20)) (rowWith 20)
      (.arithmetic (.arithmetic (.column "n") .add (.literal (.integer 1))) .divide
        (.literal (.integer 2))) := by
  refine (arithmetic_exact_iff noFloats true (rowWith 20) (.arithmetic
    (.arithmetic (.column "n") .add (.literal (.integer 1))) .divide (.literal (.integer 2))) ?_
    ⟨⟨trivial, trivial⟩, trivial⟩).1.mpr ?_
  · intro name bits h
    simp only [rowWith] at h
    split at h <;> simp at h
  · refine ⟨⟨trivial, fun a ha => ⟨trivial, fun b hb => ?_⟩⟩, fun a ha => ⟨trivial, fun b hb => ?_⟩⟩
    · cases ha
      cases hb
      change InWidth 32 (20 + 1)
      decide
    · cases ha
      cases hb
      change ¬((21 : Int) = least 32 ∧ (2 : Int) = -1)
      decide

/-- The least int divided by -1 panics in every build, stored or as a constant; one more than the
    greatest int panics or is the least one. -/
theorem least_divided :
    (∀ overflowChecks, evaluateSelectExpression noFloats overflowChecks (rowWith (-2147483648))
        (.arithmetic (.column "n") .divide (.literal (.integer (-1)))) = .error .panic) ∧
      (∀ overflowChecks, constantValue noFloats overflowChecks (.arithmetic
        (.literal (.integer (-2147483648))) .modulo (.literal (.integer (-1)))) =
          .error .panic) ∧
      constantValue noFloats true (.arithmetic (.literal (.integer 2147483647)) .add
        (.literal (.integer 1))) = .error .panic ∧
      constantValue noFloats false (.arithmetic (.literal (.integer 2147483647)) .add
        (.literal (.integer 1))) = .ok (.integer (-2147483648)) ∧
      ¬ ∀ overflowChecks row expr, IntRow row → IntTree expr →
        ExactOrRefused (evaluateSelectExpression noFloats overflowChecks row) row expr ∧
          ExactOrRefused (constantValue noFloats overflowChecks) row expr := by
  refine ⟨fun _ => rfl, fun _ => rfl, rfl, rfl, fun h => ?_⟩
  have hpanic := (h true ⟨fun _ => none, []⟩ (.arithmetic (.literal (.integer (-2147483648)))
    .divide (.literal (.integer (-1)))) (fun _ _ h => nomatch h) ⟨trivial, trivial⟩).1
  exact hpanic _ List.mem_cons_self

end Cqlite.Arithmetic
