import Cqlite.Lib.Kleene
import Cqlite.Engine.Murmur3

/-! `WHERE` clauses: the tree (`query/select_ast.rs`), what the row-level evaluator makes of it
    (`select_executor/mod.rs`), and what it means in three-valued logic.

    Comparing two values, matching a `LIKE` pattern and evaluating the operands that are neither
    columns nor literals are parameters. -/

namespace Cqlite

/-- The text of an `Error::query_execution`. -/
abbrev QueryError := String

/-- The fields of `QueryRow` a query reads: the columns that are present and the raw partition key. -/
structure QueryRow where
  values : String → Option Value
  key : Bytes

/-! ### The tree -/

/-- `computed` stands for collection access, arithmetic and `WRITETIME`/`TTL`: the columns it reads
    and what it evaluates to. -/
inductive SelectExpression
  | column (name : String)
  | aggregate (args : List SelectExpression)
  | function (name : String) (args : List SelectExpression)
  | literal (value : Value)
  | bindMarker (index : Nat)
  | computed (columns : List String) (eval : QueryRow → Except QueryError Value)
  | aliased (expr : SelectExpression) (name : String)

inductive ComparisonOperator
  | equal
  | notEqual
  | lessThan
  | lessThanOrEqual
  | greaterThan
  | greaterThanOrEqual
  | in
  | notIn
  | like
  | notLike
  | between
  | notBetween
  | isNull
  | isNotNull
  | regex
  | contains
  | containsKey
  deriving DecidableEq, Repr

inductive ComparisonRightSide
  | value (expr : SelectExpression)
  | valueList (exprs : List SelectExpression)
  | range (start stop : SelectExpression)

structure ComparisonExpression where
  left : SelectExpression
  operator : ComparisonOperator
  right : ComparisonRightSide

inductive WhereExpression
  | comparison (comp : ComparisonExpression)
  | and (exprs : List WhereExpression)
  | or (exprs : List WhereExpression)
  | not (expr : WhereExpression)
  | parentheses (expr : WhereExpression)

/-! ### Comparing values -/

/-- `values_equal`, `try_compare_values_predicate` (`none` when an operand is NaN) and
    `match_like_pattern`. A value does not equal `NULL`, and has no order with it. -/
class ValueOps where
  valuesEqual : Value → Value → Bool
  tryCompare : Value → Value → Except QueryError (Option Ordering)
  matchLikePattern : Bytes → Bytes → Bool
  equal_null : ∀ v : Value, v.isNull = false → valuesEqual v .null = false
  compare_null : ∀ v : Value, v.isNull = false → ∀ o, tryCompare v .null ≠ .ok (some o)

export ValueOps (valuesEqual tryCompare matchLikePattern)

/-- The comparisons on the values the concrete queries use; the general results take any. -/
instance (priority := low) integerOps : ValueOps where
  valuesEqual
    | .integer a, .integer b => a == b
    | .null, .null => true
    | _, _ => false
  tryCompare
    | .integer a, .integer b => .ok (some (compare a b))
    | .null, .null => .ok (some .eq)
    | _, _ => .error "Cannot compare incompatible types"
  matchLikePattern _ _ := false
  equal_null v h := by
    cases v with
    | null => cases h
    | _ => rfl
  compare_null v h o := by
    intro ho
    cases v with
    | null => cases h
    | _ => cases ho

/-- Which orderings a comparison operator accepts. -/
def ComparisonOperator.accepts : ComparisonOperator → Ordering → Bool
  | .lessThan, o => o.isLT
  | .lessThanOrEqual, o => o.isLE
  | .greaterThan, o => o.isGT
  | .greaterThanOrEqual, o => o.isGE
  | _, _ => false

/-! ### The row-level evaluator -/

def evaluateSelectExpression (row : QueryRow) : SelectExpression → Except QueryError Value
  | .column name =>
    match row.values name with
    | some v => .ok v
    | none => .error ("Column not found: " ++ name)
  | .literal v => .ok v
  | .bindMarker i => .error ("Unbound parameter placeholder ?" ++ toString i ++
      " reached execution; parameters must be bound before the query runs")
  | .computed _ eval => eval row
  | .aliased e _ => evaluateSelectExpression row e
  | .aggregate _ => .error ("Aggregate expressions should be processed during aggregation step, " ++
      "not row evaluation")
  | .function _ _ => .error "Function expressions not yet implemented"

section Evaluate

variable [ValueOps]

/-- The four inequalities of `eval_scalar_comparison`. -/
def evalOrdered (op : ComparisonOperator) (l r : Value) : Except QueryError Bool := do
  return (← tryCompare l r).any op.accepts

/-- Membership, up to the first match. -/
def evaluateIn (row : QueryRow) (l : Value) : List SelectExpression → Except QueryError Bool
  | [] => .ok false
  | e :: es => do
    let v ← evaluateSelectExpression row e
    if valuesEqual l v then return true else evaluateIn row l es

def evaluateComparison (row : QueryRow) (comp : ComparisonExpression) : Except QueryError Bool := do
  let l ← evaluateSelectExpression row comp.left
  match comp.operator, comp.right with
  | .isNull, _ => return l.isNull
  | .isNotNull, _ => return !l.isNull
  | .equal, .value e => return valuesEqual l (← evaluateSelectExpression row e)
  | .notEqual, .value e => return !valuesEqual l (← evaluateSelectExpression row e)
  | .lessThan, .value e => evalOrdered .lessThan l (← evaluateSelectExpression row e)
  | .lessThanOrEqual, .value e => evalOrdered .lessThanOrEqual l (← evaluateSelectExpression row e)
  | .greaterThan, .value e => evalOrdered .greaterThan l (← evaluateSelectExpression row e)
  | .greaterThanOrEqual, .value e =>
    evalOrdered .greaterThanOrEqual l (← evaluateSelectExpression row e)
  | .in, .valueList es => evaluateIn row l es
  | .like, .value e =>
    match l, ← evaluateSelectExpression row e with
    | .text s, .text p => return matchLikePattern s p
    | _, _ => return false
  | _, _ => .error "Unsupported comparison operator"

mutual

def evaluateWhereExpression (row : QueryRow) : WhereExpression → Except QueryError Bool
  | .comparison comp => evaluateComparison row comp
  | .and es => evaluateAnd row es
  | .or es => evaluateOr row es
  | .not e => do return !(← evaluateWhereExpression row e)
  | .parentheses e => evaluateWhereExpression row e

/-- The conjuncts up to the first that is false. -/
def evaluateAnd (row : QueryRow) : List WhereExpression → Except QueryError Bool
  | [] => .ok true
  | e :: es => do if ← evaluateWhereExpression row e then evaluateAnd row es else return false

/-- The disjuncts up to the first that is true. -/
def evaluateOr (row : QueryRow) : List WhereExpression → Except QueryError Bool
  | [] => .ok false
  | e :: es => do if ← evaluateWhereExpression row e then return true else evaluateOr row es

end

end Evaluate

/-! ### Three-valued meaning -/

/-- An operand that is absent, or that does not evaluate, is `NULL`. -/
def operandValue (row : QueryRow) (e : SelectExpression) : Value :=
  match evaluateSelectExpression row e with
  | .ok v => v
  | .error _ => .null

def literalValue : SelectExpression → Option Value
  | .literal v => some v
  | _ => none

/-- The left side is a `token(...)` call. -/
def isTokenComparison (comp : ComparisonExpression) : Bool :=
  match comp.left with
  | .function name _ => name.toLower == "token"
  | _ => false

/-- A token bound: the parser's integers are `bigint`. -/
def tokenBound (e : SelectExpression) : Option Int :=
  match literalValue e with
  | some (.bigInt n) => some n
  | some (.integer n) => some n
  | _ => none

/-- A restriction of the partition key's token. -/
def tokenTruth (row : QueryRow) (comp : ComparisonExpression) : Truth :=
  match row.key, comp.right with
  | [], _ => .unknown
  | key, .value e =>
    match tokenBound e, comp.operator with
    | none, _ => .unknown
    | some n, .equal => .ofBool (cassandraMurmur3Token key == n)
    | some n, .notEqual => .ofBool (cassandraMurmur3Token key != n)
    | some n, op => .ofBool (op.accepts (compare (cassandraMurmur3Token key) n))
  | _, _ => .unknown

section Meaning

variable [ValueOps]

def equalTruth (l r : Value) : Truth :=
  if l.isNull || r.isNull then .unknown else .ofBool (valuesEqual l r)

/-- Values without an order (NaN, different types) compare to unknown. -/
def orderTruth (op : ComparisonOperator) (l r : Value) : Truth :=
  if l.isNull || r.isNull then .unknown
  else match tryCompare l r with
    | .ok (some o) => .ofBool (op.accepts o)
    | _ => .unknown

def likeTruth (l r : Value) : Truth :=
  match l, r with
  | .text s, .text p => .ofBool (matchLikePattern s p)
  | _, _ => .unknown

/-- What a comparison says by definition. -/
def comparisonTruth (row : QueryRow) (comp : ComparisonExpression) : Truth :=
  if isTokenComparison comp then tokenTruth row comp
  else
    let l := operandValue row comp.left
    match comp.operator, comp.right with
    | .isNull, _ => .ofBool l.isNull
    | .isNotNull, _ => .ofBool !l.isNull
    | .equal, .value e => equalTruth l (operandValue row e)
    | .notEqual, .value e => (equalTruth l (operandValue row e)).not
    | .lessThan, .value e => orderTruth .lessThan l (operandValue row e)
    | .lessThanOrEqual, .value e => orderTruth .lessThanOrEqual l (operandValue row e)
    | .greaterThan, .value e => orderTruth .greaterThan l (operandValue row e)
    | .greaterThanOrEqual, .value e => orderTruth .greaterThanOrEqual l (operandValue row e)
    | .in, .valueList es => .any (es.map fun e => equalTruth l (operandValue row e))
    | .notIn, .valueList es => (Truth.any (es.map fun e => equalTruth l (operandValue row e))).not
    | .between, .range a b => (orderTruth .greaterThanOrEqual l (operandValue row a)).and
        (orderTruth .lessThanOrEqual l (operandValue row b))
    | .notBetween, .range a b => ((orderTruth .greaterThanOrEqual l (operandValue row a)).and
        (orderTruth .lessThanOrEqual l (operandValue row b))).not
    | .like, .value e => likeTruth l (operandValue row e)
    | .notLike, .value e => (likeTruth l (operandValue row e)).not
    | _, _ => .unknown

mutual

/-- The value of a `WHERE` clause on a row. -/
def whereTruth (row : QueryRow) : WhereExpression → Truth
  | .comparison comp => comparisonTruth row comp
  | .and es => .all (whereTruths row es)
  | .or es => .any (whereTruths row es)
  | .not e => (whereTruth row e).not
  | .parentheses e => whereTruth row e

def whereTruths (row : QueryRow) : List WhereExpression → List Truth
  | [] => []
  | e :: es => whereTruth row e :: whereTruths row es

end

/-! ### The evaluator never contradicts the meaning -/

omit [ValueOps] in
theorem bind_ok {α β : Type} {x : Except QueryError α} {f : α → Except QueryError β} {b : β}
    (h : (x >>= f) = .ok b) : ∃ a, x = .ok a ∧ f a = .ok b := by
  cases x with
  | error e => cases h
  | ok a => exact ⟨a, rfl, h⟩

omit [ValueOps] in
theorem operandValue_of_ok {row : QueryRow} {e : SelectExpression} {v : Value}
    (h : evaluateSelectExpression row e = .ok v) : operandValue row e = v := by
  rw [operandValue, h]

theorem resolves_equalTruth (l r : Value) : Truth.Resolves (valuesEqual l r) (equalTruth l r) := by
  rw [equalTruth]
  split
  · exact .inl rfl
  · exact .inr rfl

variable {b : Bool} {l r : Value}

theorem resolves_orderTruth {op : ComparisonOperator} (h : evalOrdered op l r = .ok b) :
    Truth.Resolves b (orderTruth op l r) := by
  obtain ⟨o, ho, hb⟩ := bind_ok h
  rw [orderTruth]
  split
  · exact .inl rfl
  · rw [ho]
    cases o with
    | none => exact .inl rfl
    | some o =>
      obtain rfl : op.accepts o = b := by simpa using Except.ok.inj hb
      exact .inr rfl

/-- Membership. -/
theorem resolves_in {row : QueryRow} {es : List SelectExpression} (h : evaluateIn row l es = .ok b) :
    Truth.Resolves b (.any (es.map fun e => equalTruth l (operandValue row e))) := by
  induction es with
  | nil =>
    obtain rfl : false = b := Except.ok.inj h
    exact .inr rfl
  | cons e es ih =>
    obtain ⟨v, hv, hb⟩ := bind_ok h
    have heq := resolves_equalTruth l v
    rw [List.map_cons, Truth.any_cons, operandValue_of_ok hv]
    split at hb
    · rename_i hmatch
      obtain rfl : true = b := Except.ok.inj hb
      rw [hmatch] at heq
      exact heq.or_true
    · rename_i hmiss
      rw [Bool.not_eq_true] at hmiss
      rw [hmiss] at heq
      exact heq.or_false (ih hb)

theorem resolves_like
    (h : (match l, r with
      | .text s, .text p => (return matchLikePattern s p : Except QueryError Bool)
      | _, _ => return false) = .ok b) : Truth.Resolves b (likeTruth l r) := by
  unfold likeTruth
  split
  · obtain rfl := Except.ok.inj h
    exact .inr rfl
  · exact .inl rfl

/-- Where the truth is known, it is what the executor returns. -/
theorem resolves_comparison {row : QueryRow} {comp : ComparisonExpression}
    (hok : evaluateComparison row comp = .ok b) : Truth.Resolves b (comparisonTruth row comp) := by
  obtain ⟨left, op, right⟩ := comp
  obtain ⟨l, hl, h⟩ := bind_ok hok
  clear hok
  have htoken : isTokenComparison ⟨left, op, right⟩ = false := by
    rw [isTokenComparison]
    split
    · rename_i hfun
      rw [hfun] at hl
      cases hl
    · rfl
  rw [comparisonTruth, htoken, if_neg Bool.false_ne_true, operandValue_of_ok hl]
  dsimp only at h ⊢
  cases op
  case isNull =>
    obtain rfl := Except.ok.inj h
    exact .inr rfl
  case isNotNull =>
    obtain rfl := Except.ok.inj h
    exact .inr rfl
  case «in» =>
    cases right with
    | valueList es => exact resolves_in h
    | value e => cases h
    | range lo hi => cases h
  case like =>
    cases right with
    | value e =>
      obtain ⟨r, hr, h⟩ := bind_ok h
      dsimp only
      rw [operandValue_of_ok hr]
      exact resolves_like h
    | valueList es => cases h
    | range lo hi => cases h
  case equal =>
    cases right with
    | value e =>
      obtain ⟨r, hr, h⟩ := bind_ok h
      obtain rfl := Except.ok.inj h
      dsimp only
      rw [operandValue_of_ok hr]
      exact resolves_equalTruth l r
    | valueList es => cases h
    | range lo hi => cases h
  case notEqual =>
    cases right with
    | value e =>
      obtain ⟨r, hr, h⟩ := bind_ok h
      obtain rfl := Except.ok.inj h
      dsimp only
      rw [operandValue_of_ok hr]
      exact (resolves_equalTruth l r).not
    | valueList es => cases h
    | range lo hi => cases h
  case lessThan | lessThanOrEqual | greaterThan | greaterThanOrEqual =>
    cases right with
    | value e =>
      obtain ⟨r, hr, h⟩ := bind_ok h
      dsimp only
      rw [operandValue_of_ok hr]
      exact resolves_orderTruth h
    | valueList es => cases h
    | range lo hi => cases h
  -- the other operators do not evaluate
  all_goals cases right <;> cases h

mutual

/-- A `WHERE` clause that evaluates does not contradict its meaning. -/
theorem resolves_where {row : QueryRow} {b : Bool} : ∀ w : WhereExpression,
    evaluateWhereExpression row w = .ok b → Truth.Resolves b (whereTruth row w)
  | .comparison comp, h => by
    rw [evaluateWhereExpression] at h
    rw [whereTruth]
    exact resolves_comparison h
  | .and es, h => by
    rw [evaluateWhereExpression] at h
    rw [whereTruth]
    exact resolves_and es h
  | .or es, h => by
    rw [evaluateWhereExpression] at h
    rw [whereTruth]
    exact resolves_or es h
  | .not e, h => by
    rw [evaluateWhereExpression] at h
    obtain ⟨c, hc, hb⟩ := bind_ok h
    obtain rfl : (!c) = b := Except.ok.inj hb
    rw [whereTruth]
    exact (resolves_where e hc).not
  | .parentheses e, h => by
    rw [evaluateWhereExpression] at h
    rw [whereTruth]
    exact resolves_where e h

theorem resolves_and {row : QueryRow} {b : Bool} : ∀ es : List WhereExpression,
    evaluateAnd row es = .ok b → Truth.Resolves b (.all (whereTruths row es))
  | [], h => by
    rw [evaluateAnd] at h
    obtain rfl := Except.ok.inj h
    rw [whereTruths]
    exact .inr rfl
  | e :: es, h => by
    rw [evaluateAnd] at h
    obtain ⟨c, hc, hb⟩ := bind_ok h
    rw [whereTruths, Truth.all_cons]
    cases c with
    | true => exact (resolves_where e hc).and_true (resolves_and es hb)
    | false =>
      obtain rfl : false = b := Except.ok.inj hb
      exact (resolves_where e hc).and_false

theorem resolves_or {row : QueryRow} {b : Bool} : ∀ es : List WhereExpression,
    evaluateOr row es = .ok b → Truth.Resolves b (.any (whereTruths row es))
  | [], h => by
    rw [evaluateOr] at h
    obtain rfl := Except.ok.inj h
    rw [whereTruths]
    exact .inr rfl
  | e :: es, h => by
    rw [evaluateOr] at h
    obtain ⟨c, hc, hb⟩ := bind_ok h
    rw [whereTruths, Truth.any_cons]
    cases c with
    | true =>
      obtain rfl : true = b := Except.ok.inj hb
      exact (resolves_where e hc).or_true
    | false => exact (resolves_where e hc).or_false (resolves_or es hb)

end

end Meaning

end Cqlite
