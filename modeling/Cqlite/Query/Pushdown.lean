import Cqlite.Query.Where

/-! Predicate pushdown (`query/select_optimizer.rs`, `select_executor/predicate.rs`).

    The optimizer turns the conjuncts it can into predicates of the scan. Only when it finds none does
    it keep the `WHERE` clause as a filter, so whatever it did not push is forgotten. -/

namespace Cqlite

/-! ### Predicates -/

inductive SSTableFilterOp
  | equal
  | range
  | gt
  | gte
  | lt
  | lte
  | in
  | prefixOp
  | bloomFilter
  deriving DecidableEq, Repr

/-- `tokenColumns` is set when the predicate is about the token of the partition key. -/
structure SSTablePredicate where
  column : String
  operation : SSTableFilterOp
  values : List Value
  tokenColumns : Option (List String)

namespace SSTablePredicate

def ofColumn (column : String) (operation : SSTableFilterOp) (values : List Value) :
    SSTablePredicate := ⟨column, operation, values, none⟩

def ofToken (tokenColumns : List String) (operation : SSTableFilterOp) (values : List Value) :
    SSTablePredicate :=
  ⟨"token(" ++ String.intercalate ", " tokenColumns ++ ")", operation, values, some tokenColumns⟩

end SSTablePredicate

/-- Which orderings an inequality accepts. -/
def SSTableFilterOp.accepts : SSTableFilterOp → Ordering → Bool
  | .lt, o => o.isLT
  | .lte, o => o.isLE
  | .gt, o => o.isGT
  | .gte, o => o.isGE
  | _, _ => false

/-! ### Planning -/

def columnComparisonToPredicate (column : String) (comp : ComparisonExpression) :
    Option SSTablePredicate :=
  match comp.operator, comp.right with
  | .equal, .value e => (literalValue e).map fun v => .ofColumn column .equal [v]
  | .in, .valueList es =>
    let values := es.filterMap literalValue
    if values.isEmpty then none else some (.ofColumn column .in values)
  | .between, .range a b =>
    (literalValue a).bind fun start => (literalValue b).map fun stop =>
      .ofColumn column .range [start, stop]
  | .greaterThan, .value e => (literalValue e).map fun v => .ofColumn column .gt [v]
  | .greaterThanOrEqual, .value e => (literalValue e).map fun v => .ofColumn column .gte [v]
  | .lessThan, .value e => (literalValue e).map fun v => .ofColumn column .lt [v]
  | .lessThanOrEqual, .value e => (literalValue e).map fun v => .ofColumn column .lte [v]
  | _, _ => none

/-- The inequalities that are pushed, with their operations. -/
inductive OrderedOp : ComparisonOperator → SSTableFilterOp → Prop
  | gt : OrderedOp .greaterThan .gt
  | gte : OrderedOp .greaterThanOrEqual .gte
  | lt : OrderedOp .lessThan .lt
  | lte : OrderedOp .lessThanOrEqual .lte

/-- The column comparisons that are pushed, with their predicates. -/
inductive PushedColumn (name : String) :
    ComparisonOperator → ComparisonRightSide → SSTablePredicate → Prop
  | equal {e : SelectExpression} {v : Value} (h : literalValue e = some v) :
      PushedColumn name .equal (.value e) (.ofColumn name .equal [v])
  | isIn (es : List SelectExpression) :
      PushedColumn name .in (.valueList es) (.ofColumn name .in (es.filterMap literalValue))
  | between {a b : SelectExpression} {lo hi : Value} (hlo : literalValue a = some lo)
      (hhi : literalValue b = some hi) :
      PushedColumn name .between (.range a b) (.ofColumn name .range [lo, hi])
  | ordered {op : ComparisonOperator} {sop : SSTableFilterOp} {e : SelectExpression} {v : Value}
      (hop : OrderedOp op sop) (h : literalValue e = some v) :
      PushedColumn name op (.value e) (.ofColumn name sop [v])

variable {name : String} {op : ComparisonOperator} {p : SSTablePredicate}
  {comp : ComparisonExpression}

theorem pushedColumn {left : SelectExpression} {right : ComparisonRightSide}
    (h : columnComparisonToPredicate name ⟨left, op, right⟩ = some p) :
    PushedColumn name op right p := by
  unfold columnComparisonToPredicate at h
  dsimp only at h
  split at h
  · obtain ⟨v, hv, rfl⟩ := Option.map_eq_some_iff.1 h
    exact .equal hv
  · split at h
    · cases h
    · cases h
      exact .isIn _
  · obtain ⟨lo, hlo, h⟩ := Option.bind_eq_some_iff.1 h
    obtain ⟨hi, hhi, rfl⟩ := Option.map_eq_some_iff.1 h
    exact .between hlo hhi
  · obtain ⟨v, hv, rfl⟩ := Option.map_eq_some_iff.1 h
    exact .ordered .gt hv
  · obtain ⟨v, hv, rfl⟩ := Option.map_eq_some_iff.1 h
    exact .ordered .gte hv
  · obtain ⟨v, hv, rfl⟩ := Option.map_eq_some_iff.1 h
    exact .ordered .lt hv
  · obtain ⟨v, hv, rfl⟩ := Option.map_eq_some_iff.1 h
    exact .ordered .lte hv
  · cases h

/-- The partition-key columns a token is computed over. -/
def tokenColumns : List SelectExpression → Except QueryError (List String)
  | [] => .ok []
  | .column name :: args => (tokenColumns args).map (name :: ·)
  | _ :: _ => .error "token() argument must be a partition-key column"

def tokenOperator : ComparisonOperator → Except QueryError SSTableFilterOp
  | .greaterThan => .ok .gt
  | .greaterThanOrEqual => .ok .gte
  | .lessThan => .ok .lt
  | .lessThanOrEqual => .ok .lte
  | .equal => .ok .equal
  | _ => .error ("unsupported token() restriction operator; " ++
      "token() supports only range bounds (<, <=, >, >=) and equality (=)")

def tokenComparisonToPredicate (args : List SelectExpression) (comp : ComparisonExpression) :
    Except QueryError SSTablePredicate := do
  let columns ← tokenColumns args
  if columns.isEmpty then
    .error "token() restriction requires at least one partition-key column argument"
  else
    let op ← tokenOperator comp.operator
    match comp.right with
    | .value e =>
      match tokenBound e with
      | some n => .ok (.ofToken columns op [.bigInt n])
      | none => .error "token() restriction bound must be an integer token value"
    | _ => .error "token() restriction requires a single integer token bound on the right-hand side"

def comparisonToSstablePredicate (comp : ComparisonExpression) :
    Except QueryError (Option SSTablePredicate) :=
  match comp.left with
  | .column name => .ok (columnComparisonToPredicate name comp)
  | .function name args =>
    if name.toLower == "token" then (tokenComparisonToPredicate args comp).map some else .ok none
  | _ => .ok none

mutual

/-- Disjunctions and negations are skipped. -/
def collectSstablePredicates : WhereExpression → Except QueryError (List SSTablePredicate)
  | .comparison comp => do return (← comparisonToSstablePredicate comp).toList
  | .and es => collectAll es
  | .parentheses e => collectSstablePredicates e
  | .or _ => .ok []
  | .not _ => .ok []

def collectAll : List WhereExpression → Except QueryError (List SSTablePredicate)
  | [] => .ok []
  | e :: es => do return (← collectSstablePredicates e) ++ (← collectAll es)

end

mutual

def validateTokenFormsWholeTree (pushable : Bool) : WhereExpression → Except QueryError Unit
  | .comparison comp =>
    if isTokenComparison comp then do
      let _ ← comparisonToSstablePredicate comp
      if pushable then .ok ()
      else .error ("token() restriction is only supported at the top level or within an " ++
        "AND conjunction; token() under OR/NOT cannot be pushed down and the " ++
        "row-level evaluator cannot compute a token, so it is rejected rather than silently ignored")
    else .ok ()
  | .and es => validateAll pushable es
  | .or es => validateAll false es
  | .not e => validateTokenFormsWholeTree false e
  | .parentheses e => validateTokenFormsWholeTree pushable e

def validateAll (pushable : Bool) : List WhereExpression → Except QueryError Unit
  | [] => .ok ()
  | e :: es => do
    validateTokenFormsWholeTree pushable e
    validateAll pushable es

end

/-- What `optimize` makes of a `WHERE` clause: the predicates of the scan, and the filter step. -/
structure PushdownPlan where
  sstablePredicates : List SSTablePredicate
  filter : Option WhereExpression

def planWhere (w : WhereExpression) : Except QueryError PushdownPlan := do
  validateTokenFormsWholeTree true w
  let predicates ← collectSstablePredicates w
  return ⟨predicates, if predicates.isEmpty then some w else none⟩

/-! ### Execution -/

section Execute

variable [ValueOps]

/-- `compare_values_ordering_predicate`: values without an order count as equal. -/
def compareValuesOrderingPredicate (a b : Value) : Option Ordering :=
  match tryCompare a b with
  | .ok o => o
  | .error _ => some .eq

/-- A column predicate on the value of its column. -/
def matchesColumn (p : SSTablePredicate) (v : Value) : Bool :=
  match p.operation with
  | .equal => p.values.head?.any fun b => valuesEqual v b
  | .in => p.values.any fun b => valuesEqual v b
  | .range =>
    match p.values with
    | lo :: hi :: _ => (compareValuesOrderingPredicate v lo).any (·.isGE) &&
        (compareValuesOrderingPredicate v hi).any (·.isLE)
    | _ => false
  | .prefixOp =>
    match v, p.values.head? with
    | .text s, some (.text start) => start.isPrefixOf s
    | _, _ => false
  | .bloomFilter => true
  | op => p.values.head?.any fun b => (compareValuesOrderingPredicate v b).any op.accepts

/-- `LeafOutcome` is a truth value. -/
def evaluateLeaf (row : QueryRow) (p : SSTablePredicate) : Truth :=
  if p.tokenColumns.isSome then
    match row.key, p.values.head?, p.operation with
    | [], _, _ => .unknown
    | key, some (.bigInt bound), .equal => .ofBool (cassandraMurmur3Token key == bound)
    | key, some (.bigInt bound), .gt => .ofBool (cassandraMurmur3Token key > bound)
    | key, some (.bigInt bound), .gte => .ofBool (cassandraMurmur3Token key ≥ bound)
    | key, some (.bigInt bound), .lt => .ofBool (cassandraMurmur3Token key < bound)
    | key, some (.bigInt bound), .lte => .ofBool (cassandraMurmur3Token key ≤ bound)
    | _, _, _ => .unknown
  else
    match row.values p.column with
    | none => .unknown
    | some .null => .unknown
    | some v => .ofBool (matchesColumn p v)

def evaluatePredicates (row : QueryRow) (predicates : List SSTablePredicate) : Bool :=
  predicates.all fun p => evaluateLeaf row p = .true

/-- Whether the scan and the filter step let a row through. -/
def PushdownPlan.keeps (plan : PushdownPlan) (row : QueryRow) : Except QueryError Bool :=
  if evaluatePredicates row plan.sstablePredicates then
    match plan.filter with
    | none => .ok true
    | some w => evaluateWhereExpression row w
  else .ok false

end Execute

/-! ### Conjuncts -/

mutual

/-- The conjuncts the optimizer looks at, through `AND` and parentheses. -/
def conjuncts : WhereExpression → List WhereExpression
  | .and es => conjunctsAll es
  | .parentheses e => conjuncts e
  | .comparison comp => [.comparison comp]
  | .or es => [.or es]
  | .not e => [.not e]

def conjunctsAll : List WhereExpression → List WhereExpression
  | [] => []
  | e :: es => conjuncts e ++ conjunctsAll es

end

/-- The predicate a conjunct is pushed as. -/
def pushedAs : WhereExpression → Option SSTablePredicate
  | .comparison comp =>
    match comparisonToSstablePredicate comp with
    | .ok p => p
    | .error _ => none
  | _ => none

theorem pushedAs_eq_some {e : WhereExpression} (h : pushedAs e = some p) :
    ∃ comp, e = .comparison comp ∧ comparisonToSstablePredicate comp = .ok (some p) := by
  unfold pushedAs at h
  split at h
  · rename_i comp
    split at h
    · rename_i q hq
      exact ⟨comp, rfl, hq.trans (congrArg _ h)⟩
    · cases h
  · cases h

theorem pushed_cases (h : comparisonToSstablePredicate comp = .ok (some p)) :
    (∃ name, comp.left = .column name ∧ columnComparisonToPredicate name comp = some p) ∨
      ∃ args, isTokenComparison comp = true ∧ tokenComparisonToPredicate args comp = .ok p := by
  unfold comparisonToSstablePredicate at h
  split at h
  · rename_i name hleft
    exact .inl ⟨name, hleft, Except.ok.inj h⟩
  · rename_i name args hleft
    split at h
    · rename_i htoken
      refine .inr ⟨args, by rw [isTokenComparison, hleft]; exact htoken, ?_⟩
      cases hq : tokenComparisonToPredicate args comp with
      | error e =>
        rw [hq] at h
        cases h
      | ok q =>
        rw [hq] at h
        rw [Option.some.inj (Except.ok.inj h)]
    · cases h
  · cases h

mutual

theorem collect_eq {predicates : List SSTablePredicate} : ∀ w : WhereExpression,
    collectSstablePredicates w = .ok predicates → predicates = (conjuncts w).filterMap pushedAs
  | .comparison comp, h => by
    rw [collectSstablePredicates] at h
    obtain ⟨p, hp, hret⟩ := bind_ok h
    obtain rfl := Except.ok.inj hret
    rw [conjuncts]
    cases p <;> simp [pushedAs, hp]
  | .and es, h => by
    rw [collectSstablePredicates] at h
    rw [conjuncts]
    exact collectAll_eq es h
  | .parentheses e, h => by
    rw [collectSstablePredicates] at h
    rw [conjuncts]
    exact collect_eq e h
  | .or es, h => by
    rw [collectSstablePredicates] at h
    obtain rfl := Except.ok.inj h
    rw [conjuncts]
    rfl
  | .not e, h => by
    rw [collectSstablePredicates] at h
    obtain rfl := Except.ok.inj h
    rw [conjuncts]
    rfl

theorem collectAll_eq {predicates : List SSTablePredicate} : ∀ es : List WhereExpression,
    collectAll es = .ok predicates → predicates = (conjunctsAll es).filterMap pushedAs
  | [], h => by
    rw [collectAll] at h
    obtain rfl := Except.ok.inj h
    rw [conjunctsAll]
    rfl
  | e :: es, h => by
    rw [collectAll] at h
    obtain ⟨first, hfirst, h⟩ := bind_ok h
    obtain ⟨rest, hrest, hret⟩ := bind_ok h
    obtain rfl := Except.ok.inj hret
    rw [conjunctsAll, List.filterMap_append, collect_eq e hfirst, collectAll_eq es hrest]

end

section Meaning

variable [ValueOps] {row : QueryRow}

mutual

theorem whereTruth_conjuncts : ∀ w : WhereExpression,
    whereTruth row w = .true ↔ ∀ e ∈ conjuncts w, whereTruth row e = .true
  | .comparison comp => by
    rw [conjuncts]
    simp only [List.mem_singleton, forall_eq]
  | .or es => by
    rw [conjuncts]
    simp only [List.mem_singleton, forall_eq]
  | .not e => by
    rw [conjuncts]
    simp only [List.mem_singleton, forall_eq]
  | .parentheses e => by
    rw [conjuncts, whereTruth]
    exact whereTruth_conjuncts e
  | .and es => by
    rw [conjuncts, whereTruth]
    exact whereTruths_conjuncts es

theorem whereTruths_conjuncts : ∀ es : List WhereExpression,
    Truth.all (whereTruths row es) = .true ↔ ∀ e ∈ conjunctsAll es, whereTruth row e = .true
  | [] => by
    rw [conjunctsAll, whereTruths]
    simp
  | e :: es => by
    rw [conjunctsAll, whereTruths, Truth.all_cons, Truth.and_eq_true, whereTruth_conjuncts e,
      whereTruths_conjuncts es]
    simp only [List.mem_append, or_imp, forall_and]

end

/-! ### One predicate -/

/-- An `IN` none of whose literals matches: what it still matches is not in the predicate. -/
def NoLiteralMatches (row : QueryRow) (comp : ComparisonExpression) : Prop :=
  ∃ es, comp.operator = .in ∧ comp.right = .valueList es ∧
    ∀ v ∈ es.filterMap literalValue, valuesEqual (operandValue row comp.left) v = false

/-- A pushed comparison that holds only because values without an order count as equal. -/
def SwallowedOrder (row : QueryRow) (comp : ComparisonExpression) : Prop :=
  ∃ p, comparisonToSstablePredicate comp = .ok (some p) ∧ p.tokenColumns = none ∧
    evaluateLeaf row p = .true ∧ p.operation ∈ [.range, .gt, .gte, .lt, .lte] ∧
    ∃ b ∈ p.values, ∃ e, tryCompare (operandValue row comp.left) b = .error e

variable {e : SelectExpression} {l r : Value} {w : WhereExpression}

omit [ValueOps] in
theorem operandValue_of_literal {v : Value} (h : literalValue e = some v) :
    operandValue row e = v := by
  unfold literalValue at h
  split at h
  · obtain rfl := Option.some.inj h
    rfl
  · cases h

/-- A column predicate holds when the column has a value and it matches. -/
theorem leaf_ofColumn {op : SSTableFilterOp} {values : List Value} :
    evaluateLeaf row (.ofColumn name op values) = .true ↔
      (operandValue row (.column name)).isNull = false ∧
        matchesColumn (.ofColumn name op values) (operandValue row (.column name)) = true := by
  simp only [evaluateLeaf, SSTablePredicate.ofColumn, Option.isSome_none, Bool.false_eq_true, if_false,
    operandValue, evaluateSelectExpression]
  cases hv : row.values name with
  | none => simp [Value.isNull]
  | some v =>
    cases v with
    | null => simp [Value.isNull]
    | _ => simp [Value.isNull]

theorem equalTruth_eq_true :
    equalTruth l r = .true ↔ l.isNull = false ∧ valuesEqual l r = true := by
  rw [equalTruth]
  cases hl : l.isNull with
  | true => simp
  | false =>
    cases hr : r.isNull with
    | true =>
      rw [Value.eq_null hr, ValueOps.equal_null l hl]
      simp
    | false => simp

/-- The scan's reading of an inequality: what it says, or equality of values without an order. -/
theorem ordered_iff {accepts : Ordering → Bool} (hop : ∀ o, accepts o = op.accepts o) {v b : Value}
    (hv : v.isNull = false) :
    (compareValuesOrderingPredicate v b).any accepts = true ↔
      orderTruth op v b = .true ∨ (accepts .eq = true ∧ ∃ e, tryCompare v b = .error e) := by
  rw [compareValuesOrderingPredicate, orderTruth, hv]
  cases hc : tryCompare v b with
  | error e => cases hb : b.isNull <;> simp
  | ok o =>
    cases o with
    | none => cases hb : b.isNull <;> simp
    | some o =>
      have hb : b.isNull = false := by
        rw [← Bool.not_eq_true]
        intro hb
        exact ValueOps.compare_null v hv o (Value.eq_null hb ▸ hc)
      simp [hb, hop]

theorem isNull_of_orderTruth (h : orderTruth op l r = .true) : l.isNull = false := by
  rw [← Bool.not_eq_true]
  intro hl
  simp [orderTruth, hl] at h

theorem swallowedOrder_iff (hp : comparisonToSstablePredicate comp = .ok (some p)) :
    SwallowedOrder row comp ↔ p.tokenColumns = none ∧ evaluateLeaf row p = .true ∧
      p.operation ∈ [.range, .gt, .gte, .lt, .lte] ∧
      ∃ b ∈ p.values, ∃ e, tryCompare (operandValue row comp.left) b = .error e := by
  constructor
  · rintro ⟨q, hq, h⟩
    rw [hp] at hq
    obtain rfl : p = q := Option.some.inj (Except.ok.inj hq)
    exact h
  · exact fun h => ⟨p, hp, h⟩

theorem OrderedOp.matchesColumn {op : ComparisonOperator} {sop : SSTableFilterOp}
    (h : OrderedOp op sop) (name : String) (v w : Value) :
    matchesColumn (.ofColumn name sop [w]) v =
      (compareValuesOrderingPredicate v w).any op.accepts := by
  cases h <;> rfl

theorem leaf_ordered {w : Value} {sop : SSTableFilterOp} (hop : OrderedOp op sop)
    (hlit : literalValue e = some w) :
    evaluateLeaf row (.ofColumn name sop [w]) = .true ↔
      orderTruth op (operandValue row (.column name)) (operandValue row e) = .true ∨
        (evaluateLeaf row (.ofColumn name sop [w]) = .true ∧
          ∃ err, tryCompare (operandValue row (.column name)) w = .error err) := by
  rw [operandValue_of_literal hlit, leaf_ofColumn, hop.matchesColumn]
  constructor
  · rintro ⟨hn, hm⟩
    rcases (ordered_iff (fun _ => rfl) hn).mp hm with h | ⟨-, herr⟩
    · exact .inl h
    · exact .inr ⟨⟨hn, hm⟩, herr⟩
  · rintro (h | ⟨h, -⟩)
    · have hn := isNull_of_orderTruth h
      exact ⟨hn, (ordered_iff (fun _ => rfl) hn).mpr (.inl h)⟩
    · exact h

theorem leaf_range {a b : SelectExpression} {lo hi : Value} (hlo : literalValue a = some lo)
    (hhi : literalValue b = some hi) :
    evaluateLeaf row (.ofColumn name .range [lo, hi]) = .true ↔
      ((orderTruth .greaterThanOrEqual (operandValue row (.column name)) (operandValue row a)).and
        (orderTruth .lessThanOrEqual (operandValue row (.column name)) (operandValue row b))) = .true ∨
        (evaluateLeaf row (.ofColumn name .range [lo, hi]) = .true ∧
          ∃ w ∈ [lo, hi], ∃ err, tryCompare (operandValue row (.column name)) w = .error err) := by
  have hmatch : ∀ v, matchesColumn (.ofColumn name .range [lo, hi]) v = true ↔
      (compareValuesOrderingPredicate v lo).any (·.isGE) = true ∧
        (compareValuesOrderingPredicate v hi).any (·.isLE) = true := by
    intro v
    exact Bool.and_eq_true_iff
  rw [operandValue_of_literal hlo, operandValue_of_literal hhi, Truth.and_eq_true, leaf_ofColumn,
    hmatch]
  constructor
  · rintro ⟨hn, hge, hle⟩
    rcases (ordered_iff (@rfl _ <| ComparisonOperator.greaterThanOrEqual.accepts ·) hn).mp hge with
      hlo | ⟨-, herr⟩
    · rcases (ordered_iff (@rfl _ <| ComparisonOperator.lessThanOrEqual.accepts ·) hn).mp hle with
        hhi | ⟨-, herr⟩
      · exact .inl ⟨hlo, hhi⟩
      · exact .inr ⟨⟨hn, hge, hle⟩, hi, by simp, herr⟩
    · exact .inr ⟨⟨hn, hge, hle⟩, lo, by simp, herr⟩
  · rintro (⟨hlo, hhi⟩ | ⟨h, -⟩)
    · have hn := isNull_of_orderTruth hlo
      exact ⟨hn, (ordered_iff (fun _ => rfl) hn).mpr (.inl hlo),
        (ordered_iff (fun _ => rfl) hn).mpr (.inl hhi)⟩
    · exact h

theorem leaf_equal {w : Value} (hlit : literalValue e = some w) :
    evaluateLeaf row (.ofColumn name .equal [w]) = .true ↔
      equalTruth (operandValue row (.column name)) (operandValue row e) = .true := by
  have hmatch : ∀ v, matchesColumn (.ofColumn name .equal [w]) v = valuesEqual v w := fun _ => rfl
  rw [operandValue_of_literal hlit, leaf_ofColumn, hmatch, equalTruth_eq_true]

/-- A pushed `IN`: the literals that match. -/
theorem leaf_in {es : List SelectExpression} :
    evaluateLeaf row (.ofColumn name .in (es.filterMap literalValue)) = .true ↔
      Truth.any (es.map fun e => equalTruth (operandValue row (.column name)) (operandValue row e)) =
          .true ∧
        ¬ ∀ v ∈ es.filterMap literalValue,
          valuesEqual (operandValue row (.column name)) v = false := by
  have hmatch : ∀ v, matchesColumn (.ofColumn name .in (es.filterMap literalValue)) v = true ↔
      ∃ b ∈ es.filterMap literalValue, valuesEqual v b = true := by
    intro v
    exact List.any_eq_true
  simp only [leaf_ofColumn, hmatch, Truth.any_eq_true, List.mem_map, exists_exists_and_eq_and,
    equalTruth_eq_true, not_forall, Bool.not_eq_false, exists_prop]
  constructor
  · rintro ⟨hn, b, hb, heq⟩
    obtain ⟨e, he, hlit⟩ := List.mem_filterMap.mp hb
    refine ⟨⟨e, he, hn, ?_⟩, b, hb, heq⟩
    rw [operandValue_of_literal hlit]
    exact heq
  · rintro ⟨⟨-, -, hn, -⟩, b, hb, heq⟩
    exact ⟨hn, b, hb, heq⟩

/-- A pushed comparison holds when it is true and not only through an element that was dropped, or
    when an order was swallowed. -/
theorem leaf_column {right : ComparisonRightSide}
    (hp : columnComparisonToPredicate name ⟨.column name, op, right⟩ = some p) :
    evaluateLeaf row p = .true ↔
      (comparisonTruth row ⟨.column name, op, right⟩ = .true ∧
        ¬ NoLiteralMatches row ⟨.column name, op, right⟩) ∨
        SwallowedOrder row ⟨.column name, op, right⟩ := by
  have hpush : comparisonToSstablePredicate ⟨.column name, op, right⟩ = .ok (some p) :=
    congrArg Except.ok hp
  rw [swallowedOrder_iff hpush, comparisonTruth, isTokenComparison, if_neg Bool.false_ne_true]
  cases pushedColumn hp with
  | equal hw =>
    refine (leaf_equal hw).trans ?_
    simp [NoLiteralMatches, SSTablePredicate.ofColumn]
  | isIn es =>
    refine leaf_in.trans ?_
    simp [NoLiteralMatches, SSTablePredicate.ofColumn]
  | between hlo hhi =>
    refine (leaf_range hlo hhi).trans ?_
    simp [NoLiteralMatches, SSTablePredicate.ofColumn]
  | ordered hop hw =>
    refine (leaf_ordered hop hw).trans ?_
    cases hop <;> simp [NoLiteralMatches, SSTablePredicate.ofColumn]

omit [ValueOps] in
theorem accepts_compare (a b : Int) :
    (ComparisonOperator.greaterThan.accepts (compare a b) = true ↔ b < a) ∧
    (ComparisonOperator.greaterThanOrEqual.accepts (compare a b) = true ↔ b ≤ a) ∧
    (ComparisonOperator.lessThan.accepts (compare a b) = true ↔ a < b) ∧
    (ComparisonOperator.lessThanOrEqual.accepts (compare a b) = true ↔ a ≤ b) := by
  simp only [ComparisonOperator.accepts, Ordering.isGT_iff_eq_gt, Int.compare_eq_gt, Int.isGE_compare,
    Ordering.isLT_iff_eq_lt, Int.compare_eq_lt, Int.isLE_compare, and_self]

/-- A pushed token comparison means the same. -/
theorem leaf_token {args : List SelectExpression} {comp : ComparisonExpression} {p : SSTablePredicate}
    (hp : tokenComparisonToPredicate args comp = .ok p) :
    p.tokenColumns.isSome = true ∧ comp.operator ≠ .in ∧
      (evaluateLeaf row p = .true ↔ tokenTruth row comp = .true) := by
  obtain ⟨columns, -, hp⟩ := bind_ok hp
  split at hp
  · cases hp
  obtain ⟨op, hop, hp⟩ := bind_ok hp
  obtain ⟨left, cop, right⟩ := comp
  cases right with
  | valueList es => cases hp
  | range lo hi => cases hp
  | value e =>
    dsimp only at hop hp
    split at hp
    · rename_i n hn
      obtain rfl := Except.ok.inj hp
      refine ⟨rfl, ?_, ?_⟩
      · rintro rfl
        cases hop
      · cases hkey : row.key with
        | nil => simp [evaluateLeaf, SSTablePredicate.ofToken, tokenTruth, hkey]
        | cons b key =>
          cases cop
          case equal | greaterThan | greaterThanOrEqual | lessThan | lessThanOrEqual =>
            obtain rfl := Except.ok.inj hop
            simp [evaluateLeaf, SSTablePredicate.ofToken, tokenTruth, hkey, hn, accepts_compare]
          all_goals cases hop
    · cases hp

/-- A comparison that is true only through an element of its `IN` list that is not a literal. -/
def DroppedElement (row : QueryRow) (comp : ComparisonExpression) : Prop :=
  comparisonTruth row comp = .true ∧ NoLiteralMatches row comp

/-- A pushed comparison holds when it is true, unless an element was dropped, and when an order was
    swallowed. -/
theorem leaf_iff (hp : comparisonToSstablePredicate comp = .ok (some p)) :
    evaluateLeaf row p = .true ↔
      (comparisonTruth row comp = .true ∧ ¬ DroppedElement row comp) ∨ SwallowedOrder row comp := by
  have hdrop : (comparisonTruth row comp = .true ∧ ¬ DroppedElement row comp) ↔
      comparisonTruth row comp = .true ∧ ¬ NoLiteralMatches row comp := by
    refine and_congr_right fun htrue => ?_
    rw [DroppedElement, and_iff_right htrue]
  rw [hdrop]
  rcases pushed_cases hp with ⟨name, hleft, hcol⟩ | ⟨args, htoken, hq⟩
  · obtain ⟨left, op, right⟩ := comp
    obtain rfl : left = .column name := hleft
    exact leaf_column hcol
  · obtain ⟨hcols, hin, hiff⟩ := @leaf_token _ row _ _ _ hq
    have hnot : ¬ NoLiteralMatches row comp := by
      rintro ⟨es, hop, -⟩
      exact hin hop
    have hswallow : ¬ SwallowedOrder row comp := by
      rw [swallowedOrder_iff hp]
      rintro ⟨hnone, -⟩
      rw [hnone] at hcols
      cases hcols
    rw [comparisonTruth, if_pos htoken, hiff]
    exact ⟨fun h => .inl ⟨h, hnot⟩, fun h => (h.resolve_right hswallow).1⟩

/-! ### The plan -/

/-- Something was pushed. A row all predicates accept fulfils the conjuncts that were not pushed, and no
    order was swallowed; a row they reject is not rejected only for a dropped element. -/
structure PushedFaithful (row : QueryRow) (w : WhereExpression) (predicates : List SSTablePredicate) :
    Prop where
  kept : evaluatePredicates row predicates = true →
    (∀ comp, .comparison comp ∈ conjuncts w → ¬ SwallowedOrder row comp) ∧
      ∀ e ∈ conjuncts w, pushedAs e = none → whereTruth row e = .true
  rejected : evaluatePredicates row predicates = false →
    (∃ comp p, .comparison comp ∈ conjuncts w ∧
      comparisonToSstablePredicate comp = .ok (some p) ∧ evaluateLeaf row p ≠ .true ∧
        ¬ DroppedElement row comp) ∨
    (∃ comp, .comparison comp ∈ conjuncts w ∧ SwallowedOrder row comp) ∨
    ∃ e ∈ conjuncts w, pushedAs e = none ∧ whereTruth row e ≠ .true

/-- What the two-valued filter makes of a clause whose leaves evaluate on the row: it goes through the
    parts up to the one that decides. -/
inductive ReadsAs (row : QueryRow) : WhereExpression → Bool → Prop
  | leaf {comp : ComparisonExpression} {b : Bool} (h : evaluateComparison row comp = .ok b) :
      ReadsAs row (.comparison comp) b
  | andTrue {es : List WhereExpression} (h : ∀ e ∈ es, ReadsAs row e true) : ReadsAs row (.and es) true
  | andFalse {front back : List WhereExpression} {e : WhereExpression}
      (hfront : ∀ e ∈ front, ReadsAs row e true) (h : ReadsAs row e false) :
      ReadsAs row (.and (front ++ e :: back)) false
  | orFalse {es : List WhereExpression} (h : ∀ e ∈ es, ReadsAs row e false) : ReadsAs row (.or es) false
  | orTrue {front back : List WhereExpression} {e : WhereExpression}
      (hfront : ∀ e ∈ front, ReadsAs row e false) (h : ReadsAs row e true) :
      ReadsAs row (.or (front ++ e :: back)) true
  | not {e : WhereExpression} {b : Bool} (h : ReadsAs row e b) : ReadsAs row (.not e) (!b)
  | parentheses {e : WhereExpression} {b : Bool} (h : ReadsAs row e b) : ReadsAs row (.parentheses e) b

theorem evaluateAnd_append {front : List WhereExpression}
    (h : ∀ e ∈ front, evaluateWhereExpression row e = .ok true) (back : List WhereExpression) :
    evaluateAnd row (front ++ back) = evaluateAnd row back := by
  induction front with
  | nil => rfl
  | cons e front ih =>
    obtain ⟨he, hfront⟩ := List.forall_mem_cons.1 h
    rw [List.cons_append, evaluateAnd, he]
    exact ih hfront

theorem evaluateOr_append {front : List WhereExpression}
    (h : ∀ e ∈ front, evaluateWhereExpression row e = .ok false) (back : List WhereExpression) :
    evaluateOr row (front ++ back) = evaluateOr row back := by
  induction front with
  | nil => rfl
  | cons e front ih =>
    obtain ⟨he, hfront⟩ := List.forall_mem_cons.1 h
    rw [List.cons_append, evaluateOr, he]
    exact ih hfront

theorem ReadsAs.evaluates {w : WhereExpression} {b : Bool} (h : ReadsAs row w b) :
    evaluateWhereExpression row w = .ok b := by
  induction h with
  | leaf h => rwa [evaluateWhereExpression]
  | andTrue _ ih =>
    have h := evaluateAnd_append ih []
    rwa [List.append_nil, evaluateAnd, ← evaluateWhereExpression] at h
  | andFalse _ _ hfront ih =>
    rw [evaluateWhereExpression, evaluateAnd_append hfront, evaluateAnd, ih]
    rfl
  | orFalse _ ih =>
    have h := evaluateOr_append ih []
    rwa [List.append_nil, evaluateOr, ← evaluateWhereExpression] at h
  | orTrue _ _ hfront ih =>
    rw [evaluateWhereExpression, evaluateOr_append hfront, evaluateOr, ih]
    rfl
  | not _ ih =>
    rw [evaluateWhereExpression, ih]
    rfl
  | parentheses _ ih => rwa [evaluateWhereExpression]

mutual

theorem reads_of_evaluates {b : Bool} : ∀ w : WhereExpression,
    evaluateWhereExpression row w = .ok b → ReadsAs row w b
  | .comparison comp, h => by
    rw [evaluateWhereExpression] at h
    exact .leaf h
  | .and es, h => by
    rw [evaluateWhereExpression] at h
    exact reads_of_and [] es (by simp) h
  | .or es, h => by
    rw [evaluateWhereExpression] at h
    exact reads_of_or [] es (by simp) h
  | .not e, h => by
    rw [evaluateWhereExpression] at h
    obtain ⟨c, hc, hb⟩ := bind_ok h
    obtain rfl := Except.ok.inj hb
    exact .not (reads_of_evaluates e hc)
  | .parentheses e, h => by
    rw [evaluateWhereExpression] at h
    exact .parentheses (reads_of_evaluates e h)

theorem reads_of_and {b : Bool} (front : List WhereExpression) : ∀ es : List WhereExpression,
    (∀ e ∈ front, ReadsAs row e true) → evaluateAnd row es = .ok b → ReadsAs row (.and (front ++ es)) b
  | [], hfront, h => by
    rw [evaluateAnd] at h
    obtain rfl := Except.ok.inj h
    rw [List.append_nil]
    exact .andTrue hfront
  | e :: es, hfront, h => by
    rw [evaluateAnd] at h
    obtain ⟨c, hc, hb⟩ := bind_ok h
    cases c with
    | true =>
      have hmore : ∀ x ∈ front ++ [e], ReadsAs row x true := by
        simpa [or_imp, forall_and] using ⟨hfront, reads_of_evaluates e hc⟩
      have hread := reads_of_and (front ++ [e]) es hmore hb
      rwa [List.append_assoc] at hread
    | false =>
      obtain rfl := Except.ok.inj hb
      exact .andFalse hfront (reads_of_evaluates e hc)

theorem reads_of_or {b : Bool} (front : List WhereExpression) : ∀ es : List WhereExpression,
    (∀ e ∈ front, ReadsAs row e false) → evaluateOr row es = .ok b → ReadsAs row (.or (front ++ es)) b
  | [], hfront, h => by
    rw [evaluateOr] at h
    obtain rfl := Except.ok.inj h
    rw [List.append_nil]
    exact .orFalse hfront
  | e :: es, hfront, h => by
    rw [evaluateOr] at h
    obtain ⟨c, hc, hb⟩ := bind_ok h
    cases c with
    | true =>
      obtain rfl := Except.ok.inj hb
      exact .orTrue hfront (reads_of_evaluates e hc)
    | false =>
      have hmore : ∀ x ∈ front ++ [e], ReadsAs row x false := by
        simpa [or_imp, forall_and] using ⟨hfront, reads_of_evaluates e hc⟩
      have hread := reads_of_or (front ++ [e]) es hmore hb
      rwa [List.append_assoc] at hread

end

/-- Nothing was pushed. The leaves do not make an unknown clause read as true, and those of a true one
    evaluate, up to the ones that decide it. -/
structure ResidualFaithful (row : QueryRow) (w : WhereExpression) : Prop where
  known : whereTruth row w = .unknown → ¬ ReadsAs row w true
  evaluates : whereTruth row w = .true → ∃ b, ReadsAs row w b

/-- The row-level evaluator keeps the rows on which the clause is true, exactly when it is faithful. -/
theorem residual_iff :
    (evaluateWhereExpression row w = .ok true ↔ whereTruth row w = .true) ↔
      ResidualFaithful row w := by
  constructor
  · intro h
    refine ⟨fun hu hreads => ?_, fun ht => ⟨true, reads_of_evaluates w (h.mpr ht)⟩⟩
    rw [h.mp hreads.evaluates] at hu
    cases hu
  · rintro ⟨hknown, hev⟩
    constructor
    · intro hok
      rcases resolves_where w hok with hu | ht
      · exact absurd (reads_of_evaluates w hok) (hknown hu)
      · exact ht
    · intro ht
      obtain ⟨b, hb⟩ := hev ht
      rcases resolves_where w hb.evaluates with hu | hb'
      · rw [ht] at hu
        cases hu
      · rw [ht] at hb'
        rw [hb.evaluates, Truth.ofBool_eq_true.mp hb'.symm]

theorem orderTruth_of_error {e : QueryError} (h : tryCompare l r = .error e) :
    orderTruth op l r ≠ .true := by
  rw [orderTruth, h]
  split
  · simp
  · simp

theorem SwallowedOrder.not_true (h : SwallowedOrder row comp) :
    comparisonTruth row comp ≠ .true := by
  obtain ⟨p, hp, hcols, -, hop, b, hb, e, he⟩ := h
  rcases pushed_cases hp with ⟨name, hleft, hp⟩ | ⟨args, -, hq⟩
  · obtain ⟨left, op, right⟩ := comp
    obtain rfl : left = .column name := hleft
    rw [comparisonTruth, isTokenComparison, if_neg Bool.false_ne_true]
    cases pushedColumn hp with
    | equal => simp [SSTablePredicate.ofColumn] at hop
    | isIn => simp [SSTablePredicate.ofColumn] at hop
    | between hlo hhi =>
      dsimp only
      rw [operandValue_of_literal hlo, operandValue_of_literal hhi, Ne, Truth.and_eq_true]
      rintro ⟨hge, hle⟩
      rcases List.mem_cons.mp hb with rfl | hb
      · exact orderTruth_of_error he hge
      · obtain rfl := List.mem_singleton.mp hb
        exact orderTruth_of_error he hle
    | ordered hpushed hw =>
      obtain rfl := List.mem_singleton.mp hb
      cases hpushed
      all_goals
        dsimp only
        rw [operandValue_of_literal hw]
        exact orderTruth_of_error he
  · have hsome := (@leaf_token _ row _ _ _ hq).1
    rw [hcols] at hsome
    cases hsome

omit [ValueOps] in
theorem mem_predicates {predicates : List SSTablePredicate}
    (h : collectSstablePredicates w = .ok predicates) :
    p ∈ predicates ↔ ∃ comp, .comparison comp ∈ conjuncts w ∧
      comparisonToSstablePredicate comp = .ok (some p) := by
  rw [collect_eq w h, List.mem_filterMap]
  constructor
  · rintro ⟨e, he, hp⟩
    obtain ⟨comp, rfl, hcomp⟩ := pushedAs_eq_some hp
    exact ⟨comp, he, hcomp⟩
  · rintro ⟨comp, he, hcomp⟩
    exact ⟨.comparison comp, he, by rw [pushedAs, hcomp]⟩

/-- The scan keeps the rows on which the clause is true, exactly when pushing was faithful. -/
theorem pushed_iff {predicates : List SSTablePredicate}
    (h : collectSstablePredicates w = .ok predicates) :
    (evaluatePredicates row predicates = true ↔ whereTruth row w = .true) ↔
      PushedFaithful row w predicates := by
  have hall : evaluatePredicates row predicates = true ↔
      ∀ p ∈ predicates, evaluateLeaf row p = .true := by
    simp [evaluatePredicates]
  rw [whereTruth_conjuncts]
  constructor
  · intro hiff
    refine ⟨?_, ?_⟩
    · intro hkept
      have htrue := hiff.mp hkept
      refine ⟨fun comp hmem hswallow => hswallow.not_true ?_, fun e he _ => htrue e he⟩
      have := htrue _ hmem
      rwa [whereTruth] at this
    · intro hrej
      have hfalse : ¬ ∀ e ∈ conjuncts w, whereTruth row e = .true := by
        rw [← hiff, hrej]
        exact Bool.false_ne_true
      simp only [not_forall] at hfalse
      obtain ⟨e, he, hne⟩ := hfalse
      cases hp : pushedAs e with
      | none => exact .inr (.inr ⟨e, he, hp, hne⟩)
      | some p =>
        obtain ⟨comp, rfl, hcomp⟩ := pushedAs_eq_some hp
        rw [whereTruth] at hne
        by_cases hswallow : SwallowedOrder row comp
        · exact .inr (.inl ⟨comp, he, hswallow⟩)
        · refine .inl ⟨comp, p, he, hcomp, ?_, fun hdrop => hne hdrop.1⟩
          rw [Ne, leaf_iff hcomp]
          rintro (⟨htrue, -⟩ | hs)
          · exact hne htrue
          · exact hswallow hs
  · rintro ⟨hkept, hrej⟩
    constructor
    · intro hok e he
      obtain ⟨hsound, hrest⟩ := hkept hok
      cases hp : pushedAs e with
      | none => exact hrest e he hp
      | some p =>
        obtain ⟨comp, rfl, hcomp⟩ := pushedAs_eq_some hp
        have hleaf := hall.mp hok p ((mem_predicates h).mpr ⟨comp, he, hcomp⟩)
        rw [whereTruth]
        exact (((leaf_iff hcomp).mp hleaf).resolve_right (hsound comp he)).1
    · intro htrue
      by_contra hno
      rw [Bool.not_eq_true] at hno
      rcases hrej hno with ⟨comp, p, he, hcomp, hleaf, hdrop⟩ | ⟨comp, he, hs⟩ | ⟨e, he, -, hne⟩
      · have := htrue _ he
        rw [whereTruth] at this
        exact hleaf ((leaf_iff hcomp).mpr (.inl ⟨this, hdrop⟩))
      · have := htrue _ he
        rw [whereTruth] at this
        exact hs.not_true this
      · exact hne (htrue e he)

/-- The plan of a `WHERE` clause keeps a row exactly when the clause is true on it, if and only if what
    was pushed says the same as the clause on that row, or, with nothing pushed, the filter does. -/
theorem pushdown_keeps_where_iff (w : WhereExpression) (plan : PushdownPlan) (row : QueryRow)
    (hplan : planWhere w = .ok plan) :
    (plan.keeps row = .ok true ↔ whereTruth row w = .true) ↔
      (plan.sstablePredicates = [] → ResidualFaithful row w) ∧
        (plan.sstablePredicates ≠ [] → PushedFaithful row w plan.sstablePredicates) := by
  obtain ⟨-, -, hplan⟩ := bind_ok hplan
  obtain ⟨predicates, hcollect, hret⟩ := bind_ok hplan
  obtain rfl := Except.ok.inj hret
  by_cases hnil : predicates = []
  · subst hnil
    simp only [PushdownPlan.keeps, evaluatePredicates, List.all_nil, List.isEmpty_nil, if_true,
      ne_eq, not_true_eq_false, false_implies, and_true, true_implies]
    exact residual_iff
  · have hne : predicates.isEmpty = false := by
      rw [← Bool.not_eq_true, List.isEmpty_iff]
      exact hnil
    simp only [PushdownPlan.keeps, hne, Bool.false_eq_true, if_false, hnil, false_implies, true_and,
      ne_eq, not_false_eq_true, true_implies]
    rw [← pushed_iff hcollect]
    cases evaluatePredicates row predicates <;> simp

end Meaning

/-! ### A forgotten disjunction -/

/-- `column op n`. -/
def compareTo (column : String) (op : ComparisonOperator) (n : Int) : WhereExpression :=
  .comparison ⟨.column column, op, .value (.literal (.integer n))⟩

/-- The row `a = 1, b = 5`. -/
def exampleRow : QueryRow where
  values name := if name = "a" then some (.integer 1) else if name = "b" then some (.integer 5) else none
  key := [1]

/-- `WHERE a = 1 AND b > 2`: both conjuncts are pushed. -/
def pushedClause : WhereExpression := .and [compareTo "a" .equal 1, compareTo "b" .greaterThan 2]

/-- `WHERE a = 1 AND (b = 2 OR b = 3)`: the disjunction is not. -/
def forgottenClause : WhereExpression :=
  .and [compareTo "a" .equal 1, .parentheses (.or [compareTo "b" .equal 2, compareTo "b" .equal 3])]

/-- Nothing is forgotten when every conjunct is pushed. -/
theorem pushed_clause_kept :
    ∃ plan, planWhere pushedClause = .ok plan ∧
      (plan.keeps exampleRow = .ok true ↔ whereTruth exampleRow pushedClause = .true) := by
  refine ⟨_, rfl, (pushdown_keeps_where_iff pushedClause _ exampleRow rfl).mpr ⟨nofun, fun _ => ?_⟩⟩
  have hconj : conjuncts pushedClause = [compareTo "a" .equal 1, compareTo "b" .greaterThan 2] := by
    simp [pushedClause, conjuncts, conjunctsAll, compareTo]
  refine ⟨fun _ => ⟨?_, ?_⟩, fun hrej => absurd hrej (by decide)⟩
  · intro comp hmem
    rw [hconj] at hmem
    rcases List.mem_cons.mp hmem with heq | hmem
    · obtain rfl := WhereExpression.comparison.inj heq
      rw [swallowedOrder_iff rfl]
      rintro ⟨-, -, hop, -⟩
      exact absurd hop (by decide)
    · obtain rfl := WhereExpression.comparison.inj (List.mem_singleton.mp hmem)
      rw [swallowedOrder_iff rfl]
      rintro ⟨-, -, -, b, hb, e, he⟩
      obtain rfl := List.mem_singleton.mp hb
      cases he
  · intro e he hnone
    rw [hconj] at he
    rcases List.mem_cons.mp he with rfl | he
    · cases hnone
    · obtain rfl := List.mem_singleton.mp he
      cases hnone

/-- The row is returned although the clause is false on it. -/
theorem disjunction_forgotten :
    ∃ plan, planWhere forgottenClause = .ok plan ∧ plan.keeps exampleRow = .ok true ∧
      whereTruth exampleRow forgottenClause = .false := by
  refine ⟨_, rfl, ?_, ?_⟩
  · decide
  · decide

end Cqlite
