import Cqlite.Query.Compare

/-! A pushed predicate and the comparison it comes from (`evaluate_leaf` of
    `select_executor/predicate.rs`, `evaluate_comparison` of `mod.rs`).

    The row-level evaluator reports operands it cannot compare; the scan counts them as equal. -/

namespace Cqlite

section Agreement

variable [ValueOps]

/-- The right-hand sides an ordering comparison looks at. -/
def orderOperands : ComparisonOperator → ComparisonRightSide → List Value
  | .between, .range a b => (literalValue a).toList ++ (literalValue b).toList
  | .lessThan, .value e => (literalValue e).toList
  | .lessThanOrEqual, .value e => (literalValue e).toList
  | .greaterThan, .value e => (literalValue e).toList
  | .greaterThanOrEqual, .value e => (literalValue e).toList
  | _, _ => []

/-- The column's value has no order with an operand. -/
def Incomparable (row : QueryRow) (column : String) (comp : ComparisonExpression) : Prop :=
  ∃ v, row.values column = some v ∧
    ∃ w ∈ orderOperands comp.operator comp.right, ∃ e, tryCompare v w = .error e

/-- The scan finds a row where the row-level evaluator says true, and no row whose value has no
    order with an operand. -/
def LeafAgrees (row : QueryRow) (column : String) (comp : ComparisonExpression)
    (p : SSTablePredicate) : Prop :=
  (∀ b, evaluateComparison row comp = .ok b → (evaluateLeaf row p = .true ↔ b = true)) ∧
    (Incomparable row column comp → evaluateLeaf row p ≠ .true)

/-! ### The condition -/

/-- Where a membership test is true, the value is not null and equals a literal of the list. -/
def DecidedByLiteral (row : QueryRow) (v : Value) (es : List SelectExpression) : Prop :=
  ∀ before e after w, es = before ++ e :: after →
    (∀ x ∈ before, ∃ u, evaluateSelectExpression row x = .ok u) →
    evaluateSelectExpression row e = .ok w → valuesEqual v w = true →
    v.isNull = false ∧ ∃ u, u ∈ es.filterMap literalValue ∧ valuesEqual v u = true

/-- A null is not compared with a null, and another value only with what it has an order with. -/
def HasOrder (v w : Value) : Prop :=
  if v.isNull then w.isNull = false else ∃ o, tryCompare v w = .ok o

/-- Both bounds have an order with the value, or one of them rejects it. -/
def RangeOrdered (v lo hi : Value) : Prop :=
  (∃ o o', tryCompare v lo = .ok o ∧ tryCompare v hi = .ok o') ∨
    (∃ o, tryCompare v lo = .ok o ∧ o.any (·.isGE) = false) ∨
    ∃ o, tryCompare v hi = .ok o ∧ o.any (·.isLE) = false

/-- When the two agree on a value of the column. -/
def LeafAgreesOn (row : QueryRow) (v : Value) : ComparisonOperator → ComparisonRightSide → Prop
  | .equal, .value e => v.isNull = true → literalValue e ≠ some .null
  | .in, .valueList es => DecidedByLiteral row v es
  | .lessThanOrEqual, .value e => ∀ w, literalValue e = some w → HasOrder v w
  | .greaterThanOrEqual, .value e => ∀ w, literalValue e = some w → HasOrder v w
  | .between, .range a b => ∀ lo hi, literalValue a = some lo → literalValue b = some hi →
      v.isNull = false → RangeOrdered v lo hi
  | _, _ => True

/-- What the comparisons make of a null on the left. -/
structure NullLeft : Prop where
  equal : ∀ w : Value, valuesEqual .null w = w.isNull
  compare_null : tryCompare .null .null = .ok (some .eq)
  compare_value : ∀ w : Value, w.isNull = false → ∀ o, tryCompare .null w ≠ .ok (some o)

/-! ### Evaluation on a present value -/

variable {row : QueryRow} {column : String} {v w : Value}

variable {e : SelectExpression} {es : List SelectExpression} {op : ComparisonOperator}

omit [ValueOps] in
theorem literal_of_value (h : literalValue e = some w) : e = .literal w := by
  cases e <;> simp_all [literalValue]

/-- A column predicate holds of a present value when that is not null and matches. -/
theorem leaf_value (hv : row.values column = some v) (op : SSTableFilterOp) (values : List Value) :
    evaluateLeaf row (.ofColumn column op values) = .true ↔
      v.isNull = false ∧ matchesColumn (.ofColumn column op values) v = true := by
  have hvalue : operandValue row (.column column) = v := by
    rw [operandValue, evaluateSelectExpression, hv]
  rw [leaf_ofColumn, hvalue]

/-- Membership is true when an element that evaluates, after others that do, is equal. -/
theorem evaluateIn_true_iff :
    evaluateIn row v es = .ok true ↔ ∃ before e after w, es = before ++ e :: after ∧
      (∀ x ∈ before, ∃ u, evaluateSelectExpression row x = .ok u) ∧
      evaluateSelectExpression row e = .ok w ∧ valuesEqual v w = true := by
  induction es with
  | nil => simp [evaluateIn]
  | cons x es ih =>
    rw [evaluateIn]
    cases hx : evaluateSelectExpression row x with
    | error err =>
      refine ⟨fun h => (nomatch (show (.error err : Except QueryError Bool) = .ok true from h)), ?_⟩
      rintro ⟨before, e, after, w, heq, hbefore, he, -⟩
      cases before with
      | nil =>
        obtain ⟨rfl, -⟩ := List.cons.inj heq
        rw [hx] at he
        cases he
      | cons y before =>
        obtain ⟨rfl, -⟩ := List.cons.inj heq
        obtain ⟨u, hu⟩ := hbefore x List.mem_cons_self
        rw [hx] at hu
        cases hu
    | ok u =>
      have hstep : (do
          let v' ← (.ok u : Except QueryError Value)
          if valuesEqual v v' then return true else evaluateIn row v es) =
          if valuesEqual v u then .ok true else evaluateIn row v es := rfl
      rw [hstep]
      by_cases hu : valuesEqual v u = true
      · rw [if_pos hu]
        exact ⟨fun _ => ⟨[], x, es, u, rfl, nofun, hx, hu⟩, fun _ => rfl⟩
      · rw [if_neg hu, ih]
        constructor
        · rintro ⟨before, e, after, w, rfl, hbefore, he, hw⟩
          refine ⟨x :: before, e, after, w, rfl, fun y hy => ?_, he, hw⟩
          rcases List.mem_cons.1 hy with rfl | hy
          · exact ⟨u, hx⟩
          · exact hbefore y hy
        · rintro ⟨before, e, after, w, heq, hbefore, he, hw⟩
          cases before with
          | nil =>
            obtain ⟨rfl, -⟩ := List.cons.inj heq
            rw [hx] at he
            cases he
            exact absurd hw hu
          | cons y before =>
            obtain ⟨rfl, rfl⟩ := List.cons.inj heq
            refine ⟨before, e, after, w, rfl, fun z hz => ?_, he, hw⟩
            exact hbefore z (List.mem_cons_of_mem _ hz)

theorem not_equal_of_evaluateIn (h : evaluateIn row v es = .ok false) :
    ∀ u ∈ es.filterMap literalValue, valuesEqual v u = false := by
  induction es with
  | nil => exact nofun
  | cons x es ih =>
    rw [evaluateIn] at h
    obtain ⟨u, hu, h⟩ := bind_ok h
    split at h
    · cases h
    · rename_i hne
      intro w hw
      obtain ⟨y, hy, hlit⟩ := List.mem_filterMap.1 hw
      rcases List.mem_cons.1 hy with rfl | hy
      · rw [literal_of_value hlit] at hu
        cases hu
        exact Bool.not_eq_true _ ▸ hne
      · exact ih h w (List.mem_filterMap.2 ⟨y, hy, hlit⟩)

/-! ### Ordering comparisons -/

/-- The row-level evaluator on operands with an order, or with none. -/
theorem evalOrdered_eq (op : ComparisonOperator) :
    evalOrdered op v w = (tryCompare v w).map (·.any op.accepts) := by
  rw [evalOrdered]
  cases tryCompare v w <;> rfl

/-- The two agree on an inequality when it is strict or its operands have an order. -/
theorem ordered_agrees_iff (hnull : NullLeft) {leaf : Truth}
    (hleaf : leaf = .true ↔ v.isNull = false ∧
      (compareValuesOrderingPredicate v w).any op.accepts = true) :
    ((∀ b, evalOrdered op v w = .ok b → (leaf = .true ↔ b = true)) ∧
        ((∃ e, tryCompare v w = .error e) → leaf ≠ .true)) ↔
      (op.accepts .eq = true → HasOrder v w) := by
  rw [evalOrdered_eq, HasOrder, Ne, hleaf, compareValuesOrderingPredicate]
  cases hv : v.isNull with
  | true =>
    rw [Value.eq_null hv]
    cases hw : w.isNull with
    | true =>
      rw [Value.eq_null hw, hnull.compare_null]
      simp [Except.map]
    | false =>
      cases htry : tryCompare .null w with
      | error e => simp [Except.map]
      | ok o =>
        cases o with
        | none => simp [Except.map]
        | some o => exact absurd htry (hnull.compare_value w hw o)
  | false =>
    cases htry : tryCompare v w with
    | ok o => simp [Except.map]
    | error e => simp [Except.map]

/-- The two agree on a range when both bounds have an order with the value or one rejects it. -/
theorem range_agrees_iff {lo hi : Value} :
    ((∃ b ∈ [lo, hi], ∃ e, tryCompare v b = .error e) →
        ¬ ((compareValuesOrderingPredicate v lo).any (·.isGE) = true ∧
          (compareValuesOrderingPredicate v hi).any (·.isLE) = true)) ↔ RangeOrdered v lo hi := by
  rw [RangeOrdered, compareValuesOrderingPredicate, compareValuesOrderingPredicate]
  cases hlo : tryCompare v lo with
  | error e =>
    cases hhi : tryCompare v hi with
    | error e' => simp [hlo, hhi]
    | ok o' => simp [hlo, hhi]
  | ok o =>
    cases hhi : tryCompare v hi with
    | error e' => simp [hlo, hhi]
    | ok o' => simp [hlo, hhi]

theorem in_agrees_iff :
    (∀ b, evaluateIn row v es = .ok b →
      ((v.isNull = false ∧ (es.filterMap literalValue).any (fun u => valuesEqual v u) = true) ↔
        b = true)) ↔ DecidedByLiteral row v es := by
  simp only [List.any_eq_true]
  constructor
  · intro h before e after w heq hbefore he hw
    exact (h true (evaluateIn_true_iff.2 ⟨before, e, after, w, heq, hbefore, he, hw⟩)).2 rfl
  · intro h b hb
    cases b with
    | true =>
      obtain ⟨before, e, after, w, heq, hbefore, he, hw⟩ := evaluateIn_true_iff.1 hb
      exact iff_of_true (h before e after w heq hbefore he hw) rfl
    | false =>
      refine iff_of_false ?_ Bool.false_ne_true
      rintro ⟨-, u, hu, heq⟩
      rw [not_equal_of_evaluateIn hb u hu] at heq
      cases heq

/-! ### Every pushed comparison -/

theorem leafAgrees_of_absent (hv : row.values column = none) {right : ComparisonRightSide}
    {p : SSTablePredicate} : LeafAgrees row column ⟨.column column, op, right⟩ p := by
  constructor
  · intro b hb
    obtain ⟨l, hl, -⟩ := bind_ok hb
    rw [evaluateSelectExpression, hv] at hl
    cases hl
  · rintro ⟨v, hv', -⟩
    rw [hv] at hv'
    cases hv'

/-- Agreement on a present value, with the row-level evaluation `r` of the comparison. -/
theorem leafAgrees_of_present (hv : row.values column = some v) {right : ComparisonRightSide}
    {p : SSTablePredicate} {r : Except QueryError Bool}
    (hr : evaluateComparison row ⟨.column column, op, right⟩ = r) :
    LeafAgrees row column ⟨.column column, op, right⟩ p ↔
      (∀ b, r = .ok b → (evaluateLeaf row p = .true ↔ b = true)) ∧
        ((∃ w ∈ orderOperands op right, ∃ e, tryCompare v w = .error e) →
          evaluateLeaf row p ≠ .true) := by
  subst hr
  refine and_congr_right' (imp_congr ?_ Iff.rfl)
  constructor
  · rintro ⟨v', hv', h⟩
    rw [hv] at hv'
    cases hv'
    exact h
  · exact fun h => ⟨v, hv, h⟩

theorem leafAgrees_equal (hnull : NullLeft) (hv : row.values column = some v)
    (he : literalValue e = some w) :
    LeafAgrees row column ⟨.column column, .equal, .value e⟩ (.ofColumn column .equal [w]) ↔
      (v.isNull = true → w.isNull = false) := by
  have hr : evaluateComparison row ⟨.column column, .equal, .value e⟩ = .ok (valuesEqual v w) := by
    rw [literal_of_value he]
    simp only [evaluateComparison, evaluateSelectExpression, hv]
    rfl
  have hmatch : matchesColumn (.ofColumn column .equal [w]) v = valuesEqual v w := rfl
  rw [leafAgrees_of_present hv hr, leaf_value hv, hmatch]
  cases hn : v.isNull with
  | true =>
    rw [Value.eq_null hn, hnull.equal]
    simp [orderOperands]
  | false => simp [orderOperands]

/-- An inequality agrees when it is strict or its operands have an order. -/
theorem leafAgrees_ordered (hnull : NullLeft) (hv : row.values column = some v)
    (he : literalValue e = some w) {sop : SSTableFilterOp} (hop : OrderedOp op sop) :
    LeafAgrees row column ⟨.column column, op, .value e⟩ (.ofColumn column sop [w]) ↔
      (op.accepts .eq = true → HasOrder v w) := by
  have hr : evaluateComparison row ⟨.column column, op, .value (.literal w)⟩ = evalOrdered op v w := by
    cases hop
    all_goals
      simp only [evaluateComparison, evaluateSelectExpression, hv]
      rfl
  have hoperands : orderOperands op (.value (.literal w)) = [w] := by
    cases hop <;> rfl
  have hleaf := leaf_value hv sop [w]
  rw [hop.matchesColumn] at hleaf
  rw [literal_of_value he, leafAgrees_of_present hv hr, hoperands, ← ordered_agrees_iff hnull hleaf]
  simp

theorem leafAgrees_in (hv : row.values column = some v) :
    LeafAgrees row column ⟨.column column, .in, .valueList es⟩
      (.ofColumn column .in (es.filterMap literalValue)) ↔ DecidedByLiteral row v es := by
  have hr : evaluateComparison row ⟨.column column, .in, .valueList es⟩ = evaluateIn row v es := by
    simp only [evaluateComparison, evaluateSelectExpression, hv]
    rfl
  have hmatch : matchesColumn (.ofColumn column .in (es.filterMap literalValue)) v =
      (es.filterMap literalValue).any (fun u => valuesEqual v u) := rfl
  rw [leafAgrees_of_present hv hr, leaf_value hv, hmatch, in_agrees_iff]
  simp [orderOperands]

/-- A range, which the row-level evaluator does not take, agrees when a bound without an order is
    not needed. -/
theorem leafAgrees_between (hv : row.values column = some v) {a b : SelectExpression}
    {lo hi : Value} (ha : literalValue a = some lo) (hb : literalValue b = some hi) :
    LeafAgrees row column ⟨.column column, .between, .range a b⟩
        (.ofColumn column .range [lo, hi]) ↔
      (v.isNull = false → RangeOrdered v lo hi) := by
  have hr : evaluateComparison row ⟨.column column, .between, .range a b⟩ =
      .error "Unsupported comparison operator" := by
    simp only [evaluateComparison, evaluateSelectExpression, hv]
    rfl
  have hmatch : matchesColumn (.ofColumn column .range [lo, hi]) v = true ↔
      (compareValuesOrderingPredicate v lo).any (·.isGE) = true ∧
        (compareValuesOrderingPredicate v hi).any (·.isLE) = true := Bool.and_eq_true_iff
  have hoperands : orderOperands .between (.range a b) = [lo, hi] := by
    rw [orderOperands, ha, hb]
    rfl
  rw [leafAgrees_of_present hv hr, Ne, leaf_value hv, hmatch, hoperands, ← range_agrees_iff]
  cases hn : v.isNull with
  | true => simp
  | false => simp

theorem leafAgrees_iff (hnull : NullLeft) {op : ComparisonOperator} {right : ComparisonRightSide}
    {p : SSTablePredicate}
    (hp : columnComparisonToPredicate column ⟨.column column, op, right⟩ = some p) :
    LeafAgrees row column ⟨.column column, op, right⟩ p ↔
      ∀ v, row.values column = some v → LeafAgreesOn row v op right := by
  cases hv : row.values column with
  | none => exact iff_of_true (leafAgrees_of_absent hv) nofun
  | some v =>
    have hall : (∀ v', some v = some v' → LeafAgreesOn row v' op right) ↔
        LeafAgreesOn row v op right := by
      simp
    rw [hall]
    cases pushedColumn hp with
    | @equal e w hw =>
      refine (leafAgrees_equal hnull hv hw).trans ?_
      rw [LeafAgreesOn, hw]
      cases w <;> simp [Value.isNull]
    | isIn es => exact leafAgrees_in hv
    | between hlo hhi =>
      refine (leafAgrees_between hv hlo hhi).trans ?_
      simp [LeafAgreesOn, hlo, hhi]
    | ordered hop hw =>
      refine (leafAgrees_ordered hnull hv hw hop).trans ?_
      cases hop <;> simp [LeafAgreesOn, ComparisonOperator.accepts, hw]

end Agreement

/-! ### The comparisons of the source -/

variable (display : Value → String) (matchLikePattern : Bytes → Bytes → Bool)

theorem sourceOps_nullLeft : @NullLeft (sourceOps display matchLikePattern) := by
  refine @NullLeft.mk (sourceOps display matchLikePattern) ?_ rfl ?_
  · intro w
    change Value.valuesEqual .null w = _
    cases w <;> simp [Value.valuesEqual, Value.partialEq, Value.asIntegralI128, Value.asF64,
      Value.isNull]
  · intro w hw o
    change Value.tryCompareValuesPredicate display .null w ≠ _
    rw [Value.tryCompareValuesPredicate, Value.isNanValue_null, Bool.false_or]
    split
    · rintro ⟨⟩
    · cases w with
      | null => cases hw
      | _ => rintro ⟨⟩

/-- A pushed comparison agrees with the row-level evaluator exactly when its operands do. -/
theorem pushed_agrees_iff {row : QueryRow} {column : String} {comp : ComparisonExpression}
    {p : SSTablePredicate} (hleft : comp.left = .column column)
    (hp : columnComparisonToPredicate column comp = some p) :
    @LeafAgrees (sourceOps display matchLikePattern) row column comp p ↔
      ∀ v, row.values column = some v →
        @LeafAgreesOn (sourceOps display matchLikePattern) row v comp.operator comp.right := by
  obtain ⟨left, op, right⟩ := comp
  cases hleft
  exact @leafAgrees_iff (sourceOps display matchLikePattern) row column
    (sourceOps_nullLeft display matchLikePattern) op right p hp

/-- `v <= 7` on a row with `v = 5`. -/
theorem small_integer_agrees :
    @LeafAgrees (sourceOps (fun _ => "") fun _ _ => false)
      ⟨fun name => if name = "v" then some (.integer 5) else none, [1]⟩ "v"
      ⟨.column "v", .lessThanOrEqual, .value (.literal (.integer 7))⟩
      (.ofColumn "v" .lte [.integer 7]) := by
  refine (pushed_agrees_iff (fun _ => "") (fun _ _ => false) rfl rfl).2 ?_
  rintro v hv w hw
  cases hv
  cases hw
  exact ⟨_, rfl⟩

/-- `v <= 7` on a row with `v = 'a'`: the row-level evaluator reports the types, the scan
    matches. -/
theorem text_below_integer :
    ¬ ∀ (row : QueryRow) (column : String) (comp : ComparisonExpression) (p : SSTablePredicate),
      comp.left = .column column → columnComparisonToPredicate column comp = some p →
        @LeafAgrees (sourceOps (fun _ => "") fun _ _ => false) row column comp p := by
  intro h
  refine (h ⟨fun name => if name = "v" then some (.text [97]) else none, [1]⟩ "v"
    ⟨.column "v", .lessThanOrEqual, .value (.literal (.integer 7))⟩ _ rfl rfl).2 ?_ rfl
  exact ⟨.text [97], rfl, .integer 7, List.mem_singleton_self _, _, rfl⟩

end Cqlite
