import Cqlite.Lib.Extremum
import Cqlite.Query.Aggregation
import Cqlite.Query.IntegerOrder
import Mathlib.SetTheory.Cardinal.Order

/-! One aggregate over the rows of a group: its definition, and when the executor computes it.

    By definition it is the count, sum, quotient or extremum of the values that are not null. The
    executor counts values it is to count once, has zero as the sum of nothing but nulls, wraps its
    averages at 64 bits, and compares doubles or written forms for its extrema. -/

namespace Cqlite

/-! ### The reference -/

/-- An order of the values of each type: integers by number, text and UUIDs by their bytes. -/
structure ColumnOrder where
  le : Value → Value → Prop
  refl : ∀ v, le v v
  total : ∀ v w, v.ctorIdx = w.ctorIdx → le v w ∨ le w v
  antisymm : ∀ v w, v.ctorIdx = w.ctorIdx → le v w → le w v → v = w
  trans : ∀ u v w, u.ctorIdx = v.ctorIdx → v.ctorIdx = w.ctorIdx → le u v → le v w → le u w
  integers : ∀ v w a b, v.ctorIdx = w.ctorIdx → v.asI64 = some a → w.asI64 = some b → (le v w ↔ a ≤ b)
  text : ∀ a b, le (.text a) (.text b) ↔ (compare a b).isLE
  uuid : ∀ a b, le (.uuid a) (.uuid b) ↔ (compare a b).isLE

variable {v w : Value} {n : Int}

section Somehow

/-- Some linear order of all values. -/
noncomputable local instance someOrder : LinearOrder Value := WellOrderingRel.isWellOrder.linearOrder

/-- The bytes text and UUIDs are ordered by. -/
def orderBytes : Value → Bytes
  | .text s => s
  | .uuid s => s
  | _ => []

/-- By number, by bytes, and then somehow. -/
noncomputable def compareTyped : Value → Value → Ordering :=
  compareLex (compareOn fun v => v.asI64.getD 0)
    (compareLex (compareOn orderBytes) (compareOn fun v => v))

instance : Std.TransCmp compareTyped := by
  unfold compareTyped
  infer_instance

theorem eq_of_compareTyped (h : compareTyped v w = .eq) : v = w := by
  rw [compareTyped, compareLex_eq_eq, compareLex_eq_eq] at h
  exact compare_eq_iff_eq.1 h.2.2

/-- The first comparison decides where only equal values tie in it. -/
theorem isLE_compareLex {first second : Value → Value → Ordering} [Std.ReflCmp second]
    (h : first v w = .eq → v = w) : (compareLex first second v w).isLE = (first v w).isLE := by
  unfold compareLex
  cases hc : first v w with
  | lt | gt => rfl
  | eq =>
    rw [h hc, @Std.ReflCmp.compare_self _ second _ w]
    rfl

theorem isLE_compareTyped_bytes (hv : v.asI64 = none) (hw : w.asI64 = none)
    (h : orderBytes v = orderBytes w → v = w) :
    (compareTyped v w).isLE = (compare (orderBytes v) (orderBytes w)).isLE := by
  have hnumber : compareOn (fun v : Value => v.asI64.getD 0) v w = .eq := by
    simp [compareOn, hv, hw]
  have hrest : compareTyped v w = compareLex (compareOn orderBytes) (compareOn fun v => v) v w := by
    rw [compareTyped, compareLex, hnumber]
    rfl
  rw [hrest, isLE_compareLex fun heq => h (Std.LawfulEqCmp.eq_of_compare heq)]
  rfl

end Somehow

theorem eq_of_asI64 (h : v.ctorIdx = w.ctorIdx) (hv : v.asI64 = some n) (hw : w.asI64 = some n) :
    v = w := by
  cases v <;> cases hv <;> cases w <;> cases hw <;> first | rfl | cases h

/-- An order of the values of each type. -/
noncomputable def ColumnOrder.typed : ColumnOrder where
  le v w := (compareTyped v w).isLE
  refl v := by simp [Std.ReflCmp.compare_self]
  total v w _ := by
    rw [@Std.OrientedCmp.eq_swap _ compareTyped _ w v, Ordering.isLE_swap]
    cases compareTyped v w <;> simp
  antisymm v w _ hvw hwv := eq_of_compareTyped (Std.OrientedCmp.isLE_antisymm hvw hwv)
  trans u v w _ _ huv hvw := Std.TransCmp.isLE_trans huv hvw
  integers v w a b h hv hw := by
    have hcompare : compareOn (fun v : Value => v.asI64.getD 0) v w = compare a b := by
      simp only [compareOn, hv, hw, Option.getD_some]
    rw [compareTyped, isLE_compareLex, hcompare, Ordering.isLE_iff_ne_gt,
      compare_gt_iff_gt, not_lt]
    rw [hcompare, compare_eq_iff_eq]
    rintro rfl
    exact eq_of_asI64 h hv hw
  text a b := by rw [isLE_compareTyped_bytes rfl rfl (congrArg Value.text)]; rfl
  uuid a b := by rw [isLE_compareTyped_bytes rfl rfl (congrArg Value.uuid)]; rfl

/-- The value before all others, or null. -/
noncomputable def foremost (le : Value → Value → Prop) (values : List Value) : Value :=
  open Classical in if h : ∃ m ∈ values, ∀ v ∈ values, le m v then h.choose else .null

/-- The values an aggregate is of: those of its column that are not null. -/
def AggregateComputation.inputs (agg : AggregateComputation) (rows : List QueryRow) : List Value :=
  (rows.filterMap agg.input).filter fun v => !v.isNull

def integersOf (values : List Value) : List Int := values.filterMap Value.asI64

/-- An integer of the width. -/
def IntWidth.value : IntWidth → Int → Value
  | .byte => .tinyInt
  | .short => .smallInt
  | .int => .integer
  | .long => .bigInt

/-- The width of the column a sum is of. -/
def AggregationEnv.width (env : AggregationEnv) (agg : AggregateComputation) : IntWidth :=
  match NumericAcc.init (env.resultType agg) with
  | .integral _ width => width
  | .floating _ => .long

/-- An aggregate, by its definition. -/
noncomputable def referenceAggregate (order : ColumnOrder) (env : AggregationEnv)
    (agg : AggregateComputation) (rows : List QueryRow) : Value :=
  let inputs := agg.inputs rows
  match agg.function with
  | .count =>
    .bigInt (if agg.column = "*" then rows.length
      else if agg.distinct then (HashIndex.firstKeys groupValueEq [] inputs).length
      else inputs.length)
  | .sum =>
    if inputs = [] then .null
    else (env.width agg).value (wrapTo (env.width agg).bits (integersOf inputs).sum)
  | .avg =>
    if inputs = [] then .null
    else (env.width agg).value ((integersOf inputs).sum.tdiv inputs.length)
  | .min => foremost order.le inputs
  | .max => foremost (fun v w => order.le w v) inputs

/-! ### Columns of one type -/

/-- The values of `width` bits. -/
def IntWidth.Fits (width : IntWidth) (n : Int) : Prop :=
  -(2 ^ (width.bits - 1)) ≤ n ∧ n < 2 ^ (width.bits - 1)

instance (width : IntWidth) (n : Int) : Decidable (width.Fits n) :=
  inferInstanceAs (Decidable (_ ∧ _))

/-- Sums and quotients are of an integer column, extrema of a column of some type. -/
structure AggregateComputation.Typed (env : AggregationEnv) (agg : AggregateComputation)
    (rows : List QueryRow) : Prop where
  integers : agg.function = .sum ∨ agg.function = .avg →
    NumericAcc.init (env.resultType agg) = .integral 0 (env.width agg) ∧
      ∀ v ∈ agg.inputs rows, ∃ n, v.asI64 = some n ∧ (env.width agg).Fits n
  oneType : agg.function = .min ∨ agg.function = .max →
    ∀ v ∈ agg.inputs rows, ∀ w ∈ agg.inputs rows, v.ctorIdx = w.ctorIdx

theorem AggregateComputation.inputs_sublist {agg : AggregateComputation} {rows rows' : List QueryRow}
    (h : rows.Sublist rows') : (agg.inputs rows).Sublist (agg.inputs rows') :=
  (h.filterMap _).filter _

theorem AggregateComputation.Typed.sublist {env : AggregationEnv} {agg : AggregateComputation}
    {rows rows' : List QueryRow} (h : agg.Typed env rows') (hsub : rows.Sublist rows') :
    agg.Typed env rows where
  integers hf := ⟨(h.integers hf).1, fun v hv => (h.integers hf).2 v ((inputs_sublist hsub).subset hv)⟩
  oneType hf v hv w hw :=
    h.oneType hf v ((inputs_sublist hsub).subset hv) w ((inputs_sublist hsub).subset hw)

/-! ### The values of an aggregate -/

section Inputs

variable (agg : AggregateComputation) {rows : List QueryRow}

theorem AggregateComputation.inputs_cons_null {row : QueryRow}
    (h : ∀ v, agg.input row = some v → v = .null) : agg.inputs (row :: rows) = agg.inputs rows := by
  unfold inputs
  cases hv : agg.input row with
  | none => rw [List.filterMap_cons_none hv]
  | some v =>
    rw [List.filterMap_cons_some hv, h v hv]
    rfl

theorem AggregateComputation.inputs_cons {row : QueryRow} (h : agg.input row = some v)
    (hv : v.isNull = false) :
    agg.inputs (row :: rows) = v :: agg.inputs rows := by
  unfold inputs
  rw [List.filterMap_cons_some h, List.filter_cons, hv]
  rfl

theorem inputs_present (h : v ∈ agg.inputs rows) : v.isNull = false := by
  simpa using (List.mem_filter.1 h).2

end Inputs

theorem integersOf_cons {k : Int} (h : v.asI64 = some k) (values : List Value) :
    integersOf (v :: values) = k :: integersOf values := List.filterMap_cons_some h

theorem wrapTo_wrapTo (m n : Int) : wrapTo 64 (wrapTo 64 m + n) = wrapTo 64 (m + n) := by
  unfold wrapTo
  rw [Int.bmod_add_bmod]

/-! ### Nulls -/

section Update

variable [DoubleArith] (display : Value → String)

theorem updateWith_null {isStar : Bool} {value : Option Value} (hnull : ∀ v, value = some v → v = .null)
    (state : AggregateValue) (hstar : isStar = true → ∀ n, state ≠ .count n) :
    updateWith display isStar value state = state := by
  obtain rfl | rfl : value = none ∨ value = some .null := by
    cases value with
    | none => exact .inl rfl
    | some v => exact .inr (congrArg some (hnull v rfl))
  all_goals
    cases state with
    | count n =>
      cases isStar with
      | true => exact absurd rfl (hstar rfl n)
      | false => rfl
    | _ => rfl

variable (agg : AggregateComputation)

/-- What the rows do to an accumulator is what their values that are not null do. -/
theorem foldl_updateAggregate (rows : List QueryRow) {state : AggregateValue}
    (hstar : agg.column = "*" → ∀ n, state ≠ .count n) :
    rows.foldl (fun state row => updateAggregate display state agg row) state =
      (agg.inputs rows).foldl (fun state v => updateWith display false (some v) state) state := by
  induction rows generalizing state with
  | nil => rfl
  | cons row rows ih =>
    rw [List.foldl_cons]
    by_cases hnull : ∀ v, agg.input row = some v → v = .null
    · have hsame : updateAggregate display state agg row = state :=
        updateWith_null display hnull state fun h => hstar (of_decide_eq_true h)
      rw [hsame, AggregateComputation.inputs_cons_null agg hnull, ih hstar]
    · push Not at hnull
      obtain ⟨v, hv, hne⟩ := hnull
      have hcolumn : agg.column ≠ "*" := by
        intro hcolumn
        rw [AggregateComputation.input, if_pos hcolumn] at hv
        cases hv
      have hpresent : v.isNull = false := by
        rw [← Bool.not_eq_true]
        exact fun h => hne (Value.eq_null h)
      rw [AggregateComputation.inputs_cons agg hv hpresent, List.foldl_cons,
        ih fun h => absurd h hcolumn, updateAggregate, hv, decide_eq_false hcolumn]

/-! ### Counts -/

variable {values : List Value}

theorem foldl_count (h : ∀ v ∈ values, v.isNull = false) (n : Nat) :
    values.foldl (fun state v => updateWith display false (some v) state) (.count n) =
      .count (n + values.length) := by
  induction values generalizing n with
  | nil => rfl
  | cons v values ih =>
    obtain ⟨hv, hvalues⟩ := List.forall_mem_cons.1 h
    have hstep : updateWith display false (some v) (.count n) = .count (n + 1) := by
      simp [updateWith, hv]
    rw [List.foldl_cons, hstep, ih hvalues, List.length_cons]
    congr 1
    omega

theorem foldl_count_star (hcolumn : agg.column = "*") (rows : List QueryRow) (n : Nat) :
    rows.foldl (fun state row => updateAggregate display state agg row) (.count n) =
      .count (n + rows.length) := by
  induction rows generalizing n with
  | nil => rfl
  | cons row rows ih =>
    have hstep : updateAggregate display (.count n) agg row = .count (n + 1) := by
      simp [updateAggregate, updateWith, hcolumn]
    rw [List.foldl_cons, hstep, ih, List.length_cons]
    congr 1
    omega

variable {agg} (resultType : Option CqlType)

theorem aggregateOver_count (hcount : agg.function = .count) (rows : List QueryRow) :
    aggregateOver display agg resultType rows =
      .bigInt (if agg.column = "*" then rows.length else (agg.inputs rows).length) := by
  rw [aggregateOver, hcount, initAccumulator]
  by_cases hcolumn : agg.column = "*"
  · rw [if_pos hcolumn, foldl_count_star display agg hcolumn, Nat.zero_add]
    rfl
  · rw [if_neg hcolumn, foldl_updateAggregate display agg rows fun h => absurd h hcolumn,
      foldl_count display (fun v hv => inputs_present agg hv), Nat.zero_add]
    rfl

/-! ### Sums -/

/-- Sums are taken in 64 bits. -/
theorem foldl_sum (width : IntWidth) (h : ∀ v ∈ values, ∃ n, v.asI64 = some n)
    (hpresent : ∀ v ∈ values, v.isNull = false) (n : Int) :
    values.foldl (fun state v => updateWith display false (some v) state)
        (.sum (.integral (wrapTo 64 n) width)) =
      .sum (.integral (wrapTo 64 (n + (integersOf values).sum)) width) := by
  induction values generalizing n with
  | nil => simp [integersOf]
  | cons v values ih =>
    obtain ⟨⟨k, hk⟩, h⟩ := List.forall_mem_cons.1 h
    obtain ⟨hv, hpresent⟩ := List.forall_mem_cons.1 hpresent
    have hstep : updateWith display false (some v) (.sum (.integral (wrapTo 64 n) width)) =
        .sum (.integral (wrapTo 64 (n + k)) width) := by
      simp [updateWith, hv, NumericAcc.add, hk, wrapTo_wrapTo]
    rw [List.foldl_cons, hstep, ih h hpresent, integersOf_cons hk, List.sum_cons, Int.add_assoc]

theorem foldl_avg (width : IntWidth) (h : ∀ v ∈ values, ∃ n, v.asI64 = some n)
    (hpresent : ∀ v ∈ values, v.isNull = false) (n : Int) (count : Nat) :
    values.foldl (fun state v => updateWith display false (some v) state)
        (.avg (.integral (wrapTo 64 n) width) count) =
      .avg (.integral (wrapTo 64 (n + (integersOf values).sum)) width) (count + values.length) := by
  induction values generalizing n count with
  | nil => simp [integersOf]
  | cons v values ih =>
    obtain ⟨⟨k, hk⟩, h⟩ := List.forall_mem_cons.1 h
    obtain ⟨hv, hpresent⟩ := List.forall_mem_cons.1 hpresent
    have hstep : updateWith display false (some v) (.avg (.integral (wrapTo 64 n) width) count) =
        .avg (.integral (wrapTo 64 (n + k)) width) (count + 1) := by
      simp [updateWith, hv, NumericAcc.add, hk, wrapTo_wrapTo]
    rw [List.foldl_cons, hstep, ih h hpresent, integersOf_cons hk, List.sum_cons, Int.add_assoc,
      List.length_cons]
    congr 1
    omega

end Update

theorem narrow_wrapTo (width : IntWidth) (n : Int) :
    width.narrow (wrapTo 64 n) = width.value (wrapTo width.bits n) := by
  cases width with
  | long => rfl
  | byte => exact congrArg Value.tinyInt (Int.bmod_bmod_of_dvd (by decide))
  | short => exact congrArg Value.smallInt (Int.bmod_bmod_of_dvd (by decide))
  | int => exact congrArg Value.integer (Int.bmod_bmod_of_dvd (by decide))

theorem IntWidth.value_ne_null (width : IntWidth) (n : Int) : width.value n ≠ .null := by
  cases width <;> exact fun h => (nomatch h)

theorem narrow_of_fits {width : IntWidth} (h : width.Fits n) : width.narrow n = width.value n := by
  obtain ⟨hlow, hhigh⟩ := h
  cases width with
  | long => rfl
  | byte =>
    simp only [IntWidth.bits] at hlow hhigh
    exact congrArg Value.tinyInt (Int.bmod_eq_of_le (by omega) (by omega))
  | short =>
    simp only [IntWidth.bits] at hlow hhigh
    exact congrArg Value.smallInt (Int.bmod_eq_of_le (by omega) (by omega))
  | int =>
    simp only [IntWidth.bits] at hlow hhigh
    exact congrArg Value.integer (Int.bmod_eq_of_le (by omega) (by omega))

theorem wrapTo_eq_self_iff : wrapTo 64 n = n ↔ InI64 n := by
  unfold wrapTo InI64
  constructor
  · intro h
    have hlow := @Int.le_bmod n (2 ^ 64) (by norm_num)
    have hhigh := @Int.bmod_lt n (2 ^ 64) (by norm_num)
    rw [h] at hlow hhigh
    omega
  · rintro ⟨hlow, hhigh⟩
    exact Int.bmod_eq_of_le (by omega) (by omega)

theorem sum_bounds {width : IntWidth} {ns : List Int} (h : ∀ n ∈ ns, width.Fits n) :
    -(2 ^ (width.bits - 1)) * (ns.length : Int) ≤ ns.sum ∧
      ns.sum ≤ (2 ^ (width.bits - 1) - 1) * (ns.length : Int) := by
  induction ns with
  | nil => simp
  | cons n ns ih =>
    obtain ⟨⟨hlow, hhigh⟩, h⟩ := List.forall_mem_cons.1 h
    obtain ⟨ihlow, ihhigh⟩ := ih h
    rw [List.sum_cons, List.length_cons]
    push_cast
    constructor <;> nlinarith

/-- The quotient of a sum and the number of its terms lies where they do. -/
theorem fits_average {width : IntWidth} {ns : List Int} (h : ∀ n ∈ ns, width.Fits n) (hne : ns ≠ []) :
    width.Fits (ns.sum.tdiv ns.length) := by
  obtain ⟨hlow, hhigh⟩ := sum_bounds h
  have hpos : (0 : Int) < ns.length := by exact_mod_cast List.length_pos_of_ne_nil hne
  have hdiv := Int.mul_tdiv_add_tmod ns.sum ns.length
  have hmod := Int.tmod_lt_of_pos ns.sum hpos
  have hmod' := Int.lt_tmod_of_pos ns.sum hpos
  have hbound : (0 : Int) < 2 ^ (width.bits - 1) := by positivity
  unfold IntWidth.Fits
  constructor
  · by_contra hlt
    have hq : ns.sum.tdiv ns.length ≤ -(2 ^ (width.bits - 1)) - 1 := by omega
    nlinarith
  · by_contra hge
    have hq : (2 : Int) ^ (width.bits - 1) ≤ ns.sum.tdiv ns.length := by omega
    have hmul : (ns.length : Int) * 2 ^ (width.bits - 1) ≤ ns.length * ns.sum.tdiv ns.length :=
      mul_le_mul_of_nonneg_left hq hpos.le
    nlinarith

/-- Dividing the wrapped sum is dividing the sum only where nothing was wrapped. -/
theorem tdiv_wrapTo_iff {k : Nat} (hk : 0 < k) (hsmall : k ≤ 2 ^ 62) :
    (wrapTo 64 n).tdiv k = n.tdiv k ↔ InI64 n := by
  rw [← wrapTo_eq_self_iff]
  refine ⟨fun h => ?_, fun h => by rw [h]⟩
  have hpos : (0 : Int) < k := by exact_mod_cast hk
  have hsmall' : (k : Int) ≤ 2 ^ 62 := by exact_mod_cast hsmall
  have hn := Int.mul_tdiv_add_tmod n k
  have hw := Int.mul_tdiv_add_tmod (wrapTo 64 n) k
  rw [h] at hw
  have hn₁ := Int.tmod_lt_of_pos n hpos
  have hn₂ := Int.lt_tmod_of_pos n hpos
  have hw₁ := Int.tmod_lt_of_pos (wrapTo 64 n) hpos
  have hw₂ := Int.lt_tmod_of_pos (wrapTo 64 n) hpos
  obtain ⟨c, hc⟩ : ((2 ^ 64 : Nat) : Int) ∣ wrapTo 64 n - n := Int.dvd_bmod_sub_self
  -- they differ by a multiple of `2^64`, and by less than twice the divisor
  have hzero : c = 0 := by
    have hdiff : wrapTo 64 n - n = (wrapTo 64 n).tmod k - n.tmod k := by omega
    push_cast at hc
    omega
  rw [hzero] at hc
  omega

/-! ### The comparison of the executor -/

/-- What `partial_cmp` compares of a value: a number, a boolean, a date or time, bytes, or the written
    form. -/
structure OrderKey where
  number : UInt64
  flag : Bool
  integer : Int
  bytes : Bytes
  written : String

def Value.orderKey (display : Value → String) (v : Value) : OrderKey where
  number := v.asF64.getD 0
  flag := match v with
    | .boolean b => b
    | _ => false
  integer := match v with
    | .timestamp n => n
    | .time n => n
    | .date n => n
    | _ => 0
  bytes := match v with
    | .text s => s
    | .blob s => s
    | .uuid s => s
    | .inet s => s
    | _ => []
  written := match v with
    | .varint _ | .decimal _ _ | .duration _ _ _ | .json _ | .list _ | .set _ | .map _ | .tuple _
    | .udt _ _ _ | .frozen _ | .tombstone _ => display v
    | _ => ""

def compareOrderKeys (display : Value → String) : Value → Value → Ordering :=
  compareLex (fun a b => cassandraDoubleCmp (a.orderKey display).number (b.orderKey display).number)
    (compareLex (compareOn fun v => (v.orderKey display).flag)
      (compareLex (compareOn fun v => (v.orderKey display).integer)
        (compareLex (compareOn fun v => (v.orderKey display).bytes)
          (compareOn fun v => (v.orderKey display).written))))

instance (display : Value → String) : Std.TransCmp (compareOrderKeys display) := by
  have := @transCmp_on _ _ cassandraDoubleCmp _ fun v : Value => (v.orderKey display).number
  unfold compareOrderKeys
  infer_instance

variable {a : Value}

theorem compareValuesOrdering_eq (display : Value → String) {b : Value} (h : a.ctorIdx = b.ctorIdx) :
    compareValuesOrdering display a b = compareOrderKeys display a b := by
  cases a <;> cases b <;> first
    | cases h; done
    | skip
  all_goals
    simp only [compareValuesOrdering, Value.tryCompareValues, Value.asF64, Value.partialCmp,
      compareOrderKeys, compareLex, compareOn, Value.orderKey, Option.getD_some, Option.getD_none,
      Std.ReflCmp.compare_self, Ordering.then_eq, Ordering.eq_then, if_true]
  all_goals rfl

variable {values : List Value}

theorem compareValuesOrdering_totalOn (display : Value → String)
    (h : ∀ v ∈ values, ∀ w ∈ values, v.ctorIdx = w.ctorIdx) :
    Rank.TotalOn (compareValuesOrdering display) values :=
  (@Rank.totalOn_of_transCmp _ (compareOrderKeys display) _ _).congr fun a ha b hb =>
    compareValuesOrdering_eq display (h a ha b hb)

/-! ### When an aggregate is computed -/

/-- The first of the best values, in the executor's comparison, is before all values in the order. -/
def PicksForemost (beats : Value → Value → Bool) (le : Value → Value → Prop) (values : List Value) :
    Prop :=
  ∃ m before after, Extremum.FirstBest beats values m before after ∧ ∀ v ∈ values, le m v

/-- What the rows of a group have to be for the executor's aggregate. -/
def AggregateComputation.Meets (order : ColumnOrder) (env : AggregationEnv)
    (agg : AggregateComputation) (rows : List QueryRow) : Prop :=
  let inputs := agg.inputs rows
  match agg.function with
  | .count => agg.column = "*" ∨ agg.distinct = false ∨
      inputs.Pairwise fun v w => groupValueEq v w = false
  | .sum => inputs ≠ []
  | .avg => InI64 (integersOf inputs).sum
  | .min => inputs ≠ [] →
      PicksForemost (fun v w => (compareValuesOrdering env.display v w).isLT) order.le inputs
  | .max => inputs ≠ [] →
      PicksForemost (fun v w => (compareValuesOrdering env.display v w).isGT)
        (fun v w => order.le w v) inputs

theorem length_integersOf (h : ∀ v ∈ values, ∃ n, v.asI64 = some n) :
    (integersOf values).length = values.length := by
  induction values with
  | nil => rfl
  | cons v values ih =>
    obtain ⟨⟨n, hn⟩, h⟩ := List.forall_mem_cons.1 h
    rw [integersOf_cons hn, List.length_cons, List.length_cons, ih h]

theorem length_inputs_le (agg : AggregateComputation) (rows : List QueryRow) :
    (agg.inputs rows).length ≤ rows.length :=
  (List.length_filter_le _ _).trans (List.length_filterMap_le _ _)

/-- When the fold of the better value is the extremum. -/
theorem foremost_iff {le : Value → Value → Prop} {beats : Value → Value → Bool}
    (hantisymm : ∀ v ∈ values, ∀ w ∈ values, le v w → le w v → v = w)
    (hpresent : ∀ v ∈ values, v.isNull = false) (hranked : Extremum.Ranked beats values)
    {tail : List Value} (hvalues : values = a :: tail) :
    tail.foldl (Extremum.better beats) a = foremost le values ↔ PicksForemost beats le values := by
  have hiff := Extremum.foldl_better_iff (hvalues ▸ hranked) fun m => ∀ v ∈ values, le m v
  rw [← hvalues] at hiff
  have hmem : tail.foldl (Extremum.better beats) a ∈ values := by
    obtain ⟨before, after, hfirst⟩ := Extremum.foldl_better (hvalues ▸ hranked)
    rw [hvalues, hfirst.split]
    simp
  refine Iff.trans ?_ hiff
  unfold foremost
  constructor
  · intro heq
    split at heq
    · rename_i hex
      rw [heq]
      exact hex.choose_spec.2
    · rw [heq] at hmem
      exact absurd (hpresent _ hmem) (by simp [Value.isNull])
  · intro hle
    have hex : ∃ m ∈ values, ∀ v ∈ values, le m v := ⟨_, hmem, hle⟩
    rw [dif_pos hex]
    exact hantisymm _ hmem _ hex.choose_spec.1 (hle _ hex.choose_spec.1) (hex.choose_spec.2 _ hmem)

theorem foldl_keepBetter_better (display : Value → String) (accepts : Ordering → Bool)
    (h : ∀ v ∈ values, v.isNull = false) (ha : a.isNull = false) :
    values.foldl (fun e v => keepBetter display accepts e (some v)) a =
      values.foldl (Extremum.better fun v w => accepts (compareValuesOrdering display v w)) a := by
  induction values generalizing a with
  | nil => rfl
  | cons v values ih =>
    obtain ⟨hv, h⟩ := List.forall_mem_cons.1 h
    have hstep : keepBetter display accepts a (some v) =
        Extremum.better (fun v w => accepts (compareValuesOrdering display v w)) a v := by
      simp [keepBetter, Extremum.better, hv, ha]
    rw [List.foldl_cons, List.foldl_cons, hstep]
    refine ih h ?_
    unfold Extremum.better
    split <;> assumption

/-- From no value on: null without values, and the foremost value where the executor picks it. -/
theorem foldl_keepBetter_iff (display : Value → String) {accepts : Ordering → Bool}
    {le : Value → Value → Prop} (hpresent : ∀ v ∈ values, v.isNull = false)
    (hantisymm : ∀ v ∈ values, ∀ w ∈ values, le v w → le w v → v = w)
    (hranked : Extremum.Ranked (fun v w => accepts (compareValuesOrdering display v w)) values) :
    values.foldl (fun e v => keepBetter display accepts e (some v)) .null = foremost le values ↔
      (values ≠ [] →
        PicksForemost (fun v w => accepts (compareValuesOrdering display v w)) le values) := by
  cases hvalues : values with
  | nil =>
    refine iff_of_true ?_ fun h => absurd rfl h
    simp [foremost]
  | cons a tail =>
    rw [← hvalues, ← foremost_iff hantisymm hpresent hranked hvalues]
    have ha : a.isNull = false := hpresent a (by rw [hvalues]; simp)
    have hfirst : keepBetter display accepts .null (some a) = a := by
      rw [keepBetter, ha]
      rfl
    rw [← foldl_keepBetter_better display accepts
      (fun v hv => hpresent v (by rw [hvalues]; exact List.mem_cons_of_mem _ hv)) ha]
    have hfold : values.foldl (fun e v => keepBetter display accepts e (some v)) .null =
        tail.foldl (fun e v => keepBetter display accepts e (some v)) a := by
      rw [hvalues, List.foldl_cons, hfirst]
    rw [hfold]
    simp [hvalues]

section Meets

variable [DoubleArith] (order : ColumnOrder) (env : AggregationEnv) {agg : AggregateComputation}
  {rows : List QueryRow}

variable (agg rows) in
/-- The accumulator ends with the value of the reference. -/
def AggregateComputation.Exact : Prop :=
  aggregateOver env.display agg (env.resultType agg) rows = referenceAggregate order env agg rows

theorem count_iff (hcount : agg.function = .count) :
    agg.Exact order env rows ↔ agg.Meets order env rows := by
  rw [AggregateComputation.Exact, aggregateOver_count env.display (env.resultType agg) hcount]
  simp only [referenceAggregate, AggregateComputation.Meets, hcount, Value.bigInt.injEq]
  by_cases hcolumn : agg.column = "*"
  · simp [hcolumn]
  · cases hdistinct : agg.distinct with
    | false => simp [hcolumn]
    | true =>
      simp only [hcolumn, if_false, if_true, false_or, reduceCtorEq]
      have hiff := @HashIndex.length_firstKeys_eq_iff _ groupValueEq [] (agg.inputs rows)
      simp only [List.not_mem_nil, false_imp_iff, implies_true, true_and] at hiff
      rw [← hiff]
      omega

theorem sum_iff (hsum : agg.function = .sum) (htyped : agg.Typed env rows) :
    agg.Exact order env rows ↔ agg.Meets order env rows := by
  rw [AggregateComputation.Exact]
  obtain ⟨hinit, hinputs⟩ := htyped.integers (.inl hsum)
  have hfold := foldl_sum env.display (env.width agg)
    (fun v hv => (hinputs v hv).imp fun n hn => hn.1) (fun v hv => inputs_present agg hv) 0
  have hcode : aggregateOver env.display agg (env.resultType agg) rows =
      (env.width agg).value (wrapTo (env.width agg).bits (integersOf (agg.inputs rows)).sum) := by
    rw [aggregateOver, hsum, initAccumulator, hinit,
      foldl_updateAggregate env.display agg rows (by simp), ← narrow_wrapTo]
    refine (congrArg AggregateValue.finalize hfold).trans ?_
    rw [Int.zero_add]
    rfl
  rw [hcode]
  simp only [referenceAggregate, AggregateComputation.Meets, hsum]
  split
  · rename_i hnone
    exact ⟨fun h => absurd h (IntWidth.value_ne_null _ _), fun h => absurd hnone h⟩
  · rename_i hsome
    exact ⟨fun _ => hsome, fun _ => rfl⟩

theorem avg_iff (havg : agg.function = .avg) (htyped : agg.Typed env rows)
    (hsmall : rows.length ≤ 5368709) :
    agg.Exact order env rows ↔ agg.Meets order env rows := by
  rw [AggregateComputation.Exact]
  obtain ⟨hinit, hinputs⟩ := htyped.integers (.inr havg)
  have hints : ∀ v ∈ agg.inputs rows, ∃ n, v.asI64 = some n :=
    fun v hv => (hinputs v hv).imp fun n hn => hn.1
  have hfold := foldl_avg env.display (env.width agg) hints
    (fun v hv => inputs_present agg hv) 0 0
  have hcode : aggregateOver env.display agg (env.resultType agg) rows =
      (if 0 < (agg.inputs rows).length then (env.width agg).narrow
        ((wrapTo 64 (integersOf (agg.inputs rows)).sum).tdiv (agg.inputs rows).length) else .null) := by
    rw [aggregateOver, havg, initAccumulator, hinit,
      foldl_updateAggregate env.display agg rows (by simp)]
    refine (congrArg AggregateValue.finalize hfold).trans ?_
    rw [Int.zero_add, Nat.zero_add]
    rfl
  rw [hcode]
  simp only [referenceAggregate, AggregateComputation.Meets, havg]
  by_cases hnone : agg.inputs rows = []
  · rw [hnone]
    exact iff_of_true rfl ⟨by decide, by decide⟩
  have hpos : 0 < (agg.inputs rows).length := List.length_pos_of_ne_nil hnone
  have hlen := length_integersOf hints
  have hfits : ∀ n ∈ integersOf (agg.inputs rows), (env.width agg).Fits n := by
    intro n hn
    obtain ⟨v, hv, hvn⟩ := List.mem_filterMap.1 hn
    obtain ⟨k, hk, hfit⟩ := hinputs v hv
    rwa [Option.some.inj (hvn.symm.trans hk)]
  have haverage := fits_average hfits (List.ne_nil_of_length_pos (hlen ▸ hpos))
  have hbound : (agg.inputs rows).length ≤ 2 ^ 62 :=
    ((length_inputs_le agg rows).trans hsmall).trans (by norm_num)
  rw [hlen] at haverage
  rw [if_pos hpos, if_neg hnone]
  constructor
  · intro heq
    by_cases hlong : env.width agg = .long
    · rw [hlong] at heq
      exact (tdiv_wrapTo_iff hpos hbound).1 (Value.bigInt.inj heq)
    · -- so many values of at most 32 bits stay within 64
      obtain ⟨hlow, hhigh⟩ := sum_bounds hfits
      have hcount : ((integersOf (agg.inputs rows)).length : Int) ≤ 5368709 := by
        rw [hlen]
        exact_mod_cast (length_inputs_le agg rows).trans hsmall
      unfold InI64
      cases hwidth : env.width agg with
      | long => exact absurd hwidth hlong
      | _ =>
        rw [hwidth] at hlow hhigh
        norm_num [IntWidth.bits] at hlow hhigh
        constructor <;> linarith
  · intro hin
    rw [wrapTo_eq_self_iff.2 hin, narrow_of_fits haverage]

theorem min_iff (hmin : agg.function = .min) (htyped : agg.Typed env rows) :
    agg.Exact order env rows ↔ agg.Meets order env rows := by
  rw [AggregateComputation.Exact]
  have hone := htyped.oneType (.inl hmin)
  have hcode : aggregateOver env.display agg (env.resultType agg) rows =
      (agg.inputs rows).foldl (fun e v => keepBetter env.display Ordering.isLT e (some v)) .null := by
    rw [aggregateOver, hmin, initAccumulator, foldl_updateAggregate env.display agg rows (by simp)]
    exact congrArg AggregateValue.finalize (List.foldl_hom AggregateValue.min fun _ _ => rfl)
  rw [hcode]
  simp only [referenceAggregate, AggregateComputation.Meets, hmin]
  exact foldl_keepBetter_iff env.display (fun v hv => inputs_present agg hv)
    (fun v hv w hw => order.antisymm v w (hone v hv w hw))
    (Extremum.ranked_isLT (compareValuesOrdering_totalOn env.display hone))

theorem max_iff (hmax : agg.function = .max) (htyped : agg.Typed env rows) :
    agg.Exact order env rows ↔ agg.Meets order env rows := by
  rw [AggregateComputation.Exact]
  have hone := htyped.oneType (.inr hmax)
  have hcode : aggregateOver env.display agg (env.resultType agg) rows =
      (agg.inputs rows).foldl (fun e v => keepBetter env.display Ordering.isGT e (some v)) .null := by
    rw [aggregateOver, hmax, initAccumulator, foldl_updateAggregate env.display agg rows (by simp)]
    exact congrArg AggregateValue.finalize (List.foldl_hom AggregateValue.max fun _ _ => rfl)
  rw [hcode]
  simp only [referenceAggregate, AggregateComputation.Meets, hmax]
  exact foldl_keepBetter_iff env.display (fun v hv => inputs_present agg hv)
    (fun v hv w hw hvw hwv => order.antisymm v w (hone v hv w hw) hwv hvw)
    (Extremum.ranked_isGT (compareValuesOrdering_totalOn env.display hone))

theorem aggregateOver_iff (htyped : agg.Typed env rows) (hsmall : rows.length ≤ 5368709) :
    aggregateOver env.display agg (env.resultType agg) rows = referenceAggregate order env agg rows ↔
      agg.Meets order env rows := by
  cases hfunction : agg.function with
  | count => exact count_iff order env hfunction
  | sum => exact sum_iff order env hfunction htyped
  | avg => exact avg_iff order env hfunction htyped hsmall
  | min => exact min_iff order env hfunction htyped
  | max => exact max_iff order env hfunction htyped

end Meets

end Cqlite
