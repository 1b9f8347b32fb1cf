import Cqlite.Engine.StatementKeys
import Cqlite.Writer.RangeCovers

/-! The rows a DELETE covers (`cql_to_mutation/builders.rs`: `delete_to_mutation`;
    `cql_to_mutation/delta_helpers.rs`: `build_range_tombstones`).

    A DELETE becomes a partition tombstone, a row deletion or one range tombstone. The range is built
    from the range predicates alone, each a bound of one component, lower ones at the start and upper
    ones at the end. -/

namespace Cqlite

/-! ### Coverage and selection -/

section Selection

variable [DebugFmt]

/-- What a mutation deletes of a row: the partition, its key, or a range over it. -/
def Mutation.coversRow (schema : TableSchema) (m : Mutation) (ck : Option ClusteringKey) : Prop :=
  m.partitionTombstone ≠ none ∨
    (m.operations.any CellOperation.isDeleteRow = true ∧ cmpOptionKey ck m.clusteringKey = .eq) ∨
    ∃ rt ∈ m.rangeTombstones, rangeTombstoneCovers schema rt ck = true

/-- The key of a row: every clustering column has a component, and a table without any has no key. -/
def FullKey (schema : CqlSchema) (ck : Option ClusteringKey) : Prop :=
  (schema.clusteringKeys = [] ∧ ck = none) ∨
    schema.clusteringKeys ≠ [] ∧ ∃ key, ck = some key ∧
      key.columns.length = schema.clusteringKeys.length

def RangeOperator.holds : RangeOperator → Ordering → Bool
  | .lt, o => o == .lt
  | .le, o => o != .gt
  | .gt, o => o == .gt
  | .ge, o => o != .lt

variable {J : Type} (codec : CqlCodec J) (schema : CqlSchema)

/-- The row satisfies every condition on a clustering column. -/
structure DeletePredicates.Select (preds : DeletePredicates) (key : ClusteringKey) : Prop where
  equalities : ∀ b ∈ preds.equalityBindings, ∀ (i : Nat) col,
    schema.orderedClusteringKeys[i]? = some col → codec.toLowercase col.name = b.1 →
      ∀ v, codec.expressionToValue b.2 col.dataType = .ok v →
        ClusteringKey.cmpValue (key.component i) v = .eq
  ranges : ∀ pred ∈ preds.rangePredicates, ∀ (i : Nat) col,
    schema.orderedClusteringKeys[i]? = some col → codec.toLowercase col.name = pred.column →
      ∀ v, codec.expressionToValue pred.value col.dataType = .ok v →
        pred.operator.holds (ClusteringKey.cmpValue (key.component i) v) = true

/-- The rows of the partition that the WHERE clause selects. -/
def CqlDelete.Selects (del : CqlDelete) (ck : Option ClusteringKey) : Prop :=
  ∀ preds, extractDeletePredicates codec del.whereClause = .ok preds →
    ∀ key ∈ ck, preds.Select codec schema key

end Selection

/-! ### Shapes that are covered as selected -/

def RangeOperator.isLower : RangeOperator → Bool
  | .gt => true
  | .ge => true
  | _ => false

section Shapes

variable {J : Type} (codec : CqlCodec J) (schema : CqlSchema)

/-- A clustering column is equated. -/
def DeletePredicates.equates (preds : DeletePredicates) (col : CqlKeyColumn) : Prop :=
  ∃ b ∈ preds.equalityBindings, b.1 = codec.toLowercase col.name

/-- Range predicates that one interval of the first column expresses: nothing is equated, the column
    ascends, each side is bounded once at most, and with further columns from below by `>=` and from
    above by `<`. -/
structure DeletePredicates.FirstColumnRange (preds : DeletePredicates) : Prop where
  unequated : ∀ col ∈ schema.clusteringKeys, ¬ preds.equates codec col
  first : ∀ pred ∈ preds.rangePredicates, ∀ (i : Nat) col,
    schema.orderedClusteringKeys[i]? = some col → codec.toLowercase col.name = pred.column → i = 0
  ascending : ∀ col ∈ schema.clusteringKeys.head?, col.order = .asc
  lower : (preds.rangePredicates.filter fun p => p.operator.isLower).length ≤ 1
  upper : (preds.rangePredicates.filter fun p => !p.operator.isLower).length ≤ 1
  loose : schema.clusteringKeys.length = 1 ∨
    ∀ pred ∈ preds.rangePredicates, pred.operator = .ge ∨ pred.operator = .lt

/-- No condition, every column equated once, or one interval of the first column. -/
inductive DeletePredicates.Covered (preds : DeletePredicates) : Prop
  | partition (hranges : preds.rangePredicates = [])
      (hequal : ∀ col ∈ schema.clusteringKeys, ¬ preds.equates codec col)
  | row (hranges : preds.rangePredicates = [])
      (hequal : ∀ col ∈ schema.clusteringKeys, ∃ b, preds.equalityBindings.filter
        (fun b => b.1 == codec.toLowercase col.name) = [b])
  | range (h : preds.FirstColumnRange codec schema)

end Shapes

/-! ### A bound of one component -/

section Single

variable [DebugFmt]

omit [DebugFmt] in
theorem compareAt_asc (a b : Value) : ClusteringKey.compareAt .asc a b = compareValues a b := by
  unfold ClusteringKey.compareAt
  split
  · simp [compareValues]
  · rename_i h
    cases b <;> simp_all [compareValues]
  · rename_i h
    cases a <;> simp_all [compareValues]
  · simp

/-- On an ascending first column a bound of one component compares as the first components do; rows
    equal there are not below it, and in a table with one column equal. -/
theorem schemaCmp_single {schema : TableSchema} {key : ClusteringKey} {name : String} {v : Value}
    (hfull : key.columns.length = schema.clusteringKeys.length)
    (hpos : schema.clusteringKeys ≠ [])
    (hasc : ∀ col ∈ schema.clusteringKeys.head?, col.order = .asc) :
    (ClusteringKey.cmpValue (key.component 0) v ≠ .eq →
      ClusteringKey.schemaCmp schema key ⟨[(name, v)]⟩ =
        ClusteringKey.cmpValue (key.component 0) v) ∧
    (ClusteringKey.cmpValue (key.component 0) v = .eq →
      ClusteringKey.schemaCmp schema key ⟨[(name, v)]⟩ = .gt ∨
        ClusteringKey.schemaCmp schema key ⟨[(name, v)]⟩ = .eq) ∧
    (ClusteringKey.cmpValue (key.component 0) v = .eq → schema.clusteringKeys.length = 1 →
      ClusteringKey.schemaCmp schema key ⟨[(name, v)]⟩ = .eq) := by
  obtain ⟨col, cols, hcols⟩ := List.exists_cons_of_ne_nil hpos
  have horder : col.order = .asc := hasc col (by rw [hcols]; rfl)
  have hlen : key.columns.length = cols.length + 1 := by rw [hfull, hcols, List.length_cons]
  obtain ⟨c, cs, hkey⟩ := List.exists_cons_of_length_eq_add_one hlen
  have hcomponent : key.component 0 = c.2 := by
    rw [ClusteringKey.component, hkey]
    rfl
  have hcompare : (compareValues c.2 v ≠ some .eq →
        ClusteringKey.compare key ⟨[(name, v)]⟩ schema = compareValues c.2 v) ∧
      (compareValues c.2 v = some .eq → ClusteringKey.compare key ⟨[(name, v)]⟩ schema =
        ClusteringKey.compareFrom key ⟨[(name, v)]⟩ 1 cols) := by
    have hshort : ¬ (key.columns.length > schema.clusteringKeys.length ∨
        [(name, v)].length > schema.clusteringKeys.length) := by
      rw [hcols, hfull, hcols, List.length_cons, List.length_singleton]
      omega
    have hbound : ClusteringKey.component ⟨[(name, v)]⟩ 0 = v := rfl
    rw [ClusteringKey.compare, if_neg hshort, hcols]
    cases hvalues : compareValues c.2 v with
    | none => simp [ClusteringKey.compareFrom, hcomponent, hbound, horder, compareAt_asc, hvalues]
    | some o =>
      cases o <;> simp [ClusteringKey.compareFrom, hcomponent, hbound, horder, compareAt_asc, hvalues]
  have hfallback : ClusteringKey.cmp key ⟨[(name, v)]⟩ =
      (ClusteringKey.cmpValue c.2 v).then (if cs.length = 0 then .eq else .gt) := by
    rw [ClusteringKey.cmp, hkey, ClusteringKey.cmpColumns]
    cases cs <;> rfl
  have hrest : ClusteringKey.compareFrom key ⟨[(name, v)]⟩ 1 cols = some .gt ∨
      ClusteringKey.compareFrom key ⟨[(name, v)]⟩ 1 cols = some .eq := by
    obtain ⟨hsome, hnone⟩ := @compareFrom_of_prefix_eq key ⟨[(name, v)]⟩ 1 rfl 1 cols (by omega)
      (compareFrom_truncate_of_le key ⟨[(name, v)]⟩ le_rfl cols)
    by_cases hvalue : ∃ j, 1 ≤ j ∧ 1 ≤ j ∧ j < key.columns.length ∧ key.component j ≠ .null
    · exact .inl (hsome hvalue)
    · push Not at hvalue
      exact .inr (hnone hvalue)
  have hone : schema.clusteringKeys.length = 1 → cols = [] ∧ cs = [] := by
    intro h
    rw [hcols, List.length_cons] at h
    rw [hkey, List.length_cons] at hlen
    exact ⟨List.length_eq_zero_iff.1 (by omega), List.length_eq_zero_iff.1 (by omega)⟩
  rw [hcomponent, ClusteringKey.schemaCmp, hfallback, ClusteringKey.cmpValue]
  cases hvalues : compareValues c.2 v with
  | none =>
    rw [hcompare.1 (by simp [hvalues]), hvalues]
    simp only [Option.getD_none]
    refine ⟨?_, ?_, ?_⟩
    · intro hne
      cases hdebug : compare (DebugFmt.debug c.2) (DebugFmt.debug v) with
      | eq => exact absurd hdebug hne
      | lt => rfl
      | gt => rfl
    · intro heq
      rw [heq, Ordering.eq_then]
      split
      · exact .inr rfl
      · exact .inl rfl
    · intro heq h
      rw [heq, Ordering.eq_then, (hone h).2]
      rfl
  | some o =>
    cases o with
    | lt | gt =>
      rw [hcompare.1 (by simp [hvalues]), hvalues]
      exact ⟨fun _ => rfl, fun h => (by cases h), fun h => by cases h⟩
    | eq =>
      rw [hcompare.2 hvalues]
      simp only [Option.getD_some]
      refine ⟨fun h => absurd rfl h, ?_, ?_⟩
      · intro _
        rcases hrest with h | h
        · exact .inl (by rw [h]; rfl)
        · exact .inr (by rw [h]; rfl)
      · intro _ h
        rw [(hone h).1]
        rfl

end Single

/-! ### The bounds of a range -/

variable {bounds : DeleteBounds} {pred : RangePredicate}

section Bounds

variable {J : Type} {codec : CqlCodec J} {schema : CqlSchema}

/-- The key of the bound a range predicate makes. -/
def BoundOf (codec : CqlCodec J) (schema : CqlSchema) (pred : RangePredicate) (b : ClusteringBound) :
    Prop :=
  ∃ col v, schema.orderedClusteringKeys.find? (fun k => codec.toLowercase k.name == pred.column) =
      some col ∧ codec.expressionToValue pred.value col.dataType = .ok v ∧
    b = match pred.operator with
      | .gt => .exclusive ⟨[(col.name, v)]⟩
      | .ge => .inclusive ⟨[(col.name, v)]⟩
      | .lt => .exclusive ⟨[(col.name, v)]⟩
      | .le => .inclusive ⟨[(col.name, v)]⟩

theorem applyRangePredicate_eq_ok {next : DeleteBounds}
    (h : applyRangePredicate codec schema bounds pred = .ok next) :
    ∃ b, BoundOf codec schema pred b ∧
      next = if pred.operator.isLower then (some b, bounds.2) else (bounds.1, some b) := by
  rw [applyRangePredicate] at h
  split at h
  · cases h
  · rename_i col hcol
    rw [bind_eq_ok] at h
    obtain ⟨v, hv, h⟩ := h
    refine ⟨_, ⟨col, v, hcol, hv, rfl⟩, ?_⟩
    cases hop : pred.operator <;> rw [hop] at h <;> cases h <;> rfl

/-- The last lower predicate makes the start, the last upper one the end. -/
theorem foldlM_applyRangePredicate {preds : List RangePredicate} {result : DeleteBounds}
    (h : preds.foldlM (applyRangePredicate codec schema) bounds = .ok result) :
    ((preds.filter fun p => p.operator.isLower) = [] → result.1 = bounds.1) ∧
    ((preds.filter fun p => !p.operator.isLower) = [] → result.2 = bounds.2) ∧
    (∀ p, (preds.filter fun p => p.operator.isLower).getLast? = some p →
      ∃ b, result.1 = some b ∧ BoundOf codec schema p b) ∧
    ∀ p, (preds.filter fun p => !p.operator.isLower).getLast? = some p →
      ∃ b, result.2 = some b ∧ BoundOf codec schema p b := by
  induction preds generalizing bounds with
  | nil =>
    cases h
    exact ⟨fun _ => rfl, fun _ => rfl, fun p hp => (nomatch hp), fun p hp => (nomatch hp)⟩
  | cons pred preds ih =>
    rw [List.foldlM_cons, bind_eq_ok] at h
    obtain ⟨next, hnext, h⟩ := h
    obtain ⟨b, hb, rfl⟩ := applyRangePredicate_eq_ok hnext
    obtain ⟨hstart, hend, hlower, hupper⟩ := ih h
    cases hside : pred.operator.isLower with
    | true =>
      rw [hside, if_pos rfl] at hstart hend
      rw [List.filter_cons_of_pos (by simp [hside]), List.filter_cons_of_neg (by simp [hside])]
      refine ⟨fun hnil => (nomatch hnil), hend, ?_, hupper⟩
      intro p hp
      cases hrest : preds.filter fun p => p.operator.isLower with
      | nil =>
        rw [hrest] at hp
        cases hp
        exact ⟨b, hstart hrest, hb⟩
      | cons q qs =>
        rw [hrest, List.getLast?_cons_cons, ← hrest] at hp
        exact hlower p hp
    | false =>
      rw [hside, if_neg Bool.false_ne_true] at hstart hend
      rw [List.filter_cons_of_neg (by simp [hside]), List.filter_cons_of_pos (by simp [hside])]
      refine ⟨hstart, fun hnil => (nomatch hnil), hlower, ?_⟩
      intro p hp
      cases hrest : preds.filter fun p => !p.operator.isLower with
      | nil =>
        rw [hrest] at hp
        cases hp
        exact ⟨b, hend hrest, hb⟩
      | cons q qs =>
        rw [hrest, List.getLast?_cons_cons, ← hrest] at hp
        exact hupper p hp

end Bounds

/-! ### One interval of the first column -/

section Interval

variable [DebugFmt] {J : Type} {codec : CqlCodec J} {schema : CqlSchema}

/-- The row satisfies one range predicate. -/
def RangePredicate.Selects (codec : CqlCodec J) (schema : CqlSchema) (pred : RangePredicate)
    (key : ClusteringKey) : Prop :=
  ∀ (i : Nat) col, schema.orderedClusteringKeys[i]? = some col →
    codec.toLowercase col.name = pred.column →
      ∀ v, codec.expressionToValue pred.value col.dataType = .ok v →
        pred.operator.holds (ClusteringKey.cmpValue (key.component i) v) = true

variable {preds : DeletePredicates} {key : ClusteringKey}

/-- On the first column a predicate is about the first component and the value of its bound. -/
theorem boundOf_first (hrange : preds.FirstColumnRange codec schema) {pred : RangePredicate}
    (hpred : pred ∈ preds.rangePredicates) {b : ClusteringBound} (hb : BoundOf codec schema pred b) :
    ∃ name v, (pred.Selects codec schema key ↔
        pred.operator.holds (ClusteringKey.cmpValue (key.component 0) v) = true) ∧
      b = match pred.operator with
        | .gt => .exclusive ⟨[(name, v)]⟩
        | .ge => .inclusive ⟨[(name, v)]⟩
        | .lt => .exclusive ⟨[(name, v)]⟩
        | .le => .inclusive ⟨[(name, v)]⟩ := by
  obtain ⟨col, v, hcol, hv, rfl⟩ := hb
  refine ⟨col.name, v, ?_, rfl⟩
  have hname : codec.toLowercase col.name = pred.column := by simpa using List.find?_some hcol
  obtain ⟨i, hi⟩ := List.mem_iff_getElem?.1 (List.mem_of_find?_eq_some hcol)
  obtain rfl := hrange.first pred hpred i col hi hname
  constructor
  · exact fun h => h 0 col hi hname v hv
  · intro h j other hj hother w hw
    obtain rfl := hrange.first pred hpred j other hj hother
    rw [hi] at hj
    cases hj
    rw [hv] at hw
    cases hw
    exact h

variable (hfull : key.columns.length = schema.clusteringKeys.length)
  (hpos : schema.clusteringKeys ≠ [])

include hfull hpos

section

variable (hrange : preds.FirstColumnRange codec schema)

include hrange

theorem single_facts (name : String) (v : Value) :
    (ClusteringKey.cmpValue (key.component 0) v ≠ .eq →
      ClusteringKey.schemaCmp schema.toTableSchema key ⟨[(name, v)]⟩ =
        ClusteringKey.cmpValue (key.component 0) v) ∧
    (ClusteringKey.cmpValue (key.component 0) v = .eq →
      ClusteringKey.schemaCmp schema.toTableSchema key ⟨[(name, v)]⟩ = .gt ∨
        ClusteringKey.schemaCmp schema.toTableSchema key ⟨[(name, v)]⟩ = .eq) ∧
    (ClusteringKey.cmpValue (key.component 0) v = .eq → schema.clusteringKeys.length = 1 →
      ClusteringKey.schemaCmp schema.toTableSchema key ⟨[(name, v)]⟩ = .eq) := by
  have hlen : schema.toTableSchema.clusteringKeys.length = schema.clusteringKeys.length :=
    List.length_map _
  rw [← hlen]
  refine schemaCmp_single (hfull.trans hlen.symm) ?_ ?_
  · exact fun hnil => hpos (List.map_eq_nil_iff.1 hnil)
  · intro col hcol
    rw [CqlSchema.toTableSchema, List.head?_map] at hcol
    obtain ⟨k, hk, rfl⟩ := Option.map_eq_some_iff.1 hcol
    exact hrange.ascending k hk

/-- A range predicate makes the same of the writer's comparison as of that of the components. -/
theorem holds_schemaCmp (hpred : pred ∈ preds.rangePredicates) (name : String) (v : Value) :
    pred.operator.holds (ClusteringKey.schemaCmp schema.toTableSchema key ⟨[(name, v)]⟩) =
      pred.operator.holds (ClusteringKey.cmpValue (key.component 0) v) := by
  obtain ⟨hne, hge, hsame⟩ := single_facts hfull hpos hrange name v
  by_cases heq : ClusteringKey.cmpValue (key.component 0) v = .eq
  · rw [heq]
    rcases hrange.loose with hone | hall
    · rw [hsame heq hone]
    · -- these operators take greater as they take equal
      rcases hge heq with h | h
      · rw [h]
        rcases hall pred hpred with hop | hop <;> rw [hop] <;> rfl
      · rw [h]
  · rw [hne heq]

theorem afterStart_lower (hpred : pred ∈ preds.rangePredicates)
    (hside : pred.operator.isLower = true) {b : ClusteringBound} (hb : BoundOf codec schema pred b) :
    WriterBounds.afterStart schema.toTableSchema key b = true ↔ pred.Selects codec schema key := by
  obtain ⟨name, v, hselects, rfl⟩ := @boundOf_first _ _ _ _ _ key hrange pred hpred b hb
  rw [hselects, ← holds_schemaCmp hfull hpos hrange hpred name v]
  cases hop : pred.operator with
  | lt | le => rw [hop] at hside; cases hside
  | ge | gt => rfl

theorem beforeEnd_upper (hpred : pred ∈ preds.rangePredicates)
    (hside : pred.operator.isLower = false) {b : ClusteringBound} (hb : BoundOf codec schema pred b) :
    WriterBounds.beforeEnd schema.toTableSchema key b = true ↔ pred.Selects codec schema key := by
  obtain ⟨name, v, hselects, rfl⟩ := @boundOf_first _ _ _ _ _ key hrange pred hpred b hb
  rw [hselects, ← holds_schemaCmp hfull hpos hrange hpred name v]
  cases hop : pred.operator with
  | gt | ge => rw [hop] at hside; cases hside
  | lt | le => rfl

end

omit hfull hpos [DebugFmt] in
/-- A list with at most one element of a kind, and that one or none. -/
theorem filter_cases {α : Type} {p : α → Bool} {l : List α} (h : (l.filter p).length ≤ 1) :
    (l.filter p = [] ∧ ∀ a ∈ l, p a = false) ∨
      ∃ a, (l.filter p).getLast? = some a ∧ a ∈ l ∧ p a = true ∧ ∀ b ∈ l, p b = true → b = a := by
  cases hl : l.filter p with
  | nil =>
    refine .inl ⟨rfl, fun a ha => ?_⟩
    have := List.filter_eq_nil_iff.1 hl a ha
    exact Bool.eq_false_iff.2 this
  | cons a rest =>
    rw [hl, List.length_cons] at h
    obtain rfl : rest = [] := List.length_eq_zero_iff.1 (by omega)
    have hmem : ∀ b, b ∈ l ∧ p b = true ↔ b = a := by
      intro b
      rw [← List.mem_filter, hl, List.mem_singleton]
    obtain ⟨ha, hpa⟩ := (hmem a).2 rfl
    exact .inr ⟨a, rfl, ha, hpa, fun b hb hpb => (hmem b).1 ⟨hb, hpb⟩⟩

theorem range_covers_iff (hrange : preds.FirstColumnRange codec schema)
    (hbounds : preds.rangePredicates.foldlM (applyRangePredicate codec schema) (none, none) =
      .ok bounds) (t ldt : Int) :
    rangeTombstoneCovers schema.toTableSchema ⟨bounds.1.getD .bottom, bounds.2.getD .top, t, ldt⟩
      (some key) = true ↔ ∀ pred ∈ preds.rangePredicates, pred.Selects codec schema key := by
  obtain ⟨hstart, hend, hlower, hupper⟩ := foldlM_applyRangePredicate hbounds
  have hafter : WriterBounds.afterStart schema.toTableSchema key (bounds.1.getD .bottom) = true ↔
      ∀ pred ∈ preds.rangePredicates, pred.operator.isLower = true →
        pred.Selects codec schema key := by
    rcases filter_cases hrange.lower with ⟨hnil, hnone⟩ | ⟨p, hlast, hp, hside, hall⟩
    · rw [hstart hnil]
      refine iff_of_true rfl fun pred hpred hside => ?_
      rw [hnone pred hpred] at hside
      cases hside
    · obtain ⟨b, hb, hof⟩ := hlower p hlast
      rw [hb, Option.getD_some, afterStart_lower hfull hpos hrange hp hside hof]
      exact ⟨fun h pred hpred hs => by rw [hall pred hpred hs]; exact h, fun h => h p hp hside⟩
  have hbefore : WriterBounds.beforeEnd schema.toTableSchema key (bounds.2.getD .top) = true ↔
      ∀ pred ∈ preds.rangePredicates, pred.operator.isLower = false →
        pred.Selects codec schema key := by
    rcases filter_cases hrange.upper with ⟨hnil, hnone⟩ | ⟨p, hlast, hp, hside, hall⟩
    · rw [hend hnil]
      refine iff_of_true rfl fun pred hpred hside => ?_
      have := hnone pred hpred
      rw [hside] at this
      cases this
    · obtain ⟨b, hb, hof⟩ := hupper p hlast
      have hside : p.operator.isLower = false := by simpa using hside
      rw [hb, Option.getD_some, beforeEnd_upper hfull hpos hrange hp hside hof]
      refine ⟨fun h pred hpred hs => ?_, fun h => h p hp hside⟩
      rw [hall pred hpred (by rw [hs]; rfl)]
      exact h
  rw [rangeTombstoneCovers_some, Bool.and_eq_true, hafter, hbefore]
  constructor
  · rintro ⟨hl, hu⟩ pred hpred
    cases hside : pred.operator.isLower with
    | true => exact hl pred hpred hside
    | false => exact hu pred hpred hside
  · exact fun h => ⟨fun pred hpred _ => h pred hpred, fun pred hpred _ => h pred hpred⟩

end Interval

/-! ### The whole DELETE -/

section Delete

variable [DebugFmt] {J : Type} {codec : CqlCodec J} {schema : CqlSchema} {clock : SystemClock}

variable {preds : DeletePredicates}

omit [DebugFmt] in
theorem equates_iff {col : CqlKeyColumn} :
    preds.equates codec col ↔ (findBinding codec preds.equalityBindings col).isSome = true := by
  rw [findBinding_isSome]
  constructor
  · rintro ⟨b, hb, hname⟩
    exact ⟨b.2, by rw [← hname]; exact hb⟩
  · rintro ⟨a, ha⟩
    exact ⟨_, ha, rfl⟩

theorem cmpColumns_eq_iff {as bs : List (String × Value)} (hlen : as.length = bs.length) :
    ClusteringKey.cmpColumns as bs = .eq ↔
      ∀ (i : Nat) (a b : String × Value), as[i]? = some a → bs[i]? = some b →
        ClusteringKey.cmpValue a.2 b.2 = .eq := by
  induction as generalizing bs with
  | nil =>
    obtain rfl := List.length_eq_zero_iff.1 hlen.symm
    exact iff_of_true rfl fun i a b ha => (nomatch ha)
  | cons a as ih =>
    obtain ⟨b, bs, rfl⟩ := List.exists_cons_of_length_eq_add_one hlen.symm
    rw [ClusteringKey.cmpColumns, Ordering.then_eq_eq, ih (by simpa using hlen)]
    constructor
    · rintro ⟨hhead, htail⟩ i x y hx hy
      cases i with
      | zero =>
        cases hx
        cases hy
        exact hhead
      | succ i => exact htail i x y hx hy
    · exact fun h => ⟨h 0 a b rfl rfl, fun i x y hx hy => h (i + 1) x y hx hy⟩

/-- Every column equated once: the key holds the values, in order. -/
theorem row_select_iff {columns : List (String × Value)}
    (hcolumns : bindOptional codec codec.expressionToValue preds.equalityBindings
      schema.orderedClusteringKeys = .ok columns) (hranges : preds.rangePredicates = [])
    (hequal : ∀ col ∈ schema.clusteringKeys, ∃ b, preds.equalityBindings.filter
      (fun b => b.1 == codec.toLowercase col.name) = [b]) {key : ClusteringKey}
    (hfull : key.columns.length = schema.clusteringKeys.length) :
    columns.length = schema.clusteringKeys.length ∧
      (ClusteringKey.cmpColumns key.columns columns = .eq ↔ preds.Select codec schema key) := by
  have hlength : schema.orderedClusteringKeys.length = schema.clusteringKeys.length := by
    rw [CqlSchema.orderedClusteringKeys, CqlSchema.orderedKeys]
    split
    · rfl
    · exact (List.perm_insertionSort _ _).length_eq
  have honly : ∀ col ∈ schema.orderedClusteringKeys, ∃ b ∈ preds.equalityBindings,
      b.1 = codec.toLowercase col.name ∧
        ∀ other ∈ preds.equalityBindings, other.1 = codec.toLowercase col.name → other = b := by
    intro col hcol
    obtain ⟨b, hb⟩ := hequal col (mem_orderedKeys.1 hcol)
    have hmem : ∀ other, other ∈ preds.equalityBindings ∧ other.1 = codec.toLowercase col.name ↔
        other = b := by
      intro other
      rw [← @List.mem_singleton _ other b, ← hb, List.mem_filter, beq_iff_eq]
    obtain ⟨hbmem, hbname⟩ := (hmem b).2 rfl
    exact ⟨b, hbmem, hbname, fun other hother hname => (hmem other).1 ⟨hother, hname⟩⟩
  have hall : schema.orderedClusteringKeys.filter (fun key =>
      (findBinding codec preds.equalityBindings key).isSome) = schema.orderedClusteringKeys := by
    rw [List.filter_eq_self]
    intro col hcol
    obtain ⟨b, hb, hname, -⟩ := honly col hcol
    exact equates_iff.1 ⟨b, hb, hname⟩
  have hbound := bindOptional_spec hcolumns
  rw [hall] at hbound
  have hlen : columns.length = schema.clusteringKeys.length := hbound.length_eq.symm.trans hlength
  refine ⟨hlen, ?_⟩
  rw [cmpColumns_eq_iff (hfull.trans hlen.symm)]
  constructor
  · intro h
    refine ⟨?_, fun pred hpred => absurd hpred (by rw [hranges]; exact List.not_mem_nil)⟩
    intro b hb i col hcol hname v hv
    have hi : i < columns.length := by
      rw [hlen, ← hlength]
      exact (List.getElem?_eq_some_iff.1 hcol).1
    obtain ⟨other, hother, -, a, ha, hvalue⟩ :=
      getElem?_of_forall₂ hbound (List.getElem?_eq_getElem hi)
    rw [hcol] at hother
    cases hother
    obtain ⟨only, -, -, huniq⟩ := honly col (List.mem_of_getElem? hcol)
    have hsame : b = (codec.toLowercase col.name, a) := (huniq b hb hname.symm).trans
      (huniq _ ha rfl).symm
    rw [hsame, hvalue] at hv
    cases hv
    have hkey : i < key.columns.length := by omega
    have hcomponent : key.component i = key.columns[i].2 := by
      simp [ClusteringKey.component, hkey]
    rw [hcomponent]
    exact h i _ _ (List.getElem?_eq_getElem hkey) (List.getElem?_eq_getElem hi)
  · intro h i x c hx hc
    obtain ⟨col, hcol, -, a, ha, hvalue⟩ := getElem?_of_forall₂ hbound hc
    have hcomponent : key.component i = x.2 := by
      rw [ClusteringKey.component, List.getD_eq_getElem?_getD, List.getElem?_map, hx]
      rfl
    rw [← hcomponent]
    exact h.equalities _ ha i col hcol rfl c.2 hvalue

theorem deleteMutation_coversRow {del : CqlDelete} {preds : DeletePredicates} {keys : ResolvedKeys}
    {timestamp : Int} {ranges : List RangeTombstone} (hcolumns : del.columns = [])
    (ts : TableSchema) (ck : Option ClusteringKey) :
    Mutation.coversRow ts { deleteMutation schema clock del preds keys timestamp with
        rangeTombstones := ranges } ck ↔
      isPartitionDelete schema del preds (clusteringKeyOfColumns keys.clustering) = true ∨
      (isPartitionDelete schema del preds (clusteringKeyOfColumns keys.clustering) = false ∧
        preds.rangePredicates = [] ∧
        cmpOptionKey ck (clusteringKeyOfColumns keys.clustering) = .eq) ∨
      ∃ rt ∈ ranges, rangeTombstoneCovers ts rt ck = true := by
  rw [Mutation.coversRow]
  change (if isPartitionDelete schema del preds (clusteringKeyOfColumns keys.clustering) = true then
      some (⟨timestamp, clock.seconds⟩ : PartitionTombstone) else none) ≠ none ∨
    ((deleteOperations del preds (isPartitionDelete schema del preds
      (clusteringKeyOfColumns keys.clustering))).any CellOperation.isDeleteRow = true ∧
        cmpOptionKey ck (clusteringKeyOfColumns keys.clustering) = .eq) ∨
    (∃ rt ∈ ranges, rangeTombstoneCovers ts rt ck = true) ↔ _
  rw [deleteOperations, hcolumns]
  cases isPartitionDelete schema del preds (clusteringKeyOfColumns keys.clustering) with
  | true => simp
  | false =>
    cases hnil : preds.rangePredicates with
    | nil => simp [CellOperation.isDeleteRow]
    | cons p ps => simp

omit [DebugFmt] in
/-- Nothing bound: no clustering key, and the partition goes if the table has clustering columns. -/
theorem isPartitionDelete_of_unequated {del : CqlDelete} {keys : ResolvedKeys}
    (hkeys : resolveKeyBindings codec schema preds.equalityBindings = .ok keys)
    (hcolumns : del.columns = []) (hpos : schema.clusteringKeys ≠ [])
    (hranges : preds.rangePredicates = [])
    (hequal : ∀ col ∈ schema.clusteringKeys, ¬ preds.equates codec col) :
    isPartitionDelete schema del preds (clusteringKeyOfColumns keys.clustering) = true := by
  by_contra hno
  rcases (isPartitionDelete_iff hkeys hranges).1 (Bool.eq_false_iff.2 hno) with h | h | ⟨col, hcol, h⟩
  · exact h hcolumns
  · exact hpos h
  · exact hequal col hcol (equates_iff.2 (Option.isSome_iff_ne_none.2 h))

omit [DebugFmt] in
theorem rangePredicates_eq_nil_of_keyless {timestamp : Int} {ranges : List RangeTombstone}
    (hnil : schema.clusteringKeys = [])
    (h : deleteRanges codec schema clock preds timestamp = .ok ranges) :
    preds.rangePredicates = [] := by
  cases hpreds : preds.rangePredicates with
  | nil => rfl
  | cons p ps =>
    have hordered : schema.orderedClusteringKeys = [] :=
      List.eq_nil_iff_forall_not_mem.2 fun col hcol => by
        have hmem := mem_orderedKeys.1 hcol
        rw [hnil] at hmem
        cases hmem
    rw [deleteRanges, hpreds, if_neg (by simp), buildRangeTombstones, hordered] at h
    simp at h

/-- A DELETE of rows covers what its WHERE clause selects when it has no condition on the clustering
    columns, equates each of them once, or is one interval of the first. -/
theorem delete_covers_selected {del : CqlDelete} {m : Mutation}
    (h : deleteToMutation codec schema clock del = .ok m) (hcolumns : del.columns = [])
    (hcovered : ∀ preds, extractDeletePredicates codec del.whereClause = .ok preds →
      preds.Covered codec schema) {ck : Option ClusteringKey} (hfull : FullKey schema ck) :
    m.coversRow schema.toTableSchema ck ↔ del.Selects codec schema ck := by
  obtain ⟨preds, keys, hdel, timestamp, -, ranges, hranges, rfl⟩ := deleteToMutation_eq_ok.1 h
  obtain ⟨-, -, hpreds, hkeys⟩ := deleteKeys_eq_ok.1 hdel
  have hcovered := hcovered preds hpreds
  have hselects : del.Selects codec schema ck ↔ ∀ key ∈ ck, preds.Select codec schema key := by
    constructor
    · exact fun hall => hall preds hpreds
    · intro hall other hother
      rw [hpreds] at hother
      cases hother
      exact hall
  have hck := (resolveKeyBindings_eq_ok.1 hkeys).2
  rw [deleteMutation_coversRow hcolumns, hselects]
  rcases hfull with ⟨hnil, rfl⟩ | ⟨hpos, key, rfl, hlen⟩
  · -- no clustering columns: the one row of the partition
    have hpredsNil := rangePredicates_eq_nil_of_keyless hnil hranges
    have hunbound : keys.clustering = [] := (bindOptional_eq_nil hck).2 fun col hcol => by
      have hmem := mem_orderedKeys.1 hcol
      rw [hnil] at hmem
      cases hmem
    have hrow : isPartitionDelete schema del preds (clusteringKeyOfColumns keys.clustering) = false :=
      (isPartitionDelete_iff hkeys hpredsNil).2 (.inr (.inl hnil))
    refine iff_of_true (.inr (.inl ⟨hrow, hpredsNil, ?_⟩)) fun key hkey => (nomatch hkey)
    rw [hunbound]
    rfl
  · have hsingle : (∀ k ∈ some key, preds.Select codec schema k) ↔ preds.Select codec schema key :=
      ⟨fun hall => hall key rfl, fun hkey k hk => by cases hk; exact hkey⟩
    rw [hsingle]
    -- an unequated DELETE without ranges is one of the partition
    have hwhole : preds.rangePredicates = [] →
        (∀ col ∈ schema.clusteringKeys, ¬ preds.equates codec col) →
        preds.Select codec schema key ∧
          isPartitionDelete schema del preds (clusteringKeyOfColumns keys.clustering) = true := by
      intro hpredsNil hequal
      refine ⟨⟨?_, fun p hp => absurd hp (by rw [hpredsNil]; exact List.not_mem_nil)⟩,
        isPartitionDelete_of_unequated hkeys hcolumns hpos hpredsNil hequal⟩
      intro b hb j col hcol hname
      exact absurd ⟨b, hb, hname.symm⟩ (hequal col (mem_orderedKeys.1 (List.mem_of_getElem? hcol)))
    cases hcovered with
    | partition hpredsNil hequal =>
      obtain ⟨hselect, hpartition⟩ := hwhole hpredsNil hequal
      exact iff_of_true (.inl hpartition) hselect
    | row hpredsNil hequal =>
      obtain ⟨hlength, hiff⟩ := row_select_iff hck hpredsNil hequal hlen
      obtain ⟨col, hcol⟩ := List.exists_mem_of_ne_nil _ hpos
      have hne : keys.clustering ≠ [] := by
        intro hempty
        rw [hempty] at hlength
        exact hpos (List.length_eq_zero_iff.1 hlength.symm)
      have hkeyOf : clusteringKeyOfColumns keys.clustering = some ⟨keys.clustering⟩ := by
        rw [clusteringKeyOfColumns, if_neg (by simpa using hne)]
      have hrangesNil : ranges = [] := (deleteRanges_eq_nil hranges).2 hpredsNil
      have hrow : isPartitionDelete schema del preds (some ⟨keys.clustering⟩) = false := by
        rw [isPartitionDelete]
        rfl
      rw [hkeyOf, hrow, hrangesNil, ← hiff]
      constructor
      · rintro (hbad | ⟨-, -, heq⟩ | ⟨rt, hrt, -⟩)
        · cases hbad
        · exact heq
        · cases hrt
      · exact fun heq => .inr (.inl ⟨rfl, hpredsNil, heq⟩)
    | range hrange =>
      by_cases hpredsNil : preds.rangePredicates = []
      · obtain ⟨hselect, hpartition⟩ := hwhole hpredsNil hrange.unequated
        exact iff_of_true (.inl hpartition) hselect
      · have hnot : isPartitionDelete schema del preds (clusteringKeyOfColumns keys.clustering) =
            false := by
          have hfalse : preds.rangePredicates.isEmpty = false :=
            Bool.eq_false_iff.2 fun hempty => hpredsNil (List.isEmpty_iff.1 hempty)
          rw [isPartitionDelete, hfalse, Bool.and_false]
        rw [deleteRanges, if_neg (by simpa using hpredsNil), buildRangeTombstones] at hranges
        split at hranges
        · cases hranges
        · rw [bind_eq_ok] at hranges
          obtain ⟨bounds, hbounds, hranges⟩ := hranges
          cases hranges
          have hiff := range_covers_iff hlen hpos hrange hbounds timestamp clock.seconds
          have hselect : preds.Select codec schema key ↔
              ∀ pred ∈ preds.rangePredicates, pred.Selects codec schema key := by
            constructor
            · exact fun hselect => hselect.ranges
            · intro hall
              refine ⟨?_, hall⟩
              intro b hb j col hcol hname
              exact absurd ⟨b, hb, hname.symm⟩
                (hrange.unequated col (mem_orderedKeys.1 (List.mem_of_getElem? hcol)))
          rw [hnot, hselect, ← hiff]
          simp [hpredsNil]

end Delete

/-! ### Runs -/

/-- `DELETE FROM events WHERE k = 1 AND c >= 3 AND c < 7`. -/
def deleteInterval : CqlDelete :=
  deleteFrom (.binary (.binary (compareColumn "k" .eq 1) .and (compareColumn "c" .ge 3)) .and
    (compareColumn "c" .lt 7))

theorem delete_covers_interval :
    ∃ m, deleteToMutation intCodec eventsTable ⟨.ok 9000, 9⟩ deleteInterval = .ok m ∧
      (m.coversRow eventsTable.toTableSchema (some ⟨[("c", .integer 5)]⟩) ↔
        deleteInterval.Selects intCodec eventsTable (some ⟨[("c", .integer 5)]⟩)) := by
  refine ⟨_, rfl, @delete_covers_selected _ _ intCodec eventsTable ⟨.ok 9000, 9⟩ _ _ rfl rfl ?_ _
    (.inr ⟨by decide, _, rfl, rfl⟩)⟩
  intro preds hpreds
  cases hpreds
  refine .range ⟨?_, ?_, by decide, by decide, by decide, .inl rfl⟩
  · intro col hcol
    rw [List.mem_singleton.1 hcol]
    rintro ⟨b, hb, hname⟩
    rw [List.mem_singleton.1 hb] at hname
    exact absurd hname (by decide)
  · intro pred _ i col hcol _
    have hlt := (List.getElem?_eq_some_iff.1 hcol).1
    exact Nat.lt_one_iff.1 hlt

/-- The events of a key from the latest to the first. -/
def latestEvents : CqlSchema :=
  { eventsTable with clusteringKeys := [⟨"c", "int", 0, .desc⟩] }

/-- `DELETE FROM events WHERE k = 1 AND c > 5` on a descending column covers the row 3. -/
theorem delete_descending_covers_below :
    ¬ ∀ m, deleteToMutation intCodec latestEvents ⟨.ok 9000, 9⟩ (deleteFrom
        (.binary (compareColumn "k" .eq 1) .and (compareColumn "c" .gt 5))) = .ok m →
      (m.coversRow latestEvents.toTableSchema (some ⟨[("c", .integer 3)]⟩) ↔
        (deleteFrom (.binary (compareColumn "k" .eq 1) .and (compareColumn "c" .gt 5))).Selects
          intCodec latestEvents (some ⟨[("c", .integer 3)]⟩)) := by
  intro h
  have hcovers := (h _ rfl).1 (.inr (.inr ⟨_, List.mem_cons_self, by decide⟩))
  have hselects := (hcovers _ rfl _ rfl).ranges _ List.mem_cons_self 0 ⟨"c", "int", 0, .desc⟩ rfl rfl
    (.integer 5) rfl
  revert hselects
  decide

end Cqlite
