import Cqlite.Query.AggregateValues

/-! Aggregation, and when the executor's rows are the rows by definition.

    There is one row for each class of the group columns, in the order in which the classes first come,
    with the aggregates of its rows. The executor makes these rows as long as there are not too many of
    them, no key differs from itself, and the aggregates are met; a global aggregate folds the rows of
    the scan to the same row. -/

namespace Cqlite

/-! ### The reference -/

/-- The groups: the classes of the group columns, or all rows where there are none. -/
def referenceGroups (plan : AggregationPlan) (rows : List QueryRow) :
    List (List Value × List QueryRow) :=
  if plan.groupByColumns.isEmpty then [([.null], rows)]
  else HashIndex.classes groupKeyEq (buildGroupKey plan.groupByColumns) rows

noncomputable def referenceRow (order : ColumnOrder) (env : AggregationEnv) (plan : AggregationPlan)
    (group : List Value × List QueryRow) : QueryRow :=
  ⟨insertAll (insertAll (fun _ => none) (plan.groupByOutputNames.zip group.1))
    ((plan.aggregates.map (·.aliasName)).zip
      (plan.aggregates.map fun agg => referenceAggregate order env agg group.2)), []⟩

/-! ### Names -/

/-- The aggregates whose names no later one has. -/
def visible : List AggregateComputation → List AggregateComputation
  | [] => []
  | agg :: aggs =>
    if aggs.any fun other => other.aliasName = agg.aliasName then visible aggs else agg :: visible aggs

theorem insertAll_cons (values : String → Option Value) (name : String) (v : Value)
    (entries : List (String × Value)) :
    insertAll values ((name, v) :: entries) = insertAll (Function.update values name (some v)) entries :=
  rfl

variable {name : String} {group : List Value × List QueryRow} {agg : AggregateComputation}

theorem insertAll_of_notMem {entries : List (String × Value)} (h : name ∉ entries.map (·.1))
    (values : String → Option Value) : insertAll values entries name = values name := by
  induction entries generalizing values with
  | nil => rfl
  | cons entry entries ih =>
    rw [List.map_cons, List.mem_cons, not_or] at h
    obtain ⟨other, v⟩ := entry
    rw [insertAll_cons, ih h.2, Function.update_of_ne h.1]

theorem insertAll_of_mem {entries : List (String × Value)} (h : name ∈ entries.map (·.1))
    (values : String → Option Value) (v : Option Value) :
    insertAll (Function.update values name v) entries = insertAll values entries := by
  induction entries generalizing values with
  | nil => cases h
  | cons entry entries ih =>
    obtain ⟨other, w⟩ := entry
    rw [insertAll_cons, insertAll_cons]
    by_cases hname : name = other
    · rw [hname, Function.update_idem]
    · rw [Function.update_comm hname]
      exact ih ((List.mem_cons.1 h).resolve_left hname) _

theorem map_fst_zip_map {α : Type} (names : α → String) (f : α → Value) (xs : List α) :
    (((xs.map names).zip (xs.map f)).map (·.1)) = xs.map names := by
  rw [List.map_fst_zip (by simp)]

/-- Two rows of aggregates are one row where the visible aggregates agree. -/
theorem insertAll_eq_iff (aggs : List AggregateComputation) (values : String → Option Value)
    (f g : AggregateComputation → Value) :
    insertAll values ((aggs.map (·.aliasName)).zip (aggs.map f)) =
        insertAll values ((aggs.map (·.aliasName)).zip (aggs.map g)) ↔
      ∀ agg ∈ visible aggs, f agg = g agg := by
  induction aggs generalizing values with
  | nil => simp [visible]
  | cons agg aggs ih =>
    simp only [List.map_cons, List.zip_cons_cons, insertAll_cons]
    rw [visible]
    split
    · rename_i hany
      obtain ⟨other, hother, hname⟩ := List.any_eq_true.1 hany
      have hmem : ∀ h : AggregateComputation → Value,
          agg.aliasName ∈ (((aggs.map (·.aliasName)).zip (aggs.map h)).map (·.1)) := by
        intro h
        rw [map_fst_zip_map, ← of_decide_eq_true hname]
        exact List.mem_map_of_mem hother
      rw [insertAll_of_mem (hmem f), insertAll_of_mem (hmem g), ih]
    · rename_i hnone
      have hnot : ∀ h : AggregateComputation → Value,
          agg.aliasName ∉ (((aggs.map (·.aliasName)).zip (aggs.map h)).map (·.1)) := by
        intro h hmem
        rw [map_fst_zip_map] at hmem
        obtain ⟨other, hother, hname⟩ := List.mem_map.1 hmem
        exact hnone (List.any_eq_true.2 ⟨other, hother, decide_eq_true hname⟩)
      rw [List.forall_mem_cons]
      constructor
      · intro heq
        have hhead := congrFun heq agg.aliasName
        rw [insertAll_of_notMem (hnot f), insertAll_of_notMem (hnot g), Function.update_self,
          Function.update_self] at hhead
        have hsame := Option.some.inj hhead
        rw [hsame] at heq
        exact ⟨hsame, (ih _).1 heq⟩
      · rintro ⟨hsame, hrest⟩
        rw [hsame]
        exact (ih _).2 hrest

/-! ### The groups of the executor -/

variable {rows : List QueryRow}

theorem classes_eq_referenceGroups (plan : AggregationPlan)
    (h : rows ≠ [] ∨ plan.groupByColumns ≠ []) :
    HashIndex.classes groupKeyEq (buildGroupKey plan.groupByColumns) rows = referenceGroups plan rows := by
  unfold referenceGroups
  split
  · rename_i hempty
    have hnil := List.isEmpty_iff.1 hempty
    have hkey : buildGroupKey plan.groupByColumns = fun _ => [.null] := by
      funext row
      rw [buildGroupKey, if_pos hempty]
    rw [hkey]
    exact HashIndex.classes_const (by simp [groupKeyEq, groupValuesEq_self, Value.anyUdtNan, Value.udtNan])
      (h.resolve_right fun hne => hne hnil)
  · rfl

variable {plan : AggregationPlan}

theorem referenceGroups_rows (h : group ∈ referenceGroups plan rows) :
    group.2.Sublist rows := by
  unfold referenceGroups at h
  split at h
  · rw [List.mem_singleton.1 h]
  · obtain ⟨k, -, rfl⟩ := List.mem_map.1 h
    exact List.filter_sublist

theorem referenceGroups_ne_nil
    (hrefl : ∀ row ∈ rows, groupKeyEq (buildGroupKey plan.groupByColumns row)
      (buildGroupKey plan.groupByColumns row) = true) (h : rows ≠ [] ∨ plan.groupByColumns ≠ [])
    (hgroup : group ∈ referenceGroups plan rows) : group.2 ≠ [] := by
  rw [← classes_eq_referenceGroups plan h] at hgroup
  exact HashIndex.ne_nil_of_mem_classes hrefl hgroup

theorem finalizeEmpty_eq (order : ColumnOrder) (env : AggregationEnv)
    (hnames : plan.groupByOutputNames = []) :
    finalizeEmptyGlobalAggregate plan = referenceRow order env plan ([.null], []) := by
  unfold finalizeEmptyGlobalAggregate referenceRow
  rw [hnames, List.zip_map', List.zip_nil_left]
  refine congrArg (fun values => QueryRow.mk (insertAll (fun _ => none) values) [])
    (List.map_congr_left fun agg _ => congrArg (Prod.mk agg.aliasName) ?_)
  unfold referenceAggregate
  cases agg.function with
  | count =>
    simp only [AggregateComputation.inputs, List.filterMap_nil, List.filter_nil,
      HashIndex.firstKeys, List.length_nil, ite_self]
    rfl
  | min | max => simp [AggregateComputation.inputs, foremost]
  | sum | avg => rfl

theorem anyUdtNan_eq_false {vs : List Value} :
    Value.anyUdtNan vs = false ↔ ∀ v ∈ vs, v.udtNan = false := by
  induction vs with
  | nil => simp [Value.anyUdtNan]
  | cons v vs ih => simp [Value.anyUdtNan, ih]

/-- A key is equal to itself unless it has a UDT with a NaN in it. -/
theorem buildGroupKey_self (columns : List String) (row : QueryRow) :
    groupKeyEq (buildGroupKey columns row) (buildGroupKey columns row) = true ↔
      ∀ column ∈ columns, ∀ v, row.values column = some v → v.udtNan = false := by
  rw [groupKeyEq, groupValuesEq_self, Bool.not_eq_true', anyUdtNan_eq_false, buildGroupKey]
  split
  · rename_i hempty
    rw [List.isEmpty_iff.1 hempty]
    simp [Value.udtNan]
  · rw [List.forall_mem_map]
    refine forall₂_congr fun column _ => ?_
    cases row.values column with
    | none => simp [Value.udtNan]
    | some v => simp

section Groups

variable [DoubleArith] (env : AggregationEnv) (plan : AggregationPlan)

theorem foldl_updateAggregates (rows : List QueryRow) (states : AggregateComputation → AggregateValue) :
    rows.foldl (updateAggregates env plan) (plan.aggregates.map states) =
      plan.aggregates.map fun agg =>
        rows.foldl (fun state row => updateAggregate env.display state agg row) (states agg) := by
  induction rows generalizing states with
  | nil => rfl
  | cons row rows ih =>
    have hstep : updateAggregates env plan (plan.aggregates.map states) row =
        plan.aggregates.map fun agg => updateAggregate env.display (states agg) agg row := by
      unfold updateAggregates
      generalize plan.aggregates = aggs
      induction aggs with
      | nil => rfl
      | cons agg aggs iha => exact congrArg (_ :: ·) iha
    rw [List.foldl_cons, hstep, ih]
    rfl

/-- The row of a group: each aggregate over the rows of the group. -/
theorem finalizeGroup_foldl (key : List Value) (rows : List QueryRow) :
    finalizeGroup plan key (rows.foldl (updateAggregates env plan)
        (initAggregateAccumulators env plan)) =
      ⟨insertAll (insertAll (fun _ => none) (plan.groupByOutputNames.zip key))
        ((plan.aggregates.map (·.aliasName)).zip (plan.aggregates.map fun agg =>
          aggregateOver env.display agg (env.resultType agg) rows)), []⟩ := by
  unfold finalizeGroup initAggregateAccumulators
  rw [foldl_updateAggregates, List.map_map]
  rfl

/-- The loop: the table of the groups, as long as there are not too many rows. -/
theorem foldlM_aggregateRow (rows : List QueryRow)
    (table : HashIndex.Table (List Value) (List AggregateValue)) (used : Nat) (hused : used ≤ memoryLimitBytes) :
    rows.foldlM (aggregateRow env plan) ⟨table, used⟩ =
      if used + 100 * rows.length ≤ memoryLimitBytes then
        .ok ⟨rows.foldl (HashIndex.insert (hashGroupKey env.finish) groupKeyEq
          (initAggregateAccumulators env plan) (updateAggregates env plan)
          (buildGroupKey plan.groupByColumns)) table, used + 100 * rows.length⟩
      else .error "Aggregation memory limit exceeded" := by
  induction rows generalizing table used with
  | nil =>
    rw [if_pos (by simpa using hused)]
    rfl
  | cons row rows ih =>
    have hstep : aggregateRow env plan ⟨table, used⟩ row =
        if memoryLimitBytes < used + 100 then .error "Aggregation memory limit exceeded"
        else .ok ⟨HashIndex.insert (hashGroupKey env.finish) groupKeyEq
          (initAggregateAccumulators env plan) (updateAggregates env plan)
          (buildGroupKey plan.groupByColumns) table row, used + 100⟩ := rfl
    rw [List.foldlM_cons, hstep, List.length_cons]
    split
    · rw [if_neg (by omega)]
      rfl
    · refine (ih _ (used + 100) (by omega)).trans ?_
      have heq : used + 100 + 100 * rows.length = used + 100 * (rows.length + 1) := by omega
      rw [heq, List.foldl_cons]

/-- At most this many rows are aggregated. -/
def maxRows : Nat := 5368709

theorem executeAggregation_eq (rows : List QueryRow) :
    executeAggregation env plan rows =
      if rows.length ≤ maxRows then
        let groups := (rows.foldl (HashIndex.insert (hashGroupKey env.finish) groupKeyEq
          (initAggregateAccumulators env plan) (updateAggregates env plan)
          (buildGroupKey plan.groupByColumns)) HashIndex.Table.empty).groups
        .ok (if groups.isEmpty && plan.groupByColumns.isEmpty then [finalizeEmptyGlobalAggregate plan]
          else groups.map fun group => finalizeGroup plan group.1 group.2)
      else .error "Aggregation memory limit exceeded" := by
  unfold executeAggregation
  rw [foldlM_aggregateRow env plan rows _ 0 (Nat.zero_le _)]
  have hiff : 0 + 100 * rows.length ≤ memoryLimitBytes ↔ rows.length ≤ maxRows := by
    unfold memoryLimitBytes maxRows
    omega
  by_cases hrows : rows.length ≤ maxRows
  · rw [if_pos (hiff.2 hrows), if_pos hrows]
    rfl
  · rw [if_neg (fun h => hrows (hiff.1 h)), if_neg hrows]
    rfl

/-- The row the executor makes of a group. -/
def executedRow (group : List Value × List QueryRow) : QueryRow :=
  ⟨insertAll (insertAll (fun _ => none) (plan.groupByOutputNames.zip group.1))
    ((plan.aggregates.map (·.aliasName)).zip (plan.aggregates.map fun agg =>
      aggregateOver env.display agg (env.resultType agg) group.2)), []⟩

variable {rows : List QueryRow}

theorem executeAggregation_groups (hfew : rows.length ≤ maxRows)
    (hrefl : ∀ row ∈ rows, groupKeyEq (buildGroupKey plan.groupByColumns row)
      (buildGroupKey plan.groupByColumns row) = true)
    (h : rows ≠ [] ∨ plan.groupByColumns ≠ []) :
    executeAggregation env plan rows = .ok ((referenceGroups plan rows).map (executedRow env plan)) := by
  rw [executeAggregation_eq, if_pos hfew]
  have hgroups := @HashIndex.foldl_insert_empty _ _ _ (hashGroupKey env.finish) groupKeyEq
    (initAggregateAccumulators env plan) (updateAggregates env plan)
    (buildGroupKey plan.groupByColumns) groupKeyEq_symmTrans (hashGroupKey_of_eq env.finish) rows hrefl
  rw [classes_eq_referenceGroups plan h] at hgroups
  dsimp only
  rw [hgroups, List.map_map]
  have hsome : (((referenceGroups plan rows).map fun g =>
      (g.1, g.2.foldl (updateAggregates env plan) (initAggregateAccumulators env plan))).isEmpty &&
        plan.groupByColumns.isEmpty) = false := by
    rw [Bool.and_eq_false_iff]
    unfold referenceGroups
    split
    · exact .inl rfl
    · rename_i hcolumns
      exact .inr (by simpa using hcolumns)
  rw [hsome]
  refine congrArg Except.ok (List.map_congr_left fun group _ => ?_)
  exact finalizeGroup_foldl env plan group.1 group.2

theorem executeAggregation_empty (hcolumns : plan.groupByColumns = []) :
    executeAggregation env plan [] = .ok [finalizeEmptyGlobalAggregate plan] := by
  rw [executeAggregation_eq, if_pos (by simp), hcolumns]
  rfl

/-- A group has its row by definition where its visible aggregates are met. -/
theorem executedRow_eq_iff (order : ColumnOrder)
    (htyped : ∀ agg ∈ plan.aggregates, agg.Typed env group.2) (hsmall : group.2.length ≤ maxRows) :
    executedRow env plan group = referenceRow order env plan group ↔
      ∀ agg ∈ visible plan.aggregates, agg.Meets order env group.2 := by
  have hvisible : ∀ aggs : List AggregateComputation, ∀ agg ∈ visible aggs, agg ∈ aggs := by
    intro aggs agg hagg
    induction aggs with
    | nil => cases hagg
    | cons first aggs ih =>
      rw [visible] at hagg
      split at hagg
      · exact List.mem_cons_of_mem _ (ih hagg)
      · rcases List.mem_cons.1 hagg with rfl | hagg
        · exact List.mem_cons_self
        · exact List.mem_cons_of_mem _ (ih hagg)
  unfold executedRow referenceRow
  rw [QueryRow.mk.injEq, and_iff_left rfl, insertAll_eq_iff plan.aggregates]
  exact forall₂_congr fun agg hagg =>
    aggregateOver_iff order env (htyped agg (hvisible _ agg hagg)) hsmall

end Groups

/-! ### Exactness -/

section Exact

variable [DoubleArith] (order : ColumnOrder) (env : AggregationEnv) (plan : AggregationPlan)
  (rows : List QueryRow)

/-- A plan of `plan_aggregation`, over columns of a type. -/
structure AggregationPlan.Typed : Prop where
  names : plan.groupByOutputNames.length = plan.groupByColumns.length
  aggregates : ∀ agg ∈ plan.aggregates, agg.Typed env rows

/-- The keys of the rows fall into classes, there is one row by definition for each of them, and a
    global aggregate is the same when its rows are folded as they come. -/
structure AggregationExact : Prop where
  reflexive : ∀ row ∈ rows, groupKeyEq (buildGroupKey plan.groupByColumns row)
    (buildGroupKey plan.groupByColumns row) = true
  result : executeAggregation env plan rows =
    .ok ((referenceGroups plan rows).map (referenceRow order env plan))
  streaming : plan.groupByColumns = [] → executeAggregation env plan rows =
    .ok [finalizeFold plan (rows.foldl (foldRow env plan) (initAggregateAccumulators env plan, false))]

/-- There are not too many rows, no group column holds a UDT with a NaN in it, and the rows of each
    group are as its visible aggregates need them. -/
structure AggregationMeets : Prop where
  few : rows.length ≤ maxRows
  noNan : ∀ row ∈ rows, ∀ column ∈ plan.groupByColumns, ∀ v, row.values column = some v →
    v.udtNan = false
  aggregates : ∀ group ∈ referenceGroups plan rows, group.2 ≠ [] →
    ∀ agg ∈ visible plan.aggregates, agg.Meets order env group.2

variable {order env plan rows}

theorem finalizeFold_eq (hne : rows ≠ []) :
    finalizeFold plan (rows.foldl (foldRow env plan) (initAggregateAccumulators env plan, false)) =
      executedRow env plan ([.null], rows) := by
  have hfold : ∀ (rows : List QueryRow) (accumulators : List AggregateValue) (any : Bool),
      rows.foldl (foldRow env plan) (accumulators, any) =
        (rows.foldl (updateAggregates env plan) accumulators, any || !rows.isEmpty) := by
    intro rows
    induction rows with
    | nil => simp
    | cons row rows ih =>
      intro accumulators any
      rw [List.foldl_cons, List.foldl_cons, foldRow, ih]
      simp
  rw [hfold]
  have hsome : (false || !rows.isEmpty) = true := by simpa using hne
  rw [hsome]
  exact finalizeGroup_foldl env plan [.null] rows

/-- The scan folds the accepted rows. -/
theorem foldScan_eq [ValueOps] {predicates : List SSTablePredicate} {projection : List String}
    {filters : List WhereExpression} {entries : List ScanEntry}
    (h : foldedRows predicates projection filters entries = .ok rows)
    (folded : List AggregateValue × Bool) :
    foldScan env plan predicates projection filters folded entries =
      .ok (rows.foldl (foldRow env plan) folded) := by
  induction entries generalizing rows folded with
  | nil =>
    cases h
    rfl
  | cons e entries ih =>
    rw [foldedRows] at h
    rw [foldScan]
    split at h
    · exact ih h folded
    · split at h
      · rename_i hskip
        rw [if_pos hskip]
        exact ih h folded
      · rename_i row _ hkept
        rw [if_neg hkept]
        obtain ⟨keep, hkeep, h⟩ := bind_eq_ok.1 h
        obtain ⟨rest, hrest, h⟩ := bind_eq_ok.1 h
        refine bind_eq_ok.2 ⟨keep, hkeep, ?_⟩
        obtain rfl := Except.ok.inj h
        cases keep with
        | true => exact ih hrest _
        | false => exact ih hrest _

/-- The rows of the executor are the rows by definition where the aggregates are met. -/
theorem result_iff (htyped : plan.Typed env rows) (hfew : rows.length ≤ maxRows)
    (hrefl : ∀ row ∈ rows, groupKeyEq (buildGroupKey plan.groupByColumns row)
      (buildGroupKey plan.groupByColumns row) = true) :
    executeAggregation env plan rows = .ok ((referenceGroups plan rows).map (referenceRow order env plan)) ↔
      ∀ group ∈ referenceGroups plan rows, group.2 ≠ [] →
        ∀ agg ∈ visible plan.aggregates, agg.Meets order env group.2 := by
  by_cases h : rows ≠ [] ∨ plan.groupByColumns ≠ []
  · rw [executeAggregation_groups env plan hfew hrefl h, Except.ok.injEq, List.map_inj_left]
    refine forall₂_congr fun group hgroup => ?_
    have hsub := referenceGroups_rows hgroup
    have hne := referenceGroups_ne_nil hrefl h hgroup
    rw [executedRow_eq_iff env plan order
      (fun agg hagg => (htyped.aggregates agg hagg).sublist hsub) (hsub.length_le.trans hfew)]
    exact ⟨fun hmeets _ => hmeets, fun hmeets => hmeets hne⟩
  · push Not at h
    obtain ⟨rfl, hcolumns⟩ := h
    have hnames : plan.groupByOutputNames = [] := by
      rw [← List.length_eq_zero_iff, htyped.names, hcolumns]
      rfl
    have hgroups : referenceGroups plan [] = [([.null], [])] := by
      rw [referenceGroups, hcolumns]
      rfl
    rw [executeAggregation_empty env plan hcolumns, hgroups, finalizeEmpty_eq order env hnames]
    refine iff_of_true rfl fun group hgroup hne => ?_
    rw [List.mem_singleton.1 hgroup] at hne
    exact absurd rfl hne

theorem streaming_eq (hfew : rows.length ≤ maxRows) (hcolumns : plan.groupByColumns = []) :
    executeAggregation env plan rows = .ok [finalizeFold plan
      (rows.foldl (foldRow env plan) (initAggregateAccumulators env plan, false))] := by
  by_cases hne : rows = []
  · rw [hne, executeAggregation_empty env plan hcolumns]
    rfl
  · have hrefl : ∀ row ∈ rows, groupKeyEq (buildGroupKey plan.groupByColumns row)
        (buildGroupKey plan.groupByColumns row) = true := by
      intro row _
      rw [buildGroupKey_self, hcolumns]
      simp
    rw [executeAggregation_groups env plan hfew hrefl (.inl hne), finalizeFold_eq hne, referenceGroups,
      if_pos (List.isEmpty_iff.2 hcolumns)]
    rfl

/-- Keys that are equal are equal both ways, through others and in their hashes; a null changes nothing
    but `COUNT(*)`; the scan folds the rows that reach it. And the rows are the rows by definition, one
    for each class of keys, just where there are not too many rows, no group column holds a UDT with a
    NaN in it, and in each group: values counted as distinct differ, a sum has a value, the sum of an
    average fits 64 bits, and the executor's comparison picks the extremum. -/
theorem aggregation_exact_iff (order : ColumnOrder) (env : AggregationEnv) (plan : AggregationPlan)
    (rows : List QueryRow) (htyped : plan.Typed env rows) :
    (HashIndex.Partial groupKeyEq ∧
      (∀ a b, groupKeyEq a b = true → hashGroupKey env.finish a = hashGroupKey env.finish b) ∧
      (∀ state (agg : AggregateComputation) row, (∀ v, agg.input row = some v → v = .null) →
        (agg.column = "*" → ∀ n, state ≠ .count n) →
        updateAggregate env.display state agg row = state) ∧
      ∀ [ValueOps], ∀ predicates projection filters entries,
        foldedRows predicates projection filters entries = .ok rows →
        foldScan env plan predicates projection filters (initAggregateAccumulators env plan, false)
            entries =
          .ok (rows.foldl (foldRow env plan) (initAggregateAccumulators env plan, false))) ∧
    (AggregationExact order env plan rows ↔ AggregationMeets order env plan rows) := by
  refine ⟨⟨groupKeyEq_symmTrans, hashGroupKey_of_eq env.finish, ?_, ?_⟩, ?_, ?_⟩
  · intro state agg row hnull hstar
    exact updateWith_null env.display hnull state fun h => hstar (of_decide_eq_true h)
  · intro _ predicates projection filters entries h
    exact foldScan_eq h _
  · rintro ⟨hrefl, hresult, -⟩
    have hfew : rows.length ≤ maxRows := by
      by_contra hmany
      rw [executeAggregation_eq, if_neg hmany] at hresult
      cases hresult
    exact ⟨hfew, fun row hrow => (buildGroupKey_self _ _).1 (hrefl row hrow),
      (result_iff htyped hfew hrefl).1 hresult⟩
  · rintro ⟨hfew, hnan, hmeets⟩
    have hrefl : ∀ row ∈ rows, groupKeyEq (buildGroupKey plan.groupByColumns row)
        (buildGroupKey plan.groupByColumns row) = true :=
      fun row hrow => (buildGroupKey_self _ _).2 (hnan row hrow)
    exact ⟨hrefl, (result_iff htyped hfew hrefl).2 hmeets, streaming_eq hfew⟩

end Exact

/-! ### Readings by sensor -/

/-- Doubles play no part. -/
@[reducible] def noDoubles : DoubleArith := ⟨fun a _ => a, fun a _ => a⟩

/-- Integer columns, and a hasher under which all keys collide. -/
def collidingEnv : AggregationEnv := ⟨fun _ => some .int, fun _ => 0, fun _ => ""⟩

def readingRow (sensor : Int) (reading : Value) : QueryRow :=
  ⟨fun name => if name = "sensor" then some (.integer sensor)
    else if name = "reading" then some reading else none, []⟩

/-- `SELECT sensor, COUNT(*), SUM(reading) … GROUP BY sensor`. -/
def bySensor : AggregationPlan :=
  ⟨["sensor"], ["sensor"], [⟨.count, "*", "n", false⟩, ⟨.sum, "reading", "total", false⟩]⟩

/-- `SELECT COUNT(DISTINCT reading)`. -/
def distinctReadings : AggregationPlan := ⟨[], [], [⟨.count, "reading", "n", true⟩]⟩

/-- `SELECT SUM(reading)`. -/
def totalReading : AggregationPlan := ⟨[], [], [⟨.sum, "reading", "total", false⟩]⟩

/-- One after the other: sensor 1, sensor 2 without a reading, sensor 2, and sensor 1 again. -/
def readings : List QueryRow :=
  [readingRow 1 (.integer 7), readingRow 2 .null, readingRow 2 (.integer 5), readingRow 1 (.integer 8)]

theorem readingRow_input (h : agg.column = "reading") (sensor : Int) (v : Value) :
    agg.input (readingRow sensor v) = some v := by
  rw [AggregateComputation.input, h]
  rfl

theorem readingRow_key (sensor : Int) (v : Value) :
    buildGroupKey ["sensor"] (readingRow sensor v) = [.integer sensor] := rfl

theorem integerKey_eq (a b : Int) : groupKeyEq [.integer a] [.integer b] = decide (a = b) := by
  simp only [groupKeyEq, groupValuesEq, groupValueEq, Value.partialEq, Bool.and_true]
  exact Bool.beq_eq_decide_eq _ _

theorem readings_groups : referenceGroups bySensor readings =
    [([.integer 1], [readingRow 1 (.integer 7), readingRow 1 (.integer 8)]),
      ([.integer 2], [readingRow 2 .null, readingRow 2 (.integer 5)])] := by
  simp [referenceGroups, bySensor, HashIndex.classes, HashIndex.firstKeys, HashIndex.members, readings,
    readingRow_key, integerKey_eq]

theorem AggregateComputation.typed_of_count {env : AggregationEnv} (h : agg.function = .count)
    (rows : List QueryRow) : agg.Typed env rows :=
  ⟨by simp [h], by simp [h]⟩

theorem readings_typed : bySensor.Typed collidingEnv readings where
  names := rfl
  aggregates := by
    intro agg hagg
    simp only [bySensor, List.mem_cons, List.not_mem_nil, or_false] at hagg
    rcases hagg with rfl | rfl
    · exact AggregateComputation.typed_of_count rfl _
    · refine ⟨fun _ => ⟨rfl, ?_⟩, by simp⟩
      intro v hv
      have hinputs : v = .integer 7 ∨ v = .integer 5 ∨ v = .integer 8 := by
        simpa [AggregateComputation.inputs, readings, readingRow_input, Value.isNull] using hv
      rcases hinputs with rfl | rfl | rfl
      · exact ⟨7, rfl, by decide⟩
      · exact ⟨5, rfl, by decide⟩
      · exact ⟨8, rfl, by decide⟩

theorem readings_meet (order : ColumnOrder) :
    AggregationMeets order collidingEnv bySensor readings where
  few := by decide
  noNan := by
    intro row hrow column hcolumn v hv
    rw [List.mem_singleton.1 hcolumn] at hv
    simp only [readings, List.mem_cons, List.not_mem_nil, or_false] at hrow
    rcases hrow with rfl | rfl | rfl | rfl <;> cases hv <;> rfl
  aggregates := by
    rw [readings_groups]
    intro group hgroup _ agg hagg
    have hvisible : visible bySensor.aggregates = bySensor.aggregates := rfl
    rw [hvisible] at hagg
    simp only [bySensor, List.mem_cons, List.not_mem_nil, or_false] at hagg
    rcases hagg with rfl | rfl
    · exact .inl rfl
    · simp only [List.mem_cons, List.not_mem_nil, or_false] at hgroup
      rcases hgroup with rfl | rfl <;>
        simp [AggregateComputation.Meets, AggregateComputation.inputs, readingRow_input, Value.isNull]

/-- The loop and the fold, under an adversarial hasher. -/
theorem readings_aggregated :
    @AggregationExact noDoubles ColumnOrder.typed collidingEnv bySensor readings :=
  (@aggregation_exact_iff noDoubles ColumnOrder.typed collidingEnv bySensor readings
    readings_typed).2.2 (readings_meet _)

/-- A reading that comes twice is counted twice, and the sum of a null is zero where that of no row is
    null. -/
theorem repeated_reading_counted :
    ((@executeAggregation noDoubles collidingEnv distinctReadings
          [readingRow 1 (.integer 4), readingRow 2 (.integer 4)]).map fun rows =>
        rows.map fun row => row.values "n") = .ok [some (.bigInt 2)] ∧
      ((@executeAggregation noDoubles collidingEnv totalReading [readingRow 1 .null]).map fun rows =>
        rows.map fun row => row.values "total") = .ok [some (.integer 0)] ∧
      ((@executeAggregation noDoubles collidingEnv totalReading []).map fun rows =>
        rows.map fun row => row.values "total") = .ok [some .null] ∧
      ¬@AggregationExact noDoubles ColumnOrder.typed collidingEnv distinctReadings
        [readingRow 1 (.integer 4), readingRow 2 (.integer 4)] ∧
      ¬@AggregationExact noDoubles ColumnOrder.typed collidingEnv totalReading [readingRow 1 .null] := by
  let _ := noDoubles
  have hdistinct : distinctReadings.Typed collidingEnv
      [readingRow 1 (.integer 4), readingRow 2 (.integer 4)] :=
    ⟨rfl, by simp [distinctReadings, AggregateComputation.typed_of_count]⟩
  have htotal : totalReading.Typed collidingEnv [readingRow 1 .null] := by
    refine ⟨rfl, fun agg hagg => ?_⟩
    rw [List.mem_singleton.1 hagg]
    exact ⟨fun _ => ⟨rfl, by simp [AggregateComputation.inputs, readingRow_input, Value.isNull]⟩, by simp⟩
  refine ⟨?_, ?_, ?_, fun h => ?_, fun h => ?_⟩
  · rw [streaming_eq (by decide) rfl]
    rfl
  · rw [streaming_eq (by decide) rfl]
    rfl
  · rw [streaming_eq (by decide) rfl]
    rfl
  · have hmeets := (result_iff hdistinct (by decide) h.reflexive).1 h.result _
      (List.mem_singleton_self _) (by simp) _ (List.mem_singleton_self _)
    simp [AggregateComputation.Meets, AggregateComputation.inputs, readingRow_input, Value.isNull,
      groupValueEq, Value.partialEq] at hmeets
  · have hmeets := (result_iff htotal (by decide) h.reflexive).1 h.result _
      (List.mem_singleton_self _) (by simp) _ (List.mem_singleton_self _)
    simp [AggregateComputation.Meets, AggregateComputation.inputs, readingRow_input, Value.isNull] at hmeets
end Cqlite
