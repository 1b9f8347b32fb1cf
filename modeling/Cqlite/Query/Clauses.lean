import Cqlite.Lib.Distinct
import Cqlite.Query.AggregatesExact
import Cqlite.Query.LimitPushdown

/-! What the clauses of a `SELECT` mean, and what executing them gives.

    The result rows are the scanned rows, or a row for each group of them, in the order of `ORDER BY`.
    By definition `DISTINCT` drops the rows that are projected like an earlier one, the per-partition
    limit keeps the first rows of each partition, and the window is cut from what is left. The plan has
    no step for `DISTINCT`, puts `OFFSET` into the step of `LIMIT`, and counts the rows of an
    aggregation as those of one partition. -/

namespace Cqlite

/-- A sort that sees its elements through the comparison only. -/
def NaturalSort (sort : StableSort) : Prop :=
  ∀ {α β : Type} (f : α → β) (cmp : β → β → Ordering) (l : List α),
    (sort.run (fun a b => cmp (f a) (f b)) l).map f = sort.run cmp (l.map f)

def SelectStatement.isDistinct (s : SelectStatement) : Bool :=
  match s.selectClause with
  | .distinct _ => true
  | _ => false

/-- A row of the result before it is projected, and the partition it belongs to. -/
structure ResultRow where
  partition : Bytes
  row : QueryRow

/-! ### Plans that are not folded -/

variable {steps : List ExecutionStep}

theorem classify_aggregated {found found' : GlobalAggregatePlan}
    (h : steps.foldlM GlobalAggregatePlan.classify found = some found')
    (hnone : ∀ g, ExecutionStep.aggregate g ∉ steps) : found'.aggregated = found.aggregated := by
  induction steps generalizing found with
  | nil =>
    obtain rfl := Option.some.inj h
    rfl
  | cons step steps ih =>
    obtain ⟨next, hnext, h⟩ := Option.bind_eq_some_iff.1 h
    rw [ih h fun g hg => hnone g (List.mem_cons_of_mem _ hg)]
    cases step with
    | aggregate g => exact absurd List.mem_cons_self (hnone g)
    | sstableScan predicates projection =>
      rw [GlobalAggregatePlan.classify] at hnext
      split at hnext
      · cases hnext
      · obtain rfl := Option.some.inj hnext
        rfl
    | filter w =>
      obtain rfl := Option.some.inj hnext
      rfl
    | _ => cases hnext

theorem classifyGlobalAggregate_none (hnone : ∀ g, ExecutionStep.aggregate g ∉ steps) :
    classifyGlobalAggregate steps = none := by
  unfold classifyGlobalAggregate
  cases hfold : steps.foldlM GlobalAggregatePlan.classify ⟨none, false, []⟩ with
  | none => rfl
  | some found => simp [classify_aggregated hfold hnone]

/-! ### Surroundings -/

section Env

variable [DoubleArith]

/-- What a `SELECT` runs against: `query` without its sort and its aggregation, which are the
    executor's own; `planAggregation` is `plan_aggregation`. -/
structure SelectEnv where
  query : QueryEnv
  sort : StableSort
  natural : NaturalSort sort
  aggregation : AggregationEnv
  planAggregation : SelectStatement → AggregationPlan
  groupBy : ∀ s, (planAggregation s).groupByColumns = s.groupBy.getD []

namespace SelectEnv

open QueryEnv

variable (env : SelectEnv)

/-- The executor of a statement. -/
def executor (s : SelectStatement) : QueryEnv :=
  { env.query with
    sortRows := fun items rows =>
      .ok (executeSort env.sort env.aggregation.display items rows)
    aggregateRows := fun _ rows => executeAggregation env.aggregation (env.planAggregation s) rows
    tryExecuteGlobalAggregate :=
      tryExecuteGlobalAggregate env.query env.aggregation s (env.planAggregation s)
    globalAggregate_none := fun steps table hnone => by
      unfold tryExecuteGlobalAggregate
      rw [classifyGlobalAggregate_none hnone]
      exact ite_self _ }

/-! ### The reference -/

/-- The rows of each group, in the order in which the groups first come. -/
def groupsOf (columns : List String) (rows : List QueryRow) : List (List Value × List QueryRow) :=
  rows.foldl (HashIndex.push groupKeyEq [] (fun members row => members ++ [row])
    (buildGroupKey columns)) []

/-- One row for each group; it belongs to the partition of the group's first row. -/
def groupRows (plan : AggregationPlan) (rows : List QueryRow) : List ResultRow :=
  let groups := groupsOf plan.groupByColumns rows
  if groups.isEmpty && plan.groupByColumns.isEmpty then [⟨[], finalizeEmptyGlobalAggregate plan⟩]
  else groups.map fun group =>
    ⟨(group.2.head?.map QueryRow.key).getD [], executedRow env.aggregation plan group⟩

def sortResult (items : List OrderByItem) (rows : List ResultRow) : List ResultRow :=
  (env.sort.run (fun a b => compareKeys env.aggregation.display items a.1 b.1)
    (rows.map fun r => (items.map (sortKey r.row), r))).map Prod.snd

/-- The rows of the result before `DISTINCT` and the limits. -/
def resultRows (s : SelectStatement) (rows : List QueryRow) : List ResultRow :=
  let made := if s.requiresAggregation then env.groupRows (env.planAggregation s) rows
    else rows.map fun row => ⟨row.key, row⟩
  match s.orderBy with
  | none => made
  | some items => env.sortResult items made

/-- What the projection makes of one row. -/
def projectOne (s : SelectStatement) (row : QueryRow) : Except QueryError QueryRow :=
  match projectStep s with
  | some (.project columns) =>
    if columns.any projectExprReshapesRow then
      ((env.executor s).projectedValues row 0 columns fun _ => none).map fun values => ⟨values, []⟩
    else .ok (QueryEnv.trimProjection columns row)
  | _ => .ok row

/-- The columns a row shows. -/
def shown (s : SelectStatement) (r : ResultRow) : Except QueryError (String → Option Value) :=
  (env.projectOne s r.row).map QueryRow.values

open Classical in
/-- The clauses by their definition: the rows that are new to `DISTINCT`, of each partition the first
    ones, the window of these, projected. -/
noncomputable def reference (s : SelectStatement) (rows : List QueryRow) :
    Except QueryError (List QueryRow) :=
  let result := env.resultRows s rows
  let distinct := if s.isDistinct then Distinct.firsts (env.shown s) [] result else result
  let kept := Distinct.partly ResultRow.partition s.perPartitionLimit distinct
  (Distinct.upTo s.limit (kept.drop (s.offset.getD 0))).mapM fun r => env.projectOne s r.row

/-! ### Groups -/

variable (s : SelectStatement) {rows : List QueryRow}

omit [DoubleArith] in
theorem groupsOf_empty_columns (hne : rows ≠ []) :
    groupsOf [] rows = [([.null], rows)] := by
  obtain ⟨row, rows, rfl⟩ := List.exists_cons_of_ne_nil hne
  have hself : groupKeyEq [Value.null] [Value.null] = true := by
    simp [groupKeyEq, groupValuesEq_self, Value.anyUdtNan, Value.udtNan]
  have hkey : buildGroupKey [] = fun _ => [Value.null] := by
    funext row
    rfl
  rw [groupsOf, hkey, List.foldl_cons, HashIndex.push]
  refine (HashIndex.foldl_push_const hself rows _).trans ?_
  rw [List.foldl_append_eq_append, ← List.flatMap_def, List.flatMap_singleton']
  rfl

/-- The table of the loop holds the groups, each with its accumulators. -/
theorem insert_groups (plan : AggregationPlan) (rows : List QueryRow) :
    (rows.foldl (HashIndex.insert (hashGroupKey env.aggregation.finish) groupKeyEq
        (initAggregateAccumulators env.aggregation plan) (updateAggregates env.aggregation plan)
        (buildGroupKey plan.groupByColumns)) HashIndex.Table.empty).groups =
      (groupsOf plan.groupByColumns rows).map fun group =>
        (group.1, group.2.foldl (updateAggregates env.aggregation plan)
          (initAggregateAccumulators env.aggregation plan)) := by
  rw [HashIndex.foldl_insert HashIndex.indexed_empty (hashGroupKey_of_eq env.aggregation.finish)]
  exact (HashIndex.foldl_push_members rows []).symm

variable {out : List QueryRow} {plan : AggregationPlan} {scanCap : Option Nat}

theorem executeAggregation_ok (h : executeAggregation env.aggregation plan rows = .ok out) :
    out = (env.groupRows plan rows).map ResultRow.row := by
  rw [executeAggregation_eq] at h
  split at h
  · obtain rfl := Except.ok.inj h
    unfold groupRows
    rw [env.insert_groups, List.isEmpty_map]
    by_cases hempty : ((groupsOf plan.groupByColumns rows).isEmpty &&
        plan.groupByColumns.isEmpty) = true
    · rw [if_pos hempty, if_pos hempty]
      rfl
    · rw [if_neg hempty, if_neg hempty, List.map_map, List.map_map]
      exact List.map_congr_left fun group _ => finalizeGroup_foldl env.aggregation plan group.1 group.2
  · cases h

theorem finalizeFold_groups (hcolumns : plan.groupByColumns = []) (rows : List QueryRow) :
    [finalizeFold plan (rows.foldl (foldRow env.aggregation plan)
      (initAggregateAccumulators env.aggregation plan, false))] =
      (env.groupRows plan rows).map ResultRow.row := by
  by_cases hne : rows = []
  · rw [hne, groupRows, groupsOf, hcolumns]
    rfl
  · rw [finalizeFold_eq hne, groupRows, hcolumns, groupsOf_empty_columns hne]
    rfl


/-! ### The steps -/

omit [DoubleArith] in
theorem executeSort_eq (items : List OrderByItem) (rows : List ResultRow) :
    executeSort env.sort env.aggregation.display items (rows.map ResultRow.row) =
      (env.sortResult items rows).map ResultRow.row := by
  have hnatural := env.natural (fun a : List Value × ResultRow => (a.1, a.2.row))
    (fun a b => compareKeys env.aggregation.display items a.1 b.1)
    (rows.map fun r => (items.map (sortKey r.row), r))
  rw [List.map_map] at hnatural
  rw [executeSort, sortResult, List.map_map, List.map_map]
  refine (congrArg (List.map Prod.snd) hnatural.symm).trans ?_
  rw [List.map_map]
  rfl

omit [DoubleArith] in
theorem executeProjection_eq (q : QueryEnv) (columns : List SelectExpression) (rows : List QueryRow) :
    q.executeProjection columns rows = rows.mapM fun row =>
      (q.projectedValues row 0 columns fun _ => none).map fun values => (⟨values, []⟩ : QueryRow) := by
  induction rows with
  | nil => rfl
  | cons row rows ih =>
    rw [executeProjection, ih, List.mapM_cons]
    cases q.projectedValues row 0 columns fun _ => none <;> rfl

theorem executeSteps_projectOne (scanCap : Option Nat) (table : List ScanEntry) (rows : List QueryRow) :
    (env.executor s).executeSteps s scanCap table (projectStep s).toList rows =
      rows.mapM (env.projectOne s) := by
  have hpure : ∀ f : QueryRow → QueryRow, rows.mapM (fun row => Except.ok (f row)) =
      (.ok (rows.map f) : Except QueryError (List QueryRow)) := fun f => List.mapM_pure
  cases hp : projectStep s with
  | none =>
    have hone : env.projectOne s = fun row => .ok (id row) := by
      funext row
      rw [projectOne, hp]
      rfl
    rw [hone, hpure, List.map_id]
    rfl
  | some step =>
    obtain ⟨columns, rfl, -⟩ := projectStep_eq hp
    rw [Option.toList_some, executeSteps_singleton, executeStep]
    by_cases hshape : columns.any projectExprReshapesRow = true
    · rw [if_pos hshape, executeProjection_eq]
      congr 1
      funext row
      simp only [projectOne, hp, if_pos hshape]
    · have hone : env.projectOne s = fun row => .ok (trimProjection columns row) := by
        funext row
        simp only [projectOne, hp, if_neg hshape]
      rw [if_neg hshape, hone, hpure]

variable {table : List ScanEntry}

/-- The steps behind the scan: the rows of the result, cut and projected. -/
theorem executeSteps_clauses
    (h : (env.executor s).executeSteps s scanCap table (laterSteps s) rows = .ok out) :
    (window s ((env.resultRows s rows).map ResultRow.row)).mapM (env.projectOne s) = .ok out := by
  rw [laterSteps, executeSteps_append] at h
  obtain ⟨cut, h, hproject⟩ := bind_ok_iff.1 h
  rw [executeSteps_append] at h
  obtain ⟨kept, h, hlimit⟩ := bind_ok_iff.1 h
  rw [executeSteps_append] at h
  obtain ⟨sorted, h, hquota⟩ := bind_ok_iff.1 h
  rw [executeSteps_append] at h
  obtain ⟨made, hmade, hsort⟩ := bind_ok_iff.1 h
  have hresult : sorted = (env.resultRows s rows).map ResultRow.row := by
    have hfirst : made = (if s.requiresAggregation then env.groupRows (env.planAggregation s) rows
        else rows.map fun row => ⟨row.key, row⟩).map ResultRow.row := by
      split at hmade
      · rename_i hagg
        rw [executeSteps_singleton] at hmade
        rw [if_pos hagg]
        exact env.executeAggregation_ok hmade
      · rename_i hagg
        rw [if_neg hagg, List.map_map]
        exact (Except.ok.inj hmade).symm.trans (List.map_id rows).symm
    rw [resultRows]
    cases horder : s.orderBy with
    | none =>
      rw [horder] at hsort
      exact (Except.ok.inj hsort).symm.trans hfirst
    | some items =>
      rw [horder, Option.map_some, Option.toList_some, executeSteps_singleton] at hsort
      have hsorted := Except.ok.inj hsort
      rw [hfirst, executeSort_eq] at hsorted
      exact hsorted.symm
  rw [executeSteps_perPartition] at hquota
  obtain rfl := Except.ok.inj hquota
  rw [executeSteps_limit] at hlimit
  obtain rfl := Except.ok.inj hlimit
  rw [executeSteps_projectOne, hresult] at hproject
  exact hproject


/-! ### Executing -/

/-- The rows the scan makes. -/
def scanned (s : SelectStatement) (table : List ScanEntry) : List QueryRow :=
  table.filterMap (buildRowFromScan (extractProjectionColumns s))

theorem executeSteps_capped (rows : List QueryRow) :
    (env.executor s).executeSteps s scanCap table (laterSteps s)
        (capped (planCap s ⟨[], none⟩) rows) =
      (env.executor s).executeSteps s scanCap table (laterSteps s) rows := by
  cases hcap : planCap s ⟨[], none⟩ with
  | none => rfl
  | some n =>
    obtain ⟨count, rfl, hsteps⟩ := planCap_some hcap
    have hlater : laterSteps s = .limit count s.offset :: (projectStep s).toList :=
      (List.cons.inj hsteps).2
    rw [hlater, executeSteps, executeSteps, capped, executeStep, executeStep, executeLimit_take]

omit [DoubleArith] in
theorem projectStep_aggregated (h : s.requiresAggregation = true) : projectStep s = none := by
  unfold projectStep
  split
  · rfl
  all_goals rw [h, Bool.true_or, if_pos rfl]

omit [DoubleArith] in
/-- The folded plans are a scan and an aggregation without groups. -/
theorem classifyGlobalAggregate_planned
    {found : (List SSTablePredicate × List String) × List WhereExpression}
    (h : classifyGlobalAggregate (plannedAs s ⟨[], none⟩).executionSteps = some found) :
    (s.requiresAggregation = true ∧ s.groupBy.getD [] = []) ∧
      (s.orderBy = none ∧ s.perPartitionLimit = none ∧ s.limit = none) ∧
      found = (([], extractProjectionColumns s), []) := by
  have hagg : s.requiresAggregation = true := by
    by_contra hagg
    rw [classifyGlobalAggregate_none] at h
    · cases h
    · intro g hg
      simp only [plannedAs, laterSteps, hagg, Option.map_none, Option.toList_none, List.nil_append,
        List.mem_cons, reduceCtorEq, false_or, List.mem_append, Option.mem_toList,
        Option.map_eq_some_iff, and_false, exists_false, if_false] at hg
      obtain ⟨columns, hcolumns, -⟩ := projectStep_eq hg
      cases hcolumns
  have hlater : laterSteps s = .aggregate (s.groupBy.getD []) :: ((s.orderBy.map .sort).toList ++
      (s.perPartitionLimit.map .perPartitionLimit).toList ++
      (s.limit.map (.limit · s.offset)).toList) := by
    simp [laterSteps, hagg, projectStep_aggregated s hagg]
  rw [plannedAs, hlater] at h
  cases hgroups : s.groupBy.getD [] with
  | cons g gs =>
    rw [hgroups] at h
    cases h
  | nil =>
    rw [hgroups] at h
    cases horder : s.orderBy with
    | some items =>
      rw [horder] at h
      cases h
    | none =>
      cases hquota : s.perPartitionLimit with
      | some p =>
        rw [horder, hquota] at h
        cases h
      | none =>
        cases hlimit : s.limit with
        | some n =>
          rw [horder, hquota, hlimit] at h
          cases h
        | none =>
          rw [horder, hquota, hlimit] at h
          exact ⟨⟨hagg, rfl⟩, ⟨rfl, rfl, rfl⟩, (Option.some.inj h).symm⟩

theorem tryExecuteGlobalAggregate_some
    (h : tryExecuteGlobalAggregate env.query env.aggregation s (env.planAggregation s)
      (plannedAs s ⟨[], none⟩).executionSteps table = .ok (some out)) :
    s.requiresAggregation = true ∧ (s.orderBy = none ∧ s.perPartitionLimit = none ∧ s.limit = none) ∧
      out = (env.groupRows (env.planAggregation s) (scanned s table)).map ResultRow.row := by
  unfold tryExecuteGlobalAggregate at h
  split at h
  · cases h
  · split at h
    · cases h
    · rename_i predicates projection filters hfound
      obtain ⟨⟨hagg, hgroups⟩, hplain, hplan⟩ := classifyGlobalAggregate_planned s hfound
      obtain ⟨⟨rfl, rfl⟩, rfl⟩ : (predicates = [] ∧ projection = extractProjectionColumns s) ∧
          filters = [] := by simpa using hplan
      obtain ⟨-, -, h⟩ := bind_eq_ok.1 h
      obtain ⟨outcome, -, h⟩ := bind_eq_ok.1 h
      have hfolded : ∀ table, foldedRows [] (extractProjectionColumns s) [] table =
          .ok (scanned s table) := by
        intro table
        induction table with
        | nil => rfl
        | cons e es ih =>
          rw [foldedRows, scanned, List.filterMap_cons]
          cases hrow : buildRowFromScan (extractProjectionColumns s) e with
          | none => exact ih
          | some row => exact bind_eq_ok.2 ⟨true, rfl, bind_eq_ok.2 ⟨_, ih, rfl⟩⟩
      cases outcome with
      | fallback =>
        obtain ⟨folded, hfold, h⟩ := bind_eq_ok.1 h
        rw [foldScan_eq (hfolded table)] at hfold
        obtain rfl := Except.ok.inj hfold
        refine ⟨hagg, hplain, ?_⟩
        rw [← env.finalizeFold_groups ((env.groupBy s).trans hgroups)]
        exact (Option.some.inj (Except.ok.inj h)).symm
      | _ => cases h


/-- Without WHERE, execution is the clauses applied to the scan. -/
theorem execute_clauses {plan : OptimizedQueryPlan} (hplan : optimize s = .ok plan)
    (hfrom : s.hasFrom = true) (hwhere : s.whereClause = none)
    (h : (env.executor s).execute plan table = .ok out) :
    (window s ((env.resultRows s (scanned s table)).map ResultRow.row)).mapM (env.projectOne s) =
      .ok out := by
  rcases optimize_cases hplan with ⟨hno, -⟩ | ⟨-, pushed, hpushed, rfl⟩
  · rw [hfrom] at hno
    cases hno
  rw [planWhereClause, hwhere] at hpushed
  obtain rfl := Except.ok.inj hpushed
  change (if (!s.hasFrom) = true then _ else _) = _ at h
  rw [hfrom, if_neg (by simp)] at h
  obtain ⟨found, hfound, h⟩ := bind_eq_ok.1 h
  cases found with
  | some folded =>
    change ((env.executor s).enforceMaterializedRows _ folded >>= fun _ => Except.ok folded) = _ at h
    obtain ⟨-, -, h⟩ := bind_eq_ok.1 h
    obtain rfl := Except.ok.inj h
    obtain ⟨hagg, ⟨horder, hquota, hlimit⟩, hrows⟩ := env.tryExecuteGlobalAggregate_some s hfound
    have hproject : env.projectOne s = fun row => .ok (id row) := by
      funext row
      rw [projectOne, projectStep_aggregated s hagg]
      rfl
    rw [window, perPartition, hquota, hlimit, resultRows, horder, if_pos hagg, ← hrows, hproject]
    exact List.mapM_pure.trans (congrArg Except.ok (List.map_id _))
  | none =>
    obtain ⟨rows, hrows, h⟩ := bind_eq_ok.1 h
    obtain ⟨-, -, h⟩ := bind_eq_ok.1 h
    obtain rfl := Except.ok.inj h
    obtain ⟨scan, hscan, hrows⟩ := bind_eq_ok.1 hrows
    have hseek : (env.executor s).schemalessSeek s [] = none := ite_self _
    obtain ⟨-, entries, hentries, rfl⟩ := (scan_ok_iff _ hseek _ table _ scan).1 hscan
    rw [scanSource_nil] at hentries
    split at hentries
    · cases hentries
    obtain rfl := Except.ok.inj hentries
    rw [accepted_nil] at hrows
    exact env.executeSteps_clauses s ((env.executeSteps_capped s _).symm.trans hrows)

end SelectEnv

end Env

end Cqlite
