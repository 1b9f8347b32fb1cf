import Cqlite.Query.Aggregates
import Cqlite.Query.Execute
import Cqlite.Query.GroupKey

/-! Executing an aggregation (`select_executor/{aggregation,stream_agg}.rs`).

    `execute_aggregation` groups rows that are already there; `try_execute_global_aggregate` folds the
    rows of a scan into one group as they come. The types of the columns, the hasher and the writing
    out of values are parameters. -/

namespace Cqlite

/-! ### Plans -/

structure AggregationPlan where
  groupByColumns : List String
  groupByOutputNames : List String
  aggregates : List AggregateComputation
  deriving DecidableEq, Repr

/-- `sum_avg_result_cql_type`. -/
def sumAvgResultCqlType : Option CqlType → CqlType
  | some .tinyInt => .tinyInt
  | some .smallInt => .smallInt
  | some .int => .int
  | some .bigInt => .bigInt
  | some .counter => .bigInt
  | _ => .double

def aggregateResultCqlType (function : AggregateType) (argType : Option CqlType) : Option CqlType :=
  match function with
  | .count => some .bigInt
  | .sum => some (sumAvgResultCqlType argType)
  | .avg => some (sumAvgResultCqlType argType)
  | .min => argType
  | .max => argType

/-- What a query knows and uses of its surroundings: the type the schema gives a column, the hasher
    and the writing out of values. -/
structure AggregationEnv where
  columnType : String → Option CqlType
  finish : List HashToken → Nat
  display : Value → String

/-- One entry of `resolve_aggregate_result_types`. -/
def AggregationEnv.resultType (env : AggregationEnv) (agg : AggregateComputation) : Option CqlType :=
  aggregateResultCqlType agg.function (if agg.column = "*" then none else env.columnType agg.column)

/-! ### Groups -/

structure AggregationState where
  table : HashIndex.Table (List Value) (List AggregateValue)
  memoryUsageBytes : Nat

def memoryLimitBytes : Nat := 512 * 1024 * 1024

def perRowMemoryEstimateBytes : Nat := 100

def buildGroupKey (groupByColumns : List String) (row : QueryRow) : List Value :=
  if groupByColumns.isEmpty then [.null]
  else groupByColumns.map fun column => (row.values column).getD .null

section Execute

variable [DoubleArith] (env : AggregationEnv) (plan : AggregationPlan)

def initAggregateAccumulators : List AggregateValue :=
  plan.aggregates.map fun agg => initAccumulator agg.function (env.resultType agg)

/-- One row's contribution to all accumulators of its group. -/
def updateAggregates (accumulators : List AggregateValue) (row : QueryRow) : List AggregateValue :=
  List.zipWith (fun state agg => updateAggregate env.display state agg row) accumulators plan.aggregates

def findOrInitGroup (table : HashIndex.Table (List Value) (List AggregateValue)) (key : List Value) :
    Nat × HashIndex.Table (List Value) (List AggregateValue) :=
  HashIndex.findOrInit (hashGroupKey env.finish) groupKeyEq (initAggregateAccumulators env plan) table
    key

/-- One turn of the loop of `execute_aggregation`. -/
def aggregateRow (state : AggregationState) (row : QueryRow) : Except QueryError AggregationState :=
  let found := findOrInitGroup env plan state.table (buildGroupKey plan.groupByColumns row)
  let table := found.2.modify found.1 fun accumulators => updateAggregates env plan accumulators row
  let memoryUsageBytes := state.memoryUsageBytes + perRowMemoryEstimateBytes
  if memoryLimitBytes < memoryUsageBytes then .error "Aggregation memory limit exceeded"
  else .ok ⟨table, memoryUsageBytes⟩

def insertAll (values : String → Option Value) (entries : List (String × Value)) :
    String → Option Value :=
  entries.foldl (fun values entry => Function.update values entry.1 (some entry.2)) values

def finalizeGroup (key : List Value) (accumulators : List AggregateValue) : QueryRow :=
  let dimensions := insertAll (fun _ => none) (plan.groupByOutputNames.zip key)
  ⟨insertAll dimensions ((plan.aggregates.map (·.aliasName)).zip
    (accumulators.map AggregateValue.finalize)), []⟩

/-- No row: a count is zero, and the other aggregates are null. -/
def finalizeEmptyGlobalAggregate : QueryRow :=
  ⟨insertAll (fun _ => none) (plan.aggregates.map fun agg =>
    (agg.aliasName, match agg.function with
      | .count => .bigInt 0
      | _ => .null)), []⟩

def executeAggregation (rows : List QueryRow) : Except QueryError (List QueryRow) := do
  let state ← rows.foldlM (aggregateRow env plan) ⟨HashIndex.Table.empty, 0⟩
  return if state.table.groups.isEmpty && plan.groupByColumns.isEmpty then
    [finalizeEmptyGlobalAggregate plan]
  else state.table.groups.map fun group => finalizeGroup plan group.1 group.2

/-! ### The streaming fold -/

/-- One row of the scan that is to be folded. -/
def foldRow (folded : List AggregateValue × Bool) (row : QueryRow) : List AggregateValue × Bool :=
  (updateAggregates env plan folded.1 row, true)

section Scan

variable [ValueOps] (predicates : List SSTablePredicate) (projection : List String)
  (filters : List WhereExpression)

/-- The filters one after the other, up to the first that is not true. -/
def passesFilters (row : QueryRow) : List WhereExpression → Except QueryError Bool
  | [] => .ok true
  | w :: ws => do
    if ← evaluateWhereExpression row w then passesFilters row ws else return false

/-- The loop of `try_execute_global_aggregate` over the scan. -/
def foldScan : List AggregateValue × Bool → List ScanEntry →
    Except QueryError (List AggregateValue × Bool)
  | folded, [] => .ok folded
  | folded, e :: es =>
    match buildRowFromScan projection e with
    | none => foldScan folded es
    | some row =>
      if !evaluatePredicates row predicates then foldScan folded es
      else do
        if ← passesFilters row filters then foldScan (foldRow env plan folded row) es
        else foldScan folded es

/-- The rows that reach the fold. -/
def foldedRows : List ScanEntry → Except QueryError (List QueryRow)
  | [] => .ok []
  | e :: es =>
    match buildRowFromScan projection e with
    | none => foldedRows es
    | some row =>
      if !evaluatePredicates row predicates then foldedRows es
      else do
        let keep ← passesFilters row filters
        let rest ← foldedRows es
        return if keep then row :: rest else rest

end Scan

/-- The one row of a global aggregate. -/
def finalizeFold (folded : List AggregateValue × Bool) : QueryRow :=
  if folded.2 then finalizeGroup plan [.null] folded.1 else finalizeEmptyGlobalAggregate plan

end Execute

/-! ### Plans that are folded -/

/-- What `classify_global_aggregate` has found so far. -/
structure GlobalAggregatePlan where
  scan : Option (List SSTablePredicate × List String)
  aggregated : Bool
  filters : List WhereExpression

/-- One step, or `none` if it rules the fold out. -/
def GlobalAggregatePlan.classify (found : GlobalAggregatePlan) :
    ExecutionStep → Option GlobalAggregatePlan
  | .sstableScan predicates projection =>
    if found.scan.isSome then none else some { found with scan := some (predicates, projection) }
  | .aggregate groupBy =>
    if !groupBy.isEmpty || found.aggregated then none else some { found with aggregated := true }
  | .filter w => some { found with filters := found.filters ++ [w] }
  | _ => none

/-- `classify_global_aggregate`: the scan and the filters of a plan that is one scan, one aggregate
    without groups, and filters. -/
def classifyGlobalAggregate (steps : List ExecutionStep) :
    Option ((List SSTablePredicate × List String) × List WhereExpression) := do
  let found ← steps.foldlM GlobalAggregatePlan.classify ⟨none, false, []⟩
  if found.aggregated then found.scan.map (·, found.filters) else none

/-- `try_execute_global_aggregate`, given the plan of the aggregation. -/
def tryExecuteGlobalAggregate [DoubleArith] [ValueOps] (query : QueryEnv) (env : AggregationEnv)
    (s : SelectStatement) (plan : AggregationPlan) (steps : List ExecutionStep)
    (table : List ScanEntry) : Except QueryError (Option (List QueryRow)) :=
  if s.selectsCellMetadata then .ok none
  else match classifyGlobalAggregate steps with
    | none => .ok none
    | some ((predicates, projection), filters) => do
      validateTokenPredicates predicates query.schema
      match ← query.lookup predicates with
      | .fallback =>
        let folded ← foldScan env plan predicates projection filters
          (initAggregateAccumulators env plan, false) table
        return some [finalizeFold plan folded]
      | _ => return none

end Cqlite
