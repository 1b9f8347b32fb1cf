import Cqlite.Lib.Quota
import Cqlite.Query.Classify

/-! Executing a `SELECT` (`query/select_optimizer.rs`, `select_executor/{execute,streaming}.rs`).

    `optimize` turns a statement into a list of steps. `execute` runs them one after the other over
    the rows of the scan; `execute_streaming` hands the statement to `execute`, or applies some of the
    steps itself while it reads the rows.

    The table is the row list the storage layer's scan yields. What the sort and the aggregation
    compute, the codec of a schema-less key and how much of a partition the reading of a slice returns
    are parameters. -/

namespace Cqlite

/-! ### Statements -/

def SelectExpression.isAggregate : SelectExpression → Bool
  | .aggregate _ => true
  | .aliased e _ => e.isAggregate
  | _ => false

mutual

def SelectExpression.getColumnRefs : SelectExpression → List String
  | .column name => [name]
  | .aggregate args => collectRefs args
  | .function _ args => collectRefs args
  | .computed columns _ => columns
  | .aliased e _ => e.getColumnRefs
  | .literal _ => []
  | .bindMarker _ => []

def collectRefs : List SelectExpression → List String
  | [] => []
  | e :: es => e.getColumnRefs ++ collectRefs es

end

def ComparisonRightSide.getColumnRefs : ComparisonRightSide → List String
  | .value e => e.getColumnRefs
  | .valueList es => collectRefs es
  | .range start stop => start.getColumnRefs ++ stop.getColumnRefs

mutual

def WhereExpression.getColumnRefs : WhereExpression → List String
  | .comparison comp => comp.left.getColumnRefs ++ comp.right.getColumnRefs
  | .and es => collectWhereRefs es
  | .or es => collectWhereRefs es
  | .not e => e.getColumnRefs
  | .parentheses e => e.getColumnRefs

def collectWhereRefs : List WhereExpression → List String
  | [] => []
  | e :: es => e.getColumnRefs ++ collectWhereRefs es

end

inductive SelectClause
  | all
  | columns (exprs : List SelectExpression)
  | distinct (exprs : List SelectExpression)

structure OrderByItem where
  expression : SelectExpression
  descending : Bool

/-- `selectsCellMetadata` is `select_has_writetime_ttl`. -/
structure SelectStatement where
  selectClause : SelectClause
  hasFrom : Bool
  whereClause : Option WhereExpression
  groupBy : Option (List String)
  orderBy : Option (List OrderByItem)
  limit : Option Nat
  perPartitionLimit : Option Nat
  offset : Option Nat
  selectsCellMetadata : Bool

def SelectClause.exprs : SelectClause → List SelectExpression
  | .all => []
  | .columns es => es
  | .distinct es => es

def SelectStatement.requiresAggregation (s : SelectStatement) : Bool :=
  s.groupBy.isSome || s.selectClause.exprs.any (·.isAggregate)

/-! ### Plans -/

/-- The stored column behind a projected item. -/
def projectionSource : SelectExpression → Option String
  | .column name => some name
  | .aliased (.column name) _ => some name
  | _ => none

def unwrapAggregate : SelectExpression → Option (List SelectExpression)
  | .aggregate args => some args
  | .aliased e _ => unwrapAggregate e
  | _ => none

def aggregateArgSourceColumns (e : SelectExpression) : List String :=
  ((unwrapAggregate e).getD []).filterMap fun
    | .column name => if name != "*" then some name else none
    | _ => none

def pushUnique (columns : List String) (column : String) : List String :=
  if columns.contains column then columns else columns ++ [column]

/-- The columns the scan keeps; none means all of them. -/
def extractProjectionColumns (s : SelectStatement) : List String :=
  match s.selectClause with
  | .all => []
  | .columns es | .distinct es =>
    let sources := es.flatMap fun e => (projectionSource e).toList ++ aggregateArgSourceColumns e
    let columns := (sources ++ s.groupBy.getD []).foldl pushUnique []
    if columns.isEmpty then columns
    else
      let helpers := (s.whereClause.map (·.getColumnRefs)).getD [] ++
        (s.orderBy.getD []).flatMap (·.expression.getColumnRefs)
      helpers.foldl pushUnique columns

inductive ExecutionStep
  | sstableScan (predicates : List SSTablePredicate) (projection : List String)
  | filter (expression : WhereExpression)
  | sort (orderBy : List OrderByItem)
  | aggregate (groupBy : List String)
  | limit (count : Nat) (offset : Option Nat)
  | perPartitionLimit (count : Nat)
  | project (columns : List SelectExpression)

/-- `aggregates` is whether there is an `aggregation_plan`. -/
structure OptimizedQueryPlan where
  statement : SelectStatement
  executionSteps : List ExecutionStep
  aggregates : Bool

def plainColumn : SelectExpression → Option String
  | .column name => some name
  | _ => none

/-- `project_expr_reshapes_row`: anything but a plain column. -/
def projectExprReshapesRow (e : SelectExpression) : Bool := (plainColumn e).isNone

/-- The scan already projects what a list of plain columns selects. -/
def projectionIsExactlySelected (s : SelectStatement) : Bool :=
  match s.selectClause with
  | .columns es => es.all (fun e => !projectExprReshapesRow e) &&
      extractProjectionColumns s == es.filterMap plainColumn
  | _ => false

/-- The step that projects. -/
def projectStep (s : SelectStatement) : Option ExecutionStep :=
  match s.selectClause with
  | .all => none
  | .columns es | .distinct es =>
    if s.requiresAggregation || projectionIsExactlySelected s then none else some (.project es)

/-- What `optimize` makes of the `WHERE` clause; without one there is nothing to push or to filter. -/
def planWhereClause (s : SelectStatement) : Except QueryError PushdownPlan :=
  match s.whereClause with
  | none => .ok ⟨[], none⟩
  | some w => planWhere w

/-- The steps after the scan and the filter. -/
def laterSteps (s : SelectStatement) : List ExecutionStep :=
  (if s.requiresAggregation then [.aggregate (s.groupBy.getD [])] else []) ++
    (s.orderBy.map .sort).toList ++ (s.perPartitionLimit.map .perPartitionLimit).toList ++
    (s.limit.map (.limit · s.offset)).toList ++ (projectStep s).toList

def optimize (s : SelectStatement) : Except QueryError OptimizedQueryPlan :=
  if !s.hasFrom then .ok ⟨s, [], false⟩
  else match s.selectClause with
    | .distinct es =>
      if es.any (·.isAggregate) then
        .error ("SELECT DISTINCT with an aggregate function is not supported; " ++
          "DISTINCT over an aggregate is redundant because the aggregate " ++
          "already collapses rows to a single value")
      else planSteps s
    | _ => planSteps s
where
  planSteps (s : SelectStatement) : Except QueryError OptimizedQueryPlan := do
    let pushed ← planWhereClause s
    return ⟨s, .sstableScan pushed.sstablePredicates (extractProjectionColumns s) ::
      (pushed.filter.map .filter).toList ++ laterSteps s, s.requiresAggregation⟩

/-! ### Rows of the table -/

/-- A row as the storage layer yields it; a marker has no cells. With a schema the cells include the
    partition-key columns, decoded from the key. -/
structure ScanEntry where
  key : Bytes
  cells : Option (String → Option Value)

def buildRowFromScan (projection : List String) (e : ScanEntry) : Option QueryRow :=
  e.cells.map fun cells =>
    ⟨fun name => if projection.isEmpty || projection.contains name then cells name else none, e.key⟩

/-- `cmp_partition_keys_by_token`, as an order. -/
def tokenLe (a b : ScanEntry) : Bool :=
  (DecoratedKey.cmp (.fromKeyBytes a.key) (.fromKeyBytes b.key)).isLE

def scanPartition (table : List ScanEntry) (key : Bytes) : List ScanEntry :=
  table.filter fun e => e.key == key

def forcedError : QueryError := "forced read path unavailable: point"

/-- The union of several partitions, in storage order. -/
def multiPartition (table : List ScanEntry) (keys : List Bytes) : List ScanEntry :=
  (keys.flatMap (scanPartition table)).mergeSort tokenLe

/-- `collect_capped_materialized` stops at the cap. -/
def capped (n : Option Nat) (rows : List QueryRow) : List QueryRow :=
  match n with
  | none => rows
  | some n => rows.take n

inductive ReadPathMode
  | auto
  | point
  | full
  deriving DecidableEq, Repr

/-- What `Statistics.db` says of the keys of a table without a schema. -/
structure PartitionKeyShape where
  partitionKeyCount : Nat
  clusteringKeyCount : Nat
  nonKeyColumnNames : List String
  singlePkComponent : Option (String × String)

structure SchemalessPointSeek where
  bytes : Bytes
  pkName : String
  pkCqlType : String

section Env

variable [ValueOps]

/-- What a query runs against, apart from the rows. A schema-less table has a `shape` when its
    metadata can be read; `sliceRead` says which rows of a partition the reading of a slice returns. -/
structure QueryEnv where
  mode : ReadPathMode
  schema : Option LookupSchema
  codec : ValueCodec
  shape : Option PartitionKeyShape
  encodeSingleComponentKeyTyped : Value → String → Option Bytes
  deserializeValueBytes : Bytes → String → Option Value
  sliceRead : ClusteringSlice → ScanEntry → Bool
  resultColumns : SelectStatement → List String
  constantQuery : SelectStatement → Except QueryError (List QueryRow)
  sortRows : List OrderByItem → List QueryRow → Except QueryError (List QueryRow)
  aggregateRows : List String → List QueryRow → Except QueryError (List QueryRow)
  tryExecuteGlobalAggregate :
    List ExecutionStep → List ScanEntry → Except QueryError (Option (List QueryRow))
  projectedColumnName : SelectExpression → Nat → String
  estimateRowSize : QueryRow → Nat
  maxResultBytes : Nat
  maxResultRows : Nat
  globalAggregate_none : ∀ steps table, (∀ g, ExecutionStep.aggregate g ∉ steps) →
    tryExecuteGlobalAggregate steps table = .ok none

namespace QueryEnv

variable (env : QueryEnv)

/-! ### Reading the rows -/

/-- `apply_forcing`: the partitions to look up, or none for a full scan. -/
def lookup (predicates : List SSTablePredicate) : Except QueryError PartitionLookupOutcome :=
  match env.mode, classifyPartitionLookup env.codec predicates env.schema with
  | .full, _ => .ok .fallback
  | .point, .fallback => .error forcedError
  | _, outcome => .ok outcome

/-- The rows of one partition, or of a slice of it. -/
def targetedPartitionRows (table : List ScanEntry) (predicates : List SSTablePredicate) (key : Bytes) :
    List ScanEntry :=
  match classifyClusteringSlice predicates env.schema with
  | some slice => (scanPartition table key).filter (env.sliceRead slice)
  | none => scanPartition table key

/-- The rows of a targeted scan; one that carries cell metadata reads no slice. -/
def targetedRows (s : SelectStatement) (table : List ScanEntry) (predicates : List SSTablePredicate)
    (key : Bytes) : List ScanEntry :=
  if s.selectsCellMetadata then scanPartition table key
  else env.targetedPartitionRows table predicates key

/-- The rows that are built and that the predicates accept. -/
def accepted (predicates : List SSTablePredicate) (projection : List String)
    (entries : List ScanEntry) : List QueryRow :=
  (entries.filterMap (buildRowFromScan projection)).filter (evaluatePredicates · predicates)

/-- A single equality on what can only be the partition key. -/
def classifySchemalessPointLookup (predicates : List SSTablePredicate) : Option SchemalessPointSeek :=
  match predicates, env.shape with
  | [p], some shape =>
    if p.tokenColumns.isSome || p.operation != .equal then none
    else match p.values with
      | [value] =>
        if shape.partitionKeyCount == 1 && shape.clusteringKeyCount == 0 &&
            !shape.nonKeyColumnNames.contains p.column then
          shape.singlePkComponent.bind fun (name, cqlType) =>
            (env.encodeSingleComponentKeyTyped value cqlType).map fun bytes => ⟨bytes, name, cqlType⟩
        else none
      | _ => none
  | _, _ => none

/-- The row of a schema-less seek: the partition key is put back for the predicates to see. -/
def finalizeSchemalessSeekRow (projection : List String) (predicates : List SSTablePredicate)
    (seek : SchemalessPointSeek) (e : ScanEntry) : Option QueryRow := do
  let pkValue ← env.deserializeValueBytes e.key seek.pkCqlType
  let row ← buildRowFromScan projection e
  let present := (row.values seek.pkName).isSome
  let guarded : QueryRow :=
    if present then row else { row with values := Function.update row.values seek.pkName (some pkValue) }
  if evaluatePredicates guarded predicates then
    if !present && !projection.isEmpty && !projection.contains seek.pkName then some row
    else some guarded
  else none

/-- The seek of a query without a schema. -/
def schemalessSeek (s : SelectStatement) (predicates : List SSTablePredicate) :
    Option SchemalessPointSeek :=
  if env.schema.isSome || s.selectsCellMetadata then none
  else env.classifySchemalessPointLookup predicates

def executeSstableScan (s : SelectStatement) (scanCap : Option Nat) (table : List ScanEntry)
    (predicates : List SSTablePredicate) (projection : List String) :
    Except QueryError (List QueryRow) := do
  validateTokenPredicates predicates env.schema
  match env.schemalessSeek s predicates with
  | some seek =>
    if env.mode = .full then .error "forced read path unavailable: full"
    else
      let rows := scanPartition table seek.bytes
      return rows.filterMap (env.finalizeSchemalessSeekRow projection predicates seek)
  | none =>
    match ← env.lookup predicates with
    | .targeted key =>
      return capped scanCap (accepted predicates projection (env.targetedRows s table predicates key))
    | .multiTargeted keys =>
      return capped scanCap (accepted predicates projection (multiPartition table keys))
    | .fallback => return capped scanCap (accepted predicates projection table)

/-! ### The step loop -/

/-- The rows the filter is true of; the first one it does not evaluate on fails the query. -/
def executeFilter (w : WhereExpression) : List QueryRow → Except QueryError (List QueryRow)
  | [] => .ok []
  | row :: rows => do
    let keep ← evaluateWhereExpression row w
    let rest ← executeFilter w rows
    return if keep then row :: rest else rest

def executePerPartitionLimit (count : Nat) (rows : List QueryRow) : List QueryRow :=
  Quota.quota QueryRow.key count (fun _ => 0) rows

def executeLimit (count : Nat) (offset : Option Nat) (rows : List QueryRow) : List QueryRow :=
  (rows.drop (offset.getD 0)).take count

/-- Keeps the selected columns and the key. -/
def trimProjection (columns : List SelectExpression) (row : QueryRow) : QueryRow :=
  { row with values := fun name =>
      if (columns.filterMap plainColumn).contains name then row.values name else none }

/-- The columns of a reshaped row, from left to right. -/
def projectedValues (row : QueryRow) :
    Nat → List SelectExpression → (String → Option Value) → Except QueryError (String → Option Value)
  | _, [], values => .ok values
  | i, e :: es, values => do
    let v ← evaluateSelectExpression row e
    projectedValues row (i + 1) es (Function.update values (env.projectedColumnName e i) (some v))

def executeProjection (columns : List SelectExpression) :
    List QueryRow → Except QueryError (List QueryRow)
  | [] => .ok []
  | row :: rows => do
    let values ← env.projectedValues row 0 columns fun _ => none
    let rest ← executeProjection columns rows
    return ⟨values, []⟩ :: rest

/-- `scan_pushdown_cap`: how many rows the scan has to accept. -/
def scanPushdownCap (s : SelectStatement) (steps : List ExecutionStep) : Option Nat :=
  match s.selectClause with
  | .distinct _ => none
  | _ => stepsCap steps none
where
  stepsCap : List ExecutionStep → Option Nat → Option Nat
    | [], n => n
    | .sort _ :: _, _ => none
    | .aggregate _ :: _, _ => none
    | .perPartitionLimit _ :: _, _ => none
    | .filter _ :: _, _ => none
    | .limit count offset :: steps, _ => stepsCap steps (some (count + offset.getD 0))
    | .sstableScan _ _ :: steps, n => stepsCap steps n
    | .project _ :: steps, n => stepsCap steps n

def executeStep (s : SelectStatement) (scanCap : Option Nat) (table : List ScanEntry)
    (rows : List QueryRow) : ExecutionStep → Except QueryError (List QueryRow)
  | .sstableScan predicates projection =>
    env.executeSstableScan s scanCap table predicates projection
  | .filter w => executeFilter w rows
  | .sort orderBy => env.sortRows orderBy rows
  | .aggregate groupBy => env.aggregateRows groupBy rows
  | .perPartitionLimit count => .ok (executePerPartitionLimit count rows)
  | .limit count offset => .ok (executeLimit count offset rows)
  | .project columns =>
    if columns.any projectExprReshapesRow then env.executeProjection columns rows
    else .ok (rows.map (trimProjection columns))

def executeSteps (s : SelectStatement) (scanCap : Option Nat) (table : List ScanEntry) :
    List ExecutionStep → List QueryRow → Except QueryError (List QueryRow)
  | [], rows => .ok rows
  | step :: steps, rows => do
    executeSteps s scanCap table steps (← env.executeStep s scanCap table rows step)

/-- The byte budget, and the row budget of a statement without a `LIMIT`. -/
def enforceMaterializedRows (maxRows : Option Nat) (rows : List QueryRow) : Except QueryError Unit :=
  if env.maxResultBytes < (rows.map env.estimateRowSize).sum then .error "result too large"
  else if maxRows.any (· < rows.length) then .error "result too large"
  else .ok ()

def defaultSteps (plan : OptimizedQueryPlan) : List ExecutionStep :=
  if plan.executionSteps.isEmpty then [.sstableScan [] (env.resultColumns plan.statement)]
  else plan.executionSteps

def execute (plan : OptimizedQueryPlan) (table : List ScanEntry) :
    Except QueryError (List QueryRow) := do
  let s := plan.statement
  if !s.hasFrom then
    let rows ← env.constantQuery s
    let rows := (rows.drop (s.offset.getD 0)).take (s.limit.getD rows.length)
    env.enforceMaterializedRows (some env.maxResultRows) rows
    return rows
  else
    let steps := env.defaultSteps plan
    let rows ← match ← env.tryExecuteGlobalAggregate steps table with
      | some rows => pure rows
      | none => env.executeSteps s (scanPushdownCap s steps) table steps []
    env.enforceMaterializedRows (if s.limit.isSome then none else some env.maxResultRows) rows
    return rows

/-! ### Streaming -/

structure StreamLimits where
  perPartition : Option Nat
  count : Option Nat

/-- What the producer remembers between rows. -/
structure StreamState where
  currentPartition : Option Bytes
  partitionCount : Nat
  offsetRemaining : Nat
  sent : Nat

/-- Whether the per-partition limit lets a row through. -/
def StreamState.admitRow (limits : StreamLimits) (key : Bytes) (s : StreamState) :
    Bool × StreamState :=
  match limits.perPartition with
  | none => (true, s)
  | some cap =>
    let n := if s.currentPartition = some key then s.partitionCount else 0
    if cap ≤ n then (false, { s with currentPartition := some key, partitionCount := n })
    else (true, { s with currentPartition := some key, partitionCount := n + 1 })

/-- The rows sent, and the state if the scan came to its end. -/
def produce (limits : StreamLimits) (predicates : List SSTablePredicate) (projection : List String) :
    StreamState → List ScanEntry → List QueryRow × Option StreamState
  | s, [] => ([], some s)
  | s, e :: es =>
    match buildRowFromScan projection e with
    | none => produce limits predicates projection s es
    | some row =>
      if !evaluatePredicates row predicates then produce limits predicates projection s es
      else match s.admitRow limits row.key with
        | (false, s) => produce limits predicates projection s es
        | (true, s) =>
          if 0 < s.offsetRemaining then
            produce limits predicates projection
              { s with offsetRemaining := s.offsetRemaining - 1 } es
          else if limits.count.any (· ≤ s.sent + 1) then ([row], none)
          else
            let rest := produce limits predicates projection { s with sent := s.sent + 1 } es
            (row :: rest.1, rest.2)

/-- The rows the producer reads. -/
def streamSource (table : List ScanEntry) (predicates : List SSTablePredicate) :
    Except QueryError (List ScanEntry) := do
  match ← env.lookup predicates with
  | .targeted key => return scanPartition table key
  | .multiTargeted keys => return multiPartition table keys
  | .fallback => return table

/-- Filters and projections are skipped. -/
def streamSteps (limits : StreamLimits) (table : List ScanEntry) :
    StreamState → List ExecutionStep → Except QueryError (List QueryRow)
  | _, [] => .ok []
  | s, .sstableScan predicates projection :: steps => do
    validateTokenPredicates predicates env.schema
    let entries ← env.streamSource table predicates
    match produce limits predicates projection s entries with
    | (rows, none) => return rows
    | (rows, some s) => return rows ++ (← streamSteps limits table s steps)
  | s, _ :: steps => streamSteps limits table s steps

def limitOf : ExecutionStep → Option (Nat × Nat)
  | .limit count offset => some (count, offset.getD 0)
  | _ => none

def perPartitionLimitOf : ExecutionStep → Option Nat
  | .perPartitionLimit count => some count
  | _ => none

/-- What draining the channel gives: the rows, or the error that came through it. -/
def executeStreamingBackground (table : List ScanEntry) (steps : List ExecutionStep) :
    Except QueryError (List QueryRow) :=
  let limit := steps.findSome? limitOf
  if limit.any (·.1 == 0) then .ok []
  else env.streamSteps ⟨steps.findSome? perPartitionLimitOf, limit.map (·.1)⟩ table
    ⟨none, 0, (limit.map (·.2)).getD 0, 0⟩ steps

/-- The token predicates of every scan, before anything is read. -/
def validateScans : List ExecutionStep → Except QueryError Unit
  | [] => .ok ()
  | .sstableScan predicates _ :: steps => do
    validateTokenPredicates predicates env.schema
    validateScans steps
  | _ :: steps => validateScans steps

def scanProjection : ExecutionStep → Option (List String)
  | .sstableScan _ projection => some projection
  | _ => none

/-- `project_trims_scan_columns`: the two sets differ. -/
def projectTrimsScanColumns (columns : List SelectExpression) (scan : Option (List String)) : Bool :=
  match scan with
  | none => false
  | some scan => !((columns.filterMap plainColumn).all scan.contains &&
      scan.all (columns.filterMap plainColumn).contains)

def stepRequiresMaterialization (scan : Option (List String)) : ExecutionStep → Bool
  | .sort _ => true
  | .aggregate groupBy => !groupBy.isEmpty
  | .project columns => columns.any projectExprReshapesRow || projectTrimsScanColumns columns scan
  | _ => false

def requiresMaterialization (plan : OptimizedQueryPlan) : Bool :=
  plan.executionSteps.any
      (stepRequiresMaterialization (plan.executionSteps.findSome? scanProjection)) ||
    (match plan.statement.selectClause with
      | .distinct _ => true
      | _ => false) ||
    plan.statement.selectsCellMetadata

/-- The plans that are executed first and streamed afterwards. -/
def routedToExecute (plan : OptimizedQueryPlan) : Bool :=
  plan.aggregates || requiresMaterialization plan || !plan.statement.hasFrom

def executeStreaming (plan : OptimizedQueryPlan) (table : List ScanEntry) :
    Except QueryError (List QueryRow) := do
  if routedToExecute plan then env.execute plan table
  else
    let steps := env.defaultSteps plan
    env.validateScans steps
    env.executeStreamingBackground table steps

end QueryEnv

end Env

end Cqlite
