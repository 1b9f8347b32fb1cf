import Cqlite.Engine.Mutation
import Cqlite.Writer.ClusteringBytes
import Mathlib.Data.List.Sort

/-! CQL statements and the mutations they become (`cql_to_mutation/builders.rs`,
    `cql_to_mutation/delta_helpers.rs`, `cql/ast.rs`).

    Every builder scans the key columns of the schema and takes the first value bound to each. What a
    literal is worth under a column's type (`codec.rs`) is a parameter, like the JSON parser. -/

namespace Cqlite

/-! ### Syntax -/

structure CqlIdentifier where
  name : String
  quoted : Bool
  deriving DecidableEq, Repr

inductive CqlLiteral
  | null
  | boolean (b : Bool)
  | integer (i : Int)
  | float (bits : Nat)
  | string (s : String)
  | uuid (s : String)
  | blob (hex : String)
  | list (items : List CqlLiteral)
  | set (items : List CqlLiteral)
  | map (entries : List (CqlLiteral × CqlLiteral))
  | udt (fields : List (CqlIdentifier × CqlLiteral))
  | tuple (elements : List CqlLiteral)

inductive CqlBinaryOperator
  | and
  | or
  | eq
  | ne
  | lt
  | le
  | gt
  | ge
  | add
  | sub
  | mul
  | div
  | mod
  | like
  deriving DecidableEq, Repr

inductive CqlUnaryOperator
  | not
  | minus
  deriving DecidableEq, Repr

/-- Expressions; the forms that no builder accepts anywhere are `other`. -/
inductive CqlExpression
  | literal (lit : CqlLiteral)
  | column (id : CqlIdentifier)
  | binary (left : CqlExpression) (operator : CqlBinaryOperator) (right : CqlExpression)
  | unary (operator : CqlUnaryOperator) (operand : CqlExpression)
  | other

structure CqlTable where
  keyspace : Option CqlIdentifier
  name : CqlIdentifier

structure CqlUsing where
  ttl : Option CqlExpression
  timestamp : Option CqlExpression

inductive CqlInsertValues
  | values (exprs : List CqlExpression)
  | json (text : String)

structure CqlInsert where
  table : CqlTable
  columns : List CqlIdentifier
  values : CqlInsertValues
  ifNotExists : Bool
  usingClause : Option CqlUsing

inductive CqlAssignmentOperator
  | assign
  | addAssign
  | subAssign
  | listAppend
  | listPrepend
  | setAdd
  | setRemove
  | mapUpdate (key : CqlExpression)

structure CqlAssignment where
  column : CqlIdentifier
  operator : CqlAssignmentOperator
  value : CqlExpression

structure CqlUpdate where
  table : CqlTable
  usingClause : Option CqlUsing
  assignments : List CqlAssignment
  whereClause : CqlExpression
  ifCondition : Option CqlExpression

structure CqlDelete where
  columns : List CqlIdentifier
  table : CqlTable
  usingClause : Option CqlUsing
  whereClause : CqlExpression
  ifCondition : Option CqlExpression

inductive CqlBatchType
  | logged
  | unlogged
  | counter
  deriving DecidableEq, Repr

inductive CqlBatchStatement
  | insert (ins : CqlInsert)
  | update (upd : CqlUpdate)
  | delete (del : CqlDelete)

structure CqlBatch where
  batchType : CqlBatchType
  usingClause : Option CqlUsing
  statements : List CqlBatchStatement

/-! ### Schema -/

/-- A key column; `order` is read of clustering columns only. -/
structure CqlKeyColumn where
  name : String
  dataType : String
  position : Nat
  order : ClusteringOrder
  deriving DecidableEq, Repr

structure CqlColumn where
  name : String
  dataType : String
  isStatic : Bool
  deriving DecidableEq, Repr

structure CqlSchema where
  keyspace : String
  table : String
  partitionKeys : List CqlKeyColumn
  clusteringKeys : List CqlKeyColumn
  columns : List CqlColumn

namespace CqlSchema

variable (schema : CqlSchema)

/-- By position; a list already in order is left as it is. -/
def orderedKeys (keys : List CqlKeyColumn) : List CqlKeyColumn :=
  if keys.Pairwise (fun a b => a.position ≤ b.position) then keys
  else keys.insertionSort fun a b => a.position ≤ b.position

def orderedPartitionKeys : List CqlKeyColumn := orderedKeys schema.partitionKeys

def orderedClusteringKeys : List CqlKeyColumn := orderedKeys schema.clusteringKeys

def getColumn (name : String) : Option CqlColumn := schema.columns.find? (·.name == name)

def isPartitionKey (name : String) : Bool := schema.partitionKeys.any (·.name == name)

def isClusteringKey (name : String) : Bool := schema.clusteringKeys.any (·.name == name)

/-- What the merge and the writer read of it. -/
def toTableSchema : TableSchema :=
  ⟨schema.clusteringKeys.map fun k => ⟨k.name, k.order⟩, fun _ => none⟩

end CqlSchema

/-! ### What the builders call -/

/-- Lower case, the value of an expression or a JSON value under a column type, and the members of a
    JSON object in the parser's order (`none` for JSON that is no object). -/
structure CqlCodec (J : Type) where
  toLowercase : String → String
  expressionToValue : CqlExpression → String → Except Error Value
  parseJson : String → Except String (Option (List (String × J)))
  isNull : J → Bool
  jsonValueToCqlValue : J → String → Except Error Value

/-- One reading of the system clock: microseconds, or why there are none, and seconds. -/
structure SystemClock where
  micros : Except String Int
  seconds : Int

section Builders

variable {J : Type} (codec : CqlCodec J) (schema : CqlSchema) (clock : SystemClock)

/-- `eq_ignore_ascii_case`. -/
def eqIgnoreAsciiCase (a b : String) : Bool := lowercase a == lowercase b

def validateTable (table : CqlTable) : Except Error Unit :=
  match table.keyspace.filter fun ks => !eqIgnoreAsciiCase ks.name schema.keyspace with
  | some ks => .error (.invalidInput ("Statement targets keyspace '" ++ ks.name ++
      "' but schema is for '" ++ schema.keyspace ++ "'"))
  | none =>
    if eqIgnoreAsciiCase table.name.name schema.table then .ok ()
    else .error (.invalidInput ("Statement targets table '" ++ table.name.name ++
      "' but schema is for '" ++ schema.table ++ "'"))

/-- The timestamp of a `USING` clause, else the clock. -/
def extractTimestamp (usingClause : Option CqlUsing) : Except Error Int :=
  match usingClause.bind (·.timestamp) with
  | some (.literal (.integer ts)) => .ok ts
  | some _ => .error (.invalidInput "USING TIMESTAMP requires an integer literal")
  | none => clock.micros.mapError fun e => .invalidInput ("System clock error: " ++ e)

def extractTtl (usingClause : Option CqlUsing) : Except Error (Option Int) :=
  match usingClause.bind (·.ttl) with
  | some (.literal (.integer ttl)) =>
    if 0 ≤ ttl ∧ ttl < 2 ^ 32 then .ok (some ttl)
    else .error (.invalidInput ("TTL value " ++ toString ttl ++ " is out of range for u32"))
  | some _ => .error (.invalidInput "USING TTL requires an integer literal")
  | none => .ok none

/-! ### Keys -/

section Keys

variable {α : Type} (value : α → String → Except Error Value)

/-- The first value bound to a column. -/
def findBinding (bindings : List (String × α)) (key : CqlKeyColumn) : Option α :=
  (bindings.find? fun b => b.1 == codec.toLowercase key.name).map (·.2)

/-- The loop over key columns that must be bound. -/
def bindRequired (missing : String → Error) (bindings : List (String × α)) :
    List CqlKeyColumn → Except Error (List (String × Value))
  | [] => .ok []
  | key :: keys =>
    match findBinding codec bindings key with
    | none => .error (missing key.name)
    | some a => do
      let v ← value a key.dataType
      let rest ← bindRequired missing bindings keys
      return (key.name, v) :: rest

/-- The loop over key columns that may be left out. -/
def bindOptional (bindings : List (String × α)) :
    List CqlKeyColumn → Except Error (List (String × Value))
  | [] => .ok []
  | key :: keys =>
    match findBinding codec bindings key with
    | none => bindOptional bindings keys
    | some a => do
      let v ← value a key.dataType
      let rest ← bindOptional bindings keys
      return (key.name, v) :: rest

end Keys

/-- No columns are no key. -/
def clusteringKeyOfColumns (columns : List (String × Value)) : Option ClusteringKey :=
  if columns.isEmpty then none else some ⟨columns⟩

/-- A write of one column. -/
def writeOperation {α : Type} (value : α → String → Except Error Value) (name : String) (a : α) :
    Except Error CellOperation :=
  match schema.getColumn name with
  | none => .error (.invalidInput ("Unknown column '" ++ name ++ "'"))
  | some column => (value a column.dataType).map fun v => .write column.name v

/-- What an INSERT or UPDATE makes before its `USING` clause is read. -/
structure MutationParts where
  partition : List (String × Value)
  clustering : List (String × Value)
  operations : List CellOperation

/-- The tail of the INSERT and UPDATE builders. -/
def finishMutation (usingClause : Option CqlUsing) (parts : MutationParts) :
    Except Error Mutation := do
  let timestamp ← extractTimestamp clock usingClause
  let ttl ← extractTtl usingClause
  return .new ⟨parts.partition⟩ (clusteringKeyOfColumns parts.clustering) parts.operations timestamp ttl

/-! ### INSERT -/

def jsonMembers (text : String) : Except Error (List (String × J)) :=
  match codec.parseJson text with
  | .ok (some members) => .ok members
  | .ok none => .error (.invalidInput "INSERT JSON requires a JSON object, not array or primitive")
  | .error e => .error (.invalidInput ("Invalid JSON in INSERT: " ++ e))

/-- A member with the lower-case name of its column. -/
def jsonColumn (member : String × J) : Except Error (String × J) :=
  match schema.getColumn (codec.toLowercase member.1) with
  | some _ => .ok (codec.toLowercase member.1, member.2)
  | none => .error (.invalidInput ("Unknown column '" ++ member.1 ++ "' in JSON INSERT"))

def insertJsonParts (text : String) (table : CqlTable) : Except Error MutationParts := do
  let members ← jsonMembers codec text
  validateTable schema table
  let colValues ← (members.filter fun m => !codec.isNull m.2).mapM (jsonColumn codec schema)
  let pk ← bindRequired codec codec.jsonValueToCqlValue (fun name => .invalidInput
    ("Partition key column '" ++ name ++ "' is missing from JSON INSERT")) colValues
    schema.orderedPartitionKeys
  let ck ← bindOptional codec codec.jsonValueToCqlValue colValues schema.orderedClusteringKeys
  let isKey (name : String) : Bool :=
    (schema.orderedPartitionKeys ++ schema.orderedClusteringKeys).any
      fun k => codec.toLowercase k.name == name
  let operations ← (colValues.filter fun c => !isKey c.1).mapM fun c =>
    writeOperation schema codec.jsonValueToCqlValue c.1 c.2
  return ⟨pk, ck, operations⟩

/-- The columns of an INSERT with their values. -/
def insertBindings (columns : List CqlIdentifier) (exprs : List CqlExpression) :
    List (String × CqlExpression) :=
  (columns.map fun c => codec.toLowercase c.name).zip exprs

def insertValuesParts (columns : List CqlIdentifier) (exprs : List CqlExpression) :
    Except Error MutationParts :=
  if columns.length ≠ exprs.length then
    .error (.invalidInput ("INSERT has " ++ toString columns.length ++ " columns but " ++
      toString exprs.length ++ " values"))
  else do
    let pairs := insertBindings codec columns exprs
    let pk ← bindRequired codec codec.expressionToValue (fun name => .invalidInput
      ("Partition key column '" ++ name ++ "' is missing from INSERT")) pairs
      schema.orderedPartitionKeys
    let ck ← bindOptional codec codec.expressionToValue pairs schema.orderedClusteringKeys
    let operations ← (pairs.filter fun p =>
      !(schema.isPartitionKey p.1 || schema.isClusteringKey p.1)).mapM fun p =>
        writeOperation schema codec.expressionToValue p.1 p.2
    return ⟨pk, ck, operations⟩

def insertParts (ins : CqlInsert) : Except Error MutationParts :=
  if ins.ifNotExists then
    .error (.invalidInput "IF NOT EXISTS is not supported by the local write engine")
  else do
    validateTable schema ins.table
    match ins.values with
    | .json text => insertJsonParts codec schema text ins.table
    | .values exprs => insertValuesParts codec schema ins.columns exprs

def insertToMutation (ins : CqlInsert) : Except Error Mutation :=
  insertParts codec schema ins >>= finishMutation clock ins.usingClause

/-! ### WHERE -/

def extractWhereBindings : CqlExpression → Except Error (List (String × CqlExpression))
  | .binary left .and right => do
    let l ← extractWhereBindings left
    let r ← extractWhereBindings right
    return l ++ r
  | .binary (.column id) .eq right => .ok [(codec.toLowercase id.name, right)]
  | .binary _ .eq _ => .error (.invalidInput ("WHERE clause equality predicate must have a column " ++
      "reference on the left-hand side"))
  | _ => .error (.invalidInput "WHERE clause must consist of equality predicates joined with AND")

structure ResolvedKeys where
  partition : List (String × Value)
  clustering : List (String × Value)

def resolveKeyBindings (bindings : List (String × CqlExpression)) : Except Error ResolvedKeys := do
  let pk ← bindRequired codec codec.expressionToValue (fun name => .invalidInput
    ("Partition key column '" ++ name ++ "' is missing from WHERE clause")) bindings
    schema.orderedPartitionKeys
  let ck ← bindOptional codec codec.expressionToValue bindings schema.orderedClusteringKeys
  return ⟨pk, ck⟩

/-! ### UPDATE -/

def assignmentOperation (a : CqlAssignment) : Except Error CellOperation :=
  match a.operator with
  | .subAssign | .setRemove => .error (.invalidInput ("SET col -= value is not supported; CQLite " ++
      "uses last-write-wins semantics. Use SET col = <full_value> instead."))
  | .mapUpdate _ => .error (.invalidInput
      "SET col[key] = value is not supported; use SET col = \x7bfull_map\x7d instead.")
  | _ => writeOperation schema codec.expressionToValue (codec.toLowercase a.column.name) a.value

def updateParts (upd : CqlUpdate) : Except Error MutationParts :=
  if upd.ifCondition.isSome then
    .error (.invalidInput "IF conditions are not supported by the local write engine")
  else do
    validateTable schema upd.table
    let bindings ← extractWhereBindings codec upd.whereClause
    let keys ← resolveKeyBindings codec schema bindings
    let operations ← upd.assignments.mapM (assignmentOperation codec schema)
    return ⟨keys.partition, keys.clustering, operations⟩

def updateToMutation (upd : CqlUpdate) : Except Error Mutation :=
  updateParts codec schema upd >>= finishMutation clock upd.usingClause

/-! ### DELETE -/

inductive RangeOperator
  | lt
  | le
  | gt
  | ge
  deriving DecidableEq, Repr

def CqlBinaryOperator.toRange : CqlBinaryOperator → Option RangeOperator
  | .lt => some .lt
  | .le => some .le
  | .gt => some .gt
  | .ge => some .ge
  | _ => none

structure RangePredicate where
  column : String
  operator : RangeOperator
  value : CqlExpression

structure DeletePredicates where
  equalityBindings : List (String × CqlExpression)
  rangePredicates : List RangePredicate

def leftSideError : Error :=
  .invalidInput "WHERE clause predicate must have a column reference on the left-hand side"

def extractDeletePredicates : CqlExpression → Except Error DeletePredicates
  | .binary left .and right => do
    let l ← extractDeletePredicates left
    let r ← extractDeletePredicates right
    return ⟨l.equalityBindings ++ r.equalityBindings, l.rangePredicates ++ r.rangePredicates⟩
  | .binary left operator right =>
    match operator, operator.toRange, left with
    | .eq, _, .column id => .ok ⟨[(codec.toLowercase id.name, right)], []⟩
    | .eq, _, _ => .error leftSideError
    | _, some op, .column id => .ok ⟨[], [⟨codec.toLowercase id.name, op, right⟩]⟩
    | _, some _, _ => .error leftSideError
    | _, none, _ => .error (.invalidInput
        "DELETE WHERE clause must consist of equality or range predicates joined with AND")
  | _ => .error (.invalidInput
      "DELETE WHERE clause must consist of equality or range predicates joined with AND")

/-- The bounds collected so far; a later predicate on the same side replaces an earlier one. -/
abbrev DeleteBounds := Option ClusteringBound × Option ClusteringBound

def applyRangePredicate (bounds : DeleteBounds) (pred : RangePredicate) :
    Except Error DeleteBounds :=
  match schema.orderedClusteringKeys.find? fun k => codec.toLowercase k.name == pred.column with
  | none => .error (.invalidInput ("Internal: clustering column '" ++ pred.column ++
      "' missing after validation"))
  | some col => do
    let v ← codec.expressionToValue pred.value col.dataType
    let ck : ClusteringKey := ⟨[(col.name, v)]⟩
    return match pred.operator with
      | .gt => (some (.exclusive ck), bounds.2)
      | .ge => (some (.inclusive ck), bounds.2)
      | .lt => (bounds.1, some (.exclusive ck))
      | .le => (bounds.1, some (.inclusive ck))

def buildRangeTombstones (preds : List RangePredicate) (timestampMicros : Int) :
    Except Error (List RangeTombstone) :=
  let names := schema.orderedClusteringKeys.map fun k => codec.toLowercase k.name
  match preds.find? fun p => !names.contains p.column with
  | some p => .error (.invalidInput ("Range predicate on non-clustering column '" ++ p.column ++
      "'; only clustering key columns support range deletions"))
  | none => do
    let bounds ← preds.foldlM (applyRangePredicate codec schema) (none, none)
    return [⟨bounds.1.getD .bottom, bounds.2.getD .top, timestampMicros, clock.seconds⟩]

/-- No clustering column bound and none named: the partition, if the table has clustering columns. -/
def isPartitionDelete (del : CqlDelete) (preds : DeletePredicates)
    (clusteringKey : Option ClusteringKey) : Bool :=
  clusteringKey.isNone && del.columns.isEmpty && !schema.clusteringKeys.isEmpty &&
    preds.rangePredicates.isEmpty

def deleteOperations (del : CqlDelete) (preds : DeletePredicates) (partitionDelete : Bool) :
    List CellOperation :=
  if partitionDelete then []
  else if del.columns.isEmpty then (if preds.rangePredicates.isEmpty then [.deleteRow] else [])
  else del.columns.map fun id => .delete id.name none

/-- The WHERE clause of a DELETE, taken apart. -/
def deleteKeys (del : CqlDelete) : Except Error (DeletePredicates × ResolvedKeys) :=
  if del.ifCondition.isSome then
    .error (.invalidInput "IF conditions are not supported by the local write engine")
  else do
    validateTable schema del.table
    let preds ← extractDeletePredicates codec del.whereClause
    let keys ← resolveKeyBindings codec schema preds.equalityBindings
    return (preds, keys)

def deleteRanges (preds : DeletePredicates) (timestampMicros : Int) :
    Except Error (List RangeTombstone) :=
  if preds.rangePredicates.isEmpty then .ok []
  else buildRangeTombstones codec schema clock preds.rangePredicates timestampMicros

/-- The mutation of a DELETE without its range tombstones. -/
def deleteMutation (del : CqlDelete) (preds : DeletePredicates) (keys : ResolvedKeys)
    (timestampMicros : Int) : Mutation :=
  let clusteringKey := clusteringKeyOfColumns keys.clustering
  let partitionDelete := isPartitionDelete schema del preds clusteringKey
  let operations := deleteOperations del preds partitionDelete
  { Mutation.new ⟨keys.partition⟩ clusteringKey operations timestampMicros none with
    -- every operation is a tombstone
    localDeletionTime := if operations.isEmpty then none else some clock.seconds
    partitionTombstone := if partitionDelete then some ⟨timestampMicros, clock.seconds⟩ else none }

def deleteToMutation (del : CqlDelete) : Except Error Mutation := do
  let (preds, keys) ← deleteKeys codec schema del
  let timestamp ← extractTimestamp clock del.usingClause
  let ranges ← deleteRanges codec schema clock preds timestamp
  return { deleteMutation schema clock del preds keys timestamp with rangeTombstones := ranges }

end Builders

/-! ### BATCH -/

section Batch

variable {J : Type} (codec : CqlCodec J) (schema : CqlSchema)

def CqlBatchStatement.usingClause : CqlBatchStatement → Option CqlUsing
  | .insert ins => ins.usingClause
  | .update upd => upd.usingClause
  | .delete del => del.usingClause

def statementToMutation (clock : SystemClock) : CqlBatchStatement → Except Error Mutation
  | .insert ins => insertToMutation codec schema clock ins
  | .update upd => updateToMutation codec schema clock upd
  | .delete del => deleteToMutation codec schema clock del

/-- The timestamp of the batch; one that is no integer literal is ignored. -/
def batchTimestamp (batch : CqlBatch) : Option Int :=
  match batch.usingClause.bind (·.timestamp) with
  | some (.literal (.integer ts)) => some ts
  | _ => none

/-- One statement of the batch. -/
def batchStatementToMutation (timestamp : Option Int) (clock : SystemClock)
    (stmt : CqlBatchStatement) : Except Error Mutation := do
  let mutation ← statementToMutation codec schema clock stmt
  return match timestamp with
    | some ts =>
      if (stmt.usingClause.bind (·.timestamp)).isSome then mutation
      else { mutation with timestampMicros := ts }
    | none => mutation

/-- Each statement reads the clock for itself. -/
def batchToMutations (clocks : Nat → SystemClock) (batch : CqlBatch) : Except Error (List Mutation) :=
  if batch.batchType = .counter then
    .error (.invalidInput
      "COUNTER BATCH is not supported; CQLite uses last-write-wins semantics")
  else
    batch.statements.zipIdx.mapM fun s =>
      batchStatementToMutation codec schema (batchTimestamp batch) (clocks s.2) s.1

end Batch

/-! ### Accepted statements -/

section Accepted

variable {J : Type} {codec : CqlCodec J} {schema : CqlSchema} {clock : SystemClock}

theorem finishMutation_eq_ok {usingClause : Option CqlUsing} {parts : MutationParts} {m : Mutation} :
    finishMutation clock usingClause parts = .ok m ↔
      ∃ timestamp, extractTimestamp clock usingClause = .ok timestamp ∧
        ∃ ttl, extractTtl usingClause = .ok ttl ∧
          .new ⟨parts.partition⟩ (clusteringKeyOfColumns parts.clustering) parts.operations timestamp
            ttl = m := by
  simp only [finishMutation, bind_eq_ok, pure, Except.pure, Except.ok.injEq]

theorem deleteToMutation_eq_ok {del : CqlDelete} {m : Mutation} :
    deleteToMutation codec schema clock del = .ok m ↔
      ∃ preds keys, deleteKeys codec schema del = .ok (preds, keys) ∧
        ∃ timestamp, extractTimestamp clock del.usingClause = .ok timestamp ∧
          ∃ ranges, deleteRanges codec schema clock preds timestamp = .ok ranges ∧
            { deleteMutation schema clock del preds keys timestamp with rangeTombstones := ranges } =
              m := by
  simp only [deleteToMutation, bind_eq_ok, pure, Except.pure, Except.ok.injEq, Prod.exists]

variable {preds : DeletePredicates} {ranges : List RangeTombstone}

theorem deleteRanges_deletionTime {timestamp : Int}
    (h : deleteRanges codec schema clock preds timestamp = .ok ranges) :
    ∀ rt ∈ ranges, rt.deletionTime = timestamp := by
  rw [deleteRanges] at h
  split at h
  · cases h
    exact fun rt hrt => absurd hrt List.not_mem_nil
  · rw [buildRangeTombstones] at h
    split at h
    · cases h
    · rw [bind_eq_ok] at h
      obtain ⟨bounds, -, h⟩ := h
      cases h
      intro rt hrt
      rw [List.mem_singleton.1 hrt]

/-- Another timestamp gives the same ranges at that time. -/
theorem deleteRanges_move {preds : DeletePredicates} {timestamp : Int}
    (h : deleteRanges codec schema clock preds timestamp = .ok ranges) (t : Int) :
    deleteRanges codec schema clock preds t =
      .ok (ranges.map fun rt => { rt with deletionTime := t }) := by
  rw [deleteRanges] at h ⊢
  split at h
  · rename_i hempty
    cases h
    rw [if_pos hempty]
    rfl
  · rename_i hranges
    rw [if_neg hranges]
    rw [buildRangeTombstones] at h ⊢
    split at h
    · cases h
    · rw [bind_eq_ok] at h
      obtain ⟨bounds, hbounds, h⟩ := h
      cases h
      simp only [hbounds]
      rfl

theorem deleteRanges_eq_nil {timestamp : Int}
    (h : deleteRanges codec schema clock preds timestamp = .ok ranges) :
    ranges = [] ↔ preds.rangePredicates = [] := by
  rw [deleteRanges] at h
  split at h
  · rename_i hempty
    cases h
    exact iff_of_true rfl (List.isEmpty_iff.1 hempty)
  · rename_i hranges
    rw [buildRangeTombstones] at h
    split at h
    · cases h
    · rw [bind_eq_ok] at h
      obtain ⟨bounds, -, h⟩ := h
      cases h
      exact iff_of_false (List.cons_ne_nil _ _) fun hnil => hranges (by rw [hnil]; rfl)

theorem mem_orderedKeys {keys : List CqlKeyColumn} {key : CqlKeyColumn} :
    key ∈ CqlSchema.orderedKeys keys ↔ key ∈ keys := by
  rw [CqlSchema.orderedKeys]
  split
  · exact Iff.rfl
  · exact (List.perm_insertionSort _ _).mem_iff

section Bind

variable {α : Type} {value : α → String → Except Error Value} {bindings : List (String × α)}

theorem bindOptional_eq_nil {keys : List CqlKeyColumn} {columns : List (String × Value)}
    (h : bindOptional codec value bindings keys = .ok columns) :
    columns = [] ↔ ∀ key ∈ keys, findBinding codec bindings key = none := by
  induction keys generalizing columns with
  | nil =>
    cases h
    exact iff_of_true rfl fun _ hkey => absurd hkey List.not_mem_nil
  | cons key keys ih =>
    rw [bindOptional] at h
    split at h
    · rename_i hnone
      rw [ih h, List.forall_mem_cons]
      exact (and_iff_right hnone).symm
    · rename_i a hsome
      simp only [bind_eq_ok] at h
      obtain ⟨v, -, rest, -, h⟩ := h
      cases h
      refine iff_of_false (List.cons_ne_nil _ _) fun hall => ?_
      rw [hall key List.mem_cons_self] at hsome
      cases hsome

end Bind

theorem deleteKeys_eq_ok {del : CqlDelete} {keys : ResolvedKeys} :
    deleteKeys codec schema del = .ok (preds, keys) ↔
      del.ifCondition.isSome = false ∧ validateTable schema del.table = .ok () ∧
        extractDeletePredicates codec del.whereClause = .ok preds ∧
        resolveKeyBindings codec schema preds.equalityBindings = .ok keys := by
  rw [deleteKeys]
  split
  · rename_i hif
    exact ⟨fun h => (nomatch h), fun h => by rw [hif] at h; cases h.1⟩
  · rename_i hif
    simp only [bind_eq_ok, pure, Except.pure, Except.ok.injEq, Prod.mk.injEq]
    constructor
    · rintro ⟨_, htable, p, hp, k, hk, rfl, rfl⟩
      exact ⟨Bool.eq_false_iff.2 hif, htable, hp, hk⟩
    · rintro ⟨-, htable, hp, hk⟩
      exact ⟨(), htable, preds, hp, keys, hk, rfl, rfl⟩

theorem resolveKeyBindings_eq_ok {bindings : List (String × CqlExpression)} {keys : ResolvedKeys} :
    resolveKeyBindings codec schema bindings = .ok keys ↔
      bindRequired codec codec.expressionToValue (fun name => .invalidInput
        ("Partition key column '" ++ name ++ "' is missing from WHERE clause")) bindings
        schema.orderedPartitionKeys = .ok keys.partition ∧
      bindOptional codec codec.expressionToValue bindings schema.orderedClusteringKeys =
        .ok keys.clustering := by
  simp only [resolveKeyBindings, bind_eq_ok, pure, Except.pure, Except.ok.injEq]
  constructor
  · rintro ⟨pk, hpk, ck, hck, rfl⟩
    exact ⟨hpk, hck⟩
  · rintro ⟨hpk, hck⟩
    exact ⟨_, hpk, _, hck, rfl⟩

end Accepted

end Cqlite
