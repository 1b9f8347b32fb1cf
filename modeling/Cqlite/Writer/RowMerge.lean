import Cqlite.Engine.Mutation

/-! Merging the mutations of one clustering row at write time (`data_writer/rows.rs`:
    `merge_row_group`, with the helpers of `data_writer/encoding.rs` and `data_writer/types.rs`).

    The source fills its accumulators in one pass over the group; they do not read each other, so
    each one is its own pass here. A `HashMap` is the list of its entries in the order their keys were
    first seen. Where the source folds the values of a map, its order is unspecified: two liveness
    candidates of one timestamp and different row TTLs could fall either way. -/

namespace Cqlite

/-! ### The schema the writer reads -/

structure WriteColumn where
  name : String
  isStatic : Bool
  isComplex : Bool
  deriving DecidableEq, Repr

/-- What the writer knows of the table. -/
structure WriteSchema where
  partitionKeys : List String
  clusteringKeys : List String
  columns : List WriteColumn
  deriving DecidableEq, Repr

namespace WriteSchema

/-- `is_primary_key_column`. -/
def isPrimaryKeyColumn (schema : WriteSchema) (column : String) : Bool :=
  schema.partitionKeys.contains column || schema.clusteringKeys.contains column

def isStaticColumn (schema : WriteSchema) (column : String) : Bool :=
  ((schema.columns.find? fun c => c.name = column).map (·.isStatic)).getD false

def isComplexColumn (schema : WriteSchema) (column : String) : Bool :=
  ((schema.columns.find? fun c => c.name = column).map (·.isComplex)).getD false

end WriteSchema

/-! ### Operations -/

namespace CellOperation

/-- `merged_op_column`. -/
def column : CellOperation → Option String
  | .write column _ => some column
  | .writeWithTtl column _ _ _ => some column
  | .delete column _ => some column
  | .writeComplexElement column _ _ _ _ _ _ => some column
  | .complexDeletion column _ _ => some column
  | .deleteRow => none

/-- The column of a `Write`, `WriteWithTtl` or `Delete`. -/
def wholeColumn : CellOperation → Option String
  | .write column _ => some column
  | .writeWithTtl column _ _ _ => some column
  | .delete column _ => some column
  | _ => none

/-- The own timestamp of a per-element operation. -/
def complexTimestamp : CellOperation → Option Int
  | .writeComplexElement _ _ _ timestampMicros _ _ _ => some timestampMicros
  | .complexDeletion _ markedForDeleteAt _ => some markedForDeleteAt
  | _ => none

def isWrite : CellOperation → Bool
  | .write _ _ => true
  | .writeWithTtl _ _ _ _ => true
  | _ => false

def isDelete : CellOperation → Bool
  | .delete _ _ => true
  | _ => false

def isDeleteRow : CellOperation → Bool
  | .deleteRow => true
  | _ => false

/-- `is_static_operation`. -/
def isStatic (schema : WriteSchema) (op : CellOperation) : Bool :=
  op.column.any schema.isStaticColumn

/-- `op_cell_local_deletion_time`: a `Delete` keeps its own surfaced time. -/
def cellLocalDeletionTime (op : CellOperation) (m : Mutation) : Int :=
  match op with
  | .delete _ (some ldt) => ldt
  | _ => m.effectiveLocalDeletionTime

end CellOperation

/-- A write of NULL, which is represented by absence. -/
def CellOperation.isNullWrite : CellOperation → Bool
  | .write _ .null => true
  | .writeWithTtl _ .null _ _ => true
  | _ => false

/-- `i32::MAX`. -/
def i32Max : Int := 2 ^ 31 - 1

/-- `i32::MIN`. -/
def i32Min : Int := -(2 ^ 31)

/-- `expiring_local_deletion_time`: `now.saturating_add(ttl as i32)`. -/
def expiringLocalDeletionTime (now ttl : Int) : Int := max i32Min (min i32Max (now + asI32 ttl))

/-- A surviving operation with the timestamp it competes at. -/
structure MergedOp where
  op : CellOperation
  timestampMicros : Int
  rowTtlSeconds : Option Int
  cellLocalDeletionTime : Int

namespace MergedOp

/-- The writer's tie-break on one column: `cell_wins`, and the later mutation on a full tie. -/
def wins (candidate existing : MergedOp) : Bool :=
  (if candidate.timestampMicros ≠ existing.timestampMicros then
    decide (existing.timestampMicros < candidate.timestampMicros)
  else candidate.op.isDelete && !existing.op.isDelete) ||
  (candidate.timestampMicros = existing.timestampMicros &&
    candidate.op.isDelete == existing.op.isDelete)

end MergedOp

/-- A timestamp with the row TTL of its mutation. -/
abbrev Liveness := Int × Option Int

/-- `>=`: the later candidate replaces an equal one. -/
def Liveness.replaces (candidate current : Liveness) : Bool := current.1 ≤ candidate.1

/-- One Data.db row. -/
structure RowWrite where
  clusteringKey : Option ClusteringKey
  livenessTs : Option Int
  ttlSeconds : Option Int
  rowDeletion : Option Deletion
  ops : List MergedOp
  complexElementOps : List MergedOp

/-! ### Deletions -/

/-- Strictly newer than the floor, if there is one. -/
def newerThan (floor : Option Int) (ts : Int) : Bool := floor.all (· < ts)

/-- The row deletions of one mutation: its `DeleteRow`, then its coexisting row tombstone. -/
def Mutation.rowDeletions (m : Mutation) : List Deletion :=
  (if m.operations.any CellOperation.isDeleteRow then
    [(m.timestampMicros, m.effectiveLocalDeletionTime)] else []) ++ m.rowTombstone.toList

/-- The newest row deletion above the partition or range floor; a later one replaces an equal one. -/
def newestRowDeletion (floor : Option Int) (group : List Mutation) : Option Deletion :=
  Lww.latest (fun a b => decide (b.1 ≤ a.1))
    ((group.flatMap Mutation.rowDeletions).filter fun d => newerThan floor d.1)

/-- The strongest deletion over the row: `deletion_ts`. -/
def deletionTs (rowDeletion : Option Deletion) (floor : Option Int) : Option Int :=
  match rowDeletion.map (·.1), floor with
  | some a, some b => some (max a b)
  | a, b => a.or b

/-! ### The operations of one mutation -/

section Contributions

variable (schema : WriteSchema) (skipStaticOps : Bool) (dts : Option Int) (m : Mutation)

/-- The operations the row path does not leave to the static row. -/
def rowOperations : List CellOperation :=
  m.operations.filter fun op => !(skipStaticOps && op.isStatic schema)

/-- The per-element operations, each under its own timestamp. -/
def complexOpsOf : List MergedOp :=
  (rowOperations schema skipStaticOps m).filterMap fun op =>
    op.complexTimestamp.map fun ts => ⟨op, ts, m.ttlSeconds, m.effectiveLocalDeletionTime⟩

/-- The whole-column operations with their columns. -/
def wholeColumnOps : List (String × CellOperation) :=
  (rowOperations schema skipStaticOps m).filterMap fun op => op.wholeColumn.map fun c => (c, op)

/-- The regular-column operations above the deletion, judged on the cell's own timestamp. -/
def cellOpsOf : List (String × MergedOp) :=
  (((wholeColumnOps schema skipStaticOps m).filter fun p => !schema.isPrimaryKeyColumn p.1).map
    fun p => (p.1, ⟨p.2, m.cellWriteTimestamp p.1, m.ttlSeconds, p.2.cellLocalDeletionTime m⟩)).filter
    fun p => newerThan dts p.2.timestampMicros

/-- `pk_write_liveness`: the newest write surfaced for a primary-key column. -/
def pkWriteLiveness : Option Int :=
  Lww.latest (fun a b => decide (b ≤ a))
    ((((wholeColumnOps schema skipStaticOps m).filter fun p =>
      schema.isPrimaryKeyColumn p.1 && p.2.isWrite).map fun p => m.cellWriteTimestamp p.1).filter
      (newerThan dts))

/-- No operation and no tombstone payload: an insert of the primary key alone. -/
def Mutation.isPurePkInsert : Bool :=
  m.operations.isEmpty && m.partitionTombstone.isNone && m.rangeTombstones.isEmpty

/-- The liveness of a mutation without cells. -/
def pkLiveness : Option Liveness :=
  ((pkWriteLiveness schema skipStaticOps dts m).or
    (if m.isPurePkInsert then some m.timestampMicros else none)).map fun ts => (ts, m.ttlSeconds)

end Contributions

/-! ### Mixed streams -/

/-- `elem_max_ts`: the newest per-element operation of a column. -/
def elemMaxTs (complexOps : List MergedOp) (column : String) : Option Int :=
  ((complexOps.filter fun mop => mop.op.column = some column).map (·.timestampMicros)).max?

/-- A bound on the maximum is a bound on every element. -/
theorem max?_all {xs : List Int} {p : Int → Bool} (hp : ∀ a b, a ≤ b → p b = true → p a = true) :
    xs.max?.all p = xs.all p := by
  cases hmax : xs.max? with
  | none => rw [List.max?_eq_none_iff.mp hmax]; rfl
  | some a =>
    obtain ⟨hmem, hle⟩ := List.max?_eq_some_iff.mp hmax
    rw [Bool.eq_iff_iff]
    simp only [Option.all_some, List.all_eq_true]
    exact ⟨fun ha b hb => hp b a (hle b hb) ha, fun hall => hall a hmem⟩

theorem max?_all_le {xs : List Int} {t : Int} : xs.max?.all (· ≤ t) = xs.all (· ≤ t) :=
  max?_all fun a b hab hb => by simp only [decide_eq_true_eq] at hb ⊢; omega

/-- The whole-column operations that are not older than the element stream of their column. -/
def wholeWinners (complexOps : List MergedOp) (cells : List (String × MergedOp)) :
    List (String × MergedOp) :=
  cells.filter fun p => (elemMaxTs complexOps p.1).all (· ≤ p.2.timestampMicros)

/-- The per-element operations of the columns no whole-column operation won. -/
def elementWinners (complexOps : List MergedOp) (kept : List (String × MergedOp)) : List MergedOp :=
  complexOps.filter fun mop => !kept.any fun p => mop.op.column = some p.1

/-- The deletion time of a complex marker on `column`. -/
def CellOperation.mfdaOn (column : String) : CellOperation → Option Int
  | .complexDeletion c markedForDeleteAt _ => if c = column then some markedForDeleteAt else none
  | _ => none

/-- `active_mfda`: the newest complex marker of a column. -/
def activeMfda (complexOps : List MergedOp) (column : String) : Option Int :=
  (complexOps.filterMap fun mop => mop.op.mfdaOn column).max?

/-- An element survives when it is strictly newer than the marker of its column. -/
def unshadowedElements (complexOps : List MergedOp) : List MergedOp :=
  complexOps.filter fun mop =>
    match mop.op with
    | .writeComplexElement column _ _ timestampMicros _ _ _ =>
      (activeMfda complexOps column).all fun mfda =>
        elementSurvivesComplexDeletion timestampMicros mfda
    | _ => true

/-- The liveness of a live element: its own timestamp and TTL. -/
def MergedOp.elementLiveness (mop : MergedOp) : Option Liveness :=
  match mop.op with
  | .writeComplexElement _ _ value timestampMicros ttlSeconds _ isDeleted =>
    if isDeleted || value.isNone then none else some (timestampMicros, ttlSeconds)
  | _ => none

/-! ### `merge_row_group` -/

section Group

variable (schema : WriteSchema) (skipStaticOps : Bool) (dts : Option Int) (group : List Mutation)

/-- The mutations above the deletion; of the others only the per-element operations are looked at. -/
def unshadowedMutations : List Mutation := group.filter fun m => newerThan dts m.timestampMicros

/-- Last write wins per column. -/
def mergedCells : List (String × MergedOp) :=
  Lww.winners Prod.fst (fun a b => a.2.wins b.2)
    ((unshadowedMutations dts group).flatMap (cellOpsOf schema skipStaticOps dts))

/-- `whole_col_liveness`: the newest write of every column, whether or not its cell wins. -/
def wholeColLiveness : List (String × Liveness) :=
  Lww.winners Prod.fst (fun a b => Liveness.replaces a.2 b.2)
    ((((unshadowedMutations dts group).flatMap (cellOpsOf schema skipStaticOps dts)).filter
      fun p => p.2.op.isWrite).map fun p => (p.1, (p.2.timestampMicros, p.2.rowTtlSeconds)))

/-- The per-element operations above the deletion. -/
def complexElementOps : List MergedOp :=
  (group.flatMap (complexOpsOf schema skipStaticOps)).filter fun mop =>
    newerThan dts mop.timestampMicros

/-- The whole-column operations that are written. -/
def writtenCells : List (String × MergedOp) :=
  wholeWinners (complexElementOps schema skipStaticOps dts group)
    (mergedCells schema skipStaticOps dts group)

/-- The per-element operations that are written. -/
def writtenElements : List MergedOp :=
  unshadowedElements (elementWinners (complexElementOps schema skipStaticOps dts group)
    (writtenCells schema skipStaticOps dts group))

/-- The liveness candidates in the order they are folded: cell-less sources, then columns whose
    whole-column operation was not superseded, then the live elements. -/
def livenessCandidates : List Liveness :=
  (unshadowedMutations dts group).filterMap (pkLiveness schema skipStaticOps dts) ++
  ((wholeColLiveness schema skipStaticOps dts group).filter fun p =>
    (elemMaxTs (complexElementOps schema skipStaticOps dts group) p.1).isNone ||
      (writtenCells schema skipStaticOps dts group).any fun k => k.1 = p.1).map (·.2) ++
  (writtenElements schema skipStaticOps dts group).filterMap MergedOp.elementLiveness

end Group

/-- `merge_row_group`; `none` when nothing is left to write. -/
def mergeRowGroup (schema : WriteSchema) (skipStaticOps : Bool) (shadowFloor : Option Int)
    (group : List Mutation) : Option RowWrite :=
  let rowDeletion := newestRowDeletion shadowFloor group
  let dts := deletionTs rowDeletion shadowFloor
  let liveness := Lww.latest Liveness.replaces (livenessCandidates schema skipStaticOps dts group)
  let ops := (writtenCells schema skipStaticOps dts group).map (·.2)
  let complexElementOps := writtenElements schema skipStaticOps dts group
  if ops.isEmpty && complexElementOps.isEmpty && rowDeletion.isNone && liveness.isNone then none
  else
    some {
      clusteringKey := (group.head?).bind (·.clusteringKey)
      livenessTs := liveness.map (·.1)
      ttlSeconds := liveness.bind (·.2)
      rowDeletion := rowDeletion
      ops := ops
      complexElementOps := complexElementOps }

end Cqlite
