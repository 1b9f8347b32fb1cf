import Mathlib.Data.List.Sort
import Cqlite.Writer.ClusteringBytes
import Cqlite.Writer.RowMerge

/-! The bytes of one merged row (`data_writer/rows.rs`: `write_merged_row_with_prev_size`,
    `build_merged_row_body`, `write_merged_column_bitmap`, `write_column_subset`).

    Flags, the clustering prefix, two sizes, then the body: liveness, TTL, row deletion, the subset
    of columns and their cells. Times are deltas to the baselines of the file. What the cells hold is
    left to a parameter: a cell is a flags byte or a count, and whatever follows it. -/

namespace Cqlite

open VInt

/-- `x as u64`. -/
def asU64 (x : Int) : Nat := (x % 2 ^ 64).toNat

/-- The minima of `EncodingStats` that deltas are taken to. -/
structure Baselines where
  minTimestamp : Int
  minTtl : Int
  minLocalDeletionTime : Int
  deriving DecidableEq, Repr

/-- The schema with the type names of the clustering columns. -/
structure DataSchema extends WriteSchema where
  clusteringTypes : List String

/-! ### Columns -/

/-- `column_order_key`: simple columns before complex ones, then by name. -/
def columnLe (a b : WriteColumn) : Bool :=
  (!a.isComplex && b.isComplex) || (a.isComplex == b.isComplex && decide (a.name ≤ b.name))

namespace WriteSchema

def regularColumns (schema : WriteSchema) : List WriteColumn :=
  (schema.columns.filter fun c => !c.isStatic && !schema.isPrimaryKeyColumn c.name).insertionSort
    fun a b => columnLe a b = true

end WriteSchema

/-- The column of a per-element operation. -/
def CellOperation.elementColumn : CellOperation → Option String
  | .writeComplexElement column _ _ _ _ _ _ => some column
  | .complexDeletion column _ _ => some column
  | _ => none

/-- `present_columns`: the columns that have a cell. -/
def RowWrite.presentColumns (row : RowWrite) : List String :=
  (row.ops.filter fun mop => !mop.op.isNullWrite).filterMap (·.op.wholeColumn) ++
    row.complexElementOps.filterMap (·.op.elementColumn)

/-- The positions of the columns in a set, or outside it. -/
def positions (columns : List WriteColumn) (keep : String → Bool) : List Nat :=
  (columns.zipIdx.filter fun p => keep p.1.name).map (·.2)

def bitmapOf (indices : List Nat) : Nat := indices.foldl (fun bitmap idx => bitmap ||| 1 <<< idx) 0

/-- One bit per missing column, or from 64 columns on a count and the shorter list of positions. -/
def writeColumnSubset (columns : List WriteColumn) (present : List String) : Bytes :=
  let presentIndices := positions columns present.contains
  let missingIndices := positions columns fun name => !present.contains name
  if missingIndices.isEmpty then encodeUnsigned 0
  else if columns.length < 64 then encodeUnsigned (bitmapOf missingIndices)
  else encodeUnsigned (columns.length - presentIndices.length) ++
    (if presentIndices.length < columns.length / 2 then presentIndices.flatMap encodeUnsigned
    else missingIndices.flatMap encodeUnsigned)

/-! ### Flags -/

/-- The bits of the flags byte. -/
structure RowFlags where
  hasDeletion : Bool
  hasTimestamp : Bool
  hasTtl : Bool
  hasAllColumns : Bool
  hasComplexDeletion : Bool
  deriving DecidableEq, Repr

def RowFlags.toByte (flags : RowFlags) : UInt8 :=
  (if flags.hasDeletion then 0x10 else 0) ||| (if flags.hasTimestamp then 0x04 else 0) |||
    (if flags.hasTtl then 0x08 else 0) ||| (if flags.hasAllColumns then 0x20 else 0) |||
    (if flags.hasComplexDeletion then 0x40 else 0)

def RowWrite.flags (schema : WriteSchema) (row : RowWrite) : RowFlags where
  hasDeletion := row.rowDeletion.isSome
  hasTimestamp := row.livenessTs.isSome
  hasTtl := row.livenessTs.isSome && row.ttlSeconds.isSome
  hasAllColumns := row.rowDeletion.isNone && row.ops.all (·.op.isWrite) &&
    !row.ops.any (·.op.isNullWrite) && row.ops.length == schema.regularColumns.length
  hasComplexDeletion := row.ops.any (·.op.wholeColumn.any schema.isComplexColumn) ||
    row.complexElementOps.any (·.op.elementColumn.any schema.isComplexColumn)

/-! ### Times -/

section Body

variable (base : Baselines) (nowSeconds : Int)

def livenessBytes (row : RowWrite) : Bytes :=
  match row.livenessTs with
  | none => []
  | some ts => encodeUnsigned (asU64 (ts - base.minTimestamp))

/-- TTL and expiry of a row that has a timestamp; a delta below zero is refused. -/
def ttlBytes (row : RowWrite) : Except Error Bytes :=
  match row.livenessTs, row.ttlSeconds with
  | some _, some ttl =>
    let ldt := expiringLocalDeletionTime nowSeconds ttl
    if ttl - base.minTtl < 0 then
      .error (.invalidInput ("TTL " ++ toString ttl ++ " is less than min_ttl " ++
        toString base.minTtl))
    else if ldt - base.minLocalDeletionTime < 0 then
      .error (.invalidInput ("Local deletion time " ++ toString ldt ++
        " is less than min_local_deletion_time " ++ toString base.minLocalDeletionTime))
    else .ok (encodeUnsigned (ttl - base.minTtl).toNat ++
      encodeUnsigned (ldt - base.minLocalDeletionTime).toNat)
  | _, _ => .ok []

/-- The deletion of a row; a far-future time is negative as `i32` and may wrap. -/
def deletionBytes (row : RowWrite) : Except Error Bytes :=
  match row.rowDeletion with
  | none => .ok []
  | some (ts, ldt) =>
    if 0 ≤ ldt ∧ 0 ≤ base.minLocalDeletionTime ∧ ldt < base.minLocalDeletionTime then
      .error (.invalidInput ("Row tombstone: local deletion time " ++ toString ldt ++
        " is less than min_local_deletion_time " ++ toString base.minLocalDeletionTime))
    else .ok (encodeUnsigned (asU64 (ts - base.minTimestamp)) ++
      encodeUnsigned (asU32 (ldt - base.minLocalDeletionTime)).toNat)

/-! ### The row -/

variable (codec : ValueCodec) (cellBytes : RowWrite → WriteColumn → Except Error (UInt8 × Bytes))
variable (schema : DataSchema)

/-- `write_merged_cells`, in the order of the columns; the merge left one operation per column. -/
def writeMergedCells (row : RowWrite) : Except Error Bytes := do
  let cells ← (schema.regularColumns.filter fun c => row.presentColumns.contains c.name).mapM
    (cellBytes row)
  return cells.flatMap fun cell => cell.1 :: cell.2

def subsetBytes (row : RowWrite) : Bytes :=
  if (row.flags schema.toWriteSchema).hasAllColumns then []
  else writeColumnSubset schema.regularColumns row.presentColumns

def buildMergedRowBody (row : RowWrite) : Except Error Bytes := do
  let ttl ← ttlBytes base nowSeconds row
  let deletion ← deletionBytes base row
  let cells ← writeMergedCells cellBytes schema row
  return livenessBytes base row ++ ttl ++ deletion ++ subsetBytes schema row ++ cells

def ClusteringKey.values (key : ClusteringKey) : List Value := key.columns.map (·.2)

def rowPrefixBytes (row : RowWrite) : Except Error Bytes :=
  match row.clusteringKey with
  | none => .ok []
  | some key => writeClusteringPrefix codec schema.clusteringTypes key.values

def writeMergedRowWithPrevSize (row : RowWrite) (prevSize : UInt64) : Except Error Bytes := do
  let clustering ← rowPrefixBytes codec schema row
  let body ← buildMergedRowBody base nowSeconds cellBytes schema row
  let rowBodySize := unsignedLen prevSize.toNat + body.length
  return (row.flags schema.toWriteSchema).toByte :: clustering ++
    encodeUnsigned rowBodySize ++ encodeUnsigned prevSize.toNat ++ body

end Body

end Cqlite
