import Cqlite.Reader.ClusteringPrefix
import Cqlite.Writer.RowBytes

/-! Reading one row of Data.db (`row_decoder/row_framing.rs`: `parse_row_flags`,
    `parse_row_metadata`; `row_decoder/row_data.rs`: `parse_row_data_with_offset_impl`).

    A parser takes the bytes from its offset on and leaves those behind what it read; `none` is a
    corruption error. The end of a row is where its size says, wherever its cells end. The parser of
    one cell is a parameter. `RowDecoder` has the same parsers over positions, and that they agree. -/

namespace Cqlite

open VInt

/-- `x as i64`. -/
def asI64 (x : Int) : Int := (x + 2 ^ 63) % 2 ^ 64 - 2 ^ 63

/-- What the reader of a file knows: the minima of its header (a missing minimum TTL counts as 0),
    whether deletion times are unsigned (`oa`, `da`), and the columns in header order. -/
structure ReadSchema where
  base : Baselines
  hasUintDeletionTime : Bool
  clusteringTypes : List String
  regularColumns : Nat
  staticColumns : Nat

/-! ### Flags -/

def flag (mask flags : UInt8) : Bool := flags &&& mask != 0

/-- The flags byte and, when bit 0x80 says so, the extended one. -/
def parseRowFlags : Bytes → Option (UInt8 × Option UInt8 × Bytes)
  | [] => none
  | flags :: data =>
    if flag 0x80 flags then
      match data with
      | [] => none
      | extended :: data => some (flags, some extended, data)
    else some (flags, none, data)

/-! ### Metadata -/

structure RowHeaderFields where
  timestamp : Option Int
  ttl : Option Int
  livenessExpiresAtSeconds : Option Int
  markedForDeleteAt : Option Int
  localDeletionTime : Option Int
  missingColumnsBitmap : Option Nat
  deriving DecidableEq, Repr

/-- A field that is there when its flag is set. -/
def readField {α : Type} (present : Bool) (read : Bytes → Option (α × Bytes)) (data : Bytes) :
    Option (Option α × Bytes) :=
  if present then (read data).map fun p => (some p.1, p.2) else some (none, data)

section Metadata

variable (schema : ReadSchema)

/-- An unsigned delta to the minimum timestamp. -/
def readTimestamp (data : Bytes) : Option (Int × Bytes) :=
  (decodeUnsigned data).map fun p => (asI64 (schema.base.minTimestamp + p.1), p.2)

/-- TTL and expiry. -/
def readTtl (data : Bytes) : Option ((Int × Int) × Bytes) :=
  (decodeUnsigned data).bind fun p => (decodeUnsigned p.2).map fun q =>
    let raw := schema.base.minLocalDeletionTime + q.1
    ((asI32 (schema.base.minTtl + p.1),
      if schema.hasUintDeletionTime then asU32 raw else asI32 raw), q.2)

/-- `markedForDeleteAt`, then `localDeletionTime`. -/
def readDeletion (data : Bytes) : Option (Deletion × Bytes) :=
  (readTimestamp schema data).bind fun p => (decodeUnsigned p.2).map fun q =>
    let raw := schema.base.minLocalDeletionTime + q.1
    ((p.1, if schema.hasUintDeletionTime then asI32 (asU32 raw) else asI32 raw), q.2)

/-- The fields behind the two sizes, up to the cells. -/
def parseRowFields (flags : UInt8) (data : Bytes) : Option (RowHeaderFields × Bytes) :=
  (readField (flag 0x04 flags) (readTimestamp schema) data).bind fun ts =>
  (readField (flag 0x08 flags) (readTtl schema) ts.2).bind fun ttl =>
  (readField (flag 0x10 flags) (readDeletion schema) ttl.2).bind fun deletion =>
  (readField (!flag 0x20 flags) decodeUnsigned deletion.2).map fun bitmap =>
    ({ timestamp := ts.1
       ttl := ttl.1.map (·.1)
       livenessExpiresAtSeconds := ttl.1.map (·.2)
       markedForDeleteAt := deletion.1.map (·.1)
       localDeletionTime := deletion.1.map (·.2)
       missingColumnsBitmap := bitmap.1 }, bitmap.2)

/-- What `parse_row_metadata` finds: the header, the size of the row, the bytes it is counted from
    and those of the cells. -/
structure RowMetadata where
  header : RowHeaderFields
  rowSize : Nat
  body : Bytes
  cellData : Bytes

def parseRowMetadata (flags : UInt8) (data : Bytes) : Option RowMetadata :=
  (decodeUnsigned data).bind fun size => (decodeUnsigned size.2).bind fun prev =>
    (parseRowFields schema flags prev.2).map fun fields => ⟨fields.1, size.1, size.2, fields.2⟩

end Metadata

/-! ### Columns -/

/-- From position 64 on every column counts as present. -/
def RowHeaderFields.isPresent (header : RowHeaderFields) (idx : Nat) : Bool :=
  match header.missingColumnsBitmap with
  | none => true
  | some bitmap => decide (64 ≤ idx) || !bitmap.testBit idx

def RowHeaderFields.columns (header : RowHeaderFields) (count : Nat) : List Nat :=
  (List.range count).filter header.isPresent

/-- The column loop: it stops, without an error, at the end of the data and at a cell it cannot
    read. -/
def columnLoop {C : Type} (parseCell : Nat → Bytes → Option (C × Bytes)) :
    List Nat → Bytes → List C
  | [], _ => []
  | idx :: columns, data =>
    if data.isEmpty then []
    else match parseCell idx data with
      | none => []
      | some (cell, data) => cell :: columnLoop parseCell columns data

/-! ### The row -/

/-- Everything in front of the cells. -/
structure RowStart where
  flags : UInt8
  isStatic : Bool
  clustering : List Value
  header : RowHeaderFields

/-- A row as it was read: the columns the loop goes over, the bytes it starts at, its cells, and the
    bytes behind the row. -/
structure RowRead (C : Type) extends RowStart where
  columns : List Nat
  cellData : Bytes
  cells : List C
  rest : Bytes

section Row

variable {C : Type} (schema : ReadSchema)
variable (parseCell : RowStart → Nat → Bytes → Option (C × Bytes))

def ReadSchema.columnCount (isStatic : Bool) : Nat :=
  if isStatic then schema.staticColumns else schema.regularColumns

/-- A deletion and not one byte of cells: the cell loop is not entered. -/
def RowMetadata.isPureTombstone (metadata : RowMetadata) : Bool :=
  metadata.header.localDeletionTime.isSome &&
    decide (metadata.rowSize ≤ metadata.body.length - metadata.cellData.length)

/-- The row behind its flags and clustering prefix. -/
def finishRow (start : RowStart) (metadata : RowMetadata) : Option (RowRead C) :=
  if metadata.body.length < metadata.rowSize then none
  else
    let columns := if metadata.isPureTombstone then []
      else start.header.columns (schema.columnCount start.isStatic)
    some { start with
      columns := columns
      cellData := metadata.cellData
      cells := columnLoop (parseCell start) columns metadata.cellData
      rest := metadata.body.drop metadata.rowSize }

/-- Only an extended flag makes a static row, which has no clustering prefix. -/
def isStaticRow (extended : Option UInt8) : Bool := extended.any (flag 0x01)

def parseRowData (data : Bytes) : Option (RowRead C) :=
  (parseRowFlags data).bind fun (flags, extended, data) =>
    (if isStaticRow extended then some ([], data)
      else parseClusteringPrefix schema.clusteringTypes data).bind fun (clustering, data) =>
    (parseRowMetadata schema flags data).bind fun metadata =>
      finishRow schema parseCell ⟨flags, isStaticRow extended, clustering, metadata.header⟩ metadata

end Row

end Cqlite
