import Cqlite.Engine.Mutation

/-! From reconciled entries back to mutations (`KWayMerger::merge_entry_to_mutation` and its helpers in
    `merge/mod.rs`, `MergeEntry::is_metadata_only_no_op` in `merge/model.rs`).

    Decoding the partition-key bytes is a parameter. The row marker of the entry (`row_liveness`) is
    not read: what the writer stores for it is derived again from the cell operations. -/

namespace Cqlite

/-- Nothing the writer could emit: an empty live row without any deletion. -/
def MergeEntry.isMetadataOnlyNoOp (e : MergeEntry) : Bool :=
  (match e.rowData with
    | .live cells => cells.isEmpty
    | .tombstone _ _ => false) &&
  e.complexDeletions.isEmpty && e.rangeDeletion.isNone && e.rowDeletion.isNone &&
    e.partitionDeletion.isNone

/-! ### Cells -/

/-- The value an element operation carries: none for a deleted element and for a set member. -/
def CellData.elementValue (c : CellData) : Option Value :=
  if c.isDeleted || c.hasEmptyValue then none else some c.value

/-- A surfaced local deletion time; `0` stands for "not surfaced". -/
def TombstoneInfo.preservedLdt (info : TombstoneInfo) : Option Int :=
  if info.localDeletionTime = 0 then none else some (asI32 info.localDeletionTime)

/-- A live simple cell, expiring or not. -/
def CellData.writeOperation (c : CellData) : CellOperation :=
  match c.ttl with
  | some ttl => .writeWithTtl c.column c.value ttl c.localDeletionTime
  | none => .write c.column c.value

/-- One cell of `cells_to_cell_operations`. -/
def CellData.toOperation (c : CellData) : CellOperation :=
  if c.isComplexElement then
    .writeComplexElement c.column (c.cellPath.getD []) c.elementValue c.timestamp c.ttl
      c.localDeletionTime c.isDeleted
  else
    match c.value with
    | .tombstone info =>
      if info.tombstoneType = .cellTombstone then .delete c.column info.preservedLdt
      else c.writeOperation
    | _ => c.writeOperation

def cellsToCellOperations (cells : List CellData) : List CellOperation :=
  cells.map CellData.toOperation

/-! ### Entries -/

/-- The write times that differ from the row's, one for each simple column. The map is built by
    insertion, so the last cell of a column counts. -/
def ownTimestamps (cells : List CellData) (timestamp : Int) : List (String × Int) :=
  ((cells.filter fun c => !c.isComplexElement && c.timestamp != timestamp).map
    fun c => (c.column, c.timestamp)).reverse

def cellWriteTimestampsOf (e : MergeEntry) : Option (List (String × Int)) :=
  match e.rowData with
  | .live cells =>
    if (ownTimestamps cells e.timestamp).isEmpty then none
    else some (ownTimestamps cells e.timestamp)
  | .tombstone _ _ => none

/-- A carried complex deletion is emitted unless a row tombstone covers it. -/
def complexDeletionOperation (rowDel : Option Int) (cd : ComplexDeletion) : Option CellOperation :=
  if rowDel.all (· < cd.markedForDeleteAt) then
    some (.complexDeletion cd.column cd.markedForDeleteAt cd.localDeletionTime)
  else none

/-- The operations of a row: its cells, or the row deletion, then the complex deletions. -/
def operationsOf (e : MergeEntry) : List CellOperation :=
  (match e.rowData with
    | .live cells => cellsToCellOperations cells
    | .tombstone _ _ => [.deleteRow]) ++
  e.complexDeletions.filterMap (complexDeletionOperation (e.rowTombstone.map (·.1)))

/-- The source clock of a row tombstone, when it was surfaced. -/
def rowTombstoneLdt (e : MergeEntry) : Option Int :=
  match e.rowData with
  | .live _ => none
  | .tombstone _ ldt => if ldt = 0 then none else some ldt

/-- A row deletion next to live cells; a pure row tombstone travels as `DeleteRow`. -/
def coexistingRowTombstone (e : MergeEntry) : Option Deletion :=
  match e.rowData with
  | .live _ => e.rowDeletion
  | .tombstone _ _ => none

/-- The mutation of a partition-deletion carrier: the header deletion and nothing else. -/
def partitionDeletionMutation (pk : PartitionKey) (d : Deletion) : Mutation :=
  { Mutation.new pk none [] d.1 none with partitionTombstone := some ⟨d.1, d.2⟩ }

/-- The mutation of any other entry. -/
def rowMutation (pk : PartitionKey) (e : MergeEntry) : Mutation where
  partitionKey := pk
  clusteringKey := e.clusteringKey
  operations := operationsOf e
  timestampMicros := e.timestamp
  ttlSeconds := none
  partitionTombstone := none
  rangeTombstones := e.rangeDeletion.toList
  localDeletionTime := rowTombstoneLdt e
  rowTombstone := coexistingRowTombstone e
  cellWriteTimestamps := cellWriteTimestampsOf e

/-- `merge_entry_to_mutation`. -/
def mergeEntryToMutation (fromBytes : Bytes → Except Error PartitionKey) (e : MergeEntry) :
    Except Error Mutation := do
  let pk ← fromBytes e.key.key
  match e.partitionDeletion with
  | some d => return partitionDeletionMutation pk d
  | none => return rowMutation pk e

end Cqlite
