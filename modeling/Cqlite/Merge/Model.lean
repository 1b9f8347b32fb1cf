import Mathlib.Data.Prod.Lex
import Cqlite.Types
import Cqlite.Lib.Lww

/-! The entities of the merge stream (`merge/model.rs`, `reader/compaction_row.rs`) and the shared
    decision rules (`reconcile_rules.rs`).

    `MergeEntry` is one row of one input SSTable, or a partition-level carrier: an entry that holds
    only a partition deletion or only a range tombstone. -/

namespace Cqlite

/-! ### Row markers -/

/-- Primary-key liveness of a row. The row header writes marker and timestamp together, so a marker
    is present exactly when its timestamp is. -/
structure RowLiveness where
  hasMarker : Bool
  expiresAtSeconds : Option Int
  markerTimestamp : Option Int
  marker_iff : markerTimestamp.isSome = hasMarker
  deriving DecidableEq

namespace RowLiveness

/-- `RowLiveness::default()`: no marker. -/
def empty : RowLiveness := ⟨false, none, none, rfl⟩

/-- A marker written at `ts`. -/
def marker (ts : Int) (expires : Option Int) : RowLiveness := ⟨true, expires, some ts, rfl⟩

/-- Present and not expired at `now`. -/
def markerLiveAt (l : RowLiveness) (now : Int) : Bool :=
  l.hasMarker && l.expiresAtSeconds.all (fun s => now < s)

/-- Judged on the marker's own timestamp; the row timestamp stands in when there is no marker. -/
def markerSurvivesFloor (l : RowLiveness) (rowTimestamp floor : Int) : Bool :=
  match l.markerTimestamp with
  | some ts => floor < ts
  | none => floor < rowTimestamp

/-- Whether the left marker wins a merge of two present markers. -/
def selfWins (a b : RowLiveness) : Bool :=
  match a.markerTimestamp, b.markerTimestamp with
  | some x, some y =>
    if x ≠ y then y < x
    else
      match a.expiresAtSeconds, b.expiresAtSeconds with
      | none, _ => true
      | _, none => false
      | some x, some y => y ≤ x
  | _, _ =>
    match a.expiresAtSeconds, b.expiresAtSeconds with
    | none, _ => true
    | _, none => false
    | some x, some y => y ≤ x

/-- Last write wins on the marker timestamp, later expiry on a tie. -/
def merge (a b : RowLiveness) : RowLiveness :=
  match a.hasMarker, b.hasMarker with
  | false, false => empty
  | true, false => a
  | false, true => b
  | true, true => if selfWins a b then a else b

theorem exists_markerTimestamp {l : RowLiveness} (h : l.hasMarker = true) :
    ∃ ts, l.markerTimestamp = some ts :=
  Option.isSome_iff_exists.mp (l.marker_iff.trans h)

theorem markerTimestamp_eq_none {l : RowLiveness} (h : l.hasMarker = false) :
    l.markerTimestamp = none := by
  have := l.marker_iff
  rw [h] at this
  simpa using this

end RowLiveness

/-! ### Cells and deletions -/

/-- One cell, or one element of a multi-cell column when `cellPath` is present. -/
structure CellData where
  column : String
  value : Value
  timestamp : Int
  ttl : Option Int
  cellPath : Option Bytes
  localDeletionTime : Option Int
  isComplexElement : Bool
  isDeleted : Bool
  hasEmptyValue : Bool

/-- `(column, cell_path)`, the unit of reconciliation. -/
abbrev CellKey := String × Option Bytes

namespace CellData

/-- A simple live cell. -/
def new (column : String) (value : Value) (timestamp : Int) : CellData :=
  ⟨column, value, timestamp, none, none, none, false, false, false⟩

def cellKey (c : CellData) : CellKey := (c.column, c.cellPath)

end CellData

/-- Deletes every element of a multi-cell column written at or before `markedForDeleteAt`. -/
structure ComplexDeletion where
  column : String
  markedForDeleteAt : Int
  localDeletionTime : Int
  deriving DecidableEq, Repr

/-- One end of a range of clustering keys; a key may be a prefix. -/
inductive ClusteringBound
  | inclusive (ck : ClusteringKey)
  | exclusive (ck : ClusteringKey)
  | bottom
  | top

/-- A deletion over an interval of rows. -/
structure RangeTombstone where
  startBound : ClusteringBound
  endBound : ClusteringBound
  deletionTime : Int
  localDeletionTime : Int

inductive RowData
  | live (cells : List CellData)
  | tombstone (deletionTime localDeletionTime : Int)

/-- A `(markedForDeleteAt, localDeletionTime)` pair. -/
abbrev Deletion := Int × Int

/-- One row, marker or carrier of an input of the merge. -/
structure MergeEntry where
  runIndex : Nat
  key : DecoratedKey
  clusteringKey : Option ClusteringKey
  timestamp : Int
  rowData : RowData
  complexDeletions : List ComplexDeletion
  rangeDeletion : Option RangeTombstone
  rowDeletion : Option Deletion
  partitionDeletion : Option Deletion
  rowLiveness : RowLiveness

namespace MergeEntry

def new (runIndex : Nat) (key : DecoratedKey) (clusteringKey : Option ClusteringKey)
    (timestamp : Int) (rowData : RowData) : MergeEntry :=
  ⟨runIndex, key, clusteringKey, timestamp, rowData, [], none, none, none, .empty⟩

def withRowLiveness (e : MergeEntry) (l : RowLiveness) : MergeEntry := { e with rowLiveness := l }

def withComplexDeletions (e : MergeEntry) (cds : List ComplexDeletion) : MergeEntry :=
  { e with complexDeletions := cds }

def withRowDeletion (e : MergeEntry) (deletionTime ldt : Int) : MergeEntry :=
  { e with rowDeletion := some (deletionTime, ldt) }

def withRangeDeletion (e : MergeEntry) (rd : RangeTombstone) : MergeEntry :=
  { e with rangeDeletion := some rd }

def withPartitionDeletion (e : MergeEntry) (pd : Deletion) : MergeEntry :=
  { e with partitionDeletion := some pd }

/-- A synthetic carrier of a partition deletion. -/
def isPartitionDeleteCarrier (e : MergeEntry) : Bool := e.partitionDeletion.isSome

/-- The cells of a live entry; a row tombstone has none. -/
def cells (e : MergeEntry) : List CellData :=
  match e.rowData with
  | .live cells => cells
  | .tombstone _ _ => []

/-- The `(deletion_time, local_deletion_time)` of a row tombstone entry. -/
def rowTombstone (e : MergeEntry) : Option Deletion :=
  match e.rowData with
  | .live _ => none
  | .tombstone dt ldt => some (dt, ldt)

/-- Every row deletion the entry carries, in the order the fold meets them. -/
def rowDeletions (e : MergeEntry) : List Deletion := e.rowDeletion.toList ++ e.rowTombstone.toList

end MergeEntry

/-- Names of the clustering columns, whose pseudo-cells are kept in the cell list for read-back. -/
def ckNames (ck : Option ClusteringKey) : List String := ck.elim [] ClusteringKey.columnNames

/-- A real data cell: not a clustering pseudo-cell. -/
def isDataCell (ck : Option ClusteringKey) (c : CellData) : Bool := !(ckNames ck).contains c.column

/-! ### Tombstone recognition -/

/-- `KWayMerger::is_cell_tombstone`. -/
def isCellTombstone (c : CellData) : Bool :=
  (match c.value with
    | .tombstone info => info.tombstoneType = .cellTombstone
    | _ => false) || c.isDeleted

/-- `KWayMerger::cell_effective_ldt`: the cell field, else a non-zero tombstone payload. -/
def cellEffectiveLdt (c : CellData) : Option Int :=
  match c.localDeletionTime with
  | some ldt => some ldt
  | none =>
    match c.value with
    | .tombstone info =>
      if info.tombstoneType = .cellTombstone ∧ info.localDeletionTime ≠ 0 then
        some (asI32 info.localDeletionTime)
      else none
    | _ => none

/-! ### Shared rules -/

/-- `cell_wins`: later timestamp, then a deletion over a live or expiring cell. -/
def cellWins (candidate existing : CellData) : Bool :=
  if candidate.timestamp ≠ existing.timestamp then existing.timestamp < candidate.timestamp
  else isCellTombstone candidate && !isCellTombstone existing

/-- `complex_deletion_supersedes`: strictly greater only. -/
def complexDeletionSupersedes (candidateMfda activeMfda : Int) : Bool := activeMfda < candidateMfda

/-- `element_survives_complex_deletion`: strictly newer than the marker. -/
def elementSurvivesComplexDeletion (elementTs mfda : Int) : Bool := mfda < elementTs

/-- The order behind `cell_wins`: timestamp, then tombstones above live cells. -/
def cellRank (c : CellData) : Int ×ₗ Bool := toLex (c.timestamp, isCellTombstone c)

theorem cellWins_iff (a b : CellData) : cellWins a b = true ↔ cellRank b < cellRank a := by
  unfold cellWins cellRank
  rw [Prod.Lex.toLex_lt_toLex]
  by_cases h : a.timestamp = b.timestamp
  · cases isCellTombstone a <;> cases isCellTombstone b <;> simp [h]
  · have h' : b.timestamp ≠ a.timestamp := fun e => h e.symm
    simp [h, h']

theorem timestamp_le_of_cellRank_le {a b : CellData} (h : cellRank a ≤ cellRank b) :
    a.timestamp ≤ b.timestamp :=
  Prod.Lex.monotone_fst _ _ h

theorem cellRank_lt_of_timestamp_lt {a b : CellData} (h : a.timestamp < b.timestamp) :
    cellRank a < cellRank b :=
  (Prod.Lex.toLex_lt_toLex).mpr (.inl h)

end Cqlite
