import Cqlite.Merge.RowOrder
import Cqlite.Writer.RowMerge

/-! The unfiltereds of one partition, in the order they are written.

    The writer sorts the rows and the two markers of every range tombstone by position class, key,
    weight and kind (`marker_merge.rs`), and then joins a closing and an opening marker that meet
    into a boundary (`partition.rs`: `coalesce_boundaries`). -/

namespace Cqlite

/-! ### Kinds of markers -/

/-- The ordinals of `ClusteringPrefix.Kind`. -/
def exclEndBound : Nat := 0
def inclStartBound : Nat := 1
def exclEndInclStartBoundary : Nat := 2
def clusteringKind : Nat := 4
def inclEndExclStartBoundary : Nat := 5
def inclEndBound : Nat := 6
def exclStartBound : Nat := 7

/-- One unfiltered of a partition body. -/
inductive PartitionItem
  | row (row : RowWrite)
  | marker (bound : ClusteringBound) (isOpen : Bool) (deletionTime localDeletionTime : Int)
  | boundary (kind : Nat) (clustering : ClusteringKey)
      (endDeletionTime endLocalDeletionTime startDeletionTime startLocalDeletionTime : Int)

def boundKindOrdinal : ClusteringBound → Bool → Nat
  | .inclusive _, true => inclStartBound
  | .exclusive _, false => exclEndBound
  | .inclusive _, false => inclEndBound
  | .exclusive _, true => exclStartBound
  | .bottom, true => inclStartBound
  | .top, true => inclStartBound
  | .bottom, false => inclEndBound
  | .top, false => inclEndBound

/-- The position class, the key, the weight against a row of that key, and the kind. -/
structure SortClass where
  position : Int
  key : Option ClusteringKey
  weight : Int
  kind : Nat

/-- What an item is sorted by. -/
def sortClass : PartitionItem → SortClass
  | .row row => ⟨0, row.clusteringKey, 0, clusteringKind⟩
  | .marker bound isOpen _ _ =>
    let kind := boundKindOrdinal bound isOpen
    match bound with
    | .inclusive ck => ⟨0, some ck, if isOpen then -1 else 1, kind⟩
    | .exclusive ck => ⟨0, some ck, if isOpen then 1 else -1, kind⟩
    | .bottom => ⟨-1, none, 0, kind⟩
    | .top => ⟨1, none, 0, kind⟩
  | .boundary kind ck _ _ _ _ => ⟨0, some ck, 0, kind⟩

section Items

variable [DebugFmt] (schema : TableSchema)

/-- Absent keys tie with every key. -/
def cmpKeys : Option ClusteringKey → Option ClusteringKey → Ordering
  | some a, some b => ClusteringKey.schemaCmp schema a b
  | _, _ => .eq

def partitionItemCmp (a b : PartitionItem) : Ordering :=
  (compare (sortClass a).position (sortClass b).position).then
    ((cmpKeys schema (sortClass a).key (sortClass b).key).then
      ((compare (sortClass a).weight (sortClass b).weight).then
        (compare (sortClass a).kind (sortClass b).kind)))

def sortPartitionItems (items : List PartitionItem) : List PartitionItem :=
  items.mergeSort fun a b => partitionItemCmp schema a b != .gt

/-! ### Boundaries -/

/-- The kind and key of the boundary a closing and an opening bound make; a comparison that fails
    makes none. -/
def boundaryKindFor : ClusteringBound → ClusteringBound → Option (Nat × ClusteringKey)
  | .exclusive c₁, .inclusive c₂ =>
    if c₁.compare c₂ schema = some .eq then some (exclEndInclStartBoundary, c₂) else none
  | .inclusive c₁, .exclusive c₂ =>
    if c₁.compare c₂ schema = some .eq then some (inclEndExclStartBoundary, c₁) else none
  | _, _ => none

/-- The boundary two neighbouring items make. -/
def joinBoundary : PartitionItem → PartitionItem → Option PartitionItem
  | .marker closing false endDt endLdt, .marker opening true startDt startLdt =>
    (boundaryKindFor schema closing opening).map fun p =>
      .boundary p.1 p.2 endDt endLdt startDt startLdt
  | _, _ => none

def coalesceBoundaries : List PartitionItem → List PartitionItem
  | [] => []
  | [item] => [item]
  | a :: b :: rest =>
    match joinBoundary schema a b with
    | some boundary => boundary :: coalesceBoundaries rest
    | none => a :: coalesceBoundaries (b :: rest)

/-- The opening and the closing marker of a range. -/
def rangeMarkers (rt : RangeTombstone) : List PartitionItem :=
  [.marker rt.startBound true rt.deletionTime rt.localDeletionTime,
    .marker rt.endBound false rt.deletionTime rt.localDeletionTime]

/-- The unsorted items of a partition. -/
def allItems (rows : List RowWrite) (ranges : List RangeTombstone) : List PartitionItem :=
  rows.map .row ++ ranges.flatMap rangeMarkers

/-- The items `write_partition` emits. -/
def partitionItems (rows : List RowWrite) (ranges : List RangeTombstone) : List PartitionItem :=
  coalesceBoundaries schema (sortPartitionItems schema (allItems rows ranges))

end Items

end Cqlite
