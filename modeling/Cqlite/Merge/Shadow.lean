import Cqlite.Lib.Coverage
import Cqlite.Merge.Reconcile

/-! Range and partition shadowing of reconciled rows, and the coalescing of range tombstones
    (`merge/mod.rs`: `coalesce_range_tombstones`, `cut_cmp`, `range_tombstone_covers_ck`,
    `apply_range_shadowing`, `apply_partition_shadowing`). -/

namespace Cqlite

/-! ### Cut positions -/

/-- A position between clustering keys: just before or just after a (prefix) key. -/
inductive RangeCut
  | bottom
  | atKey (key : ClusteringKey) (after : Bool)
  | top

namespace RangeCut

/-- Left edge of a start bound. -/
def ofStart : ClusteringBound → RangeCut
  | .inclusive ck => .atKey ck false
  | .exclusive ck => .atKey ck true
  | .bottom => .bottom
  | .top => .top

/-- Right edge of an end bound. -/
def ofEnd : ClusteringBound → RangeCut
  | .inclusive ck => .atKey ck true
  | .exclusive ck => .atKey ck false
  | .top => .top
  | .bottom => .bottom

def toStartBound : RangeCut → ClusteringBound
  | .bottom => .bottom
  | .atKey key false => .inclusive key
  | .atKey key true => .exclusive key
  | .top => .top

def toEndBound : RangeCut → ClusteringBound
  | .top => .top
  | .atKey key true => .inclusive key
  | .atKey key false => .exclusive key
  | .bottom => .bottom

@[simp] theorem ofStart_toStartBound (c : RangeCut) : ofStart c.toStartBound = c := by
  cases c with
  | atKey key after => cases after <;> rfl
  | _ => rfl

@[simp] theorem ofEnd_toEndBound (c : RangeCut) : ofEnd c.toEndBound = c := by
  cases c with
  | atKey key after => cases after <;> rfl
  | _ => rfl

variable [DebugFmt] (schema : TableSchema)

/-- `cut_cmp`: the common prefix decides; a shorter prefix sits before or after all its extensions
    by its `after` flag. -/
def cmp : RangeCut → RangeCut → Ordering
  | .bottom, .bottom => .eq
  | .bottom, _ => .lt
  | _, .bottom => .gt
  | .top, .top => .eq
  | .top, _ => .gt
  | _, .top => .lt
  | .atKey ka aa, .atKey kb ab =>
    let l := min ka.columns.length kb.columns.length
    match ClusteringKey.schemaCmp schema (ka.truncate l) (kb.truncate l) with
    | .eq =>
      match compare ka.columns.length kb.columns.length with
      | .eq => compare aa ab
      | .lt => if aa then .gt else .lt
      | .gt => if ab then .lt else .gt
    | ord => ord

end RangeCut

/-! ### Coalescing -/

section Coalesce

variable [DebugFmt] (schema : TableSchema)

/-- A range tombstone as an interval between cuts weighted by `(markedForDeleteAt, ldt)`. -/
def RangeTombstone.toSeg (rt : RangeTombstone) : Coverage.Seg RangeCut Deletion :=
  ⟨.ofStart rt.startBound, .ofEnd rt.endBound, (rt.deletionTime, rt.localDeletionTime)⟩

def RangeTombstone.ofSeg (seg : Coverage.Seg RangeCut Deletion) : RangeTombstone :=
  ⟨seg.lo.toStartBound, seg.hi.toEndBound, seg.weight.1, seg.weight.2⟩

/-- `bm > mfda || (bm == mfda && bl >= ldt)`: the current best is kept on ties. -/
def deletionBetter (best cand : Deletion) : Bool :=
  cand.1 < best.1 || (best.1 = cand.1 && cand.2 ≤ best.2)

/-- `coalesce_partition_range_tombstones`: a single range is returned untouched. -/
def coalescePartitionRangeTombstones (ranges : List RangeTombstone) : List RangeTombstone :=
  if ranges.length ≤ 1 then ranges
  else
    (Coverage.coalesce (RangeCut.cmp schema) deletionBetter (ranges.map RangeTombstone.toSeg)).map
      RangeTombstone.ofSeg

/-- A range tombstone with the partition it was read from. -/
abbrev KeyedRange := DecoratedKey × RangeTombstone

/-- Group by partition-key bytes, the first-seen key representing its group. -/
def groupRangesByKey (rts : List KeyedRange) : List (DecoratedKey × List RangeTombstone) :=
  rts.foldl insert []
where
  insert : List (DecoratedKey × List RangeTombstone) → KeyedRange →
      List (DecoratedKey × List RangeTombstone)
    | [], (key, rt) => [(key, [rt])]
    | (k, ranges) :: groups, (key, rt) =>
      if k.key = key.key then (k, ranges ++ [rt]) :: groups
      else (k, ranges) :: insert groups (key, rt)

def coalesceRangeTombstones (rts : List KeyedRange) : List KeyedRange :=
  (groupRangesByKey rts).flatMap fun (key, ranges) =>
    (coalescePartitionRangeTombstones schema ranges).map fun rt => (key, rt)

end Coalesce

/-! ### Coverage of a clustering key -/

section Covers

variable [DebugFmt] (schema : TableSchema)

/-- `ck` against a bound key, over the bound's component count. -/
def cmpBound (ck bound : ClusteringKey) : Ordering :=
  ClusteringKey.schemaCmp schema (ck.truncate bound.columns.length) bound

def afterStart (ck : ClusteringKey) : ClusteringBound → Bool
  | .inclusive b => cmpBound schema ck b != .lt
  | .exclusive b => cmpBound schema ck b == .gt
  | .bottom => true
  | .top => false

def beforeEnd (ck : ClusteringKey) : ClusteringBound → Bool
  | .inclusive b => cmpBound schema ck b != .gt
  | .exclusive b => cmpBound schema ck b == .lt
  | .top => true
  | .bottom => false

/-- Whether the range covers the row. -/
def rangeTombstoneCoversCk (ck : ClusteringKey) (rt : RangeTombstone) : Bool :=
  afterStart schema ck rt.startBound && beforeEnd schema ck rt.endBound

/-- The negation of the `before_end` test, arm by arm. -/
def rangeEndBeforeCk (ck : ClusteringKey) (rt : RangeTombstone) : Bool :=
  match rt.endBound with
  | .inclusive b => cmpBound schema ck b == .gt
  | .exclusive b => cmpBound schema ck b != .lt
  | .top => false
  | .bottom => true

/-- `key.key == entry.key.key && covers`. -/
def coversRow (key : DecoratedKey) (ck : ClusteringKey) (r : KeyedRange) : Bool :=
  r.1.key = key.key && rangeTombstoneCoversCk schema ck r.2

/-- The deletion time of the range covering `ck`: the candidate found by `partition_point` when the
    slice is one partition's, the maximum over a linear scan otherwise. -/
def rangeFloor (key : DecoratedKey) (ck : ClusteringKey) (rts : List KeyedRange) : Option Int :=
  let singlePartition := match rts.head?, rts.getLast? with
    | some first, some last => first.1.key = key.key && last.1.key = key.key
    | _, _ => false
  if singlePartition then
    ((rts.dropWhile fun r => rangeEndBeforeCk schema ck r.2).head?.filter
      (coversRow schema key ck)).map (·.2.deletionTime)
  else
    ((rts.filter (coversRow schema key ck)).map (·.2.deletionTime)).max?

end Covers

/-! ### Shadowing -/

/-- The complex deletions strictly newer than the floor. -/
def survivingComplex (floor : Int) (entry : MergeEntry) : List ComplexDeletion :=
  entry.complexDeletions.filter fun cd => floor < cd.markedForDeleteAt

/-- The cells kept above the floor: clustering pseudo-cells, and data cells strictly newer. -/
def keptCells (floor : Int) (ck : Option ClusteringKey) (cells : List CellData) : List CellData :=
  cells.filter fun c => !isDataCell ck c || floor < c.timestamp

/-- A covered row leaves a metadata-only entry when complex deletions survive, else nothing. -/
def complexCarrier (floor : Int) (entry : MergeEntry) : Option MergeEntry :=
  if !(survivingComplex floor entry).isEmpty then
    some ((MergeEntry.new entry.runIndex entry.key entry.clusteringKey entry.timestamp
      (.live [])).withComplexDeletions (survivingComplex floor entry))
  else none

/-- The live arm when data or the marker survives. -/
def rebuiltLive (floor : Int) (markerLive : Bool) (entry : MergeEntry) (kept : List CellData) :
    MergeEntry :=
  let isData := isDataCell entry.clusteringKey
  let rowTs := if kept.any isData then maxTimestamp (kept.filter isData) entry.timestamp
    else entry.timestamp
  { MergeEntry.new entry.runIndex entry.key entry.clusteringKey rowTs (.live kept) with
    rowLiveness := if markerLive then entry.rowLiveness else .empty
    complexDeletions := survivingComplex floor entry
    rowDeletion := entry.rowDeletion.filter fun d => floor < d.1 }

/-- The body shared by range and partition shadowing: everything at or below `floor` goes, and what
    is left decides the kind of entry. `markerLive` is the verdict on the row marker. -/
def shadowBelow (floor : Int) (markerLive : Bool) (entry : MergeEntry) : Option MergeEntry :=
  let rebuilt := MergeEntry.new entry.runIndex entry.key entry.clusteringKey
  match entry.rowData with
  | .tombstone deletionTime localDeletionTime =>
    if floor < deletionTime then
      some ((rebuilt deletionTime (.tombstone deletionTime localDeletionTime)).withComplexDeletions
        (survivingComplex floor entry))
    else complexCarrier floor entry
  | .live cells =>
    let kept := keptCells floor entry.clusteringKey cells
    if !kept.any (isDataCell entry.clusteringKey) && !markerLive then
      match entry.rowDeletion.filter fun d => floor < d.1 with
      | some (dt, ldt) => some (rebuilt dt (.tombstone dt ldt))
      | none => complexCarrier floor entry
    else some (rebuiltLive floor markerLive entry kept)

/-- `apply_partition_shadowing`: the marker is judged on its own timestamp. -/
def applyPartitionShadowing (maxPartitionDeletion : Option Deletion) (entry : MergeEntry) :
    Option MergeEntry :=
  match maxPartitionDeletion with
  | none => some entry
  | some (pmfda, _) =>
    shadowBelow pmfda (entry.rowLiveness.markerSurvivesFloor entry.timestamp pmfda) entry

/-- Range shadowing at a known floor: here the marker is judged on the ROW's timestamp. -/
def shadowAtRangeFloor (floor : Option Int) (entry : MergeEntry) : Option MergeEntry :=
  match floor with
  | none => some entry
  | some floor => shadowBelow floor (floor < entry.timestamp) entry

/-- `apply_range_shadowing`: a row without a clustering key is never covered. -/
def applyRangeShadowing [DebugFmt] (schema : TableSchema) (rts : List KeyedRange)
    (entry : MergeEntry) : Option MergeEntry :=
  if rts.isEmpty then some entry
  else
    match entry.clusteringKey with
    | none => some entry
    | some ck => shadowAtRangeFloor (rangeFloor schema entry.key ck rts) entry

end Cqlite
