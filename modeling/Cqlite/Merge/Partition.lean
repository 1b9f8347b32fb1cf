import Cqlite.Lib.Grouping
import Cqlite.Merge.Shadow

/-! Merging one buffered partition (`merge/mod.rs::merge_partition_rows`, `merge/carriers.rs`).

    Carriers are split off first, the remaining rows are grouped by clustering key, each group is
    reconciled and shadowed by the coalesced ranges and by the partition deletion, and the surviving
    markers are re-emitted. Metrics are left out. -/

namespace Cqlite

/-- The fields of `KWayMerger` that decide the output. -/
structure MergerConfig where
  schema : TableSchema
  purgeSafe : Bool
  gcBeforeSecs : Option Int
  maxPurgeableTimestamp : Option Int
  nowSecs : Option Int

namespace MergerConfig

/-- `effective_gc_settings`: unrestricted for a full compaction, bounded by the overlap otherwise,
    and no purge at all without a bound. -/
def effectiveGcSettings (cfg : MergerConfig) : Option Int × Int :=
  if cfg.purgeSafe then (cfg.gcBeforeSecs, i64Max)
  else
    match cfg.maxPurgeableTimestamp with
    | some bound => (cfg.gcBeforeSecs, bound)
    | none => (none, i64Min)

def settings (cfg : MergerConfig) : MergeSettings :=
  ⟨cfg.effectiveGcSettings.1, cfg.effectiveGcSettings.2, cfg.nowSecs, cfg.schema.droppedColumns⟩

end MergerConfig

/-! ### Carriers -/

/-- A range-tombstone carrier: an empty live row whose only payload is the range. -/
def isRangeMarkerCarrier (e : MergeEntry) : Bool :=
  e.rangeDeletion.isSome && e.complexDeletions.isEmpty && e.rowDeletion.isNone &&
    (match e.rowData with
      | .live cells => cells.isEmpty
      | .tombstone _ _ => false)

/-- Either kind of partition-level carrier. -/
def isCarrier (e : MergeEntry) : Bool := e.isPartitionDeleteCarrier || isRangeMarkerCarrier e

structure PartitionCarriers where
  rangeTombstones : List KeyedRange
  maxPartitionDeletion : Option Deletion
  partitionDeleteKey : Option DecoratedKey

/-- One entry of the pre-scan; a partition deletion takes precedence, ties keep the first seen. -/
def scanEntry (c : PartitionCarriers) (e : MergeEntry) : PartitionCarriers :=
  match e.partitionDeletion with
  | some d =>
    { c with
      partitionDeleteKey := c.partitionDeleteKey.or (some e.key)
      maxPartitionDeletion := Lww.join deletionSupersedes c.maxPartitionDeletion d }
  | none =>
    if isRangeMarkerCarrier e then
      { c with
        rangeTombstones := c.rangeTombstones ++ (e.rangeDeletion.map fun rt => (e.key, rt)).toList }
    else c

def scanPartitionCarriers (rows : List MergeEntry) : PartitionCarriers :=
  rows.foldl scanEntry ⟨[], none, none⟩

/-! ### Grouping by clustering key -/

section Grouping

variable [DebugFmt]

/-- `Option<ClusteringKey>` under the fallback order, `None` first. -/
def cmpOptionKey : Option ClusteringKey → Option ClusteringKey → Ordering
  | none, none => .eq
  | none, some _ => .lt
  | some _, none => .gt
  | some a, some b => a.cmp b

/-- A clustering key with the rows that share it. -/
abbrev Cluster := Option ClusteringKey × List MergeEntry

/-- The non-carrier rows by clustering key: `BTreeMap::entry(..).or_default().push(row)`. -/
def clusteredRows (rows : List MergeEntry) : List Cluster :=
  Grouping.groups cmpOptionKey MergeEntry.clusteringKey (rows.filter fun e => !isCarrier e)

end Grouping

/-! ### The merge of a partition -/

section Merge

variable [DebugFmt]

/-- The loop body: reconcile one group, then range and partition shadowing. -/
def mergeCluster (schema : TableSchema) (s : MergeSettings) (rts : List KeyedRange)
    (maxPartitionDeletion : Option Deletion) (cluster : Cluster) : Option MergeEntry :=
  ((reconcileCluster s cluster.1 cluster.2).bind (applyRangeShadowing schema rts)).bind
    (applyPartitionShadowing maxPartitionDeletion)

/-- Ranges at or below the partition floor are subsumed by it. -/
def retainRanges (maxPartitionDeletion : Option Deletion) (rts : List KeyedRange) :
    List KeyedRange :=
  rts.filter fun r => maxPartitionDeletion.all fun d => d.1 < r.2.deletionTime

/-- The carrier that re-emits a range tombstone, unless the purge gate drops it. -/
def emitRange (s : MergeSettings) (r : KeyedRange) : Option MergeEntry :=
  if s.purges r.2.deletionTime r.2.localDeletionTime then none
  else
    some ((MergeEntry.new usizeMax r.1 none r.2.deletionTime (.live [])).withRangeDeletion r.2)

/-- The carrier that re-emits the partition deletion, unless the purge gate drops it. -/
def emitPartitionDeletion (s : MergeSettings) (c : PartitionCarriers) : Option MergeEntry :=
  match c.maxPartitionDeletion, c.partitionDeleteKey with
  | some d, some key =>
    if s.purges d.1 d.2 then none
    else
      some ((MergeEntry.new usizeMax key none d.1 (.tombstone d.1 d.2)).withPartitionDeletion d)
  | _, _ => none

/-- Clustering order of the output, entries without a clustering key first. -/
def rowCmp (schema : TableSchema) (a b : MergeEntry) : Ordering :=
  match a.clusteringKey, b.clusteringKey with
  | none, none => .eq
  | none, some _ => .lt
  | some _, none => .gt
  | some x, some y => ClusteringKey.schemaCmp schema x y

/-- `merge_partition_rows`. -/
def mergePartitionRows (cfg : MergerConfig) (rows : List MergeEntry) : List MergeEntry :=
  let s := cfg.settings
  let carriers := scanPartitionCarriers rows
  let rts := coalesceRangeTombstones cfg.schema carriers.rangeTombstones
  let merged := (clusteredRows rows).filterMap
    (mergeCluster cfg.schema s rts carriers.maxPartitionDeletion)
  let ranges := (retainRanges carriers.maxPartitionDeletion rts).filterMap (emitRange s)
  let merged := merged ++ ranges ++ (emitPartitionDeletion s carriers).toList
  merged.mergeSort fun a b => rowCmp cfg.schema a b != .gt

end Merge

end Cqlite
