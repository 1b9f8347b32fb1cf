import Cqlite.Merge.Runs

/-! The streaming merger (`merge/streaming.rs`).

    Entries are pulled off the heap one at a time. Carriers go to the running accumulator, rows grow
    the current cluster, and a finished cluster is flushed at once while no range tombstone has been
    seen, else held back until the next one or the end of the partition. -/

namespace Cqlite

/-- `PartitionReconcileCheckpoint`, without the purge counters. -/
structure Checkpoint where
  pendingRows : List MergeEntry
  rangeTombstones : List KeyedRange
  maxPartitionDeletion : Option Deletion
  partitionDeleteKey : Option DecoratedKey
  partitionDeletionResolved : Bool
  currentCluster : Option Cluster
  awaitingFlush : List MergeEntry
  rangeTombstonesEmitted : Bool

namespace Checkpoint

def fresh : Checkpoint := ⟨[], [], none, none, false, none, [], false⟩

variable [DebugFmt] (cfg : MergerConfig)

/-- `resolve_partition_prefix`: once per partition, re-emit the partition deletion. -/
def resolvePartitionPrefix (c : Checkpoint) : Checkpoint :=
  if c.partitionDeletionResolved then c
  else
    { c with
      partitionDeletionResolved := true
      partitionDeleteKey := none
      pendingRows := c.pendingRows ++ (emitPartitionDeletion cfg.settings
        ⟨[], c.maxPartitionDeletion, c.partitionDeleteKey⟩).toList }

/-- `flush_range_tombstones`: coalesce, drop what the partition floor subsumes, re-emit the rest. -/
def flushRangeTombstones (c : Checkpoint) : Checkpoint :=
  let rts := retainRanges c.maxPartitionDeletion
    (coalesceRangeTombstones cfg.schema c.rangeTombstones)
  { c with
    rangeTombstonesEmitted := true
    rangeTombstones := rts
    pendingRows := c.pendingRows ++ rts.filterMap (emitRange cfg.settings) }

/-- `reshadow_and_flush_awaiting`: shadow everything held back by the ranges known so far. -/
def reshadowAndFlushAwaiting (c : Checkpoint) : Checkpoint :=
  if c.awaitingFlush.isEmpty then c
  else
    let rts := coalesceRangeTombstones cfg.schema c.rangeTombstones
    { c with
      rangeTombstones := rts
      awaitingFlush := []
      pendingRows := c.pendingRows ++ c.awaitingFlush.filterMap fun entry =>
        (applyRangeShadowing cfg.schema rts entry).bind
          (applyPartitionShadowing c.maxPartitionDeletion) }

/-- Where a reconciled row goes: straight out, or held back once a range has been seen. -/
def routeSurvivor (c : Checkpoint) (entry : MergeEntry) : Checkpoint :=
  if c.rangeTombstones.isEmpty then
    { c with
      pendingRows := c.pendingRows ++ (applyPartitionShadowing c.maxPartitionDeletion entry).toList }
  else { c with awaitingFlush := c.awaitingFlush ++ [entry] }

/-- `finalize_current_cluster`. -/
def finalizeCurrentCluster (c : Checkpoint) : Checkpoint :=
  match c.currentCluster with
  | none => c.resolvePartitionPrefix cfg
  | some (ck, rows) =>
    let c := ({ c with currentCluster := none } : Checkpoint).resolvePartitionPrefix cfg
    match reconcileCluster cfg.settings ck rows with
    | some entry => c.routeSurvivor entry
    | none => c

/-- The row has another clustering key than the cluster in progress. -/
def startsNewCluster (c : Checkpoint) (entry : MergeEntry) : Bool :=
  match c.currentCluster with
  | some (ck, _) => cmpOptionKey ck entry.clusteringKey != .eq
  | none => false

/-- The row is appended to the cluster in progress, or starts one. -/
def growCluster (c : Checkpoint) (entry : MergeEntry) : Checkpoint :=
  match c.currentCluster with
  | some (ck, rows) => { c with currentCluster := some (ck, rows ++ [entry]) }
  | none => { c with currentCluster := some (entry.clusteringKey, [entry]) }

def acceptRow (c : Checkpoint) (entry : MergeEntry) : Checkpoint :=
  (if c.startsNewCluster entry then c.finalizeCurrentCluster cfg else c).growCluster entry

/-- A partition deletion: the newest one counts, the first key is remembered. -/
def acceptPartitionDeletion (c : Checkpoint) (key : DecoratedKey) (d : Deletion) : Checkpoint :=
  { c with
    partitionDeleteKey := c.partitionDeleteKey.or (some key)
    maxPartitionDeletion := Lww.join deletionSupersedes c.maxPartitionDeletion d }

def pushRange (c : Checkpoint) (key : DecoratedKey) (rt : RangeTombstone) : Checkpoint :=
  { c with rangeTombstones := c.rangeTombstones ++ [(key, rt)] }

/-- A range that arrives after the prefix re-checks everything held back. -/
def acceptRange (c : Checkpoint) (key : DecoratedKey) (rt : RangeTombstone) : Checkpoint :=
  if c.partitionDeletionResolved then (c.pushRange key rt).reshadowAndFlushAwaiting cfg
  else c.pushRange key rt

/-- The `Some(entry)` arm of the loop: carriers are siphoned off whatever cluster is in progress. -/
def acceptEntry (c : Checkpoint) (entry : MergeEntry) : Checkpoint :=
  match entry.partitionDeletion with
  | some d => c.acceptPartitionDeletion entry.key d
  | none =>
    if isRangeMarkerCarrier entry then
      match entry.rangeDeletion with
      | some rt => c.acceptRange cfg entry.key rt
      | none => c
    else c.acceptRow cfg entry

/-- The range carriers are emitted once. -/
def flushRangesOnce (c : Checkpoint) : Checkpoint :=
  if !c.rangeTombstones.isEmpty && !c.rangeTombstonesEmitted then c.flushRangeTombstones cfg else c

/-- The `None` arm: finish the cluster, flush what is held back, then the range carriers. -/
def endPartition (c : Checkpoint) : Checkpoint :=
  ((c.finalizeCurrentCluster cfg).reshadowAndFlushAwaiting cfg).flushRangesOnce cfg

end Checkpoint

/-! ### Stepping -/

inductive StreamingStep
  | clusterGroup (key : DecoratedKey) (row : MergeEntry)
  | partitionEnd (key : DecoratedKey)
  | complete

/-- The errors of a step: a failed read, or a pending row without an active partition. -/
inductive StreamError
  | read (error : ReadError)
  | pendingRowWithoutKey
  deriving DecidableEq, Repr

/-- The merger between two calls. -/
structure StreamingMerger where
  merger : MergerState
  partitionKey : Option DecoratedKey
  state : Checkpoint

namespace StreamingMerger

def new (merger : MergerState) : StreamingMerger := ⟨merger, none, .fresh⟩

/-- `resume`: continue a paused partition, or start fresh. -/
def resume (merger : MergerState) : Option (DecoratedKey × Checkpoint) → StreamingMerger
  | some (key, checkpoint) => ⟨merger, some key, checkpoint⟩
  | none => new merger

/-- `into_paused_state`. -/
def intoPausedState (sm : StreamingMerger) : Option (DecoratedKey × Checkpoint) :=
  sm.partitionKey.map fun key => (key, sm.state)

/-- The loop head: the first pending row is the next increment, otherwise go on with `other`. -/
def yieldPending (merger : MergerState) (key : DecoratedKey) (c : Checkpoint)
    (other : Except StreamError StreamingStep × StreamingMerger) :
    Except StreamError StreamingStep × StreamingMerger :=
  match c.pendingRows with
  | row :: rest =>
    (.ok (.clusterGroup key row), ⟨merger, some key, { c with pendingRows := rest }⟩)
  | [] => other

variable [DebugFmt] (cfg : MergerConfig) (size : MergeEntry → Nat)

/-- The loop of `step_streaming` inside a partition, entered with nothing pending. A failed refill
    loses the entry that was just popped. -/
def pullLoop (key : DecoratedKey) (m : MergerState) (c : Checkpoint) :
    Except StreamError StreamingStep × StreamingMerger :=
  let finish := yieldPending m key (c.endPartition cfg)
    (.ok (.partitionEnd key), ⟨m, none, c.endPartition cfg⟩)
  match _h : m.pull cfg.schema size with
  | none => finish
  | some (entry, verdict, m') =>
    if entry.key = key then
      match verdict with
      | .error x => (.error (.read x), ⟨m', some key, c⟩)
      | .ok () =>
        yieldPending m' key (c.acceptEntry cfg entry) (pullLoop key m' (c.acceptEntry cfg entry))
    else finish
termination_by m.remaining
decreasing_by exact MergerState.pull_remaining ‹_›

theorem pullLoop_none {key : DecoratedKey} {m : MergerState} {c : Checkpoint}
    (h : m.pull cfg.schema size = none) :
    pullLoop cfg size key m c = yieldPending m key (c.endPartition cfg)
      (.ok (.partitionEnd key), ⟨m, none, c.endPartition cfg⟩) := by
  rw [pullLoop]
  split
  · rfl
  · rename_i h'
    rw [h] at h'
    cases h'

/-- One round of the loop. -/
theorem pullLoop_some {key : DecoratedKey} {m m' : MergerState} {c : Checkpoint}
    {entry : MergeEntry} (h : m.pull cfg.schema size = some (entry, .ok (), m')) :
    pullLoop cfg size key m c =
      if entry.key = key then
        yieldPending m' key (c.acceptEntry cfg entry)
          (pullLoop cfg size key m' (c.acceptEntry cfg entry))
      else yieldPending m key (c.endPartition cfg)
        (.ok (.partitionEnd key), ⟨m, none, c.endPartition cfg⟩) := by
  rw [pullLoop]
  split
  · rename_i h'
    rw [h] at h'
    cases h'
  · rename_i h'
    rw [h] at h'
    cases h'
    rfl

/-- `step_streaming`. -/
def stepStreaming (sm : StreamingMerger) : Except StreamError StreamingStep × StreamingMerger :=
  match sm.partitionKey with
  | some key => yieldPending sm.merger key sm.state (pullLoop cfg size key sm.merger sm.state)
  | none =>
    if !sm.state.pendingRows.isEmpty then
      (.error .pendingRowWithoutKey,
        { sm with state := { sm.state with pendingRows := sm.state.pendingRows.tail } })
    else
      match ensureHeap size sm.merger with
      | (.error x, m) => (.error (.read x), { sm with merger := m })
      | (.ok (), m) =>
        match popMin cfg.schema m.heap with
        | none => (.ok .complete, { sm with merger := m })
        | some (top, _) => pullLoop cfg size top.key m .fresh

end StreamingMerger

end Cqlite
