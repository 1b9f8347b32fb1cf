import Cqlite.Merge.StreamProgress
import Cqlite.Merge.Conversion

/-! The drain loop of background compaction (`write_engine/maintenance.rs`, `maintenance_step_inner`).

    One call of `maintenance_step` pulls increments from the streaming merger until its budget is
    spent, feeding the SSTable writer as it goes; the partition in progress is stashed for the next
    call. The clock is read before every increment but the first, so a call amounts to a number of
    increments (none when the dropped-column pre-pass used up the budget). The writer is the list of
    calls it has accepted; a fault makes it refuse one. Row counters and reports are left out. -/

namespace Cqlite

/-! ### The writer's interface -/

/-- A call into the SSTable writer. The static row is given by the mutations fed to its tracker, the
    partition statistics by the mutations folded into them. -/
inductive WriterCall
  | beginPartition (key : DecoratedKey) (tombstone : Option PartitionTombstone)
      (ranges : List RangeTombstone)
  | staticRow (fed : List Mutation) (firstTimestamp : Int)
  | row (mutation : Mutation)
  | finishPartition
  | completePartition (key : DecoratedKey) (tombstone : Option PartitionTombstone)
      (folded : List Mutation)

/-- Calls are made one after the other until the writer refuses one; `fault` gives its verdict on the
    call that comes after the given number of accepted ones. -/
def issue (fault : Nat → Option Error) :
    List WriterCall → List WriterCall → Option Error × List WriterCall
  | log, [] => (none, log)
  | log, call :: calls =>
    match fault log.length with
    | some e => (some e, log)
    | none => issue fault (log ++ [call]) calls

/-! ### The partition in progress -/

structure PartitionStreamState where
  partitionTombstone : Option PartitionTombstone
  rangeTombstones : List RangeTombstone
  statics : List Mutation
  staticFirstTs : Int
  sawCarrierOrStatic : Bool
  folded : List Mutation
  bufferedRows : List Mutation
  directSession : Bool

namespace PartitionStreamState

def fresh : PartitionStreamState := ⟨none, [], [], 0, false, [], [], false⟩

/-- `fold_mutation_stats`. -/
def foldStats (st : PartitionStreamState) (m : Mutation) : PartitionStreamState :=
  { st with folded := st.folded ++ [m] }

/-- The static-row carrier; its timestamp counts when it is the first carrier of the partition. -/
def acceptStatic (st : PartitionStreamState) (m : Mutation) : PartitionStreamState :=
  { st with
    staticFirstTs := if st.sawCarrierOrStatic then st.staticFirstTs else m.timestampMicros
    statics := st.statics ++ [m]
    sawCarrierOrStatic := true }

/-- Opening a session writes the partition header and, with static columns, the static row. -/
def openCalls (hasStatic : Bool) (key : DecoratedKey) (tombstone : Option PartitionTombstone)
    (ranges : List RangeTombstone) (st : PartitionStreamState) : List WriterCall :=
  .beginPartition key tombstone ranges ::
    if hasStatic then [.staticRow st.statics st.staticFirstTs] else []

end PartitionStreamState

/-- A mutation that only carries the partition deletion. -/
def Mutation.isPartitionOnly (m : Mutation) : Bool :=
  m.operations.isEmpty && m.partitionTombstone.isSome && m.rowTombstone.isNone &&
    m.rangeTombstones.isEmpty

/-- A mutation that only carries range tombstones. -/
def Mutation.isRangeOnly (m : Mutation) : Bool :=
  m.operations.isEmpty && m.partitionTombstone.isNone && m.rowTombstone.isNone &&
    !m.rangeTombstones.isEmpty

inductive DrainError
  | stream (error : StreamError)
  | conversion (error : Error)
  | noPartitionKey
  | writer (error : Error)

/-- What does not change during a merge. -/
structure DrainConfig where
  merger : MergerConfig
  size : MergeEntry → Nat
  fromBytes : Bytes → Except Error PartitionKey
  schemaHasStatic : Bool
  streamRowsDirectly : Bool

namespace DrainConfig

variable (env : DrainConfig)

/-- A clustering row: fed to the open session, which the first row opens, or buffered. -/
def feedRow (openKey : Option DecoratedKey) (st : PartitionStreamState) (m : Mutation) :
    Except DrainError (PartitionStreamState × List WriterCall) :=
  if env.streamRowsDirectly then
    if st.directSession then .ok (st, [.row m])
    else
      match openKey with
      | none => .error .noPartitionKey
      | some key =>
        .ok ({ st with
            directSession := true
            statics := if env.schemaHasStatic then [] else st.statics },
          st.openCalls env.schemaHasStatic key none [] ++ [.row m])
  else .ok ({ st with bufferedRows := st.bufferedRows ++ [m] }, [])

/-- One converted mutation: fold the statistics, then sort out carriers, static rows and rows. -/
def acceptMutation (openKey : Option DecoratedKey) (st : PartitionStreamState) (m : Mutation) :
    Except DrainError (PartitionStreamState × List WriterCall) :=
  let st := st.foldStats m
  if m.isPartitionOnly then
    .ok ({ st with partitionTombstone := m.partitionTombstone, sawCarrierOrStatic := true }, [])
  else if m.isRangeOnly then
    .ok ({ st with
      rangeTombstones := st.rangeTombstones ++ m.rangeTombstones, sawCarrierOrStatic := true }, [])
  else if m.clusteringKey.isNone && env.schemaHasStatic then .ok (st.acceptStatic m, [])
  else env.feedRow openKey st m

/-- The `Ready` arm: close the open session, or write the buffered partition unless it is empty. -/
def closePartition (key : DecoratedKey) (st : PartitionStreamState) : List WriterCall :=
  if st.directSession then [.finishPartition, .completePartition key none st.folded]
  else if !st.bufferedRows.isEmpty || st.sawCarrierOrStatic then
    st.openCalls env.schemaHasStatic key st.partitionTombstone st.rangeTombstones ++
      st.bufferedRows.map .row ++
      [.finishPartition, .completePartition key st.partitionTombstone st.folded]
  else []

end DrainConfig

/-! ### The loop -/

/-- The locals of the drain loop, with the writer's log. -/
structure LoopState where
  stream : StreamingMerger
  keyForOpen : Option DecoratedKey
  state : PartitionStreamState
  log : List WriterCall

/-- The fields of `ActiveMerge` that the drain loop changes. -/
structure ActiveMerge where
  merger : MergerState
  pendingPartition : Option (DecoratedKey × Checkpoint × PartitionStreamState)
  log : List WriterCall

inductive Increment
  | next (ls : LoopState)
  | complete (merger : MergerState) (log : List WriterCall)
  | failed (error : DrainError) (merger : MergerState) (log : List WriterCall)

inductive DrainStatus
  | paused
  | complete
  | failed (error : DrainError)

/-- The loop starts with the stashed partition, or with a fresh one. -/
def ActiveMerge.resume (am : ActiveMerge) : LoopState :=
  match am.pendingPartition with
  | some (key, checkpoint, state) =>
    ⟨.resume am.merger (some (key, checkpoint)), some key, state, am.log⟩
  | none => ⟨.resume am.merger none, none, .fresh, am.log⟩

/-- The `Paused` arm: a partition in progress is stashed. -/
def LoopState.pause (ls : LoopState) : ActiveMerge :=
  ⟨ls.stream.merger, ls.stream.intoPausedState.map fun (key, checkpoint) =>
    (key, checkpoint, ls.state), ls.log⟩

section Loop

variable [DebugFmt] (env : DrainConfig) (fault : Nat → Option Error)

/-- A row that has something to write. -/
def acceptRow (ls : LoopState) (sm : StreamingMerger) (row : MergeEntry) : Increment :=
  match mergeEntryToMutation env.fromBytes row with
  | .error e => .failed (.conversion e) sm.merger ls.log
  | .ok m =>
    match env.acceptMutation (ls.keyForOpen.or sm.partitionKey) ls.state m with
    | .error e => .failed e sm.merger ls.log
    | .ok (state, calls) =>
      match issue fault ls.log calls with
      | (some e, log) => .failed (.writer e) sm.merger log
      | (none, log) => .next { ls with stream := sm, state := state, log := log }

/-- The end of a partition; the next one starts afresh. -/
def endOfPartition (ls : LoopState) (sm : StreamingMerger) (key : DecoratedKey) : Increment :=
  match issue fault ls.log (env.closePartition key ls.state) with
  | (some e, log) => .failed (.writer e) sm.merger log
  | (none, log) => .next ⟨.resume sm.merger none, none, .fresh, log⟩

/-- One pass through the loop body. An error leaves by `?`, dropping the partition in progress. -/
def increment (ls : LoopState) : Increment :=
  match ls.stream.stepStreaming env.merger env.size with
  | (.error e, sm) => .failed (.stream e) sm.merger ls.log
  | (.ok (.clusterGroup _ row), sm) =>
    if row.isMetadataOnlyNoOp then .next { ls with stream := sm }
    else acceptRow env fault ls sm row
  | (.ok (.partitionEnd key), sm) => endOfPartition env fault ls sm key
  | (.ok .complete, sm) => .complete sm.merger ls.log

/-- The loop with a budget of `n` increments. -/
def drainLoop : Nat → LoopState → DrainStatus × ActiveMerge
  | 0, ls => (.paused, ls.pause)
  | n + 1, ls =>
    match increment env fault ls with
    | .next ls => drainLoop n ls
    | .complete merger log => (.complete, ⟨merger, none, log⟩)
    | .failed e merger log => (.failed e, ⟨merger, none, log⟩)

/-- One call of `maintenance_step` on an active merge. -/
def drainCall (budget : Nat) (am : ActiveMerge) : DrainStatus × ActiveMerge :=
  drainLoop env fault budget am.resume

/-- A schedule of calls, until one of them completes or fails. -/
def drainCalls : List Nat → ActiveMerge → DrainStatus × ActiveMerge
  | [], am => (.paused, am)
  | budget :: budgets, am =>
    match drainCall env fault budget am with
    | (.paused, am) => drainCalls budgets am
    | ended => ended

end Loop

end Cqlite
