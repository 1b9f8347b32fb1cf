import Cqlite.Writer.PartitionItems
import Cqlite.Writer.StaticRow

/-! Writing one partition to Data.db: as a whole, and in sessions that are fed row by row.

    `write_partition_with_index_blocks` (`partition.rs`) has all mutations of the partition in hand;
    the incremental session (`incremental_partition.rs`) and the streaming session
    (`streaming_partition.rs`) get one clustering group at a time. The bytes of a header, a row or a
    marker come from helpers that the three share; these are parameters here. -/

namespace Cqlite

/-! ### The file -/

/-- The scratch buffer and the bytes before it. In memory nothing is flushed. -/
structure DataWriter where
  sink : Bytes
  buffer : Bytes
  streaming : Bool

namespace DataWriter

def position (w : DataWriter) : Nat := w.sink.length + w.buffer.length

def append (w : DataWriter) (bytes : Bytes) : DataWriter := { w with buffer := w.buffer ++ bytes }

/-- `flush_partition`, and in the middle of a partition `flush_buffered_partition_scratch`. -/
def flushPartition (w : DataWriter) : DataWriter :=
  if w.streaming then ⟨w.sink ++ w.buffer, [], true⟩ else w

/-- The file with what is still buffered. -/
def dataDb (w : DataWriter) : Bytes := w.sink ++ w.buffer

end DataWriter

/-- The helpers all emitters share: what they append, and the number of cells in it. -/
structure PartitionEncoder where
  writePartitionHeader : DecoratedKey → Option PartitionTombstone → Except Error Bytes
  writeEmptyStaticRow : Except Error Bytes
  writeStaticRow : List (String × MergedOp) → Int → Option Int → Except Error (Bytes × Nat)
  writeItem : PartitionItem → Nat → Except Error (Bytes × Nat)
  indexName : PartitionItem → Bytes
  emptyName : Bytes
  oss50 : List Value → Option Bytes

def endOfPartitionByte : UInt8 := 0x01

def columnIndexSizeBytes : Nat := 64 * 1024

structure PartitionEmitCounts where
  rows : Nat
  columns : Nat

structure PromotedIndexBlock where
  firstName : Bytes
  lastName : Bytes
  offset : Nat
  width : Nat
  oss50Separator : Option Bytes

/-! ### Emitting items -/

/-- The size of the previous unfiltered, the counts, and the open index block. -/
structure EmitState where
  prevUnfilteredSize : Nat
  emit : PartitionEmitCounts
  blockStart : Option Nat
  blocks : List PromotedIndexBlock
  firstCk : Option Bytes
  lastCk : Option Bytes
  oss50 : Option (Option Bytes)

/-- The state after the header. -/
def EmitState.opened (headerSize : Nat) : EmitState := ⟨headerSize, ⟨0, 0⟩, none, [], none, none, none⟩

/-- How an emitter appends, measures its offset in the partition, and flushes after a block. -/
structure EmitOps (σ : Type) where
  append : σ → Bytes → σ
  offset : σ → Nat
  flushBlock : σ → σ

section Emit

variable {σ : Type} (enc : PartitionEncoder) (ops : EmitOps σ)

/-- The separator of a block that starts with a row. -/
def separatorOf : PartitionItem → Option Bytes
  | .row r => (r.clusteringKey.filter fun ck => !ck.columns.isEmpty).bind fun ck =>
      enc.oss50 (ck.columns.map (·.2))
  | _ => none

/-- The names of the open block, with its start if the item is its first one. -/
def EmitState.enter (item : PartitionItem) (offset : Nat) (s : EmitState) : EmitState :=
  let s := if s.firstCk.isNone then
    { s with
      firstCk := some (enc.indexName item)
      oss50 := some (separatorOf enc item)
      blockStart := some (s.blockStart.getD offset) } else s
  { s with lastCk := some (enc.indexName item) }

def EmitState.count (item : PartitionItem) (cells : Nat) (s : EmitState) : EmitState :=
  match item with
  | .row _ => { s with emit := ⟨s.emit.rows + 1, s.emit.columns + cells⟩ }
  | _ => s

/-- The block that ends at the offset. -/
def EmitState.block (offset : Nat) (s : EmitState) : PromotedIndexBlock :=
  ⟨s.firstCk.getD enc.emptyName, s.lastCk.getD enc.emptyName, s.blockStart.getD offset,
    offset - s.blockStart.getD offset, s.oss50.join⟩

/-- One item, and the block it completes. -/
def emitItem (st : σ × EmitState) (item : PartitionItem) : Except Error (σ × EmitState) := do
  let s := st.2.enter enc item (ops.offset st.1)
  let (bytes, cells) ← enc.writeItem item s.prevUnfilteredSize
  let w := ops.append st.1 bytes
  let s := { s.count item cells with prevUnfilteredSize := bytes.length }
  let block := s.block enc (ops.offset w)
  if columnIndexSizeBytes ≤ block.width then
    return (ops.flushBlock w, { s with
      blocks := s.blocks ++ [block]
      blockStart := some (ops.offset w)
      firstCk := none
      lastCk := none
      oss50 := none })
  else return (w, s)

/-- The end of the partition, and the last block. -/
def closePartition (st : σ × EmitState) : σ × List PromotedIndexBlock × PartitionEmitCounts :=
  let w := ops.append st.1 [endOfPartitionByte]
  let block := st.2.block enc (ops.offset w)
  (w, (if st.2.firstCk.isSome && st.2.lastCk.isSome && decide (0 < block.width) then
    st.2.blocks ++ [block] else st.2.blocks), st.2.emit)

/-- `static_liveness_from_ops`: the newest operation, the last one of equals. -/
def staticLivenessFromOps (merged : List (String × MergedOp)) : Option (Int × Option Int) :=
  (Lww.latest (fun a b : String × MergedOp => decide (b.2.timestampMicros ≤ a.2.timestampMicros))
    merged).map fun p => (p.2.timestampMicros, p.2.rowTtlSeconds)

/-- The static-row prelude; the static row is not in the chain of previous sizes. -/
def writeStaticPrelude (merged : List (String × MergedOp)) (firstMutationTs : Int)
    (st : σ × EmitState) : Except Error (σ × EmitState) := do
  if merged.isEmpty then
    let bytes ← enc.writeEmptyStaticRow
    return (ops.append st.1 bytes,
      { st.2 with prevUnfilteredSize := st.2.prevUnfilteredSize + bytes.length })
  else
    let (latestTs, ttl) := (staticLivenessFromOps merged).getD (firstMutationTs, none)
    let (bytes, cells) ← enc.writeStaticRow merged latestTs ttl
    return (ops.append st.1 bytes,
      { st.2 with
        prevUnfilteredSize := st.2.prevUnfilteredSize + bytes.length
        emit := ⟨st.2.emit.rows + 1, st.2.emit.columns + cells⟩ })

end Emit

/-! ### The rows of a partition -/

section Rows

variable [DebugFmt] (schema : TableSchema)

/-- `range_tombstone_covers`: the bound keys are compared as they are. -/
def rangeTombstoneCovers (rt : RangeTombstone) : Option ClusteringKey → Bool
  | none => false
  | some ck =>
    (match rt.startBound with
      | .inclusive b => ClusteringKey.schemaCmp schema ck b != .lt
      | .exclusive b => ClusteringKey.schemaCmp schema ck b == .gt
      | .bottom => true
      | .top => false) &&
    (match rt.endBound with
      | .inclusive b => ClusteringKey.schemaCmp schema ck b != .gt
      | .exclusive b => ClusteringKey.schemaCmp schema ck b == .lt
      | .top => true
      | .bottom => false)

/-- The partition deletion and the ranges over a key, the newest of them. -/
def shadowFloorOf (partitionFloor : Option Int) (ranges : List RangeTombstone)
    (ck : Option ClusteringKey) : Option Int :=
  ranges.foldl (fun floor rt =>
    if rangeTombstoneCovers schema rt ck then
      some (match floor with
        | none => rt.deletionTime
        | some f => max f rt.deletionTime)
    else floor) partitionFloor

/-- Equality of clustering keys is that of the fallback order. -/
def sameClustering (a b : Mutation) : Bool := cmpOptionKey b.clusteringKey a.clusteringKey == .eq

/-- Neighbours with the key of the first one. -/
def clusteringGroups : List Mutation → List (List Mutation)
  | [] => []
  | m :: ms => (m :: ms.takeWhile (sameClustering m)) :: clusteringGroups (ms.dropWhile (sameClustering m))
termination_by ms => ms.length
decreasing_by
  have := (List.dropWhile_sublist (sameClustering m) (l := ms)).length_le
  simp only [List.length_cons]
  omega

variable (writeSchema : WriteSchema)

/-- The schema declares a static column. -/
def WriteSchema.hasStatic (schema : WriteSchema) : Bool := schema.columns.any (·.isStatic)

def isStaticRowMutation (m : Mutation) : Bool :=
  m.clusteringKey.isNone && writeSchema.hasStatic &&
    m.operations.all fun op => op.isDeleteRow || op.isStatic writeSchema

def mergeClusteringRows (skipStaticOps : Bool) (partitionFloor : Option Int)
    (ranges : List RangeTombstone) (mutations : List Mutation) : List RowWrite :=
  (clusteringGroups (mutations.filter fun m => !isStaticRowMutation writeSchema m)).filterMap fun group =>
    mergeRowGroup writeSchema skipStaticOps
      (shadowFloorOf schema partitionFloor ranges (group.head?.bind (·.clusteringKey))) group

end Rows

/-! ### The whole partition -/

section Whole

variable [DebugFmt] (enc : PartitionEncoder) (schema : TableSchema) (writeSchema : WriteSchema)

/-- Offsets in the scratch buffer, which is not flushed before the end. -/
def bufferOps (partitionBufStart : Nat) : EmitOps DataWriter where
  append := DataWriter.append
  offset w := w.buffer.length - partitionBufStart
  flushBlock w := w

/-- Offsets in the file, and a flush after every block. -/
def streamingOps (partitionOffset : Nat) : EmitOps DataWriter where
  append := DataWriter.append
  offset w := w.position - partitionOffset
  flushBlock := DataWriter.flushPartition

/-- What a partition write returns, and the writer it leaves. -/
structure PartitionWritten where
  offset : Nat
  blocks : List PromotedIndexBlock
  emit : PartitionEmitCounts
  writer : DataWriter

def finishPartition (ops : EmitOps DataWriter) (offset : Nat) (st : DataWriter × EmitState) :
    PartitionWritten :=
  let (w, blocks, emit) := closePartition enc ops st
  ⟨offset, blocks, emit, w.flushPartition⟩

def writePartitionWithIndexBlocks (key : DecoratedKey) (mutations : List Mutation)
    (partitionTombstone : Option PartitionTombstone) (ranges : List RangeTombstone) (w : DataWriter) :
    Except Error PartitionWritten := do
  let ops := bufferOps w.buffer.length
  let header ← enc.writePartitionHeader key partitionTombstone
  let floor := partitionTombstone.map (·.deletionTime)
  let st := (w.append header, EmitState.opened header.length)
  let st ← if writeSchema.hasStatic then
      writeStaticPrelude enc ops (collectStaticOperations writeSchema floor mutations)
        ((mutations.head?.map (·.timestampMicros)).getD 0) st
    else pure st
  let rows := mergeClusteringRows schema writeSchema writeSchema.hasStatic floor ranges mutations
  let st ← (partitionItems schema rows ranges).foldlM (emitItem enc ops)
    (st.1, { st.2 with blockStart := some (ops.offset st.1) })
  return finishPartition enc ops w.position st

/-! ### The sessions -/

/-- What a session keeps between calls; `markers` are those not emitted yet. -/
structure PartitionSession where
  partitionOffset : Nat
  partitionFloor : Option Int
  ranges : List RangeTombstone
  markers : List PartitionItem
  state : EmitState

/-- The row an incoming mutation is compared as. -/
def rowItem (m : Mutation) : RowWrite := ⟨m.clusteringKey, none, none, none, [], []⟩

/-- The pending markers up to a stop, joined to boundaries, and those left. -/
def drainMarkers (stop : PartitionItem → Bool) :
    List PartitionItem → List PartitionItem × List PartitionItem
  | [] => ([], [])
  | [m] => if stop m then ([], [m]) else ([m], [])
  | m :: n :: rest =>
    if stop m then ([], m :: n :: rest)
    else
      match joinBoundary schema m n with
      | some boundary =>
        let (emitted, left) := drainMarkers stop rest
        (boundary :: emitted, left)
      | none =>
        let (emitted, left) := drainMarkers stop (n :: rest)
        (m :: emitted, left)

variable (ops : EmitOps DataWriter)

/-- `begin_partition_incremental`, `begin_streaming_partition`. -/
def beginPartition (key : DecoratedKey) (partitionTombstone : Option PartitionTombstone)
    (ranges : List RangeTombstone) (w : DataWriter) : Except Error (DataWriter × PartitionSession) := do
  let header ← enc.writePartitionHeader key partitionTombstone
  return (w.append header, ⟨w.position, partitionTombstone.map (·.deletionTime), ranges,
    sortPartitionItems schema (ranges.flatMap rangeMarkers), .opened header.length⟩)

def feedStaticRow (merged : List (String × MergedOp)) (firstMutationTs : Int)
    (st : DataWriter × PartitionSession) : Except Error (DataWriter × PartitionSession) := do
  let (w, state) ← writeStaticPrelude enc ops merged firstMutationTs (st.1, st.2.state)
  return (w, { st.2 with state := state })

def feedRow (st : DataWriter × PartitionSession) (m : Mutation) :
    Except Error (DataWriter × PartitionSession) := do
  let session := st.2
  let shadowFloor := shadowFloorOf schema session.partitionFloor session.ranges m.clusteringKey
  let (emitted, left) := drainMarkers schema
    (fun marker => partitionItemCmp schema marker (.row (rowItem m)) == .gt) session.markers
  let st ← emitted.foldlM (emitItem enc ops) (st.1, session.state)
  let st ← match mergeRowGroup writeSchema false shadowFloor [m] with
    | some row => emitItem enc ops st (.row row)
    | none => pure st
  return (st.1, { session with markers := left, state := st.2 })

def finishSession (st : DataWriter × PartitionSession) : Except Error PartitionWritten := do
  let (emitted, _) := drainMarkers schema (fun _ => false) st.2.markers
  let st' ← emitted.foldlM (emitItem enc ops) (st.1, st.2.state)
  return finishPartition enc ops st.2.partitionOffset st'

/-- A session over the static operations and the rows of a partition. -/
def runSession (key : DecoratedKey) (merged : List (String × MergedOp)) (firstMutationTs : Int)
    (rows : List Mutation) (partitionTombstone : Option PartitionTombstone)
    (ranges : List RangeTombstone) (w : DataWriter) : Except Error PartitionWritten := do
  let st ← beginPartition enc schema key partitionTombstone ranges w
  let st ← if writeSchema.hasStatic then feedStaticRow enc ops merged firstMutationTs st else pure st
  let st ← rows.foldlM (feedRow enc schema writeSchema ops) st
  finishSession enc schema ops st

/-- The session of `incremental_partition.rs`. -/
def runIncrementalSession (key : DecoratedKey) (merged : List (String × MergedOp))
    (firstMutationTs : Int) (rows : List Mutation) (partitionTombstone : Option PartitionTombstone)
    (ranges : List RangeTombstone) (w : DataWriter) : Except Error PartitionWritten :=
  runSession enc schema writeSchema (bufferOps w.buffer.length) key merged firstMutationTs rows
    partitionTombstone ranges w

/-- The session of `streaming_partition.rs`. -/
def runStreamingSession (key : DecoratedKey) (merged : List (String × MergedOp))
    (firstMutationTs : Int) (rows : List Mutation) (partitionTombstone : Option PartitionTombstone)
    (ranges : List RangeTombstone) (w : DataWriter) : Except Error PartitionWritten :=
  runSession enc schema writeSchema (streamingOps w.position) key merged firstMutationTs rows
    partitionTombstone ranges w

end Whole

end Cqlite
