import Cqlite.Lib.Relational
import Cqlite.Writer.SessionItems

/-! Writing a partition in a session is writing it as a whole.

    The items are the same (`SessionItems`). The emitters differ in how they measure offsets, in
    where block 0 starts, and in when the scratch buffer is flushed; none of it shows in the file, in
    the index blocks or in the counts. -/

namespace Cqlite

open Relational (Alike)

/-! ### The rows of the whole partition -/

section Rows

variable [DebugFmt] {schema : TableSchema} {writeSchema : WriteSchema}

/-- The row a session makes of a mutation. -/
def sessionRow (schema : TableSchema) (writeSchema : WriteSchema) (partitionFloor : Option Int)
    (ranges : List RangeTombstone) (m : Mutation) : Option RowWrite :=
  mergeRowGroup writeSchema false (shadowFloorOf schema partitionFloor ranges m.clusteringKey) [m]

variable {floor : Option Int} {skip : Bool} {ranges : List RangeTombstone}

omit [DebugFmt] in
theorem mergeRowGroup_clusteringKey {group : List Mutation} {r : RowWrite}
    (h : mergeRowGroup writeSchema skip floor group = some r) :
    r.clusteringKey = group.head?.bind (·.clusteringKey) := by
  unfold mergeRowGroup at h
  simp only at h
  split at h
  · cases h
  · exact congrArg RowWrite.clusteringKey (Option.some.inj h).symm

theorem keepsKey_sessionRow : KeepsKey (sessionRow schema writeSchema floor ranges) :=
  fun _ _ hr => mergeRowGroup_clusteringKey hr

omit [DebugFmt] in
/-- Leaving out static operations changes nothing where there are none. -/
theorem mergeRowGroup_skip {m : Mutation} (h : ∀ op ∈ m.operations, op.isStatic writeSchema = false) :
    mergeRowGroup writeSchema skip floor [m] = mergeRowGroup writeSchema false floor [m] := by
  have hops : rowOperations writeSchema skip m = rowOperations writeSchema false m :=
    List.filter_congr fun op hop => by simp [h op hop]
  have hcomplex : ∀ dts, complexElementOps writeSchema skip dts [m] =
      complexElementOps writeSchema false dts [m] := by
    intro dts
    simp only [complexElementOps, List.flatMap_singleton, complexOpsOf, hops]
  have hone : ∀ dts, unshadowedMutations dts [m] = [m] ∨ unshadowedMutations dts [m] = [] := by
    intro dts
    cases hnew : newerThan dts m.timestampMicros <;> simp [unshadowedMutations, hnew]
  have hcells : ∀ dts, (unshadowedMutations dts [m]).flatMap (cellOpsOf writeSchema skip dts) =
      (unshadowedMutations dts [m]).flatMap (cellOpsOf writeSchema false dts) := by
    intro dts
    rcases hone dts with hm | hm <;> simp [hm, cellOpsOf, wholeColumnOps, hops]
  have hpk : ∀ dts, (unshadowedMutations dts [m]).filterMap (pkLiveness writeSchema skip dts) =
      (unshadowedMutations dts [m]).filterMap (pkLiveness writeSchema false dts) := by
    intro dts
    rcases hone dts with hm | hm <;>
      simp [hm, List.filterMap_cons, pkLiveness, pkWriteLiveness, wholeColumnOps, hops]
  have hwritten : ∀ dts, writtenCells writeSchema skip dts [m] =
      writtenCells writeSchema false dts [m] := by
    intro dts
    rw [writtenCells, writtenCells, hcomplex, mergedCells, mergedCells, hcells]
  have helements : ∀ dts, writtenElements writeSchema skip dts [m] =
      writtenElements writeSchema false dts [m] := by
    intro dts
    rw [writtenElements, writtenElements, hcomplex, hwritten]
  have hliveness : ∀ dts, livenessCandidates writeSchema skip dts [m] =
      livenessCandidates writeSchema false dts [m] := by
    intro dts
    rw [livenessCandidates, livenessCandidates, hpk, wholeColLiveness, wholeColLiveness, hcells,
      hcomplex, hwritten, helements]
  rw [mergeRowGroup, mergeRowGroup, hwritten, helements, hliveness]

theorem clusteringGroups_singletons {ms : List Mutation}
    (h : ms.Pairwise fun m n => sameClustering m n = false) :
    clusteringGroups ms = ms.map fun m => [m] := by
  induction ms with
  | nil => simp [clusteringGroups]
  | cons m ms ih =>
    obtain ⟨hm, hms⟩ := List.pairwise_cons.mp h
    have htake : ms.takeWhile (sameClustering m) = [] := by
      cases ms with
      | nil => rfl
      | cons n ns => simp [hm n (by simp)]
    have hdrop : ms.dropWhile (sameClustering m) = ms := by
      cases ms with
      | nil => rfl
      | cons n ns => simp [hm n (by simp)]
    rw [clusteringGroups, htake, hdrop, ih hms]
    rfl

/-- Rows in strict clustering order have different keys for the grouping too. -/
theorem sameClustering_pairwise {ms : List Mutation}
    (h : ItemsOrdered schema (ms.map rowItem) ranges) :
    ms.Pairwise fun m n => sameClustering m n = false := by
  refine (List.pairwise_map.mp h.sorted).imp_of_mem fun {m n} hm hn hlt => ?_
  have harity : ∀ x ∈ ms, ∀ k, x.clusteringKey = some k →
      k.columns.length = schema.clusteringKeys.length := by
    intro x hx k hk
    have := h.keys.rowArity (rowItem x).key (List.mem_map_of_mem (List.mem_map_of_mem hx))
    rwa [RowWrite.key, show (rowItem x).clusteringKey = some k from hk] at this
  rw [sameClustering]
  cases hkm : m.clusteringKey with
  | none => 
    cases hkn : n.clusteringKey with
    | none =>
      rw [RowWrite.key, RowWrite.key, rowItem, rowItem, hkm, hkn] at hlt
      exact absurd (schemaCmp_nil.symm.trans hlt) (by simp)
    | some kn => rfl
  | some km =>
    cases hkn : n.clusteringKey with
    | none => rfl
    | some kn =>
      have hmn : ClusteringKey.schemaCmp schema km kn = .lt := by
        simpa [RowWrite.key, rowItem, hkm, hkn] using hlt
      have hne : kn.cmp km ≠ .eq := by
        intro heq
        have heq := (schemaCmp_eq_iff (harity n hn kn hkn) (harity m hm km hkm)).mpr heq
        rw [h.schemaOrder.swap km (rowKey_mem hm hkm) kn (rowKey_mem hn hkn), hmn] at heq
        cases heq
      simpa [cmpOptionKey] using hne

theorem mergeClusteringRows_eq {statics rows : List Mutation}
    (hstatics : ∀ m ∈ statics, isStaticRowMutation writeSchema m = true)
    (hrows : ∀ m ∈ rows, isStaticRowMutation writeSchema m = false)
    (hregular : ∀ m ∈ rows, ∀ op ∈ m.operations, op.isStatic writeSchema = false)
    (h : ItemsOrdered schema (rows.map rowItem) ranges) :
    mergeClusteringRows schema writeSchema skip floor ranges (statics ++ rows) =
      rows.filterMap (sessionRow schema writeSchema floor ranges) := by
  have hfilter : (statics ++ rows).filter (fun m => !isStaticRowMutation writeSchema m) = rows := by
    rw [List.filter_append, List.filter_eq_nil_iff.mpr fun m hm => by simp [hstatics m hm],
      List.filter_eq_self.mpr fun m hm => by simp [hrows m hm], List.nil_append]
  rw [mergeClusteringRows, hfilter, clusteringGroups_singletons (sameClustering_pairwise h),
    List.filterMap_map]
  refine List.filterMap_congr fun m hm => ?_
  exact mergeRowGroup_skip (hregular m hm)

end Rows

/-! ### Two emitters -/

section Emitters

/-- Emitters that append the same bytes at the same offsets. -/
structure SameEmission (ops ops' : EmitOps DataWriter) (R : DataWriter → DataWriter → Prop) : Prop where
  append : ∀ w w', R w w' → ∀ bytes, R (ops.append w bytes) (ops'.append w' bytes)
  offset : ∀ w w', R w w' → ops.offset w = ops'.offset w'
  flushBlock : ∀ w w', R w w' → R (ops.flushBlock w) (ops'.flushBlock w')

/-- Before the first item a session has no start of block 0, the other writer has the offset. -/
def SameState (ops : EmitOps DataWriter) (R : DataWriter → DataWriter → Prop)
    (st st' : DataWriter × EmitState) : Prop :=
  R st.1 st'.1 ∧ (st'.2 = st.2 ∨ (st.2.firstCk = none ∧ st.2.blockStart = some (ops.offset st.1) ∧
    st'.2 = { st.2 with blockStart := none }))

variable {enc : PartitionEncoder} {ops ops' : EmitOps DataWriter} {R : DataWriter → DataWriter → Prop}

variable {st st' : DataWriter × EmitState}

/-- With its first item a session opens block 0 where the other writer has. -/
theorem SameState.enter (hops : SameEmission ops ops' R) (h : SameState ops R st st')
    (item : PartitionItem) :
    st'.2.enter enc item (ops'.offset st'.1) = st.2.enter enc item (ops.offset st.1) := by
  rw [← hops.offset _ _ h.1]
  rcases h.2 with heq | ⟨hfirst, hstart, heq⟩
  · rw [heq]
  · rw [heq]
    simp [EmitState.enter, hfirst, hstart]

theorem emitItem_alike (hops : SameEmission ops ops' R) (h : SameState ops R st st')
    (item : PartitionItem) :
    Alike (SameState ops R) (emitItem enc ops st item) (emitItem enc ops' st' item) := by
  rw [emitItem, emitItem, h.enter hops item]
  cases enc.writeItem item (st.2.enter enc item (ops.offset st.1)).prevUnfilteredSize with
  | error e => exact .error e
  | ok written =>
    have hw := hops.append _ _ h.1 written.1
    simp only [bind, Except.bind, hops.offset _ _ hw]
    split
    · exact .ok ⟨hops.flushBlock _ _ hw, .inl rfl⟩
    · exact .ok ⟨hw, .inl rfl⟩

theorem closePartition_alike (hops : SameEmission ops ops' R) {st st' : DataWriter × EmitState}
    (h : SameState ops R st st') :
    R (closePartition enc ops st).1 (closePartition enc ops' st').1 ∧
      (closePartition enc ops st).2 = (closePartition enc ops' st').2 := by
  have hw := hops.append _ _ h.1 [endOfPartitionByte]
  refine ⟨hw, ?_⟩
  simp only [closePartition, hops.offset _ _ hw]
  rcases h.2 with heq | ⟨hfirst, -, heq⟩
  · rw [heq]
  · -- no item was written: there is no block to close
    rw [heq]
    simp [hfirst]

theorem finishPartition_eq (hops : SameEmission ops ops' R)
    (hflush : ∀ w w', R w w' → w.flushPartition = w'.flushPartition) (h : SameState ops R st st')
    {offset : Nat} : finishPartition enc ops offset st = finishPartition enc ops' offset st' := by
  obtain ⟨hR, heq⟩ := @closePartition_alike enc _ _ _ hops _ _ h
  change PartitionWritten.mk _ (closePartition enc ops st).2.1 (closePartition enc ops st).2.2
    (closePartition enc ops st).1.flushPartition = _
  rw [heq, hflush _ _ hR]
  rfl

variable (enc) in
theorem writeStaticPrelude_alike (hops : SameEmission ops ops' R) {w w' : DataWriter} (hw : R w w')
    (merged : List (String × MergedOp)) (ts ts' : Int) (s : EmitState) :
    Alike (fun st st' => R st.1 st'.1 ∧ st'.2 = st.2 ∧ st.2.firstCk = s.firstCk ∧
        st.2.blockStart = s.blockStart)
      (writeStaticPrelude enc ops merged ts (w, s)) (writeStaticPrelude enc ops' merged ts' (w', s)) := by
  rw [writeStaticPrelude, writeStaticPrelude]
  split
  · refine (Alike.refl (fun _ => rfl) enc.writeEmptyStaticRow).bind fun a b hab => ?_
    rw [hab]
    exact .ok ⟨hops.append _ _ hw b, rfl, rfl, rfl⟩
  · next hmerged =>
    -- some operation gives the liveness, so the timestamp of the first mutation is not used
    obtain ⟨live, hlive⟩ : ∃ live, staticLivenessFromOps merged = some live := by
      cases hl : staticLivenessFromOps merged with
      | some live => exact ⟨live, rfl⟩
      | none =>
        have hnil := (Lww.latest_eq_none _).mp (Option.map_eq_none_iff.mp hl)
        exact absurd (by simp [hnil]) hmerged
    rw [hlive]
    refine (Alike.refl (fun _ => rfl) (enc.writeStaticRow merged live.1 live.2)).bind
      fun a b hab => ?_
    rw [hab]
    exact .ok ⟨hops.append _ _ hw b.1, rfl, rfl, rfl⟩

end Emitters

/-! ### Flushing in the middle of a partition -/

section Flush

/-- Files of the same content, the second one possibly flushed further. -/
structure FlushedFurther (w₀ w w' : DataWriter) : Prop where
  sink : w.sink = w₀.sink
  streaming : w'.streaming = w.streaming
  dataDb : w'.dataDb = w.dataDb
  inMemory : w.streaming = false → w' = w

theorem DataWriter.position_eq (w : DataWriter) : w.position = w.dataDb.length :=
  List.length_append.symm

theorem DataWriter.dataDb_append (w : DataWriter) (bytes : Bytes) :
    (w.append bytes).dataDb = w.dataDb ++ bytes := (List.append_assoc ..).symm

theorem DataWriter.dataDb_flushPartition (w : DataWriter) : w.flushPartition.dataDb = w.dataDb := by
  rw [DataWriter.flushPartition]
  split
  · simp [DataWriter.dataDb]
  · rfl

namespace FlushedFurther

variable {w₀ w w' : DataWriter}

theorem refl (w : DataWriter) : FlushedFurther w w w := ⟨rfl, rfl, rfl, fun _ => rfl⟩

theorem append (h : FlushedFurther w₀ w w') (bytes : Bytes) :
    FlushedFurther w₀ (w.append bytes) (w'.append bytes) where
  sink := h.sink
  streaming := h.streaming
  dataDb := by rw [DataWriter.dataDb_append, DataWriter.dataDb_append, h.dataDb]
  inMemory hm := by rw [h.inMemory hm]

theorem flushBlock (h : FlushedFurther w₀ w w') : FlushedFurther w₀ w w'.flushPartition where
  sink := h.sink
  streaming := by
    rw [DataWriter.flushPartition]
    split
    · next hs => rw [← h.streaming, hs]
    · exact h.streaming
  dataDb := by rw [DataWriter.dataDb_flushPartition, h.dataDb]
  inMemory hm := by
    rw [h.inMemory hm, DataWriter.flushPartition, if_neg (by simp [hm])]

theorem flushPartition (h : FlushedFurther w₀ w w') : w.flushPartition = w'.flushPartition := by
  cases hs : w.streaming with
  | false => rw [h.inMemory hs]
  | true =>
    have hdb : w'.sink ++ w'.buffer = w.sink ++ w.buffer := h.dataDb
    rw [DataWriter.flushPartition, DataWriter.flushPartition, h.streaming, hs, if_pos rfl,
      if_pos rfl, hdb]

/-- The offset in the scratch buffer is the offset in the file. -/
theorem offset (h : FlushedFurther w₀ w w') :
    (bufferOps w₀.buffer.length).offset w = (streamingOps w₀.position).offset w' := by
  have hpos : w'.position = w.position := by rw [w'.position_eq, w.position_eq, h.dataDb]
  change w.buffer.length - w₀.buffer.length = w'.position - w₀.position
  rw [hpos, DataWriter.position, DataWriter.position, h.sink]
  omega

end FlushedFurther

end Flush

/-! ### A session emits its items -/

section Session

variable [DebugFmt] {enc : PartitionEncoder} {schema : TableSchema} {writeSchema : WriteSchema}
variable {ops : EmitOps DataWriter}

theorem feedRow_eq (w : DataWriter) (session : PartitionSession) (m : Mutation) :
    feedRow enc schema writeSchema ops (w, session) m =
      (((drainMarkers schema (afterRow schema m) session.markers).1 ++
        (sessionRow schema writeSchema session.partitionFloor session.ranges m).toList.map PartitionItem.row).foldlM
          (emitItem enc ops) (w, session.state)) >>= fun st =>
            .ok (st.1, { session with
              markers := (drainMarkers schema (afterRow schema m) session.markers).2
              state := st.2 }) := by
  rw [List.foldlM_append, feedRow, bind_assoc, sessionRow]
  refine bind_congr fun st => ?_
  cases mergeRowGroup writeSchema false
    (shadowFloorOf schema session.partitionFloor session.ranges m.clusteringKey) [m] with
  | none => rfl
  | some r =>
    change (emitItem enc ops st (.row r) >>= _) = ((emitItem enc ops st (.row r) >>= pure) >>= _)
    rw [bind_pure]
    rfl

theorem feedRows_eq (w : DataWriter) (session : PartitionSession) (rows : List Mutation) :
    (rows.foldlM (feedRow enc schema writeSchema ops) (w, session) >>= finishSession enc schema ops) =
      ((sessionItems schema (sessionRow schema writeSchema session.partitionFloor session.ranges)
        session.markers rows).foldlM (emitItem enc ops) (w, session.state) >>= fun st =>
          .ok (finishPartition enc ops session.partitionOffset st)) := by
  induction rows generalizing w session with
  | nil => rfl
  | cons m rows ih =>
    rw [List.foldlM_cons, feedRow_eq, sessionItems, ← List.append_assoc]
    generalize (drainMarkers schema (afterRow schema m) session.markers).1 ++
      (sessionRow schema writeSchema session.partitionFloor session.ranges m).toList.map
        PartitionItem.row = emitted
    rw [List.foldlM_append, bind_assoc, bind_assoc, bind_assoc]
    refine bind_congr fun st => ?_
    exact ih st.1 { session with
      markers := (drainMarkers schema (afterRow schema m) session.markers).2
      state := st.2 }

end Session

/-! ### Whole partitions -/

section Whole

variable [DebugFmt] {enc : PartitionEncoder} {schema : TableSchema} {writeSchema : WriteSchema}

/-- The static mutations, one mutation per row in clustering order, and the deletions. Static
    operations are among the static mutations, not in the rows. -/
structure PartitionContent (schema : TableSchema) (writeSchema : WriteSchema) where
  key : DecoratedKey
  statics : List Mutation
  rows : List Mutation
  partitionTombstone : Option PartitionTombstone
  ranges : List RangeTombstone
  statics_static : ∀ m ∈ statics, isStaticRowMutation writeSchema m = true
  rows_clustered : ∀ m ∈ rows, isStaticRowMutation writeSchema m = false
  rows_regular : ∀ m ∈ rows, ∀ op ∈ m.operations, op.isStatic writeSchema = false
  ordered : ItemsOrdered schema (rows.map rowItem) ranges

namespace PartitionContent

variable (content : PartitionContent schema writeSchema)

/-- The slice the whole-partition writer gets. -/
def mutations : List Mutation := content.statics ++ content.rows

/-- The resolved static operations a session gets. -/
def staticOps : List (String × MergedOp) :=
  collectStaticOperations writeSchema (content.partitionTombstone.map (·.deletionTime)) content.statics

theorem collectStaticOperations_mutations :
    collectStaticOperations writeSchema (content.partitionTombstone.map (·.deletionTime))
      content.mutations = content.staticOps := by
  have hrows : ∀ floor, content.rows.flatMap (staticOpsOf writeSchema floor) = [] := by
    intro floor
    refine List.flatMap_eq_nil_iff.mpr fun m hm => ?_
    have hops : m.operations.filter (CellOperation.isStatic writeSchema) = [] :=
      List.filter_eq_nil_iff.mpr fun op hop => by simp [content.rows_regular m hm op hop]
    simp [staticOpsOf, hops]
  rw [staticOps, collectStaticOperations, collectStaticOperations, mutations, List.flatMap_append,
    hrows, List.append_nil]

theorem partitionItems_eq (floor : Option Int) :
    partitionItems schema (mergeClusteringRows schema writeSchema writeSchema.hasStatic floor
      content.ranges content.mutations) content.ranges =
    sessionItems schema (sessionRow schema writeSchema floor content.ranges)
      (sortPartitionItems schema (content.ranges.flatMap rangeMarkers)) content.rows := by
  rw [mutations, mergeClusteringRows_eq content.statics_static content.rows_clustered
    content.rows_regular content.ordered,
    sessionItems_eq_partitionItems keepsKey_sessionRow content.ordered]

end PartitionContent

variable {ops : EmitOps DataWriter} {R : DataWriter → DataWriter → Prop}

variable (enc) in
theorem body_alike (content : PartitionContent schema writeSchema) {w₀ w w' : DataWriter}
    {s : EmitState} (hops : SameEmission (bufferOps w₀.buffer.length) ops R) (hw : R w w')
    (hflush : ∀ w w', R w w' → w.flushPartition = w'.flushPartition)
    (hfirst : s.firstCk = none) (hstart : s.blockStart = none) (floor : Option Int) :
    Alike Eq
      ((partitionItems schema (mergeClusteringRows schema writeSchema writeSchema.hasStatic floor
          content.ranges content.mutations) content.ranges).foldlM
        (emitItem enc (bufferOps w₀.buffer.length))
        (w, { s with blockStart := some ((bufferOps w₀.buffer.length).offset w) }) >>= fun st =>
          .ok (finishPartition enc (bufferOps w₀.buffer.length) w₀.position st))
      (content.rows.foldlM (feedRow enc schema writeSchema ops)
        (w', ⟨w₀.position, floor, content.ranges,
          sortPartitionItems schema (content.ranges.flatMap rangeMarkers), s⟩) >>=
            finishSession enc schema ops) := by
  rw [feedRows_eq, content.partitionItems_eq]
  refine (Alike.foldlM (fun st st' h item => emitItem_alike hops h item) ?_ _).bind
    fun st st' h => ?_
  · exact ⟨hw, .inr ⟨hfirst, rfl, by rw [← hstart]⟩⟩
  · exact .ok (finishPartition_eq hops hflush h)

/-- A session whose emitter writes as the whole-partition writer's does. -/
theorem runSession_eq (content : PartitionContent schema writeSchema) (w : DataWriter)
    (hops : SameEmission (bufferOps w.buffer.length) ops R) (hw : R w w)
    (happend : ∀ w w', R w w' → ∀ bytes, R (w.append bytes) (w'.append bytes))
    (hflush : ∀ w w', R w w' → w.flushPartition = w'.flushPartition) (firstMutationTs : Int) :
    writePartitionWithIndexBlocks enc schema writeSchema content.key content.mutations
      content.partitionTombstone content.ranges w =
    runSession enc schema writeSchema ops content.key content.staticOps firstMutationTs content.rows
      content.partitionTombstone content.ranges w := by
  refine Alike.eq ?_
  rw [writePartitionWithIndexBlocks, runSession, beginPartition, bind_assoc]
  refine (Alike.refl (fun _ => rfl) (enc.writePartitionHeader _ _)).bind fun header _ hheader => ?_
  obtain rfl := hheader
  have hw' := happend w w hw header
  cases hstatic : writeSchema.hasStatic with
  | false =>
    have hbody := body_alike enc content hops hw' hflush
      (rfl : (EmitState.opened header.length).firstCk = none) rfl
      (content.partitionTombstone.map (·.deletionTime))
    rw [hstatic] at hbody
    exact hbody
  | true =>
    have hprelude := writeStaticPrelude_alike enc hops hw' content.staticOps
      ((content.mutations.head?.map (·.timestampMicros)).getD 0) firstMutationTs
      (EmitState.opened header.length)
    simp only [if_true, feedStaticRow, bind_assoc, content.collectStaticOperations_mutations]
    refine hprelude.bind fun st st' h => ?_
    obtain ⟨hR, hstate, hfirst, hstart⟩ := h
    have hbody := body_alike enc content hops hR hflush hfirst hstart
      (content.partitionTombstone.map (·.deletionTime))
    rw [hstatic, ← hstate] at hbody
    rw [← hstate]
    exact hbody

/-- Writing a partition in an incremental or a streaming session leaves the file, the index blocks
    and the counts of writing it as a whole. -/
theorem sessions_write_whole_partition (content : PartitionContent schema writeSchema)
    (firstMutationTs : Int) (w : DataWriter) :
    runIncrementalSession enc schema writeSchema content.key content.staticOps firstMutationTs
        content.rows content.partitionTombstone content.ranges w =
      writePartitionWithIndexBlocks enc schema writeSchema content.key content.mutations
        content.partitionTombstone content.ranges w ∧
    runStreamingSession enc schema writeSchema content.key content.staticOps firstMutationTs
        content.rows content.partitionTombstone content.ranges w =
      writePartitionWithIndexBlocks enc schema writeSchema content.key content.mutations
        content.partitionTombstone content.ranges w := by
  constructor
  · refine (runSession_eq content w (R := Eq) ⟨?_, ?_, ?_⟩ rfl ?_ ?_ firstMutationTs).symm
    all_goals
      intro a b hab
      subst hab
      intros
      rfl
  · refine (runSession_eq content w (R := FlushedFurther w) ⟨?_, ?_, ?_⟩ (.refl w) ?_ ?_
      firstMutationTs).symm
    · exact fun _ _ h bytes => h.append bytes
    · exact fun _ _ h => h.offset
    · exact fun _ _ h => h.flushBlock
    · exact fun _ _ h bytes => h.append bytes
    · exact fun _ _ h => h.flushPartition

end Whole

def staticTable : WriteSchema := ⟨["k"], ["c"], [⟨"s", true, false⟩, ⟨"v", false, false⟩]⟩

/-- A static write, two rows and a range between them. -/
def staticAndRows : PartitionContent intSchema staticTable where
  key := ⟨0, [0]⟩
  statics := [.new ⟨[]⟩ none [.write "s" (.integer 0)] 5 none]
  rows := [.new ⟨[]⟩ (some (intKey 1)) [.write "v" (.integer 1)] 6 none,
    .new ⟨[]⟩ (some (intKey 9)) [.write "v" (.integer 2)] 7 none]
  partitionTombstone := some ⟨3, 1⟩
  ranges := [⟨.exclusive (intKey 1), .inclusive (intKey 8), 4, 1⟩]
  statics_static := by decide
  rows_clustered := by decide
  rows_regular := by decide
  ordered := ⟨⟨by decide, by decide, by decide, by decide⟩, ⟨by decide, by decide⟩, by decide⟩

/-- The key as the header, and one byte for every row and marker. -/
def byteEncoder : PartitionEncoder where
  writePartitionHeader key _ := .ok key.key
  writeEmptyStaticRow := .ok [0]
  writeStaticRow ops _ _ := .ok ([1], ops.length)
  writeItem _ _ := .ok ([2], 1)
  indexName _ := []
  emptyName := []
  oss50 _ := none

/-- A partition with a static row, rows and a range. -/
theorem staticAndRows_sessions :
    runIncrementalSession byteEncoder intSchema staticTable ⟨0, [0]⟩ staticAndRows.staticOps 5
        staticAndRows.rows (some ⟨3, 1⟩) staticAndRows.ranges ⟨[], [], true⟩ =
      writePartitionWithIndexBlocks byteEncoder intSchema staticTable ⟨0, [0]⟩
        staticAndRows.mutations (some ⟨3, 1⟩) staticAndRows.ranges ⟨[], [], true⟩ ∧
    runStreamingSession byteEncoder intSchema staticTable ⟨0, [0]⟩ staticAndRows.staticOps 5
        staticAndRows.rows (some ⟨3, 1⟩) staticAndRows.ranges ⟨[], [], true⟩ =
      writePartitionWithIndexBlocks byteEncoder intSchema staticTable ⟨0, [0]⟩
        staticAndRows.mutations (some ⟨3, 1⟩) staticAndRows.ranges ⟨[], [], true⟩ :=
  sessions_write_whole_partition staticAndRows 5 ⟨[], [], true⟩

end Cqlite
