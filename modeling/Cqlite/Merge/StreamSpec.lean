import Cqlite.Merge.StreamRanges

/-! What the streaming merger yields for a partition.

    Each group is shadowed by the ranges known when it leaves the merger: none as long as no marker
    has been popped, and otherwise those popped by the time it is finished and the next one. Rows
    come out in clustering order, behind the partition deletion and before the range carriers. -/

namespace Cqlite

section Schedule

variable [DebugFmt]

/-- The ranges a finished group is shadowed by, with the entries still to come. -/
def flushRanges (known : List RangeTombstone) (rest : List MergeEntry) : List RangeTombstone :=
  if known = [] then [] else known ++ (partitionRanges rest).take 1

/-- The groups in the order they are finished, with the ranges each is shadowed by. -/
def schedule : Option Cluster → List RangeTombstone → List MergeEntry →
    List (Cluster × List RangeTombstone)
  | cur, known, [] => (cur.map fun cluster => (cluster, flushRanges known [])).toList
  | cur, known, e :: rest =>
    if e.isPartitionDeleteCarrier then schedule cur known rest
    else if isRangeMarkerCarrier e then schedule cur (known ++ e.rangeDeletion.toList) rest
    else
      match cur with
      | none => schedule (some (e.clusteringKey, [e])) known rest
      | some (ck, rows) =>
        if cmpOptionKey ck e.clusteringKey != .eq then
          ((ck, rows), flushRanges known (e :: rest)) ::
            schedule (some (e.clusteringKey, [e])) known rest
        else schedule (some (ck, rows ++ [e])) known rest

theorem schedule_cons (cur : Option Cluster) (known : List RangeTombstone) (e : MergeEntry)
    (rest : List MergeEntry) :
    schedule cur known (e :: rest) =
      if e.isPartitionDeleteCarrier then schedule cur known rest
      else if isRangeMarkerCarrier e then schedule cur (known ++ e.rangeDeletion.toList) rest
      else
        match cur with
        | none => schedule (some (e.clusteringKey, [e])) known rest
        | some (ck, rows) =>
          if cmpOptionKey ck e.clusteringKey != .eq then
            ((ck, rows), flushRanges known (e :: rest)) ::
              schedule (some (e.clusteringKey, [e])) known rest
          else schedule (some (ck, rows ++ [e])) known rest := by
  cases cur <;> rfl

/-- The row of a group under the ranges it is shadowed by. -/
def flushRow (cfg : MergerConfig) (key : DecoratedKey) (p : Option Deletion)
    (entry : Cluster × List RangeTombstone) : Option MergeEntry :=
  mergeCluster cfg.schema cfg.settings (keyedRanges cfg.schema key entry.2) p entry.1

/-- Range and partition shadowing of a reconciled row. -/
def shadowEntry (cfg : MergerConfig) (key : DecoratedKey) (p : Option Deletion)
    (ranges : List RangeTombstone) (e : MergeEntry) : Option MergeEntry :=
  (applyRangeShadowing cfg.schema (keyedRanges cfg.schema key ranges) e).bind
    (applyPartitionShadowing p)

theorem flushRow_eq (cfg : MergerConfig) (key : DecoratedKey) (p : Option Deletion)
    (cluster : Cluster) (ranges : List RangeTombstone) :
    flushRow cfg key p (cluster, ranges) =
      (reconcileCluster cfg.settings cluster.1 cluster.2).bind (shadowEntry cfg key p ranges) := by
  rw [flushRow, mergeCluster, Option.bind_assoc]
  rfl

end Schedule

theorem filterMap_toList_map {α β γ : Type*} (o : Option α) (g : α → β) (f : β → Option γ) :
    (o.map g).toList.filterMap f = o.toList.filterMap fun x => f (g x) := by
  cases o <;> rfl

/-! ### The checkpoint after a prefix of the partition -/

/-- A row of the partition, as far as shadowing looks at it. -/
structure RowOf (key : DecoratedKey) (seg : List MergeEntry) (e : MergeEntry) : Prop where
  key : e.key = key
  clusteringKey : ∀ ck ∈ e.clusteringKey, ck ∈ rowKeys seg

section Tracks

variable [DebugFmt]

/-- The checkpoint once `seen` has been accepted and `rest` is still to come. -/
structure Tracks (schema : TableSchema) (key : DecoratedKey) (seen rest : List MergeEntry)
    (c : Checkpoint) : Prop where
  deletion : c.maxPartitionDeletion = Cqlite.maxPartitionDeletion seen
  deleteKey : c.partitionDeletionResolved = false →
    c.partitionDeleteKey = if partitionDeletions seen = [] then none else some key
  settled : c.partitionDeletionResolved = true → partitionDeletions rest = []
  unresolved : c.partitionDeletionResolved = false → c.awaitingFlush = []
  unknown : partitionRanges seen = [] → c.awaitingFlush = []
  emitted : c.rangeTombstonesEmitted = false
  ranges : TracksRanges schema key (seen ++ rest) c.rangeTombstones (partitionRanges seen)
  awaiting : ∀ e ∈ c.awaitingFlush, RowOf key (seen ++ rest) e
  cluster : ∀ ck rows, c.currentCluster = some (ck, rows) →
    ∃ first others, rows = first :: others ∧ ck = first.clusteringKey ∧ first ∈ seen ∧
      isCarrier first = false

/-- What a checkpoint has yielded, once the rows held back are shadowed by `ranges`. -/
def flow (cfg : MergerConfig) (key : DecoratedKey) (seg : List MergeEntry) (c : Checkpoint)
    (ranges : List RangeTombstone) : List MergeEntry :=
  c.pendingRows ++
    (if c.partitionDeletionResolved then [] else (partitionCarrier cfg key seg).toList) ++
    c.awaitingFlush.filterMap (shadowEntry cfg key (maxPartitionDeletion seg) ranges)

/-! ### Finishing a group -/

variable {cfg : MergerConfig} {key : DecoratedKey} {seen rest : List MergeEntry} {c : Checkpoint}

variable {e : MergeEntry}

omit [DebugFmt] in
theorem reconcileCluster_frame {s : MergeSettings} {ck : Option ClusteringKey} {first : MergeEntry}
    {others : List MergeEntry} (h : reconcileCluster s ck (first :: others) = some e) :
    e.key = first.key ∧ e.clusteringKey = ck := by
  rw [reconcileCluster_eq] at h
  obtain ⟨ts, data, del, rfl⟩ := groupOutput_frame h
  exact ⟨rfl, rfl⟩

omit [DebugFmt] in
theorem maxPartitionDeletion_of_settled (h : partitionDeletions rest = []) :
    maxPartitionDeletion (seen ++ rest) = maxPartitionDeletion seen := by
  rw [maxPartitionDeletion, partitionDeletions_append, h, List.append_nil, maxPartitionDeletion]

/-- Resolving the prefix yields the partition carrier and nothing else. -/
theorem Tracks.resolve (ht : Tracks cfg.schema key seen rest c) (hrest : partitionDeletions rest = []) :
    Tracks cfg.schema key seen rest (c.resolvePartitionPrefix cfg) ∧
      (∀ ranges, flow cfg key (seen ++ rest) (c.resolvePartitionPrefix cfg) ranges =
        flow cfg key (seen ++ rest) c ranges) := by
  unfold Checkpoint.resolvePartitionPrefix
  cases hres : c.partitionDeletionResolved with
  | true => exact ⟨by simpa [hres] using ht, fun ranges => by simp⟩
  | false =>
    have hdel : partitionDeletions (seen ++ rest) = partitionDeletions seen := by
      rw [partitionDeletions_append, hrest, List.append_nil]
    have hcarrier : partitionCarrier cfg key (seen ++ rest) =
        emitPartitionDeletion cfg.settings ⟨[], c.maxPartitionDeletion, c.partitionDeleteKey⟩ := by
      rw [partitionCarrier, maxPartitionDeletion_of_settled hrest, hdel, ht.deletion,
        ht.deleteKey hres]
    simp only [Bool.false_eq_true, if_false]
    refine ⟨⟨ht.deletion, ?_, fun _ => hrest, ?_, ht.unknown, ht.emitted, ht.ranges, ht.awaiting,
      ht.cluster⟩, fun ranges => ?_⟩
    · exact fun h => by cases h
    · exact fun h => by cases h
    · simp only [flow, hres, hcarrier, ht.unresolved hres, if_true, Bool.false_eq_true, if_false,
        List.append_nil]

/-- A reconciled row goes out under the ranges known so far, or is held back for the next one. -/
theorem Tracks.routeSurvivor (h : SegmentInput cfg.schema key (seen ++ rest))
    (ht : Tracks cfg.schema key seen rest c) (hres : c.partitionDeletionResolved = true)
    (he : RowOf key (seen ++ rest) e) :
    Tracks cfg.schema key seen rest (c.routeSurvivor e) ∧
      (∀ ranges, flow cfg key (seen ++ rest) (c.routeSurvivor e) ranges =
        flow cfg key (seen ++ rest) c ranges ++
          (shadowEntry cfg key (maxPartitionDeletion (seen ++ rest))
            (if partitionRanges seen = [] then [] else ranges) e).toList) := by
  have hnil := ht.ranges.eq_nil_iff h
  have hmax : maxPartitionDeletion (seen ++ rest) = c.maxPartitionDeletion := by
    rw [maxPartitionDeletion_of_settled (ht.settled hres), ht.deletion]
  unfold Checkpoint.routeSurvivor
  by_cases hr : c.rangeTombstones = []
  · have hseen := hnil.mp hr
    rw [if_pos (List.isEmpty_iff.mpr hr)]
    refine ⟨⟨ht.deletion, ht.deleteKey, ht.settled, ht.unresolved, ht.unknown, ht.emitted, ht.ranges,
      ht.awaiting, ht.cluster⟩, fun ranges => ?_⟩
    have hnone : shadowEntry cfg key c.maxPartitionDeletion [] e =
        applyPartitionShadowing c.maxPartitionDeletion e := by
      simp [shadowEntry, keyedRanges, coalescePartitionRangeTombstones, applyRangeShadowing]
    simp only [flow, if_pos hseen, ht.unknown hseen, List.filterMap_nil, List.append_nil, hres,
      if_true, hmax, hnone]
  · have hseen := mt hnil.mpr hr
    rw [if_neg (mt List.isEmpty_iff.mp hr)]
    refine ⟨⟨ht.deletion, ht.deleteKey, ht.settled, fun hf => ?_, fun hf => absurd hf hseen,
      ht.emitted, ht.ranges, fun x hx => ?_, ht.cluster⟩, fun ranges => ?_⟩
    · rw [show c.partitionDeletionResolved = false from hf] at hres
      cases hres
    · rcases List.mem_append.mp hx with hx | hx
      · exact ht.awaiting x hx
      · rwa [List.mem_singleton.mp hx]
    · simp only [flow, if_neg hseen, List.filterMap_append, List.append_assoc]
      cases hse : shadowEntry cfg key (maxPartitionDeletion (seen ++ rest)) ranges e <;> simp [hse]

theorem Tracks.finalize (h : SegmentInput cfg.schema key (seen ++ rest))
    (ht : Tracks cfg.schema key seen rest c) (hrest : partitionDeletions rest = []) :
    Tracks cfg.schema key seen rest (c.finalizeCurrentCluster cfg) ∧
      (∀ ranges, flow cfg key (seen ++ rest) (c.finalizeCurrentCluster cfg) ranges =
        flow cfg key (seen ++ rest) c ranges ++
          c.currentCluster.toList.filterMap fun cluster =>
            flushRow cfg key (maxPartitionDeletion (seen ++ rest))
              (cluster, if partitionRanges seen = [] then [] else ranges)) := by
  unfold Checkpoint.finalizeCurrentCluster
  cases hc : c.currentCluster with
  | none =>
    obtain ⟨ht', hflow⟩ := ht.resolve hrest
    exact ⟨ht', fun ranges => by simp [hflow]⟩
  | some cluster =>
    obtain ⟨ck, rows⟩ := cluster
    obtain ⟨first, others, rfl, rfl, hfirst, -⟩ := ht.cluster ck rows hc
    have ht₀ : Tracks cfg.schema key seen rest { c with currentCluster := none } :=
      ⟨ht.deletion, ht.deleteKey, ht.settled, ht.unresolved, ht.unknown, ht.emitted, ht.ranges,
        ht.awaiting, fun _ _ hf => by cases hf⟩
    obtain ⟨ht₁, hflow₁⟩ := ht₀.resolve hrest
    have hres := (Checkpoint.resolvePartitionPrefix_fields cfg { c with currentCluster := none }).1
    simp only
    generalize Checkpoint.resolvePartitionPrefix cfg { c with currentCluster := none } = c₁ at *
    have hbase : ∀ ranges, flow cfg key (seen ++ rest) c₁ ranges =
        flow cfg key (seen ++ rest) c ranges := hflow₁
    cases hrec : reconcileCluster cfg.settings first.clusteringKey (first :: others) with
    | none => exact ⟨ht₁, fun ranges => by simp [hbase, flushRow_eq, hrec]⟩
    | some e =>
      obtain ⟨hek, heck⟩ := reconcileCluster_frame hrec
      have hmem : first ∈ seen ++ rest := List.mem_append_left _ hfirst
      have he : RowOf key (seen ++ rest) e := by
        refine ⟨hek.trans (h.partition.sameKey first hmem), fun k hk => ?_⟩
        rw [heck] at hk
        exact List.mem_filterMap.mpr ⟨first, hmem, hk⟩
      obtain ⟨ht₂, hflow₂⟩ := ht₁.routeSurvivor h hres he
      refine ⟨ht₂, fun ranges => ?_⟩
      simp only
      rw [hflow₂, hbase]
      simp only [Option.toList_some, List.filterMap_cons, flushRow_eq, hrec, Option.bind_some,
        List.filterMap_nil]
      cases shadowEntry cfg key (maxPartitionDeletion (seen ++ rest))
        (if partitionRanges seen = [] then [] else ranges) e <;> rfl

/-! ### Accepting an entry -/

omit [DebugFmt] in
theorem partitionRanges_singleton (e : MergeEntry) :
    partitionRanges [e] = if isRangeCarrier e then e.rangeDeletion.toList else [] := by
  rw [partitionRanges_eq]
  cases hc : isRangeCarrier e <;> cases hr : e.rangeDeletion <;> simp [hc, hr]

omit [DebugFmt] in
theorem concat_append (e : MergeEntry) : seen ++ [e] ++ rest = seen ++ e :: rest := by simp

theorem Tracks.acceptPartitionDeletion {d : Deletion} (hkey : e.key = key)
    (hd : e.partitionDeletion = some d) (ht : Tracks cfg.schema key seen (e :: rest) c) :
    Tracks cfg.schema key (seen ++ [e]) rest (c.acceptPartitionDeletion e.key d) := by
  have hpd : partitionDeletions [e] = [d] := by simp [partitionDeletions, hd]
  have hr : partitionRanges (seen ++ [e]) = partitionRanges seen := by
    rw [partitionRanges_append, partitionRanges_singleton]
    simp [isRangeCarrier, MergeEntry.isPartitionDeleteCarrier, hd]
  have hres : c.partitionDeletionResolved = false := by
    cases hres : c.partitionDeletionResolved with
    | false => rfl
    | true => simpa [partitionDeletions, hd] using ht.settled hres
  refine ⟨?_, fun _ => ?_, fun hf => ?_, ht.unresolved, ?_, ht.emitted, ?_, ?_, ?_⟩
  · rw [maxPartitionDeletion, partitionDeletions_append, hpd, Lww.latest_concat]
    exact congrArg (Lww.join deletionSupersedes · d) ht.deletion
  · rw [partitionDeletions_append, hpd]
    simp only [Checkpoint.acceptPartitionDeletion, ht.deleteKey hres, hkey]
    split <;> simp
  · rw [show c.partitionDeletionResolved = true from hf] at hres
    cases hres
  · rw [hr]
    exact ht.unknown
  · rw [hr, concat_append]
    exact ht.ranges
  · rw [concat_append]
    exact ht.awaiting
  · intro ck rows hc
    obtain ⟨first, others, hrows, hck, hmem, hcar⟩ := ht.cluster ck rows hc
    exact ⟨first, others, hrows, hck, List.mem_append_left _ hmem, hcar⟩

/-- Flushing shadows what is held back by the ranges known so far. -/
theorem Tracks.reshadow (h : SegmentInput cfg.schema key (seen ++ rest))
    (ht : Tracks cfg.schema key seen rest c) (hres : c.partitionDeletionResolved = true) :
    Tracks cfg.schema key seen rest (c.reshadowAndFlushAwaiting cfg) ∧
      (∀ ranges, flow cfg key (seen ++ rest) (c.reshadowAndFlushAwaiting cfg) ranges =
        flow cfg key (seen ++ rest) c (partitionRanges seen)) := by
  unfold Checkpoint.reshadowAndFlushAwaiting
  by_cases hw : c.awaitingFlush = []
  · rw [if_pos (List.isEmpty_iff.mpr hw)]
    exact ⟨ht, fun ranges => by simp [flow, hw]⟩
  · rw [if_neg (mt List.isEmpty_iff.mp hw)]
    refine ⟨⟨ht.deletion, ht.deleteKey, ht.settled, fun _ => rfl, fun _ => rfl, ht.emitted,
      ht.ranges.coalesce h.partition.keys, by simp, ht.cluster⟩, fun ranges => ?_⟩
    have hmax : maxPartitionDeletion (seen ++ rest) = c.maxPartitionDeletion := by
      rw [maxPartitionDeletion_of_settled (ht.settled hres), ht.deletion]
    simp only [flow, hres, if_true, List.append_nil, List.filterMap_nil, hmax]
    refine congrArg (c.pendingRows ++ ·) (List.filterMap_congr fun e he => ?_)
    have hrow := ht.awaiting e he
    rw [shadowEntry, ← ht.ranges.applyRangeShadowing_eq h.partition.keys hrow.key hrow.clusteringKey]

theorem Tracks.acceptRange {rt : RangeTombstone}
    (h : SegmentInput cfg.schema key (seen ++ e :: rest)) (hcar : isRangeCarrier e = true)
    (hrt : e.rangeDeletion = some rt) (ht : Tracks cfg.schema key seen (e :: rest) c) :
    Tracks cfg.schema key (seen ++ [e]) rest (c.acceptRange cfg e.key rt) ∧
      (c.acceptRange cfg e.key rt).currentCluster = c.currentCluster ∧
      (∀ ranges, flow cfg key (seen ++ e :: rest) (c.acceptRange cfg e.key rt) ranges =
        flow cfg key (seen ++ e :: rest) c (partitionRanges seen ++ [rt])) := by
  have hr : partitionRanges (seen ++ [e]) = partitionRanges seen ++ [rt] := by
    rw [partitionRanges_append, partitionRanges_singleton, if_pos hcar, hrt]
    rfl
  have hd : partitionDeletions [e] = [] := by
    have hpd : e.partitionDeletion = none := by
      simp only [isRangeCarrier, Bool.and_eq_true, Bool.not_eq_true'] at hcar
      simpa [MergeEntry.isPartitionDeleteCarrier] using hcar.1
    simp [partitionDeletions, hpd]
  have hmem : rt ∈ partitionRanges (seen ++ e :: rest) := by
    rw [← concat_append, partitionRanges_append, hr]
    simp
  have hkey : e.key = key := h.partition.sameKey e (by simp)
  have hpush : Tracks cfg.schema key (seen ++ [e]) rest (c.pushRange e.key rt) := by
    have hdel : partitionDeletions (seen ++ [e]) = partitionDeletions seen := by
      rw [partitionDeletions_append, hd, List.append_nil]
    refine ⟨?_, fun hf => ?_, fun hf => ?_, ht.unresolved, fun hf => ?_, ht.emitted, ?_, ?_, ?_⟩
    · rw [maxPartitionDeletion, hdel]
      exact ht.deletion
    · rw [hdel]
      exact ht.deleteKey hf
    · have := ht.settled hf
      rw [← List.singleton_append, partitionDeletions_append, hd] at this
      exact this
    · rw [hr] at hf
      simp at hf
    · rw [hr, concat_append]
      have := ht.ranges.push hmem (h.nonEmpty hmem)
      rwa [← hkey] at this ⊢
    · rw [concat_append]
      exact ht.awaiting
    · intro ck rows hc
      obtain ⟨first, others, hrows, hck, hin, hrow⟩ := ht.cluster ck rows hc
      exact ⟨first, others, hrows, hck, List.mem_append_left _ hin, hrow⟩
  have hflow : ∀ ranges, flow cfg key (seen ++ e :: rest) (c.pushRange e.key rt) ranges =
      flow cfg key (seen ++ e :: rest) c ranges := fun _ => rfl
  unfold Checkpoint.acceptRange
  cases hres : c.partitionDeletionResolved with
  | false =>
    simp only [Bool.false_eq_true, if_false]
    refine ⟨hpush, rfl, fun ranges => ?_⟩
    rw [hflow]
    simp [flow, ht.unresolved hres]
  | true =>
    simp only [if_true]
    have hseg : SegmentInput cfg.schema key (seen ++ [e] ++ rest) := by rwa [concat_append]
    obtain ⟨ht', hflow'⟩ := hpush.reshadow hseg hres
    refine ⟨ht', (Checkpoint.reshadowAndFlushAwaiting_fields cfg _).2.1, fun ranges => ?_⟩
    rw [← concat_append, hflow', hr, concat_append, hflow]

theorem Tracks.growCluster (hcar : isCarrier e = false)
    (ht : Tracks cfg.schema key seen (e :: rest) c) :
    Tracks cfg.schema key (seen ++ [e]) rest (c.growCluster e) := by
  have hpd : e.isPartitionDeleteCarrier = false := by
    simp only [isCarrier, Bool.or_eq_false_iff] at hcar
    exact hcar.1
  have hd : partitionDeletions [e] = [] := by
    have : e.partitionDeletion = none := by simpa [MergeEntry.isPartitionDeleteCarrier] using hpd
    simp [partitionDeletions, this]
  have hr : partitionRanges (seen ++ [e]) = partitionRanges seen := by
    have hrc : isRangeCarrier e = false := by
      simp only [isCarrier, Bool.or_eq_false_iff] at hcar
      simp [isRangeCarrier, hcar.2]
    rw [partitionRanges_append, partitionRanges_singleton, hrc]
    simp
  have hdel : partitionDeletions (seen ++ [e]) = partitionDeletions seen := by
    rw [partitionDeletions_append, hd, List.append_nil]
  have hsettled : c.partitionDeletionResolved = true → partitionDeletions rest = [] := fun hf => by
    have := ht.settled hf
    rw [← List.singleton_append, partitionDeletions_append, hd] at this
    exact this
  have hmax : c.maxPartitionDeletion = maxPartitionDeletion (seen ++ [e]) := by
    rw [maxPartitionDeletion, hdel]
    exact ht.deletion
  have hranges : TracksRanges cfg.schema key (seen ++ [e] ++ rest) c.rangeTombstones
      (partitionRanges (seen ++ [e])) := by
    rw [hr, concat_append]
    exact ht.ranges
  have hwait : ∀ x ∈ c.awaitingFlush, RowOf key (seen ++ [e] ++ rest) x := by
    rw [concat_append]
    exact ht.awaiting
  unfold Checkpoint.growCluster
  cases hc : c.currentCluster with
  | none =>
    refine ⟨hmax, by rw [hdel]; exact ht.deleteKey, hsettled, ht.unresolved, by rw [hr]; exact ht.unknown,
      ht.emitted, hranges, hwait, fun ck rows hcl => ?_⟩
    cases hcl
    exact ⟨e, [], rfl, rfl, by simp, hcar⟩
  | some cluster =>
    obtain ⟨ck, rows⟩ := cluster
    refine ⟨hmax, by rw [hdel]; exact ht.deleteKey, hsettled, ht.unresolved, by rw [hr]; exact ht.unknown,
      ht.emitted, hranges, hwait, fun ck' rows' hcl => ?_⟩
    cases hcl
    obtain ⟨first, others, rfl, hck, hin, hrow⟩ := ht.cluster ck rows hc
    exact ⟨first, others ++ [e], rfl, hck, List.mem_append_left _ hin, hrow⟩

omit [DebugFmt] in
theorem isRangeCarrier_of_row (h : isCarrier e = false) : isRangeCarrier e = false := by
  simp only [isCarrier, Bool.or_eq_false_iff] at h
  simp [isRangeCarrier, h.2]

/-- Once a row has a clustering key, no partition deletion is to come. -/
theorem SegmentInput.no_deletion_after {schema : TableSchema}
    (h : SegmentInput schema key (seen ++ e :: rest)) (hrow : isCarrier e = false)
    (hck : e.clusteringKey ≠ none) : partitionDeletions (e :: rest) = [] := by
  refine List.filterMap_eq_nil_iff.mpr fun x hx => ?_
  rcases List.mem_cons.mp hx with rfl | hx
  · simp only [isCarrier, Bool.or_eq_false_iff] at hrow
    simpa [MergeEntry.isPartitionDeleteCarrier] using hrow.1
  · by_contra hd
    have hpd : x.isPartitionDeleteCarrier = true := by
      simpa [MergeEntry.isPartitionDeleteCarrier, Option.isSome_iff_ne_none] using hd
    have hxr : isRangeCarrier x = false := by simp [isRangeCarrier, hpd]
    have hle := (List.pairwise_cons.mp (List.pairwise_append.mp h.ordered).2.1).1 x hx
      (isRangeCarrier_of_row hrow) hxr
    have hnone := (h.entry x (by simp [hx])).carrierKey (by simp [isCarrier, hpd])
    exact hck (none_of_rowCmp hle hnone)

theorem Tracks.acceptRow (h : SegmentInput cfg.schema key (seen ++ e :: rest))
    (hrow : isCarrier e = false) (ht : Tracks cfg.schema key seen (e :: rest) c) :
    Tracks cfg.schema key (seen ++ [e]) rest (c.acceptRow cfg e) ∧
      ∃ done : Option Cluster,
        schedule c.currentCluster (partitionRanges seen) (e :: rest) =
          (done.map fun cluster => (cluster, flushRanges (partitionRanges seen) (e :: rest))).toList ++
            schedule (c.acceptRow cfg e).currentCluster (partitionRanges seen) rest ∧
        ∀ ranges, flow cfg key (seen ++ e :: rest) (c.acceptRow cfg e) ranges =
          flow cfg key (seen ++ e :: rest) c ranges ++
            done.toList.filterMap fun cluster =>
              flushRow cfg key (maxPartitionDeletion (seen ++ e :: rest))
                (cluster, if partitionRanges seen = [] then [] else ranges) := by
  have hkind : e.isPartitionDeleteCarrier = false ∧ isRangeMarkerCarrier e = false := by
    simpa [isCarrier] using hrow
  have hgrow : ∀ d : Checkpoint, ∀ ranges, flow cfg key (seen ++ e :: rest) (d.growCluster e) ranges =
      flow cfg key (seen ++ e :: rest) d ranges := fun d ranges => by
    unfold Checkpoint.growCluster
    cases d.currentCluster <;> rfl
  unfold Checkpoint.acceptRow
  simp only [schedule_cons, hkind.1, hkind.2, Bool.false_eq_true, if_false]
  cases hcur : c.currentCluster with
  | none =>
    have hstart : c.startsNewCluster e = false := by simp [Checkpoint.startsNewCluster, hcur]
    rw [hstart]
    refine ⟨ht.growCluster hrow, none, ?_, fun ranges => ?_⟩
    · simp [Checkpoint.growCluster, hcur]
    · simp [hgrow]
  | some cluster =>
    obtain ⟨ck, rows⟩ := cluster
    obtain ⟨first, others, rfl, rfl, hfirst, hfrow⟩ := ht.cluster ck rows hcur
    have hstart : c.startsNewCluster e = (cmpOptionKey first.clusteringKey e.clusteringKey != .eq) := by
      simp [Checkpoint.startsNewCluster, hcur]
    rw [hstart]
    by_cases hnew : cmpOptionKey first.clusteringKey e.clusteringKey = .eq
    · have hsame : (cmpOptionKey first.clusteringKey e.clusteringKey != .eq) = false := by simp [hnew]
      simp only [hsame, Bool.false_eq_true, if_false]
      refine ⟨ht.growCluster hrow, none, ?_, fun ranges => ?_⟩
      · simp [Checkpoint.growCluster, hcur]
      · simp [hgrow]
    · have hdiff : (cmpOptionKey first.clusteringKey e.clusteringKey != .eq) = true := by simpa using hnew
      -- the rows are in order, so a new key is not absent
      have hck : e.clusteringKey ≠ none := fun hnone => by
        have hle := (List.pairwise_append.mp h.ordered).2.2 first hfirst e (by simp)
          (isRangeCarrier_of_row hfrow) (isRangeCarrier_of_row hrow)
        rw [none_of_rowCmp hle hnone, hnone] at hnew
        exact hnew rfl
      obtain ⟨ht', hflow⟩ := ht.finalize h (h.no_deletion_after hrow hck)
      have hnone := (Checkpoint.finalizeCurrentCluster_fields cfg c).2
      simp only [hdiff, if_true]
      refine ⟨ht'.growCluster hrow, some (first.clusteringKey, first :: others), ?_, fun ranges => ?_⟩
      · simp [Checkpoint.growCluster, hnone]
      · rw [hgrow, hflow, hcur]

/-! ### The whole partition -/

/-- Two range carriers that differ at most in the spelling of their bounds. -/
def SameRangeCarrier (schema : TableSchema) (a b : MergeEntry) : Prop :=
  ∃ ra rb, a.rangeDeletion = some ra ∧ b.rangeDeletion = some rb ∧ SameRange schema ra rb ∧
    { a with rangeDeletion := none } = { b with rangeDeletion := none }

/-- The carriers stand for those of the buffered merge and run between the cuts of the partition. -/
structure SameCarriers (cfg : MergerConfig) (key : DecoratedKey) (seg carriers : List MergeEntry) :
    Prop where
  same : List.Forall₂ (SameRangeCarrier cfg.schema) carriers (rangeCarriers cfg key seg)
  cuts : RangesIn (rowKeys seg) (partitionRanges seg) (carriers.filterMap MergeEntry.rangeDeletion)

theorem forall₂_emitRange {schema : TableSchema} (s : MergeSettings) (p : Option Deletion)
    {as bs : List KeyedRange}
    (h : List.Forall₂ (fun a b : KeyedRange => a.1 = b.1 ∧ SameRange schema a.2 b.2) as bs) :
    List.Forall₂ (SameRangeCarrier schema) ((retainRanges p as).filterMap (emitRange s))
      ((retainRanges p bs).filterMap (emitRange s)) := by
  induction h with
  | nil => exact .nil
  | @cons a b as bs hab _ ih =>
    obtain ⟨ka, ra⟩ := a
    obtain ⟨kb, rb⟩ := b
    obtain ⟨rfl, hrange⟩ : ka = kb ∧ SameRange schema ra rb := hab
    obtain ⟨-, -, htime, hldt⟩ := id hrange
    unfold retainRanges at ih ⊢
    simp only [List.filter_cons, htime]
    split
    · cases hp : s.purges rb.deletionTime rb.localDeletionTime with
      | true => simpa [emitRange, htime, hldt, hp] using ih
      | false =>
        simp only [List.filterMap_cons, emitRange, htime, hldt, hp, Bool.false_eq_true, if_false]
        exact .cons ⟨ra, rb, rfl, rfl, hrange, rfl⟩ ih
    · exact ih

/-- The end of the partition: the last group, what is held back, and the range carriers. -/
theorem Tracks.endPartition (h : SegmentInput cfg.schema key (seen ++ []))
    (ht : Tracks cfg.schema key seen [] c) :
    ∃ carriers, SameCarriers cfg key seen carriers ∧
      (c.endPartition cfg).pendingRows = flow cfg key (seen ++ []) c (partitionRanges seen) ++
        (schedule c.currentCluster (partitionRanges seen) []).filterMap
          (flushRow cfg key (maxPartitionDeletion (seen ++ []))) ++ carriers := by
  obtain ⟨ht₁, hflow₁⟩ := ht.finalize h rfl
  have hres₁ := (Checkpoint.finalizeCurrentCluster_fields cfg c).1
  obtain ⟨ht₂, hflow₂⟩ := ht₁.reshadow h hres₁
  obtain ⟨hres₂, -, hwait⟩ :=
    Checkpoint.reshadowAndFlushAwaiting_fields cfg (c.finalizeCurrentCluster cfg)
  have hpending : ((c.finalizeCurrentCluster cfg).reshadowAndFlushAwaiting cfg).pendingRows =
      flow cfg key (seen ++ []) c (partitionRanges seen) ++
        (schedule c.currentCluster (partitionRanges seen) []).filterMap
          (flushRow cfg key (maxPartitionDeletion (seen ++ []))) := by
    have hlast := hflow₂ []
    rw [hflow₁] at hlast
    simp only [flow, hwait, hres₂, hres₁, if_true, List.append_nil, List.filterMap_nil] at hlast ⊢
    rw [hlast]
    have hknown : flushRanges (partitionRanges seen) [] =
        if partitionRanges seen = [] then [] else partitionRanges seen := by
      simp [flushRanges, partitionRanges]
    rw [schedule, filterMap_toList_map, hknown]
  unfold Checkpoint.endPartition
  generalize (c.finalizeCurrentCluster cfg).reshadowAndFlushAwaiting cfg = d at ht₂ hpending
  have hsame := ht₂.ranges.forall₂_coalesce h
  unfold Checkpoint.flushRangesOnce
  by_cases hr : d.rangeTombstones = []
  · have hknown := (ht₂.ranges.eq_nil_iff h).mp hr
    refine ⟨[], ⟨?_, by simp [RangesIn]⟩, by simp [hr, hpending]⟩
    have hnone : rangeCarriers cfg key seen = [] := by
      simp [rangeCarriers, shadowRanges, hknown, coalescePartitionRangeTombstones, retainRanges]
    rw [hnone]
    exact .nil
  · refine ⟨(retainRanges d.maxPartitionDeletion
      (coalesceRangeTombstones cfg.schema d.rangeTombstones)).filterMap (emitRange cfg.settings),
      ⟨?_, ?_⟩, ?_⟩
    · rw [ht₂.deletion]
      exact forall₂_emitRange cfg.settings _ hsame
    · obtain ⟨ts, hts, hin, -, -⟩ := ht₂.ranges.exists_ranges
      intro rt hrt
      obtain ⟨e, he, hert⟩ := List.mem_filterMap.mp hrt
      obtain ⟨r, hr, hem⟩ := List.mem_filterMap.mp he
      rw [hts, coalesceRangeTombstones_partition] at hr
      obtain ⟨rt', hrt', rfl⟩ := List.mem_map.mp (List.mem_of_mem_filter hr)
      unfold emitRange at hem
      split at hem
      · cases hem
      · cases hem
        obtain rfl : rt' = rt := Option.some.inj hert
        simpa using KeysOrdered.coalesce_rangesIn hin rt' hrt'
    · simp [hr, ht₂.emitted, Checkpoint.flushRangeTombstones, hpending]

/-- What a segment still gives, as a function of the entries to come. -/
theorem Tracks.output_eq {seg : List MergeEntry} (h : SegmentInput cfg.schema key seg)
    (hs : seen ++ rest = seg) (ht : Tracks cfg.schema key seen rest c) :
    ∃ carriers, SameCarriers cfg key seg carriers ∧
      c.output cfg rest =
        flow cfg key seg c (partitionRanges seen ++ (partitionRanges rest).take 1) ++
        (schedule c.currentCluster (partitionRanges seen) rest).filterMap
          (flushRow cfg key (maxPartitionDeletion seg)) ++ carriers := by
  -- along the entries still to come; the held-back rows are shadowed by the next range, if any
  induction rest generalizing seen c with
  | nil =>
    subst hs
    obtain ⟨carriers, hsame, hout⟩ := ht.endPartition h
    refine ⟨carriers, by simpa using hsame, ?_⟩
    have hnil : partitionRanges ([] : List MergeEntry) = [] := rfl
    rw [Checkpoint.output, List.foldl_nil, hnil, List.take_nil, List.append_nil (partitionRanges seen)]
    exact hout
  | cons e rest ih =>
    subst hs
    have hkey : e.key = key := h.partition.sameKey e (by simp)
    have hstep : ∀ {c' : Checkpoint}, Tracks cfg.schema key (seen ++ [e]) rest c' → _ :=
      fun ht' => ih (concat_append e) ht'
    have hcons : partitionRanges (e :: rest) = partitionRanges [e] ++ partitionRanges rest := by
      rw [← List.singleton_append, partitionRanges_append]
    rw [Checkpoint.output, List.foldl_cons]
    cases hd : e.partitionDeletion with
    | some d =>
      have hpd : e.isPartitionDeleteCarrier = true := by
        simp [MergeEntry.isPartitionDeleteCarrier, hd]
      have hr : partitionRanges [e] = [] := by simp [partitionRanges_singleton, isRangeCarrier, hpd]
      obtain ⟨carriers, hsame, hout⟩ := hstep (ht.acceptPartitionDeletion hkey hd)
      refine ⟨carriers, hsame, ?_⟩
      rw [partitionRanges_append, hr, List.append_nil] at hout
      rw [schedule_cons, if_pos hpd, hcons, hr, List.nil_append]
      simp only [Checkpoint.acceptEntry, hd]
      exact hout
    | none =>
      have hpd : e.isPartitionDeleteCarrier = false := by
        simp [MergeEntry.isPartitionDeleteCarrier, hd]
      cases hm : isRangeMarkerCarrier e with
      | true =>
        have hcar : isRangeCarrier e = true := by simp [isRangeCarrier, hpd, hm]
        obtain ⟨rt, hrt⟩ : ∃ rt, e.rangeDeletion = some rt := by
          simp only [isRangeMarkerCarrier, Bool.and_eq_true] at hm
          exact Option.isSome_iff_exists.mp hm.1.1.1
        have hr : partitionRanges [e] = [rt] := by simp [partitionRanges_singleton, hcar, hrt]
        obtain ⟨ht', hcur, hflow⟩ := ht.acceptRange h hcar hrt
        obtain ⟨carriers, hsame, hout⟩ := hstep ht'
        refine ⟨carriers, hsame, ?_⟩
        rw [hflow, hcur, partitionRanges_append, hr] at hout
        rw [hcons, hr]
        simp only [schedule_cons, hpd, hm, Bool.false_eq_true, if_false, if_true,
          Checkpoint.acceptEntry, hd, hrt]
        exact hout
      | false =>
        have hcar : isCarrier e = false := by simp [isCarrier, hpd, hm]
        have hr : partitionRanges [e] = [] := by simp [partitionRanges_singleton, isRangeCarrier, hm]
        have hacc : c.acceptEntry cfg e = c.acceptRow cfg e := by
          simp [Checkpoint.acceptEntry, hd, hm]
        rw [hcons, hr, List.nil_append, hacc]
        obtain ⟨ht', done, hsched, hflow⟩ := ht.acceptRow h hcar
        obtain ⟨carriers, hsame, hout⟩ := hstep ht'
        refine ⟨carriers, hsame, ?_⟩
        rw [hflow, partitionRanges_append, hr, List.append_nil] at hout
        have hknown : flushRanges (partitionRanges seen) (e :: rest) =
            if partitionRanges seen = [] then []
            else partitionRanges seen ++ (partitionRanges rest).take 1 := by
          rw [flushRanges, hcons, hr, List.nil_append]
        rw [hsched, hknown, List.filterMap_append, ← List.append_assoc]
        rw [filterMap_toList_map]
        exact hout

end Tracks

end Cqlite
