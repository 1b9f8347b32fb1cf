import Cqlite.Merge.StreamRefines
import Cqlite.Merge.Summary

/-! What the streaming merge leaves of a clustering key.

    It leaves the rows that the buffered merge would leave if the ranges that are popped too late for
    them did not exist, and the carriers of the buffered merge. So its output summarizes the input as
    well, but its rows may hold cells that a late range deletes. -/

namespace Cqlite

section Under

variable [DebugFmt] (schema : TableSchema) (key : DecoratedKey)

/-- The entries of a partition with other ranges. -/
def underRanges (seg : List MergeEntry) (rts : List RangeTombstone) : List MergeEntry :=
  seg.filter (fun e => !isRangeCarrier e) ++ rts.map fun rt =>
    (MergeEntry.new usizeMax key none rt.deletionTime (.live [])).withRangeDeletion rt

/-- The ranges popped in time for the group of a clustering key. -/
def rangesInTime (seg : List MergeEntry) (ck : Option ClusteringKey) : List RangeTombstone :=
  (rowsAt seg ck).head?.elim [] fun first => knownRanges schema seg first.clusteringKey

/-- The entries of a partition as the group of a clustering key meets them. -/
def inTime (seg : List MergeEntry) (ck : Option ClusteringKey) : List MergeEntry :=
  underRanges key seg (rangesInTime schema seg ck)

variable {schema key} {seg : List MergeEntry} {rts : List RangeTombstone} {ck : Option ClusteringKey}

omit [DebugFmt] in
@[simp] theorem partitionRanges_underRanges : partitionRanges (underRanges key seg rts) = rts := by
  have hcarriers : partitionRanges (rts.map fun rt =>
      (MergeEntry.new usizeMax key none rt.deletionTime (.live [])).withRangeDeletion rt) = rts := by
    induction rts with
    | nil => rfl
    | cons rt rts ih =>
      rw [List.map_cons, ← List.singleton_append, partitionRanges_append, ih]
      rfl
  rw [underRanges, partitionRanges_append, hcarriers, partitionRanges_eq, List.filter_filter]
  simp

@[simp] theorem rowsAt_underRanges : rowsAt (underRanges key seg rts) ck = rowsAt seg ck := by
  have hcarriers : (rts.map fun rt => (MergeEntry.new usizeMax key none rt.deletionTime
      (.live [])).withRangeDeletion rt).filter (fun e => !isCarrier e) = [] :=
    List.filter_eq_nil_iff.mpr fun e he => by
      obtain ⟨rt, -, rfl⟩ := List.mem_map.mp he
      exact Bool.false_ne_true
  have hrows : (underRanges key seg rts).filter (fun e => !isCarrier e) =
      seg.filter fun e => !isCarrier e := by
    rw [underRanges, List.filter_append, hcarriers, List.append_nil, List.filter_filter]
    refine List.filter_congr fun e _ => ?_
    cases hc : isCarrier e with
    | true => rfl
    | false => simp [isRangeCarrier_of_row hc]
  rw [rowsAt, hrows, rowsAt]

omit [DebugFmt] in
@[simp] theorem partitionDeletions_underRanges :
    partitionDeletions (underRanges key seg rts) = partitionDeletions seg := by
  have hcarriers : partitionDeletions (rts.map fun rt =>
      (MergeEntry.new usizeMax key none rt.deletionTime (.live [])).withRangeDeletion rt) = [] :=
    List.filterMap_eq_nil_iff.mpr fun e he => by
      obtain ⟨rt, -, rfl⟩ := List.mem_map.mp he
      rfl
  rw [underRanges, partitionDeletions_append, hcarriers, List.append_nil, partitionDeletions,
    List.filterMap_filter]
  refine List.filterMap_congr fun e _ => ?_
  cases hd : e.partitionDeletion with
  | none => simp
  | some d => simp [isRangeCarrier, MergeEntry.isPartitionDeleteCarrier, hd]

omit [DebugFmt] in
@[simp] theorem maxPartitionDeletion_underRanges :
    maxPartitionDeletion (underRanges key seg rts) = maxPartitionDeletion seg := by
  rw [maxPartitionDeletion, partitionDeletions_underRanges, maxPartitionDeletion]

theorem knownRanges_subset : ∀ rt ∈ knownRanges schema seg ck, rt ∈ partitionRanges seg := by
  intro rt hrt
  unfold knownRanges flushRanges at hrt
  split at hrt
  · cases hrt
  · rw [← List.takeWhile_append_dropWhile (p := reachedAt schema ck) (l := seg),
      partitionRanges_append]
    exact List.mem_append.mpr ((List.mem_append.mp hrt).imp_right List.mem_of_mem_take)

theorem rangesInTime_subset : ∀ rt ∈ rangesInTime schema seg ck, rt ∈ partitionRanges seg := by
  unfold rangesInTime
  cases (rowsAt seg ck).head? with
  | none => simp
  | some first => exact knownRanges_subset

/-- The group meets the cells of the partition. -/
theorem writes_inTime : (evidenceAt schema (inTime schema key seg ck) ck).writes =
    (evidenceAt schema seg ck).writes := by
  simp only [evidenceAt, inTime, rowsAt_underRanges]

/-- It meets no other deletions than those of the partition. -/
theorem deletedAt_of_inTime {k : CellKey} {t : Int}
    (h : DeletedAt schema (inTime schema key seg ck) ck k t) : DeletedAt schema seg ck k t := by
  cases h with
  | partition d hd => exact .partition d (by simpa [inTime] using hd)
  | range rt hrt hcov => exact .range rt (rangesInTime_subset rt (by simpa [inTime] using hrt)) hcov
  | row d hd => exact .row d (by simpa [inTime] using hd)
  | complex cd hcd hcol hpath => exact .complex cd (by simpa [inTime] using hcd) hcol hpath
  | dropped t ht => exact .dropped t ht

theorem aboveFloors_inTime {t : Int} (h : AboveFloors schema seg ck t) :
    AboveFloors schema (inTime schema key seg ck) ck t where
  partition d hd := h.partition d (by simpa [inTime] using hd)
  range rt hrt hcov := h.range rt (rangesInTime_subset rt (by simpa [inTime] using hrt)) hcov

theorem entriesIn_inTime {cks : List ClusteringKey} {ranges : List RangeTombstone}
    (h : EntriesIn cks ranges key seg) (ck : Option ClusteringKey) :
    EntriesIn cks ranges key (inTime schema key seg ck) := by
  have hmem : ∀ e ∈ inTime schema key seg ck, e ∈ seg ∨
      ∃ rt, e = (MergeEntry.new usizeMax key none rt.deletionTime (.live [])).withRangeDeletion rt := by
    intro e he
    refine (List.mem_append.mp he).imp List.mem_of_mem_filter fun he => ?_
    obtain ⟨rt, -, rfl⟩ := List.mem_map.mp he
    exact ⟨rt, rfl⟩
  refine ⟨fun e he => ?_, fun e he => ?_, fun rt hrt => ?_, fun e he hrow => ?_⟩
  · rcases hmem e he with he | ⟨rt, rfl⟩
    · exact h.sameKey e he
    · rfl
  · rcases hmem e he with he | ⟨rt, rfl⟩
    · exact h.keys e he
    · exact List.mem_cons_self
  · exact h.cuts rt (rangesInTime_subset rt (by simpa [inTime] using hrt))
  · rcases hmem e he with he | ⟨rt, rfl⟩
    · exact h.rowRange e he hrow
    · cases hrow

end Under

/-! ### Rows and carriers -/

section Output

variable [DebugFmt] {cfg : MergerConfig} {cks : List ClusteringKey} {ranges : List RangeTombstone}
  {key : DecoratedKey} {seg : List MergeEntry} {ck : Option ClusteringKey} {e : MergeEntry}

/-- What a streamed partition consists of. -/
theorem mem_streamPartition (h : SegmentInput cfg.schema key seg) :
    ∃ carriers, SameCarriers cfg key seg carriers ∧ ∀ e, e ∈ streamPartition cfg seg ↔
      e ∈ partitionCarrier cfg key seg ∨
      (∃ first rest, IsCluster seg first rest ∧
        mergedRow cfg key (inTime cfg.schema key seg first.clusteringKey) first rest = some e) ∨
      e ∈ carriers := by
  obtain ⟨carriers, hsame, hemits⟩ := emits_streamPartition h
  refine ⟨carriers, hsame, fun e => (hemits.mem e).trans (or_congr_right (or_congr_left ?_))⟩
  have hrow : ∀ first rest, IsCluster seg first rest →
      mergedRow cfg key (inTime cfg.schema key seg first.clusteringKey) first rest =
        flushRow cfg key (maxPartitionDeletion seg) ((first.clusteringKey, first :: rest),
          knownRanges cfg.schema seg first.clusteringKey) := by
    intro first rest hcl
    have hknown : rangesInTime cfg.schema seg first.clusteringKey =
        knownRanges cfg.schema seg first.clusteringKey := by
      rw [rangesInTime, hcl]
      rfl
    rw [mergedRow, inTime, maxPartitionDeletion_underRanges, shadowRanges,
      partitionRanges_underRanges, hknown]
    rfl
  rw [List.mem_filterMap]
  simp only [h.partition.mem_schemaClusters, h.partition.mem_clusteredRows]
  constructor
  · rintro ⟨_, ⟨first, rest, hcl, rfl⟩, he⟩
    exact ⟨first, rest, hcl, (hrow first rest hcl).trans he⟩
  · rintro ⟨first, rest, hcl, he⟩
    exact ⟨_, ⟨first, rest, hcl, rfl⟩, (hrow first rest hcl).symm.trans he⟩

variable (h : EntriesIn cks ranges key seg) (hs : KeySpace cfg.schema cks ranges)
  (hseg : SegmentInput cfg.schema key seg)

include h hs hseg

/-- The rows of a clustering key in the output are those of a buffered merge of what its group
    meets. -/
theorem mem_rowsAt_stream (hck : ck ∈ optionalKeys cks) : e ∈ rowsAt (streamPartition cfg seg) ck ↔
    e ∈ rowsAt (mergePartitionRows cfg (inTime cfg.schema key seg ck)) ck := by
  obtain ⟨carriers, hsame, hmem⟩ := mem_streamPartition hseg
  have hin : EntriesIn cks ranges key (inTime cfg.schema key seg ck) := entriesIn_inTime h ck
  rw [hin.mem_rowsAt_output hs hck, inTime, rowsAt_underRanges, ← inTime]
  have hkey : ∀ {first}, first ∈ seg → cmpOptionKey first.clusteringKey ck = .eq →
      rowsAt seg first.clusteringKey = rowsAt seg ck ∧
        inTime cfg.schema key seg first.clusteringKey = inTime cfg.schema key seg ck := by
    intro first hmem hk
    have hrows := h.rowsAt_congr hs (h.keys first hmem) hck hk
    exact ⟨hrows, by simp only [inTime, rangesInTime, hrows]⟩
  have hrow : ∀ x, x ∈ rowsAt seg ck → x ∈ seg ∧ cmpOptionKey x.clusteringKey ck = .eq := by
    intro x hx
    obtain ⟨hx, hk⟩ := List.mem_filter.mp hx
    exact ⟨List.mem_of_mem_filter hx, by simpa using hk⟩
  constructor
  · intro he
    obtain ⟨he, hk⟩ := List.mem_filter.mp he
    obtain ⟨he, hc⟩ := List.mem_filter.mp he
    rcases (hmem e).mp he with he | ⟨first, rest, hcl, he⟩ | he
    · obtain ⟨_, _, rfl⟩ := partitionCarrier_frame he
      cases hc
    · rw [mergedRow_clusteringKey he] at hk
      have hfirst : first ∈ seg := hcl.mem (by simp)
      obtain ⟨hrows, htime⟩ := hkey hfirst (by simpa using hk)
      exact ⟨first, rest, hrows ▸ hcl, htime ▸ he⟩
    · obtain ⟨e', he', hs'⟩ := exists_of_forall₂ hsame.same he
      have hcar := (emits_mergePartitionRows hseg).range e' he'
      rw [← hs'.isRangeCarrier_eq] at hcar
      rw [Bool.not_eq_true'] at hc
      rw [isRangeCarrier_of_row hc] at hcar
      cases hcar
  · rintro ⟨first, rest, hrows, he⟩
    obtain ⟨hfirst, hk⟩ := hrow first (by rw [hrows]; simp)
    obtain ⟨hcongr, htime⟩ := hkey hfirst hk
    have hcl : IsCluster seg first rest := hcongr.trans hrows
    have hplain := hin.mergedRow_plain (by rw [IsCluster, inTime, rowsAt_underRanges]; exact hcl) he
    refine List.mem_filter.mpr ⟨List.mem_filter.mpr ⟨(hmem e).mpr (.inr (.inl
      ⟨first, rest, hcl, htime.symm ▸ he⟩)), by simp [hplain.2.1]⟩, ?_⟩
    rw [mergedRow_clusteringKey he]
    simpa using hk

omit hs hseg in
theorem inTimeRow_plain {first : MergeEntry} {rest : List MergeEntry} (hcl : IsCluster seg first rest)
    (he : mergedRow cfg key (inTime cfg.schema key seg first.clusteringKey) first rest = some e) :
    e.key = key ∧ isCarrier e = false ∧ e.rangeDeletion = none := by
  refine (entriesIn_inTime h first.clusteringKey).mergedRow_plain ?_ he
  rw [IsCluster, inTime, rowsAt_underRanges]
  exact hcl

/-- The output is input for another merge over the same key space. -/
theorem entriesIn_stream : EntriesIn cks ranges key (streamPartition cfg seg) := by
  obtain ⟨carriers, hsame, hmem⟩ := mem_streamPartition hseg
  have hout := h.output hs
  have hdeletion : ∀ e ∈ partitionCarrier cfg key seg, e ∈ mergePartitionRows cfg seg := fun e he =>
    hseg.partition.mem_mergePartitionRows.mpr (.inr (.inr he))
  have hcarrier : ∀ e ∈ carriers, e.key = key ∧ e.clusteringKey = none ∧ isCarrier e = true := by
    intro e he
    obtain ⟨e', he', hs'⟩ := exists_of_forall₂ hsame.same he
    have hcar := (emits_mergePartitionRows hseg).range e' he'
    have hkey := hout.sameKey e' (hseg.partition.mem_mergePartitionRows.mpr (.inr (.inl he')))
    obtain ⟨_, _, rfl⟩ := rangeCarriers_frame he'
    obtain ⟨_, _, -, -, -, heq⟩ := id hs'
    refine ⟨(congrArg MergeEntry.key heq).trans hkey, congrArg MergeEntry.clusteringKey heq, ?_⟩
    rw [← hs'.isRangeCarrier_eq, isRangeCarrier, Bool.and_eq_true] at hcar
    rw [isCarrier, hcar.2, Bool.or_true]
  refine ⟨fun e he => ?_, fun e he => ?_, fun rt hrt => ?_, fun e he hc => ?_⟩
  · rcases (hmem e).mp he with he | ⟨first, rest, hcl, he⟩ | he
    · exact hout.sameKey e (hdeletion e he)
    · exact (inTimeRow_plain h hcl he).1
    · exact (hcarrier e he).1
  · rcases (hmem e).mp he with he | ⟨first, rest, hcl, he⟩ | he
    · exact hout.keys e (hdeletion e he)
    · rw [mergedRow_clusteringKey he]
      exact h.keys first (hcl.mem (by simp))
    · rw [(hcarrier e he).2.1]
      exact List.mem_cons_self
  · obtain ⟨e, he, hert⟩ := List.mem_filterMap.mp hrt
    obtain ⟨he, hc⟩ := List.mem_filter.mp he
    rcases (hmem e).mp he with he | ⟨first, rest, hcl, he⟩ | he
    · exact hout.cuts rt (List.mem_filterMap.mpr ⟨e, List.mem_filter.mpr ⟨hdeletion e he, hc⟩, hert⟩)
    · rw [(inTimeRow_plain h hcl he).2.2] at hert
      cases hert
    · -- the cuts of a carrier occur in the partition, hence in the key space
      intro c hcut
      rcases List.mem_append.mp (hsame.cuts rt (List.mem_filterMap.mpr ⟨e, he, hert⟩) c hcut)
        with hin | hin
      · obtain ⟨x, hx, rfl⟩ := List.mem_map.mp hin
        obtain ⟨e', he', hk⟩ := List.mem_filterMap.mp hx
        exact rowCut_mem (mem_optionalKeys.mp (h.keys e' he') x hk)
      · obtain ⟨rt', hrt', hcut⟩ := List.mem_flatMap.mp hin
        exact h.cuts rt' hrt' c hcut
  · rcases (hmem e).mp he with he | ⟨first, rest, hcl, he⟩ | he
    · exact hout.rowRange e (hdeletion e he) hc
    · exact (inTimeRow_plain h hcl he).2.2
    · rw [(hcarrier e he).2.2] at hc
      cases hc

/-- The carriers of both mergers delete the same. -/
theorem carrierDeletes_stream (hck : ck ∈ optionalKeys cks) {t : Int} :
    CarrierDeletes cfg.schema (streamPartition cfg seg) ck t ↔
      CarrierDeletes cfg.schema (mergePartitionRows cfg seg) ck t := by
  obtain ⟨carriers, hsame, hemits⟩ := emits_streamPartition hseg
  have hbuffered := emits_mergePartitionRows hseg
  have hdeletion : ∀ {out rows carriers : List MergeEntry},
      Emits out (partitionCarrier cfg key seg) rows carriers → ∀ d, d ∈ partitionDeletions out ↔
        ∃ e ∈ partitionCarrier cfg key seg, e.partitionDeletion = some d := by
    intro out rows carriers hout d
    refine List.mem_filterMap.trans ⟨?_, ?_⟩
    · rintro ⟨e, he, hd⟩
      exact ⟨e, (hout.mem_deletion (by simp [MergeEntry.isPartitionDeleteCarrier, hd])).mp he, hd⟩
    · rintro ⟨e, he, hd⟩
      exact ⟨e, (hout.mem e).mpr (.inl he), hd⟩
  have hrange : ∀ {out rows carriers : List MergeEntry},
      Emits out (partitionCarrier cfg key seg) rows carriers → ∀ rt, rt ∈ partitionRanges out ↔
        ∃ e ∈ carriers, e.rangeDeletion = some rt := by
    intro out rows carriers hout rt
    refine List.mem_filterMap.trans ⟨?_, ?_⟩
    · rintro ⟨e, he, hd⟩
      obtain ⟨he, hc⟩ := List.mem_filter.mp he
      exact ⟨e, (hout.mem_carriers hc).mp he, hd⟩
    · rintro ⟨e, he, hd⟩
      exact ⟨e, List.mem_filter.mpr ⟨(hout.mem e).mpr (.inr (.inr he)), hout.range e he⟩, hd⟩
  have hcover : ∀ {a b}, a ∈ partitionRanges (streamPartition cfg seg) →
      b ∈ partitionRanges (mergePartitionRows cfg seg) → SameRange cfg.schema a b →
      ((∃ x ∈ ck, rangeTombstoneCoversCk cfg.schema x a = true) ↔
        ∃ x ∈ ck, rangeTombstoneCoversCk cfg.schema x b = true) := by
    intro a b ha hb hsame
    refine exists_congr fun x => and_congr_right fun hx => ?_
    exact hs.ordered.covers_sameRange (entriesIn_stream h hs hseg).cuts (h.output hs).cuts ha hb hsame
      (mem_optionalKeys.mp hck x hx)
  have hout := hdeletion hbuffered
  have hranges := hrange hbuffered
  constructor
  · rintro (⟨d, hd⟩ | ⟨rt, hrt, hcov⟩)
    · exact .partition d ((hout d).mpr ((hdeletion hemits d).mp hd))
    · obtain ⟨e, he, hert⟩ := (hrange hemits rt).mp hrt
      obtain ⟨e', he', ra, rb, hra, hrb, hsr, -⟩ := exists_of_forall₂ hsame.same he
      obtain rfl : ra = rt := Option.some.inj (hra.symm.trans hert)
      have hrt' := (hranges rb).mpr ⟨e', he', hrb⟩
      rw [hsr.2.2.1]
      exact .range rb hrt' ((hcover hrt hrt' hsr).mp hcov)
  · rintro (⟨d, hd⟩ | ⟨rt, hrt, hcov⟩)
    · exact .partition d ((hdeletion hemits d).mpr ((hout d).mp hd))
    · obtain ⟨e, he, hert⟩ := (hranges rt).mp hrt
      obtain ⟨e', he', ra, rb, hra, hrb, hsr, -⟩ := exists_of_forall₂ hsame.same.flip he
      obtain rfl : rb = rt := Option.some.inj (hrb.symm.trans hert)
      have hrt' := (hrange hemits ra).mpr ⟨e', he', hra⟩
      rw [← hsr.2.2.1]
      exact .range ra hrt' ((hcover hrt' hrt hsr).mpr hcov)

end Output

/-! ### The summary -/

/-- What the streaming merge lets go of a clustering key: what the buffered merge lets go, but a row is
    degraded by what its group meets. -/
def streamLostAt [DebugFmt] (cfg : MergerConfig) (key : DecoratedKey) (seg : List MergeEntry)
    (ck : Option ClusteringKey) : Evidence CellData CellKey Int where
  writes := (lostAt cfg seg ck).writes
  deletes k := {t | DeletedAt cfg.schema seg ck k t ∧ (PurgedAt cfg seg ck k t ∨
    ComplexLost cfg (inTime cfg.schema key seg ck) ck ∧ ∃ cd ∈ groupComplex (rowsAt seg ck),
      cd.column = k.1 ∧ k.2.isSome = true ∧ cd.markedForDeleteAt = t)}

section Summary

variable [DebugFmt] {cfg : MergerConfig} {cks : List ClusteringKey} {ranges : List RangeTombstone}
  {key : DecoratedKey} {seg : List MergeEntry} {ck : Option ClusteringKey}
  (h : EntriesIn cks ranges key seg) (hs : KeySpace cfg.schema cks ranges)
  (hseg : SegmentInput cfg.schema key seg) (hck : ck ∈ optionalKeys cks)

/-- What is newer than the deletions of the partition is newer than those its group meets. -/
theorem outlasts_inTime {c : CellData} {clock : Option Int}
    (hc : (evidenceAt cfg.schema seg ck).Outlasts (cellReading clock) c) :
    (evidenceAt cfg.schema (inTime cfg.schema key seg ck) ck).Outlasts (cellReading clock) c where
  maximal b hb hk := hc.maximal b (writes_inTime.subset hb) hk
  undeleted t ht := hc.undeleted t (deletedAt_of_inTime ht)

include h hs hseg hck

theorem writes_stream : (evidenceAt cfg.schema (streamPartition cfg seg) ck).writes =
    (evidenceAt cfg.schema (mergePartitionRows cfg (inTime cfg.schema key seg ck)) ck).writes := by
  ext c
  simp only [evidenceAt, groupCells, Set.mem_ofPred_eq, List.mem_flatMap,
    mem_rowsAt_stream h hs hseg hck]

/-- A live cell of the output is a cell of the partition that outlasts all its group meets. -/
theorem of_stream_alive {c : CellData}
    (hc : c ∈ (evidenceAt cfg.schema (streamPartition cfg seg) ck).writes)
    (halive : ¬ CellDead cfg.settings.now c) : c ∈ (evidenceAt cfg.schema seg ck).writes ∧
      (evidenceAt cfg.schema (inTime cfg.schema key seg ck) ck).Outlasts
        (cellReading cfg.settings.now) c := by
  rw [writes_stream h hs hseg hck] at hc
  obtain ⟨hmem, hout⟩ := (entriesIn_inTime h ck).of_output_alive hs hck hc halive
  exact ⟨writes_inTime.subset hmem, hout⟩

theorem stream_deletes_down {k : CellKey} {t : Int}
    (ht : DeletedAt cfg.schema (streamPartition cfg seg) ck k t) :
    ∃ u, DeletedAt cfg.schema seg ck k u ∧ t ≤ u := by
  have hcarrier : CarrierDeletes cfg.schema (streamPartition cfg seg) ck t →
      ∃ u, DeletedAt cfg.schema seg ck k u ∧ t ≤ u := fun ht =>
    h.deletes_down hs hck (((carrierDeletes_stream h hs hseg hck).mp ht).deletedAt k)
  have hrow : DeletedAt cfg.schema (mergePartitionRows cfg (inTime cfg.schema key seg ck)) ck k t →
      ∃ u, DeletedAt cfg.schema seg ck k u ∧ t ≤ u := by
    intro ht
    obtain ⟨u, hu, hle⟩ := (entriesIn_inTime h ck).deletes_down hs hck ht
    exact ⟨u, deletedAt_of_inTime hu, hle⟩
  cases ht with
  | partition d hd => exact hcarrier (.partition d hd)
  | range rt hrt hcov => exact hcarrier (.range rt hrt hcov)
  | row d hd =>
    obtain ⟨e, he, hed⟩ := List.mem_flatMap.mp hd
    exact hrow (.row d (List.mem_flatMap.mpr ⟨e, (mem_rowsAt_stream h hs hseg hck).mp he, hed⟩))
  | complex cd hcd hcol hpath =>
    obtain ⟨e, he, hed⟩ := List.mem_flatMap.mp hcd
    exact hrow (.complex cd (List.mem_flatMap.mpr
      ⟨e, (mem_rowsAt_stream h hs hseg hck).mp he, hed⟩) hcol hpath)
  | dropped t ht => exact ⟨t, .dropped t ht, le_rfl⟩

/-- A deletion of the partition survives in the output, is bounded there, or is let go. -/
theorem stream_deletes_up {k : CellKey} {t : Int} (ht : DeletedAt cfg.schema seg ck k t) :
    (∃ u, DeletedAt cfg.schema (streamPartition cfg seg) ck k u ∧ t ≤ u) ∨
      t ∈ (streamLostAt cfg key seg ck).deletes k := by
  have hin : EntriesIn cks ranges key (inTime cfg.schema key seg ck) := entriesIn_inTime h ck
  have hback : ∀ {u}, t ≤ u → ((∃ v, CarrierDeletes cfg.schema (mergePartitionRows cfg seg) ck v ∧
      u ≤ v) ∨ PurgedAt cfg seg ck k u) →
      (∃ u, DeletedAt cfg.schema (streamPartition cfg seg) ck k u ∧ t ≤ u) ∨
        t ∈ (streamLostAt cfg key seg ck).deletes k := by
    rintro u hle (⟨v, hv, hle'⟩ | hpurged)
    · exact .inl ⟨v, ((carrierDeletes_stream h hs hseg hck).mpr hv).deletedAt k, hle.trans hle'⟩
    · exact .inr ⟨ht, .inl (hpurged.mono hle)⟩
  -- what the group drops under a deletion it meets is bounded by the carriers
  have hfloors : ∀ {u}, t ≤ u → ¬ AboveFloors cfg.schema (inTime cfg.schema key seg ck) ck u →
      (∃ u, DeletedAt cfg.schema (streamPartition cfg seg) ck k u ∧ t ≤ u) ∨
        t ∈ (streamLostAt cfg key seg ck).deletes k :=
    fun hle hf => hback hle (h.floors_up hs hck (fun ha => hf (aboveFloors_inTime ha)) k)
  have hrows : rowsAt (inTime cfg.schema key seg ck) ck = rowsAt seg ck := rowsAt_underRanges
  cases id ht with
  | partition d hd => exact hback le_rfl (h.partition_up hs hd ck k)
  | range rt hrt hcov => exact hback le_rfl (h.range_up hs hck hrt hcov k)
  | row d hd =>
    rw [← hrows] at hd
    rcases hin.row_cases hs hck hd with ⟨w, hw, hle⟩ | ⟨u, hle, hf⟩ | ⟨w, hw, hp, hle⟩
    · obtain ⟨e, he, hew⟩ := List.mem_flatMap.mp hw
      exact .inl ⟨_, .row w (List.mem_flatMap.mpr
        ⟨e, (mem_rowsAt_stream h hs hseg hck).mpr he, hew⟩), hle⟩
    · exact hfloors hle hf
    · rw [hrows] at hw
      exact .inr ⟨ht, .inl (.row w hw hp hle)⟩
  | complex cd hcd hcol hpath =>
    rw [← hrows] at hcd
    rcases hin.complex_cases hs hck hcd with ⟨w, hw, hwcol, hle⟩ | ⟨u, hle, hf⟩ |
      ⟨w, hw, hwcol, hp, hle⟩ | hlost
    · obtain ⟨e, he, hew⟩ := List.mem_flatMap.mp hw
      exact .inl ⟨_, .complex w (List.mem_flatMap.mpr
        ⟨e, (mem_rowsAt_stream h hs hseg hck).mpr he, hew⟩) (hwcol.trans hcol) hpath, hle⟩
    · exact hfloors hle hf
    · rw [hrows] at hw
      exact .inr ⟨ht, .inl (.complex w hw (hwcol.trans hcol) hpath hp hle)⟩
    · rw [hrows] at hcd
      exact .inr ⟨ht, .inr ⟨hlost, cd, hcd, hcol, hpath, rfl⟩⟩
  | dropped t ht => exact .inl ⟨t, .dropped t ht, le_rfl⟩

/-- The output of the streaming merge summarizes its input. -/
theorem summarizes_stream
    (hties : (evidenceAt cfg.schema seg ck).NoTies (cellReading cfg.settings.now)) :
    Evidence.Summarizes (cellReading cfg.settings.now)
      (evidenceAt cfg.schema (streamPartition cfg seg) ck) (evidenceAt cfg.schema seg ck)
      (streamLostAt cfg key seg ck) := by
  have hwrites : (evidenceAt cfg.schema (inTime cfg.schema key seg ck) ck).writes =
      (evidenceAt cfg.schema seg ck).writes := writes_inTime
  have htime : (evidenceAt cfg.schema (inTime cfg.schema key seg ck) ck).NoTies
      (cellReading cfg.settings.now) :=
    fun a ha b hb => hties a (hwrites ▸ ha) b (hwrites ▸ hb)
  have hsum := (entriesIn_inTime h ck).summarizes hs hck htime
  refine ⟨?_, ?_, fun k t ht => stream_deletes_down h hs hseg hck ht,
    fun k t ht => stream_deletes_up h hs hseg hck ht, fun c hc => hc.1, fun k t ht => ht.1⟩
  · intro a ha
    rw [writes_stream h hs hseg hck] at ha
    obtain ⟨c, hc, hrest⟩ := hsum.source a ha
    exact ⟨c, hwrites.subset hc, hrest⟩
  · intro c hc hout
    rw [writes_stream h hs hseg hck]
    refine (hsum.kept c (hwrites.superset hc) (outlasts_inTime hout)).imp_right ?_
    rintro ⟨hdead, hlost, -, w, hw, hrest⟩
    exact ⟨hdead, hc, hdead, w, hwrites.subset hw, hrest⟩

end Summary

end Cqlite
