import Cqlite.Merge.Denotation

/-! The output of a merge summarizes its input.

    For every clustering key the evidence of the output stands for the evidence of the input, up to
    what the purge gate let go and up to the complex deletions of a degraded row. In particular the
    live cells of an output are the visible cells of the input, purged or not. -/

namespace Cqlite

variable [DebugFmt]

/-! ### Coalesced ranges at a key -/

variable {rt : RangeTombstone} {d : Deletion} {c : CellData}

section Ranges

variable {schema : TableSchema} {cks : List ClusteringKey} {ranges rts : List RangeTombstone}

/-- A coalesced range that covers a key has the deletion time of a range that covers it. -/
theorem KeysOrdered.exists_of_coalesce (h : KeysOrdered schema cks ranges)
    (hin : RangesIn cks ranges rts) {x : ClusteringKey} (hx : x ∈ cks)
    (hrt : rt ∈ coalescePartitionRangeTombstones schema rts)
    (hcov : rangeTombstoneCoversCk schema x rt = true) :
    ∃ rt₀ ∈ rts, rangeTombstoneCoversCk schema x rt₀ = true ∧ rt₀.deletionTime = rt.deletionTime := by
  have hin' : RangesIn cks ranges (coalescePartitionRangeTombstones schema rts) :=
    KeysOrdered.coalesce_rangesIn hin
  have hw : Coverage.WeightAt deletionValue
      ((coalescePartitionRangeTombstones schema rts).map (rankSeg schema cks ranges))
      (cutRank schema cks ranges (rowCut x)) (rankSeg schema cks ranges rt).weight :=
    (h.inOrder_coalesce hin).weightAt_iff.mpr
      ⟨_, List.mem_map_of_mem hrt, (h.covers_iff hin' hx hrt).mp hcov, rfl⟩
  obtain ⟨seg, hseg, hc, hweight, -⟩ := (h.sameWeight_coalesce hin _ _).mp hw
  obtain ⟨rt₀, hrt₀, rfl⟩ := List.mem_map.mp hseg
  exact ⟨rt₀, hrt₀, (h.covers_iff hin hx hrt₀).mpr hc, congrArg Prod.fst hweight⟩

/-- A range that covers a key is dominated by a coalesced range that covers it. -/
theorem KeysOrdered.exists_coalesce (h : KeysOrdered schema cks ranges)
    (hin : RangesIn cks ranges rts) {x : ClusteringKey} (hx : x ∈ cks) (hrt : rt ∈ rts)
    (hcov : rangeTombstoneCoversCk schema x rt = true) :
    ∃ rt' ∈ coalescePartitionRangeTombstones schema rts,
      rangeTombstoneCoversCk schema x rt' = true ∧ rt.deletionTime ≤ rt'.deletionTime := by
  obtain ⟨w, hw, hle⟩ := h.exists_weightAt hin hx hrt hcov
  have hw' := (h.sameWeight_coalesce hin _ _).mpr hw
  obtain ⟨seg, hseg, hc, rfl⟩ := (h.inOrder_coalesce hin).weightAt_iff.mp hw'
  obtain ⟨rt', hrt', rfl⟩ := List.mem_map.mp hseg
  exact ⟨rt', hrt', (h.covers_iff (KeysOrdered.coalesce_rangesIn hin) hx hrt').mpr hc, hle⟩

end Ranges

/-! ### Carriers of the output -/

section Carriers

variable {cfg : MergerConfig} {cks : List ClusteringKey} {ranges : List RangeTombstone}
  {key : DecoratedKey} {rows : List MergeEntry}

/-- The partition deletion of the output: the one in force, unless purged. -/
theorem EntriesIn.mem_partitionDeletions_output (h : EntriesIn cks ranges key rows)
    (hs : KeySpace cfg.schema cks ranges) :
    d ∈ partitionDeletions (mergePartitionRows cfg rows) ↔
      maxPartitionDeletion rows = some d ∧ cfg.settings.purges d.1 d.2 = false := by
  have hin := h.partitionInput hs
  constructor
  · intro hd
    obtain ⟨e, he, hed⟩ := List.mem_filterMap.mp hd
    rcases hin.mem_mergePartitionRows.mp he with ⟨first, rest, hcl, hrow⟩ | he | he
    · have hplain := (h.mergedRow_plain hcl hrow).2.1
      simp [isCarrier, MergeEntry.isPartitionDeleteCarrier, hed] at hplain
    · obtain ⟨k, rt, rfl⟩ := rangeCarriers_frame he
      cases hed
    · rw [Option.mem_def, partitionCarrier, emitPartitionDeletion] at he
      split at he
      · rename_i d' k hd' hk
        split at he
        · cases he
        · rename_i hp
          cases he
          obtain rfl : d' = d := Option.some.inj hed
          exact ⟨hd', by simpa using hp⟩
      · cases he
  · rintro ⟨hd, hp⟩
    have hne : partitionDeletions rows ≠ [] :=
      List.ne_nil_of_mem (Lww.latest_mem deletionSupersedes_iff hd)
    refine List.mem_filterMap.mpr ⟨(MergeEntry.new usizeMax key none d.1
      (.tombstone d.1 d.2)).withPartitionDeletion d, ?_, rfl⟩
    refine hin.mem_mergePartitionRows.mpr (.inr (.inr ?_))
    simp [partitionCarrier, emitPartitionDeletion, hd, hne, hp]

/-- The ranges of the output: the coalesced ones above the partition deletion, unless purged. -/
theorem EntriesIn.mem_partitionRanges_output (h : EntriesIn cks ranges key rows)
    (hs : KeySpace cfg.schema cks ranges) :
    rt ∈ partitionRanges (mergePartitionRows cfg rows) ↔
      rt ∈ coalescePartitionRangeTombstones cfg.schema (partitionRanges rows) ∧
      Above (partitionFloor (maxPartitionDeletion rows)) rt.deletionTime ∧
      cfg.settings.purges rt.deletionTime rt.localDeletionTime = false := by
  have hin := h.partitionInput hs
  have habove : ∀ t, ((maxPartitionDeletion rows).all fun d => d.1 < t) = true ↔
      Above (partitionFloor (maxPartitionDeletion rows)) t := by
    intro t
    cases maxPartitionDeletion rows <;> simp [partitionFloor]
  have hmem : ∀ e, e ∈ rangeCarriers cfg key rows ↔
      ∃ rt ∈ coalescePartitionRangeTombstones cfg.schema (partitionRanges rows),
        Above (partitionFloor (maxPartitionDeletion rows)) rt.deletionTime ∧
        cfg.settings.purges rt.deletionTime rt.localDeletionTime = false ∧
        e = (MergeEntry.new usizeMax key none rt.deletionTime (.live [])).withRangeDeletion rt := by
    intro e
    simp only [rangeCarriers, retainRanges, shadowRanges, List.mem_filterMap, List.mem_filter,
      List.mem_map, habove, emitRange]
    constructor
    · rintro ⟨_, ⟨⟨rt, hrt, rfl⟩, ha⟩, hem⟩
      split at hem
      · cases hem
      · rename_i hp
        cases hem
        exact ⟨rt, hrt, ha, by simpa using hp, rfl⟩
    · rintro ⟨rt, hrt, ha, hp, rfl⟩
      exact ⟨(key, rt), ⟨⟨rt, hrt, rfl⟩, ha⟩, by simp [hp]⟩
  constructor
  · intro hrt
    obtain ⟨e, he, hed⟩ := List.mem_filterMap.mp hrt
    obtain ⟨he, hc⟩ := List.mem_filter.mp he
    rcases hin.mem_mergePartitionRows.mp he with ⟨first, rest, hcl, hrow⟩ | he | he
    · rw [(h.mergedRow_plain hcl hrow).2.2] at hed
      cases hed
    · obtain ⟨rt', hrt', ha, hp, rfl⟩ := (hmem e).mp he
      obtain rfl : rt' = rt := by simpa [MergeEntry.withRangeDeletion] using hed
      exact ⟨hrt', ha, hp⟩
    · obtain ⟨k, d, rfl⟩ := partitionCarrier_frame he
      cases hc
  · rintro ⟨hrt, ha, hp⟩
    refine List.mem_filterMap.mpr ⟨_, List.mem_filter.mpr ⟨hin.mem_mergePartitionRows.mpr
      (.inr (.inl ((hmem _).mpr ⟨rt, hrt, ha, hp, rfl⟩))), rfl⟩, rfl⟩

end Carriers

/-! ### The summary -/

/-- A time at or below a deletion that reaches the cells `k` and passes the purge gate. -/
inductive PurgedAt (cfg : MergerConfig) (rows : List MergeEntry) (ck : Option ClusteringKey)
    (k : CellKey) (t : Int) : Prop
  | partition (d : Deletion) (hd : d ∈ partitionDeletions rows)
      (hp : cfg.settings.purges d.1 d.2 = true) (hle : t ≤ d.1)
  | range (rt : RangeTombstone)
      (hrt : rt ∈ coalescePartitionRangeTombstones cfg.schema (partitionRanges rows))
      (hcov : ∃ x ∈ ck, rangeTombstoneCoversCk cfg.schema x rt = true)
      (hp : cfg.settings.purges rt.deletionTime rt.localDeletionTime = true) (hle : t ≤ rt.deletionTime)
  | row (d : Deletion) (hd : d ∈ groupRowDeletions (rowsAt rows ck))
      (hp : cfg.settings.purges d.1 d.2 = true) (hle : t ≤ d.1)
  | complex (cd : ComplexDeletion) (hcd : cd ∈ groupComplex (rowsAt rows ck)) (hcol : cd.column = k.1)
      (hpath : k.2.isSome = true)
      (hp : cfg.settings.purges cd.markedForDeleteAt cd.localDeletionTime = true)
      (hle : t ≤ cd.markedForDeleteAt)

namespace PurgedAt

variable {cfg : MergerConfig} {rows : List MergeEntry} {ck : Option ClusteringKey} {k : CellKey}
  {t u : Int}

theorem mono (h : PurgedAt cfg rows ck k u) (htu : t ≤ u) : PurgedAt cfg rows ck k t := by
  cases h with
  | partition d hd hp hle => exact .partition d hd hp (htu.trans hle)
  | range rt hrt hcov hp hle => exact .range rt hrt hcov hp (htu.trans hle)
  | row d hd hp hle => exact .row d hd hp (htu.trans hle)
  | complex cd hcd hcol hpath hp hle => exact .complex cd hcd hcol hpath hp (htu.trans hle)

theorem exists_purges (h : PurgedAt cfg rows ck k t) :
    ∃ u ldt, cfg.settings.purges u ldt = true ∧ t ≤ u := by
  cases h with
  | partition d hd hp hle => exact ⟨_, _, hp, hle⟩
  | range rt hrt hcov hp hle => exact ⟨_, _, hp, hle⟩
  | row d hd hp hle => exact ⟨_, _, hp, hle⟩
  | complex cd hcd hcol hpath hp hle => exact ⟨_, _, hp, hle⟩

theorem lt_maxPurgeable (h : PurgedAt cfg rows ck k t) : t < cfg.settings.maxPurgeable := by
  obtain ⟨u, ldt, hp, hle⟩ := h.exists_purges
  exact lt_of_le_of_lt hle (MergeSettings.lt_maxPurgeable_of_purges hp)

end PurgedAt

/-- What a merge lets go: the tombstones and deletions that pass the purge gate, with what is older,
    and the complex deletions of a degraded row. -/
def lostAt (cfg : MergerConfig) (rows : List MergeEntry) (ck : Option ClusteringKey) :
    Evidence CellData CellKey Int where
  writes := {c | c ∈ (evidenceAt cfg.schema rows ck).writes ∧ CellDead cfg.settings.now c ∧
    ∃ w ∈ (evidenceAt cfg.schema rows ck).writes, w.cellKey = c.cellKey ∧ cellRank w = cellRank c ∧
      cellPurgeable cfg.settings (expireCell cfg.settings.now w) = true}
  deletes k := {t | DeletedAt cfg.schema rows ck k t ∧ (PurgedAt cfg rows ck k t ∨
    ComplexLost cfg rows ck ∧ ∃ cd ∈ groupComplex (rowsAt rows ck), cd.column = k.1 ∧
      k.2.isSome = true ∧ cd.markedForDeleteAt = t)}

theorem lt_maxPurgeable_of_lost {cfg : MergerConfig} {rows : List MergeEntry}
    {ck : Option ClusteringKey} (hc : c ∈ (lostAt cfg rows ck).writes) :
    c.timestamp < cfg.settings.maxPurgeable := by
  obtain ⟨-, -, w, -, -, hrank, hp⟩ := hc
  exact lt_of_le_of_lt (timestamp_le_of_cellRank_le hrank.ge) (of_cellPurgeable hp).2

section Summary

variable {cfg : MergerConfig} {cks : List ClusteringKey} {ranges : List RangeTombstone}
  {key : DecoratedKey} {rows : List MergeEntry} {ck : Option ClusteringKey}

/-- A kept cell above the floors loses to nothing and is newer than every deletion. -/
theorem outlasts_of_kept (hkept : CellKept cfg.settings (rowsAt rows ck) c)
    (hfloors : AboveFloors cfg.schema rows ck c.timestamp) :
    (evidenceAt cfg.schema rows ck).Outlasts (cellReading cfg.settings.now) c := by
  refine ⟨fun b hb hk => hkept.unshadowed.wins.le hb.1 hk, ?_⟩
  intro t ht
  cases ht with
  | partition d hd => exact hfloors.partition d hd
  | range rt hrt hcov => exact hfloors.range rt hrt hcov
  | row d hd => exact hkept.unshadowed.row d hd
  | complex cd hcd hcol hpath =>
    rw [← not_le]
    intro hle
    exact hkept.unshadowed.complex cd hcd ⟨hcol, hpath, hle⟩
  | dropped t ht =>
    have hdrop := hkept.notDropped
    have ht' : cfg.settings.dropped c.column = some t := ht
    rw [survivesDrop, ht', Option.all_some] at hdrop
    exact of_decide_eq_true hdrop

/-- A cell that loses to nothing and is newer than every deletion is unshadowed, if it is the first
    of its kind. -/
theorem unshadowed_of_outlasts
    (hwin : Lww.IsWinner CellData.cellKey cellRank (groupCells (rowsAt rows ck)) c)
    (hund : (evidenceAt cfg.schema rows ck).Undeleted (cellReading cfg.settings.now) c) :
    CellUnshadowed (rowsAt rows ck) c ∧ survivesDrop cfg.settings.dropped c = true ∧
      AboveFloors cfg.schema rows ck c.timestamp := by
  refine ⟨⟨hwin, ?_, fun d hd => hund d.1 (.row d hd)⟩, ?_,
    ⟨fun d hd => hund d.1 (.partition d hd), fun rt hrt hcov => hund _ (.range rt hrt hcov)⟩⟩
  · rintro cd hcd ⟨hcol, hpath, hle⟩
    exact absurd (hund _ (.complex cd hcd hcol hpath)) (not_lt.mpr hle)
  · rw [survivesDrop]
    cases hd : cfg.settings.dropped c.column with
    | none => rfl
    | some t => exact decide_eq_true (hund t (.dropped t hd))

/-- A time at which the carriers delete everything of a clustering key. -/
inductive CarrierDeletes (schema : TableSchema) (rows : List MergeEntry) (ck : Option ClusteringKey) :
    Int → Prop
  | partition (d : Deletion) (hd : d ∈ partitionDeletions rows) : CarrierDeletes schema rows ck d.1
  | range (rt : RangeTombstone) (hrt : rt ∈ partitionRanges rows)
      (hcov : ∃ x ∈ ck, rangeTombstoneCoversCk schema x rt = true) :
      CarrierDeletes schema rows ck rt.deletionTime

variable {t : Int}

theorem CarrierDeletes.deletedAt {schema : TableSchema} (h : CarrierDeletes schema rows ck t)
    (k : CellKey) : DeletedAt schema rows ck k t := by
  cases h with
  | partition d hd => exact .partition d hd
  | range rt hrt hcov => exact .range rt hrt hcov

namespace EntriesIn

section

variable (h : EntriesIn cks ranges key rows) (hs : KeySpace cfg.schema cks ranges)

include h hs

/-- A partition deletion of the input is bounded by one of the output, or purged. -/
theorem partition_up (hd : d ∈ partitionDeletions rows) (ck : Option ClusteringKey) (k : CellKey) :
    (∃ u, CarrierDeletes cfg.schema (mergePartitionRows cfg rows) ck u ∧ d.1 ≤ u) ∨
      PurgedAt cfg rows ck k d.1 := by
  cases hmax : maxPartitionDeletion rows with
  | none =>
    rw [maxPartitionDeletion, Lww.latest_eq_none] at hmax
    rw [hmax] at hd
    cases hd
  | some p =>
    have hle : d.1 ≤ p.1 := Lww.le_latest deletionSupersedes_iff hmax hd
    cases hp : cfg.settings.purges p.1 p.2 with
    | true =>
      exact .inr (.partition p (Lww.latest_mem deletionSupersedes_iff hmax) hp hle)
    | false =>
      exact .inl ⟨p.1, .partition p ((h.mem_partitionDeletions_output hs).mpr ⟨hmax, hp⟩), hle⟩

/-- A range of the input that covers the key is bounded by a deletion of the output, or purged. -/
theorem range_up (hck : ck ∈ optionalKeys cks) (hrt : rt ∈ partitionRanges rows)
    (hcov : ∃ x ∈ ck, rangeTombstoneCoversCk cfg.schema x rt = true) (k : CellKey) :
    (∃ u, CarrierDeletes cfg.schema (mergePartitionRows cfg rows) ck u ∧ rt.deletionTime ≤ u) ∨
      PurgedAt cfg rows ck k rt.deletionTime := by
  obtain ⟨x, hx, hxc⟩ := hcov
  obtain ⟨rt', hrt', hcov', hle⟩ := hs.ordered.exists_coalesce h.cuts
    (mem_optionalKeys.mp hck x hx) hrt hxc
  by_cases ha : Above (partitionFloor (maxPartitionDeletion rows)) rt'.deletionTime
  · cases hp : cfg.settings.purges rt'.deletionTime rt'.localDeletionTime with
    | true => exact .inr (.range rt' hrt' ⟨x, hx, hcov'⟩ hp hle)
    | false =>
      exact .inl ⟨_, .range rt' ((h.mem_partitionRanges_output hs).mpr ⟨hrt', ha, hp⟩)
        ⟨x, hx, hcov'⟩, hle⟩
  · -- the partition deletion subsumes the range
    rw [above_partitionFloor] at ha
    simp only [not_forall, not_lt] at ha
    obtain ⟨d, hd, hdle⟩ := ha
    rcases h.partition_up hs hd ck k with ⟨u, hu, hle'⟩ | hpurged
    · exact .inl ⟨u, hu, hle.trans (hdle.trans hle')⟩
    · exact .inr (hpurged.mono (hle.trans hdle))

/-- A time that is not above the floors is bounded by a deletion of the output, or purged. -/
theorem floors_up (hck : ck ∈ optionalKeys cks) (ht : ¬ AboveFloors cfg.schema rows ck t)
    (k : CellKey) :
    (∃ u, CarrierDeletes cfg.schema (mergePartitionRows cfg rows) ck u ∧ t ≤ u) ∨
      PurgedAt cfg rows ck k t := by
  have hor : (∃ d ∈ partitionDeletions rows, t ≤ d.1) ∨ ∃ rt ∈ partitionRanges rows,
      (∃ x ∈ ck, rangeTombstoneCoversCk cfg.schema x rt = true) ∧ t ≤ rt.deletionTime := by
    by_contra hno
    simp only [not_or, not_exists, not_and, not_le] at hno
    exact ht ⟨hno.1, fun rt hrt hcov => hno.2 rt hrt ⟨_, hcov.choose_spec.1, hcov.choose_spec.2⟩⟩
  rcases hor with ⟨d, hd, hle⟩ | ⟨rt, hrt, hcov, hle⟩
  · rcases h.partition_up hs hd ck k with ⟨u, hu, hle'⟩ | hpurged
    · exact .inl ⟨u, hu, hle.trans hle'⟩
    · exact .inr (hpurged.mono hle)
  · rcases h.range_up hs hck hrt hcov k with ⟨u, hu, hle'⟩ | hpurged
    · exact .inl ⟨u, hu, hle.trans hle'⟩
    · exact .inr (hpurged.mono hle)

/-- A row deletion of the input is bounded by one of the output, not above the floors, or purged. -/
theorem row_cases (hck : ck ∈ optionalKeys cks) (hd : d ∈ groupRowDeletions (rowsAt rows ck)) :
    (∃ w ∈ groupRowDeletions (rowsAt (mergePartitionRows cfg rows) ck), d.1 ≤ w.1) ∨
      (∃ t, d.1 ≤ t ∧ ¬ AboveFloors cfg.schema rows ck t) ∨
      ∃ w ∈ groupRowDeletions (rowsAt rows ck), cfg.settings.purges w.1 w.2 = true ∧ d.1 ≤ w.1 := by
  cases hmax : groupRowDel (rowsAt rows ck) with
  | none =>
    rw [groupRowDel, Lww.latest_eq_none] at hmax
    rw [hmax] at hd
    cases hd
  | some w =>
    have hle : d.1 ≤ w.1 := Lww.le_latest deletionSupersedes_iff hmax hd
    have hfirst := (Lww.latest_eq_some deletionSupersedes_iff).mp hmax
    by_cases hp : cfg.settings.purges w.1 w.2 = true
    · exact .inr (.inr ⟨w, hfirst.mem, hp, hle⟩)
    by_cases hf : AboveFloors cfg.schema rows ck w.1
    · exact .inl ⟨w, ((h.outputContent hs hck).rowDeletions w).mpr
        ⟨⟨hfirst, fun hpair => hp hpair.2⟩, hf⟩, hle⟩
    · exact .inr (.inl ⟨w.1, hle, hf⟩)

/-- So is the deletion of a column, or it is dropped with its row degraded. -/
theorem complex_cases (hck : ck ∈ optionalKeys cks) {cd : ComplexDeletion}
    (hcd : cd ∈ groupComplex (rowsAt rows ck)) :
    (∃ w ∈ groupComplex (rowsAt (mergePartitionRows cfg rows) ck), w.column = cd.column ∧
        cd.markedForDeleteAt ≤ w.markedForDeleteAt) ∨
      (∃ t, cd.markedForDeleteAt ≤ t ∧ ¬ AboveFloors cfg.schema rows ck t) ∨
      (∃ w ∈ groupComplex (rowsAt rows ck), w.column = cd.column ∧
        cfg.settings.purges w.markedForDeleteAt w.localDeletionTime = true ∧
          cd.markedForDeleteAt ≤ w.markedForDeleteAt) ∨ ComplexLost cfg rows ck := by
  obtain ⟨w, hwin, hcol, hle⟩ : ∃ w, Lww.IsWinner ComplexDeletion.column
      ComplexDeletion.markedForDeleteAt (groupComplex (rowsAt rows ck)) w ∧
      w.column = cd.column ∧ cd.markedForDeleteAt ≤ w.markedForDeleteAt :=
    Lww.exists_winner ReconcileState.complexSupersedes_iff hcd
  cases hp : cfg.settings.purges w.markedForDeleteAt w.localDeletionTime with
  | true => exact .inr (.inr (.inl ⟨w, hwin.mem, hcol, hp, hle⟩))
  | false =>
    by_cases hlost : ComplexLost cfg rows ck
    · exact .inr (.inr (.inr hlost))
    by_cases hf : AboveFloors cfg.schema rows ck w.markedForDeleteAt
    · exact .inl ⟨w, ((h.outputContent hs hck).complex w).mpr ⟨⟨hwin, hp⟩, hf, hlost⟩, hcol, hle⟩
    · exact .inr (.inl ⟨_, hle, hf⟩)

theorem deletes_down (hck : ck ∈ optionalKeys cks) {k : CellKey}
    (ht : DeletedAt cfg.schema (mergePartitionRows cfg rows) ck k t) :
    ∃ u, DeletedAt cfg.schema rows ck k u ∧ t ≤ u := by
  have hout := h.outputContent hs hck
  cases ht with
  | partition d hd =>
    obtain ⟨hmax, -⟩ := (h.mem_partitionDeletions_output hs).mp hd
    exact ⟨d.1, .partition d (Lww.latest_mem deletionSupersedes_iff hmax), le_rfl⟩
  | range rt hrt hcov =>
    obtain ⟨hrt, -, -⟩ := (h.mem_partitionRanges_output hs).mp hrt
    obtain ⟨x, hx, hxc⟩ := hcov
    obtain ⟨rt₀, hrt₀, hcov₀, heq⟩ := hs.ordered.exists_of_coalesce h.cuts
      (mem_optionalKeys.mp hck x hx) hrt hxc
    exact ⟨_, .range rt₀ hrt₀ ⟨x, hx, hcov₀⟩, heq.ge⟩
  | row d hd => exact ⟨d.1, .row d ((hout.rowDeletions d).mp hd).1.1.mem, le_rfl⟩
  | complex cd hcd hcol hpath =>
    exact ⟨_, .complex cd ((hout.complex cd).mp hcd).1.1.mem hcol hpath, le_rfl⟩
  | dropped t ht => exact ⟨t, .dropped t ht, le_rfl⟩

/-- A live write of the output is a write of the input that outlasts all of it. -/
theorem of_output_alive (hck : ck ∈ optionalKeys cks)
    (hc : c ∈ (evidenceAt cfg.schema (mergePartitionRows cfg rows) ck).writes)
    (halive : ¬ CellDead cfg.settings.now c) : c ∈ (evidenceAt cfg.schema rows ck).writes ∧
      (evidenceAt cfg.schema rows ck).Outlasts (cellReading cfg.settings.now) c := by
  obtain ⟨w, hkept, hdata, hfloors, rfl⟩ := ((h.outputContent hs hck).cells c).mp hc
  rw [expireCell_of_alive (mt cellDead_expireCell.mpr halive)]
  exact ⟨⟨hkept.unshadowed.wins.mem, hdata⟩, outlasts_of_kept hkept hfloors⟩

theorem summarizes (hck : ck ∈ optionalKeys cks)
    (hties : (evidenceAt cfg.schema rows ck).NoTies (cellReading cfg.settings.now)) :
    Evidence.Summarizes (cellReading cfg.settings.now)
      (evidenceAt cfg.schema (mergePartitionRows cfg rows) ck) (evidenceAt cfg.schema rows ck)
      (lostAt cfg rows ck) := by
  have hout := h.outputContent hs hck
  refine ⟨?_, ?_, ?_, ?_, fun c hc => hc.1, fun k t ht => ht.1⟩
  · intro a ha
    obtain ⟨c, hkept, hdata, -, rfl⟩ := (hout.cells a).mp ha
    refine ⟨c, ⟨hkept.unshadowed.wins.mem, hdata⟩, by simp, by simp, cellRank_le_expireCell _ c,
      cellDead_expireCell.mp, ?_⟩
    intro halive
    exact expireCell_of_alive (mt cellDead_expireCell.mpr halive)
  · rintro c ⟨hc, hdata⟩ ⟨hmax, hund⟩
    obtain ⟨w, hwin, hk, hle⟩ : ∃ w, Lww.IsWinner CellData.cellKey cellRank
        (groupCells (rowsAt rows ck)) w ∧ w.cellKey = c.cellKey ∧ cellRank c ≤ cellRank w :=
      Lww.exists_winner cellWins_iff hc
    have hcol : w.column = c.column := congrArg Prod.fst hk
    have hwdata : isDataCell ck w = true := by
      rw [isDataCell, hcol]
      exact hdata
    have hrank : cellRank w = cellRank c := le_antisymm (hmax w ⟨hwin.mem, hwdata⟩ hk) hle
    have hts : w.timestamp = c.timestamp :=
      le_antisymm (timestamp_le_of_cellRank_le hrank.le) (timestamp_le_of_cellRank_le hrank.ge)
    have heq : ¬ CellDead cfg.settings.now c → w = c :=
      hties c ⟨hc, hdata⟩ w ⟨hwin.mem, hwdata⟩ hk hrank
    have hwund : (evidenceAt cfg.schema rows ck).Undeleted (cellReading cfg.settings.now) w := by
      intro t ht
      rw [cellReading_time, hts]
      rw [cellReading_key, hk] at ht
      exact hund t ht
    obtain ⟨hun, hdrop, hfloors⟩ := unshadowed_of_outlasts hwin hwund
    cases hp : cellPurgeable cfg.settings (expireCell cfg.settings.now w) with
    | true =>
      obtain ⟨hdead, -⟩ := of_cellPurgeable hp
      have hcdead : CellDead cfg.settings.now c := by
        by_contra halive
        rw [heq halive] at hdead
        exact halive hdead
      exact .inr ⟨hcdead, ⟨hc, hdata⟩, hcdead, w, ⟨hwin.mem, hwdata⟩, hk, hrank, hp⟩
    | false =>
      refine .inl ⟨expireCell cfg.settings.now w,
        (hout.cells _).mpr ⟨w, ⟨hun, hdrop, hp⟩, hwdata, hfloors, rfl⟩, by simpa using hk,
        hle.trans (cellRank_le_expireCell _ w), ?_⟩
      intro halive
      rw [heq halive, expireCell_of_alive halive]
  · exact fun k t ht => h.deletes_down hs hck ht
  · -- every deletion of the input survives in the output, is bounded there, or is let go
    intro k t ht
    have hlet : ∀ {u}, t ≤ u → PurgedAt cfg rows ck k u →
        (∃ u ∈ (evidenceAt cfg.schema (mergePartitionRows cfg rows) ck).deletes k, t ≤ u) ∨
          t ∈ (lostAt cfg rows ck).deletes k :=
      fun hle hpurged => .inr ⟨ht, .inl (hpurged.mono hle)⟩
    have hback : ∀ {u}, t ≤ u → ((∃ v, CarrierDeletes cfg.schema (mergePartitionRows cfg rows) ck v ∧
        u ≤ v) ∨ PurgedAt cfg rows ck k u) →
        (∃ u ∈ (evidenceAt cfg.schema (mergePartitionRows cfg rows) ck).deletes k, t ≤ u) ∨
          t ∈ (lostAt cfg rows ck).deletes k := by
      rintro u hle (⟨v, hv, hle'⟩ | hpurged)
      · exact .inl ⟨v, hv.deletedAt k, hle.trans hle'⟩
      · exact hlet hle hpurged
    cases id ht with
    | partition d hd => exact hback le_rfl (h.partition_up hs hd ck k)
    | range rt hrt hcov => exact hback le_rfl (h.range_up hs hck hrt hcov k)
    | row d hd =>
      rcases h.row_cases hs hck hd with ⟨w, hw, hle⟩ | ⟨u, hle, hf⟩ | ⟨w, hw, hp, hle⟩
      · exact .inl ⟨_, .row w hw, hle⟩
      · exact hback hle (h.floors_up hs hck hf k)
      · exact hlet hle (.row w hw hp le_rfl)
    | complex cd hcd hcol hpath =>
      rcases h.complex_cases hs hck hcd with ⟨w, hw, hwcol, hle⟩ | ⟨u, hle, hf⟩ |
        ⟨w, hw, hwcol, hp, hle⟩ | hlost
      · exact .inl ⟨_, .complex w hw (hwcol.trans hcol) hpath, hle⟩
      · exact hback hle (h.floors_up hs hck hf k)
      · exact hlet hle (.complex w hw (hwcol.trans hcol) hpath hp le_rfl)
      · exact .inr ⟨ht, .inr ⟨hlost, cd, hcd, hcol, hpath, rfl⟩⟩
    | dropped t ht => exact .inl ⟨t, .dropped t ht, le_rfl⟩

/-- The live cells of an output are the visible cells of its input. -/
theorem visible_output (hck : ck ∈ optionalKeys cks)
    (hties : (evidenceAt cfg.schema rows ck).NoTies (cellReading cfg.settings.now)) :
    (c ∈ (evidenceAt cfg.schema (mergePartitionRows cfg rows) ck).writes ∧
        ¬ CellDead cfg.settings.now c) ↔
      (evidenceAt cfg.schema rows ck).Visible (cellReading cfg.settings.now) c := by
  have hsum := h.summarizes hs hck hties
  rw [Evidence.visible_iff]
  constructor
  · rintro ⟨hc, halive⟩
    obtain ⟨hmem, hout⟩ := h.of_output_alive hs hck hc halive
    exact ⟨hmem, halive, hout⟩
  · rintro ⟨hc, halive, hout⟩
    refine ⟨?_, halive⟩
    rcases hsum.kept c hc hout with ⟨a, ha, -, -, heq⟩ | ⟨hdead, -⟩
    · rwa [heq halive] at ha
    · exact absurd hdead halive

end

end EntriesIn

end Summary

end Cqlite
