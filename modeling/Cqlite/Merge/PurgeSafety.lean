import Cqlite.Merge.Summary

/-! Purging and visible data.

    A partition is split into the SSTables of a compaction and those outside of it. The compaction
    purges what is older than everything outside; merging its output with the outside should show the
    same cells as merging everything. It does, unless the output dropped the complex deletions of a
    row that its partition deletion degraded to a bare row tombstone. -/

namespace Cqlite

/-! ### Live cells -/

/-- `(column, cell_path, value, timestamp)`. -/
abbrev CellView := String × Option Bytes × Value × Int

def CellData.view (c : CellData) : CellView := (c.column, c.cellPath, c.value, c.timestamp)

theorem CellData.key_time_of_view {a b : CellData} (h : a.view = b.view) :
    a.cellKey = b.cellKey ∧ a.timestamp = b.timestamp := by
  simp only [CellData.view, Prod.mk.injEq] at h
  exact ⟨Prod.ext h.1 h.2.1, h.2.2.2⟩

section Live

variable [DebugFmt]

/-- The live data cells of a clustering key; pseudo-cells repeat the key and do not count. -/
def liveCells (now : Option Int) (out : List MergeEntry) (ck : Option ClusteringKey) :
    Set CellView :=
  {v | ∃ c ∈ groupCells (rowsAt out ck), isDataCell ck c = true ∧ ¬ CellDead now c ∧ c.view = v}

/-- The entries of one partition from any number of SSTables: ordered and named keys, and ranges on
    carriers only. -/
structure MergeInput (schema : TableSchema) (key : DecoratedKey) (rows : List MergeEntry) : Prop
    extends PartitionInput schema key rows where
  names : ∀ ck ∈ rowKeys rows, ck.columnNames = schema.clusteringKeys.map (·.name)
  rowRange : ∀ e ∈ rows, isCarrier e = false → e.rangeDeletion = none

/-- No two cells of one `(column, cell_path)` tie on timestamp and liveness with different payloads;
    ties between cells without a value do no harm. -/
def NoTiedPayloads (schema : TableSchema) (now : Option Int) (rows : List MergeEntry) : Prop :=
  ∀ ck ∈ rows.map MergeEntry.clusteringKey, (evidenceAt schema rows ck).NoTies (cellReading now)

end Live

/-! ### The overlap bound -/

/-- Every timestamp of an entry: cells, marker and deletions. -/
def MergeEntry.timestamps (e : MergeEntry) : List Int :=
  e.cells.map (·.timestamp) ++ e.rowLiveness.markerTimestamp.toList ++ e.rowDeletions.map (·.1) ++
    e.complexDeletions.map (·.markedForDeleteAt) ++ e.rangeDeletion.toList.map (·.deletionTime) ++
    e.partitionDeletion.toList.map (·.1)

/-- The oldest timestamp outside the compaction, `i64::MAX` when nothing is outside. -/
def overlapBound (outside : List MergeEntry) : Int :=
  ((outside.flatMap MergeEntry.timestamps).min?).getD i64Max

/-- The same merger with purging disabled. -/
def MergerConfig.unpurged (cfg : MergerConfig) : MergerConfig :=
  { cfg with purgeSafe := false, maxPurgeableTimestamp := none }

theorem overlapBound_le {outside : List MergeEntry} {e : MergeEntry} (he : e ∈ outside) {c : CellData}
    (hc : c ∈ e.cells) : overlapBound outside ≤ c.timestamp := by
  have hmem : c.timestamp ∈ outside.flatMap MergeEntry.timestamps :=
    List.mem_flatMap.mpr ⟨e, he, by simp [MergeEntry.timestamps, List.mem_map_of_mem hc]⟩
  unfold overlapBound
  cases hm : (outside.flatMap MergeEntry.timestamps).min? with
  | none =>
    rw [List.min?_eq_none_iff] at hm
    rw [hm] at hmem
    cases hmem
  | some m => exact (List.min?_eq_some_iff.mp hm).2 _ hmem

section Purge

variable [DebugFmt]

namespace MergeInput

variable {schema : TableSchema} {key : DecoratedKey} {rows : List MergeEntry}

theorem keySpace (h : MergeInput schema key rows) :
    KeySpace schema (rowKeys rows) (partitionRanges rows) := ⟨h.keys, h.fallback, h.names⟩

theorem entriesIn (h : MergeInput schema key rows) :
    EntriesIn (rowKeys rows) (partitionRanges rows) key rows where
  sameKey := h.sameKey
  keys e he := Cqlite.mem_optionalKeys.mpr fun _ hx => List.mem_filterMap.mpr ⟨e, he, hx⟩
  cuts := rangesIn_self _ fun _ hrt => hrt
  rowRange := h.rowRange

theorem mem_optionalKeys (h : MergeInput schema key rows) {ck : Option ClusteringKey}
    (hck : ck ∈ rows.map MergeEntry.clusteringKey) : ck ∈ optionalKeys (rowKeys rows) := by
  obtain ⟨e, he, rfl⟩ := List.mem_map.mp hck
  exact h.entriesIn.keys e he

end MergeInput

/-! ### Live cells as visible cells -/

section Visible

variable {cks : List ClusteringKey} {ranges : List RangeTombstone} {key : DecoratedKey}
  {rows : List MergeEntry} {ck : Option ClusteringKey}

theorem EntriesIn.mem_liveCells (cfg : MergerConfig) (h : EntriesIn cks ranges key rows)
    (hs : KeySpace cfg.schema cks ranges) (hck : ck ∈ optionalKeys cks)
    (hties : (evidenceAt cfg.schema rows ck).NoTies (cellReading cfg.nowSecs)) {v : CellView} :
    v ∈ liveCells cfg.nowSecs (mergePartitionRows cfg rows) ck ↔
      ∃ c, (evidenceAt cfg.schema rows ck).Visible (cellReading cfg.nowSecs) c ∧ c.view = v := by
  have hvis := fun c => h.visible_output hs hck hties (c := c)
  constructor
  · rintro ⟨c, hc, hd, halive, rfl⟩
    exact ⟨c, (hvis c).mp ⟨⟨hc, hd⟩, halive⟩, rfl⟩
  · rintro ⟨c, hc, rfl⟩
    obtain ⟨⟨hc, hd⟩, halive⟩ := (hvis c).mpr hc
    exact ⟨c, hc, hd, halive, rfl⟩

end Visible

/-! ### The compaction and its outside -/

/-- The outside cells of a key that only the complex deletions of the compaction delete, when these
    are dropped. -/
def Resurrectable (cfg : MergerConfig) (inside outside : List MergeEntry)
    (ck : Option ClusteringKey) (c : CellData) : Prop :=
  (evidenceAt cfg.schema outside ck).Visible (cellReading cfg.nowSecs) c ∧
    AboveFloors cfg.schema inside ck c.timestamp ∧
    (∀ d ∈ groupRowDeletions (rowsAt inside ck), d.1 < c.timestamp) ∧
    ∃ cd ∈ groupComplex (rowsAt inside ck), ComplexCovers cd c

section Split

variable {cfg : MergerConfig} {cks : List ClusteringKey} {ranges : List RangeTombstone}
  {key : DecoratedKey} {inside outside : List MergeEntry} {ck : Option ClusteringKey}

/-- With the complex deletions dropped, an outside cell is visible next to the output exactly when
    nothing outside and no other deletion of the compaction hides it. -/
theorem EntriesIn.visible_next_to_output (h : EntriesIn cks ranges key inside)
    (hs : KeySpace cfg.schema cks ranges) (hck : ck ∈ optionalKeys cks)
    (hlost : ComplexLost cfg inside ck) {c : CellData}
    (hc : c ∈ (evidenceAt cfg.schema outside ck).writes)
    (hbound : cfg.settings.maxPurgeable ≤ c.timestamp) :
    (evidenceAt cfg.schema (mergePartitionRows cfg inside) ck ∪
        evidenceAt cfg.schema outside ck).Visible (cellReading cfg.nowSecs) c ↔
      (evidenceAt cfg.schema outside ck).Visible (cellReading cfg.nowSecs) c ∧
        AboveFloors cfg.schema inside ck c.timestamp ∧
        ∀ d ∈ groupRowDeletions (rowsAt inside ck), d.1 < c.timestamp := by
  have hout := h.outputContent hs hck
  have hempty : ∀ a, a ∉ (evidenceAt cfg.schema (mergePartitionRows cfg inside) ck).writes := by
    intro a ha
    obtain ⟨c₀, hk, hd, -⟩ := (hout.cells a).mp ha
    rw [hlost.noData c₀ hk.unshadowed] at hd
    cases hd
  constructor
  · intro hvis
    obtain ⟨hmem, halive, hmax, hund⟩ := hvis
    rw [Evidence.maximal_union] at hmax
    rw [Evidence.undeleted_union] at hund
    -- a deletion of the input is bounded by one of the output, or purged
    have hup : ∀ t, ((∃ u, CarrierDeletes cfg.schema (mergePartitionRows cfg inside) ck u ∧
        t ≤ u) ∨ PurgedAt cfg inside ck c.cellKey t) → t < c.timestamp := by
      rintro t (⟨u, hu, hle⟩ | hpurged)
      · exact lt_of_le_of_lt hle (hund.1 u (hu.deletedAt _))
      · exact hpurged.lt_maxPurgeable.trans_le hbound
    have hrow : ∀ d ∈ groupRowDeletions (rowsAt inside ck), d.1 < c.timestamp := by
      intro d hd
      rcases h.row_cases hs hck hd with ⟨w, hw, hle⟩ | ⟨u, hle, hf⟩ | ⟨w, hw, hp, hle⟩
      · exact lt_of_le_of_lt hle (hund.1 w.1 (.row w hw))
      · exact lt_of_le_of_lt hle (hup u (h.floors_up hs hck hf _))
      · exact hup _ (.inr (.row w hw hp hle))
    exact ⟨⟨hc, halive, hmax.2, hund.2⟩,
      ⟨fun d hd => hup _ (h.partition_up hs hd ck _),
        fun rt hrt hcov => hup _ (h.range_up hs hck hrt hcov _)⟩, hrow⟩
  · rintro ⟨hvis, hfloors, hrow⟩
    refine ⟨.inr hc, hvis.alive, Evidence.maximal_union.mpr ⟨fun a ha => absurd ha (hempty a),
      hvis.maximal⟩, Evidence.undeleted_union.mpr ⟨?_, hvis.undeleted⟩⟩
    intro t ht
    cases ht with
    | partition d hd =>
      obtain ⟨hmax, -⟩ := (h.mem_partitionDeletions_output hs).mp hd
      exact hfloors.partition d (Lww.latest_mem deletionSupersedes_iff hmax)
    | range rt hrt hcov =>
      obtain ⟨hrt, -, -⟩ := (h.mem_partitionRanges_output hs).mp hrt
      obtain ⟨x, hx, hxc⟩ := hcov
      obtain ⟨rt₀, hrt₀, hcov₀, heq⟩ := hs.ordered.exists_of_coalesce h.cuts
        (mem_optionalKeys.mp hck x hx) hrt hxc
      rw [← heq]
      exact hfloors.range rt₀ hrt₀ ⟨x, hx, hcov₀⟩
    | row d hd => exact hrow d ((hout.rowDeletions d).mp hd).1.1.mem
    | complex cd hcd _ _ => exact absurd hlost ((hout.complex cd).mp hcd).2.2
    | dropped t ht => exact hvis.undeleted t (.dropped t ht)

/-- One key of the split: the same cells are live unless a cell can be resurrected there. -/
theorem EntriesIn.visible_eq_iff (hin : EntriesIn cks ranges key inside)
    (hs : KeySpace cfg.schema cks ranges) (hck : ck ∈ optionalKeys cks)
    (hbound : cfg.settings.maxPurgeable ≤ overlapBound outside)
    (hties : (evidenceAt cfg.schema (inside ++ outside) ck).NoTies (cellReading cfg.nowSecs)) :
    (∀ v, (∃ c, (evidenceAt cfg.schema (mergePartitionRows cfg inside) ck ∪
          evidenceAt cfg.schema outside ck).Visible (cellReading cfg.nowSecs) c ∧ c.view = v) ↔
        ∃ c, (evidenceAt cfg.schema inside ck ∪
          evidenceAt cfg.schema outside ck).Visible (cellReading cfg.nowSecs) c ∧ c.view = v) ↔
      (ComplexLost cfg inside ck → ∀ c, ¬ Resurrectable cfg inside outside ck c) := by
  rw [evidenceAt_append] at hties
  have hties_in : (evidenceAt cfg.schema inside ck).NoTies (cellReading cfg.nowSecs) :=
    fun a ha b hb => hties a (.inl ha) b (.inl hb)
  have hsum := hin.summarizes hs hck hties_in
  have hnew : ∀ c ∈ (evidenceAt cfg.schema outside ck).writes,
      cfg.settings.maxPurgeable ≤ c.timestamp := by
    rintro c ⟨hc, -⟩
    obtain ⟨e, he, hec⟩ := List.mem_flatMap.mp hc
    exact hbound.trans (overlapBound_le (List.mem_of_mem_filter (List.mem_of_mem_filter he)) hec)
  refine (hsum.view_eq_iff (fun _ _ => CellData.key_time_of_view) hties (evidenceAt_bounded _ _ _ _)).trans ?_
  constructor
  · rintro hall hlost c ⟨hvis, hfloors, hrow, cd, hcd, hcol, hpath, hle⟩
    have hc := hvis.mem
    have hlast := hall c
      ((hin.visible_next_to_output hs hck hlost hc (hnew c hc)).mpr ⟨hvis, hfloors, hrow⟩)
    have hlt := hlast.undeleted cd.markedForDeleteAt
      ⟨.complex cd hcd hcol hpath, .inr ⟨hlost, cd, hcd, hcol, hpath, rfl⟩⟩
    exact absurd hlt (not_lt.mpr hle)
  · intro hno c hvis
    rcases hvis.mem with hout | hc
    · -- what the output holds outlasts all that was merged
      obtain ⟨-, hmax, hund⟩ := hin.of_output_alive hs hck hout hvis.alive
      exact ⟨fun b hb => hmax b hb.1, fun t ht => hund t ht.1⟩
    refine ⟨?_, ?_⟩
    · intro b hb _
      exact (cellRank_lt_of_timestamp_lt ((lt_maxPurgeable_of_lost hb).trans_le (hnew c hc))).le
    · rintro t ⟨-, hpurged | ⟨hlost, cd, hcd, hcol, hpath, rfl⟩⟩
      · exact hpurged.lt_maxPurgeable.trans_le (hnew c hc)
      · rw [← not_le]
        intro hle
        obtain ⟨hv, hf, hr⟩ := (hin.visible_next_to_output hs hck hlost hc (hnew c hc)).mp hvis
        exact hno hlost c ⟨hv, hf, hr, cd, hcd, hcol, hpath, hle⟩

/-- One key of the split: compacting `inside` first shows the same cells unless one can be
    resurrected there. -/
theorem MergeInput.liveCells_eq_iff {whole rest : List MergeEntry}
    (hin : MergeInput cfg.schema key (inside ++ outside))
    (hbound : cfg.settings.maxPurgeable ≤ overlapBound outside)
    (hties : NoTiedPayloads cfg.schema cfg.nowSecs (inside ++ outside))
    (hwhole : whole.Perm (inside ++ outside))
    (hrest : rest.Perm (mergePartitionRows cfg inside ++ outside))
    (hck : ck ∈ (inside ++ outside).map MergeEntry.clusteringKey) :
    liveCells cfg.nowSecs (mergePartitionRows cfg.unpurged rest) ck =
        liveCells cfg.nowSecs (mergePartitionRows cfg.unpurged whole) ck ↔
      (ComplexLost cfg inside ck → ∀ c, ¬ Resurrectable cfg inside outside ck c) := by
  have hs := hin.keySpace
  have hall := hin.entriesIn
  have hI : EntriesIn _ _ key inside := hall.mono fun e he => List.mem_append_left _ he
  have hO : EntriesIn _ _ key outside := hall.mono fun e he => List.mem_append_right _ he
  have hW : EntriesIn _ _ key whole := hall.mono fun e he => hwhole.mem_iff.mp he
  have hR : EntriesIn _ _ key rest := ((hI.output hs).append hO).mono fun e he => hrest.mem_iff.mp he
  have htie := hties ck hck
  have hkey := hin.mem_optionalKeys hck
  rw [← hI.visible_eq_iff hs hkey hbound htie]
  have hwe : evidenceAt cfg.schema whole ck =
      evidenceAt cfg.schema inside ck ∪ evidenceAt cfg.schema outside ck := by
    rw [evidenceAt_congr (fun e => hwhole.mem_iff) ck, evidenceAt_append]
  have hre : evidenceAt cfg.schema rest ck =
      evidenceAt cfg.schema (mergePartitionRows cfg inside) ck ∪
        evidenceAt cfg.schema outside ck := by
    rw [evidenceAt_congr (fun e => hrest.mem_iff) ck, evidenceAt_append]
  rw [evidenceAt_append] at htie
  have htieI : (evidenceAt cfg.schema inside ck).NoTies (cellReading cfg.nowSecs) :=
    fun a ha b hb => htie a (.inl ha) b (.inl hb)
  have htieR := (hI.summarizes hs hkey htieI).noTies htie
  rw [Set.ext_iff]
  refine forall_congr' fun v => iff_congr ?_ ?_
  · rw [← hre] at htieR ⊢
    exact hR.mem_liveCells cfg.unpurged hs hkey htieR
  · rw [← hwe] at htie ⊢
    exact hW.mem_liveCells cfg.unpurged hs hkey htie

end Split

/-- Compacting `inside` and merging the result with `outside` shows the same live cells as merging
    everything, for every clustering key, exactly when no clustering key whose complex deletions the
    compaction drops has an outside cell that only these deletions delete. -/
theorem purge_keeps_live_cells_iff (cfg : MergerConfig) (key : DecoratedKey)
    (inside outside whole rest : List MergeEntry)
    (hin : MergeInput cfg.schema key (inside ++ outside))
    (hbound : cfg.settings.maxPurgeable ≤ overlapBound outside)
    (hties : NoTiedPayloads cfg.schema cfg.nowSecs (inside ++ outside))
    (hwhole : whole.Perm (inside ++ outside))
    (hrest : rest.Perm (mergePartitionRows cfg inside ++ outside)) :
    (∀ ck ∈ (inside ++ outside).map MergeEntry.clusteringKey,
        liveCells cfg.nowSecs (mergePartitionRows cfg.unpurged rest) ck =
          liveCells cfg.nowSecs (mergePartitionRows cfg.unpurged whole) ck) ↔
      ∀ ck ∈ (inside ++ outside).map MergeEntry.clusteringKey, ComplexLost cfg inside ck →
        ∀ c, ¬ Resurrectable cfg inside outside ck c :=
  forall_congr' fun _ => forall_congr' fun hck =>
    hin.liveCells_eq_iff hbound hties hwhole hrest hck

end Purge

/-! ### A resurrected element -/

/-- A partial compaction of `CREATE TABLE t (pk, c, m map, PRIMARY KEY (pk, c))` at `now = 100` with a
    gc cutoff of `50` and the overlap bound `0`. -/
def partialConfig : MergerConfig := ⟨tableConfig.schema, false, some 50, some 0, some 100⟩

/-- An element of the map `m`. -/
def elementM (ts : Int) : CellData :=
  { CellData.new "m" (.integer 7) ts with
    cellPath := some [7]
    isComplexElement := true }

/-- `INSERT` at `-20`, a row deletion at `-5`, the deletion of `m` at `3` by an `UPDATE` and a
    partition deletion at `-10`, each in its own SSTable. -/
def degradedInside : List MergeEntry :=
  [(rowOne 0 (-20) (.live [.new "c" (.integer 1) (-20)])).withRowLiveness (.marker (-20) none),
   rowOne 1 (-5) (.tombstone (-5) 100),
   (rowOne 2 0 (.live [.new "c" (.integer 1) 0])).withComplexDeletions [⟨"m", 3, 100⟩],
   (MergeEntry.new 3 ⟨1, [1]⟩ none (-10) (.tombstone (-10) 100)).withPartitionDeletion (-10, 100)]

/-- An `UPDATE` of one element outside the compaction. -/
def elementOutside (ts : Int) : List MergeEntry :=
  [rowOne 4 0 (.live [.new "c" (.integer 1) 0, elementM ts])]

theorem degraded_mergeInput (ts : Int) :
    MergeInput partialConfig.schema ⟨1, [1]⟩ (degradedInside ++ elementOutside ts) := by
  have hkeys : rowKeys (degradedInside ++ elementOutside ts) =
      List.replicate 4 ⟨[("c", .integer 1)]⟩ := rfl
  have hranges : partitionRanges (degradedInside ++ elementOutside ts) = [] := rfl
  refine ⟨⟨?_, ?_, ?_⟩, ?_, ?_⟩
  · intro e he
    simp only [degradedInside, elementOutside, List.cons_append, List.nil_append, List.mem_cons,
      List.not_mem_nil, or_false] at he
    rcases he with rfl | rfl | rfl | rfl | rfl <;> rfl
  · rw [hkeys, hranges]
    decide
  · rw [hkeys]
    exact ⟨by decide, by decide⟩
  · rw [hkeys]
    decide
  · intro e he _
    simp only [degradedInside, elementOutside, List.cons_append, List.nil_append, List.mem_cons,
      List.not_mem_nil, or_false] at he
    rcases he with rfl | rfl | rfl | rfl | rfl <;> rfl

/-- The key of the row. -/
def keyOne : Option ClusteringKey := some ⟨[("c", .integer 1)]⟩

theorem eq_elementM {rows : List MergeEntry} {ts : Int} {ck : Option ClusteringKey} {c : CellData}
    (hrows : ∀ e ∈ rows, e ∈ degradedInside ++ elementOutside ts)
    (hck : ck ∈ (degradedInside ++ elementOutside ts).map MergeEntry.clusteringKey)
    (hc : c ∈ groupCells (rowsAt rows ck)) (hd : isDataCell ck c = true) :
    ck = keyOne ∧ c = elementM ts := by
  obtain ⟨e, he, hce⟩ := List.mem_flatMap.mp hc
  obtain ⟨he, hk⟩ := List.mem_filter.mp he
  have hmem := hrows e (List.mem_of_mem_filter he)
  have hplain := (List.mem_filter.mp he).2
  have hck : ck = keyOne ∨ ck = none := by
    simp only [degradedInside, elementOutside, List.cons_append, List.nil_append, List.map_cons,
      List.map_nil, List.mem_cons, List.not_mem_nil, or_false] at hck
    rcases hck with rfl | rfl | rfl | rfl | rfl
    · exact .inl rfl
    · exact .inl rfl
    · exact .inl rfl
    · exact .inr rfl
    · exact .inl rfl
  simp only [degradedInside, elementOutside, List.cons_append, List.nil_append, List.mem_cons,
    List.not_mem_nil, or_false] at hmem
  rcases hck with rfl | rfl
  · refine ⟨rfl, ?_⟩
    rcases hmem with rfl | rfl | rfl | rfl | rfl
    · obtain rfl : c = _ := List.mem_singleton.mp hce
      cases hd
    · cases hce
    · obtain rfl : c = _ := List.mem_singleton.mp hce
      cases hd
    · cases hce
    · rcases List.mem_cons.mp hce with rfl | hce
      · cases hd
      · exact List.mem_singleton.mp hce
  · rcases hmem with rfl | rfl | rfl | rfl | rfl
    · cases hk
    · cases hk
    · cases hk
    · cases hplain
    · cases hk

theorem degraded_noTies (ts : Int) :
    NoTiedPayloads partialConfig.schema partialConfig.nowSecs
      (degradedInside ++ elementOutside ts) := by
  rintro ck hck a ⟨ha, hda⟩ b ⟨hb, hdb⟩ - - -
  rw [(eq_elementM (fun e he => he) hck ha hda).2, (eq_elementM (fun e he => he) hck hb hdb).2]

/-- The compaction degrades the row: the pseudo-cell of the `UPDATE` is newer than the row deletion,
    and the marker is older than the partition deletion. -/
theorem degraded_complexLost : ComplexLost partialConfig degradedInside keyOne := by
  have hrow : RowBacked partialConfig.settings keyOne (rowsAt degradedInside keyOne) :=
    groupHasRow_iff.mp (by decide)
  have hnodata : (groupUnshadowed (rowsAt degradedInside keyOne)).any (isDataCell keyOne) = false := by
    decide
  obtain ⟨c, hc, -⟩ := hrow
  refine ⟨⟨c, hc⟩, ?_, ⟨(-5, 100), groupRetainedRowDel_eq_some.mp (by decide), by decide, ?_⟩,
    -20, groupLiveness_markerTimestamp.mp (by decide), by decide⟩
  · intro c' hc'
    simpa using List.any_eq_false.mp hnodata c' (mem_groupUnshadowed.mpr hc')
  · intro rt hrt
    cases hrt

theorem elementM_visible (ts : Int) :
    (evidenceAt partialConfig.schema (elementOutside ts) keyOne).Visible
      (cellReading partialConfig.nowSecs) (elementM ts) := by
  have hcells : groupCells (rowsAt (elementOutside ts) keyOne) =
      [.new "c" (.integer 1) 0, elementM ts] := rfl
  refine ⟨⟨?_, rfl⟩, ?_, ?_, ?_⟩
  · rw [hcells]
    simp
  · rintro (h | h)
    · cases h
    · cases h
  · rintro b ⟨hb, hd⟩ -
    rw [hcells] at hb
    rcases List.mem_cons.mp hb with rfl | hb
    · cases hd
    · rw [List.mem_singleton.mp hb]
  · intro t ht
    cases ht with
    | partition d hd => cases hd
    | range rt hrt hcov => cases hrt
    | row d hd => cases hd
    | complex cd hcd hcol hpath => cases hcd
    | dropped t ht => cases ht

/-- A newer element outside is covered by nothing and stays. -/
theorem newer_element_kept :
    MergeInput partialConfig.schema ⟨1, [1]⟩ (degradedInside ++ elementOutside 5) ∧
    partialConfig.settings.maxPurgeable = overlapBound (elementOutside 5) ∧
    NoTiedPayloads partialConfig.schema partialConfig.nowSecs (degradedInside ++ elementOutside 5) ∧
    ∀ ck ∈ (degradedInside ++ elementOutside 5).map MergeEntry.clusteringKey,
      liveCells partialConfig.nowSecs (mergePartitionRows partialConfig.unpurged
          (mergePartitionRows partialConfig degradedInside ++ elementOutside 5)) ck =
        liveCells partialConfig.nowSecs (mergePartitionRows partialConfig.unpurged
          (degradedInside ++ elementOutside 5)) ck := by
  have hbound : partialConfig.settings.maxPurgeable = overlapBound (elementOutside 5) := by decide
  refine ⟨degraded_mergeInput 5, hbound, degraded_noTies 5,
    (purge_keeps_live_cells_iff partialConfig ⟨1, [1]⟩ degradedInside (elementOutside 5) _ _
      (degraded_mergeInput 5) hbound.le (degraded_noTies 5) (.refl _) (.refl _)).mpr ?_⟩
  rintro ck hck - c ⟨hvis, -, -, cd, hcd, -, -, hle⟩
  obtain ⟨hc, hd⟩ := hvis.mem
  obtain ⟨rfl, rfl⟩ := eq_elementM (fun e he => List.mem_append_right _ he) hck hc hd
  have hthree : ∀ cd ∈ groupComplex (rowsAt degradedInside keyOne), cd.markedForDeleteAt = 3 := by
    decide
  rw [hthree cd hcd] at hle
  exact absurd hle (by decide)

/-- The element at `1`, deleted at `3` inside the compaction, is live after it. -/
theorem older_element_resurrected :
    MergeInput partialConfig.schema ⟨1, [1]⟩ (degradedInside ++ elementOutside 1) ∧
    partialConfig.settings.maxPurgeable = overlapBound (elementOutside 1) ∧
    NoTiedPayloads partialConfig.schema partialConfig.nowSecs (degradedInside ++ elementOutside 1) ∧
    ¬ ∀ ck ∈ (degradedInside ++ elementOutside 1).map MergeEntry.clusteringKey,
      liveCells partialConfig.nowSecs (mergePartitionRows partialConfig.unpurged
          (mergePartitionRows partialConfig degradedInside ++ elementOutside 1)) ck =
        liveCells partialConfig.nowSecs (mergePartitionRows partialConfig.unpurged
          (degradedInside ++ elementOutside 1)) ck := by
  have hbound : partialConfig.settings.maxPurgeable = overlapBound (elementOutside 1) := by decide
  refine ⟨degraded_mergeInput 1, hbound, degraded_noTies 1, ?_⟩
  intro hall
  have hck : keyOne ∈ (degradedInside ++ elementOutside 1).map MergeEntry.clusteringKey :=
    List.mem_cons_self
  have hno := (MergeInput.liveCells_eq_iff (degraded_mergeInput 1) hbound.le (degraded_noTies 1)
    (.refl _) (.refl _) hck).mp (hall keyOne hck)
  refine hno degraded_complexLost (elementM 1) ⟨elementM_visible 1, ⟨by decide, ?_⟩, by decide,
    ⟨"m", 3, 100⟩, by decide, rfl, rfl, by decide⟩
  intro rt hrt
  cases hrt

end Cqlite
