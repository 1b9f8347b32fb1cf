import Cqlite.Lib.Evidence
import Cqlite.Merge.KeySpace

/-! What a set of entries means for the cells of a clustering key.

    The evidence of a key is its data cells and, for every `(column, cell_path)`, the deletions that
    reach it: of the partition, of a covering range, of the row, of the whole column, and the drop of
    the column. The order of the entries does not matter. A merge without purging shows exactly the
    visible cells of the evidence; a merge with purging leaves entries whose evidence summarizes that
    of its input, up to what it purged. -/

namespace Cqlite

/-! ### Reading cells -/

/-- Without a value at `now`: a tombstone, or expired. -/
def CellDead (now : Option Int) (c : CellData) : Prop :=
  isCellTombstone c = true ∨ cellExpired now c = true

variable {c : CellData} {now : Option Int} {a b : List MergeEntry} {ck : Option ClusteringKey}
  {schema : TableSchema}

theorem cellRank_of_alive (h : ¬ CellDead now c) : isCellTombstone c = false := by
  rw [← Bool.not_eq_true]
  exact fun ht => h (.inl ht)

/-- Cells by `(column, cell_path)`, timestamp and `cell_wins`. -/
def cellReading (now : Option Int) : Evidence.Reading CellData CellKey Int (Int ×ₗ Bool) where
  key := CellData.cellKey
  time := CellData.timestamp
  rank := cellRank
  Dead := CellDead now
  time_le a b := timestamp_le_of_cellRank_le
  rank_le a b ha hle := by
    refine Prod.Lex.toLex_le_toLex.mpr ?_
    rcases hle.lt_or_eq with hlt | heq
    · exact .inl hlt
    · exact .inr ⟨heq, by rw [cellRank_of_alive ha]; exact Bool.false_le _⟩

@[simp] theorem cellReading_key (now : Option Int) : (cellReading now).key = CellData.cellKey := rfl

@[simp] theorem cellReading_time (now : Option Int) :
    (cellReading now).time = CellData.timestamp := rfl

@[simp] theorem cellReading_rank (now : Option Int) : (cellReading now).rank = cellRank := rfl

@[simp] theorem cellReading_dead (now : Option Int) : (cellReading now).Dead = CellDead now := rfl

theorem cellDead_ages {a b : Int} (hab : a ≤ b) (h : CellDead (some a) c) :
    CellDead (some b) c := by
  rcases h with htomb | hexp
  · exact .inl htomb
  · refine .inr ?_
    simp only [cellExpired, Option.any_some, Bool.and_eq_true] at hexp ⊢
    obtain ⟨hlive, httl, hldt⟩ := hexp
    refine ⟨hlive, httl, ?_⟩
    cases hl : c.localDeletionTime with
    | none => rw [hl] at hldt; cases hldt
    | some ldt =>
      rw [hl, Option.any_some, decide_eq_true_eq] at hldt
      rw [Option.any_some, decide_eq_true_eq]
      omega

theorem cellReading_ages {a b : Int} (hab : a ≤ b) :
    Evidence.Ages (cellReading (some a)) (cellReading (some b)) :=
  ⟨rfl, rfl, rfl, fun _ => cellDead_ages hab⟩

theorem cellReading_ages_none (now : Int) :
    Evidence.Ages (cellReading none) (cellReading (some now)) := by
  refine ⟨rfl, rfl, rfl, ?_⟩
  rintro c (htomb | hexp)
  · exact .inl htomb
  · simp [cellExpired] at hexp

theorem expireCell_of_alive (h : ¬ CellDead now c) : expireCell now c = c := by
  rw [expireCell, if_neg fun hx => h (.inr hx)]

/-- Expiry turns dead cells into tombstones and leaves the others alone. -/
theorem cellDead_expireCell : CellDead now (expireCell now c) ↔ CellDead now c := by
  unfold expireCell
  by_cases hx : cellExpired now c = true
  · rw [if_pos hx]
    exact iff_of_true (.inl (by simp [isCellTombstone, expiredTombstone])) (.inr hx)
  · rw [if_neg hx]

theorem cellRank_le_expireCell (now : Option Int) (c : CellData) :
    cellRank c ≤ cellRank (expireCell now c) := by
  unfold expireCell
  by_cases hx : cellExpired now c = true
  · rw [if_pos hx]
    refine Prod.Lex.toLex_le_toLex.mpr (.inr ⟨rfl, ?_⟩)
    have : isCellTombstone (expiredTombstone c) = true := by
      simp [isCellTombstone, expiredTombstone]
    simp only [this]
    exact Bool.le_true _
  · rw [if_neg hx]

@[simp] theorem expireCell_cellKey (now : Option Int) (c : CellData) :
    (expireCell now c).cellKey = c.cellKey := by
  simp [CellData.cellKey]

theorem of_cellPurgeable {s : MergeSettings} (h : cellPurgeable s (expireCell s.now c) = true) :
    CellDead s.now c ∧ c.timestamp < s.maxPurgeable := by
  simp only [cellPurgeable, Bool.and_eq_true, Bool.or_eq_true] at h
  obtain ⟨htomb, hldt⟩ := h
  refine ⟨cellDead_expireCell.mp (.inl ?_), ?_⟩
  · rcases htomb with ht | hd
    · exact ht
    · simp [isCellTombstone, hd]
  · cases hl : cellEffectiveLdt (expireCell s.now c) with
    | none => simp [hl] at hldt
    | some ldt =>
      rw [hl, Option.any_some] at hldt
      simpa using MergeSettings.lt_maxPurgeable_of_purges hldt

/-! ### Evidence of a key -/

variable [DebugFmt]

/-- The deletions that reach the cells `k` of a clustering key. -/
inductive DeletedAt (schema : TableSchema) (rows : List MergeEntry) (ck : Option ClusteringKey)
    (k : CellKey) : Int → Prop
  | partition (d : Deletion) (hd : d ∈ partitionDeletions rows) : DeletedAt schema rows ck k d.1
  | range (rt : RangeTombstone) (hrt : rt ∈ partitionRanges rows)
      (hcov : ∃ x ∈ ck, rangeTombstoneCoversCk schema x rt = true) :
      DeletedAt schema rows ck k rt.deletionTime
  | row (d : Deletion) (hd : d ∈ groupRowDeletions (rowsAt rows ck)) : DeletedAt schema rows ck k d.1
  | complex (cd : ComplexDeletion) (hcd : cd ∈ groupComplex (rowsAt rows ck)) (hcol : cd.column = k.1)
      (hpath : k.2.isSome = true) : DeletedAt schema rows ck k cd.markedForDeleteAt
  | dropped (t : Int) (ht : schema.droppedColumns k.1 = some t) : DeletedAt schema rows ck k t

/-- What the entries say about the cells of a clustering key. -/
def evidenceAt (schema : TableSchema) (rows : List MergeEntry) (ck : Option ClusteringKey) :
    Evidence CellData CellKey Int where
  writes := {c | c ∈ groupCells (rowsAt rows ck) ∧ isDataCell ck c = true}
  deletes k := {t | DeletedAt schema rows ck k t}

theorem rowsAt_append (a b : List MergeEntry) (ck : Option ClusteringKey) :
    rowsAt (a ++ b) ck = rowsAt a ck ++ rowsAt b ck := by
  simp [rowsAt]

theorem mem_rowsAt_congr (h : ∀ e, e ∈ a ↔ e ∈ b) {e : MergeEntry} :
    e ∈ rowsAt a ck ↔ e ∈ rowsAt b ck := by
  simp [rowsAt, h]

theorem deletedAt_mono (h : ∀ e ∈ a, e ∈ b) {k : CellKey} {t : Int} (ht : DeletedAt schema a ck k t) :
    DeletedAt schema b ck k t := by
  have hrows : ∀ e ∈ rowsAt a ck, e ∈ rowsAt b ck := by
    intro e he
    simp only [rowsAt, List.mem_filter] at he ⊢
    exact ⟨⟨h e he.1.1, he.1.2⟩, he.2⟩
  cases ht with
  | partition d hd =>
    obtain ⟨e, he, hk⟩ := List.mem_filterMap.mp hd
    exact .partition d (List.mem_filterMap.mpr ⟨e, h e he, hk⟩)
  | range rt hrt hcov => exact .range rt (partitionRanges_subset h rt hrt) hcov
  | row d hd =>
    obtain ⟨e, he, hk⟩ := List.mem_flatMap.mp hd
    exact .row d (List.mem_flatMap.mpr ⟨e, hrows e he, hk⟩)
  | complex cd hcd hcol hpath =>
    obtain ⟨e, he, hk⟩ := List.mem_flatMap.mp hcd
    exact .complex cd (List.mem_flatMap.mpr ⟨e, hrows e he, hk⟩) hcol hpath
  | dropped t ht => exact .dropped t ht

/-- The evidence depends on which entries there are, not on their order or number. -/
theorem evidenceAt_congr (h : ∀ e, e ∈ a ↔ e ∈ b) (ck : Option ClusteringKey) :
    evidenceAt schema a ck = evidenceAt schema b ck := by
  have hw : (evidenceAt schema a ck).writes = (evidenceAt schema b ck).writes := by
    ext c
    simp only [evidenceAt, groupCells, List.mem_flatMap, mem_rowsAt_congr h]
  have hd : (evidenceAt schema a ck).deletes = (evidenceAt schema b ck).deletes := by
    ext k t
    exact ⟨deletedAt_mono fun e he => (h e).mp he, deletedAt_mono fun e he => (h e).mpr he⟩
  exact Evidence.ext hw hd

/-- Evidence of two lists is that of either. -/
theorem evidenceAt_append (schema : TableSchema) (a b : List MergeEntry)
    (ck : Option ClusteringKey) :
    evidenceAt schema (a ++ b) ck = evidenceAt schema a ck ∪ evidenceAt schema b ck := by
  have hw : (evidenceAt schema (a ++ b) ck).writes =
      (evidenceAt schema a ck ∪ evidenceAt schema b ck).writes := by
    ext c
    simp only [evidenceAt, rowsAt_append, groupCells, List.flatMap_append, List.mem_append,
      Evidence.mem_writes_union, Set.mem_ofPred_eq, or_and_right]
  have hd : (evidenceAt schema (a ++ b) ck).deletes =
      (evidenceAt schema a ck ∪ evidenceAt schema b ck).deletes := by
    ext k t
    rw [Evidence.mem_deletes_union]
    constructor
    · intro ht
      cases ht with
      | partition d hd =>
        rw [partitionDeletions_append, List.mem_append] at hd
        exact hd.imp (.partition d) (.partition d)
      | range rt hrt hcov =>
        rw [partitionRanges_append, List.mem_append] at hrt
        exact hrt.imp (.range rt · hcov) (.range rt · hcov)
      | row d hd =>
        rw [rowsAt_append, groupRowDeletions, List.flatMap_append, List.mem_append] at hd
        exact hd.imp (.row d) (.row d)
      | complex cd hcd hcol hpath =>
        rw [rowsAt_append, groupComplex, List.flatMap_append, List.mem_append] at hcd
        exact hcd.imp (.complex cd · hcol hpath) (.complex cd · hcol hpath)
      | dropped t ht => exact .inl (.dropped t ht)
    · rintro (ht | ht)
      · exact deletedAt_mono (fun e he => List.mem_append_left _ he) ht
      · exact deletedAt_mono (fun e he => List.mem_append_right _ he) ht
  exact Evidence.ext hw hd

theorem evidenceAt_bounded (schema : TableSchema) (now : Option Int) (rows : List MergeEntry)
    (ck : Option ClusteringKey) : (evidenceAt schema rows ck).Bounded (cellReading now) := by
  rintro c ⟨hc, hd⟩
  obtain ⟨w, hw, hk, hle⟩ : ∃ w, Lww.IsWinner CellData.cellKey cellRank
      (groupCells (rowsAt rows ck)) w ∧ w.cellKey = c.cellKey ∧ cellRank c ≤ cellRank w :=
    Lww.exists_winner cellWins_iff hc
  have hcol : w.column = c.column := congrArg Prod.fst hk
  refine ⟨w, ⟨hw.mem, ?_⟩, hk, hle, fun b hb hkb => hw.le hb.1 hkb⟩
  rw [isDataCell, hcol]
  exact hd

/-! ### The output at a key -/

/-- Newer than the partition deletions and than the ranges that cover the key. -/
structure AboveFloors (schema : TableSchema) (rows : List MergeEntry) (ck : Option ClusteringKey)
    (t : Int) : Prop where
  partition : ∀ d ∈ partitionDeletions rows, d.1 < t
  range : ∀ rt ∈ partitionRanges rows, (∃ x ∈ ck, rangeTombstoneCoversCk schema x rt = true) →
    rt.deletionTime < t

/-- The complex deletions of the key are dropped: a pseudo-cell is all that is left of the row, its
    row deletion is above both floors, and its marker is not above the partition deletion. -/
structure ComplexLost (cfg : MergerConfig) (rows : List MergeEntry) (ck : Option ClusteringKey) :
    Prop where
  backed : ∃ c, CellKept cfg.settings (rowsAt rows ck) c
  noData : ∀ c, CellUnshadowed (rowsAt rows ck) c → isDataCell ck c = false
  rowDeletion : ∃ d, RowDelKept cfg.settings (rowsAt rows ck) d ∧ AboveFloors cfg.schema rows ck d.1
  marker : ∃ t, WinningMarker (rowsAt rows ck) t ∧ ∃ d ∈ partitionDeletions rows, t ≤ d.1

section Output

variable {cfg : MergerConfig} {cks : List ClusteringKey} {ranges : List RangeTombstone}
  {key : DecoratedKey} {rows : List MergeEntry} {ck : Option ClusteringKey}

theorem EntriesIn.isDataCell_rowsAt {schema : TableSchema} (h : EntriesIn cks ranges key rows)
    (hs : KeySpace schema cks ranges) (hck : ck ∈ optionalKeys cks) {e : MergeEntry}
    (he : e ∈ rowsAt rows ck) (c : CellData) : isDataCell e.clusteringKey c = isDataCell ck c :=
  hs.isDataCell_congr (h.keys e (of_mem_rowsAt he).1) hck (of_mem_rowsAt he).2 c

theorem EntriesIn.above_floors (h : EntriesIn cks ranges key rows)
    (hs : KeySpace cfg.schema cks ranges) (hck : ck ∈ optionalKeys cks) {first : MergeEntry}
    (hfirst : first ∈ rowsAt rows ck) {t : Int} :
    (Above (rowRangeFloor cfg.schema (shadowRanges cfg.schema key rows) first.key
        first.clusteringKey) t ∧ Above (partitionFloor (maxPartitionDeletion rows)) t) ↔
      AboveFloors cfg.schema rows ck t := by
  obtain ⟨hmem, hk⟩ := of_mem_rowsAt hfirst
  rw [h.sameKey first hmem, (h.partitionInput hs).above_rowRangeFloor hmem, above_partitionFloor]
  have hcov : ∀ rt ∈ partitionRanges rows,
      (∃ x ∈ first.clusteringKey, rangeTombstoneCoversCk cfg.schema x rt = true) ↔
        ∃ x ∈ ck, rangeTombstoneCoversCk cfg.schema x rt = true := fun rt hrt =>
    hs.covers_congr h.cuts (h.keys first hmem) hck hk hrt
  constructor
  · rintro ⟨hr, hp⟩
    refine ⟨hp, fun rt hrt hc => ?_⟩
    obtain ⟨x, hx, hxc⟩ := (hcov rt hrt).mpr hc
    exact hr x hx rt hrt hxc
  · rintro ⟨hp, hr⟩
    exact ⟨fun x hx rt hrt hxc => hr rt hrt ((hcov rt hrt).mp ⟨x, hx, hxc⟩), hp⟩

/-- Degradation of the output row, read off the input. -/
theorem EntriesIn.degradedRow_iff (h : EntriesIn cks ranges key rows)
    (hs : KeySpace cfg.schema cks ranges) (hck : ck ∈ optionalKeys cks) {first e : MergeEntry}
    {rest : List MergeEntry} (hrows : rowsAt rows ck = first :: rest)
    (he : groupOutput cfg.settings first.clusteringKey first (first :: rest) = some e) :
    DegradedRow (rowRangeFloor cfg.schema (shadowRanges cfg.schema key rows) first.key
        first.clusteringKey) (maxPartitionDeletion rows) e ↔ ComplexLost cfg rows ck := by
  have hfirst : first ∈ rowsAt rows ck := by rw [hrows]; simp
  have hdata := h.isDataCell_rowsAt hs hck hfirst
  constructor
  · rintro ⟨⟨cells, hlive⟩, hnil, ⟨d, hd, hfloors⟩, pd, hpd, t, ht, hle⟩
    have hrow : RowBacked cfg.settings first.clusteringKey (first :: rest) := by
      by_contra hrow
      by_cases hdel : ∃ d, RowDelKept cfg.settings (first :: rest) d
      · obtain ⟨d', hd'⟩ := hdel
        rw [groupOutput_rowDel hrow hd'] at he
        cases he
        cases hlive
      · by_cases hmeta : HasMetadata cfg.settings (first :: rest)
        · rw [groupOutput_metadata hrow hdel hmeta] at he
          cases he
          cases hd
        · rw [groupOutput_nothing hrow hdel hmeta] at he
          cases he
    rw [groupOutput_row hrow] at he
    cases he
    obtain ⟨c, hc, hcd⟩ := hrow
    have hnodata : ∀ c', CellKept cfg.settings (first :: rest) c' →
        isDataCell first.clusteringKey c' = false := by
      intro c' hc'
      rw [← Bool.not_eq_true]
      intro hd'
      exact List.eq_nil_iff_forall_not_mem.mp hnil _
        (mem_dataCells_groupEntry.mpr ⟨c', hc', hd', rfl⟩)
    refine ⟨⟨c, by rwa [hrows]⟩, ?_, ⟨d, ?_, (h.above_floors hs hck hfirst).mp hfloors⟩, t, ?_, pd,
      Lww.latest_mem deletionSupersedes_iff hpd, hle⟩
    · intro c' hc'
      rw [hrows] at hc'
      rw [← hdata]
      rcases hcd with hcd | hcd
      · rw [hnodata c hc] at hcd
        cases hcd
      · exact hcd c' hc'
    · rw [hrows]
      exact groupRetainedRowDel_eq_some.mp hd
    · rw [hrows]
      exact groupLiveness_markerTimestamp.mp ht
  · rintro ⟨⟨c, hc⟩, hnodata, ⟨d, hd, hfloors⟩, t, ht, pd, hpd, hle⟩
    rw [hrows] at hc hnodata hd ht
    have hrow : RowBacked cfg.settings first.clusteringKey (first :: rest) :=
      ⟨c, hc, .inr fun c' hc' => by rw [hdata]; exact hnodata c' hc'⟩
    rw [groupOutput_row hrow] at he
    cases he
    refine ⟨⟨_, rfl⟩, ?_, ⟨d, groupRetainedRowDel_eq_some.mpr hd,
      (h.above_floors hs hck hfirst).mpr hfloors⟩, ?_⟩
    · rw [List.eq_nil_iff_forall_not_mem]
      intro c' hc'
      obtain ⟨c₀, hk₀, hd₀, -⟩ := mem_dataCells_groupEntry.mp hc'
      rw [hdata, hnodata c₀ hk₀.unshadowed] at hd₀
      cases hd₀
    · cases hmax : maxPartitionDeletion rows with
      | none =>
        rw [maxPartitionDeletion, Lww.latest_eq_none] at hmax
        rw [hmax] at hpd
        cases hpd
      | some pd' =>
        refine ⟨pd', rfl, t, groupLiveness_markerTimestamp.mpr ht, hle.trans ?_⟩
        exact Lww.le_latest deletionSupersedes_iff hmax hpd

/-- The content of the rows of a key in the output. -/
structure OutputContent (cfg : MergerConfig) (rows : List MergeEntry) (ck : Option ClusteringKey) :
    Prop where
  cells : ∀ c, c ∈ (evidenceAt cfg.schema (mergePartitionRows cfg rows) ck).writes ↔
    ∃ c₀, CellKept cfg.settings (rowsAt rows ck) c₀ ∧ isDataCell ck c₀ = true ∧
      AboveFloors cfg.schema rows ck c₀.timestamp ∧ expireCell cfg.settings.now c₀ = c
  rowDeletions : ∀ d, d ∈ groupRowDeletions (rowsAt (mergePartitionRows cfg rows) ck) ↔
    RowDelKept cfg.settings (rowsAt rows ck) d ∧ AboveFloors cfg.schema rows ck d.1
  complex : ∀ cd, cd ∈ groupComplex (rowsAt (mergePartitionRows cfg rows) ck) ↔
    ComplexKept cfg.settings (rowsAt rows ck) cd ∧
      AboveFloors cfg.schema rows ck cd.markedForDeleteAt ∧ ¬ ComplexLost cfg rows ck

/-- One merged row, read off its group. -/
theorem EntriesIn.mergedRow_content (h : EntriesIn cks ranges key rows)
    (hs : KeySpace cfg.schema cks ranges) (hck : ck ∈ optionalKeys cks) {first : MergeEntry}
    {rest : List MergeEntry} (hrows : rowsAt rows ck = first :: rest) :
    RowContent (mergedRow cfg key rows first rest)
      (fun c => ∃ c₀, CellKept cfg.settings (rowsAt rows ck) c₀ ∧ isDataCell ck c₀ = true ∧
        AboveFloors cfg.schema rows ck c₀.timestamp ∧ expireCell cfg.settings.now c₀ = c)
      (fun d => RowDelKept cfg.settings (rowsAt rows ck) d ∧ AboveFloors cfg.schema rows ck d.1)
      (fun cd => ComplexKept cfg.settings (rowsAt rows ck) cd ∧
        AboveFloors cfg.schema rows ck cd.markedForDeleteAt ∧ ¬ ComplexLost cfg rows ck) := by
  have hfirst : first ∈ rowsAt rows ck := by rw [hrows]; simp
  have hdata := h.isDataCell_rowsAt hs hck hfirst
  obtain ⟨h₁, h₂, h₃⟩ := groupOutput_content cfg.settings first.clusteringKey first (first :: rest)
  rw [mergedRow, mergeCluster_eq, hrows]
  cases he : groupOutput cfg.settings first.clusteringKey first (first :: rest) with
  | none =>
    simp only [he, Option.not_mem_none, false_and, exists_false, false_iff] at h₁ h₂ h₃
    refine rowContent_none ?_ ?_ ?_
    · rintro c ⟨c₀, hc₀, hd₀, -, -⟩
      exact h₁ _ ⟨c₀, hc₀, (hdata c₀).trans hd₀, rfl⟩
    · exact fun d hd => h₂ d hd.1
    · exact fun cd hcd => h₃ cd hcd.1
  | some e =>
    simp only [he, Option.mem_def, Option.some.injEq, exists_eq_left'] at h₁ h₂ h₃
    obtain ⟨g₁, g₂, g₃⟩ := (groupOutput_shape he).shadowRow_content
      (rowRangeFloor cfg.schema (shadowRanges cfg.schema key rows) first.key first.clusteringKey)
      (maxPartitionDeletion rows)
    simp only [h.above_floors hs hck hfirst, h.degradedRow_iff hs hck hrows he] at g₁ g₂ g₃
    rw [Option.bind_some]
    refine ⟨fun c => (g₁ c).trans ?_, fun d => (g₂ d).trans ?_, fun cd => (g₃ cd).trans ?_⟩
    · rw [h₁]
      constructor
      · rintro ⟨⟨c₀, hc₀, hd₀, rfl⟩, hf⟩
        exact ⟨c₀, hc₀, (hdata c₀).symm.trans hd₀, by simpa using hf, rfl⟩
      · rintro ⟨c₀, hc₀, hd₀, hf, rfl⟩
        exact ⟨⟨c₀, hc₀, (hdata c₀).trans hd₀, rfl⟩, by simpa using hf⟩
    · rw [h₂]
    · rw [h₃, and_assoc]

/-- The output at a key, read off the input. -/
theorem EntriesIn.outputContent (h : EntriesIn cks ranges key rows)
    (hs : KeySpace cfg.schema cks ranges) (hck : ck ∈ optionalKeys cks) :
    OutputContent cfg rows ck := by
  have hout := h.output hs
  cases hrows : rowsAt rows ck with
  | nil =>
    have hnil : rowsAt (mergePartitionRows cfg rows) ck = [] := by
      rw [List.eq_nil_iff_forall_not_mem]
      intro e he
      obtain ⟨first, rest, hr, -⟩ := (h.mem_rowsAt_output hs hck).mp he
      rw [hrows] at hr
      cases hr
    refine ⟨fun c => ?_, fun d => ?_, fun cd => ?_⟩
    · refine iff_of_false ?_ ?_
      · rintro ⟨hc, -⟩
        rw [hnil] at hc
        cases hc
      · rintro ⟨c₀, hc₀, -⟩
        rw [hrows] at hc₀
        cases hc₀.unshadowed.wins.mem
    · rw [hnil, hrows]
      exact iff_of_false (by simp [groupRowDeletions]) fun hd => by cases hd.1.1.mem
    · rw [hnil, hrows]
      exact iff_of_false (by simp [groupComplex]) fun hcd => by cases hcd.1.1.mem
  | cons first rest =>
    obtain ⟨h₁, h₂, h₃⟩ := h.mergedRow_content hs hck hrows
    have hmem : ∀ e, e ∈ rowsAt (mergePartitionRows cfg rows) ck ↔
        e ∈ mergedRow cfg key rows first rest := by
      intro e
      rw [h.mem_rowsAt_output hs hck, hrows]
      simp
    refine ⟨fun c => (Iff.trans ?_ (h₁ c)), fun d => (Iff.trans ?_ (h₂ d)),
      fun cd => (Iff.trans ?_ (h₃ cd))⟩
    · simp only [evidenceAt, groupCells, Set.mem_ofPred_eq, List.mem_flatMap, ← hmem]
      -- a row of the key in the output has that key
      have hkey : ∀ e ∈ rowsAt (mergePartitionRows cfg rows) ck,
          isDataCell e.clusteringKey c = isDataCell ck c :=
        fun _ he => hout.isDataCell_rowsAt hs hck he c
      constructor
      · rintro ⟨⟨e, he, hc⟩, hd⟩
        exact ⟨e, he, MergeEntry.mem_dataCells.mpr ⟨hc, (hkey e he).trans hd⟩⟩
      · rintro ⟨e, he, hc⟩
        obtain ⟨hc, hd⟩ := MergeEntry.mem_dataCells.mp hc
        exact ⟨⟨e, he, hc⟩, (hkey e he).symm.trans hd⟩
    · simp only [groupRowDeletions, List.mem_flatMap, hmem]
    · simp only [groupComplex, List.mem_flatMap, hmem]

end Output

end Cqlite
