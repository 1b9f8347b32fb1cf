import Cqlite.Engine.CompactionPlan
import Cqlite.Merge.PopGroups
import Cqlite.Reader.PartitionShadow

/-! Reading a partition from several SSTables (`storage/sstable/generation_merge.rs`).

    The read hands the generations to the merger, newest first, purges nothing, and drops from the
    merged rows what is no longer visible. The rows keep their cells here: the source goes on with the
    column and the value of each. -/

namespace Cqlite

/-! ### The read -/

/-- `ordered_generation_paths`: the newest generation first. -/
def orderedGenerationPaths (gens : List Nat) : List Nat := gens.insertionSort (· ≥ ·)

/-- The clock and the names of the primary key columns. -/
structure ReadShadow where
  nowSecs : Int
  keyColumns : List String

def ReadShadow.new (partitionKeys : List String) (schema : TableSchema) (now : Int) : ReadShadow :=
  ⟨now, partitionKeys ++ schema.clusteringKeys.map (·.name)⟩

/-- `cell_expiry_secs`. -/
def cellExpirySecs (c : CellData) : Option Int :=
  c.ttl.bind fun _ => c.localDeletionTime.map asU32

/-- `merged_row_shadowed_by_partition`: a row header of the marker and the data cells alone. -/
def mergedRowShadowedByPartition (cover marker maxDataTs : Option Int) (hasDeleted : Bool) : Bool :=
  match cover with
  | none => false
  | some deletedAt =>
    RowHeader.shadowedByDeletionAt ⟨marker, none, maxDataTs, none, false, hasDeleted⟩ deletedAt

/-- What the loop over the cells of a row carries. -/
structure FilterState where
  kept : List CellData
  maxDataTs : Option Int
  hasDeleted : Bool

def isTombstoneValue : Value → Bool
  | .tombstone _ => true
  | _ => false

namespace ReadShadow

variable (shadow : ReadShadow)

/-- One cell: tombstones go, primary key columns stay, data cells are tested. -/
def filterCell (cover : Option Int) (st : FilterState) (cell : CellData) : FilterState :=
  if isTombstoneValue cell.value then
    { st with hasDeleted := st.hasDeleted || !shadow.keyColumns.contains cell.column }
  else if shadow.keyColumns.contains cell.column then { st with kept := st.kept ++ [cell] }
  else
    { st with
      maxDataTs := some (st.maxDataTs.elim cell.timestamp (max · cell.timestamp))
      kept :=
        if PartitionShadow.cellShadowedOrExpired cover shadow.nowSecs (some cell.timestamp)
            (cellExpirySecs cell) then st.kept
        else st.kept ++ [cell] }

def filterCells (cover : Option Int) (cells : List CellData) : FilterState :=
  cells.foldl (shadow.filterCell cover) ⟨[], none, false⟩

def filterLive (cover marker : Option Int) (cells : List CellData) : Option (List CellData) :=
  let st := shadow.filterCells cover cells
  if mergedRowShadowedByPartition cover marker st.maxDataTs st.hasDeleted then none else some st.kept

end ReadShadow

def partitionCover (rows : List MergeEntry) : Option Int :=
  rows.findSome? fun e => e.partitionDeletion.map (·.1)

/-- `partition_live_rows`: clustering keys with their visible cells. -/
def partitionLiveRows (rows : List MergeEntry) (shadow : ReadShadow) :
    List (Option ClusteringKey × List CellData) :=
  let cover := partitionCover rows
  rows.filterMap fun entry =>
    match entry.rowData with
    | .live cells =>
      (shadow.filterLive cover entry.rowLiveness.markerTimestamp cells).bind fun surviving =>
        if surviving.isEmpty then none else some (entry.clusteringKey, surviving)
    | .tombstone _ _ => none

variable [DebugFmt]

/-- `merge_generations_for_read` on one partition. -/
def mergeGenerationsForRead (files : Nat → TableFile) (gens : List Nat) (schema : TableSchema)
    (shadow : ReadShadow) (key : DecoratedKey) : List (Option ClusteringKey × List CellData) :=
  partitionLiveRows
    (mergePartitionRows (readerConfig schema none)
      (partitionRows files (orderedGenerationPaths gens) key)) shadow

/-- The data cells that the read returns at a clustering key. -/
def readCells (files : Nat → TableFile) (gens : List Nat) (schema : TableSchema)
    (shadow : ReadShadow) (key : DecoratedKey) (ck : Option ClusteringKey) : Set CellData :=
  {c | ∃ row ∈ mergeGenerationsForRead files gens schema shadow key,
    cmpOptionKey row.1 ck = .eq ∧ c ∈ row.2 ∧ c.column ∉ shadow.keyColumns}

/-! ### The cells of a row -/

namespace ReadShadow

variable {shadow : ReadShadow} {cover : Option Int}

section

omit [DebugFmt]

theorem filterCells_concat (cells : List CellData) (c : CellData) :
    shadow.filterCells cover (cells ++ [c]) =
      shadow.filterCell cover (shadow.filterCells cover cells) c := by
  simp [filterCells]

/-- What the read keeps of the cells that are not of the primary key. -/
def Keeps (shadow : ReadShadow) (cover : Option Int) (c : CellData) : Prop :=
  isTombstoneValue c.value = false ∧ PartitionShadow.cellShadowedOrExpired cover shadow.nowSecs
    (some c.timestamp) (cellExpirySecs c) = false

variable {cells : List CellData}

/-- Which cells the reader keeps. -/
theorem mem_filterCells {c : CellData} (hcol : c.column ∉ shadow.keyColumns) :
    c ∈ (shadow.filterCells cover cells).kept ↔ c ∈ cells ∧ shadow.Keeps cover c := by
  induction cells using List.reverseRecOn with
  | nil => simp [filterCells]
  | append_singleton cells b ih =>
    rw [filterCells_concat, List.mem_append, List.mem_singleton, or_and_right, ← ih, filterCell]
    split
    · rename_i htomb
      refine ⟨.inl, ?_⟩
      rintro (h | ⟨rfl, hkeep, -⟩)
      · exact h
      · rw [htomb] at hkeep
        cases hkeep
    · rename_i htomb
      split
      · rename_i hkey
        have hne : c ≠ b := by
          rintro rfl
          exact hcol (List.contains_iff_mem.mp hkey)
        simp [hne]
      · split
        · rename_i hshadow
          refine ⟨.inl, ?_⟩
          rintro (h | ⟨rfl, -, hkeep⟩)
          · exact h
          · rw [hshadow] at hkeep
            cases hkeep
        · rename_i hshadow
          simp only [List.mem_append, List.mem_singleton]
          refine or_congr_right ⟨?_, fun h => h.1⟩
          rintro rfl
          exact ⟨rfl, by simpa using htomb, by simpa using hshadow⟩

theorem le_maxDataTs {c : CellData} (hc : c ∈ cells) (hcol : c.column ∉ shadow.keyColumns)
    (hvalue : isTombstoneValue c.value = false) :
    ∃ t ∈ (shadow.filterCells cover cells).maxDataTs, c.timestamp ≤ t := by
  induction cells using List.reverseRecOn with
  | nil => cases hc
  | append_singleton cells b ih =>
    rw [filterCells_concat, filterCell]
    rcases List.mem_append.mp hc with hc | hc
    · obtain ⟨t, ht, hle⟩ := ih hc
      rw [Option.mem_def] at ht
      split
      · exact ⟨t, ht, hle⟩
      · split
        · exact ⟨t, ht, hle⟩
        · refine ⟨max t b.timestamp, by simp [ht], hle.trans (le_max_left ..)⟩
    · obtain rfl := List.mem_singleton.mp hc
      rw [if_neg (by simp [hvalue]), if_neg (by simpa using hcol)]
      cases (shadow.filterCells cover cells).maxDataTs with
      | none => exact ⟨_, rfl, le_rfl⟩
      | some m => exact ⟨_, rfl, le_max_right ..⟩

/-- A row with a data cell above the partition deletion is not hidden. -/
theorem not_rowShadowed {c : CellData} (hc : c ∈ cells) (hcol : c.column ∉ shadow.keyColumns)
    (hvalue : isTombstoneValue c.value = false) (habove : ∀ d ∈ cover, d < c.timestamp)
    (marker : Option Int) :
    mergedRowShadowedByPartition cover marker (shadow.filterCells cover cells).maxDataTs
      (shadow.filterCells cover cells).hasDeleted = false := by
  obtain ⟨t, ht, hle⟩ : ∃ t ∈ (shadow.filterCells cover cells).maxDataTs, c.timestamp ≤ t :=
    le_maxDataTs hc hcol hvalue
  rw [Option.mem_def.mp ht]
  cases cover with
  | none => rfl
  | some d =>
    have hlt : d < t := lt_of_lt_of_le (habove d rfl) hle
    have hmax : ¬ max (marker.getD i64Min) t ≤ d := not_le.mpr (lt_max_of_lt_right hlt)
    rw [mergedRowShadowedByPartition, RowHeader.shadowedByDeletionAt, RowHeader.maxWriteTimestamp,
      decide_eq_false hmax, Bool.and_false]

end

end ReadShadow

/-! ### What a merge leaves of a key -/

/-- The first of the cells of highest rank of its key, and newer than everything that deletes it. -/
structure Standing (schema : TableSchema) (rows : List MergeEntry) (ck : Option ClusteringKey)
    (c : CellData) : Prop where
  wins : Lww.IsWinner CellData.cellKey cellRank (groupCells (rowsAt rows ck)) c
  data : isDataCell ck c = true
  undeleted : ∀ t, DeletedAt schema rows ck c.cellKey t → t < c.timestamp

section Output

variable {cks : List ClusteringKey} {ranges : List RangeTombstone} {key : DecoratedKey}
  {rows : List MergeEntry} {ck : Option ClusteringKey} {cfg : MergerConfig} {c : CellData}

section

variable (h : EntriesIn cks ranges key rows)

include h

/-- The cells of an output: those that stand, expired, unless purged. -/
theorem EntriesIn.mem_output (hs : KeySpace cfg.schema cks ranges) (hck : ck ∈ optionalKeys cks) :
    c ∈ (evidenceAt cfg.schema (mergePartitionRows cfg rows) ck).writes ↔
      ∃ c₀, Standing cfg.schema rows ck c₀ ∧
        cellPurgeable cfg.settings (expireCell cfg.settings.now c₀) = false ∧
          expireCell cfg.settings.now c₀ = c := by
  rw [(h.outputContent hs hck).cells]
  constructor
  · rintro ⟨c₀, hkept, hdata, hfloors, rfl⟩
    exact ⟨c₀, ⟨hkept.unshadowed.wins, hdata, (outlasts_of_kept hkept hfloors).undeleted⟩,
      hkept.notPurged, rfl⟩
  · rintro ⟨c₀, hstands, hpurge, rfl⟩
    obtain ⟨hun, hdrop, hfloors⟩ : CellUnshadowed (rowsAt rows ck) c₀ ∧
        survivesDrop cfg.settings.dropped c₀ = true ∧ AboveFloors cfg.schema rows ck c₀.timestamp :=
      unshadowed_of_outlasts hstands.wins hstands.undeleted
    exact ⟨c₀, ⟨hun, hdrop, hpurge⟩, hstands.data, hfloors, rfl⟩

theorem EntriesIn.mem_output_alive (hs : KeySpace cfg.schema cks ranges)
    (hck : ck ∈ optionalKeys cks) (halive : ¬ CellDead cfg.settings.now c) :
    c ∈ (evidenceAt cfg.schema (mergePartitionRows cfg rows) ck).writes ↔
      Standing cfg.schema rows ck c := by
  rw [h.mem_output hs hck]
  constructor
  · rintro ⟨c₀, hstands, -, rfl⟩
    rw [cellDead_expireCell] at halive
    rwa [expireCell_of_alive halive]
  · intro hstands
    refine ⟨c, hstands, ?_, expireCell_of_alive halive⟩
    rw [← Bool.not_eq_true]
    exact fun hp => halive (of_cellPurgeable hp).1

theorem EntriesIn.mem_read_output {schema : TableSchema} (hs : KeySpace schema cks ranges)
    (hck : ck ∈ optionalKeys cks) :
    c ∈ (evidenceAt schema (mergePartitionRows (readerConfig schema none) rows) ck).writes ↔
      Standing schema rows ck c := by
  have hexpire : ∀ c, expireCell none c = c := fun _ => rfl
  refine (@EntriesIn.mem_output _ _ _ _ _ ck (readerConfig schema none) c h hs hck).trans ?_
  constructor
  · rintro ⟨c₀, hstands, -, rfl⟩
    exact hstands
  · exact fun hstands => ⟨c, hstands, cellPurgeable_eq_false rfl _, hexpire c⟩

theorem EntriesIn.not_carrier_of_cell (hs : KeySpace cfg.schema cks ranges) {e : MergeEntry}
    (he : e ∈ mergePartitionRows cfg rows) (hc : c ∈ e.cells) : isCarrier e = false := by
  rcases (h.partitionInput hs).mem_mergePartitionRows.mp he with ⟨first, rest, hcl, hrow⟩ | he | he
  · exact (h.mergedRow_plain hcl hrow).2.1
  · obtain ⟨k, rt, rfl⟩ := rangeCarriers_frame he
    cases hc
  · obtain ⟨k, d, rfl⟩ := partitionCarrier_frame he
    cases hc

theorem EntriesIn.lt_of_partitionCover {schema : TableSchema} (hs : KeySpace schema cks ranges)
    (hc : Standing schema rows ck c) :
    ∀ d ∈ partitionCover (mergePartitionRows (readerConfig schema none) rows), d < c.timestamp := by
  intro d hd
  obtain ⟨e, he, hed⟩ := List.exists_of_findSome?_eq_some hd
  obtain ⟨del, hdel, rfl⟩ := Option.map_eq_some_iff.mp hed
  have hmem : del ∈ partitionDeletions (mergePartitionRows (readerConfig schema none) rows) :=
    List.mem_filterMap.mpr ⟨e, he, hdel⟩
  obtain ⟨hmax, -⟩ : maxPartitionDeletion rows = some del ∧
      (readerConfig schema none).settings.purges del.1 del.2 = false :=
    (h.mem_partitionDeletions_output hs).mp hmem
  exact hc.undeleted _ (.partition del (Lww.latest_mem deletionSupersedes_iff hmax))

end

end Output

/-! ### What the read returns -/

section Read

variable {cks : List ClusteringKey} {ranges : List RangeTombstone} {key : DecoratedKey}
  {files : Nat → TableFile} {gens : List Nat} {schema : TableSchema} {ck : Option ClusteringKey}
  {c : CellData} {partitionKeys : List String} {now : Int}

/-- The cell is visible to the read at its clock. -/
structure Shows (shadow : ReadShadow) (c : CellData) : Prop where
  column : c.column ∉ shadow.keyColumns
  value : isTombstoneValue c.value = false
  fresh : ∀ t ∈ cellExpirySecs c, shadow.nowSecs < t

omit [DebugFmt] in
theorem cellShadowedOrExpired_eq_false {cover expiry : Option Int} {now ts : Int} :
    PartitionShadow.cellShadowedOrExpired cover now (some ts) expiry = false ↔
      (∀ d ∈ cover, d < ts) ∧ ∀ t ∈ expiry, now < t := by
  cases cover <;> cases expiry <;> simp [PartitionShadow.cellShadowedOrExpired]

omit [DebugFmt] in
theorem Shows.keeps {shadow : ReadShadow} (h : Shows shadow c) {cover : Option Int}
    (habove : ∀ d ∈ cover, d < c.timestamp) : shadow.Keeps cover c :=
  ⟨h.value, cellShadowedOrExpired_eq_false.mpr ⟨habove, h.fresh⟩⟩

omit [DebugFmt] in
theorem shows_of_keeps {shadow : ReadShadow} {cover : Option Int} (hcol : c.column ∉ shadow.keyColumns)
    (h : shadow.Keeps cover c) : Shows shadow c :=
  ⟨hcol, h.1, (cellShadowedOrExpired_eq_false.mp h.2).2⟩

theorem KeySpace.isDataCell_of_column (hs : KeySpace schema cks ranges) (hck : ck ∈ optionalKeys cks)
    (hcol : c.column ∉ (ReadShadow.new partitionKeys schema now).keyColumns) :
    isDataCell ck c = true := by
  rw [isDataCell, Bool.not_eq_true', ← Bool.not_eq_true, List.contains_iff_mem]
  intro hmem
  refine hcol (List.mem_append_right _ ?_)
  cases ck with
  | none => cases hmem
  | some x =>
    have hx := hs.names x (Cqlite.mem_optionalKeys.mp hck x rfl)
    rwa [show ckNames (some x) = x.columnNames from rfl, hx] at hmem

/-- The read returns the cells that stand over its generations, the newest first, and show. -/
theorem EntriesIn.mem_readCells
    (h : EntriesIn cks ranges key (partitionRows files (orderedGenerationPaths gens) key))
    (hs : KeySpace schema cks ranges) (hck : ck ∈ optionalKeys cks) :
    c ∈ readCells files gens schema (.new partitionKeys schema now) key ck ↔
      Standing schema (partitionRows files (orderedGenerationPaths gens) key) ck c ∧
        Shows (.new partitionKeys schema now) c := by
  rw [← h.mem_read_output hs hck]
  constructor
  · rintro ⟨row, hrow, hkey, hc, hcol⟩
    obtain ⟨e, he, hlive⟩ := List.mem_filterMap.mp hrow
    cases hdata : e.rowData with
    | tombstone dt ldt => rw [hdata] at hlive; cases hlive
    | live cells =>
      rw [hdata] at hlive
      obtain ⟨surviving, hfilter, hsome⟩ := Option.bind_eq_some_iff.mp hlive
      split at hsome
      · cases hsome
      · cases hsome
        rw [ReadShadow.filterLive] at hfilter
        split at hfilter
        · cases hfilter
        · cases hfilter
          obtain ⟨hmem, hkeeps⟩ := (ReadShadow.mem_filterCells hcol).mp hc
          have hcell : c ∈ e.cells := by rwa [MergeEntry.cells, hdata]
          refine ⟨⟨List.mem_flatMap.mpr ⟨e, ?_, hcell⟩, hs.isDataCell_of_column hck hcol⟩,
            shows_of_keeps hcol hkeeps⟩
          refine List.mem_filter.mpr ⟨List.mem_filter.mpr ⟨he, ?_⟩, by simpa using hkey⟩
          rw [h.not_carrier_of_cell hs he hcell]
          rfl
  · rintro ⟨hw, hshow⟩
    have hstands := (h.mem_read_output hs hck).mp hw
    have habove := h.lt_of_partitionCover hs hstands
    obtain ⟨e, he, hcell⟩ := List.mem_flatMap.mp hw.1
    obtain ⟨he, hkey⟩ := List.mem_filter.mp he
    have he := List.mem_of_mem_filter he
    cases hdata : e.rowData with
    | tombstone dt ldt => rw [MergeEntry.cells, hdata] at hcell; cases hcell
    | live cells =>
      rw [MergeEntry.cells, hdata] at hcell
      have hmem := (ReadShadow.mem_filterCells hshow.column).mpr ⟨hcell, hshow.keeps habove⟩
      refine ⟨(e.clusteringKey, _), List.mem_filterMap.mpr ⟨e, he, ?_⟩, by simpa using hkey, hmem,
        hshow.column⟩
      rw [hdata]
      simp only [ReadShadow.filterLive]
      rw [if_neg (by rw [ReadShadow.not_rowShadowed hcell hshow.column hshow.value habove]; simp),
        Option.bind_some, if_neg]
      rw [List.isEmpty_iff]
      exact List.ne_nil_of_mem hmem

end Read

end Cqlite
