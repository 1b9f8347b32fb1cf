import Cqlite.Merge.Liveness
import Cqlite.Merge.RowEmission

/-! Which row markers reach the output of a partition.

    The markers of a group are folded before any deletion is applied. Afterwards the partition floor
    judges the marker by its own timestamp, the range floor judges it by the newest kept cell, and
    the row deletion does not judge it at all. `MarkerCarried` is what these rules amount to. -/

namespace Cqlite

/-! ### One floor -/

/-- The entry is a live row rather than a row tombstone. -/
def MergeEntry.isLive (e : MergeEntry) : Prop := ∃ cells, e.rowData = .live cells

variable {floor t : Int} {out e : MergeEntry} {ml : Bool} {p : Option Deletion} {f : Option Int}

variable {entry : MergeEntry}

theorem complexCarrier_fields (h : complexCarrier floor entry = some out) :
    out.clusteringKey = entry.clusteringKey ∧ out.rowLiveness = .empty := by
  unfold complexCarrier at h
  split at h
  · cases h
    exact ⟨rfl, rfl⟩
  · cases h

theorem shadowBelow_keeps (floor : Int) (hlive : entry.isLive) :
    ∃ out, shadowBelow floor true entry = some out ∧ out.clusteringKey = entry.clusteringKey ∧
      out.rowLiveness = entry.rowLiveness ∧ out.isLive := by
  obtain ⟨cells, hcells⟩ := hlive
  rw [shadowBelow_live_marker hcells]
  exact ⟨_, rfl, rfl, rfl, _, rfl⟩

theorem shadowBelow_clusteringKey (h : shadowBelow floor ml entry = some out) :
    out.clusteringKey = entry.clusteringKey := by
  cases shadowBelow_cases h with
  | tombstone dt ldt hrow hlt => rfl
  | live cells hrow hkept => rfl
  | rowDeletion cells d hrow hdata hml hd hlt => rfl
  | carrier _ hout hrow hcells => exact (complexCarrier_fields hout).1

theorem shadowBelow_clears (h : shadowBelow floor ml entry = some out)
    (hml : ¬ (ml = true ∧ entry.isLive)) : out.rowLiveness = .empty := by
  cases shadowBelow_cases h with
  | tombstone dt ldt hrow hlt => rfl
  | live cells hrow hkept =>
    have hml' : ml = false := by
      rw [← Bool.not_eq_true]
      exact fun hm => hml ⟨hm, cells, hrow⟩
    simp [rebuiltLive, hml']
  | rowDeletion cells d hrow hdata hml hd hlt => rfl
  | carrier _ hout hrow hcells => exact (complexCarrier_fields hout).2

theorem shadowBelow_empty (h : shadowBelow floor ml entry = some out)
    (he : entry.rowLiveness = .empty) : out.rowLiveness = .empty := by
  by_cases hml : ml = true ∧ entry.isLive
  · obtain ⟨rfl, hlive⟩ := hml
    obtain ⟨out', hout, -, hl, -⟩ := shadowBelow_keeps floor hlive
    rw [h] at hout
    cases hout
    rw [hl, he]
  · exact shadowBelow_clears h hml

/-! ### Both floors -/

/-- The marker gets past both floors: the range floor asks the row's timestamp, the partition floor
    the marker's own; a row tombstone loses its marker to either. -/
def MarkerPasses (f p : Option Int) (e : MergeEntry) (t : Int) : Prop :=
  (f = none ∨ e.isLive ∧ Above f e.timestamp) ∧ (p = none ∨ e.isLive ∧ Above p t)

/-- The result exists and carries `l` when `carried`, and carries no marker otherwise. -/
def CarriesMarker (l : RowLiveness) (result : Option MergeEntry) (carried : Prop) : Prop :=
  (carried → ∃ out, result = some out ∧ out.rowLiveness = l) ∧
    (¬ carried → ∀ out, result = some out → out.rowLiveness = .empty)

theorem applyPartitionShadowing_empty (h : applyPartitionShadowing p e = some out)
    (he : e.rowLiveness = .empty) : out.rowLiveness = .empty := by
  cases p with
  | none => cases h; exact he
  | some p => exact shadowBelow_empty h he

theorem shadowRow_empty (h : shadowRow f p e = some out) (he : e.rowLiveness = .empty) :
    out.rowLiveness = .empty :=
  shadowRow_rule (P := fun e => e.rowLiveness = .empty)
    (fun _ _ _ _ hstep he => shadowBelow_empty hstep he) h he

theorem shadowRow_clusteringKey (h : shadowRow f p e = some out) :
    out.clusteringKey = e.clusteringKey :=
  shadowRow_rule (fun _ _ _ _ hstep he => (shadowBelow_clusteringKey hstep).trans he) h rfl

theorem applyPartitionShadowing_marker (hm : e.rowLiveness.markerTimestamp = some t) :
    CarriesMarker e.rowLiveness (applyPartitionShadowing p e)
      (partitionFloor p = none ∨ e.isLive ∧ Above (partitionFloor p) t) := by
  unfold CarriesMarker
  cases p with
  | none => simp [partitionFloor, applyPartitionShadowing]
  | some p =>
    have hverdict : e.rowLiveness.markerSurvivesFloor e.timestamp p.1 = decide (p.1 < t) := by
      rw [Bool.eq_iff_iff, markerSurvivesFloor_iff, hm]
      simp
    simp only [partitionFloor, Option.map_some, reduceCtorEq, false_or, above_some,
      applyPartitionShadowing, hverdict]
    refine ⟨fun hpass => ?_, fun hpass out hout => ?_⟩
    · obtain ⟨out, hout, -, hl, -⟩ := shadowBelow_keeps p.1 hpass.1
      exact ⟨out, by rw [decide_eq_true hpass.2]; exact hout, hl⟩
    · exact shadowBelow_clears hout fun h => hpass ⟨h.2, of_decide_eq_true h.1⟩

/-- When a marker passes the floors. -/
theorem shadowRow_marker (hm : e.rowLiveness.markerTimestamp = some t) :
    CarriesMarker e.rowLiveness (shadowRow f p e) (MarkerPasses f (partitionFloor p) e t) := by
  cases f with
  | none =>
    simp only [MarkerPasses, true_or, true_and, shadowRow, shadowAtRangeFloor, Option.bind_some]
    exact applyPartitionShadowing_marker hm
  | some f =>
    by_cases hf : e.isLive ∧ f < e.timestamp
    · -- the entry after the range floor keeps marker and kind
      obtain ⟨mid, hmid, -, hl, hlive⟩ := shadowBelow_keeps f hf.1
      have hrow : shadowRow (some f) p e = applyPartitionShadowing p mid := by
        simp only [shadowRow, shadowAtRangeFloor, decide_eq_true hf.2, hmid, Option.bind_some]
      have hmid' : CarriesMarker mid.rowLiveness (applyPartitionShadowing p mid)
          (partitionFloor p = none ∨ mid.isLive ∧ Above (partitionFloor p) t) :=
        applyPartitionShadowing_marker (by rw [hl]; exact hm)
      simp only [hlive, true_and, hl] at hmid'
      simp only [MarkerPasses, reduceCtorEq, false_or, above_some, hf, and_self, true_and, hrow]
      exact hmid'
    · refine ⟨fun h => absurd (h.1.resolve_left (by simp)) (by simpa using hf), fun _ out hout => ?_⟩
      obtain ⟨mid, hmid, hout⟩ := Option.bind_eq_some_iff.mp hout
      refine applyPartitionShadowing_empty hout (shadowBelow_clears hmid fun h => hf ?_)
      exact ⟨h.2, of_decide_eq_true h.1⟩

/-! ### A group -/

/-- The group's marker `t` reaches the output under the floors `f` and `p`. It is attached to the
    live row (judged by the newest kept cell), to a row tombstone when no floor applies, or to the
    metadata-only entry at timestamp `0`. -/
inductive MarkerCarried (s : MergeSettings) (ck : Option ClusteringKey) (rows : List MergeEntry)
    (f p : Option Int) (t : Int) : Prop
  | cells (hrow : RowBacked s ck rows) (hf : HasCellAbove s rows f) (hp : Above p t)
  | rowDeletion (hrow : ¬ RowBacked s ck rows) (hd : ∃ d, RowDelKept s rows d) (hf : f = none)
      (hp : p = none)
  | metadata (hrow : ¬ RowBacked s ck rows) (hd : ¬ ∃ d, RowDelKept s rows d)
      (hmeta : HasMetadata s rows) (hf : Above f 0) (hp : Above p t)

theorem MarkerCarried.above_partition {s : MergeSettings} {ck : Option ClusteringKey}
    {rows : List MergeEntry} {p : Option Int} (h : MarkerCarried s ck rows f p t) : Above p t := by
  cases h with
  | cells hrow hf hp => exact hp
  | rowDeletion hrow hd hf hp => exact hp ▸ above_none t
  | metadata hrow hd hmeta hf hp => exact hp

theorem above_or_none : f = none ∨ Above f t ↔ Above f t := by
  constructor
  · rintro (rfl | h)
    · exact above_none t
    · exact h
  · exact .inr

theorem markerPasses_live {p : Option Int} (h : e.isLive) :
    MarkerPasses f p e t ↔ Above f e.timestamp ∧ Above p t := by
  simp only [MarkerPasses, h, true_and, above_or_none]

/-- Which marker leaves the group. -/
theorem groupOutput_marker {s : MergeSettings} {ck : Option ClusteringKey} {first : MergeEntry}
    {rows : List MergeEntry} (hm : (groupLiveness rows).markerTimestamp = some t) :
    CarriesMarker (groupLiveness rows) ((groupOutput s ck first rows).bind (shadowRow f p))
      (MarkerCarried s ck rows f (partitionFloor p) t) := by
  -- in each outcome the marker passes the floors exactly when it is carried
  have houtcome : ∀ e, groupOutput s ck first rows = some e →
      (MarkerCarried s ck rows f (partitionFloor p) t ↔ MarkerPasses f (partitionFloor p) e t) →
      e.rowLiveness = groupLiveness rows →
      CarriesMarker (groupLiveness rows) ((groupOutput s ck first rows).bind (shadowRow f p))
        (MarkerCarried s ck rows f (partitionFloor p) t) := fun e he hiff hl => by
    rw [he, Option.bind_some, hiff, ← hl]
    exact shadowRow_marker (by rw [hl]; exact hm)
  by_cases hrow : RowBacked s ck rows
  · refine houtcome _ (groupOutput_row hrow) ?_ rfl
    rw [markerPasses_live ⟨_, rfl⟩]
    simp only [groupEntry, above_maxTimestamp_iff hrow]
    constructor
    · rintro (⟨-, hf, hp⟩ | ⟨h, -, -, -⟩ | ⟨h, -, -, -, -⟩)
      · exact ⟨hf, hp⟩
      · exact absurd hrow h
      · exact absurd hrow h
    · rintro ⟨hf, hp⟩
      exact .cells hrow hf hp
  · by_cases hd : ∃ d, RowDelKept s rows d
    · obtain ⟨d, hkept⟩ := hd
      refine houtcome _ (groupOutput_rowDel hrow hkept) ?_ rfl
      have hdead : ¬ (groupEntry s ck first rows d.1 (.tombstone d.1 d.2) none).isLive := by
        rintro ⟨cells, h⟩
        cases h
      simp only [MarkerPasses, hdead, false_and, or_false]
      constructor
      · rintro (⟨h, -, -⟩ | ⟨-, -, hf, hp⟩ | ⟨-, h, -, -, -⟩)
        · exact absurd h hrow
        · exact ⟨hf, hp⟩
        · exact absurd ⟨d, hkept⟩ h
      · rintro ⟨hf, hp⟩
        exact .rowDeletion hrow ⟨d, hkept⟩ hf hp
    · by_cases hmeta : HasMetadata s rows
      · refine houtcome _ (groupOutput_metadata hrow hd hmeta) ?_ rfl
        rw [markerPasses_live ⟨_, rfl⟩]
        constructor
        · rintro (⟨h, -, -⟩ | ⟨-, h, -, -⟩ | ⟨-, -, -, hf, hp⟩)
          · exact absurd h hrow
          · exact absurd h hd
          · exact ⟨hf, hp⟩
        · rintro ⟨hf, hp⟩
          exact .metadata hrow hd hmeta hf hp
      · rw [groupOutput_nothing hrow hd hmeta]
        refine ⟨?_, fun _ out hout => by cases hout⟩
        rintro (⟨h, -, -⟩ | ⟨-, h, -, -⟩ | ⟨-, -, h, -, -⟩)
        · exact absurd h hrow
        · exact absurd h hd
        · exact absurd h hmeta

/-! ### The partition -/

section Partition

variable [DebugFmt]

/-- The timestamp-winning marker of a clustering key, newer than the key's row deletions, than the
    ranges that cover the key and than the partition deletions. -/
structure MarkerUndeleted (schema : TableSchema) (rows : List MergeEntry)
    (ck : Option ClusteringKey) (t : Int) : Prop where
  winning : WinningMarker (rowsAt rows ck) t
  row : ∀ d ∈ groupRowDeletions (rowsAt rows ck), d.1 < t
  range : ∀ key ∈ ck, ∀ rt ∈ partitionRanges rows,
    rangeTombstoneCoversCk schema key rt = true → rt.deletionTime < t
  partition : ∀ d ∈ partitionDeletions rows, d.1 < t

/-- The floor of the coalesced ranges for a row of the partition. -/
def clusterFloor (schema : TableSchema) (rows : List MergeEntry) (first : MergeEntry) : Option Int :=
  rowRangeFloor schema (shadowRanges schema first.key rows) first.key first.clusteringKey

variable {cfg : MergerConfig} {rest rows : List MergeEntry}

/-- The liveness of an emitted row: the folded marker of its group if it is carried. -/
theorem mergedRow_marker {key : DecoratedKey} (h : PartitionInput cfg.schema key rows)
    {first : MergeEntry} (hcl : IsCluster rows first rest)
    (hm : (groupLiveness (first :: rest)).markerTimestamp = some t) :
    CarriesMarker (groupLiveness (first :: rest)) (mergedRow cfg key rows first rest)
      (MarkerCarried cfg.settings first.clusteringKey (first :: rest)
        (clusterFloor cfg.schema rows first) (partitionFloor (maxPartitionDeletion rows)) t) := by
  have hkey : first.key = key := h.sameKey first (hcl.mem (by simp))
  rw [mergedRow, mergeCluster_eq, clusterFloor, hkey]
  exact groupOutput_marker hm

theorem mergedRow_clusteringKey {key : DecoratedKey} {first : MergeEntry}
    (h : mergedRow cfg key rows first rest = some out) :
    out.clusteringKey = first.clusteringKey := by
  rw [mergedRow, mergeCluster_eq] at h
  obtain ⟨e, he, hout⟩ := Option.bind_eq_some_iff.mp h
  obtain ⟨ts, data, del, rfl⟩ := groupOutput_frame he
  exact (shadowRow_clusteringKey hout).trans rfl

theorem mergedRow_unmarked {key : DecoratedKey} {first : MergeEntry}
    (hm : (groupLiveness (first :: rest)).markerTimestamp = none)
    (h : mergedRow cfg key rows first rest = some out) : out.rowLiveness = .empty := by
  rw [mergedRow, mergeCluster_eq] at h
  obtain ⟨e, he, hout⟩ := Option.bind_eq_some_iff.mp h
  obtain ⟨ts, data, del, rfl⟩ := groupOutput_frame he
  refine shadowRow_empty hout (groupLiveness_normal _ ?_)
  rw [← RowLiveness.marker_iff, hm]
  rfl

/-- Markers in the output are undeleted ones exactly when no group with a deleted marker carries
    it: a marker at or below its row deletion or a covering range must not ride on a newer kept
    cell, on a row tombstone outside every floor, or on carried metadata. -/
theorem deleted_marker_dropped_iff (cfg : MergerConfig) (key : DecoratedKey)
    (rows : List MergeEntry) (h : PartitionInput cfg.schema key rows) :
    (∀ e ∈ mergePartitionRows cfg rows,
      (e.rowLiveness.hasMarker = true → ∃ t, MarkerUndeleted cfg.schema rows e.clusteringKey t) ∧
      (e.rowLiveness.hasMarker = false → e.rowLiveness = .empty)) ↔
    ∀ first rest t, IsCluster rows first rest → WinningMarker (first :: rest) t →
      MarkerCarried cfg.settings first.clusteringKey (first :: rest)
        (clusterFloor cfg.schema rows first) (partitionFloor (maxPartitionDeletion rows)) t →
      (∀ d ∈ groupRowDeletions (first :: rest), d.1 < t) ∧
      (∀ ck ∈ first.clusteringKey, ∀ rt ∈ partitionRanges rows,
        rangeTombstoneCoversCk cfg.schema ck rt = true → rt.deletionTime < t) := by
  constructor
  · intro hall first rest t hcl hwin hcarried
    have hm := groupLiveness_markerTimestamp.mpr hwin
    obtain ⟨out, hout, hl⟩ := (mergedRow_marker h hcl hm).1 hcarried
    have hck := mergedRow_clusteringKey hout
    have hmem := h.mem_mergePartitionRows.mpr (.inl ⟨first, rest, hcl, hout⟩)
    have hmarker : out.rowLiveness.hasMarker = true := by
      rw [hl, ← RowLiveness.marker_iff, hm]
      rfl
    obtain ⟨t', hun⟩ := (hall out hmem).1 hmarker
    rw [hck] at hun
    have hrows : rowsAt rows first.clusteringKey = first :: rest := hcl
    have ht : t' = t := (hrows ▸ hun.winning).unique hwin
    subst ht
    exact ⟨hrows ▸ hun.row, hun.range⟩
  · intro hcond e he
    rcases h.mem_mergePartitionRows.mp he with ⟨first, rest, hcl, hout⟩ | he | he
    · have hck := mergedRow_clusteringKey hout
      cases hm : (groupLiveness (first :: rest)).markerTimestamp with
      | none =>
        have hl := mergedRow_unmarked hm hout
        rw [hl]
        exact ⟨fun hf => (by cases hf), fun _ => rfl⟩
      | some t =>
        by_cases hcarried : MarkerCarried cfg.settings first.clusteringKey (first :: rest)
          (clusterFloor cfg.schema rows first) (partitionFloor (maxPartitionDeletion rows)) t
        · obtain ⟨out, hout', hl⟩ := (mergedRow_marker h hcl hm).1 hcarried
          rw [hout] at hout'
          cases hout'
          have hwin := groupLiveness_markerTimestamp.mp hm
          obtain ⟨hrow, hrange⟩ := hcond first rest t hcl hwin hcarried
          have hrows : rowsAt rows first.clusteringKey = first :: rest := hcl
          refine ⟨fun _ => ⟨t, ?_⟩, fun hf => ?_⟩
          · rw [hck]
            exact ⟨hrows ▸ hwin, hrows ▸ hrow, hrange, above_partitionFloor.mp hcarried.above_partition⟩
          · rw [hl] at hf ⊢
            exact groupLiveness_normal _ hf
        · have hl := (mergedRow_marker h hcl hm).2 hcarried e hout
          rw [hl]
          exact ⟨fun hf => (by cases hf), fun _ => rfl⟩
    · obtain ⟨k, rt, rfl⟩ := rangeCarriers_frame he
      exact ⟨fun hf => (by cases hf), fun _ => rfl⟩
    · obtain ⟨k, d, rfl⟩ := partitionCarrier_frame he
      exact ⟨fun hf => (by cases hf), fun _ => rfl⟩

end Partition

/-! ### A resurrected marker -/

/-- `CREATE TABLE t (pk, c, v, PRIMARY KEY (pk, c))`, merged without purging. -/
def tableConfig : MergerConfig := ⟨⟨[⟨"c", .asc⟩], fun _ => none⟩, true, none, none, some 0⟩

/-- The row `c = 1` of partition `1`, as run `run` holds it. -/
def rowOne (run : Nat) (ts : Int) (data : RowData) : MergeEntry :=
  MergeEntry.new run ⟨1, [1]⟩ (some ⟨[("c", .integer 1)]⟩) ts data

/-- A tombstone of column `v`. -/
def deletedV (ts : Int) : CellData :=
  { CellData.new "v" .null ts with
    isDeleted := true }

/-- `INSERT` at `100`, a row deletion at `150` and a deletion of `v` at `200`. -/
def deletedRowRows : List MergeEntry :=
  [(rowOne 0 100 (.live [.new "c" (.integer 1) 100, .new "v" (.integer 7) 100])).withRowLiveness
      (.marker 100 none),
   rowOne 1 150 (.tombstone 150 0),
   rowOne 2 200 (.live [.new "c" (.integer 1) 200, deletedV 200])]

theorem deletedRowRows_input : PartitionInput tableConfig.schema ⟨1, [1]⟩ deletedRowRows := by decide

/-- The `INSERT` alone: its marker is carried, and nothing deletes it. -/
theorem inserted_marker_kept :
    PartitionInput tableConfig.schema ⟨1, [1]⟩ (deletedRowRows.take 1) ∧
    ∀ e ∈ mergePartitionRows tableConfig (deletedRowRows.take 1),
      (e.rowLiveness.hasMarker = true →
        ∃ t, MarkerUndeleted tableConfig.schema (deletedRowRows.take 1) e.clusteringKey t) ∧
      (e.rowLiveness.hasMarker = false → e.rowLiveness = .empty) := by
  have hinput : PartitionInput tableConfig.schema ⟨1, [1]⟩ (deletedRowRows.take 1) := by decide
  refine ⟨hinput, (deleted_marker_dropped_iff tableConfig ⟨1, [1]⟩ _ hinput).mpr ?_⟩
  intro first rest t hcl _ _
  have hnodel : ∀ e ∈ deletedRowRows.take 1, e.rowDeletions = [] := by decide
  refine ⟨fun d hd => ?_, fun ck _ rt hrt => ?_⟩
  · obtain ⟨e, he, hd⟩ := List.mem_flatMap.mp hd
    rw [hnodel e (hcl.mem he)] at hd
    cases hd
  · cases hrt

/-- The marker at `100`, deleted at `150`, is emitted on top of the cell tombstone. -/
theorem deleted_marker_resurrected :
    ¬ ∀ e ∈ mergePartitionRows tableConfig deletedRowRows,
      (e.rowLiveness.hasMarker = true →
        ∃ t, MarkerUndeleted tableConfig.schema deletedRowRows e.clusteringKey t) ∧
      (e.rowLiveness.hasMarker = false → e.rowLiveness = .empty) := by
  intro hall
  have hcl : IsCluster deletedRowRows (deletedRowRows.head (by decide)) deletedRowRows.tail := rfl
  obtain ⟨e, he⟩ := Option.isSome_iff_exists.mp (show (mergedRow tableConfig ⟨1, [1]⟩ deletedRowRows
    (deletedRowRows.head (by decide)) deletedRowRows.tail).isSome = true by decide)
  have hmarker : e.rowLiveness.hasMarker = true := by
    have : (mergedRow tableConfig ⟨1, [1]⟩ deletedRowRows (deletedRowRows.head (by decide))
      deletedRowRows.tail).any (·.rowLiveness.hasMarker) = true := by decide
    rwa [he] at this
  have hmem := deletedRowRows_input.mem_mergePartitionRows.mpr (.inl ⟨_, _, hcl, he⟩)
  obtain ⟨t, hun⟩ := (hall e hmem).1 hmarker
  rw [mergedRow_clusteringKey he] at hun
  have hrow := hun.row (150, 0) (by decide)
  obtain ⟨⟨e', he', ht⟩, -⟩ := hun.winning
  have hle : ∀ e' ∈ rowsAt deletedRowRows (deletedRowRows.head (by decide)).clusteringKey,
      ∀ ts ∈ e'.rowLiveness.markerTimestamp, ts ≤ 100 := by decide
  exact absurd (hle e' he' t ht) (not_le.mpr (lt_trans (by decide) hrow))

end Cqlite
