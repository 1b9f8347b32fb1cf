import Cqlite.Merge.PartitionSpec

/-! When a clustering group is emitted at all.

    Row existence is decided by cells and deletions only: the phantom-row guard, the empty-survivor
    branches and the shadow floors never read the merged row marker. `RowRetained` is the exact
    condition, on the group's inputs, under which a row with a live marker is still emitted. -/

namespace Cqlite

/-! ### The exact condition -/

/-- Some kept cell is above the floor. -/
def HasCellAbove (s : MergeSettings) (rows : List MergeEntry) (floor : Option Int) : Prop :=
  ∃ c, CellKept s rows c ∧ Above floor c.timestamp

/-- Some kept complex deletion is above the range floor and above a second one. -/
def HasKeptComplex (s : MergeSettings) (rows : List MergeEntry) (f p : Option Int) : Prop :=
  ∃ cd, ComplexKept s rows cd ∧ Above f cd.markedForDeleteAt ∧ Above p cd.markedForDeleteAt

/-- What keeps the row in the output under the range floor `f` and the partition floor `p`: its
    cells, else its row deletion, else its complex or range metadata (emitted at timestamp `0`). -/
inductive RowRetained (s : MergeSettings) (ck : Option ClusteringKey) (rows : List MergeEntry)
    (f p : Option Int) : Prop
  | cells (hrow : RowBacked s ck rows) (habove : HasCellAbove s rows f)
  | cellsComplex (hrow : RowBacked s ck rows) (hcx : HasKeptComplex s rows f none)
      (hp : HasCellAbove s rows p ∨ HasKeptComplex s rows f p)
  | rowDeletion (hrow : ¬ RowBacked s ck rows) (d : Deletion) (hd : RowDelKept s rows d)
      (hf : Above f d.1 ∨ HasKeptComplex s rows f none)
      (hp : Above p d.1 ∨ HasKeptComplex s rows f p)
  | metadata (hrow : ¬ RowBacked s ck rows) (hd : ¬ ∃ d, RowDelKept s rows d)
      (hmeta : HasMetadata s rows) (hf : Above f 0)
  | metadataComplex (hrow : ¬ RowBacked s ck rows) (hd : ¬ ∃ d, RowDelKept s rows d)
      (hcx : HasKeptComplex s rows f none) (hp : Above p 0 ∨ HasKeptComplex s rows f p)

variable {f : Option Int} {s : MergeSettings} {ck : Option ClusteringKey} {rows : List MergeEntry}

theorem hasKeptComplex_iff {p : Option Int} :
    HasKeptComplex s rows f p ↔ HasComplexAboveBoth f p (groupRetainedComplex s rows) := by
  simp only [HasKeptComplex, HasComplexAboveBoth, mem_groupRetainedComplex]

theorem hasKeptComplex_none_iff :
    HasKeptComplex s rows f none ↔ HasComplexAbove f (groupRetainedComplex s rows) := by
  simp only [HasKeptComplex, HasComplexAbove, mem_groupRetainedComplex, above_none, and_true]

/-- The row timestamp is above a floor exactly when some kept cell is. -/
theorem above_maxTimestamp_iff (hrow : RowBacked s ck rows) {floor : Option Int} :
    Above floor (maxTimestamp (groupSurviving s rows) 0) ↔ HasCellAbove s rows floor := by
  obtain ⟨c₀, hc₀, -⟩ := hrow
  have hne : groupSurviving s rows ≠ [] := List.ne_nil_of_mem (mem_groupSurviving.mpr ⟨c₀, hc₀, rfl⟩)
  constructor
  · intro h
    obtain ⟨c', hc', hmax⟩ := exists_maxTimestamp hne 0
    obtain ⟨c, hc, rfl⟩ := mem_groupSurviving.mp hc'
    exact ⟨c, hc, by rwa [← hmax, expireCell_timestamp] at h⟩
  · rintro ⟨c, hc, habove⟩
    have hle := le_maxTimestamp (mem_groupSurviving.mpr ⟨c, hc, rfl⟩) 0
    rw [expireCell_timestamp] at hle
    exact habove.trans hle

theorem retainedRowDel_lt_maxTimestamp (hrow : RowBacked s ck rows) {d : Deletion}
    (hd : groupRetainedRowDel s rows = some d) :
    d.1 ≤ maxTimestamp (groupSurviving s rows) 0 := by
  obtain ⟨c, hc, -⟩ := hrow
  have hlt := hc.unshadowed.row d (groupRetainedRowDel_eq_some.mp hd).1.mem
  have hle := le_maxTimestamp (mem_groupSurviving.mpr ⟨c, hc, rfl⟩) 0
  rw [expireCell_timestamp] at hle
  exact hlt.le.trans hle

/-- Emission of a group whose merged marker is above the partition floor. -/
theorem groupOutput_shadowRow_isSome {first : MergeEntry} {p : Option Deletion} {t : Int}
    (hmarker : (groupLiveness rows).markerTimestamp = some t) (hp : Above (partitionFloor p) t) :
    ((groupOutput s ck first rows).bind (shadowRow f p)).isSome ↔
      RowRetained s ck rows f (partitionFloor p) := by
  by_cases hrow : RowBacked s ck rows
  · -- cells back the row
    rw [groupOutput_row hrow, Option.bind_some, shadowRow_live rfl hmarker hp
      (fun c hc => le_maxTimestamp hc 0) (fun d hd => retainedRowDel_lt_maxTimestamp hrow hd)]
    simp only [groupEntry, above_maxTimestamp_iff hrow, ← hasKeptComplex_iff,
      ← hasKeptComplex_none_iff]
    constructor
    · rintro (h | ⟨hcx, hp'⟩)
      · exact .cells hrow h
      · exact .cellsComplex hrow hcx hp'
    · rintro (⟨-, h⟩ | ⟨-, hcx, hp'⟩ | ⟨h, -, -, -, -⟩ | ⟨h, -, -, -⟩ | ⟨h, -, -, -⟩)
      · exact .inl h
      · exact .inr ⟨hcx, hp'⟩
      all_goals exact absurd hrow h
  · by_cases hd : ∃ d, RowDelKept s rows d
    · obtain ⟨d, hkept⟩ := hd
      rw [groupOutput_rowDel hrow hkept, Option.bind_some, shadowRow_tombstone rfl rfl]
      simp only [groupEntry, ← hasKeptComplex_iff, ← hasKeptComplex_none_iff]
      constructor
      · rintro ⟨hf, hp'⟩
        exact .rowDeletion hrow d hkept hf hp'
      · rintro (⟨h, -⟩ | ⟨h, -, -⟩ | ⟨-, d', hd', hf, hp'⟩ | ⟨-, h, -, -⟩ | ⟨-, h, -, -⟩)
        · exact absurd h hrow
        · exact absurd h hrow
        · obtain rfl : d = d' := hkept.1.unique hd'.1
          exact ⟨hf, hp'⟩
        · exact absurd ⟨d, hkept⟩ h
        · exact absurd ⟨d, hkept⟩ h
    · by_cases hm : HasMetadata s rows
      · rw [groupOutput_metadata hrow hd hm, Option.bind_some,
          shadowRow_live rfl hmarker hp (by simp) (by simp [groupEntry])]
        simp only [groupEntry, ← hasKeptComplex_iff, ← hasKeptComplex_none_iff]
        constructor
        · rintro (h | ⟨hcx, hp'⟩)
          · exact .metadata hrow hd hm h
          · exact .metadataComplex hrow hd hcx hp'
        · rintro (⟨h, -⟩ | ⟨h, -, -⟩ | ⟨-, d, hd', -, -⟩ | ⟨-, -, -, h⟩ | ⟨-, -, hcx, hp'⟩)
          · exact absurd h hrow
          · exact absurd h hrow
          · exact absurd ⟨d, hd'⟩ hd
          · exact .inl h
          · exact .inr ⟨hcx, hp'⟩
      · rw [groupOutput_nothing hrow hd hm]
        simp only [Option.bind_none, Option.isSome_none, Bool.false_eq_true, false_iff]
        rintro (⟨h, -⟩ | ⟨h, -, -⟩ | ⟨-, d, hd', -, -⟩ | ⟨-, -, h, -⟩ | ⟨-, -, ⟨cd, hcd, -⟩, -⟩)
        · exact hrow h
        · exact hrow h
        · exact hd ⟨d, hd'⟩
        · exact hm h
        · exact hm (.inl ⟨cd, hcd⟩)

/-! ### Live markers -/

section Rows

variable [DebugFmt]

/-- The merged marker of the group is live and strictly newer than every row, range and partition
    deletion that covers the row. -/
structure LiveMarker (schema : TableSchema) (s : MergeSettings) (rts : List KeyedRange)
    (p : Option Deletion) (ck : Option ClusteringKey) (first : MergeEntry)
    (rest : List MergeEntry) (t : Int) : Prop where
  marker : (groupLiveness (first :: rest)).markerTimestamp = some t
  live : ∀ now ∈ s.now, (groupLiveness (first :: rest)).markerLiveAt now = true
  row : ∀ d ∈ groupRowDeletions (first :: rest), d.1 < t
  range : ∀ key ∈ ck, ∀ r ∈ rts, coversRow schema first.key key r = true → r.2.deletionTime < t
  partition : ∀ d ∈ p, d.1 < t

/-- A row whose live marker is newer than every deletion is emitted exactly when its cells, its row
    deletion or its complex and range metadata still back it: the marker itself does not count. -/
theorem live_marker_row_emitted_iff (schema : TableSchema) (s : MergeSettings)
    (rts : List KeyedRange) (p : Option Deletion) (ck : Option ClusteringKey) (first : MergeEntry)
    (rest : List MergeEntry) (t : Int) :
    (LiveMarker schema s rts p ck first rest t →
        (mergeCluster schema s rts p (ck, first :: rest)).isSome) ↔
      (LiveMarker schema s rts p ck first rest t →
        RowRetained s ck (first :: rest) (rowRangeFloor schema rts first.key ck)
          (partitionFloor p)) := by
  refine imp_congr_right fun h => ?_
  rw [mergeCluster_eq]
  refine groupOutput_shadowRow_isSome h.marker fun x hx => ?_
  obtain ⟨d, hd, rfl⟩ := Option.map_eq_some_iff.mp hx
  exact h.partition d hd

end Rows

/-! ### A lost row -/

/-- `INSERT INTO t (pk) VALUES (..)` at timestamp `100` on a table without clustering columns: the
    row has a marker and no cells. -/
def keyOnlyRow : MergeEntry :=
  (MergeEntry.new 0 ⟨1, [1]⟩ none 100 (.live [])).withRowLiveness (.marker 100 none)

/-- The key-only row is not emitted, although nothing deletes it. -/
theorem key_only_row_lost :
    ¬ (LiveMarker ⟨[], fun _ => none⟩ ⟨none, i64Max, some 0, fun _ => none⟩ [] none none keyOnlyRow [] 100 →
        (mergeCluster ⟨[], fun _ => none⟩ ⟨none, i64Max, some 0, fun _ => none⟩ [] none
          (none, [keyOnlyRow])).isSome) := by
  intro h
  have hlive : LiveMarker ⟨[], fun _ => none⟩ ⟨none, i64Max, some 0, fun _ => none⟩ [] none none
      keyOnlyRow [] 100 :=
    ⟨rfl, by rintro now ⟨⟩; rfl, by decide, by simp, by simp⟩
  exact absurd (h hlive) (by decide)

end Cqlite
