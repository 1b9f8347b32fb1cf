import Cqlite.Merge.PartitionSpec

/-! What an emitted row says about the cells of its clustering key: its data cells, its row deletions
    and its complex deletions.

    Reconciliation and both shadow floors act on this content cell by cell and deletion by deletion,
    with one exception: a row of clustering pseudo-cells whose marker is below the partition deletion
    is turned into a bare row tombstone, and its complex deletions go with it (`DegradedRow`). -/

namespace Cqlite

/-- The data cells of an entry. -/
def MergeEntry.dataCells (e : MergeEntry) : List CellData :=
  e.cells.filter (isDataCell e.clusteringKey)

variable {e : MergeEntry}

variable {c : CellData} {complex : ComplexDeletion → Prop} {ck : Option ClusteringKey}
  {s : MergeSettings} {floor : Int} {m : MergeEntry}

theorem MergeEntry.mem_dataCells :
    c ∈ e.dataCells ↔ c ∈ e.cells ∧ isDataCell e.clusteringKey c = true := by
  simp [MergeEntry.dataCells]

/-- The content of an optional row. -/
structure RowContent (out : Option MergeEntry) (cells : CellData → Prop)
    (rowDeletions : Deletion → Prop) (complex : ComplexDeletion → Prop) : Prop where
  cells : ∀ c, (∃ e ∈ out, c ∈ e.dataCells) ↔ cells c
  rowDeletions : ∀ d, (∃ e ∈ out, d ∈ e.rowDeletions) ↔ rowDeletions d
  complex : ∀ cd, (∃ e ∈ out, cd ∈ e.complexDeletions) ↔ complex cd

theorem rowContent_none {cells : CellData → Prop} {rowDeletions : Deletion → Prop}
    (h₁ : ∀ c, ¬ cells c) (h₂ : ∀ d, ¬ rowDeletions d) (h₃ : ∀ cd, ¬ complex cd) :
    RowContent none cells rowDeletions complex where
  cells c := by simp [h₁ c]
  rowDeletions d := by simp [h₂ d]
  complex cd := by simp [h₃ cd]

theorem rowContent_some {cells : CellData → Prop} {rowDeletions : Deletion → Prop}
    (h₁ : ∀ c, c ∈ e.dataCells ↔ cells c) (h₂ : ∀ d, d ∈ e.rowDeletions ↔ rowDeletions d)
    (h₃ : ∀ cd, cd ∈ e.complexDeletions ↔ complex cd) :
    RowContent (some e) cells rowDeletions complex where
  cells c := by simpa using h₁ c
  rowDeletions d := by simpa using h₂ d
  complex cd := by simpa using h₃ cd

/-! ### Reconciliation -/

theorem mem_dataCells_groupEntry {first : MergeEntry} {rows : List MergeEntry} {ts : Int}
    {del : Option Deletion} :
    c ∈ (groupEntry s ck first rows ts (.live (groupSurviving s rows)) del).dataCells ↔
      ∃ c₀, CellKept s rows c₀ ∧ isDataCell ck c₀ = true ∧ expireCell s.now c₀ = c := by
  simp only [MergeEntry.mem_dataCells, MergeEntry.cells, groupEntry, mem_groupSurviving]
  constructor
  · rintro ⟨⟨c₀, hk, rfl⟩, hd⟩
    exact ⟨c₀, hk, by simpa using hd, rfl⟩
  · rintro ⟨c₀, hk, hd, rfl⟩
    exact ⟨⟨c₀, hk, rfl⟩, by simpa using hd⟩

/-- A reconciled row carries the kept cells, the kept row deletion and the kept complex deletions. -/
theorem groupOutput_content (s : MergeSettings) (ck : Option ClusteringKey) (first : MergeEntry)
    (rows : List MergeEntry) :
    RowContent (groupOutput s ck first rows)
      (fun c => ∃ c₀, CellKept s rows c₀ ∧ isDataCell ck c₀ = true ∧ expireCell s.now c₀ = c)
      (RowDelKept s rows) (ComplexKept s rows) := by
  have hdel : ∀ d, d ∈ (groupRetainedRowDel s rows).toList ↔ RowDelKept s rows d := by
    intro d
    rw [Option.mem_toList, groupRetainedRowDel_eq_some]
  by_cases hrow : RowBacked s ck rows
  · rw [groupOutput_row hrow]
    refine rowContent_some (fun c => mem_dataCells_groupEntry) (fun d => ?_)
      (fun cd => mem_groupRetainedComplex)
    simpa [MergeEntry.rowDeletions, MergeEntry.rowTombstone, groupEntry] using hdel d
  · -- without a row no data cell is kept
    have hcells : ∀ c, ¬ ∃ c₀, CellKept s rows c₀ ∧ isDataCell ck c₀ = true ∧
        expireCell s.now c₀ = c := by
      rintro c ⟨c₀, hk, hd, -⟩
      exact hrow ⟨c₀, hk, .inl hd⟩
    by_cases hd : ∃ d, RowDelKept s rows d
    · obtain ⟨d, hd⟩ := hd
      rw [groupOutput_rowDel hrow hd]
      refine rowContent_some (fun c => ?_) (fun d' => ?_) (fun cd => mem_groupRetainedComplex)
      · simpa [MergeEntry.mem_dataCells, MergeEntry.cells, groupEntry] using hcells c
      · rw [← hdel d', groupRetainedRowDel_eq_some.mpr hd]
        simp [MergeEntry.rowDeletions, MergeEntry.rowTombstone, groupEntry]
    · by_cases hmeta : HasMetadata s rows
      · rw [groupOutput_metadata hrow hd hmeta]
        refine rowContent_some (fun c => ?_) (fun d' => ?_) (fun cd => mem_groupRetainedComplex)
        · simpa [MergeEntry.mem_dataCells, MergeEntry.cells, groupEntry] using hcells c
        · simpa [MergeEntry.rowDeletions, MergeEntry.rowTombstone, groupEntry] using
            fun h => hd ⟨d', h⟩
      · rw [groupOutput_nothing hrow hd hmeta]
        exact rowContent_none hcells (fun d h => hd ⟨d, h⟩) fun cd h => hmeta (.inl ⟨cd, h⟩)

/-- The shape of a reconciled row: its timestamp bounds its cells and is newer than the row deletion
    riding on it, which is older than every cell; a row tombstone carries no second deletion. -/
structure RowShape (e : MergeEntry) : Prop where
  tombstone : ∀ dt ldt, e.rowData = .tombstone dt ldt → e.rowDeletion = none
  newer : ∀ d ∈ e.rowDeletion, d.1 < e.timestamp ∧ ∀ c ∈ e.cells, d.1 < c.timestamp

theorem groupOutput_shape {first : MergeEntry} {rows : List MergeEntry}
    (h : groupOutput s ck first rows = some e) : RowShape e := by
  by_cases hrow : RowBacked s ck rows
  · rw [groupOutput_row hrow] at h
    cases h
    refine ⟨fun dt ldt hd => (nomatch hd), ?_⟩
    intro d hd
    have hkept : RowDelKept s rows d := groupRetainedRowDel_eq_some.mp hd
    have hcells : ∀ c ∈ groupSurviving s rows, d.1 < c.timestamp := by
      intro c hc
      obtain ⟨c₀, hk, rfl⟩ := mem_groupSurviving.mp hc
      simpa using hk.unshadowed.row d hkept.1.mem
    obtain ⟨c, hk, -⟩ := hrow
    have hc : expireCell s.now c ∈ groupSurviving s rows := mem_groupSurviving.mpr ⟨c, hk, rfl⟩
    exact ⟨lt_of_lt_of_le (hcells _ hc) (le_maxTimestamp hc 0), hcells⟩
  · by_cases hd : ∃ d, RowDelKept s rows d
    · obtain ⟨d, hd⟩ := hd
      rw [groupOutput_rowDel hrow hd] at h
      cases h
      exact ⟨fun _ _ _ => rfl, fun d hd => (nomatch hd)⟩
    · by_cases hmeta : HasMetadata s rows
      · rw [groupOutput_metadata hrow hd hmeta] at h
        cases h
        exact ⟨fun _ _ _ => rfl, fun d hd => (nomatch hd)⟩
      · rw [groupOutput_nothing hrow hd hmeta] at h
        cases h

/-! ### One floor -/

/-- The live arm that keeps the row deletion alone: no data above the floor, no marker, and a row
    deletion above it. -/
def Degrades (floor : Int) (ml : Bool) (e : MergeEntry) : Prop :=
  ml = false ∧ (∃ cells, e.rowData = .live cells) ∧ (∀ c ∈ e.dataCells, c.timestamp ≤ floor) ∧
    ∃ d ∈ e.rowDeletion, floor < d.1

theorem complexCarrier_content (floor : Int) (e : MergeEntry) :
    RowContent (complexCarrier floor e) (fun _ => False) (fun _ => False)
      fun cd => cd ∈ e.complexDeletions ∧ floor < cd.markedForDeleteAt := by
  unfold complexCarrier
  by_cases hnil : survivingComplex floor e = []
  · have hno : ∀ cd, ¬ (cd ∈ e.complexDeletions ∧ floor < cd.markedForDeleteAt) := by
      intro cd hcd
      rw [← mem_survivingComplex, hnil] at hcd
      cases hcd
    simpa [hnil] using rowContent_none (fun _ h => h) (fun _ h => h) hno
  · have hne : (survivingComplex floor e).isEmpty = false := by simpa using hnil
    simp only [hne, Bool.not_false, if_true]
    refine rowContent_some (fun c => ?_) (fun d => ?_) fun cd => mem_survivingComplex
    · simp [MergeEntry.mem_dataCells, MergeEntry.cells, MergeEntry.withComplexDeletions,
        MergeEntry.new]
    · simp [MergeEntry.rowDeletions, MergeEntry.rowTombstone, MergeEntry.withComplexDeletions,
        MergeEntry.new]

/-- A floor keeps the content above it, except for the complex deletions of a degraded row. -/
theorem shadowBelow_content (floor : Int) (ml : Bool)
    (hshape : ∀ dt ldt, e.rowData = .tombstone dt ldt → e.rowDeletion = none) :
    RowContent (shadowBelow floor ml e) (fun c => c ∈ e.dataCells ∧ floor < c.timestamp)
      (fun d => d ∈ e.rowDeletions ∧ floor < d.1)
      fun cd => (cd ∈ e.complexDeletions ∧ floor < cd.markedForDeleteAt) ∧ ¬ Degrades floor ml e := by
  cases hrow : e.rowData with
  | tombstone dt ldt =>
    have hcells : ∀ c, c ∉ e.dataCells := by
      intro c
      simp [MergeEntry.mem_dataCells, MergeEntry.cells, hrow]
    have hdels : ∀ d, d ∈ e.rowDeletions ↔ d = (dt, ldt) := by
      intro d
      simp [MergeEntry.rowDeletions, MergeEntry.rowTombstone, hshape dt ldt hrow, hrow]
    have hdeg : ¬ Degrades floor ml e := by
      rintro ⟨-, ⟨cells, hl⟩, -⟩
      rw [hrow] at hl
      cases hl
    simp only [shadowBelow, hrow]
    by_cases hlt : floor < dt
    · rw [if_pos hlt]
      refine rowContent_some (fun c => ?_) (fun d => ?_) (fun cd => ?_)
      · simp [MergeEntry.mem_dataCells, MergeEntry.cells, MergeEntry.withComplexDeletions,
          MergeEntry.new, hcells c]
      · rw [hdels]
        simp only [MergeEntry.rowDeletions, MergeEntry.rowTombstone,
          MergeEntry.withComplexDeletions, MergeEntry.new, Option.toList_none, List.nil_append,
          Option.toList_some, List.mem_singleton]
        exact ⟨fun h => ⟨h, by rw [h]; exact hlt⟩, fun h => h.1⟩
      · exact mem_survivingComplex.trans (and_iff_left hdeg).symm
    · rw [if_neg hlt]
      obtain ⟨h₁, h₂, h₃⟩ := complexCarrier_content floor e
      refine ⟨fun c => (h₁ c).trans ?_, fun d => (h₂ d).trans ?_, fun cd => (h₃ cd).trans ?_⟩
      · simp [hcells c]
      · rw [hdels]
        constructor
        · exact False.elim
        · rintro ⟨rfl, h⟩
          exact hlt h
      · exact (and_iff_left hdeg).symm
  | live cells =>
    have hcells : ∀ c, c ∈ e.dataCells ↔ c ∈ cells ∧ isDataCell e.clusteringKey c = true := by
      intro c
      simp [MergeEntry.mem_dataCells, MergeEntry.cells, hrow]
    have hdels : ∀ d, d ∈ e.rowDeletions ↔ d ∈ e.rowDeletion := by
      intro d
      simp [MergeEntry.rowDeletions, MergeEntry.rowTombstone, hrow]
    simp only [shadowBelow, hrow]
    by_cases hkept : ((keptCells floor e.clusteringKey cells).any (isDataCell e.clusteringKey)
        || ml) = true
    · have hcond : (!(keptCells floor e.clusteringKey cells).any (isDataCell e.clusteringKey)
          && !ml) = false := by
        rw [← Bool.not_or, hkept]
        rfl
      have hdeg : ¬ Degrades floor ml e := by
        rintro ⟨rfl, -, hold, -⟩
        obtain ⟨c, hc, hd, hlt⟩ := keptCells_any.mp (by simpa using hkept)
        exact absurd (hold c ((hcells c).mpr ⟨hc, hd⟩)) (not_le.mpr hlt)
      rw [hcond]
      refine rowContent_some (fun c => ?_) (fun d => ?_) (fun cd => ?_)
      · rw [hcells]
        simp only [MergeEntry.mem_dataCells, MergeEntry.cells, rebuiltLive, MergeEntry.new,
          keptCells, List.mem_filter, Bool.or_eq_true, Bool.not_eq_true', decide_eq_true_eq]
        constructor
        · rintro ⟨⟨hc, h | h⟩, hd⟩
          · rw [hd] at h
            cases h
          · exact ⟨⟨hc, hd⟩, h⟩
        · rintro ⟨⟨hc, hd⟩, h⟩
          exact ⟨⟨hc, .inr h⟩, hd⟩
      · rw [hdels]
        simp [MergeEntry.rowDeletions, MergeEntry.rowTombstone, rebuiltLive, MergeEntry.new,
          Option.filter_eq_some_iff]
      · exact mem_survivingComplex.trans (and_iff_left hdeg).symm
    · obtain ⟨hany, hml⟩ := Bool.or_eq_false_iff.mp (Bool.not_eq_true _ ▸ hkept)
      have hold : ∀ c ∈ e.dataCells, c.timestamp ≤ floor := by
        intro c hc
        rw [hcells] at hc
        rw [← not_lt]
        intro hlt
        rw [keptCells_any.mpr ⟨c, hc.1, hc.2, hlt⟩] at hany
        cases hany
      have hnone : ∀ c, ¬ (c ∈ e.dataCells ∧ floor < c.timestamp) := by
        rintro c ⟨hc, hlt⟩
        exact absurd (hold c hc) (not_le.mpr hlt)
      simp only [hany, hml, Bool.not_false, Bool.and_self, if_true]
      cases hd : e.rowDeletion.filter fun d => floor < d.1 with
      | some d =>
        obtain ⟨hmem, hlt⟩ := Option.filter_eq_some_iff.mp hd
        have hdeg : Degrades floor ml e := ⟨hml, ⟨cells, hrow⟩, hold, d, hmem, of_decide_eq_true hlt⟩
        refine rowContent_some (fun c => ?_) (fun d' => ?_) (fun cd => ?_)
        · simpa [MergeEntry.mem_dataCells, MergeEntry.cells, MergeEntry.new] using hnone c
        · rw [hdels, hmem]
          simp only [MergeEntry.rowDeletions, MergeEntry.rowTombstone, MergeEntry.new,
            Option.toList_none, List.nil_append, Option.toList_some, List.mem_singleton,
            Option.mem_def, Option.some.injEq]
          constructor
          · rintro rfl
            exact ⟨rfl, of_decide_eq_true hlt⟩
          · rintro ⟨rfl, -⟩
            rfl
        · rw [hml] at hdeg
          simp [MergeEntry.new, hdeg]
      | none =>
        have hnodel : ∀ d, ¬ (d ∈ e.rowDeletion ∧ floor < d.1) := by
          rintro d ⟨hmem, hlt⟩
          rw [Option.mem_def.mp hmem, Option.filter_some, if_pos (decide_eq_true hlt)] at hd
          cases hd
        have hdeg : ¬ Degrades floor false e := by
          rintro ⟨-, -, -, d, hmem, hlt⟩
          exact hnodel d ⟨hmem, hlt⟩
        obtain ⟨h₁, h₂, h₃⟩ := complexCarrier_content floor e
        refine ⟨fun c => (h₁ c).trans ?_, fun d => (h₂ d).trans ?_, fun cd => (h₃ cd).trans ?_⟩
        · exact (iff_of_false (hnone c) id).symm
        · rw [hdels]
          exact (iff_of_false (hnodel d) id).symm
        · exact (and_iff_left hdeg).symm

/-! ### Both floors -/

/-- A row of clustering pseudo-cells whose row deletion is above both floors while its marker is not
    above the partition deletion. -/
def DegradedRow (f : Option Int) (p : Option Deletion) (e : MergeEntry) : Prop :=
  (∃ cells, e.rowData = .live cells) ∧ e.dataCells = [] ∧
    (∃ d ∈ e.rowDeletion, Above f d.1 ∧ Above (partitionFloor p) d.1) ∧
    ∃ pd ∈ p, ∃ t ∈ e.rowLiveness.markerTimestamp, t ≤ pd.1

/-- The range floor degrades no row: the row is newer than the deletion riding on it. -/
theorem RowShape.not_degrades (h : RowShape e) (floor : Int) :
    ¬ Degrades floor (floor < e.timestamp) e := by
  rintro ⟨hml, -, -, d, hd, hlt⟩
  have hts : floor < e.timestamp := hlt.trans (h.newer d hd).1
  exact of_decide_eq_false hml hts

/-- With the row deletion above the floor, every data cell is above it too. -/
theorem RowShape.dataCells_eq_nil (h : RowShape e) {d : Deletion} (hd : d ∈ e.rowDeletion)
    (hlt : floor < d.1) : (∀ c ∈ e.dataCells, c.timestamp ≤ floor) ↔ e.dataCells = [] := by
  rw [List.eq_nil_iff_forall_not_mem]
  refine forall_congr' fun c => forall_congr' fun hc => ?_
  have hnew := (h.newer d hd).2 c (MergeEntry.mem_dataCells.mp hc).1
  exact iff_of_false (not_le.mpr (hlt.trans hnew)) id

/-- The partition floor on a reconciled row that met no range floor. -/
theorem RowShape.degrades_partition (h : RowShape e) (pd : Deletion) :
    Degrades pd.1 (e.rowLiveness.markerSurvivesFloor e.timestamp pd.1) e ↔
      DegradedRow none (some pd) e := by
  simp only [Degrades, DegradedRow, ← Bool.not_eq_true, markerSurvivesFloor_iff, not_lt]
  constructor
  · rintro ⟨hml, hlive, hold, d, hd, hlt⟩
    refine ⟨hlive, (h.dataCells_eq_nil hd hlt).mp hold, ⟨d, hd, by simp, by simpa [partitionFloor]⟩,
      pd, rfl, ?_⟩
    cases hm : e.rowLiveness.markerTimestamp with
    | some t =>
      rw [hm] at hml
      exact ⟨t, rfl, hml⟩
    | none =>
      -- without a marker the row timestamp decides, and it is above the deletion
      rw [hm] at hml
      exact absurd (hlt.trans (h.newer d hd).1) (not_lt.mpr hml)
  · rintro ⟨hlive, hnil, ⟨d, hd, -, hp⟩, pd', hpd, t, ht, hle⟩
    obtain rfl : pd = pd' := by simpa using hpd
    refine ⟨?_, hlive, ?_, d, hd, by simpa [partitionFloor] using hp⟩
    · rw [Option.mem_def.mp ht]
      exact hle
    · simp [hnil]

/-- A reconciled row after a range floor it survives as a live row. -/
theorem RowShape.degrades_after_range (h : RowShape e) {f : Int} {pd : Deletion}
    (hm : shadowBelow f (f < e.timestamp) e = some m) :
    Degrades pd.1 (m.rowLiveness.markerSurvivesFloor m.timestamp pd.1) m ↔
      DegradedRow (some f) (some pd) e := by
  cases shadowBelow_cases hm with
  | tombstone dt ldt hrow hlt =>
    refine iff_of_false ?_ ?_
    · rintro ⟨-, ⟨cells, hl⟩, -⟩
      cases hl
    · rintro ⟨⟨cells, hl⟩, -⟩
      rw [hrow] at hl
      cases hl
  | rowDeletion cells d hrow hdata hml hd hlt =>
    exact absurd (hlt.trans (h.newer d hd).1) (of_decide_eq_false hml)
  | carrier _ hout hrow hcells =>
    refine iff_of_false ?_ ?_
    · rintro ⟨-, -, -, d, hd, -⟩
      unfold complexCarrier at hout
      split at hout
      · cases hout
        cases hd
      · cases hout
    · rintro ⟨⟨cells, hl⟩, -, ⟨d, hd, hf, -⟩, -⟩
      exact absurd ((above_some ..).mp hf) (not_lt.mpr ((hcells cells hl).2.2 d hd))
  | live cells hrow hkept =>
    have hcell : e.cells = cells := by simp [MergeEntry.cells, hrow]
    constructor
    · rintro ⟨hml, -, hold, d, hd, hlt⟩
      obtain ⟨hd, hfd⟩ := Option.filter_eq_some_iff.mp hd
      have hfd : f < d.1 := of_decide_eq_true hfd
      obtain ⟨hts, hnew⟩ := h.newer d hd
      -- every data cell would be above both floors
      have hnil : e.dataCells = [] := by
        rw [List.eq_nil_iff_forall_not_mem]
        intro c hc
        obtain ⟨hc, hdc⟩ := MergeEntry.mem_dataCells.mp hc
        have hlt' := hnew c hc
        have hin : c ∈ keptCells f e.clusteringKey cells :=
          List.mem_filter.mpr ⟨hcell ▸ hc, by simp [hfd.trans hlt']⟩
        exact absurd (hold c (MergeEntry.mem_dataCells.mpr ⟨hin, hdc⟩))
          (not_le.mpr (hlt.trans hlt'))
      have hnokept : (keptCells f e.clusteringKey cells).any (isDataCell e.clusteringKey) = false := by
        rw [← Bool.not_eq_true, keptCells_any]
        rintro ⟨c, hc, hdc, -⟩
        have : c ∈ e.dataCells := MergeEntry.mem_dataCells.mpr ⟨hcell ▸ hc, hdc⟩
        rw [hnil] at this
        cases this
      refine ⟨⟨cells, hrow⟩, hnil, ⟨d, hd, by simpa, by simpa [partitionFloor]⟩, pd, rfl, ?_⟩
      simp only [rebuiltLive, MergeEntry.new, hnokept, decide_eq_true (hfd.trans hts), if_true,
        Bool.false_eq_true, if_false, ← Bool.not_eq_true, markerSurvivesFloor_iff, not_lt] at hml
      cases hmark : e.rowLiveness.markerTimestamp with
      | some t =>
        rw [hmark] at hml
        exact ⟨t, rfl, hml⟩
      | none =>
        rw [hmark] at hml
        exact absurd (hlt.trans hts) (not_lt.mpr hml)
    · rintro ⟨-, hnil, ⟨d, hd, hf, hp⟩, pd', hpd, t, ht, hle⟩
      obtain rfl : pd = pd' := by simpa using hpd
      rw [above_some] at hf
      simp only [partitionFloor, Option.map_some, above_some] at hp
      have hts : f < e.timestamp := hf.trans (h.newer d hd).1
      refine ⟨?_, ⟨_, rfl⟩, ?_, d, ?_, hp⟩
      · simp only [rebuiltLive, decide_eq_true hts, if_true, ← Bool.not_eq_true,
          markerSurvivesFloor_iff, not_lt, Option.mem_def.mp ht]
        exact hle
      · intro c hc
        obtain ⟨hc, hdc⟩ := MergeEntry.mem_dataCells.mp hc
        have hc' : c ∈ cells := List.mem_of_mem_filter hc
        have : c ∈ e.dataCells := MergeEntry.mem_dataCells.mpr ⟨hcell ▸ hc', hdc⟩
        rw [hnil] at this
        cases this
      · exact Option.filter_eq_some_iff.mpr ⟨hd, decide_eq_true hf⟩

/-- A row tombstone left by a floor carries no second row deletion. -/
theorem shadowBelow_tombstone_rowDeletion {ml : Bool} (h : shadowBelow floor ml e = some m)
    {dt ldt : Int} (hm : m.rowData = .tombstone dt ldt) : m.rowDeletion = none := by
  cases shadowBelow_cases h with
  | tombstone _ _ hrow hlt => rfl
  | live cells hrow hkept => cases hm
  | rowDeletion cells d hrow hdata hml hd hlt => rfl
  | carrier _ hout hrow hcells =>
    unfold complexCarrier at hout
    split at hout
    · cases hout
      rfl
    · cases hout

/-- Two floors keep the content above both, except for the complex deletions of a degraded row. -/
theorem RowShape.shadowRow_content (h : RowShape e) (f : Option Int) (p : Option Deletion) :
    RowContent (shadowRow f p e)
      (fun c => c ∈ e.dataCells ∧ Above f c.timestamp ∧ Above (partitionFloor p) c.timestamp)
      (fun d => d ∈ e.rowDeletions ∧ Above f d.1 ∧ Above (partitionFloor p) d.1)
      fun cd => (cd ∈ e.complexDeletions ∧ Above f cd.markedForDeleteAt ∧
        Above (partitionFloor p) cd.markedForDeleteAt) ∧ ¬ DegradedRow f p e := by
  have hnop : ∀ f, ¬ DegradedRow f none e := by
    rintro f ⟨-, -, -, pd, hpd, -⟩
    cases hpd
  cases f with
  | none =>
    simp only [shadowRow, shadowAtRangeFloor, Option.bind_some, above_none, true_and]
    cases p with
    | none =>
      refine rowContent_some (fun c => ?_) (fun d => ?_) (fun cd => ?_)
      · simp [partitionFloor]
      · simp [partitionFloor]
      · simp [partitionFloor, hnop none]
    | some pd =>
      have hc := shadowBelow_content pd.1 (e.rowLiveness.markerSurvivesFloor e.timestamp pd.1)
        h.tombstone
      simp only [h.degrades_partition pd] at hc
      simpa only [applyPartitionShadowing, partitionFloor, Option.map_some, above_some] using hc
  | some f =>
    obtain ⟨h₁, h₂, h₃⟩ := shadowBelow_content f (f < e.timestamp) h.tombstone
    simp only [h.not_degrades f, not_false_eq_true, and_true] at h₃
    simp only [shadowRow, shadowAtRangeFloor, above_some]
    cases hm : shadowBelow f (f < e.timestamp) e with
    | none =>
      simp only [hm, Option.not_mem_none, false_and, exists_false, false_iff, not_and, not_lt]
        at h₁ h₂ h₃
      refine rowContent_none ?_ ?_ ?_
      · rintro c ⟨hc, hf, -⟩
        exact absurd hf (not_lt.mpr (h₁ c hc))
      · rintro d ⟨hd, hf, -⟩
        exact absurd hf (not_lt.mpr (h₂ d hd))
      · rintro cd ⟨⟨hcd, hf, -⟩, -⟩
        exact absurd hf (not_lt.mpr (h₃ cd hcd))
    | some m =>
      simp only [hm, Option.mem_def, Option.some.injEq, exists_eq_left'] at h₁ h₂ h₃
      rw [Option.bind_some]
      cases p with
      | none =>
        refine rowContent_some (fun c => ?_) (fun d => ?_) (fun cd => ?_)
        · simp [partitionFloor, h₁ c]
        · simp [partitionFloor, h₂ d]
        · simp [partitionFloor, h₃ cd, hnop (some f)]
      | some pd =>
        have hc := shadowBelow_content pd.1 (m.rowLiveness.markerSurvivesFloor m.timestamp pd.1)
          fun dt ldt => shadowBelow_tombstone_rowDeletion hm
        simp only [h.degrades_after_range hm, h₁, h₂, h₃, and_assoc] at hc
        simpa only [applyPartitionShadowing, partitionFloor, Option.map_some, above_some,
          and_assoc] using hc

end Cqlite
