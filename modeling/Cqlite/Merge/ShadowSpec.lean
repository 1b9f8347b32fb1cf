import Cqlite.Merge.ReconcileSpec
import Cqlite.Merge.Shadow

/-! What survives the two shadow floors.

    A reconciled row meets the floor of the covering range tombstone first and the floor of the
    partition deletion second. The lemmas below say when anything is emitted at all; they are stated
    for the three kinds of entry that reconciliation builds. -/

namespace Cqlite

/-- Strictly newer than an optional floor. -/
def Above (floor : Option Int) (ts : Int) : Prop := ∀ f ∈ floor, f < ts

@[simp] theorem above_none (ts : Int) : Above none ts := by simp [Above]

@[simp] theorem above_some (f ts : Int) : Above (some f) ts ↔ f < ts := by simp [Above]

instance (floor : Option Int) (ts : Int) : Decidable (Above floor ts) :=
  decidable_of_iff (floor.all (fun f => f < ts) = true) (by cases floor <;> simp)

theorem Above.trans {floor : Option Int} {a b : Int} (h : Above floor a) (hab : a ≤ b) :
    Above floor b := fun f hf => lt_of_lt_of_le (h f hf) hab

/-- Both floors in the order the merge applies them. -/
def shadowRow (rangeFloor : Option Int) (maxPartitionDeletion : Option Deletion)
    (entry : MergeEntry) : Option MergeEntry :=
  (shadowAtRangeFloor rangeFloor entry).bind (applyPartitionShadowing maxPartitionDeletion)

/-! ### One floor -/

/-- The entry keeps a complex deletion above the floor. -/
def HasComplexAbove (floor : Option Int) (cds : List ComplexDeletion) : Prop :=
  ∃ cd ∈ cds, Above floor cd.markedForDeleteAt

variable {floor dt : Int} {ml : Bool} {f : Option Int} {p : Option Deletion} {entry : MergeEntry}

theorem mem_survivingComplex {cd : ComplexDeletion} :
    cd ∈ survivingComplex floor entry ↔
      cd ∈ entry.complexDeletions ∧ floor < cd.markedForDeleteAt := by
  simp [survivingComplex]

theorem survivingComplex_ne_nil :
    survivingComplex floor entry ≠ [] ↔ HasComplexAbove (some floor) entry.complexDeletions := by
  constructor
  · intro h
    obtain ⟨cd, hcd⟩ := List.exists_mem_of_ne_nil _ h
    obtain ⟨hmem, hlt⟩ := mem_survivingComplex.mp hcd
    exact ⟨cd, hmem, (above_some ..).mpr hlt⟩
  · rintro ⟨cd, hmem, hlt⟩
    exact List.ne_nil_of_mem (mem_survivingComplex.mpr ⟨hmem, (above_some ..).mp hlt⟩)

theorem complexCarrier_isSome :
    (complexCarrier floor entry).isSome ↔ HasComplexAbove (some floor) entry.complexDeletions := by
  rw [← survivingComplex_ne_nil]
  unfold complexCarrier
  cases survivingComplex floor entry <;> simp

variable {cells : List CellData}

theorem keptCells_any {ck : Option ClusteringKey} :
    (keptCells floor ck cells).any (isDataCell ck) = true ↔
      ∃ c ∈ cells, isDataCell ck c = true ∧ floor < c.timestamp := by
  simp only [keptCells, List.any_eq_true, List.mem_filter, Bool.or_eq_true, Bool.not_eq_true',
    decide_eq_true_eq]
  constructor
  · rintro ⟨c, ⟨hc, h | h⟩, hd⟩
    · rw [hd] at h; simp at h
    · exact ⟨c, hc, hd, h⟩
  · rintro ⟨c, hc, hd, h⟩
    exact ⟨c, ⟨hc, .inr h⟩, hd⟩

/-- What a floor can make of an entry: a row tombstone above it, a live row with data or marker
    above it, the row deletion of a live row that lost both, or the newer complex deletions. -/
inductive ShadowResult (floor : Int) (ml : Bool) (entry : MergeEntry) : MergeEntry → Prop
  | tombstone (dt ldt : Int) (hrow : entry.rowData = .tombstone dt ldt) (hlt : floor < dt) :
      ShadowResult floor ml entry
        ((MergeEntry.new entry.runIndex entry.key entry.clusteringKey dt
          (.tombstone dt ldt)).withComplexDeletions (survivingComplex floor entry))
  | live (cells : List CellData) (hrow : entry.rowData = .live cells)
      (hkept : (∃ c ∈ cells, isDataCell entry.clusteringKey c = true ∧ floor < c.timestamp) ∨
        ml = true) :
      ShadowResult floor ml entry
        (rebuiltLive floor ml entry (keptCells floor entry.clusteringKey cells))
  | rowDeletion (cells : List CellData) (d : Deletion) (hrow : entry.rowData = .live cells)
      (hdata : ∀ c ∈ cells, isDataCell entry.clusteringKey c = true → c.timestamp ≤ floor)
      (hml : ml = false) (hd : entry.rowDeletion = some d) (hlt : floor < d.1) :
      ShadowResult floor ml entry
        (MergeEntry.new entry.runIndex entry.key entry.clusteringKey d.1 (.tombstone d.1 d.2))
  | carrier (out : MergeEntry) (hout : complexCarrier floor entry = some out)
      (hrow : ∀ dt ldt, entry.rowData = .tombstone dt ldt → dt ≤ floor)
      (hcells : ∀ cells, entry.rowData = .live cells → ml = false ∧
        (∀ c ∈ cells, isDataCell entry.clusteringKey c = true → c.timestamp ≤ floor) ∧
        ∀ d ∈ entry.rowDeletion, d.1 ≤ floor) :
      ShadowResult floor ml entry out

/-- All that shadowing does to an entry. -/
theorem shadowBelow_cases {entry out : MergeEntry} (h : shadowBelow floor ml entry = some out) :
    ShadowResult floor ml entry out := by
  cases hrow : entry.rowData with
  | tombstone dt ldt =>
    simp only [shadowBelow, hrow] at h
    by_cases hlt : floor < dt
    · rw [if_pos hlt] at h
      cases h
      exact .tombstone dt ldt hrow hlt
    · rw [if_neg hlt] at h
      refine .carrier out h (fun dt' ldt' he => ?_) (fun cells he => ?_)
      · rw [hrow] at he
        cases he
        exact not_lt.mp hlt
      · rw [hrow] at he
        cases he
  | live cells =>
    simp only [shadowBelow, hrow] at h
    by_cases hkept : (∃ c ∈ cells, isDataCell entry.clusteringKey c = true ∧ floor < c.timestamp) ∨
        ml = true
    · have hcond : (!(keptCells floor entry.clusteringKey cells).any (isDataCell entry.clusteringKey)
          && !ml) = false := by
        rcases hkept with hk | rfl
        · rw [keptCells_any.mpr hk]; rfl
        · simp
      rw [hcond] at h
      cases h
      exact .live cells hrow hkept
    · obtain ⟨hdata, hml⟩ := not_or.mp hkept
      rw [Bool.not_eq_true] at hml
      have hany : (keptCells floor entry.clusteringKey cells).any (isDataCell entry.clusteringKey)
          = false := by
        rw [← Bool.not_eq_true]
        exact mt keptCells_any.mp hdata
      have hdata' : ∀ c ∈ cells, isDataCell entry.clusteringKey c = true → c.timestamp ≤ floor :=
        fun c hc hd => not_lt.mp fun hlt => hdata ⟨c, hc, hd, hlt⟩
      simp only [hany, hml, Bool.not_false, Bool.and_self, if_true] at h
      cases hd : entry.rowDeletion.filter fun d => floor < d.1 with
      | some d =>
        obtain ⟨hd', hlt⟩ := Option.filter_eq_some_iff.mp hd
        rw [hd] at h
        cases h
        exact .rowDeletion cells d hrow hdata' hml hd' (of_decide_eq_true hlt)
      | none =>
        rw [hd] at h
        refine .carrier out h (fun dt ldt he => ?_) (fun cells' he => ?_)
        · rw [hrow] at he
          cases he
        · rw [hrow] at he
          cases he
          refine ⟨hml, hdata', fun d hmem => not_lt.mp fun hlt => ?_⟩
          rw [Option.mem_def.mp hmem, Option.filter_some, if_pos (decide_eq_true hlt)] at hd
          cases hd

theorem shadowRow_rule {P : MergeEntry → Prop}
    (hstep : ∀ (floor : Int) (ml : Bool) (e out : MergeEntry), shadowBelow floor ml e = some out →
      P e → P out) {e out : MergeEntry} (h : shadowRow f p e = some out) (he : P e) : P out := by
  obtain ⟨mid, hmid, hout⟩ := Option.bind_eq_some_iff.mp h
  have hm : P mid := by
    cases f with
    | none => cases hmid; exact he
    | some f => exact hstep _ _ _ _ hmid he
  cases p with
  | none => cases hout; exact hm
  | some p => exact hstep _ _ _ _ hout hm

/-- A row tombstone survives a floor itself, or leaves a carrier of newer complex deletions. -/
theorem shadowBelow_tombstone {ldt : Int} (h : entry.rowData = .tombstone dt ldt) :
    (shadowBelow floor ml entry).isSome ↔
      floor < dt ∨ HasComplexAbove (some floor) entry.complexDeletions := by
  simp only [shadowBelow, h]
  by_cases hdt : floor < dt
  · simp [hdt]
  · rw [if_neg hdt, complexCarrier_isSome]
    simp [hdt]

/-- A live row survives a floor with data, marker, row deletion or complex deletion above it. -/
theorem shadowBelow_live (h : entry.rowData = .live cells) :
    (shadowBelow floor ml entry).isSome ↔
      (∃ c ∈ cells, isDataCell entry.clusteringKey c = true ∧ floor < c.timestamp) ∨ ml = true ∨
      (∃ d ∈ entry.rowDeletion, floor < d.1) ∨
      HasComplexAbove (some floor) entry.complexDeletions := by
  simp only [shadowBelow, h]
  by_cases hd : (keptCells floor entry.clusteringKey cells).any (isDataCell entry.clusteringKey)
  · have hsome := keptCells_any.mp hd
    simp [hd, hsome]
  · have hno := mt keptCells_any.mpr hd
    rw [Bool.not_eq_true] at hd
    cases ml with
    | true => simp
    | false =>
      simp only [hd, Bool.not_false, Bool.and_self, if_true, hno, false_or, Bool.false_eq_true]
      cases hr : entry.rowDeletion.filter fun d => floor < d.1 with
      | some d =>
        obtain ⟨hmem, hlt⟩ := Option.filter_eq_some_iff.mp hr
        simp only [Option.isSome_some, true_iff]
        exact .inl ⟨d, hmem, of_decide_eq_true hlt⟩
      | none =>
        have hnone : ¬ ∃ d ∈ entry.rowDeletion, floor < d.1 := by
          rintro ⟨d, hmem, hlt⟩
          rw [Option.mem_def.mp hmem, Option.filter_some, if_pos (decide_eq_true hlt)] at hr
          simp at hr
        simp only [hnone, false_or]
        exact complexCarrier_isSome

theorem shadowBelow_live_marker (h : entry.rowData = .live cells) :
    shadowBelow floor true entry =
      some (rebuiltLive floor true entry (keptCells floor entry.clusteringKey cells)) := by
  simp [shadowBelow, h]

theorem markerSurvivesFloor_iff (l : RowLiveness) (rowTs floor : Int) :
    l.markerSurvivesFloor rowTs floor = true ↔ floor < l.markerTimestamp.getD rowTs := by
  unfold RowLiveness.markerSurvivesFloor
  cases l.markerTimestamp <;> simp

/-! ### The partition floor -/

/-- The partition floor as a bare timestamp. -/
def partitionFloor (maxPartitionDeletion : Option Deletion) : Option Int :=
  maxPartitionDeletion.map (·.1)

theorem applyPartitionShadowing_tombstone {ldt : Int} (h : entry.rowData = .tombstone dt ldt) :
    (applyPartitionShadowing p entry).isSome ↔
      Above (partitionFloor p) dt ∨ HasComplexAbove (partitionFloor p) entry.complexDeletions := by
  cases p with
  | none => simp [applyPartitionShadowing, partitionFloor]
  | some p => exact (shadowBelow_tombstone h).trans (by simp [partitionFloor])

theorem applyPartitionShadowing_live (h : entry.rowData = .live cells) :
    (applyPartitionShadowing p entry).isSome ↔
      (∃ c ∈ cells, isDataCell entry.clusteringKey c = true ∧ Above (partitionFloor p) c.timestamp) ∨
      Above (partitionFloor p) (entry.rowLiveness.markerTimestamp.getD entry.timestamp) ∨
      (∃ d ∈ entry.rowDeletion, Above (partitionFloor p) d.1) ∨
      HasComplexAbove (partitionFloor p) entry.complexDeletions := by
  cases p with
  | none => simp [applyPartitionShadowing, partitionFloor]
  | some p =>
    refine (shadowBelow_live h).trans ?_
    rw [markerSurvivesFloor_iff]
    simp [partitionFloor]

/-! ### Both floors -/

/-- A complex deletion above both floors. -/
def HasComplexAboveBoth (f p : Option Int) (cds : List ComplexDeletion) : Prop :=
  ∃ cd ∈ cds, Above f cd.markedForDeleteAt ∧ Above p cd.markedForDeleteAt

theorem hasComplexAbove_survivingComplex {f : Int} {p : Option Int} :
    HasComplexAbove p (survivingComplex f entry) ↔
      HasComplexAboveBoth (some f) p entry.complexDeletions := by
  simp only [HasComplexAbove, HasComplexAboveBoth, mem_survivingComplex, above_some, and_assoc]

/-- What the partition floor does to the carrier that a range floor leaves of a covered row. -/
theorem complexCarrier_bind_isSome {f : Int} :
    ((complexCarrier f entry).bind (applyPartitionShadowing p)).isSome ↔
      HasComplexAbove (some f) entry.complexDeletions ∧
      (Above (partitionFloor p) entry.timestamp ∨
        HasComplexAboveBoth (some f) (partitionFloor p) entry.complexDeletions) := by
  rw [← survivingComplex_ne_nil, ← hasComplexAbove_survivingComplex]
  unfold complexCarrier
  by_cases hnil : survivingComplex f entry = []
  · simp [hnil]
  · have hne : (survivingComplex f entry).isEmpty = false := by simpa using hnil
    simp only [hne, Bool.not_false, if_true, Option.bind_some]
    rw [applyPartitionShadowing_live rfl]
    simp [MergeEntry.withComplexDeletions, MergeEntry.new, RowLiveness.empty, hnil]

theorem shadowRow_tombstone {ldt : Int} (h : entry.rowData = .tombstone dt ldt)
    (hts : entry.timestamp = dt) :
    (shadowRow f p entry).isSome ↔
      (Above f dt ∨ HasComplexAbove f entry.complexDeletions) ∧
      (Above (partitionFloor p) dt ∨
        HasComplexAboveBoth f (partitionFloor p) entry.complexDeletions) := by
  cases f with
  | none =>
    refine (applyPartitionShadowing_tombstone h).trans ?_
    simp [HasComplexAbove, HasComplexAboveBoth]
  | some f =>
    unfold shadowRow shadowAtRangeFloor
    by_cases hdt : f < dt
    · -- the tombstone itself passes the range floor, with the newer complex deletions
      simp only [shadowBelow, h, if_pos hdt, Option.bind_some]
      rw [applyPartitionShadowing_tombstone rfl]
      simp [hdt, MergeEntry.withComplexDeletions, hasComplexAbove_survivingComplex]
    · simp only [shadowBelow, h, if_neg hdt]
      rw [complexCarrier_bind_isSome, hts]
      simp [hdt]

/-- A live row whose marker is above the partition floor, under both floors. The row timestamp
    bounds its data cells and its row deletion, as reconciliation guarantees. -/
theorem shadowRow_live {t : Int} (h : entry.rowData = .live cells)
    (hmarker : entry.rowLiveness.markerTimestamp = some t) (hp : Above (partitionFloor p) t)
    (hcells : ∀ c ∈ cells, c.timestamp ≤ entry.timestamp)
    (hdel : ∀ d ∈ entry.rowDeletion, d.1 ≤ entry.timestamp) :
    (shadowRow f p entry).isSome ↔
      Above f entry.timestamp ∨
      (HasComplexAbove f entry.complexDeletions ∧
        (Above (partitionFloor p) entry.timestamp ∨
          HasComplexAboveBoth f (partitionFloor p) entry.complexDeletions)) := by
  cases f with
  | none =>
    have hemit : (applyPartitionShadowing p entry).isSome :=
      (applyPartitionShadowing_live h).mpr (.inr (.inl (by rwa [hmarker])))
    simpa [shadowRow, shadowAtRangeFloor] using hemit
  | some f =>
    unfold shadowRow shadowAtRangeFloor
    by_cases hts : f < entry.timestamp
    · -- the row timestamp is above the range floor, so the marker is carried on
      simp only [above_some, hts, decide_true, shadowBelow_live_marker h, Option.bind_some, true_or,
        iff_true]
      refine (applyPartitionShadowing_live rfl).mpr (.inr (.inl ?_))
      simpa [rebuiltLive, hmarker] using hp
    · -- nothing but complex deletions can be above the range floor
      have hdata : (keptCells f entry.clusteringKey cells).any (isDataCell entry.clusteringKey)
          = false := by
        rw [← Bool.not_eq_true, keptCells_any]
        rintro ⟨c, hc, -, hlt⟩
        exact hts (lt_of_lt_of_le hlt (hcells c hc))
      have hrow : entry.rowDeletion.filter (fun d => f < d.1) = none := by
        cases hd : entry.rowDeletion with
        | none => rfl
        | some d =>
          have hle : d.1 ≤ f := (hdel d hd).trans (not_lt.mp hts)
          simp [hle]
      simp only [shadowBelow, h, hdata, hts, decide_false, Bool.not_false, Bool.and_self, if_true,
        hrow, above_some, false_or]
      exact complexCarrier_bind_isSome

end Cqlite
