import Mathlib.Data.List.Flatten
import Cqlite.Merge.PurgeSafety
import Cqlite.Writer.StaticRow

/-! One flush of a row against one flush per mutation.

    `merge_row_group` selects operations for a row, `ReconcileState` reconciles what several SSTables
    hold of it. Both are read as evidence: the cells, element cells, complex deletions and row
    deletions that the selected operations stand for. A whole-collection write stands for its element
    cells under a LIVE complex deletion (`write_complex_column`), the deletion of a multi-cell column
    for a complex deletion (`write_complex_column_deletion`). How a collection is cut into element
    cells is a parameter.

    A flush keeps the newest operation of a column: the last whole-column one, NULL included, or the
    elements above it. What one flush keeps of a row and what the flushes of its mutations keep each
    on its own can be told apart only by operations that one of the two ways leaves out. -/

namespace Cqlite

/-! ### What operations stand for -/

/-- A multi-cell value as element cells at a write time: paths and values (none for a set member). -/
abbrev ElementsOf := String → Value → Int → List (Bytes × Option Value)

def elementCell (column : String) (path : Bytes) (value : Option Value) (ts : Int)
    (ttl ldt : Option Int) (isDeleted : Bool) : CellData :=
  ⟨column, value.getD .null, ts, ttl, some path, ldt, true, isDeleted, value.isNone⟩

def tombstoneCell (column : String) (ts ldt : Int) : CellData :=
  CellData.new column (.tombstone ⟨ts, .cellTombstone, ldt, none, none, none⟩) ts

section Standing

variable (schema : WriteSchema) (elementsOf : ElementsOf)

/-- The cells of a write of `value`. -/
def valueCells (column : String) (value : Value) (ts : Int) (ttl ldt : Option Int) : List CellData :=
  if schema.isComplexColumn column then
    (elementsOf column value ts).map fun p => elementCell column p.1 p.2 ts ttl ldt false
  else [{ CellData.new column value ts with ttl := ttl, localDeletionTime := ldt }]

/-- The cells of a whole-column operation; NULL is absence. -/
def wholeCells (p : String × MergedOp) : List CellData :=
  if p.2.op.isNullWrite then []
  else
    match p.2.op with
    | .write _ value =>
      valueCells schema elementsOf p.1 value p.2.timestampMicros p.2.rowTtlSeconds none
    | .writeWithTtl _ value ttl ldt =>
      valueCells schema elementsOf p.1 value p.2.timestampMicros (some ttl) ldt
    | .delete _ _ =>
      if schema.isComplexColumn p.1 then []
      else [tombstoneCell p.1 p.2.timestampMicros p.2.cellLocalDeletionTime]
    | _ => []

/-- The complex deletion a deleted multi-cell column is written as. -/
def wholeMarker (p : String × MergedOp) : Option ComplexDeletion :=
  if p.2.op.isDelete && schema.isComplexColumn p.1 then
    some ⟨p.1, p.2.timestampMicros, p.2.cellLocalDeletionTime⟩
  else none

/-- The cell of an element operation. -/
def MergedOp.elementCell? (mop : MergedOp) : Option CellData :=
  match mop.op with
  | .writeComplexElement column path value ts ttl ldt isDeleted =>
    some (elementCell column path value ts ttl ldt isDeleted)
  | _ => none

def MergedOp.marker? (mop : MergedOp) : Option ComplexDeletion :=
  match mop.op with
  | .complexDeletion column mfda ldt => some ⟨column, mfda, ldt⟩
  | _ => none

/-- Selected operations: whole-column ones with their columns, per-element ones, row deletions. -/
structure RowOps where
  whole : List (String × MergedOp)
  elements : List MergedOp
  deletions : List Deletion

namespace RowOps

variable (r : RowOps)

def cells : List CellData :=
  r.whole.flatMap (wholeCells schema elementsOf) ++ r.elements.filterMap MergedOp.elementCell?

def markers : List ComplexDeletion :=
  r.whole.filterMap (wholeMarker schema) ++ r.elements.filterMap MergedOp.marker?

/-- The entry a reader delivers for the row. `group_complex_element_ops` writes the strongest marker
    of a column; clustering columns, which the reader repeats as cells, are left out. -/
def readBack (ck : Option ClusteringKey) : MergeEntry :=
  { MergeEntry.new 0 ⟨0, []⟩ ck 0 (.live (r.cells schema elementsOf)) with
    complexDeletions := Lww.winners ComplexDeletion.column
      (fun cand existing => existing.markedForDeleteAt < cand.markedForDeleteAt) (r.markers schema)
    rowDeletion := r.deletions.head? }

end RowOps

end Standing

/-- The operations of a written row. -/
def RowWrite.rowOps (row : RowWrite) : RowOps :=
  ⟨row.ops.filterMap fun mop => mop.op.wholeColumn.map fun c => (c, mop), row.complexElementOps,
    row.rowDeletion.toList⟩

/-! ### Flushing -/

section Flush

variable (schema : WriteSchema) (skip : Bool) (elementsOf : ElementsOf) (ck : Option ClusteringKey)

/-- The entry of a row flushed from `group`, if a row is written. -/
def flushed (group : List Mutation) : Option MergeEntry :=
  (mergeRowGroup schema skip none group).map fun row => row.rowOps.readBack schema elementsOf ck

/-- The live cells of a row kept in the given entries. -/
def rowLiveCells (entries : List MergeEntry) : Set CellView :=
  {v | ∃ e, reconcileCluster .keepAll ck entries = some e ∧
    ∃ c ∈ e.cells, isCellTombstone c = false ∧ c.view = v}

/-- Every operation of the group, nothing selected. -/
def allOps (group : List Mutation) : RowOps :=
  ⟨group.flatMap (cellOpsOf schema skip none), group.flatMap (complexOpsOf schema skip),
    group.flatMap Mutation.rowDeletions⟩

/-- The deletion time over the row. -/
def groupDeletion (group : List Mutation) : Option Int :=
  (newestRowDeletion none group).map (·.1)

/-- What `merge_row_group` selects. -/
def selectedOps (group : List Mutation) : RowOps :=
  ⟨writtenCells schema skip (groupDeletion group) group,
    writtenElements schema skip (groupDeletion group) group, (newestRowDeletion none group).toList⟩

/-- No two operations write one column, or one element, at the same time. -/
structure DistinctTimes (group : List Mutation) : Prop where
  whole : (allOps schema skip group).whole.Pairwise fun a b =>
    a.1 = b.1 → a.2.timestampMicros ≠ b.2.timestampMicros
  cells : ((allOps schema skip group).cells schema elementsOf).Pairwise fun a b =>
    a.cellKey = b.cellKey → a.timestamp ≠ b.timestamp

end Flush

/-! ### What a flush keeps -/

/-- Newer than every row deletion of the group. -/
def AboveDeletions (group : List Mutation) (t : Int) : Prop :=
  ∀ d ∈ group.flatMap Mutation.rowDeletions, d.1 < t

section Keeping

variable (schema : WriteSchema) (skip : Bool) (elementsOf : ElementsOf) (group : List Mutation)

/-- A whole-column operation above the row deletions, of a mutation above them. -/
def Candidate (p : String × MergedOp) : Prop :=
  AboveDeletions group p.2.timestampMicros ∧
    ∃ m ∈ group, AboveDeletions group m.timestampMicros ∧ p ∈ cellOpsOf schema skip none m

/-- A candidate with nothing newer on its column. -/
structure KeptWhole (p : String × MergedOp) : Prop where
  candidate : Candidate schema skip group p
  newest : ∀ q, Candidate schema skip group q → q.1 = p.1 →
    q.2.timestampMicros ≤ p.2.timestampMicros
  elements : ∀ e ∈ (allOps schema skip group).elements, AboveDeletions group e.timestampMicros →
    e.op.column = some p.1 → e.timestampMicros ≤ p.2.timestampMicros

/-- An element operation above the row deletions, of a column no whole-column operation is kept of;
    an element is also newer than the complex deletions of its column. -/
structure KeptElement (e : MergedOp) : Prop where
  mem : e ∈ (allOps schema skip group).elements
  above : AboveDeletions group e.timestampMicros
  column : ∀ p, KeptWhole schema skip group p → e.op.column ≠ some p.1
  newer : ∀ c, e.elementCell? = some c → ∀ f ∈ (allOps schema skip group).elements,
    AboveDeletions group f.timestampMicros → ∀ cd, f.marker? = some cd → cd.column = c.column →
    cd.markedForDeleteAt < c.timestamp

/-- What the operations that a flush of the group keeps say about the cells of the row. -/
def kept : Evidence CellData CellKey Int where
  writes := {c | (∃ p, KeptWhole schema skip group p ∧ c ∈ wholeCells schema elementsOf p) ∨
    ∃ e, KeptElement schema skip group e ∧ e.elementCell? = some c}
  deletes k := {t | (∃ d ∈ group.flatMap Mutation.rowDeletions, d.1 = t) ∨
    ∃ cd, ((∃ p, KeptWhole schema skip group p ∧ wholeMarker schema p = some cd) ∨
      ∃ e, KeptElement schema skip group e ∧ e.marker? = some cd) ∧
      cd.column = k.1 ∧ k.2.isSome = true ∧ cd.markedForDeleteAt = t}

/-- What the mutations keep, each flushed on its own. -/
def keptEach : Evidence CellData CellKey Int where
  writes := {c | ∃ m ∈ group, c ∈ (kept schema skip elementsOf [m]).writes}
  deletes k := {t | ∃ m ∈ group, t ∈ (kept schema skip elementsOf [m]).deletes k}

/-- An operation that only one flush keeps, or only the separate ones, has no value shown among those
    kept with it, and neither overwrites nor deletes a value that the others show. -/
structure SplitAgrees : Prop where
  one : (kept schema skip elementsOf group).Absorbs (cellReading none)
    (keptEach schema skip elementsOf group)
  each : (keptEach schema skip elementsOf group).Absorbs (cellReading none)
    (kept schema skip elementsOf group)

end Keeping

/-! ### The selection keeps them -/

variable {c : CellData} {m : Mutation} {t : Int}

variable {cd : ComplexDeletion} {k : CellKey} {v : CellView}

section Selection

variable {schema : WriteSchema} {skip : Bool} {elementsOf : ElementsOf} {group : List Mutation}

variable {p : String × MergedOp} {e : MergedOp}

variable {d : Option Int}

theorem mem_cellOpsOf :
    p ∈ cellOpsOf schema skip d m ↔
      p ∈ cellOpsOf schema skip none m ∧ newerThan d p.2.timestampMicros = true := by
  simp only [cellOpsOf, List.mem_filter, newerThan, Option.all_none, and_true]

theorem wholeColumn_of_mem_cellOpsOf (hp : p ∈ cellOpsOf schema skip d m) :
    p.2.op.wholeColumn = some p.1 := by
  simp only [cellOpsOf, wholeColumnOps, List.mem_filter, List.mem_map, List.mem_filterMap,
    Option.map_eq_some_iff] at hp
  obtain ⟨⟨q, ⟨⟨op, -, c, hc, rfl⟩, -⟩, rfl⟩, -⟩ := hp
  exact hc

/-- The newest row deletion of a group is one of them, and no other is newer. -/
theorem newestRowDeletion_cases (group : List Mutation) :
    (newestRowDeletion none group = none ∧ group.flatMap Mutation.rowDeletions = []) ∨
      ∃ d ∈ group.flatMap Mutation.rowDeletions, newestRowDeletion none group = some d ∧
        ∀ d' ∈ group.flatMap Mutation.rowDeletions, d'.1 ≤ d.1 := by
  have hfilter : (group.flatMap Mutation.rowDeletions).filter (fun d => newerThan none d.1) =
      group.flatMap Mutation.rowDeletions := List.filter_eq_self.mpr fun _ _ => rfl
  unfold newestRowDeletion
  rw [hfilter]
  cases hl : Lww.latest (fun a b : Deletion => decide (b.1 ≤ a.1))
      (group.flatMap Mutation.rowDeletions) with
  | none => exact .inl ⟨rfl, (Lww.latest_eq_none _).mp hl⟩
  | some d =>
    have hlast : Lww.IsLastMax (fun d : Deletion => d.1) (group.flatMap Mutation.rowDeletions) d :=
      (Lww.latest_eq_some_last fun a b => decide_eq_true_iff).mp hl
    exact .inr ⟨d, hlast.mem, rfl, fun d' => hlast.le⟩

theorem newerThan_groupDeletion :
    newerThan (groupDeletion group) t = true ↔ AboveDeletions group t := by
  rw [groupDeletion, AboveDeletions]
  rcases newestRowDeletion_cases group with ⟨hnone, hnil⟩ | ⟨d, hd, hsome, hle⟩
  · simp [hnone, hnil, newerThan]
  · rw [hsome, newerThan, Option.map_some, Option.all_some, decide_eq_true_eq]
    exact ⟨fun hlt d' hd' => lt_of_le_of_lt (hle d' hd') hlt, fun hall => hall d hd⟩

theorem mem_candidates :
    p ∈ (unshadowedMutations (groupDeletion group) group).flatMap
        (cellOpsOf schema skip (groupDeletion group)) ↔ Candidate schema skip group p := by
  simp only [Candidate, List.mem_flatMap, unshadowedMutations, List.mem_filter,
    newerThan_groupDeletion]
  constructor
  · rintro ⟨m, ⟨hm, habove⟩, hp⟩
    obtain ⟨hp, hnew⟩ := mem_cellOpsOf.mp hp
    exact ⟨newerThan_groupDeletion.mp hnew, m, hm, habove, hp⟩
  · rintro ⟨hnew, m, hm, habove, hp⟩
    exact ⟨m, ⟨hm, habove⟩, mem_cellOpsOf.mpr ⟨hp, newerThan_groupDeletion.mpr hnew⟩⟩

theorem Candidate.mem_allOps (h : Candidate schema skip group p) :
    p ∈ (allOps schema skip group).whole := by
  obtain ⟨-, m, hm, -, hp⟩ := h
  exact List.mem_flatMap.mpr ⟨m, hm, hp⟩

/-- The whole-column operations of the writer before elements are looked at. -/
theorem mem_mergedCells (hd : DistinctTimes schema skip elementsOf group) :
    p ∈ mergedCells schema skip (groupDeletion group) group ↔ Candidate schema skip group p ∧
      ∀ q, Candidate schema skip group q → q.1 = p.1 →
        q.2.timestampMicros ≤ p.2.timestampMicros := by
  have hfilter : (mergedCells schema skip (groupDeletion group) group).filter (fun q => q.1 = p.1) =
      (Lww.latest (fun a b : String × MergedOp => a.2.wins b.2)
        (((unshadowedMutations (groupDeletion group) group).flatMap
          (cellOpsOf schema skip (groupDeletion group))).filter fun q => q.1 = p.1)).toList :=
    Lww.winners_filter_key _ _
  have hmem : p ∈ mergedCells schema skip (groupDeletion group) group ↔
      Lww.latest (fun a b : String × MergedOp => a.2.wins b.2)
        (((unshadowedMutations (groupDeletion group) group).flatMap
          (cellOpsOf schema skip (groupDeletion group))).filter fun q => q.1 = p.1) = some p := by
    rw [← Option.mem_toList, ← hfilter, List.mem_filter]
    simp
  have hlist : ∀ q, q ∈ ((unshadowedMutations (groupDeletion group) group).flatMap
      (cellOpsOf schema skip (groupDeletion group))).filter (fun q => q.1 = p.1) ↔
        Candidate schema skip group q ∧ q.1 = p.1 := fun q => by
    rw [List.mem_filter, mem_candidates, decide_eq_true_eq]
  rw [hmem]
  constructor
  · intro hl
    have hlast := (Lww.latest_eq_some_last fun a b => MergedOp.wins_iff a.2 b.2).mp hl
    refine ⟨((hlist p).mp hlast.mem).1, fun q hq hcol => ?_⟩
    rcases MergedOp.rank_le_iff.mp (hlast.le ((hlist q).mpr ⟨hq, hcol⟩)) with hlt | ⟨heq, -⟩
    · exact hlt.le
    · exact heq.le
  · rintro ⟨hcand, hnewest⟩
    cases hl : Lww.latest (fun a b : String × MergedOp => a.2.wins b.2)
        (((unshadowedMutations (groupDeletion group) group).flatMap
          (cellOpsOf schema skip (groupDeletion group))).filter fun q => q.1 = p.1) with
    | none =>
      have hnil := (Lww.latest_eq_none _).mp hl
      exact absurd ((hlist p).mpr ⟨hcand, rfl⟩) (List.eq_nil_iff_forall_not_mem.mp hnil p)
    | some w =>
      -- the winner is no newer than `p`, and no two candidates of a column have one time
      have hlast := (Lww.latest_eq_some_last fun a b => MergedOp.wins_iff a.2 b.2).mp hl
      obtain ⟨hwcand, hwcol⟩ := (hlist w).mp hlast.mem
      by_contra hne
      have hsymm : Std.Symm (fun a b : String × MergedOp =>
          a.1 = b.1 → a.2.timestampMicros ≠ b.2.timestampMicros) :=
        ⟨fun _ _ hab hba heq => hab hba.symm heq.symm⟩
      have htime := hd.whole.forall hwcand.mem_allOps hcand.mem_allOps
        (fun heq => hne (congrArg some heq)) hwcol
      have hle := hnewest w hwcand hwcol
      rcases MergedOp.rank_le_iff.mp (hlast.le ((hlist p).mpr ⟨hcand, rfl⟩)) with hlt | ⟨heq, -⟩
      · omega
      · exact htime heq.symm

theorem mem_complexElementOps :
    e ∈ complexElementOps schema skip (groupDeletion group) group ↔
      e ∈ (allOps schema skip group).elements ∧ AboveDeletions group e.timestampMicros := by
  rw [complexElementOps, List.mem_filter, newerThan_groupDeletion]
  rfl

theorem mem_selectedOps_whole (hd : DistinctTimes schema skip elementsOf group) :
    p ∈ (selectedOps schema skip group).whole ↔ KeptWhole schema skip group p := by
  have hold : (elemMaxTs (complexElementOps schema skip (groupDeletion group) group) p.1).all
      (· ≤ p.2.timestampMicros) = true ↔ ∀ e ∈ (allOps schema skip group).elements,
        AboveDeletions group e.timestampMicros → e.op.column = some p.1 →
          e.timestampMicros ≤ p.2.timestampMicros := by
    simp only [elemMaxTs, max?_all_le, List.all_map, List.all_filter, List.all_eq_true,
      mem_complexElementOps, Function.comp_apply, Bool.or_eq_true, Bool.not_eq_true',
      decide_eq_false_iff_not, decide_eq_true_eq, ← imp_iff_not_or, and_imp]
  rw [selectedOps, writtenCells, wholeWinners, List.mem_filter, mem_mergedCells hd, hold]
  exact ⟨fun h => ⟨h.1.1, h.1.2, h.2⟩, fun h => ⟨⟨h.candidate, h.newest⟩, h.elements⟩⟩

theorem elementCell?_column (hc : e.elementCell? = some c) : e.op.column = some c.column := by
  unfold MergedOp.elementCell? at hc
  split at hc
  · rename_i hop
    cases hc
    rw [hop]
    rfl
  · cases hc

theorem mfdaOn_eq_some {column : String} :
    e.op.mfdaOn column = some t ↔
      ∃ cd, e.marker? = some cd ∧ cd.column = column ∧ cd.markedForDeleteAt = t := by
  unfold CellOperation.mfdaOn MergedOp.marker?
  cases e.op with
  | complexDeletion name mfda ldt => simp
  | _ => simp

theorem marker?_column (hcd : e.marker? = some cd) : e.op.column = some cd.column := by
  unfold MergedOp.marker? at hcd
  split at hcd
  · rename_i hop
    cases hcd
    rw [hop]
    rfl
  · cases hcd

/-- The elements that are newer than the complex deletions they stand with. -/
theorem mem_unshadowedElements {l : List MergedOp} :
    e ∈ unshadowedElements l ↔ e ∈ l ∧ ∀ c, e.elementCell? = some c → ∀ f ∈ l,
      ∀ cd, f.marker? = some cd → cd.column = c.column → cd.markedForDeleteAt < c.timestamp := by
  rw [unshadowedElements, List.mem_filter]
  refine and_congr_right fun _ => ?_
  cases hop : e.op with
  | writeComplexElement column path value ts ttl ldt isDeleted =>
    have hcell : e.elementCell? = some (elementCell column path value ts ttl ldt isDeleted) := by
      rw [MergedOp.elementCell?, hop]
    simp only [hcell, Option.some.injEq, forall_eq']
    rw [activeMfda, max?_all fun a b hab hb => by
      simp only [elementSurvivesComplexDeletion, decide_eq_true_eq] at hb ⊢
      omega]
    simp only [List.all_eq_true, List.mem_filterMap, mfdaOn_eq_some, elementSurvivesComplexDeletion,
      decide_eq_true_eq]
    constructor
    · exact fun h f hf cd hcd hcol => h _ ⟨f, hf, cd, hcd, hcol, rfl⟩
    · rintro h t ⟨f, hf, cd, hcd, hcol, rfl⟩
      exact h f hf cd hcd hcol
  | _ => simp [MergedOp.elementCell?, hop]

theorem mem_selectedOps_elements (hd : DistinctTimes schema skip elementsOf group) :
    e ∈ (selectedOps schema skip group).elements ↔ KeptElement schema skip group e := by
  have hmem : ∀ f, f ∈ elementWinners (complexElementOps schema skip (groupDeletion group) group)
      (selectedOps schema skip group).whole ↔ f ∈ (allOps schema skip group).elements ∧
        AboveDeletions group f.timestampMicros ∧
          ∀ p, KeptWhole schema skip group p → f.op.column ≠ some p.1 := fun f => by
    simp only [elementWinners, List.mem_filter, mem_complexElementOps, Bool.not_eq_true',
      List.any_eq_false, mem_selectedOps_whole hd, decide_eq_true_eq, ne_eq, and_assoc]
  change e ∈ unshadowedElements (elementWinners _ (selectedOps schema skip group).whole) ↔ _
  rw [mem_unshadowedElements, hmem]
  constructor
  · rintro ⟨⟨he, habove, hcolumn⟩, hnewer⟩
    refine ⟨he, habove, hcolumn, fun c hc f hf hfabove cd hcd hcdcol => ?_⟩
    refine hnewer c hc f ((hmem f).mpr ⟨hf, hfabove, fun p hp => ?_⟩) cd hcd hcdcol
    rw [marker?_column hcd, hcdcol, ← elementCell?_column hc]
    exact hcolumn p hp
  · intro h
    refine ⟨⟨h.mem, h.above, h.column⟩, fun c hc f hf cd hcd hcdcol => ?_⟩
    obtain ⟨hf, hfabove, -⟩ := (hmem f).mp hf
    exact h.newer c hc f hf hfabove cd hcd hcdcol

end Selection

/-! ### The evidence of operations -/

/-- Cells, row deletions and complex deletions as evidence about the cells of a row. -/
def rowEvidence (cells : List CellData) (deletions : List Deletion) (markers : List ComplexDeletion) :
    Evidence CellData CellKey Int where
  writes := {c | c ∈ cells}
  deletes k := {t | (∃ d ∈ deletions, d.1 = t) ∨
    ∃ cd ∈ markers, cd.column = k.1 ∧ k.2.isSome = true ∧ cd.markedForDeleteAt = t}

variable {deletions : List Deletion}

theorem mem_rowEvidence_deletes {cells : List CellData} {markers : List ComplexDeletion} :
    t ∈ (rowEvidence cells deletions markers).deletes k ↔ (∃ d ∈ deletions, d.1 = t) ∨
      ∃ cd ∈ markers, cd.column = k.1 ∧ k.2.isSome = true ∧ cd.markedForDeleteAt = t := Iff.rfl

theorem rowEvidence_union {cells cells₁ cells₂ : List CellData}
    {deletions₁ deletions₂ : List Deletion} {markers markers₁ markers₂ : List ComplexDeletion}
    (hc : ∀ c, c ∈ cells ↔ c ∈ cells₁ ∨ c ∈ cells₂)
    (hd : ∀ d, d ∈ deletions ↔ d ∈ deletions₁ ∨ d ∈ deletions₂)
    (hm : ∀ cd, cd ∈ markers ↔ cd ∈ markers₁ ∨ cd ∈ markers₂) :
    rowEvidence cells deletions markers =
      rowEvidence cells₁ deletions₁ markers₁ ∪ rowEvidence cells₂ deletions₂ markers₂ := by
  refine Evidence.ext ?_ ?_
  · ext c
    exact hc c
  · ext k t
    simp only [Evidence.mem_deletes_union, mem_rowEvidence_deletes, hd, hm, or_and_right, exists_or]
    exact or_or_or_comm

/-- What the operations say about the cells of the row. -/
def RowOps.evidence (schema : WriteSchema) (elementsOf : ElementsOf) (r : RowOps) :
    Evidence CellData CellKey Int :=
  rowEvidence (r.cells schema elementsOf) r.deletions (r.markers schema)

section Cells

variable {schema : WriteSchema} {elementsOf : ElementsOf}

theorem RowOps.mem_cells {r : RowOps} : c ∈ r.cells schema elementsOf ↔
    (∃ p ∈ r.whole, c ∈ wholeCells schema elementsOf p) ∨
      ∃ e ∈ r.elements, e.elementCell? = some c := by
  simp only [RowOps.cells, List.mem_append, List.mem_flatMap, List.mem_filterMap]

theorem RowOps.mem_markers {r : RowOps} : cd ∈ r.markers schema ↔
    (∃ p ∈ r.whole, wholeMarker schema p = some cd) ∨ ∃ e ∈ r.elements, e.marker? = some cd := by
  simp only [RowOps.markers, List.mem_append, List.mem_filterMap]

end Cells

section Kept

variable {schema : WriteSchema} {skip : Bool} {elementsOf : ElementsOf} {group : List Mutation}

theorem mem_kept_writes : c ∈ (kept schema skip elementsOf group).writes ↔
    (∃ p, KeptWhole schema skip group p ∧ c ∈ wholeCells schema elementsOf p) ∨
      ∃ e, KeptElement schema skip group e ∧ e.elementCell? = some c := Iff.rfl

theorem mem_kept_deletes :
    t ∈ (kept schema skip elementsOf group).deletes k ↔
      (∃ d ∈ group.flatMap Mutation.rowDeletions, d.1 = t) ∨
        ∃ cd, ((∃ p, KeptWhole schema skip group p ∧ wholeMarker schema p = some cd) ∨
          ∃ e, KeptElement schema skip group e ∧ e.marker? = some cd) ∧
          cd.column = k.1 ∧ k.2.isSome = true ∧ cd.markedForDeleteAt = t := Iff.rfl

/-- What is kept was written. -/
theorem mem_allOps_of_kept (hc : c ∈ (kept schema skip elementsOf group).writes) :
    c ∈ (allOps schema skip group).cells schema elementsOf := by
  rcases hc with ⟨p, hp, hcell⟩ | ⟨e, he, hcell⟩
  · exact RowOps.mem_cells.mpr (.inl ⟨p, hp.candidate.mem_allOps, hcell⟩)
  · exact RowOps.mem_cells.mpr (.inr ⟨e, he.mem, hcell⟩)

theorem mem_allOps_of_mem (hm : m ∈ group)
    (hc : c ∈ (allOps schema skip [m]).cells schema elementsOf) :
    c ∈ (allOps schema skip group).cells schema elementsOf := by
  have hsub : [m].Sublist group := List.singleton_sublist.mpr hm
  exact (((hsub.flatMap _).flatMap _).append ((hsub.flatMap _).filterMap _)).subset hc

theorem mem_allOps_of_keptEach (hc : c ∈ (keptEach schema skip elementsOf group).writes) :
    c ∈ (allOps schema skip group).cells schema elementsOf := by
  obtain ⟨m, hm, hc⟩ := hc
  exact mem_allOps_of_mem hm (mem_allOps_of_kept hc)

theorem keptEach_cons (m : Mutation) (ms : List Mutation) :
    keptEach schema skip elementsOf (m :: ms) =
      kept schema skip elementsOf [m] ∪ keptEach schema skip elementsOf ms := by
  refine Evidence.ext ?_ ?_
  · ext c
    simp [keptEach]
  · ext k t
    simp [keptEach]

/-- Of several row deletions the writer keeps the newest. -/
theorem selected_reduces (hd : DistinctTimes schema skip elementsOf group) :
    Evidence.Reduces (cellReading none) ((selectedOps schema skip group).evidence schema elementsOf)
      (kept schema skip elementsOf group) := by
  have hwrites : ∀ c, c ∈ ((selectedOps schema skip group).evidence schema elementsOf).writes ↔
      c ∈ (kept schema skip elementsOf group).writes := fun c => by
    change c ∈ (selectedOps schema skip group).cells schema elementsOf ↔ _
    simp only [RowOps.mem_cells, mem_kept_writes, mem_selectedOps_whole hd,
      mem_selectedOps_elements hd]
  have hmarkers : ∀ cd, cd ∈ (selectedOps schema skip group).markers schema ↔
      (∃ p, KeptWhole schema skip group p ∧ wholeMarker schema p = some cd) ∨
        ∃ e, KeptElement schema skip group e ∧ e.marker? = some cd := fun cd => by
    simp only [RowOps.mem_markers, mem_selectedOps_whole hd, mem_selectedOps_elements hd]
  refine ⟨fun c hc => (hwrites c).mp hc, fun c hc => .inl ((hwrites c).mpr hc), ?_, ?_⟩
  · rintro k t (⟨d, hdel, rfl⟩ | ⟨cd, hcd, hcol, hpath, rfl⟩)
    · have hnewest : newestRowDeletion none group = some d := by simpa [selectedOps] using hdel
      rcases newestRowDeletion_cases group with ⟨hnone, -⟩ | ⟨d', hd', hsome, -⟩
      · rw [hnone] at hnewest
        cases hnewest
      · obtain rfl : d' = d := Option.some.inj (hsome.symm.trans hnewest)
        exact ⟨_, mem_kept_deletes.mpr (.inl ⟨d', hd', rfl⟩), le_rfl⟩
    · exact ⟨_, mem_kept_deletes.mpr (.inr ⟨cd, (hmarkers cd).mp hcd, hcol, hpath, rfl⟩), le_rfl⟩
  · intro k t ht
    rcases mem_kept_deletes.mp ht with ⟨d, hdel, rfl⟩ | ⟨cd, hcd, hcol, hpath, rfl⟩
    · rcases newestRowDeletion_cases group with ⟨-, hnil⟩ | ⟨d', -, hsome, hle⟩
      · rw [hnil] at hdel
        cases hdel
      · exact ⟨d'.1, .inl ⟨d', by simp [selectedOps, hsome], rfl⟩, hle d hdel⟩
    · exact ⟨_, .inr ⟨cd, (hmarkers cd).mpr hcd, hcol, hpath, rfl⟩, le_rfl⟩

end Kept

/-! ### The evidence of entries -/

/-- What the entries of a row say about its cells. -/
def groupEvidence (rows : List MergeEntry) : Evidence CellData CellKey Int :=
  rowEvidence (groupCells rows) (groupRowDeletions rows) (groupComplex rows)

theorem groupEvidence_append (a b : List MergeEntry) :
    groupEvidence (a ++ b) = groupEvidence a ∪ groupEvidence b := by
  refine rowEvidence_union ?_ ?_ ?_
  · simp [groupCells]
  · simp [groupRowDeletions]
  · simp [groupComplex]

variable {rows : List MergeEntry}

/-- Without purging, expiry and dropped columns the kept cells are the unshadowed ones. -/
theorem cellKept_keepAll :
    CellKept .keepAll rows c ↔ CellUnshadowed rows c := by
  constructor
  · exact fun h => h.unshadowed
  · intro h
    exact ⟨h, rfl, cellPurgeable_eq_false rfl _⟩

variable {ck : Option ClusteringKey}

/-- What a merge keeps of the cells. -/
theorem mem_reconcileCluster_keepAll :
    (∃ e, reconcileCluster .keepAll ck rows = some e ∧ c ∈ e.cells) ↔
      CellUnshadowed rows c := by
  have hsurv : ∀ c', c' ∈ groupSurviving .keepAll rows ↔ CellUnshadowed rows c' := by
    intro c'
    rw [mem_groupSurviving]
    simp only [cellKept_keepAll]
    constructor
    · rintro ⟨c₀, h₀, rfl⟩
      exact h₀
    · exact fun h => ⟨c', h, rfl⟩
  rw [reconcileCluster_eq]
  constructor
  · rintro ⟨e, he, hc⟩
    obtain ⟨first, -, hout⟩ := Option.bind_eq_some_iff.mp he
    unfold groupOutput at hout
    split at hout
    · cases hout
      exact (hsurv c).mp hc
    · split at hout
      · cases hout
        cases hc
      · split at hout
        · cases hout
          cases hc
        · cases hout
  · intro h
    have hrow : RowBacked .keepAll ck rows := by
      by_cases hdata : ∃ c', CellUnshadowed rows c' ∧ isDataCell ck c' = true
      · obtain ⟨c', hc', hd'⟩ := hdata
        exact ⟨c', cellKept_keepAll.mpr hc', .inl hd'⟩
      · refine ⟨c, cellKept_keepAll.mpr h, .inr fun c' hc' => ?_⟩
        rw [← Bool.not_eq_true]
        exact fun hd' => hdata ⟨c', hc', hd'⟩
    cases rows with
    | nil => cases h.wins.mem
    | cons first rest =>
      exact ⟨_, groupOutput_row hrow, (hsurv c).mpr h⟩

/-- Without ties the live cells of a row are the visible ones of its evidence. -/
theorem mem_rowLiveCells
    (hties : ∀ a ∈ groupCells rows, ∀ b ∈ groupCells rows, a.cellKey = b.cellKey →
      cellRank a = cellRank b → a = b) :
    v ∈ rowLiveCells ck rows ↔
      ∃ c, (groupEvidence rows).Visible (cellReading none) c ∧ c.view = v := by
  have hvis : ∀ c, (CellUnshadowed rows c ∧ isCellTombstone c = false) ↔
      (groupEvidence rows).Visible (cellReading none) c := by
    intro c
    constructor
    · rintro ⟨⟨hwins, hcomplex, hrow⟩, halive⟩
      refine ⟨hwins.mem, ?_, fun b hb hk => hwins.le hb hk, ?_⟩
      · rintro (ht | hx)
        · rw [ht] at halive
          cases halive
        · cases hx
      · rintro t (⟨d, hd, rfl⟩ | ⟨cd, hcd, hcol, hpath, rfl⟩)
        · exact hrow d hd
        · exact not_le.mp fun hle => hcomplex cd hcd ⟨hcol, hpath, hle⟩
    · rintro ⟨hmem, halive, hmax, hund⟩
      refine ⟨⟨(Lww.isWinner_of_noTies hties).mpr ⟨hmem, hmax⟩, ?_, ?_⟩, cellRank_of_alive halive⟩
      · rintro cd hcd ⟨hcol, hpath, hle⟩
        exact absurd (hund _ (.inr ⟨cd, hcd, hcol, hpath, rfl⟩)) (not_lt.mpr hle)
      · exact fun d hd => hund _ (.inl ⟨d, hd, rfl⟩)
  constructor
  · rintro ⟨e, he, c, hc, halive, rfl⟩
    exact ⟨c, (hvis c).mp ⟨mem_reconcileCluster_keepAll.mp ⟨e, he, hc⟩, halive⟩, rfl⟩
  · rintro ⟨c, hc, rfl⟩
    obtain ⟨hun, halive⟩ := (hvis c).mpr hc
    obtain ⟨e, he, hmem⟩ : ∃ e, reconcileCluster .keepAll ck rows = some e ∧ c ∈ e.cells :=
      mem_reconcileCluster_keepAll.mpr hun
    exact ⟨e, he, c, hmem, halive, rfl⟩

/-! ### Flushed entries -/

section Flushed

variable {schema : WriteSchema} {skip : Bool} {elementsOf : ElementsOf} {ck : Option ClusteringKey}
  {group : List Mutation}

theorem readBack_reduces {r : RowOps} {o : Option Deletion} (ho : r.deletions = o.toList) :
    Evidence.Reduces (cellReading none) (groupEvidence [r.readBack schema elementsOf ck])
      (r.evidence schema elementsOf) := by
  have hcells : groupCells [r.readBack schema elementsOf ck] = r.cells schema elementsOf := by
    simp [groupCells, RowOps.readBack, MergeEntry.cells, MergeEntry.new]
  have hdels : groupRowDeletions [r.readBack schema elementsOf ck] = r.deletions := by
    rw [ho]
    cases o <;> simp [groupRowDeletions, RowOps.readBack, MergeEntry.rowDeletions, MergeEntry.new,
      MergeEntry.rowTombstone, ho]
  have hmarks : ∀ cd, cd ∈ groupComplex [r.readBack schema elementsOf ck] ↔
      Lww.IsWinner ComplexDeletion.column ComplexDeletion.markedForDeleteAt (r.markers schema) cd := by
    intro cd
    simp only [groupComplex, RowOps.readBack, List.flatMap_cons, List.flatMap_nil, List.append_nil]
    exact Lww.mem_winners fun a b => decide_eq_true_iff
  refine ⟨?_, ?_, ?_, ?_⟩
  · intro c hc
    exact (hcells ▸ hc : c ∈ r.cells schema elementsOf)
  · intro c hc
    exact .inl (hcells.symm ▸ hc : c ∈ groupCells [r.readBack schema elementsOf ck])
  · rintro k t (⟨d, hd, rfl⟩ | ⟨cd, hcd, hcol, hpath, rfl⟩)
    · exact ⟨d.1, .inl ⟨d, hdels ▸ hd, rfl⟩, le_rfl⟩
    · exact ⟨_, .inr ⟨cd, ((hmarks cd).mp hcd).mem, hcol, hpath, rfl⟩, le_rfl⟩
  · rintro k t (⟨d, hd, rfl⟩ | ⟨cd, hcd, hcol, hpath, rfl⟩)
    · exact ⟨d.1, .inl ⟨d, hdels.symm ▸ hd, rfl⟩, le_rfl⟩
    · obtain ⟨w, hw, hwcol, hle⟩ : ∃ w, Lww.IsWinner ComplexDeletion.column
          ComplexDeletion.markedForDeleteAt (r.markers schema) w ∧ w.column = cd.column ∧
          cd.markedForDeleteAt ≤ w.markedForDeleteAt :=
        Lww.exists_winner ReconcileState.complexSupersedes_iff hcd
      exact ⟨_, .inr ⟨w, (hmarks w).mpr hw, hwcol.trans hcol, hpath, rfl⟩, hle⟩

theorem deletionTs_none (o : Option Deletion) : deletionTs o none = o.map (·.1) := by
  cases o <;> rfl

theorem rowOps_of_mergeRowGroup {row : RowWrite}
    (h : mergeRowGroup schema skip none group = some row) :
    row.rowOps = selectedOps schema skip group := by
  have hwhole : ∀ p ∈ writtenCells schema skip (groupDeletion group) group,
      p.2.op.wholeColumn = some p.1 := by
    intro p hp
    obtain ⟨m, -, hm⟩ := List.mem_flatMap.mp (Lww.mem_of_mem_winners (List.mem_filter.mp hp).1)
    exact wholeColumn_of_mem_cellOpsOf hm
  simp only [mergeRowGroup, deletionTs_none] at h
  split at h
  · cases h
  · cases h
    simp only [RowWrite.rowOps, selectedOps, groupDeletion, List.filterMap_map, RowOps.mk.injEq,
      and_true]
    calc List.filterMap _ (writtenCells schema skip (groupDeletion group) group)
        = List.filterMap some (writtenCells schema skip (groupDeletion group) group) :=
          List.filterMap_congr fun p hp => by simp [hwhole p hp]
      _ = writtenCells schema skip (groupDeletion group) group := List.filterMap_some

theorem selectedOps_of_none (h : mergeRowGroup schema skip none group = none) :
    selectedOps schema skip group = ⟨[], [], []⟩ := by
  simp only [mergeRowGroup, deletionTs_none] at h
  split at h
  · rename_i hempty
    simp only [Bool.and_eq_true, List.isEmpty_iff, List.map_eq_nil_iff, Option.isNone_iff_eq_none]
      at hempty
    obtain ⟨⟨⟨hcells, helems⟩, hdel⟩, -⟩ := hempty
    rw [selectedOps, groupDeletion, hcells, helems, hdel, Option.toList_none]
  · cases h

theorem flushed_reduces (hd : DistinctTimes schema skip elementsOf group) :
    Evidence.Reduces (cellReading none)
      (groupEvidence (flushed schema skip elementsOf ck group).toList)
      (kept schema skip elementsOf group) := by
  refine Evidence.Reduces.trans ?_ (selected_reduces hd)
  unfold flushed
  cases hrow : mergeRowGroup schema skip none group with
  | none =>
    rw [selectedOps_of_none hrow]
    exact Evidence.Reduces.refl _
  | some row =>
    rw [Option.map_some, Option.toList_some, rowOps_of_mergeRowGroup hrow]
    exact readBack_reduces rfl

theorem flushedEach_reduces (hd : ∀ m ∈ group, DistinctTimes schema skip elementsOf [m]) :
    Evidence.Reduces (cellReading none)
      (groupEvidence (group.filterMap fun m => flushed schema skip elementsOf ck [m]))
      (keptEach schema skip elementsOf group) := by
  induction group with
  | nil =>
    have hnil : keptEach schema skip elementsOf [] = groupEvidence [] := by
      refine Evidence.ext ?_ ?_
      · ext c
        simp [keptEach, groupEvidence, rowEvidence, groupCells]
      · ext k t
        simp [keptEach, groupEvidence, rowEvidence, groupRowDeletions, groupComplex]
    rw [hnil]
    exact Evidence.Reduces.refl _
  | cons m ms ih =>
    have hsplit : (m :: ms).filterMap (fun m => flushed schema skip elementsOf ck [m]) =
        (flushed schema skip elementsOf ck [m]).toList ++
          ms.filterMap (fun m => flushed schema skip elementsOf ck [m]) := by
      rw [List.filterMap_cons]
      cases flushed schema skip elementsOf ck [m] <;> rfl
    rw [hsplit, groupEvidence_append, keptEach_cons]
    exact (flushed_reduces (hd m (by simp))).union (ih fun m' hm' => hd m' (by simp [hm']))

theorem DistinctTimes.singleton (hd : DistinctTimes schema skip elementsOf group) (hm : m ∈ group) :
    DistinctTimes schema skip elementsOf [m] := by
  have hsub : [m].Sublist group := List.singleton_sublist.mpr hm
  have hwhole : (allOps schema skip [m]).whole.Sublist (allOps schema skip group).whole :=
    hsub.flatMap _
  have helems : (allOps schema skip [m]).elements.Sublist (allOps schema skip group).elements :=
    hsub.flatMap _
  exact ⟨hd.whole.sublist hwhole,
    hd.cells.sublist ((hwhole.flatMap _).append (helems.filterMap _))⟩

/-- A cell of the group is known by its key and its time. -/
theorem DistinctTimes.cell_eq (hd : DistinctTimes schema skip elementsOf group) {a b : CellData}
    (ha : a ∈ (allOps schema skip group).cells schema elementsOf)
    (hb : b ∈ (allOps schema skip group).cells schema elementsOf) (hk : a.cellKey = b.cellKey)
    (ht : a.timestamp = b.timestamp) : a = b := by
  have hsymm : Std.Symm (fun a b : CellData => a.cellKey = b.cellKey → a.timestamp ≠ b.timestamp) :=
    ⟨fun _ _ hab hba heq => hab hba.symm heq.symm⟩
  by_contra hne
  exact hd.cells.forall ha hb hne hk ht

/-- The cells shown by entries that stand for kept operations are the visible ones of these. -/
theorem DistinctTimes.mem_rowLiveCells (hd : DistinctTimes schema skip elementsOf group)
    {rows : List MergeEntry} {E : Evidence CellData CellKey Int}
    (hred : Evidence.Reduces (cellReading none) (groupEvidence rows) E)
    (hsub : ∀ c ∈ E.writes, c ∈ (allOps schema skip group).cells schema elementsOf) :
    v ∈ rowLiveCells ck rows ↔ ∃ c, E.Visible (cellReading none) c ∧ c.view = v := by
  have hties : ∀ a ∈ groupCells rows, ∀ b ∈ groupCells rows, a.cellKey = b.cellKey →
      cellRank a = cellRank b → a = b := fun a ha b hb hk hr =>
    hd.cell_eq (hsub a (hred.writes ha)) (hsub b (hred.writes hb)) hk
      (le_antisymm (timestamp_le_of_cellRank_le hr.le) (timestamp_le_of_cellRank_le hr.ge))
  rw [Cqlite.mem_rowLiveCells hties]
  simp only [hred.visible_iff]

/-- One flush of the group shows the same cells as one flush per mutation exactly when no operation
    that only one of the two ways keeps is shown or stands over what the other way shows. -/
theorem flush_split_invisible_iff (hd : DistinctTimes schema skip elementsOf group) :
    rowLiveCells ck (flushed schema skip elementsOf ck group).toList =
        rowLiveCells ck (group.filterMap fun m => flushed schema skip elementsOf ck [m]) ↔
      SplitAgrees schema skip elementsOf group := by
  have hone : ∀ v, v ∈ rowLiveCells ck (flushed schema skip elementsOf ck group).toList ↔
      ∃ c, (kept schema skip elementsOf group).Visible (cellReading none) c ∧ c.view = v :=
    fun v => hd.mem_rowLiveCells (flushed_reduces hd) fun c => mem_allOps_of_kept
  have heach : ∀ v, v ∈ rowLiveCells ck
        (group.filterMap fun m => flushed schema skip elementsOf ck [m]) ↔
      ∃ c, (keptEach schema skip elementsOf group).Visible (cellReading none) c ∧ c.view = v :=
    fun v => hd.mem_rowLiveCells (flushedEach_reduces fun m => hd.singleton) fun c =>
      mem_allOps_of_keptEach
  have hview : ∀ a ∈ (allOps schema skip group).cells schema elementsOf,
      ∀ b ∈ (allOps schema skip group).cells schema elementsOf, a.view = b.view → a = b :=
    fun a ha b hb hab => by
      simp only [CellData.view, Prod.mk.injEq] at hab
      exact hd.cell_eq ha hb (Prod.ext hab.1 hab.2.1) hab.2.2.2
  have hsame : rowLiveCells ck (flushed schema skip elementsOf ck group).toList =
        rowLiveCells ck (group.filterMap fun m => flushed schema skip elementsOf ck [m]) ↔
      ∀ c, (kept schema skip elementsOf group).Visible (cellReading none) c ↔
        (keptEach schema skip elementsOf group).Visible (cellReading none) c := by
    simp only [Set.ext_iff, hone, heach]
    constructor
    · intro h c
      constructor
      · intro hc
        obtain ⟨c', hc', hv⟩ := (h c.view).mp ⟨c, hc, rfl⟩
        exact hview c' (mem_allOps_of_keptEach hc'.mem) c (mem_allOps_of_kept hc.mem) hv ▸ hc'
      · intro hc
        obtain ⟨c', hc', hv⟩ := (h c.view).mpr ⟨c, hc, rfl⟩
        exact hview c' (mem_allOps_of_kept hc'.mem) c (mem_allOps_of_keptEach hc.mem) hv ▸ hc'
    · intro h v
      simp only [h]
  rw [hsame, Evidence.visible_iff_visible]
  exact ⟨fun h => ⟨h.1, h.2⟩, fun h => ⟨h.one, h.each⟩⟩

end Flushed

/-! ### Groups on which the two part -/

/-- `v int, tags set<text>`. -/
def regularSchema : WriteSchema := ⟨["id"], ["c"], [⟨"v", false, false⟩, ⟨"tags", false, true⟩]⟩

/-- The elements of a set of texts. -/
def textElements : ElementsOf
  | _, .set items, _ => items.filterMap fun
    | .text s => some (s, none)
    | _ => none
  | _, _, _ => []

def regularMutation (ts : Int) (ops : List CellOperation) : Mutation :=
  .new ⟨[("id", .integer 1)]⟩ none ops ts none

/-- `SET v = 3`, then a NULL for `v`, then `SET v = 5`. -/
def overwrittenNull : List Mutation :=
  [regularMutation 1 [.write "v" (.integer 3)], regularMutation 2 [.write "v" .null],
    regularMutation 3 [.write "v" (.integer 5)]]

/-- `SET tags = {'a'}`, then the column is deleted. -/
def deletedTags : List Mutation :=
  [regularMutation 1 [.write "tags" (.set [.text [97]])], regularMutation 2 [.delete "tags" none]]

/-- The live cells of an entry. -/
def liveViews (e : MergeEntry) : List CellView :=
  (e.cells.filter fun c => !isCellTombstone c).map CellData.view

variable {a b : List MergeEntry}

theorem rowLiveCells_eq (h : (reconcileCluster .keepAll ck a).toList.flatMap liveViews =
      (reconcileCluster .keepAll ck b).toList.flatMap liveViews) :
    rowLiveCells ck a = rowLiveCells ck b := by
  have hmem : ∀ rows v, v ∈ rowLiveCells ck rows ↔
      v ∈ (reconcileCluster .keepAll ck rows).toList.flatMap liveViews := fun rows v => by
    simp [rowLiveCells, liveViews, and_assoc]
  ext v
  rw [hmem, hmem, h]

/-- A NULL that is overwritten and a collection that is deleted may be flushed either way. -/
theorem overwritten_split_agrees :
    SplitAgrees regularSchema true textElements overwrittenNull ∧
      SplitAgrees regularSchema true textElements deletedTags :=
  ⟨(@flush_split_invisible_iff _ _ _ none _ ⟨by decide, by decide⟩).mp (rowLiveCells_eq (by rfl)),
    (@flush_split_invisible_iff _ _ _ none _ ⟨by decide, by decide⟩).mp (rowLiveCells_eq (by rfl))⟩

/-- `UPDATE … SET tags = {'a'}`, then `SET tags = {'b'}`. -/
def replacedTags : List Mutation :=
  [regularMutation 1 [.write "tags" (.set [.text [97]])],
    regularMutation 2 [.write "tags" (.set [.text [98]])]]

/-- `SET v = 1`, then a NULL for `v`. -/
def nulledValue : List Mutation :=
  [regularMutation 1 [.write "v" (.integer 1)], regularMutation 2 [.write "v" .null]]

/-- A tag is added, the column is deleted, another tag is added. -/
def clearedTags : List Mutation :=
  [regularMutation 1 [.writeComplexElement "tags" [97] none 1 none none false],
    regularMutation 2 [.delete "tags" none],
    regularMutation 3 [.writeComplexElement "tags" [98] none 3 none none false]]

/-- The timestamps are distinct, and yet the split shows. -/
def SplitShows (group : List Mutation) : Prop :=
  (group.map Mutation.timestampMicros).Pairwise (· ≠ ·) ∧
    rowLiveCells none (flushed regularSchema true textElements none group).toList ≠
      rowLiveCells none (group.filterMap fun m => flushed regularSchema true textElements none [m])

theorem rowLiveCells_ne (k : CellKey)
    (ha : ∃ e ∈ reconcileCluster .keepAll none a, ∃ c ∈ e.cells,
      isCellTombstone c = false ∧ c.cellKey = k)
    (hb : ∀ e ∈ reconcileCluster .keepAll none b, ∀ c ∈ e.cells,
      isCellTombstone c = false → c.cellKey ≠ k) : rowLiveCells none a ≠ rowLiveCells none b := by
  obtain ⟨e, he, c, hc, halive, hk⟩ := ha
  intro heq
  have hmem : c.view ∈ rowLiveCells none b := by
    rw [← heq]
    exact ⟨e, he, c, hc, halive, rfl⟩
  obtain ⟨e', he', c', hc', halive', hview⟩ := hmem
  have hcol : c'.column = c.column := congrArg Prod.fst hview
  have hpath : c'.cellPath = c.cellPath := congrArg (·.2.1) hview
  exact hb e' he' c' hc' halive' (by rw [CellData.cellKey, hcol, hpath]; exact hk)

/-- The writer replaces a whole collection that a merger unites, lets a NULL win that a merger never
    sees, and drops the deletion of a collection that is written to again. -/
theorem flush_split_shows :
    SplitShows replacedTags ∧ SplitShows nulledValue ∧ SplitShows clearedTags := by
  refine ⟨⟨by decide, ?_⟩, ⟨by decide, ?_⟩, by decide, ?_⟩
  · exact (rowLiveCells_ne ("tags", some [97]) (by decide +kernel) (by decide +kernel)).symm
  · exact (rowLiveCells_ne ("v", none) (by decide +kernel) (by decide +kernel)).symm
  · exact rowLiveCells_ne ("tags", some [97]) (by decide +kernel) (by decide +kernel)

end Cqlite
