import Cqlite.Merge.Conversion
import Cqlite.Merge.ShadowSpec
import Cqlite.Writer.RowMerge

/-! The row marker a compaction writes.

    `merge_entry_to_mutation` does not pass the merged marker on (the write path ignores
    `row_liveness`), and `merge_row_group` derives one from the operations it keeps. `liveWrites`
    reads those sources off the reconciled row itself. -/

namespace Cqlite

/-! ### What is stored -/

/-- The liveness part of the row header, as the reader decodes it: a timestamp is a marker, and a TTL
    comes with its expiry. -/
def RowWrite.liveness (now : Int) (row : RowWrite) : RowLiveness :=
  match row.livenessTs with
  | none => .empty
  | some ts => .marker ts (row.ttlSeconds.map fun ttl => asU32 (expiringLocalDeletionTime now ttl))

/-- The marker of a liveness candidate. -/
def Liveness.toMarker (now : Int) (l : Liveness) : RowLiveness :=
  .marker l.1 (l.2.map fun ttl => asU32 (expiringLocalDeletionTime now ttl))

/-- The marker on disk; no row, no marker. -/
def storedLiveness (now : Int) (row : Option RowWrite) : RowLiveness :=
  row.elim .empty (RowWrite.liveness now)

theorem storedLiveness_mergeRowGroup (now : Int) (schema : WriteSchema) (skip : Bool)
    (floor : Option Int) (group : List Mutation) :
    storedLiveness now (mergeRowGroup schema skip floor group) =
      (Lww.latest Liveness.replaces (livenessCandidates schema skip
        (deletionTs (newestRowDeletion floor group) floor) group)).elim .empty
        (Liveness.toMarker now) := by
  simp only [mergeRowGroup]
  split
  · rename_i h
    simp only [Bool.and_eq_true, Option.isNone_iff_eq_none] at h
    rw [h.2]
    rfl
  · simp only [storedLiveness, Option.elim_some, RowWrite.liveness]
    cases Lww.latest Liveness.replaces (livenessCandidates schema skip
      (deletionTs (newestRowDeletion floor group) floor) group) <;> rfl

/-! ### The live writes of a reconciled row -/

/-- Written as a `Delete`. -/
def CellData.isCellDelete (c : CellData) : Bool :=
  match c.value with
  | .tombstone info => info.tombstoneType = .cellTombstone
  | _ => false

/-- The row's own deletion next to live cells, and the floor of the partition and its ranges. -/
def MergeEntry.writeFloor (floor : Option Int) (e : MergeEntry) : Option Int :=
  deletionTs (e.rowDeletion.filter fun d => newerThan floor d.1) floor

/-- A live row without any operation and without a range: written as an insert of its key. -/
def MergeEntry.isBareRow (e : MergeEntry) : Bool :=
  (match e.rowData with
    | .live cells => cells.isEmpty
    | .tombstone _ _ => false) && e.complexDeletions.isEmpty && e.rangeDeletion.isNone

section LiveWrites

variable (schema : WriteSchema) (skip : Bool) (d : Option Int) (e : MergeEntry)

/-- The cells that are not left to the static row. -/
def rowCells : List CellData := e.cells.filter fun c => !(skip && schema.isStaticColumn c.column)

/-- The simple cells above the deletion; none when the row itself is not. -/
def simpleCells : List CellData :=
  if newerThan d e.timestamp then
    (rowCells schema skip e).filter fun c => !c.isComplexElement && newerThan d c.timestamp
  else []

def elementCells : List CellData :=
  (rowCells schema skip e).filter fun c => c.isComplexElement && newerThan d c.timestamp

def columnMarkers : List ComplexDeletion :=
  e.complexDeletions.filter fun cd =>
    !(skip && schema.isStaticColumn cd.column) && newerThan d cd.markedForDeleteAt

/-- The times of the elements and of the complex deletion of a column. -/
def elementTimes (column : String) : List Int :=
  ((elementCells schema skip d e).filter fun c => c.column = column).map (·.timestamp) ++
  ((columnMarkers schema skip d e).filter fun cd => cd.column = column).map (·.markedForDeleteAt)

/-- The simple cells of regular columns that are not older than anything else in their column. -/
def regularCells : List CellData :=
  (simpleCells schema skip d e).filter fun c => !schema.isPrimaryKeyColumn c.column &&
    (elementTimes schema skip d e c.column).all fun t => decide (t ≤ c.timestamp)

/-- A live element: not superseded by a simple cell, not covered by the deletion of its column. -/
def isLiveElement (c : CellData) : Bool :=
  !c.isDeleted && !c.hasEmptyValue &&
  !((regularCells schema skip d e).any fun k => k.column = c.column) &&
  (columnMarkers schema skip d e).all fun cd =>
    cd.column ≠ c.column || cd.markedForDeleteAt < c.timestamp

/-- Every write that makes the row live, in the order the writer folds them. A simple cell counts
    with its timestamp and no TTL, an element with its own. -/
def liveWrites : List Liveness :=
  ((simpleCells schema skip d e).filter fun c =>
    schema.isPrimaryKeyColumn c.column && !c.isCellDelete).map (fun c => (c.timestamp, none)) ++
  (if e.isBareRow && newerThan d e.timestamp then [(e.timestamp, none)] else []) ++
  ((regularCells schema skip d e).filter fun c => !c.isCellDelete).map
    (fun c => (c.timestamp, none)) ++
  ((elementCells schema skip d e).filter (isLiveElement schema skip d e)).map
    fun c => (c.timestamp, c.ttl)

end LiveWrites

/-! ### Operations of a converted cell -/

@[simp] theorem column_toOperation (c : CellData) : c.toOperation.column = some c.column := by
  unfold CellData.toOperation CellData.writeOperation
  repeat' split
  all_goals rfl

@[simp] theorem complexTimestamp_toOperation (c : CellData) :
    c.toOperation.complexTimestamp = if c.isComplexElement then some c.timestamp else none := by
  unfold CellData.toOperation CellData.writeOperation
  repeat' split
  all_goals rfl

@[simp] theorem wholeColumn_toOperation (c : CellData) :
    c.toOperation.wholeColumn = if c.isComplexElement then none else some c.column := by
  unfold CellData.toOperation CellData.writeOperation
  repeat' split
  all_goals rfl

theorem isWrite_toOperation {c : CellData} (h : c.isComplexElement = false) :
    c.toOperation.isWrite = !c.isCellDelete := by
  unfold CellData.toOperation CellData.writeOperation CellData.isCellDelete
  rw [h]
  cases c.value <;> simp only [Bool.false_eq_true, if_false] <;> repeat' split
  all_goals simp_all [CellOperation.isWrite]

@[simp] theorem isDeleteRow_toOperation (c : CellData) : c.toOperation.isDeleteRow = false := by
  unfold CellData.toOperation CellData.writeOperation
  repeat' split
  all_goals rfl

@[simp] theorem mfdaOn_toOperation (c : CellData) (column : String) :
    c.toOperation.mfdaOn column = none := by
  unfold CellData.toOperation CellData.writeOperation
  repeat' split
  all_goals rfl

theorem toOperation_element {c : CellData} (h : c.isComplexElement = true) :
    c.toOperation = .writeComplexElement c.column (c.cellPath.getD []) c.elementValue c.timestamp
      c.ttl c.localDeletionTime c.isDeleted := by
  simp [CellData.toOperation, h]

/-! ### The mutation of a live row -/

section LiveRow

variable {schema : WriteSchema} {skip : Bool} {d : Option Int} {pk : PartitionKey} {e : MergeEntry}
  {cells : List CellData}

/-- The operation of a complex deletion. -/
def ComplexDeletion.toOperation (cd : ComplexDeletion) : CellOperation :=
  .complexDeletion cd.column cd.markedForDeleteAt cd.localDeletionTime

@[simp] theorem ComplexDeletion.column_toOperation (cd : ComplexDeletion) :
    cd.toOperation.column = some cd.column := rfl

@[simp] theorem ComplexDeletion.complexTimestamp_toOperation (cd : ComplexDeletion) :
    cd.toOperation.complexTimestamp = some cd.markedForDeleteAt := rfl

@[simp] theorem ComplexDeletion.isDeleteRow_toOperation (cd : ComplexDeletion) :
    cd.toOperation.isDeleteRow = false := rfl

@[simp] theorem ComplexDeletion.wholeColumn_toOperation (cd : ComplexDeletion) :
    cd.toOperation.wholeColumn = none := rfl

theorem operationsOf_live (h : e.rowData = .live cells) :
    operationsOf e = e.cells.map CellData.toOperation ++
      e.complexDeletions.map ComplexDeletion.toOperation := by
  have hnone : e.rowTombstone = none := by simp [MergeEntry.rowTombstone, h]
  have hop : complexDeletionOperation none = some ∘ ComplexDeletion.toOperation := by
    funext cd; rfl
  simp only [operationsOf, h, MergeEntry.cells, cellsToCellOperations, hnone, Option.map_none, hop,
    List.filterMap_eq_map]

theorem rowOperations_live (h : e.rowData = .live cells) :
    rowOperations schema skip (rowMutation pk e) =
      (rowCells schema skip e).map CellData.toOperation ++
      (e.complexDeletions.filter fun cd => !(skip && schema.isStaticColumn cd.column)).map
        ComplexDeletion.toOperation := by
  have hops : (rowMutation pk e).operations = operationsOf e := rfl
  rw [rowOperations, hops, operationsOf_live h, List.filter_append, List.filter_map,
    List.filter_map]
  simp only [Function.comp_def, CellOperation.isStatic, column_toOperation, Option.any_some,
    rowCells, ComplexDeletion.column_toOperation]

/-- The per-element operations of a row: elements, then markers. -/
def elementStream (m : Mutation) (es : List CellData) (cds : List ComplexDeletion) : List MergedOp :=
  es.map (fun c => ⟨c.toOperation, c.timestamp, none, m.effectiveLocalDeletionTime⟩) ++
  cds.map (fun cd => ⟨cd.toOperation, cd.markedForDeleteAt, none, m.effectiveLocalDeletionTime⟩)

theorem complexElementOps_live (h : e.rowData = .live cells) :
    complexElementOps schema skip d [rowMutation pk e] =
      elementStream (rowMutation pk e) (elementCells schema skip d e)
        (columnMarkers schema skip d e) := by
  have helem : ∀ cs : List CellData,
      (cs.map CellData.toOperation).filterMap (fun op => op.complexTimestamp.map fun ts =>
        (⟨op, ts, none, (rowMutation pk e).effectiveLocalDeletionTime⟩ : MergedOp)) =
      (cs.filter (·.isComplexElement)).map (fun c => ⟨c.toOperation, c.timestamp, none,
        (rowMutation pk e).effectiveLocalDeletionTime⟩) := by
    intro cs
    induction cs with
    | nil => rfl
    | cons c cs ih =>
      cases hc : c.isComplexElement <;> simp [hc, ih]
  have hmark : ∀ cds : List ComplexDeletion,
      (cds.map ComplexDeletion.toOperation).filterMap (fun op => op.complexTimestamp.map fun ts =>
        (⟨op, ts, none, (rowMutation pk e).effectiveLocalDeletionTime⟩ : MergedOp)) =
      cds.map (fun cd => ⟨cd.toOperation, cd.markedForDeleteAt, none,
        (rowMutation pk e).effectiveLocalDeletionTime⟩) := by
    intro cds
    simp [List.filterMap_map, Function.comp_def]
  have httl : (rowMutation pk e).ttlSeconds = none := rfl
  simp only [complexElementOps, List.flatMap_cons, List.flatMap_nil, List.append_nil, complexOpsOf,
    rowOperations_live h, List.filterMap_append, httl, helem, hmark, List.filter_append,
    List.filter_map, Function.comp_def, List.filter_filter, elementCells, columnMarkers,
    elementStream, Bool.and_comm]

theorem wholeColumnOps_live (h : e.rowData = .live cells) :
    wholeColumnOps schema skip (rowMutation pk e) =
      ((rowCells schema skip e).filter fun c => !c.isComplexElement).map
        fun c => (c.column, c.toOperation) := by
  have hcell : ∀ cs : List CellData,
      (cs.map CellData.toOperation).filterMap (fun op => op.wholeColumn.map fun c => (c, op)) =
      (cs.filter fun c => !c.isComplexElement).map fun c => (c.column, c.toOperation) := by
    intro cs
    induction cs with
    | nil => rfl
    | cons c cs ih =>
      cases hc : c.isComplexElement <;> simp [hc, ih]
  have hmark : ∀ cds : List ComplexDeletion,
      (cds.map ComplexDeletion.toOperation).filterMap
        (fun op => op.wholeColumn.map fun c => (c, op)) = [] := by
    simp
  rw [wholeColumnOps, rowOperations_live h, List.filterMap_append, hcell, hmark,
    List.append_nil]

/-- A row holds one simple cell per column. -/
def MergeEntry.SimpleDistinct (e : MergeEntry) : Prop :=
  (e.cells.filter fun c => !c.isComplexElement).Pairwise fun a b => a.column ≠ b.column

theorem MergeEntry.SimpleDistinct.rowCells (hdist : e.SimpleDistinct) :
    ((rowCells schema skip e).filter fun c => !c.isComplexElement).Pairwise
      fun a b => a.column ≠ b.column := by
  refine List.Pairwise.sublist ?_ hdist
  exact List.filter_sublist.filter _

theorem cellWriteTimestamp_live (h : e.rowData = .live cells) (hdist : e.SimpleDistinct)
    {c : CellData} (hc : c ∈ e.cells) (hsimple : c.isComplexElement = false) :
    (rowMutation pk e).cellWriteTimestamp c.column = c.timestamp := by
  have hcells : e.cells = cells := by simp [MergeEntry.cells, h]
  have hkey : ∀ a ∈ e.cells, a.isComplexElement = false → a.column = c.column → a = c := by
    intro a ha hsa hcol
    by_contra hne
    have hsymm : Std.Symm (fun a b : CellData => a.column ≠ b.column) := ⟨fun _ _ hk he => hk he.symm⟩
    exact hdist.forall (List.mem_filter.mpr ⟨ha, by simp [hsa]⟩)
      (List.mem_filter.mpr ⟨hc, by simp [hsimple]⟩) hne hcol
  have hlookup : ∀ t, (ownTimestamps e.cells e.timestamp).lookup c.column = some t →
      t = c.timestamp := by
    intro t ht
    obtain ⟨l₁, l₂, hsplit, -⟩ := List.lookup_eq_some_iff.mp ht
    have hmem : (c.column, t) ∈ ownTimestamps e.cells e.timestamp := by rw [hsplit]; simp
    obtain ⟨a, ha, heq⟩ := List.mem_map.mp (List.mem_reverse.mp hmem)
    simp only [List.mem_filter, Bool.and_eq_true, Bool.not_eq_true', bne_iff_ne] at ha
    obtain ⟨hcol, rfl⟩ := Prod.mk.inj heq
    rw [hkey a ha.1 ha.2.1 hcol]
  have hmiss : (ownTimestamps e.cells e.timestamp).lookup c.column = none →
      c.timestamp = e.timestamp := by
    intro hnone
    by_contra hne
    have hmem : (c.column, c.timestamp) ∈ ownTimestamps e.cells e.timestamp :=
      List.mem_reverse.mpr (List.mem_map.mpr ⟨c, List.mem_filter.mpr ⟨hc, by simp [hsimple, hne]⟩,
        rfl⟩)
    simpa using List.lookup_eq_none_iff.mp hnone _ hmem
  simp only [Mutation.cellWriteTimestamp, rowMutation, cellWriteTimestampsOf, h, ← hcells]
  split
  · rename_i hempty
    simp only [Option.bind_none, Option.getD_none]
    refine (hmiss ?_).symm
    rw [List.isEmpty_iff.mp hempty]
    rfl
  · simp only [Option.bind_some]
    cases hl : (ownTimestamps e.cells e.timestamp).lookup c.column with
    | none => exact (hmiss hl).symm
    | some t => exact hlookup t hl

/-- The merged operation of a simple cell. -/
def simpleOp (m : Mutation) (c : CellData) : MergedOp :=
  ⟨c.toOperation, c.timestamp, none, c.toOperation.cellLocalDeletionTime m⟩

/-- What is made of whole-column operations and their write times is made of the simple cells. -/
theorem wholeColumnOps_map (h : e.rowData = .live cells) (hdist : e.SimpleDistinct) {β : Type}
    {q : String × CellOperation → Bool} {q' : CellData → Bool}
    (hq : ∀ c, c.isComplexElement = false → q (c.column, c.toOperation) = q' c)
    (f : String × CellOperation → Int → β) :
    ((wholeColumnOps schema skip (rowMutation pk e)).filter q).map
        (fun p => f p ((rowMutation pk e).cellWriteTimestamp p.1)) =
      ((rowCells schema skip e).filter fun c => !c.isComplexElement && q' c).map
        fun c => f (c.column, c.toOperation) c.timestamp := by
  have hfilter : ((rowCells schema skip e).filter fun c => !c.isComplexElement).filter
        (q ∘ fun c => (c.column, c.toOperation)) =
      (rowCells schema skip e).filter fun c => !c.isComplexElement && q' c := by
    rw [List.filter_filter]
    refine List.filter_congr fun c _ => ?_
    cases hc : c.isComplexElement with
    | true => simp
    | false => simp [hq c hc]
  rw [wholeColumnOps_live h, List.filter_map, List.map_map, hfilter]
  refine List.map_congr_left fun c hc => ?_
  simp only [List.mem_filter, rowCells, Bool.and_eq_true, Bool.not_eq_true'] at hc
  simp only [Function.comp_apply, cellWriteTimestamp_live h hdist hc.1.1 hc.2.1]

/-- The regular-column operations of the row, before the element streams are looked at. -/
theorem unshadowed_cellOps_live (h : e.rowData = .live cells) (hdist : e.SimpleDistinct) :
    (unshadowedMutations d [rowMutation pk e]).flatMap (cellOpsOf schema skip d) =
      ((simpleCells schema skip d e).filter fun c => !schema.isPrimaryKeyColumn c.column).map
        fun c => (c.column, simpleOp (rowMutation pk e) c) := by
  have hts : (rowMutation pk e).timestampMicros = e.timestamp := rfl
  have hcell : cellOpsOf schema skip d (rowMutation pk e) =
      ((rowCells schema skip e).filter fun c => !c.isComplexElement && newerThan d c.timestamp &&
        !schema.isPrimaryKeyColumn c.column).map
        fun c => (c.column, simpleOp (rowMutation pk e) c) := by
    rw [cellOpsOf, wholeColumnOps_map h hdist (fun _ _ => rfl) fun p ts => (p.1, (⟨p.2, ts,
      (rowMutation pk e).ttlSeconds, p.2.cellLocalDeletionTime (rowMutation pk e)⟩ : MergedOp)),
      List.filter_map, List.filter_filter]
    refine congrArg (List.map _) (List.filter_congr fun c _ => ?_)
    simp only [Function.comp_apply, Bool.and_left_comm, Bool.and_assoc]
  simp only [unshadowedMutations, List.filter_cons, List.filter_nil, hts, simpleCells]
  cases newerThan d e.timestamp with
  | false => rfl
  | true =>
    simp only [if_true, List.flatMap_cons, List.flatMap_nil, List.append_nil, hcell,
      List.filter_filter, Bool.and_comm, Bool.and_assoc]

theorem simpleCells_sublist :
    (simpleCells schema skip d e).Sublist
      ((rowCells schema skip e).filter fun c => !c.isComplexElement) := by
  unfold simpleCells
  split
  · refine List.monotone_filter_right _ ?_
    intro c hc
    exact (Bool.and_eq_true _ _ ▸ hc).1
  · exact List.nil_sublist _

theorem mergedCells_live (h : e.rowData = .live cells) (hdist : e.SimpleDistinct) :
    mergedCells schema skip d [rowMutation pk e] =
      ((simpleCells schema skip d e).filter fun c => !schema.isPrimaryKeyColumn c.column).map
        fun c => (c.column, simpleOp (rowMutation pk e) c) := by
  rw [mergedCells, unshadowed_cellOps_live h hdist]
  refine Lww.winners_eq_self (List.pairwise_map.mpr ?_)
  exact hdist.rowCells.sublist
    (List.filter_sublist.trans (simpleCells_sublist))

theorem wholeColLiveness_live (h : e.rowData = .live cells) (hdist : e.SimpleDistinct) :
    wholeColLiveness schema skip d [rowMutation pk e] =
      ((simpleCells schema skip d e).filter fun c =>
        !schema.isPrimaryKeyColumn c.column && !c.isCellDelete).map
        fun c => (c.column, (c.timestamp, none)) := by
  have hwrite : ∀ c ∈ (simpleCells schema skip d e).filter
        (fun c => !schema.isPrimaryKeyColumn c.column),
      (simpleOp (rowMutation pk e) c).op.isWrite = !c.isCellDelete := by
    intro c hc
    have hmem := (simpleCells_sublist).mem (List.mem_filter.mp hc).1
    exact isWrite_toOperation (by simpa using (List.mem_filter.mp hmem).2)
  rw [wholeColLiveness, unshadowed_cellOps_live h hdist, List.filter_map, List.map_map]
  simp only [Function.comp_def]
  rw [List.filter_congr hwrite, List.filter_filter]
  simp only [Bool.and_comm (!CellData.isCellDelete _)]
  refine Lww.winners_eq_self (List.pairwise_map.mpr ?_)
  exact hdist.rowCells.sublist
    (List.filter_sublist.trans (simpleCells_sublist))

/-! ### The element streams -/

/-- The newest per-element operation of a column is the newest of its times. -/
theorem elemMaxTs_live (h : e.rowData = .live cells) (column : String) :
    elemMaxTs (complexElementOps schema skip d [rowMutation pk e]) column =
      (elementTimes schema skip d e column).max? := by
  rw [elemMaxTs, complexElementOps_live h, elementStream, elementTimes]
  simp only [List.filter_append, List.filter_map, List.map_append, List.map_map, Function.comp_def,
    column_toOperation, ComplexDeletion.column_toOperation, Option.some.injEq]

theorem writtenCells_live (h : e.rowData = .live cells) (hdist : e.SimpleDistinct) :
    writtenCells schema skip d [rowMutation pk e] =
      (regularCells schema skip d e).map fun c => (c.column, simpleOp (rowMutation pk e) c) := by
  rw [writtenCells, wholeWinners, mergedCells_live h hdist, List.filter_map,
    List.filter_filter, regularCells]
  congr 2
  funext c
  simp only [Function.comp_apply, elemMaxTs_live h, max?_all_le, simpleOp, Bool.and_comm]

/-- The columns a row marker may take its time from. -/
theorem columnLiveness_live (h : e.rowData = .live cells) (hdist : e.SimpleDistinct) :
    ((wholeColLiveness schema skip d [rowMutation pk e]).filter fun p =>
      (elemMaxTs (complexElementOps schema skip d [rowMutation pk e]) p.1).isNone ||
        (writtenCells schema skip d [rowMutation pk e]).any fun k => k.1 = p.1).map (·.2) =
      ((regularCells schema skip d e).filter fun c => !c.isCellDelete).map
        fun c => (c.timestamp, none) := by
  -- a column is kept exactly when its one simple cell is not older than its elements
  have hkept : ∀ c ∈ simpleCells schema skip d e, schema.isPrimaryKeyColumn c.column = false →
      ((elementTimes schema skip d e c.column).max?.isNone ||
        (regularCells schema skip d e).any fun k => k.column = c.column) =
      (elementTimes schema skip d e c.column).all fun t => decide (t ≤ c.timestamp) := by
    intro c hc hpk
    rw [Bool.eq_iff_iff]
    simp only [Bool.or_eq_true, Option.isNone_iff_eq_none, List.max?_eq_none_iff, List.any_eq_true,
      decide_eq_true_eq]
    constructor
    · rintro (hnil | ⟨k, hk, hcol⟩)
      · simp [hnil]
      · simp only [regularCells, List.mem_filter, Bool.and_eq_true] at hk
        have hsymm : Std.Symm (fun a b : CellData => a.column ≠ b.column) :=
          ⟨fun _ _ hk he => hk he.symm⟩
        have heq : k = c := by
          by_contra hne
          exact (hdist.rowCells.sublist simpleCells_sublist).forall hk.1 hc hne hcol
        rw [← heq]
        exact hk.2.2
    · intro hall
      exact .inr ⟨c, List.mem_filter.mpr ⟨hc, by simp [hpk, hall]⟩, rfl⟩
  rw [wholeColLiveness_live h hdist, writtenCells_live h hdist,
    List.filter_map, List.map_map, List.filter_filter, regularCells, List.filter_filter]
  simp only [Function.comp_def, elemMaxTs_live h, List.any_map]
  refine congrArg (List.map _) (List.filter_congr fun c hc => ?_)
  cases hpk : schema.isPrimaryKeyColumn c.column with
  | true => simp
  | false =>
    have hcol := hkept c hc hpk
    rw [regularCells] at hcol
    rw [hcol]
    cases c.isCellDelete <;> simp

theorem activeMfda_elementStream (m : Mutation) (es : List CellData) (cds : List ComplexDeletion)
    (column : String) :
    activeMfda (elementStream m es cds) column =
      ((cds.filter fun cd => cd.column = column).map (·.markedForDeleteAt)).max? := by
  have hes : (es.map fun c => (⟨c.toOperation, c.timestamp, none, m.effectiveLocalDeletionTime⟩ :
      MergedOp)).filterMap (fun mop => mop.op.mfdaOn column) = [] := by
    simp [List.filterMap_map]
  have hcds : (cds.map fun cd => (⟨cd.toOperation, cd.markedForDeleteAt, none,
      m.effectiveLocalDeletionTime⟩ : MergedOp)).filterMap (fun mop => mop.op.mfdaOn column) =
      (cds.filter fun cd => cd.column = column).map (·.markedForDeleteAt) := by
    induction cds with
    | nil => rfl
    | cons cd cds ih =>
      by_cases hcol : cd.column = column <;>
        simp_all [CellOperation.mfdaOn, ComplexDeletion.toOperation]
  rw [activeMfda, elementStream, List.filterMap_append, hes, hcds, List.nil_append]

/-- The live elements of a stream: with a value, and newer than the marker of their column. -/
theorem elementLiveness_elementStream (m : Mutation) (es : List CellData)
    (cds : List ComplexDeletion) (hes : ∀ c ∈ es, c.isComplexElement = true) :
    (unshadowedElements (elementStream m es cds)).filterMap MergedOp.elementLiveness =
      (es.filter fun c => !c.isDeleted && !c.hasEmptyValue &&
        cds.all fun cd => cd.column ≠ c.column || cd.markedForDeleteAt < c.timestamp).map
        fun c => (c.timestamp, c.ttl) := by
  have hcover : ∀ column ts, (activeMfda (elementStream m es cds) column).all
      (fun mfda => elementSurvivesComplexDeletion ts mfda) =
      cds.all fun cd => cd.column ≠ column || cd.markedForDeleteAt < ts := by
    intro column ts
    rw [activeMfda_elementStream, max?_all (p := fun mfda => elementSurvivesComplexDeletion ts mfda)
      fun a b hab hb => by simp only [elementSurvivesComplexDeletion, decide_eq_true_eq] at hb ⊢; omega]
    simp only [List.all_map, List.all_filter, elementSurvivesComplexDeletion, Function.comp_def]
    congr 1
    funext cd
    by_cases hcol : cd.column = column <;> simp [hcol]
  have hmarkers : ∀ f : MergedOp → Bool, ((cds.map fun cd => (⟨cd.toOperation,
      cd.markedForDeleteAt, none, m.effectiveLocalDeletionTime⟩ : MergedOp)).filter f).filterMap
        MergedOp.elementLiveness = [] := by
    intro f
    refine List.filterMap_eq_nil_iff.mpr fun mop hmop => ?_
    obtain ⟨cd, -, rfl⟩ := List.mem_map.mp (List.mem_filter.mp hmop).1
    rfl
  rw [unshadowedElements]
  generalize activeMfda (elementStream m es cds) = active at hcover
  rw [elementStream, List.filter_append, List.filterMap_append, hmarkers, List.append_nil]
  induction es with
  | nil => rfl
  | cons c es ih =>
    have hop := toOperation_element (hes c (by simp))
    have ih := ih fun c hc => hes c (by simp [hc])
    have hactive := hcover c.column c.timestamp
    rw [List.map_cons, List.filter_cons, List.filter_cons]
    simp only [hop]
    rw [← hactive]
    by_cases hlive : (active c.column).all
        (fun mfda => elementSurvivesComplexDeletion c.timestamp mfda) = true
    · rw [if_pos hlive, hlive, List.filterMap_cons, ih]
      cases hdel : c.isDeleted <;> cases hempty : c.hasEmptyValue <;>
        simp [MergedOp.elementLiveness, hdel, hempty, CellData.elementValue]
    · rw [if_neg hlive, if_neg (by simp [hlive]), ih]

/-- The elements a row marker may take its time from. -/
theorem elementLiveness_live (h : e.rowData = .live cells) (hdist : e.SimpleDistinct) :
    (writtenElements schema skip d [rowMutation pk e]).filterMap MergedOp.elementLiveness =
      ((elementCells schema skip d e).filter (isLiveElement schema skip d e)).map
        fun c => (c.timestamp, c.ttl) := by
  have hwinners : elementWinners (complexElementOps schema skip d [rowMutation pk e])
        (writtenCells schema skip d [rowMutation pk e]) =
      elementStream (rowMutation pk e)
        ((elementCells schema skip d e).filter fun c =>
          !(regularCells schema skip d e).any fun k => k.column = c.column)
        ((columnMarkers schema skip d e).filter fun cd =>
          !(regularCells schema skip d e).any fun k => k.column = cd.column) := by
    rw [elementWinners, complexElementOps_live h, writtenCells_live h hdist]
    simp only [elementStream, List.filter_append, List.filter_map, Function.comp_def, column_toOperation, ComplexDeletion.column_toOperation,
      Option.some.injEq, List.any_map, eq_comm]
  have hes : ∀ c ∈ (elementCells schema skip d e).filter (fun c =>
      !(regularCells schema skip d e).any fun k => k.column = c.column),
      c.isComplexElement = true := by
    intro c hc
    simp only [elementCells, List.mem_filter, Bool.and_eq_true] at hc
    exact hc.1.2.1
  rw [writtenElements, hwinners, elementLiveness_elementStream _ _ _ hes, List.filter_filter]
  refine congrArg (List.map _) (List.filter_congr fun c _ => ?_)
  unfold isLiveElement
  cases hany : (regularCells schema skip d e).any fun k => k.column = c.column with
  | true => simp
  | false =>
    -- the markers of a column without a winning simple cell are all still there
    have hall : (((columnMarkers schema skip d e).filter fun cd =>
          !(regularCells schema skip d e).any fun k => k.column = cd.column).all fun cd =>
          cd.column ≠ c.column || cd.markedForDeleteAt < c.timestamp) =
        (columnMarkers schema skip d e).all fun cd =>
          cd.column ≠ c.column || cd.markedForDeleteAt < c.timestamp := by
      rw [List.all_filter]
      congr 1
      funext cd
      by_cases hcol : cd.column = c.column
      · simp [hcol, hany]
      · simp [hcol]
    rw [hall]
    cases c.isDeleted <;> cases c.hasEmptyValue <;> simp

/-! ### Sources without cells -/

theorem pkWriteLiveness_live (h : e.rowData = .live cells) (hdist : e.SimpleDistinct) :
    pkWriteLiveness schema skip d (rowMutation pk e) =
      Lww.latest (fun a b => decide (b ≤ a)) (((rowCells schema skip e).filter fun c =>
        !c.isComplexElement && newerThan d c.timestamp && (schema.isPrimaryKeyColumn c.column &&
          !c.isCellDelete)).map (·.timestamp)) := by
  have hwrite : ∀ c : CellData, c.isComplexElement = false →
      (schema.isPrimaryKeyColumn c.column && c.toOperation.isWrite) =
        (schema.isPrimaryKeyColumn c.column && !c.isCellDelete) := fun c hc => by
    rw [isWrite_toOperation hc]
  rw [pkWriteLiveness, wholeColumnOps_map h hdist hwrite fun _ ts => ts, List.filter_map,
    List.filter_filter]
  refine congrArg _ (congrArg (List.map _) (List.filter_congr fun c _ => ?_))
  simp only [Function.comp_apply, Bool.and_left_comm, Bool.and_assoc]

theorem isPurePkInsert_live (h : e.rowData = .live cells) :
    (rowMutation pk e).isPurePkInsert = e.isBareRow := by
  have hops : (rowMutation pk e).operations = operationsOf e := rfl
  have hcells : e.cells = cells := by simp [MergeEntry.cells, h]
  simp only [Mutation.isPurePkInsert, MergeEntry.isBareRow, hops, operationsOf_live h, hcells, h]
  cases cells <;> cases e.complexDeletions <;> cases hr : e.rangeDeletion <;>
    simp [rowMutation, hr]

theorem latest_times (ts : List Int) :
    Lww.latest Liveness.replaces (ts.map fun t => (t, none)) =
      (Lww.latest (fun a b => decide (b ≤ a)) ts).map fun t => (t, none) :=
  Lww.latest_map (fun _ _ => rfl) ts

/-- The cell-less sources of the row, as far as the newest candidate goes. -/
theorem latest_pkLiveness_live (h : e.rowData = .live cells) (hdist : e.SimpleDistinct)
    (rest : List Liveness) :
    Lww.latest Liveness.replaces
      ((unshadowedMutations d [rowMutation pk e]).filterMap (pkLiveness schema skip d) ++ rest) =
    Lww.latest Liveness.replaces
      (((simpleCells schema skip d e).filter fun c =>
        schema.isPrimaryKeyColumn c.column && !c.isCellDelete).map (fun c => (c.timestamp, none)) ++
      (if e.isBareRow && newerThan d e.timestamp then [(e.timestamp, none)] else []) ++ rest) := by
  have hts : (rowMutation pk e).timestampMicros = e.timestamp := rfl
  simp only [unshadowedMutations, List.filter_cons, List.filter_nil, hts, simpleCells]
  cases hnew : newerThan d e.timestamp with
  | false => simp
  | true =>
    simp only [if_true, Bool.and_true, List.filter_filter]
    have hpk : pkLiveness schema skip d (rowMutation pk e) =
        (((Lww.latest (fun a b => decide (b ≤ a)) (((rowCells schema skip e).filter fun c =>
          !c.isComplexElement && newerThan d c.timestamp && (schema.isPrimaryKeyColumn c.column &&
            !c.isCellDelete)).map (·.timestamp))).or
          (if e.isBareRow then some e.timestamp else none)).map fun ts => (ts, none)) := by
      rw [pkLiveness, pkWriteLiveness_live h hdist, isPurePkInsert_live h, hts]
      rfl
    have hbare : e.isBareRow = true → rowCells schema skip e = [] := by
      intro hb
      have hcells : e.cells = cells := by simp [MergeEntry.cells, h]
      simp only [MergeEntry.isBareRow, h, Bool.and_eq_true, List.isEmpty_iff] at hb
      simp [rowCells, hcells, hb.1.1]
    have hsingle : [rowMutation pk e].filterMap (pkLiveness schema skip d) =
        (pkLiveness schema skip d (rowMutation pk e)).toList := by
      cases hl : pkLiveness schema skip d (rowMutation pk e) <;> simp [hl]
    rw [hsingle, hpk]
    cases hb : e.isBareRow with
    | true =>
      rw [hbare hb]
      rfl
    | false =>
      simp only [Bool.false_eq_true, if_false, Option.or_none, List.append_nil]
      rw [← latest_times, List.map_map, Lww.latest_toList_append]
      simp only [Function.comp_def, Bool.and_comm, Bool.and_assoc]

theorem latest_candidates_live (h : e.rowData = .live cells) (hdist : e.SimpleDistinct) :
    Lww.latest Liveness.replaces (livenessCandidates schema skip d [rowMutation pk e]) =
      Lww.latest Liveness.replaces (liveWrites schema skip d e) := by
  rw [livenessCandidates, columnLiveness_live h hdist,
    elementLiveness_live h hdist, List.append_assoc,
    latest_pkLiveness_live h hdist, liveWrites]
  simp only [List.append_assoc]

theorem deletionTs_live (floor : Option Int) (h : e.rowData = .live cells) :
    deletionTs (newestRowDeletion floor [rowMutation pk e]) floor = e.writeFloor floor := by
  have hnone : (rowMutation pk e).operations.any CellOperation.isDeleteRow = false := by
    change (operationsOf e).any CellOperation.isDeleteRow = false
    rw [operationsOf_live h]
    simp
  have htomb : (rowMutation pk e).rowTombstone = e.rowDeletion := by
    simp [rowMutation, coexistingRowTombstone, h]
  rw [MergeEntry.writeFloor]
  congr 1
  simp only [newestRowDeletion, List.flatMap_cons, List.flatMap_nil, List.append_nil,
    Mutation.rowDeletions, hnone, htomb]
  cases e.rowDeletion with
  | none => rfl
  | some d =>
    simp only [Bool.false_eq_true, if_false, List.nil_append, Option.toList_some, List.filter_cons,
      List.filter_nil, Option.filter_some]
    split <;> rfl

end LiveRow

/-! ### The mutation of a row tombstone -/

section Tombstone

variable {schema : WriteSchema} {skip : Bool} {d : Option Int} {pk : PartitionKey} {e : MergeEntry}
  {dt ldt : Int}

theorem operationsOf_tombstone (h : e.rowData = .tombstone dt ldt) {op : CellOperation}
    (hop : op ∈ operationsOf e) :
    op = .deleteRow ∨ ∃ cd : ComplexDeletion, op = cd.toOperation := by
  simp only [operationsOf, h, List.mem_append, List.mem_singleton, List.mem_filterMap] at hop
  rcases hop with rfl | ⟨cd, -, hcd⟩
  · exact .inl rfl
  · refine .inr ⟨cd, ?_⟩
    unfold complexDeletionOperation at hcd
    split at hcd
    · exact (Option.some.inj hcd).symm
    · cases hcd

theorem livenessCandidates_tombstone (h : e.rowData = .tombstone dt ldt) :
    livenessCandidates schema skip d [rowMutation pk e] = [] := by
  have hops : ∀ op ∈ rowOperations schema skip (rowMutation pk e),
      op = .deleteRow ∨ ∃ cd : ComplexDeletion, op = cd.toOperation := fun op hop =>
    operationsOf_tombstone h (List.mem_filter.mp hop).1
  have hwhole : wholeColumnOps schema skip (rowMutation pk e) = [] := by
    refine List.filterMap_eq_nil_iff.mpr fun op hop => ?_
    rcases hops op hop with rfl | ⟨cd, rfl⟩ <;> rfl
  have hpure : (rowMutation pk e).isPurePkInsert = false := by
    have : operationsOf e ≠ [] := by simp [operationsOf, h]
    simp [Mutation.isPurePkInsert, rowMutation, this]
  have hcell : cellOpsOf schema skip d (rowMutation pk e) = [] := by
    rw [cellOpsOf, hwhole]
    rfl
  have hpk : pkLiveness schema skip d (rowMutation pk e) = none := by
    rw [pkLiveness, pkWriteLiveness, hwhole, hpure]
    rfl
  have hcells : (unshadowedMutations d [rowMutation pk e]).flatMap (cellOpsOf schema skip d) = [] :=
    List.flatMap_eq_nil_iff.mpr fun m hm => by
      rw [List.mem_singleton.mp (List.mem_filter.mp hm).1, hcell]
  have helements : (writtenElements schema skip d [rowMutation pk e]).filterMap
      MergedOp.elementLiveness = [] := by
    refine List.filterMap_eq_nil_iff.mpr fun mop hmop => ?_
    simp only [writtenElements, unshadowedElements, elementWinners, complexElementOps,
      List.mem_filter, List.flatMap_cons, List.flatMap_nil, List.append_nil, complexOpsOf,
      List.mem_filterMap] at hmop
    obtain ⟨⟨⟨⟨op, hop, hmop⟩, -⟩, -⟩, -⟩ := hmop
    rcases hops op hop with rfl | ⟨cd, rfl⟩
    · simp [CellOperation.complexTimestamp] at hmop
    · obtain rfl : _ = mop := by simpa using hmop
      rfl
  have hsources : (unshadowedMutations d [rowMutation pk e]).filterMap (pkLiveness schema skip d) =
      [] :=
    List.filterMap_eq_nil_iff.mpr fun m hm => by
      rw [List.mem_singleton.mp (List.mem_filter.mp hm).1, hpk]
  rw [livenessCandidates, hsources, helements, wholeColLiveness, hcells]
  rfl

theorem liveWrites_tombstone (h : e.rowData = .tombstone dt ldt) :
    liveWrites schema skip d e = [] := by
  have hcells : rowCells schema skip e = [] := by simp [rowCells, MergeEntry.cells, h]
  have hbare : e.isBareRow = false := by simp [MergeEntry.isBareRow, h]
  simp [liveWrites, regularCells, simpleCells, elementCells, hcells, hbare]

end Tombstone

/-! ### Reconciled rows -/

section Reconciled

variable {s : MergeSettings} {ck : Option ClusteringKey} {rows : List MergeEntry}

/-- A simple cell has no path, so its register is its column. -/
def PathsOfElements (rows : List MergeEntry) : Prop :=
  ∀ r ∈ rows, ∀ c ∈ r.cells, c.isComplexElement = false → c.cellPath = none

theorem groupSurviving_distinct (hpaths : PathsOfElements rows) :
    ((groupSurviving s rows).filter fun c => !c.isComplexElement).Pairwise
      fun a b => a.column ≠ b.column := by
  have hkeys : (groupUnshadowed rows).Pairwise fun a b => a.cellKey ≠ b.cellKey := by
    have hwinners : (groupWinners rows).Pairwise fun a b => a.cellKey ≠ b.cellKey :=
      Lww.winners_pairwise _
    exact hwinners.sublist (List.filter_sublist.trans List.filter_sublist)
  have hpath : ∀ c ∈ groupUnshadowed rows, c.isComplexElement = false → c.cellPath = none := by
    intro c hc hsimple
    obtain ⟨r, hr, hcr⟩ := List.mem_flatMap.mp (mem_groupUnshadowed.mp hc).wins.mem
    exact hpaths r hr c hcr hsimple
  have hcolumns : (groupUnshadowed rows).Pairwise fun a b => a.isComplexElement = false →
      b.isComplexElement = false → a.column ≠ b.column := by
    refine hkeys.imp_of_mem ?_
    intro a b ha hb hkey hsa hsb hcol
    exact hkey (Prod.ext hcol ((hpath a ha hsa).trans (hpath b hb hsb).symm))
  have hexpired : (((groupUnshadowed rows).filter (survivesDrop s.dropped)).map
      (expireCell s.now)).Pairwise fun a b => a.isComplexElement = false →
        b.isComplexElement = false → a.column ≠ b.column := by
    refine List.pairwise_map.mpr ((hcolumns.sublist List.filter_sublist).imp ?_)
    simp only [expireCell_isComplexElement, expireCell_column]
    exact fun h => h
  have hsub : (groupSurviving s rows).Pairwise fun a b => a.isComplexElement = false →
      b.isComplexElement = false → a.column ≠ b.column := hexpired.sublist List.filter_sublist
  refine (hsub.sublist List.filter_sublist).imp_of_mem ?_
  intro a b ha hb h
  exact h (by simpa using (List.mem_filter.mp ha).2) (by simpa using (List.mem_filter.mp hb).2)

/-- What the conversion may rely on: one simple cell per column, and no partition deletion. -/
def MergeEntry.IsRow (e : MergeEntry) : Prop := e.SimpleDistinct ∧ e.partitionDeletion = none

theorem isRow_of_no_cells {e : MergeEntry} (hcells : e.cells = []) (hpd : e.partitionDeletion = none) :
    e.IsRow :=
  ⟨by simp [MergeEntry.SimpleDistinct, hcells], hpd⟩

theorem groupOutput_isRow (hpaths : PathsOfElements rows) {first e : MergeEntry}
    (h : groupOutput s ck first rows = some e) : e.IsRow := by
  unfold groupOutput at h
  split at h
  · cases h
    exact ⟨groupSurviving_distinct hpaths, rfl⟩
  · split at h
    · cases h
      exact isRow_of_no_cells rfl rfl
    · split at h
      · cases h
        exact isRow_of_no_cells rfl rfl
      · cases h

theorem shadowBelow_isRow {floor : Int} {ml : Bool} {e out : MergeEntry}
    (h : shadowBelow floor ml e = some out) (he : e.IsRow) : out.IsRow := by
  cases shadowBelow_cases h with
  | tombstone dt ldt hrow hlt => exact isRow_of_no_cells rfl rfl
  | live cells hrow hkept =>
    have hcells : e.cells = cells := by simp [MergeEntry.cells, hrow]
    refine ⟨List.Pairwise.sublist ?_ he.1, rfl⟩
    rw [hcells]
    exact List.filter_sublist.filter _
  | rowDeletion cells d hrow hdata hml hd hlt => exact isRow_of_no_cells rfl rfl
  | carrier _ hout hrow hcells =>
    unfold complexCarrier at hout
    split at hout
    · cases hout
      exact isRow_of_no_cells rfl rfl
    · cases hout

theorem reconciled_isRow (hpaths : PathsOfElements rows) {f : Option Int} {p : Option Deletion}
    {e : MergeEntry} (h : (reconcileCluster s ck rows).bind (shadowRow f p) = some e) : e.IsRow := by
  obtain ⟨row, hrow, hshadow⟩ := Option.bind_eq_some_iff.mp h
  rw [reconcileCluster_eq] at hrow
  obtain ⟨first, -, hout⟩ := Option.bind_eq_some_iff.mp hrow
  exact shadowRow_rule (fun _ _ _ _ => shadowBelow_isRow) hshadow (groupOutput_isRow hpaths hout)

/-- The marker of the newest write; the last one on a tie. -/
def newestMarker (now : Int) (writes : List Liveness) : RowLiveness :=
  (Lww.latest Liveness.replaces writes).elim .empty (Liveness.toMarker now)

/-- The marker a compaction stores for a reconciled row is the one of its newest live write. -/
theorem stored_marker_is_newest_write (now : Int) (schema : WriteSchema) (skip : Bool)
    (floor : Option Int) (hpaths : PathsOfElements rows) {f : Option Int} {p : Option Deletion}
    {e : MergeEntry} (hrow : (reconcileCluster s ck rows).bind (shadowRow f p) = some e)
    {fromBytes : Bytes → Except Error PartitionKey} {m : Mutation}
    (hm : mergeEntryToMutation fromBytes e = .ok m) :
    storedLiveness now (mergeRowGroup schema skip floor [m]) =
      newestMarker now (liveWrites schema skip (e.writeFloor floor) e) := by
  obtain ⟨hdist, hpd⟩ := reconciled_isRow hpaths hrow
  obtain ⟨pk, rfl⟩ : ∃ pk, m = rowMutation pk e := by
    unfold mergeEntryToMutation at hm
    rw [hpd] at hm
    cases hpk : fromBytes e.key.key with
    | error x => rw [hpk] at hm; cases hm
    | ok pk => rw [hpk] at hm; cases hm; exact ⟨pk, rfl⟩
  rw [storedLiveness_mergeRowGroup, newestMarker]
  cases hdata : e.rowData with
  | live cells => rw [deletionTs_live floor hdata, latest_candidates_live hdata hdist]
  | tombstone dt ldt =>
    rw [livenessCandidates_tombstone hdata, liveWrites_tombstone hdata]

end Reconciled

/-! ### Three rows of a table with one clustering and one regular column -/

def rowSchema : WriteSchema := ⟨["id"], ["c"], [⟨"v", false, false⟩]⟩

def rowKeyOf (_ : Bytes) : Except Error PartitionKey := .ok ⟨[("id", .integer 1)]⟩

/-- The row `c = 1` as the reader delivers it: the clustering column as a cell at the row's
    timestamp, then its data. -/
def tableRow (rowTs : Int) (v : CellData) (marker : RowLiveness) : MergeEntry :=
  (MergeEntry.new 0 ⟨1, [1]⟩ (some ⟨[("c", .integer 1)]⟩) v.timestamp
    (.live [CellData.new "c" (.integer 1) rowTs, v])).withRowLiveness marker

/-- `UPDATE … SET v = 7`, which writes no marker. -/
def updatedRow : MergeEntry := tableRow 0 (CellData.new "v" (.integer 7) 100) .empty

/-- `INSERT … USING TTL 300` at second 100. -/
def expiringRow : MergeEntry :=
  tableRow 100 { CellData.new "v" (.integer 7) 100 with ttl := some 300, localDeletionTime := some 400 }
    (.marker 100 (some 400))

/-- `INSERT` without a TTL. -/
def insertedRow : MergeEntry := tableRow 100 (CellData.new "v" (.integer 7) 100) (.marker 100 none)

theorem inserted_row_marker_kept :
    PathsOfElements [insertedRow] ∧
    storedLiveness 1000 (mergeRowGroup rowSchema true none
      [rowMutation ⟨[("id", .integer 1)]⟩ insertedRow]) = insertedRow.rowLiveness := by
  have hpaths : PathsOfElements [insertedRow] := by
    intro r hr c hc _
    obtain rfl := List.mem_singleton.mp hr
    simp only [insertedRow, tableRow, MergeEntry.new, MergeEntry.withRowLiveness, MergeEntry.cells,
      List.mem_cons, List.not_mem_nil, or_false] at hc
    rcases hc with rfl | rfl <;> rfl
  refine ⟨hpaths, ?_⟩
  have hrow : (reconcileCluster MergeSettings.keepAll insertedRow.clusteringKey [insertedRow]).bind
      (shadowRow none none) = some insertedRow := rfl
  rw [stored_marker_is_newest_write 1000 rowSchema true none hpaths hrow
    (show mergeEntryToMutation rowKeyOf insertedRow = .ok _ from rfl)]
  decide +kernel

/-- An updated row gains a marker, and the marker of an expiring insert no longer expires. -/
theorem markers_not_preserved :
    (∃ e m, (reconcileCluster MergeSettings.keepAll updatedRow.clusteringKey [updatedRow]).bind
        (shadowRow none none) = some e ∧ mergeEntryToMutation rowKeyOf e = .ok m ∧
      e.rowLiveness = .empty ∧
      storedLiveness 1000 (mergeRowGroup rowSchema true none [m]) = .marker 100 none) ∧
    ∃ e m, (reconcileCluster MergeSettings.keepAll expiringRow.clusteringKey [expiringRow]).bind
        (shadowRow none none) = some e ∧ mergeEntryToMutation rowKeyOf e = .ok m ∧
      e.rowLiveness = .marker 100 (some 400) ∧
      storedLiveness 1000 (mergeRowGroup rowSchema true none [m]) = .marker 100 none :=
  ⟨⟨_, _, rfl, rfl, rfl, by decide +kernel⟩, ⟨_, _, rfl, rfl, rfl, by decide +kernel⟩⟩

end Cqlite
