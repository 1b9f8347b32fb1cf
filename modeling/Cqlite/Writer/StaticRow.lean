import Cqlite.Writer.RowMerge

/-! The static row of a partition (`data_writer/static_ops.rs`, `data_writer/static_rows.rs`) next to
    the regular-row path (`data_writer/complex.rs`: `write_merged_cells`, `emit_whole_column_op`).

    Both paths reduce the operations of a column and hand the result to the cell writers, in the form
    of a single cell or of a complex column. They are compared on that hand-over: the operation that
    was selected, and the form it is written in. -/

namespace Cqlite

/-! ### The hand-over to the cell writers -/

/-- What a row path writes for one column. -/
inductive ColumnWrite
  | simpleCell (mop : MergedOp)
  | complexColumn (mop : MergedOp)
  | elements (mops : List MergedOp)

/-- `emit_whole_column_op`. -/
def emitWholeColumnOp (isComplex : Bool) (mop : MergedOp) : List ColumnWrite :=
  if mop.op.isNullWrite then []
  else if isComplex then [.complexColumn mop] else [.simpleCell mop]

/-- `write_merged_cells` on one column: the indexed whole-column operation, then its elements. -/
def RowWrite.columnWrites (isComplex : Bool) (column : String) (row : RowWrite) : List ColumnWrite :=
  ((row.ops.filter fun mop => mop.op.wholeColumn = some column).getLast?).toList.flatMap
    (emitWholeColumnOp isComplex) ++
  let elements := row.complexElementOps.filter fun mop => mop.op.column = some column
  if elements.isEmpty then [] else [.elements elements]

namespace WriteSchema

/-- `static_column_names.contains`. -/
def hasStaticColumn (schema : WriteSchema) (column : String) : Bool :=
  schema.columns.any fun c => c.name = column && c.isStatic

/-- The static columns as columns of a row without key columns. -/
def asRegular (schema : WriteSchema) : WriteSchema := ⟨[], [], schema.columns⟩

theorem hasStaticColumn_of_isStaticColumn {schema : WriteSchema} {column : String}
    (h : schema.isStaticColumn column = true) : schema.hasStaticColumn column = true := by
  unfold isStaticColumn at h
  cases hf : schema.columns.find? fun c => c.name = column with
  | none => simp [hf] at h
  | some c =>
    have hname := List.find?_some hf
    rw [hf] at h
    exact List.any_eq_true.mpr ⟨c, List.mem_of_find?_eq_some hf, by simpa using ⟨by simpa using hname, h⟩⟩

end WriteSchema

/-! ### The static path -/

section Static

variable (schema : WriteSchema) (shadowFloor : Option Int)

/-- `StaticOpsTracker::feed`: the candidates of one mutation. -/
def staticOpsOf (m : Mutation) : List (String × MergedOp) :=
  if newerThan shadowFloor m.timestampMicros then
    (((m.operations.filter (CellOperation.isStatic schema)).filterMap fun op =>
      op.wholeColumn.map fun c => (c, op)).map
      fun p => (p.1, (⟨p.2, m.cellWriteTimestamp p.1, m.ttlSeconds,
        p.2.cellLocalDeletionTime m⟩ : MergedOp))).filter
      fun p => newerThan shadowFloor p.2.timestampMicros
  else []

/-- `>=`: the later of two equal candidates. -/
def MergedOp.staticWins (candidate existing : MergedOp) : Bool :=
  existing.timestampMicros ≤ candidate.timestampMicros

/-- `collect_static_operations`. -/
def collectStaticOperations (mutations : List Mutation) : List (String × MergedOp) :=
  Lww.winners Prod.fst (fun a b => a.2.staticWins b.2)
    (mutations.flatMap (staticOpsOf schema shadowFloor))

/-- `write_static_cells` on one column: always a single cell. -/
def staticColumnWrites (mutations : List Mutation) (column : String) : List ColumnWrite :=
  ((collectStaticOperations schema shadowFloor mutations).filter fun p => p.1 = column).flatMap
    fun p => if schema.hasStaticColumn column then emitWholeColumnOp false p.2 else []

/-! ### The same operations on the regular path -/

/-- The static operations of a mutation. -/
def staticPart (m : Mutation) : Mutation :=
  { m with
    clusteringKey := none
    operations := m.operations.filter (CellOperation.isStatic schema)
    rowTombstone := none }

/-- What the regular-row path writes for the same operations. -/
def regularColumnWrites (mutations : List Mutation) (column : String) : List ColumnWrite :=
  (mergeRowGroup schema.asRegular false shadowFloor (mutations.map (staticPart schema))).elim []
    (RowWrite.columnWrites (schema.isComplexColumn column) column)

/-- The whole-column operations on a column that are above the floor, in the order they are fed. -/
def columnOps (mutations : List Mutation) (column : String) : List (String × MergedOp) :=
  (mutations.flatMap (staticOpsOf schema shadowFloor)).filter fun p => p.1 = column

end Static

/-! ### Which operation each path selects -/

/-- The order behind the regular tie-break: timestamp, then deletes above writes. -/
def MergedOp.rank (mop : MergedOp) : Int ×ₗ Bool := toLex (mop.timestampMicros, mop.op.isDelete)

theorem MergedOp.wins_iff (a b : MergedOp) : a.wins b = true ↔ b.rank ≤ a.rank := by
  unfold MergedOp.wins MergedOp.rank
  rw [Prod.Lex.toLex_le_toLex]
  by_cases h : a.timestampMicros = b.timestampMicros
  · cases a.op.isDelete <;> cases b.op.isDelete <;> simp [h]
  · have h' : b.timestampMicros ≠ a.timestampMicros := fun e => h e.symm
    simp [h, h']

theorem MergedOp.staticWins_iff (a b : MergedOp) :
    a.staticWins b = true ↔ b.timestampMicros ≤ a.timestampMicros := by
  simp [MergedOp.staticWins]

/-- The last of the newest operations of a column. -/
def IsNewestOp (ops : List (String × MergedOp)) (w : String × MergedOp) : Prop :=
  Lww.IsLastMax (fun p : String × MergedOp => p.2.timestampMicros) ops w

theorem MergedOp.rank_le_iff {a b : MergedOp} :
    a.rank ≤ b.rank ↔ a.timestampMicros < b.timestampMicros ∨
      (a.timestampMicros = b.timestampMicros ∧ (a.op.isDelete = true → b.op.isDelete = true)) := by
  unfold MergedOp.rank
  rw [Prod.Lex.toLex_le_toLex]
  rfl

variable {ops : List (String × MergedOp)} {w : String × MergedOp}

/-- The two selections agree unless a delete shares the timestamp of the newest write. -/
theorem isLastMax_rank_iff (hw : IsNewestOp ops w) :
    Lww.IsLastMax (fun p : String × MergedOp => p.2.rank) ops w ↔
      (w.2.op.isDelete = true ∨
        ∀ d ∈ ops, d.2.op.isDelete = true → d.2.timestampMicros < w.2.timestampMicros) := by
  constructor
  · intro hrank
    by_cases hdel : w.2.op.isDelete = true
    · exact .inl hdel
    · refine .inr fun d hd hddel => ?_
      rcases MergedOp.rank_le_iff.mp (hrank.le hd) with hlt | ⟨-, himp⟩
      · exact hlt
      · exact absurd (himp hddel) hdel
  · intro hcond
    obtain ⟨pre, post, rfl, hpre, hpost⟩ := hw
    refine ⟨pre, post, rfl, fun a ha => ?_, fun a ha => ?_⟩
    · refine MergedOp.rank_le_iff.mpr ?_
      rcases (hpre a ha).lt_or_eq with hlt | heq
      · exact .inl hlt
      · refine .inr ⟨heq, fun hadel => ?_⟩
        rcases hcond with hdel | hnone
        · exact hdel
        · exact absurd heq (hnone a (by simp [ha]) hadel).ne
    · refine not_le.mp fun hle => ?_
      have hts := hpost a ha
      rcases MergedOp.rank_le_iff.mp hle with hlt | ⟨heq, -⟩
      · exact absurd hlt (not_lt.mpr hts.le)
      · exact absurd heq hts.ne'

/-! ### The regular path on static operations -/

section Regular

variable (schema : WriteSchema) (floor : Option Int) (ms : List Mutation)

theorem newestRowDeletion_static : newestRowDeletion floor (ms.map (staticPart schema)) = none := by
  have hnone : (ms.map (staticPart schema)).flatMap Mutation.rowDeletions = [] := by
    refine List.flatMap_eq_nil_iff.mpr fun m hm => ?_
    obtain ⟨m, -, rfl⟩ := List.mem_map.mp hm
    have hdel : (m.operations.filter (CellOperation.isStatic schema)).any
        CellOperation.isDeleteRow = false := by
      refine List.any_eq_false.mpr fun op hop => ?_
      have hstatic := (List.mem_filter.mp hop).2
      cases op <;> simp_all [CellOperation.isStatic, CellOperation.column, CellOperation.isDeleteRow]
    simp [Mutation.rowDeletions, staticPart, hdel]
  rw [newestRowDeletion, hnone]
  rfl

theorem cellOps_static :
    (unshadowedMutations floor (ms.map (staticPart schema))).flatMap
        (cellOpsOf schema.asRegular false floor) =
      ms.flatMap (staticOpsOf schema floor) := by
  have hone : ∀ m : Mutation, cellOpsOf schema.asRegular false floor (staticPart schema m) =
      (((m.operations.filter (CellOperation.isStatic schema)).filterMap fun op =>
        op.wholeColumn.map fun c => (c, op)).map
        fun p => (p.1, (⟨p.2, m.cellWriteTimestamp p.1, m.ttlSeconds,
          p.2.cellLocalDeletionTime m⟩ : MergedOp))).filter
        fun p => newerThan floor p.2.timestampMicros := by
    intro m
    have hldt : ∀ op : CellOperation, op.cellLocalDeletionTime (staticPart schema m) =
        op.cellLocalDeletionTime m := fun op => rfl
    simp only [cellOpsOf, wholeColumnOps, rowOperations, Bool.false_and, Bool.not_false,
      List.filter_true, WriteSchema.isPrimaryKeyColumn, WriteSchema.asRegular, hldt,
      List.contains_nil, Bool.or_self]
    rfl
  induction ms with
  | nil => rfl
  | cons m ms ih =>
    have hts : (staticPart schema m).timestampMicros = m.timestampMicros := rfl
    simp only [unshadowedMutations, List.map_cons, List.filter_cons, hts, List.flatMap_cons,
      staticOpsOf] at ih ⊢
    cases newerThan floor m.timestampMicros with
    | true => simp only [if_true, List.flatMap_cons, hone, ih]
    | false => simpa using ih

variable {column : String}

theorem wholeColumn_of_mem_columnOps {p : String × MergedOp}
    (hp : p ∈ columnOps schema floor ms column) : p.2.op.wholeColumn = some column := by
  simp only [columnOps, List.mem_filter, List.mem_flatMap, decide_eq_true_eq] at hp
  obtain ⟨⟨m, -, hp⟩, hcol⟩ := hp
  unfold staticOpsOf at hp
  split at hp
  · simp only [List.mem_filter, List.mem_map, List.mem_filterMap, Option.map_eq_some_iff] at hp
    obtain ⟨⟨q, ⟨op, -, c, hc, rfl⟩, rfl⟩, -⟩ := hp
    rw [← hcol]
    exact hc
  · simp at hp

/-- The last newest whole-column operation on a column decides the static cell. -/
theorem staticColumnWrites_eq (hstatic : schema.isStaticColumn column = true) :
    staticColumnWrites schema floor ms column =
      (Lww.latest (fun a b : String × MergedOp => a.2.staticWins b.2)
        (columnOps schema floor ms column)).toList.flatMap fun p => emitWholeColumnOp false p.2 := by
  rw [staticColumnWrites, collectStaticOperations, Lww.winners_filter_key,
    WriteSchema.hasStaticColumn_of_isStaticColumn hstatic]
  rfl

/-- The per-element operations on a column that are above the floor. -/
def columnElementOps (column : String) : List MergedOp :=
  (complexElementOps schema.asRegular false floor (ms.map (staticPart schema))).filter
    fun mop => mop.op.column = some column

/-- An element or complex deletion of `column` above the floor, at time `t`. -/
def HasElementAt (column : String) (t : Int) : Prop :=
  ∃ m ∈ ms, ∃ op ∈ m.operations, op.column = some column ∧ op.complexTimestamp = some t ∧
    newerThan floor t = true

theorem hasElementAt_iff (hstatic : schema.isStaticColumn column = true) {t : Int} :
    HasElementAt floor ms column t ↔
      ∃ e ∈ columnElementOps schema floor ms column, e.timestampMicros = t := by
  constructor
  · rintro ⟨m, hm, op, hop, hcol, hts, hnew⟩
    refine ⟨⟨op, t, m.ttlSeconds, (staticPart schema m).effectiveLocalDeletionTime⟩, ?_, rfl⟩
    simp only [columnElementOps, complexElementOps, List.mem_filter, List.mem_flatMap, List.mem_map,
      complexOpsOf, rowOperations, List.mem_filterMap, Option.map_eq_some_iff, decide_eq_true_eq]
    refine ⟨⟨⟨staticPart schema m, ⟨m, hm, rfl⟩, op, ⟨?_, by simp⟩, t, hts, rfl⟩, hnew⟩, hcol⟩
    exact List.mem_filter.mpr ⟨hop, by simp [CellOperation.isStatic, hcol, hstatic]⟩
  · rintro ⟨e, he, rfl⟩
    simp only [columnElementOps, complexElementOps, List.mem_filter, List.mem_flatMap, List.mem_map,
      complexOpsOf, rowOperations, List.mem_filterMap, Option.map_eq_some_iff, decide_eq_true_eq] at he
    obtain ⟨⟨⟨m', ⟨m, hm, rfl⟩, op, ⟨hop, -⟩, ts, hts, rfl⟩, hnew⟩, hcol⟩ := he
    exact ⟨m, hm, op, (List.mem_filter.mp hop).1, hcol, hts, hnew⟩

/-- Elements are left to write exactly when the column has any that no whole-column operation beats. -/
theorem unshadowedElements_filter_eq_nil {mops : List MergedOp} :
    (unshadowedElements mops).filter (fun mop => mop.op.column = some column) = [] ↔
      mops.filter (fun mop => mop.op.column = some column) = [] := by
  constructor
  · intro hnil
    refine List.filter_eq_nil_iff.mpr fun mop hmop hcol => ?_
    rw [decide_eq_true_eq] at hcol
    have hgone : ∀ x ∈ mops, x.op.column = some column →
        ¬ x ∈ unshadowedElements mops := fun x _ hx hin => by
      simpa [hx] using List.filter_eq_nil_iff.mp hnil x hin
    by_cases hmark : ∃ x ∈ mops, x.op.column = some column ∧ ∃ t, x.op.mfdaOn column = some t
    · -- a marker of the column stays
      obtain ⟨x, hx, hxcol, t, ht⟩ := hmark
      refine hgone x hx hxcol (List.mem_filter.mpr ⟨hx, ?_⟩)
      cases hop : x.op <;> simp_all [CellOperation.mfdaOn]
    · -- without a marker every element stays
      have hactive : activeMfda mops column = none := by
        rw [activeMfda, List.max?_eq_none_iff]
        refine List.filterMap_eq_nil_iff.mpr fun x hx => ?_
        cases hm : x.op.mfdaOn column with
        | none => rfl
        | some t =>
          refine absurd ⟨x, hx, ?_, t, hm⟩ hmark
          cases hop : x.op <;> simp_all [CellOperation.mfdaOn, CellOperation.column]
      refine hgone mop hmop hcol (List.mem_filter.mpr ⟨hmop, ?_⟩)
      cases hop : mop.op <;> simp_all [CellOperation.column]
  · intro hnil
    refine List.filter_eq_nil_iff.mpr fun mop hmop => ?_
    exact List.filter_eq_nil_iff.mp hnil mop (List.mem_filter.mp hmop).1

/-- The whole-column operation the regular path selects for a column. -/
def regularWinner (column : String) : Option (String × MergedOp) :=
  Lww.latest (fun a b : String × MergedOp => a.2.wins b.2) (columnOps schema floor ms column)

/-- The cells of a column that the regular path writes. -/
abbrev staticCellsOf (column : String) : List (String × MergedOp) :=
  (writtenCells schema.asRegular false floor (ms.map (staticPart schema))).filter
    fun p => p.1 = column

/-- The element operations of a column that it writes. -/
abbrev staticElementsOf (column : String) : List MergedOp :=
  (writtenElements schema.asRegular false floor (ms.map (staticPart schema))).filter
    fun mop => mop.op.column = some column

theorem writtenCells_column (column : String) :
    staticCellsOf schema floor ms column = ((regularWinner schema floor ms column).filter fun p =>
        (columnElementOps schema floor ms column).all
          fun e => e.timestampMicros ≤ p.2.timestampMicros).toList := by
  have hmerged : (mergedCells schema.asRegular false floor (ms.map (staticPart schema))).filter
      (fun p => p.1 = column) = (regularWinner schema floor ms column).toList := by
    rw [mergedCells, cellOps_static, Lww.winners_filter_key]
    rfl
  rw [staticCellsOf, writtenCells, wholeWinners, List.filter_filter]
  simp only [Bool.and_comm (decide _)]
  rw [← List.filter_filter, hmerged]
  cases hw : regularWinner schema floor ms column with
  | none => rfl
  | some w =>
    have hcol : w.1 = column := by
      have hmem : w ∈ (mergedCells schema.asRegular false floor
          (ms.map (staticPart schema))).filter (fun p => p.1 = column) := by
        rw [hmerged, hw]
        simp
      simpa using (List.mem_filter.mp hmem).2
    have hmax : (elemMaxTs (complexElementOps schema.asRegular false floor
        (ms.map (staticPart schema))) w.1).all (fun t => decide (t ≤ w.2.timestampMicros)) =
        (columnElementOps schema floor ms column).all
          fun e => e.timestampMicros ≤ w.2.timestampMicros := by
      rw [hcol, elemMaxTs, max?_all_le, List.all_map]
      rfl
    simp only [Option.toList_some, List.filter_cons, List.filter_nil, hmax, Option.filter_some]
    split <;> rfl

/-- The elements of a column are written when no whole-column operation of it is. -/
theorem writtenElements_column_eq_nil (column : String) :
    staticElementsOf schema floor ms column = [] ↔
      staticCellsOf schema floor ms column ≠ [] ∨ columnElementOps schema floor ms column = [] := by
  rw [staticElementsOf, writtenElements, unshadowedElements_filter_eq_nil, elementWinners,
    List.filter_filter]
  simp only [List.filter_eq_nil_iff, ne_eq, columnElementOps, Bool.and_eq_true, decide_eq_true_eq,
    Bool.not_eq_true', not_and, List.any_eq_false, not_forall, not_not]
  constructor
  · intro h
    by_cases hany : ∃ p, ∃ (_ : p ∈ writtenCells schema.asRegular false floor
        (ms.map (staticPart schema))), p.1 = column
    · exact .inl hany
    · refine .inr fun mop hmop hcol => ?_
      obtain ⟨p, hp, hpcol⟩ := h mop hmop hcol
      exact hany ⟨p, hp, (Option.some.inj (hcol.symm.trans hpcol)).symm⟩
  · rintro (⟨p, hp, rfl⟩ | h) mop hmop hcol
    · exact ⟨p, hp, hcol⟩
    · exact absurd hcol (h mop hmop)

theorem regularColumnWrites_eq (column : String) :
    regularColumnWrites schema floor ms column =
      (staticCellsOf schema floor ms column).getLast?.toList.flatMap
        (fun p => emitWholeColumnOp (schema.isComplexColumn column) p.2) ++
      let elements := staticElementsOf schema floor ms column
      if elements.isEmpty then [] else [.elements elements] := by
  have hdts : deletionTs (newestRowDeletion floor (ms.map (staticPart schema))) floor = floor := by
    rw [newestRowDeletion_static]
    rfl
  have hops : ((writtenCells schema.asRegular false floor (ms.map (staticPart schema))).map
      (·.2)).filter (fun mop => mop.op.wholeColumn = some column) =
      (staticCellsOf schema floor ms column).map (·.2) := by
    rw [List.filter_map]
    refine congrArg (List.map _) (List.filter_congr fun p hp => ?_)
    have hmem : p ∈ ms.flatMap (staticOpsOf schema floor) := by
      rw [← cellOps_static]
      exact Lww.mem_of_mem_winners (List.mem_filter.mp hp).1
    have hcol : p.2.op.wholeColumn = some p.1 :=
      wholeColumn_of_mem_columnOps schema floor ms (List.mem_filter.mpr ⟨hmem, by simp⟩)
    simp only [Function.comp_apply, hcol, Option.some.injEq]
  rw [regularColumnWrites, mergeRowGroup]
  simp only [hdts]
  split
  · rename_i hempty
    simp only [Bool.and_eq_true, List.isEmpty_iff, List.map_eq_nil_iff] at hempty
    simp [hempty.1.1.1, hempty.1.1.2]
  · simp only [Option.elim_some, RowWrite.columnWrites, hops, List.getLast?_map]
    cases (staticCellsOf schema floor ms column).getLast? <;> rfl

/-- When no element of the column is newer, the selected operation is written. -/
theorem regularColumnWrites_whole
    (h : ∀ e ∈ columnElementOps schema floor ms column, ∃ w ∈ regularWinner schema floor ms column,
      e.timestampMicros ≤ w.2.timestampMicros) :
    regularColumnWrites schema floor ms column =
      (regularWinner schema floor ms column).toList.flatMap
        fun p => emitWholeColumnOp (schema.isComplexColumn column) p.2 := by
  have hkept : staticCellsOf schema floor ms column = (regularWinner schema floor ms column).toList := by
    rw [writtenCells_column]
    congr 1
    cases hw : regularWinner schema floor ms column with
    | none => rfl
    | some w =>
      rw [Option.filter_some, if_pos]
      refine List.all_eq_true.mpr fun e he => ?_
      obtain ⟨w', hw', hle⟩ := h e he
      obtain rfl : w = w' := by simpa [hw] using hw'
      simpa using hle
  have helements : staticElementsOf schema floor ms column = [] := by
    refine (writtenElements_column_eq_nil schema floor ms column).mpr ?_
    cases hw : regularWinner schema floor ms column with
    | some w =>
      rw [hkept, hw]
      exact .inl (by simp)
    | none =>
      refine .inr (List.eq_nil_iff_forall_not_mem.mpr fun e he => ?_)
      obtain ⟨w', hw', -⟩ := h e he
      simp [hw] at hw'
  rw [regularColumnWrites_eq, hkept, helements]
  cases regularWinner schema floor ms column <;> simp

theorem regularColumnWrites_elements {e : MergedOp}
    (he : e ∈ columnElementOps schema floor ms column)
    (hnew : ∀ w ∈ regularWinner schema floor ms column, w.2.timestampMicros < e.timestampMicros) :
    ∃ es, regularColumnWrites schema floor ms column = [.elements es] := by
  have hkept : staticCellsOf schema floor ms column = [] := by
    rw [writtenCells_column]
    cases hw : regularWinner schema floor ms column with
    | none => rfl
    | some w =>
      have hlt := hnew w (by simp [hw])
      rw [Option.filter_some, if_neg]
      · rfl
      · intro hall
        have := List.all_eq_true.mp hall e he
        simp only [decide_eq_true_eq] at this
        omega
  have helements : staticElementsOf schema floor ms column ≠ [] := by
    intro hnil
    rcases (writtenElements_column_eq_nil schema floor ms column).mp hnil with h | h
    · exact h hkept
    · rw [h] at he
      simp at he
  refine ⟨staticElementsOf schema floor ms column, ?_⟩
  rw [regularColumnWrites_eq, hkept]
  simp only [List.getLast?_nil, Option.toList_none, List.flatMap_nil, List.nil_append]
  rw [if_neg (by simpa using helements)]

/-! ### When the two paths agree -/

/-- The operations on a static column do not reach the difference between the two paths: no element
    or complex deletion is newer than every whole-column operation, a multi-cell column ends in a
    NULL (or has no whole-column operation), and no delete shares its timestamp with a newest write
    fed after it. -/
structure StaticColumnSafe (column : String) : Prop where
  elements : ∀ t, HasElementAt floor ms column t →
    ∃ w ∈ columnOps schema floor ms column, t ≤ w.2.timestampMicros
  form : schema.isComplexColumn column = true →
    ∀ w, IsNewestOp (columnOps schema floor ms column) w → w.2.op.isNullWrite = true
  ties : ∀ w, IsNewestOp (columnOps schema floor ms column) w → w.2.op.isDelete = true ∨
    ∀ d ∈ columnOps schema floor ms column, d.2.op.isDelete = true →
      d.2.timestampMicros < w.2.timestampMicros

theorem isNullWrite_of_isDelete {op : CellOperation} (h : op.isDelete = true) :
    op.isNullWrite = false := by
  cases op <;> simp_all [CellOperation.isDelete, CellOperation.isNullWrite]

theorem regularWinner_isLastMax :
    regularWinner schema floor ms column = some w ↔
      Lww.IsLastMax (fun p : String × MergedOp => p.2.rank) (columnOps schema floor ms column) w :=
  Lww.latest_eq_some_last fun a b => MergedOp.wins_iff a.2 b.2

theorem newest_timestamp_eq {s : String × MergedOp} (hs : IsNewestOp ops s)
    (hw : Lww.IsLastMax (fun p : String × MergedOp => p.2.rank) ops w) :
    w.2.timestampMicros = s.2.timestampMicros := by
  have hws : w.2.timestampMicros ≤ s.2.timestampMicros := hs.le hw.mem
  rcases MergedOp.rank_le_iff.mp (hw.le hs.mem) with h | ⟨h, -⟩ <;> omega

theorem emit_eq_iff {s : String × MergedOp} {isComplex : Bool} (hs : IsNewestOp ops s)
    (hw : Lww.IsLastMax (fun p : String × MergedOp => p.2.rank) ops w) :
    emitWholeColumnOp false s.2 = emitWholeColumnOp isComplex w.2 ↔
      (isComplex = true → s.2.op.isNullWrite = true) ∧
      (s.2.op.isDelete = true ∨
        ∀ d ∈ ops, d.2.op.isDelete = true → d.2.timestampMicros < s.2.timestampMicros) := by
  constructor
  · intro heq
    refine ⟨fun hc => ?_, ?_⟩
    · -- a single cell is not a complex column
      unfold emitWholeColumnOp at heq
      by_contra hnull
      cases hw' : w.2.op.isNullWrite <;> simp [hc, hnull, hw'] at heq
    · by_cases hdel : w.2.op.isDelete = true
      · refine .inl ?_
        unfold emitWholeColumnOp at heq
        rw [isNullWrite_of_isDelete hdel] at heq
        cases hnull : s.2.op.isNullWrite <;> cases isComplex <;> simp [hnull] at heq
        rw [heq]
        exact hdel
      · refine .inr fun d hd hddel => ?_
        have hts := newest_timestamp_eq hs hw
        rcases MergedOp.rank_le_iff.mp (hw.le hd) with h | ⟨-, himp⟩
        · omega
        · exact absurd (himp hddel) hdel
  · rintro ⟨hform, hties⟩
    obtain rfl : w = s := hw.unique ((isLastMax_rank_iff hs).mpr hties)
    unfold emitWholeColumnOp
    cases isComplex with
    | false => rfl
    | true => simp [hform rfl]

/-- The static row holds, for every static column, what the regular path writes, exactly when the
    operations on every static column are safe. -/
theorem static_row_matches_regular_iff :
    (∀ column, schema.isStaticColumn column = true →
      staticColumnWrites schema floor ms column = regularColumnWrites schema floor ms column) ↔
    ∀ column, schema.isStaticColumn column = true → StaticColumnSafe schema floor ms column := by
  refine forall_congr' fun column => forall_congr' fun hstatic => ?_
  rw [staticColumnWrites_eq schema floor ms hstatic]
  have hwinner : ∀ s, IsNewestOp (columnOps schema floor ms column) s →
      ∃ w, regularWinner schema floor ms column = some w := by
    intro s hs
    cases hw : regularWinner schema floor ms column with
    | some w => exact ⟨w, rfl⟩
    | none =>
      have hnil := (Lww.latest_eq_none _).mp hw
      rw [hnil] at hs
      exact absurd hs.mem (by simp)
  cases hl : Lww.latest (fun a b : String × MergedOp => a.2.staticWins b.2)
      (columnOps schema floor ms column) with
  | none =>
    -- no whole-column operation: the paths agree when there is no element either
    have hnil : columnOps schema floor ms column = [] := (Lww.latest_eq_none _).mp hl
    have hnone : regularWinner schema floor ms column = none := by
      rw [regularWinner, hnil]
      rfl
    have hno : ∀ w, ¬ IsNewestOp (columnOps schema floor ms column) w := fun w hw => by
      rw [hnil] at hw
      exact absurd hw.mem (by simp)
    constructor
    · intro heq
      refine ⟨fun t ht => ?_, fun _ w hw => absurd hw (hno w), fun w hw => absurd hw (hno w)⟩
      obtain ⟨e, he, -⟩ := (hasElementAt_iff schema floor ms hstatic).mp ht
      obtain ⟨es, hes⟩ := regularColumnWrites_elements schema floor ms he (by simp [hnone])
      rw [hes] at heq
      simp at heq
    · intro hsafe
      rw [regularColumnWrites_whole, hnone]
      · rfl
      · intro e he
        obtain ⟨w, hw, -⟩ := hsafe.elements e.timestampMicros
          ((hasElementAt_iff schema floor ms hstatic).mpr ⟨e, he, rfl⟩)
        rw [hnil] at hw
        simp at hw
  | some s =>
    have hs : IsNewestOp (columnOps schema floor ms column) s :=
      (Lww.latest_eq_some_last fun a b => MergedOp.staticWins_iff a.2 b.2).mp hl
    obtain ⟨w, hw⟩ := hwinner s hs
    have hlast := (regularWinner_isLastMax schema floor ms).mp hw
    have hts := newest_timestamp_eq hs hlast
    by_cases hnew : ∃ e ∈ columnElementOps schema floor ms column,
        w.2.timestampMicros < e.timestampMicros
    · -- the elements take the column over
      obtain ⟨e, he, hlt⟩ := hnew
      obtain ⟨es, hes⟩ := regularColumnWrites_elements schema floor ms he (by simpa [hw] using hlt)
      refine iff_of_false ?_ fun hsafe => ?_
      · rw [hes]
        unfold emitWholeColumnOp
        cases hnull : s.2.op.isNullWrite <;> simp [hnull]
      · obtain ⟨v, hv, hle⟩ := hsafe.elements e.timestampMicros
          ((hasElementAt_iff schema floor ms hstatic).mpr ⟨e, he, rfl⟩)
        have := hs.le hv
        omega
    · have hold : ∀ e ∈ columnElementOps schema floor ms column,
          ∃ v ∈ regularWinner schema floor ms column, e.timestampMicros ≤ v.2.timestampMicros :=
        fun e he => ⟨w, hw, not_lt.mp fun hlt => hnew ⟨e, he, hlt⟩⟩
      rw [regularColumnWrites_whole schema floor ms hold, hw]
      simp only [Option.toList_some, List.flatMap_cons, List.flatMap_nil, List.append_nil]
      rw [emit_eq_iff hs hlast]
      constructor
      · rintro ⟨hform, hties⟩
        refine ⟨fun t ht => ?_, fun hc v hv => ?_, fun v hv => ?_⟩
        · obtain ⟨e, he, rfl⟩ := (hasElementAt_iff schema floor ms hstatic).mp ht
          obtain ⟨v, hv, hle⟩ := hold e he
          obtain rfl : w = v := by simpa [hw] using hv
          exact ⟨w, hlast.mem, hle⟩
        · rw [hv.unique hs]
          exact hform hc
        · rw [hv.unique hs]
          exact hties
      · intro hsafe
        exact ⟨fun hc => hsafe.form hc s hs, hsafe.ties s hs⟩

end Regular

/-! ### A static collection and a tie -/

/-- `tags set<text> static, s int static`. -/
def staticSchema : WriteSchema := ⟨["id"], ["c"], [⟨"tags", true, true⟩, ⟨"s", true, false⟩]⟩

def staticMutation (ts : Int) (op : CellOperation) : Mutation :=
  .new ⟨[("id", .integer 1)]⟩ none [op] ts none

/-- `UPDATE … SET tags = tags + {'a'}`. -/
def addTag : Mutation :=
  staticMutation 100 (.writeComplexElement "tags" [97] none 100 none none false)

/-- `UPDATE … SET tags = {'a'}`. -/
def setTags : Mutation := staticMutation 100 (.write "tags" (.set [.text [97]]))

def ColumnWrite.isSimpleCell : ColumnWrite → Bool
  | .simpleCell _ => true
  | _ => false

def ColumnWrite.isDelete : ColumnWrite → Bool
  | .simpleCell mop => mop.op.isDelete
  | .complexColumn mop => mop.op.isDelete
  | .elements _ => false

/-- An added element is dropped, a whole collection is written as a single cell, and of a delete and
    a write at one timestamp the write fed later wins; the regular path does none of this. -/
theorem static_row_differs :
    ((staticColumnWrites staticSchema none [addTag] "tags").length = 0 ∧
      (regularColumnWrites staticSchema none [addTag] "tags").length = 1) ∧
    ((staticColumnWrites staticSchema none [setTags] "tags").map ColumnWrite.isSimpleCell = [true] ∧
      (regularColumnWrites staticSchema none [setTags] "tags").map ColumnWrite.isSimpleCell =
        [false]) ∧
    ((staticColumnWrites staticSchema none [staticMutation 100 (.delete "s" none),
        staticMutation 100 (.write "s" (.integer 7))] "s").map ColumnWrite.isDelete = [false] ∧
      (regularColumnWrites staticSchema none [staticMutation 100 (.delete "s" none),
        staticMutation 100 (.write "s" (.integer 7))] "s").map ColumnWrite.isDelete = [true]) := by
  decide +kernel

end Cqlite
