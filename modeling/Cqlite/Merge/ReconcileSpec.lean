import Cqlite.Merge.Reconcile

/-! What reconciliation computes, in terms of the whole group.

    Each step of the working set is a register (or a register per key) over the concatenated content
    of the entries, followed by filters that look at one cell at a time. `reconcileCluster_eq` says
    the emitted entry is read off these group functions; everything later is proved from it. -/

namespace Cqlite

/-! ### The content of a group -/

def groupCells (rows : List MergeEntry) : List CellData := rows.flatMap MergeEntry.cells

def groupRowDeletions (rows : List MergeEntry) : List Deletion :=
  rows.flatMap MergeEntry.rowDeletions

def groupComplex (rows : List MergeEntry) : List ComplexDeletion :=
  rows.flatMap MergeEntry.complexDeletions

def groupRanges (rows : List MergeEntry) : List RangeTombstone :=
  rows.flatMap (fun e => e.rangeDeletion.toList)

def groupLiveness (rows : List MergeEntry) : RowLiveness :=
  rows.foldl (fun l e => l.merge e.rowLiveness) .empty

def groupRunIndex (rows : List MergeEntry) : Nat :=
  rows.foldl (fun i e => min i e.runIndex) usizeMax

/-- The effective row deletion of the group, with its paired local deletion time. -/
def groupRowDel (rows : List MergeEntry) : Option Deletion :=
  Lww.latest deletionSupersedes (groupRowDeletions rows)

/-- The active complex deletion of every column. -/
def groupActiveComplex (rows : List MergeEntry) : List ComplexDeletion :=
  Lww.winners ComplexDeletion.column ReconcileState.complexSupersedes (groupComplex rows)

/-- The winning cell of every `(column, cell_path)`. -/
def groupWinners (rows : List MergeEntry) : List CellData :=
  Lww.winners CellData.cellKey cellWins (groupCells rows)

def groupRangeDeletion (rows : List MergeEntry) : Option RangeTombstone :=
  Lww.latest ReconcileState.rangeSupersedes (groupRanges rows)

/-- Winners above the complex deletion of their column and above the row deletion. -/
def groupUnshadowed (rows : List MergeEntry) : List CellData :=
  ((groupWinners rows).filter (survivesComplex (groupActiveComplex rows))).filter
    (survivesRowDel ((groupRowDel rows).map (·.1)))

/-- The cells left after dropped columns, expiry and purge. -/
def groupSurviving (s : MergeSettings) (rows : List MergeEntry) : List CellData :=
  (((groupUnshadowed rows).filter (survivesDrop s.dropped)).map (expireCell s.now)).filter
    fun c => !cellPurgeable s c

/-- The row deletion after the purge gate; a deletion time of `0` is unknown and kept. -/
def groupRetainedRowDel (s : MergeSettings) (rows : List MergeEntry) : Option Deletion :=
  (groupRowDel rows).filter fun d => !(d.2 != 0 && s.purges d.1 d.2)

def groupRetainedComplex (s : MergeSettings) (rows : List MergeEntry) : List ComplexDeletion :=
  (groupActiveComplex rows).filter fun cd => !s.purges cd.markedForDeleteAt cd.localDeletionTime

/-- The phantom-row guard: a surviving cell, and not a row that the purge emptied of data. -/
def groupHasRow (s : MergeSettings) (ck : Option ClusteringKey) (rows : List MergeEntry) : Bool :=
  !(groupSurviving s rows).isEmpty &&
    !((groupUnshadowed rows).any (isDataCell ck) && !(groupSurviving s rows).any (isDataCell ck))

/-- The frame of every emitted entry: run, key and carried metadata of the group. -/
def groupEntry (s : MergeSettings) (ck : Option ClusteringKey) (first : MergeEntry)
    (rows : List MergeEntry) (timestamp : Int) (rowData : RowData)
    (rowDeletion : Option Deletion) : MergeEntry where
  runIndex := groupRunIndex rows
  key := first.key
  clusteringKey := ck
  timestamp := timestamp
  rowData := rowData
  complexDeletions := groupRetainedComplex s rows
  rangeDeletion := groupRangeDeletion rows
  rowDeletion := rowDeletion
  partitionDeletion := none
  rowLiveness := groupLiveness rows

/-- The entry a non-empty group reconciles to. -/
def groupOutput (s : MergeSettings) (ck : Option ClusteringKey) (first : MergeEntry)
    (rows : List MergeEntry) : Option MergeEntry :=
  if groupHasRow s ck rows then
    some (groupEntry s ck first rows (maxTimestamp (groupSurviving s rows) 0)
      (.live (groupSurviving s rows)) (groupRetainedRowDel s rows))
  else
    match groupRetainedRowDel s rows with
    | some d => some (groupEntry s ck first rows d.1 (.tombstone d.1 d.2) none)
    | none =>
      if !(groupRetainedComplex s rows).isEmpty || (groupRangeDeletion rows).isSome then
        some (groupEntry s ck first rows 0 (.live []) none)
      else none

variable {ck : Option ClusteringKey} {s : MergeSettings} {st : ReconcileState} {d : Deletion}
  {c : CellData}

variable {rows : List MergeEntry}

theorem groupOutput_frame {first e : MergeEntry} (h : groupOutput s ck first rows = some e) :
    ∃ ts data del, e = groupEntry s ck first rows ts data del := by
  unfold groupOutput at h
  split at h
  · cases h
    exact ⟨_, _, _, rfl⟩
  · split at h
    · cases h
      exact ⟨_, _, _, rfl⟩
    · split at h
      · cases h
        exact ⟨_, _, _, rfl⟩
      · cases h

/-! ### Step 1 -/

namespace ReconcileState

/-- The row-deletion fields hold the register `o`. -/
def HoldsRowDel (st : ReconcileState) (o : Option Deletion) : Prop :=
  st.rowDel = o.map (·.1) ∧ st.rowDelLdt = (o.map (·.2)).getD 0

variable {o : Option Deletion}

theorem holdsRowDel_foldRowDeletion (h : st.HoldsRowDel o) (d : Deletion) :
    (st.foldRowDeletion d).HoldsRowDel (Lww.join deletionSupersedes o d) := by
  obtain ⟨h₁, h₂⟩ := h
  unfold foldRowDeletion
  cases o with
  | none => simp_all [HoldsRowDel, Lww.join]
  | some cur =>
    by_cases hlt : cur.1 < d.1
    · simp_all [HoldsRowDel, Lww.join, deletionSupersedes]
    · have hle := not_lt.mp hlt
      simp_all [HoldsRowDel, Lww.join, deletionSupersedes, not_lt.mpr hle]

theorem foldRowDeletion_frame (st : ReconcileState) (d : Deletion) :
    st.foldRowDeletion d = { st with
      rowDel := (st.foldRowDeletion d).rowDel
      rowDelLdt := (st.foldRowDeletion d).rowDelLdt } := by
  unfold foldRowDeletion
  split <;> rfl

/-- One entry of Step 1: the row deletion register, and every other field on its own. -/
theorem foldEntry_eq (st : ReconcileState) (entry : MergeEntry) :
    st.foldEntry entry = { st.foldCarried entry with
      rowDel := (st.foldEntry entry).rowDel
      rowDelLdt := (st.foldEntry entry).rowDelLdt } := by
  unfold foldEntry
  cases entry.rowDeletion with
  | none =>
    cases entry.rowTombstone with
    | none => rfl
    | some d => exact foldRowDeletion_frame _ d
  | some d =>
    cases entry.rowTombstone with
    | none => exact foldRowDeletion_frame _ d
    | some d' =>
      simp only [Option.elim]
      rw [foldRowDeletion_frame (foldRowDeletion _ d), foldRowDeletion_frame (foldCarried _ _)]

theorem holdsRowDel_foldEntry (h : st.HoldsRowDel o) (entry : MergeEntry) :
    (st.foldEntry entry).HoldsRowDel (entry.rowDeletions.foldl (Lww.join deletionSupersedes) o) := by
  have h' : (st.foldCarried entry).HoldsRowDel o := h
  unfold foldEntry MergeEntry.rowDeletions
  cases entry.rowDeletion with
  | none =>
    cases entry.rowTombstone with
    | none => exact h'
    | some d => exact holdsRowDel_foldRowDeletion h' d
  | some d =>
    cases entry.rowTombstone with
    | none => exact holdsRowDel_foldRowDeletion h' d
    | some d' => exact holdsRowDel_foldRowDeletion (holdsRowDel_foldRowDeletion h' d) d'

theorem holdsRowDel_foldRowDeletions (h : st.HoldsRowDel o) (rows : List MergeEntry) :
    (st.foldRowDeletions rows).HoldsRowDel
      ((groupRowDeletions rows).foldl (Lww.join deletionSupersedes) o) := by
  induction rows generalizing st o with
  | nil => exact h
  | cons e rows ih =>
    simp only [groupRowDeletions, List.flatMap_cons, List.foldl_append]
    exact ih (holdsRowDel_foldEntry h e)

theorem foldRowDeletions_eq (st : ReconcileState) (rows : List MergeEntry) :
    st.foldRowDeletions rows = { st with
      key := st.key.or (rows.head?.map (·.key))
      runIndex := rows.foldl (fun i e => min i e.runIndex) st.runIndex
      rowLiveness := rows.foldl (fun l e => l.merge e.rowLiveness) st.rowLiveness
      complexDeletions := (groupComplex rows).foldl pushComplex st.complexDeletions
      rangeDeletion := (groupRanges rows).foldl (Lww.join rangeSupersedes) st.rangeDeletion
      rowDel := (st.foldRowDeletions rows).rowDel
      rowDelLdt := (st.foldRowDeletions rows).rowDelLdt } := by
  induction rows generalizing st with
  | nil => cases st with | mk ck key => cases key <;> rfl
  | cons e rows ih =>
    have hstep : st.foldRowDeletions (e :: rows) = (st.foldEntry e).foldRowDeletions rows := rfl
    rw [hstep, ih (st.foldEntry e), foldEntry_eq st e]
    cases hk : st.key <;>
      simp [foldCarried, groupComplex, groupRanges, List.flatMap_cons, List.foldl_append, hk]

/-! ### Steps 2 and 2b -/

theorem complexSupersedes_iff (a b : ComplexDeletion) :
    complexSupersedes a b = true ↔ b.markedForDeleteAt < a.markedForDeleteAt := by
  simp [complexSupersedes, complexDeletionSupersedes]

theorem winners_foldl_pushComplex (cds acc : List ComplexDeletion) :
    Lww.winners ComplexDeletion.column complexSupersedes (cds.foldl pushComplex acc) =
      Lww.winners ComplexDeletion.column complexSupersedes (acc ++ cds) := by
  induction cds generalizing acc with
  | nil => simp
  | cons cd cds ih =>
    rw [List.foldl_cons, ih, List.append_cons acc cd cds]
    unfold pushComplex
    split
    · rename_i hmem
      have hdup : Lww.winners ComplexDeletion.column complexSupersedes (acc ++ [cd]) =
          Lww.winners ComplexDeletion.column complexSupersedes acc :=
        Lww.winners_concat_of_mem complexSupersedes_iff hmem
      simp only [Lww.winners] at hdup ⊢
      rw [List.foldl_append, ← hdup, ← List.foldl_append]
    · rfl

theorem foldl_upsert_cells (rows : List MergeEntry) (ws : List CellData) :
    rows.foldl (fun ws entry => entry.cells.foldl (Lww.upsert CellData.cellKey cellWins) ws) ws =
      (groupCells rows).foldl (Lww.upsert CellData.cellKey cellWins) ws := by
  rw [groupCells, List.foldl_flatMap]

/-- Dropping the covered elements marker by marker is one filter over all markers. -/
theorem foldl_filter_survivesComplex (cds : List ComplexDeletion) (ws : List CellData) :
    cds.foldl (fun ws cd => ws.filter (survivesComplex [cd])) ws = ws.filter (survivesComplex cds) := by
  induction cds generalizing ws with
  | nil => exact (List.filter_eq_self.mpr fun c _ => rfl).symm
  | cons cd cds ih =>
    rw [List.foldl_cons, ih, List.filter_filter]
    refine List.filter_congr fun c _ => ?_
    simp [survivesComplex, Bool.and_comm]

end ReconcileState

open ReconcileState

theorem foldRowDeletions_new (ck : Option ClusteringKey) (rows : List MergeEntry) :
    (ReconcileState.new ck).foldRowDeletions rows =
      { ReconcileState.new ck with
        key := rows.head?.map (·.key)
        runIndex := groupRunIndex rows
        rowLiveness := groupLiveness rows
        complexDeletions := (groupComplex rows).foldl pushComplex []
        rangeDeletion := groupRangeDeletion rows
        rowDel := (groupRowDel rows).map (·.1)
        rowDelLdt := ((groupRowDel rows).map (·.2)).getD 0 } := by
  have hdel : ((ReconcileState.new ck).foldRowDeletions rows).HoldsRowDel (groupRowDel rows) :=
    holdsRowDel_foldRowDeletions ⟨rfl, rfl⟩ rows
  rw [foldRowDeletions_eq, hdel.1, hdel.2]
  rfl

/-- The row deletion that Step 3c leaves, with the local deletion time paired to it. -/
theorem retainedRowDel_eq (s : MergeSettings) (rows : List MergeEntry) :
    ((groupRowDel rows).map (·.1)).filter
        (fun d => !(((groupRowDel rows).map (·.2)).getD 0 != 0 &&
          s.purges d (((groupRowDel rows).map (·.2)).getD 0))) =
      (groupRetainedRowDel s rows).map (·.1) := by
  unfold groupRetainedRowDel
  cases groupRowDel rows with
  | none => rfl
  | some d => simp only [Option.map_some, Option.getD_some, Option.filter_some]; split <;> rfl

/-- Whenever a row deletion is retained, its paired time is the one the working set carries. -/
theorem rowDelLdt_of_retained (h : groupRetainedRowDel s rows = some d) :
    ((groupRowDel rows).map (·.2)).getD 0 = d.2 := by
  obtain ⟨hd, -⟩ := Option.filter_eq_some_iff.mp h
  rw [hd]; rfl

variable {first : MergeEntry}

/-- The last step, read off the group. -/
theorem build_eq_groupOutput (hck : st.clusteringKey = ck) (hkey : st.key = some first.key)
    (hrun : st.runIndex = groupRunIndex rows)
    (hdel : st.rowDel = (groupRetainedRowDel s rows).map (·.1))
    (hldt : st.rowDelLdt = ((groupRowDel rows).map (·.2)).getD 0)
    (hcx : st.complexDeletions = groupRetainedComplex s rows)
    (hrd : st.rangeDeletion = groupRangeDeletion rows)
    (hsurv : st.surviving = groupSurviving s rows)
    (hhad : st.hadDataBefore = (groupUnshadowed rows).any (isDataCell ck))
    (hlive : st.rowLiveness = groupLiveness rows) : st.build = groupOutput s ck first rows := by
  -- attaching the carried metadata fills exactly the frame of `groupEntry`
  have hattach : ∀ (ts : Int) (data : RowData) (rd : Option Deletion),
      st.attachMetadata { MergeEntry.new st.runIndex first.key ck ts data with rowDeletion := rd } =
        groupEntry s ck first rows ts data rd := by
    intro ts data rd
    unfold attachMetadata
    rw [hrun, hlive, hcx, hrd]
    cases hc : groupRetainedComplex s rows <;> cases hr : groupRangeDeletion rows <;>
      simp [groupEntry, MergeEntry.new, MergeEntry.withComplexDeletions,
        MergeEntry.withRangeDeletion, MergeEntry.withRowLiveness, hc, hr]
  unfold build buildRow groupOutput groupHasRow
  rw [hkey, hck, hsurv, hhad, hdel]
  simp only [Option.bind_some]
  split
  · cases hr : groupRetainedRowDel s rows with
    | none => exact congrArg some (hattach _ _ none)
    | some d =>
      have hpair : st.rowDelLdt = d.2 := hldt.trans (rowDelLdt_of_retained hr)
      simp only [Option.map_some, Option.elim, hpair]
      exact congrArg some (hattach _ _ (some d))
  · cases hr : groupRetainedRowDel s rows with
    | none =>
      simp only [Option.map_none]
      rw [← hcx, ← hrd]
      split
      · exact congrArg some (hattach _ _ none)
      · rfl
    | some d =>
      have hpair : st.rowDelLdt = d.2 := hldt.trans (rowDelLdt_of_retained hr)
      simp only [Option.map_some, hpair]
      exact congrArg some (hattach _ _ none)

theorem reconcileCluster_eq (s : MergeSettings) (ck : Option ClusteringKey) (rows : List MergeEntry) :
    reconcileCluster s ck rows = rows.head?.bind fun first => groupOutput s ck first rows := by
  simp only [reconcileCluster, foldRowDeletions_new]
  cases hrows : rows.head? with
  | none => simp [ReconcileState.new, resolveCellWinners]
  | some first =>
    simp only [ReconcileState.new, resolveCellWinners, applyComplexDeletions, shadowByRowDeletion,
      filterDroppedColumns, expireTtlCells, purgeGcGrace, Option.map_some, Option.isSome_some,
      if_true, foldl_upsert_cells, foldl_filter_survivesComplex, winners_foldl_pushComplex,
      List.nil_append, Option.bind_some, retainedRowDel_eq]
    exact build_eq_groupOutput rfl rfl rfl rfl rfl rfl rfl rfl rfl rfl

/-! ### Membership, stated on the inputs -/

theorem deletionSupersedes_iff (a b : Deletion) : deletionSupersedes a b = true ↔ b.1 < a.1 := by
  simp [deletionSupersedes]

theorem rangeSupersedes_iff (a b : RangeTombstone) :
    rangeSupersedes a b = true ↔ b.deletionTime < a.deletionTime := by
  simp [rangeSupersedes]

@[simp] theorem expireCell_timestamp (now : Option Int) (c : CellData) :
    (expireCell now c).timestamp = c.timestamp := by
  unfold expireCell; split <;> rfl

@[simp] theorem expireCell_column (now : Option Int) (c : CellData) :
    (expireCell now c).column = c.column := by
  unfold expireCell; split <;> rfl

@[simp] theorem expireCell_cellPath (now : Option Int) (c : CellData) :
    (expireCell now c).cellPath = c.cellPath := by
  unfold expireCell; split <;> rfl

@[simp] theorem expireCell_isComplexElement (now : Option Int) (c : CellData) :
    (expireCell now c).isComplexElement = c.isComplexElement := by
  unfold expireCell; split <;> rfl

@[simp] theorem isDataCell_expireCell (now : Option Int) (ck : Option ClusteringKey) (c : CellData) :
    isDataCell ck (expireCell now c) = isDataCell ck c := by
  simp [isDataCell]

/-- The complex deletion `cd` covers the element `c`. -/
def ComplexCovers (cd : ComplexDeletion) (c : CellData) : Prop :=
  cd.column = c.column ∧ c.cellPath.isSome ∧ c.timestamp ≤ cd.markedForDeleteAt

/-- A cell of the group that wins its `(column, cell_path)` and that no complex or row deletion of
    the group covers. -/
structure CellUnshadowed (rows : List MergeEntry) (c : CellData) : Prop where
  wins : Lww.IsWinner CellData.cellKey cellRank (groupCells rows) c
  complex : ∀ cd ∈ groupComplex rows, ¬ ComplexCovers cd c
  row : ∀ d ∈ groupRowDeletions rows, d.1 < c.timestamp

theorem mem_groupWinners :
    c ∈ groupWinners rows ↔ Lww.IsWinner CellData.cellKey cellRank (groupCells rows) c :=
  Lww.mem_winners cellWins_iff

theorem mem_groupActiveComplex {cd : ComplexDeletion} :
    cd ∈ groupActiveComplex rows ↔
      Lww.IsWinner ComplexDeletion.column ComplexDeletion.markedForDeleteAt (groupComplex rows) cd :=
  Lww.mem_winners complexSupersedes_iff

/-- The active deletions of the columns cover what any deletion of the group covers. -/
theorem survivesComplex_iff :
    survivesComplex (groupActiveComplex rows) c = true ↔
      ∀ cd ∈ groupComplex rows, ¬ ComplexCovers cd c := by
  have hone : ∀ cd : ComplexDeletion, (cd.column ≠ c.column || c.cellPath.isNone ||
      elementSurvivesComplexDeletion c.timestamp cd.markedForDeleteAt) = true ↔
        ¬ ComplexCovers cd c := by
    intro cd
    simp only [elementSurvivesComplexDeletion, ComplexCovers, Bool.or_eq_true, decide_eq_true_eq]
    cases c.cellPath
    · simp
    · simp; tauto
  simp only [survivesComplex, List.all_eq_true, hone]
  constructor
  · intro h cd hcd hcov
    obtain ⟨w, hw, hcol, hle⟩ : ∃ w, Lww.IsWinner ComplexDeletion.column
        ComplexDeletion.markedForDeleteAt (groupComplex rows) w ∧ w.column = cd.column ∧
        cd.markedForDeleteAt ≤ w.markedForDeleteAt := Lww.exists_winner complexSupersedes_iff hcd
    exact h w (mem_groupActiveComplex.mpr hw) ⟨hcol.trans hcov.1, hcov.2.1, hcov.2.2.trans hle⟩
  · exact fun h cd hcd => h cd (mem_groupActiveComplex.mp hcd).mem

/-- The effective row deletion bounds what every row deletion of the group bounds. -/
theorem survivesRowDel_iff :
    survivesRowDel ((groupRowDel rows).map (·.1)) c = true ↔
      ∀ d ∈ groupRowDeletions rows, d.1 < c.timestamp := by
  unfold survivesRowDel
  cases hd : groupRowDel rows with
  | none =>
    have : groupRowDeletions rows = [] := (Lww.latest_eq_none _).mp hd
    simp [this]
  | some d =>
    simp only [Option.map_some, Option.all_some, decide_eq_true_eq]
    constructor
    · exact fun h d' hd' => lt_of_le_of_lt (Lww.le_latest deletionSupersedes_iff hd hd') h
    · exact fun h => h d (Lww.latest_mem deletionSupersedes_iff hd)

theorem mem_groupUnshadowed :
    c ∈ groupUnshadowed rows ↔ CellUnshadowed rows c := by
  simp only [groupUnshadowed, List.mem_filter, mem_groupWinners, survivesComplex_iff,
    survivesRowDel_iff]
  constructor
  · rintro ⟨⟨h₁, h₂⟩, h₃⟩
    exact ⟨h₁, h₂, h₃⟩
  · rintro ⟨h₁, h₂, h₃⟩
    exact ⟨⟨h₁, h₂⟩, h₃⟩

/-- A cell the group still emits: unshadowed, not of a dropped column, and not a tombstone (an
    expired cell counts as one) that the purge gate lets go. -/
structure CellKept (s : MergeSettings) (rows : List MergeEntry) (c : CellData) : Prop where
  unshadowed : CellUnshadowed rows c
  notDropped : survivesDrop s.dropped c = true
  notPurged : cellPurgeable s (expireCell s.now c) = false

theorem mem_groupSurviving {c' : CellData} :
    c' ∈ groupSurviving s rows ↔ ∃ c, CellKept s rows c ∧ expireCell s.now c = c' := by
  simp only [groupSurviving, List.mem_filter, List.mem_map, mem_groupUnshadowed,
    Bool.not_eq_true']
  constructor
  · rintro ⟨⟨c, ⟨hun, hdrop⟩, rfl⟩, hpurge⟩
    exact ⟨c, ⟨hun, hdrop, hpurge⟩, rfl⟩
  · rintro ⟨c, ⟨hun, hdrop, hpurge⟩, rfl⟩
    exact ⟨⟨c, ⟨hun, hdrop⟩, rfl⟩, hpurge⟩

/-- The row is emitted with cells: a data cell is kept, or some cell is kept and the row had no
    unshadowed data cell to lose. -/
def RowBacked (s : MergeSettings) (ck : Option ClusteringKey) (rows : List MergeEntry) : Prop :=
  ∃ c, CellKept s rows c ∧
    (isDataCell ck c = true ∨ ∀ c', CellUnshadowed rows c' → isDataCell ck c' = false)

/-- What makes a group a row. -/
theorem groupHasRow_iff :
    groupHasRow s ck rows = true ↔ RowBacked s ck rows := by
  have hafter : (groupSurviving s rows).any (isDataCell ck) = true ↔
      ∃ c, CellKept s rows c ∧ isDataCell ck c = true := by
    simp only [List.any_eq_true, mem_groupSurviving]
    constructor
    · rintro ⟨_, ⟨c, hc, rfl⟩, hd⟩
      exact ⟨c, hc, by simpa using hd⟩
    · rintro ⟨c, hc, hd⟩
      exact ⟨_, ⟨c, hc, rfl⟩, by simpa using hd⟩
  have hbefore : (groupUnshadowed rows).any (isDataCell ck) = false ↔
      ∀ c', CellUnshadowed rows c' → isDataCell ck c' = false := by
    simp only [List.any_eq_false, mem_groupUnshadowed, Bool.not_eq_true]
  have hne : (groupSurviving s rows).isEmpty = false ↔ ∃ c, CellKept s rows c := by
    constructor
    · intro h
      obtain ⟨c', hc'⟩ := List.exists_mem_of_ne_nil (groupSurviving s rows) (by simpa using h)
      obtain ⟨c, hc, -⟩ := mem_groupSurviving.mp hc'
      exact ⟨c, hc⟩
    · rintro ⟨c, hc⟩
      simpa using List.ne_nil_of_mem (mem_groupSurviving.mpr ⟨c, hc, rfl⟩)
  simp only [groupHasRow, Bool.and_eq_true, Bool.not_eq_true', Bool.and_eq_false_iff,
    Bool.not_eq_false', hne, hbefore, hafter, RowBacked]
  constructor
  · rintro ⟨⟨c, hc⟩, hno | ⟨c', hc', hd⟩⟩
    · exact ⟨c, hc, .inr hno⟩
    · exact ⟨c', hc', .inl hd⟩
  · rintro ⟨c, hc, hd | hno⟩
    · exact ⟨⟨c, hc⟩, .inr ⟨c, hc, hd⟩⟩
    · exact ⟨⟨c, hc⟩, .inl hno⟩

/-- The effective row deletion, unless its (known) deletion time passes the purge gate. -/
def RowDelKept (s : MergeSettings) (rows : List MergeEntry) (d : Deletion) : Prop :=
  Lww.IsFirstMax (·.1) (groupRowDeletions rows) d ∧ ¬ (d.2 ≠ 0 ∧ s.purges d.1 d.2 = true)

theorem groupRetainedRowDel_eq_some :
    groupRetainedRowDel s rows = some d ↔ RowDelKept s rows d := by
  unfold groupRetainedRowDel RowDelKept groupRowDel
  rw [Option.filter_eq_some_iff, Lww.latest_eq_some deletionSupersedes_iff]
  refine and_congr_right fun _ => ?_
  simp only [Bool.not_eq_true', Bool.and_eq_false_iff, bne_eq_false_iff_eq, ne_eq, not_and,
    Bool.not_eq_true, or_iff_not_imp_left]

/-- The active complex deletion of its column, unless it passes the purge gate. -/
def ComplexKept (s : MergeSettings) (rows : List MergeEntry) (cd : ComplexDeletion) : Prop :=
  Lww.IsWinner ComplexDeletion.column ComplexDeletion.markedForDeleteAt (groupComplex rows) cd ∧
    s.purges cd.markedForDeleteAt cd.localDeletionTime = false

theorem mem_groupRetainedComplex {cd : ComplexDeletion} :
    cd ∈ groupRetainedComplex s rows ↔ ComplexKept s rows cd := by
  simp only [groupRetainedComplex, List.mem_filter, mem_groupActiveComplex, ComplexKept,
    Bool.not_eq_true']

/-! ### The four outcomes -/

/-- Complex or range metadata is left to carry. -/
def HasMetadata (s : MergeSettings) (rows : List MergeEntry) : Prop :=
  (∃ cd, ComplexKept s rows cd) ∨ groupRanges rows ≠ []

/-- Cells back the row: a live entry with the retained row deletion riding on it. -/
theorem groupOutput_row (hrow : RowBacked s ck rows) :
    groupOutput s ck first rows =
      some (groupEntry s ck first rows (maxTimestamp (groupSurviving s rows) 0)
        (.live (groupSurviving s rows)) (groupRetainedRowDel s rows)) := by
  rw [groupOutput, if_pos (groupHasRow_iff.mpr hrow)]

theorem groupOutput_rowDel (hrow : ¬ RowBacked s ck rows) (hd : RowDelKept s rows d) :
    groupOutput s ck first rows =
      some (groupEntry s ck first rows d.1 (.tombstone d.1 d.2) none) := by
  rw [groupOutput, if_neg (mt groupHasRow_iff.mp hrow), groupRetainedRowDel_eq_some.mpr hd]

theorem groupRetainedRowDel_eq_none :
    groupRetainedRowDel s rows = none ↔ ¬ ∃ d, RowDelKept s rows d := by
  rw [Option.eq_none_iff_forall_ne_some]
  simp only [ne_eq, groupRetainedRowDel_eq_some, not_exists]

theorem hasMetadata_iff :
    (!(groupRetainedComplex s rows).isEmpty || (groupRangeDeletion rows).isSome) = true ↔
      HasMetadata s rows := by
  rw [Bool.or_eq_true, Bool.not_eq_true', List.isEmpty_eq_false_iff, Option.isSome_iff_ne_none, Ne,
    Ne, groupRangeDeletion, Lww.latest_eq_none]
  refine or_congr ⟨fun h => ?_, ?_⟩ Iff.rfl
  · obtain ⟨cd, hcd⟩ := List.exists_mem_of_ne_nil _ h
    exact ⟨cd, mem_groupRetainedComplex.mp hcd⟩
  · rintro ⟨cd, hcd⟩
    exact List.ne_nil_of_mem (mem_groupRetainedComplex.mpr hcd)

/-- Neither, but metadata to carry: an empty live entry at timestamp `0`. -/
theorem groupOutput_metadata (hrow : ¬ RowBacked s ck rows) (hd : ¬ ∃ d, RowDelKept s rows d)
    (hmeta : HasMetadata s rows) :
    groupOutput s ck first rows = some (groupEntry s ck first rows 0 (.live []) none) := by
  rw [groupOutput, if_neg (mt groupHasRow_iff.mp hrow), groupRetainedRowDel_eq_none.mpr hd]
  exact if_pos (hasMetadata_iff.mpr hmeta)

theorem groupOutput_nothing (hrow : ¬ RowBacked s ck rows) (hd : ¬ ∃ d, RowDelKept s rows d)
    (hmeta : ¬ HasMetadata s rows) :
    groupOutput s ck first rows = none := by
  rw [groupOutput, if_neg (mt groupHasRow_iff.mp hrow), groupRetainedRowDel_eq_none.mpr hd]
  exact if_neg (mt hasMetadata_iff.mp hmeta)

/-! ### The row timestamp -/

theorem le_maxTimestamp {cells : List CellData} (hc : c ∈ cells) (d : Int) :
    c.timestamp ≤ maxTimestamp cells d := by
  unfold maxTimestamp
  cases hm : (cells.map (·.timestamp)).max? with
  | none =>
    rw [List.max?_eq_none_iff, List.map_eq_nil_iff] at hm
    simp [hm] at hc
  | some m =>
    exact (List.max?_eq_some_iff.mp hm).2 _ (List.mem_map_of_mem hc)

theorem exists_maxTimestamp {cells : List CellData} (hne : cells ≠ []) (d : Int) :
    ∃ c ∈ cells, c.timestamp = maxTimestamp cells d := by
  unfold maxTimestamp
  cases hm : (cells.map (·.timestamp)).max? with
  | none =>
    rw [List.max?_eq_none_iff, List.map_eq_nil_iff] at hm
    exact absurd hm hne
  | some m => simpa using (List.max?_eq_some_iff.mp hm).1

end Cqlite
