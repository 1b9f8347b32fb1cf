import Cqlite.Merge.Liveness

/-! Reconciling a group in two passes.

    With purging, expiry and dropped columns out of the picture, reconciliation is a join: the entry
    built from a block carries everything the block contributes to a later pass. The one exception
    is a block that holds nothing but row markers, for which no entry is built. -/

namespace Cqlite

open ReconcileState

/-- No purge, no expiry, no dropped column. -/
def plainSettings : MergeSettings := ⟨none, i64Min, none, fun _ => none⟩

/-! ### The plain pass -/

theorem plain_groupSurviving (rows : List MergeEntry) :
    groupSurviving plainSettings rows = groupUnshadowed rows := by
  have hexp : expireCell plainSettings.now = id := by
    funext c
    simp [expireCell, cellExpired, plainSettings]
  have hdrop : ∀ c : CellData, survivesDrop plainSettings.dropped c = true := fun _ => rfl
  simp [groupSurviving, hexp, hdrop, cellPurgeable_eq_false (s := plainSettings) rfl]

theorem plain_groupRetainedRowDel (rows : List MergeEntry) :
    groupRetainedRowDel plainSettings rows = groupRowDel rows := by
  unfold groupRetainedRowDel
  cases groupRowDel rows <;> simp [MergeSettings.purges_eq_false (s := plainSettings) rfl]

theorem plain_groupRetainedComplex (rows : List MergeEntry) :
    groupRetainedComplex plainSettings rows = groupActiveComplex rows := by
  simp [groupRetainedComplex, MergeSettings.purges_eq_false (s := plainSettings) rfl]

theorem plain_groupHasRow (ck : Option ClusteringKey) (rows : List MergeEntry) :
    groupHasRow plainSettings ck rows = !(groupUnshadowed rows).isEmpty := by
  unfold groupHasRow
  rw [plain_groupSurviving]
  cases (groupUnshadowed rows).any (isDataCell ck) <;> simp

/-- The timestamp of the entry a plain pass builds. -/
def plainTimestamp (rows : List MergeEntry) : Int :=
  if (groupUnshadowed rows).isEmpty then ((groupRowDel rows).map (·.1)).getD 0
  else maxTimestamp (groupUnshadowed rows) 0

/-- Something a plain pass emits an entry for. -/
def PlainEmits (rows : List MergeEntry) : Prop :=
  groupUnshadowed rows ≠ [] ∨ groupRowDel rows ≠ none ∨ groupActiveComplex rows ≠ [] ∨
    groupRangeDeletion rows ≠ none

/-- The entry `e` carries exactly what the group contributes. -/
structure Summarizes (rows : List MergeEntry) (e : MergeEntry) : Prop where
  timestamp : e.timestamp = plainTimestamp rows
  cells : e.cells = groupUnshadowed rows
  rowDeletions : e.rowDeletions = (groupRowDel rows).toList
  complex : e.complexDeletions = groupActiveComplex rows
  range : e.rangeDeletion = groupRangeDeletion rows
  liveness : e.rowLiveness = groupLiveness rows

theorem plain_groupOutput {ck : Option ClusteringKey} {first : MergeEntry} {rows : List MergeEntry} :
    match groupOutput plainSettings ck first rows with
    | some e => PlainEmits rows ∧ Summarizes rows e
    | none => ¬ PlainEmits rows := by
  unfold groupOutput
  rw [plain_groupHasRow, plain_groupSurviving, plain_groupRetainedRowDel, plain_groupRetainedComplex]
  by_cases hcells : groupUnshadowed rows = []
  · cases hdel : groupRowDel rows with
    | some d =>
      simp only [hcells, List.isEmpty_nil, Bool.not_true, Bool.false_eq_true, if_false]
      exact ⟨.inr (.inl (by simp [hdel])), by simp [groupEntry, plainTimestamp, hcells, hdel],
        by simp [groupEntry, MergeEntry.cells, hcells],
        by simp [groupEntry, MergeEntry.rowDeletions, MergeEntry.rowTombstone, hdel],
        plain_groupRetainedComplex rows, rfl, rfl⟩
    | none =>
      by_cases hmeta : groupActiveComplex rows ≠ [] ∨ groupRangeDeletion rows ≠ none
      · have hcond : (!(groupActiveComplex rows).isEmpty || (groupRangeDeletion rows).isSome)
            = true := by
          rcases hmeta with h | h
          · simp [h]
          · simp [Option.isSome_iff_ne_none.mpr h]
        simp only [hcells, List.isEmpty_nil, Bool.not_true, Bool.false_eq_true, if_false, hcond,
          if_true]
        exact ⟨.inr (.inr hmeta), by simp [groupEntry, plainTimestamp, hcells, hdel],
          by simp [groupEntry, MergeEntry.cells, hcells],
          by simp [groupEntry, MergeEntry.rowDeletions, MergeEntry.rowTombstone, hdel],
          plain_groupRetainedComplex rows, rfl, rfl⟩
      · obtain ⟨hc, hr⟩ := not_or.mp hmeta
        simp only [not_not] at hc hr
        simp [hcells, hc, hr, PlainEmits, hdel]
  · have hne : (groupUnshadowed rows).isEmpty = false := by simpa using hcells
    simp only [hne, Bool.not_false, if_true]
    refine ⟨.inl hcells, by simp [groupEntry, plainTimestamp, hne], rfl, ?_,
      plain_groupRetainedComplex rows, rfl, rfl⟩
    simp [groupEntry, MergeEntry.rowDeletions, MergeEntry.rowTombstone]

theorem not_plainEmits_nil : ¬ PlainEmits [] := by
  simp [PlainEmits, groupUnshadowed, groupWinners, groupCells, groupRowDel, groupRowDeletions,
    groupActiveComplex, groupComplex, groupRangeDeletion, groupRanges]

theorem reconcile_plain (ck : Option ClusteringKey) (rows : List MergeEntry) :
    match reconcileCluster plainSettings ck rows with
    | some e => PlainEmits rows ∧ Summarizes rows e
    | none => ¬ PlainEmits rows := by
  rw [reconcileCluster_eq]
  cases rows with
  | nil => exact not_plainEmits_nil
  | cons first rest => exact plain_groupOutput

/-! ### Comparing results -/

/-- The same merged row: winning cells, row deletion with its paired time, complex deletions, range
    deletion, timestamp and marker. -/
structure SameMerged (e e' : MergeEntry) : Prop where
  timestamp : e.timestamp = e'.timestamp
  cells : ∀ c, c ∈ e.cells ↔ c ∈ e'.cells
  rowDeletions : e.rowDeletions = e'.rowDeletions
  complex : ∀ cd, cd ∈ e.complexDeletions ↔ cd ∈ e'.complexDeletions
  range : e.rangeDeletion = e'.rangeDeletion
  liveness : e.rowLiveness = e'.rowLiveness

/-- Both passes emit nothing, or both emit the same merged row. -/
def SameResult : Option MergeEntry → Option MergeEntry → Prop
  | some e, some e' => SameMerged e e'
  | none, none => True
  | _, _ => False

/-- Two groups with the same content, their markers aside. -/
structure SameContent (rows rows' : List MergeEntry) : Prop where
  cells : ∀ c, CellUnshadowed rows c ↔ CellUnshadowed rows' c
  rowDel : groupRowDel rows = groupRowDel rows'
  complex : ∀ cd, cd ∈ groupActiveComplex rows ↔ cd ∈ groupActiveComplex rows'
  range : groupRangeDeletion rows = groupRangeDeletion rows'

theorem eq_nil_congr {α : Type*} {l l' : List α} (h : ∀ a, a ∈ l ↔ a ∈ l') : l = [] ↔ l' = [] := by
  simp only [List.eq_nil_iff_forall_not_mem, h]

theorem maxTimestamp_congr {cells cells' : List CellData} (h : ∀ c, c ∈ cells ↔ c ∈ cells')
    (d : Int) : maxTimestamp cells d = maxTimestamp cells' d := by
  by_cases hnil : cells = []
  · rw [hnil, (eq_nil_congr h).mp hnil]
  · have hnil' : cells' ≠ [] := mt (eq_nil_congr h).mpr hnil
    obtain ⟨c, hc, hmax⟩ := exists_maxTimestamp hnil d
    obtain ⟨c', hc', hmax'⟩ := exists_maxTimestamp hnil' d
    refine le_antisymm ?_ ?_
    · rw [← hmax]; exact le_maxTimestamp ((h c).mp hc) d
    · rw [← hmax']; exact le_maxTimestamp ((h c').mpr hc') d

theorem SameContent.unshadowed {rows rows' : List MergeEntry} (h : SameContent rows rows')
    (c : CellData) : c ∈ groupUnshadowed rows ↔ c ∈ groupUnshadowed rows' := by
  rw [mem_groupUnshadowed, mem_groupUnshadowed, h.cells]

theorem SameContent.plainEmits {rows rows' : List MergeEntry} (h : SameContent rows rows') :
    PlainEmits rows ↔ PlainEmits rows' := by
  unfold PlainEmits
  rw [h.rowDel, h.range, ne_eq, ne_eq, ne_eq, ne_eq, eq_nil_congr h.unshadowed,
    eq_nil_congr h.complex]

/-- Groups of one content give the same result exactly when they emit nothing or agree on the
    marker. -/
theorem SameContent.sameResult_iff {ck : Option ClusteringKey} {rows rows' : List MergeEntry}
    (h : SameContent rows rows') :
    SameResult (reconcileCluster plainSettings ck rows) (reconcileCluster plainSettings ck rows') ↔
      (PlainEmits rows' → groupLiveness rows = groupLiveness rows') := by
  have hr := reconcile_plain ck rows
  have hr' := reconcile_plain ck rows'
  cases he : reconcileCluster plainSettings ck rows with
  | none =>
    cases he' : reconcileCluster plainSettings ck rows' with
    | none =>
      rw [he'] at hr'
      simp [SameResult, hr']
    | some e' =>
      rw [he] at hr
      rw [he'] at hr'
      exact absurd (h.plainEmits.mpr hr'.1) hr
  | some e =>
    cases he' : reconcileCluster plainSettings ck rows' with
    | none =>
      rw [he] at hr
      rw [he'] at hr'
      exact absurd (h.plainEmits.mp hr.1) hr'
    | some e' =>
      rw [he] at hr
      rw [he'] at hr'
      obtain ⟨-, hs⟩ := hr
      obtain ⟨hemit, hs'⟩ := hr'
      constructor
      · intro hsame _
        rw [← hs.liveness, ← hs'.liveness, hsame.liveness]
      · intro hlive
        have hts : plainTimestamp rows = plainTimestamp rows' := by
          unfold plainTimestamp
          rw [h.rowDel, maxTimestamp_congr h.unshadowed]
          have : (groupUnshadowed rows).isEmpty = (groupUnshadowed rows').isEmpty := by
            rw [Bool.eq_iff_iff, List.isEmpty_iff, List.isEmpty_iff, eq_nil_congr h.unshadowed]
          rw [this]
        exact ⟨by rw [hs.timestamp, hs'.timestamp, hts],
          fun c => by rw [hs.cells, hs'.cells, h.unshadowed],
          by rw [hs.rowDeletions, hs'.rowDeletions, h.rowDel],
          fun cd => by rw [hs.complex, hs'.complex, h.complex],
          by rw [hs.range, hs'.range, h.range],
          by rw [hs.liveness, hs'.liveness, hlive hemit]⟩

/-! ### A block and its summary -/

/-- The block holds anything besides row markers. -/
def HasContent (rows : List MergeEntry) : Prop :=
  groupCells rows ≠ [] ∨ groupRowDeletions rows ≠ [] ∨ groupComplex rows ≠ [] ∨
    groupRanges rows ≠ []

theorem plainEmits_iff {rows : List MergeEntry} : PlainEmits rows ↔ HasContent rows := by
  have hdel : groupRowDel rows ≠ none ↔ groupRowDeletions rows ≠ [] :=
    not_congr (Lww.latest_eq_none _)
  have hrange : groupRangeDeletion rows ≠ none ↔ groupRanges rows ≠ [] :=
    not_congr (Lww.latest_eq_none _)
  have hcx : groupActiveComplex rows ≠ [] ↔ groupComplex rows ≠ [] := by
    constructor
    · intro h
      obtain ⟨cd, hcd⟩ := List.exists_mem_of_ne_nil _ h
      exact List.ne_nil_of_mem (mem_groupActiveComplex.mp hcd).mem
    · intro h
      obtain ⟨cd, hcd⟩ := List.exists_mem_of_ne_nil _ h
      obtain ⟨w, hw, -, -⟩ : ∃ w, Lww.IsWinner ComplexDeletion.column
          ComplexDeletion.markedForDeleteAt (groupComplex rows) w ∧ w.column = cd.column ∧
          cd.markedForDeleteAt ≤ w.markedForDeleteAt := Lww.exists_winner complexSupersedes_iff hcd
      exact List.ne_nil_of_mem (mem_groupActiveComplex.mpr hw)
  unfold PlainEmits HasContent
  rw [hdel, hcx, hrange]
  constructor
  · rintro (h | h)
    · obtain ⟨c, hc⟩ := List.exists_mem_of_ne_nil _ h
      exact .inl (List.ne_nil_of_mem (mem_groupUnshadowed.mp hc).wins.mem)
    · exact .inr h
  · rintro (h | h)
    · -- a cell is emitted itself, or there is a deletion that covers it
      by_cases hrest : groupRowDeletions rows ≠ [] ∨ groupComplex rows ≠ []
      · exact .inr (hrest.elim .inl fun h => .inr (.inl h))
      · obtain ⟨h₁, h₂⟩ := not_or.mp hrest
        simp only [not_not] at h₁ h₂
        obtain ⟨c, hc⟩ := List.exists_mem_of_ne_nil _ h
        obtain ⟨w, hw, -, -⟩ : ∃ w, Lww.IsWinner CellData.cellKey cellRank (groupCells rows) w ∧
            w.cellKey = c.cellKey ∧ cellRank c ≤ cellRank w := Lww.exists_winner cellWins_iff hc
        exact .inl (List.ne_nil_of_mem (mem_groupUnshadowed.mpr ⟨hw, by simp [h₂], by simp [h₁]⟩))
    · exact .inr h

/-- A cell of the group that no deletion covers beats every shadowed winner of its key. -/
theorem cellRank_lt_of_shadowed {A B : List MergeEntry} {v w : CellData}
    (hv : Lww.IsWinner CellData.cellKey cellRank (groupCells A) v)
    (hshadowed : ¬ CellUnshadowed A v) (hk : v.cellKey = w.cellKey)
    (hcomplex : ∀ cd ∈ groupComplex (A ++ B), ¬ ComplexCovers cd w)
    (hrow : ∀ d ∈ groupRowDeletions (A ++ B), d.1 < w.timestamp) : cellRank v < cellRank w := by
  have hkey : v.column = w.column ∧ v.cellPath = w.cellPath := by
    simpa [CellData.cellKey] using hk
  apply cellRank_lt_of_timestamp_lt
  by_contra hle
  refine hshadowed ⟨hv, fun cd hcd hcov => ?_, fun d hd => ?_⟩
  · refine hcomplex cd (by simp [groupComplex] at hcd ⊢; exact .inl hcd) ⟨?_, ?_, ?_⟩
    · exact hcov.1.trans hkey.1
    · rw [← hkey.2]; exact hcov.2.1
    · exact (not_lt.mp hle).trans hcov.2.2
  · exact lt_of_lt_of_le
      (hrow d (by simp [groupRowDeletions] at hd ⊢; exact .inl hd)) (not_lt.mp hle)

/-- A row may stand for the group it was merged from. -/
theorem Summarizes.sameContent {A : List MergeEntry} {e : MergeEntry} (h : Summarizes A e)
    (B : List MergeEntry) : SameContent (e :: B) (A ++ B) := by
  have hdels : groupRowDeletions (e :: B) = (groupRowDel A).toList ++ groupRowDeletions B := by
    simp [groupRowDeletions, h.rowDeletions]
  have hdel : groupRowDel (e :: B) = groupRowDel (A ++ B) := by
    have hAB : groupRowDeletions (A ++ B) = groupRowDeletions A ++ groupRowDeletions B := by
      simp [groupRowDeletions]
    rw [groupRowDel, groupRowDel, hdels, hAB]
    exact Lww.latest_toList_append _ _
  have hcx : ∀ cd, cd ∈ groupActiveComplex (e :: B) ↔ cd ∈ groupActiveComplex (A ++ B) := by
    intro cd
    have heB : groupComplex (e :: B) = groupActiveComplex A ++ groupComplex B := by
      simp [groupComplex, h.complex]
    have hAB : groupComplex (A ++ B) = groupComplex A ++ groupComplex B := by simp [groupComplex]
    rw [mem_groupActiveComplex, mem_groupActiveComplex, heB, hAB]
    exact Lww.isWinner_winners_append complexSupersedes_iff
  have hrange : groupRangeDeletion (e :: B) = groupRangeDeletion (A ++ B) := by
    have heB : groupRanges (e :: B) = (groupRangeDeletion A).toList ++ groupRanges B := by
      simp [groupRanges, h.range]
    have hAB : groupRanges (A ++ B) = groupRanges A ++ groupRanges B := by simp [groupRanges]
    rw [groupRangeDeletion, groupRangeDeletion, heB, hAB]
    exact Lww.latest_toList_append _ _
  refine ⟨fun c => ?_, hdel, hcx, hrange⟩
  -- the deletions agree, so only the winners have to be compared
  have hcomplex : (∀ cd ∈ groupComplex (e :: B), ¬ ComplexCovers cd c) ↔
      ∀ cd ∈ groupComplex (A ++ B), ¬ ComplexCovers cd c := by
    rw [← survivesComplex_iff, ← survivesComplex_iff]
    simp only [survivesComplex, List.all_eq_true, hcx]
  have hrow : (∀ d ∈ groupRowDeletions (e :: B), d.1 < c.timestamp) ↔
      ∀ d ∈ groupRowDeletions (A ++ B), d.1 < c.timestamp := by
    rw [← survivesRowDel_iff, ← survivesRowDel_iff, hdel]
  have hwins : (∀ cd ∈ groupComplex (A ++ B), ¬ ComplexCovers cd c) →
      (∀ d ∈ groupRowDeletions (A ++ B), d.1 < c.timestamp) →
      (Lww.IsWinner CellData.cellKey cellRank (groupCells (e :: B)) c ↔
        Lww.IsWinner CellData.cellKey cellRank (groupCells (A ++ B)) c) := by
    intro hc hr
    have heB : groupCells (e :: B) = groupUnshadowed A ++ groupCells B := by
      simp [groupCells, h.cells]
    have hAB : groupCells (A ++ B) = groupCells A ++ groupCells B := by simp [groupCells]
    rw [heB, hAB]
    refine Lww.isWinner_append_of_subset cellWins_iff
      (fun z hz => (mem_groupUnshadowed.mp hz).wins) (fun v hv hnot hk => ?_) ?_
    · exact cellRank_lt_of_shadowed hv (mt mem_groupUnshadowed.mpr hnot) hk hc hr
    · exact ((Lww.winners_pairwise _).filter _).filter _
  constructor
  · rintro ⟨hw, hc, hr⟩
    have hc' := hcomplex.mp hc
    have hr' := hrow.mp hr
    exact ⟨(hwins hc' hr').mp hw, hc', hr'⟩
  · rintro ⟨hw, hc, hr⟩
    exact ⟨(hwins hc hr).mpr hw, hcomplex.mpr hc, hrow.mpr hr⟩

/-- A block of bare markers adds nothing to a later pass but its markers. -/
theorem sameContent_of_not_hasContent {A : List MergeEntry} (h : ¬ HasContent A)
    (B : List MergeEntry) : SameContent B (A ++ B) := by
  simp only [HasContent, not_or, not_not] at h
  obtain ⟨h₁, h₂, h₃, h₄⟩ := h
  have hcells : groupCells (A ++ B) = groupCells B := by
    simpa [groupCells] using h₁
  have hdels : groupRowDeletions (A ++ B) = groupRowDeletions B := by
    simpa [groupRowDeletions] using h₂
  have hcx : groupComplex (A ++ B) = groupComplex B := by
    simpa [groupComplex] using h₃
  have hranges : groupRanges (A ++ B) = groupRanges B := by
    simpa [groupRanges] using h₄
  refine ⟨fun c => ?_, by simp only [groupRowDel, hdels], fun cd => ?_,
    by simp only [groupRangeDeletion, hranges]⟩
  · constructor
    · rintro ⟨a, b, d⟩
      exact ⟨by rwa [hcells], by rwa [hcx], by rwa [hdels]⟩
    · rintro ⟨a, b, d⟩
      exact ⟨by rwa [hcells] at a, by rwa [hcx] at b, by rwa [hdels] at d⟩
  · simp only [groupActiveComplex, hcx]

/-! ### Order independence -/

/-- No two contributions of one kind tie on their timestamp with different payloads. -/
structure NoTies (rows : List MergeEntry) : Prop where
  cells : ∀ a ∈ groupCells rows, ∀ b ∈ groupCells rows,
    a.cellKey = b.cellKey → cellRank a = cellRank b → a = b
  rowDeletions : ∀ a ∈ groupRowDeletions rows, ∀ b ∈ groupRowDeletions rows, a.1 = b.1 → a = b
  complex : ∀ a ∈ groupComplex rows, ∀ b ∈ groupComplex rows,
    a.column = b.column → a.markedForDeleteAt = b.markedForDeleteAt → a = b
  ranges : ∀ a ∈ groupRanges rows, ∀ b ∈ groupRanges rows, a.deletionTime = b.deletionTime → a = b

theorem sameContent_of_perm {rows rows' : List MergeEntry} (h : rows.Perm rows')
    (hties : NoTies rows') : SameContent rows rows' := by
  have hcells : (groupCells rows).Perm (groupCells rows') := h.flatMap_right _
  have hdels : (groupRowDeletions rows).Perm (groupRowDeletions rows') := h.flatMap_right _
  have hcx : (groupComplex rows).Perm (groupComplex rows') := h.flatMap_right _
  have hranges : (groupRanges rows).Perm (groupRanges rows') := h.flatMap_right _
  refine ⟨fun c => ?_, Lww.latest_perm deletionSupersedes_iff hdels hties.rowDeletions, fun cd => ?_,
    Lww.latest_perm rangeSupersedes_iff hranges hties.ranges⟩
  · have hw : Lww.IsWinner CellData.cellKey cellRank (groupCells rows) c ↔
        Lww.IsWinner CellData.cellKey cellRank (groupCells rows') c :=
      Lww.isWinner_perm hcells hties.cells
    exact ⟨fun ⟨a, b, d⟩ => ⟨hw.mp a, fun cd hcd => b cd (hcx.mem_iff.mpr hcd),
        fun x hx => d x (hdels.mem_iff.mpr hx)⟩,
      fun ⟨a, b, d⟩ => ⟨hw.mpr a, fun cd hcd => b cd (hcx.mem_iff.mp hcd),
        fun x hx => d x (hdels.mem_iff.mp hx)⟩⟩
  · rw [mem_groupActiveComplex, mem_groupActiveComplex]
    exact Lww.isWinner_perm hcx hties.complex

/-! ### Two passes against one -/

/-- Reconciling `A` first and its result together with `B` gives the one-pass result exactly when
    `A` has content, or `B` has none, or `A`'s markers do not win over `B`'s. Without ties the
    one-pass result does not depend on the order of the entries. -/
theorem reconcile_two_pass_iff (ck : Option ClusteringKey) (A B : List MergeEntry) :
    (SameResult
        (reconcileCluster plainSettings ck ((reconcileCluster plainSettings ck A).toList ++ B))
        (reconcileCluster plainSettings ck (A ++ B)) ↔
      HasContent A ∨ ¬ HasContent B ∨ groupLiveness (A ++ B) = groupLiveness B) ∧
    ∀ rows, rows.Perm (A ++ B) → NoTies (A ++ B) →
      SameResult (reconcileCluster plainSettings ck rows)
        (reconcileCluster plainSettings ck (A ++ B)) := by
  refine ⟨?_, fun rows hperm hties => ?_⟩
  · have hA := reconcile_plain ck A
    cases he : reconcileCluster plainSettings ck A with
    | some e =>
      rw [he] at hA
      obtain ⟨hemit, hs⟩ := hA
      have hlive : groupLiveness (e :: B) = groupLiveness (A ++ B) := by
        rw [groupLiveness_append, ← RowLiveness.empty_merge (groupLiveness_normal A), ← hs.liveness]
        rfl
      refine iff_of_true ((hs.sameContent B).sameResult_iff.mpr fun _ => hlive) ?_
      exact .inl (plainEmits_iff.mp hemit)
    | none =>
      rw [he] at hA
      have hbare : ¬ HasContent A := mt plainEmits_iff.mpr hA
      have hB : HasContent (A ++ B) ↔ HasContent B := by
        rw [← plainEmits_iff, ← plainEmits_iff,
          (sameContent_of_not_hasContent hbare B).plainEmits]
      rw [Option.toList_none, List.nil_append,
        (sameContent_of_not_hasContent hbare B).sameResult_iff, plainEmits_iff, hB]
      constructor
      · intro h
        by_cases hc : HasContent B
        · exact .inr (.inr (h hc).symm)
        · exact .inr (.inl hc)
      · rintro (h | h | h)
        · exact absurd h hbare
        · exact fun hc => absurd hc h
        · exact fun _ => h.symm
  · exact (sameContent_of_perm hperm hties).sameResult_iff.mpr
      fun _ => groupLiveness_perm hperm

theorem SameResult.rowLiveness {r r' : Option MergeEntry} (h : SameResult r r') :
    r.map (·.rowLiveness) = r'.map (·.rowLiveness) := by
  cases r <;> cases r'
  · rfl
  · exact h.elim
  · exact h.elim
  · exact congrArg some h.liveness

/-- `INSERT` of a key without cells at `100`, on a table without clustering columns. -/
def bareInsert : MergeEntry :=
  (MergeEntry.new 0 ⟨1, [1]⟩ none 100 (.live [])).withRowLiveness (.marker 100 none)

/-- `UPDATE .. SET v = 7` at `50`: a cell and no marker. -/
def plainUpdate : MergeEntry :=
  MergeEntry.new 1 ⟨1, [1]⟩ none 0 (.live [.new "v" (.integer 7) 50])

/-- Compacting the insert on its own first loses its marker. -/
theorem bare_insert_marker_lost :
    ¬ SameResult
      (reconcileCluster plainSettings none
        ((reconcileCluster plainSettings none [bareInsert]).toList ++ [plainUpdate]))
      (reconcileCluster plainSettings none ([bareInsert] ++ [plainUpdate])) :=
  fun h => absurd h.rowLiveness (by decide)

end Cqlite
