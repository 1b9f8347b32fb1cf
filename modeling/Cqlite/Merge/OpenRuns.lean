import Cqlite.Merge.Denotation
import Cqlite.Merge.StreamRefines

/-! The runs of a partition as a merge opens them.

    Every reader tags its entries with the place of its SSTable among the inputs, and the heap breaks
    ties by it. So the rows of one clustering key leave the heap in the order of the inputs. -/

namespace Cqlite

/-! ### Entries up to their run -/

def MergeEntry.withRunIndex (i : Nat) (e : MergeEntry) : MergeEntry := { e with runIndex := i }

/-- The entries without their run. -/
def unindexed (rows : List MergeEntry) : List MergeEntry := rows.map (MergeEntry.withRunIndex 0)

section Unindexed

variable {rows : List MergeEntry} {ck : Option ClusteringKey} {cks : List ClusteringKey}
  {ranges : List RangeTombstone} {key : DecoratedKey}

theorem partitionRanges_unindexed : partitionRanges (unindexed rows) = partitionRanges rows := by
  rw [partitionRanges_eq, partitionRanges_eq, unindexed, List.filter_map, List.filterMap_map]
  rfl

theorem partitionDeletions_unindexed :
    partitionDeletions (unindexed rows) = partitionDeletions rows := by
  rw [partitionDeletions, partitionDeletions, unindexed, List.filterMap_map]
  rfl

theorem mem_unindexed {e : MergeEntry} :
    e ∈ unindexed rows ↔ ∃ x ∈ rows, x.withRunIndex 0 = e := List.mem_map

theorem EntriesIn.of_unindexed (h : EntriesIn cks ranges key (unindexed rows)) :
    EntriesIn cks ranges key rows where
  sameKey e he := h.sameKey (e.withRunIndex 0) (List.mem_map_of_mem he)
  keys e he := h.keys (e.withRunIndex 0) (List.mem_map_of_mem he)
  cuts := by
    rw [← partitionRanges_unindexed]
    exact h.cuts
  rowRange e he := h.rowRange (e.withRunIndex 0) (List.mem_map_of_mem he)

theorem EntriesIn.unindexed (h : EntriesIn cks ranges key rows) :
    EntriesIn cks ranges key (unindexed rows) where
  sameKey := by
    intro e he
    obtain ⟨x, hx, rfl⟩ := mem_unindexed.mp he
    exact h.sameKey x hx
  keys := by
    intro e he
    obtain ⟨x, hx, rfl⟩ := mem_unindexed.mp he
    exact h.keys x hx
  cuts := by
    rw [partitionRanges_unindexed]
    exact h.cuts
  rowRange := by
    intro e he
    obtain ⟨x, hx, rfl⟩ := mem_unindexed.mp he
    exact h.rowRange x hx

variable [DebugFmt]

theorem rowsAt_unindexed : rowsAt (unindexed rows) ck = unindexed (rowsAt rows ck) := by
  rw [rowsAt, rowsAt, unindexed, unindexed, List.filter_map, List.filter_map]
  rfl

omit [DebugFmt] in
theorem groupCells_unindexed : groupCells (unindexed rows) = groupCells rows := by
  rw [groupCells, groupCells, unindexed, List.flatMap_map]
  rfl

/-- The run says nothing about the cells. -/
theorem evidenceAt_unindexed (schema : TableSchema) :
    evidenceAt schema (unindexed rows) ck = evidenceAt schema rows ck := by
  have hcells : groupCells (rowsAt (unindexed rows) ck) = groupCells (rowsAt rows ck) := by
    rw [rowsAt_unindexed, groupCells_unindexed]
  have hrow : groupRowDeletions (rowsAt (unindexed rows) ck) = groupRowDeletions (rowsAt rows ck) := by
    rw [rowsAt_unindexed, unindexed, groupRowDeletions, groupRowDeletions, List.flatMap_map]
    rfl
  have hcomplex : groupComplex (rowsAt (unindexed rows) ck) = groupComplex (rowsAt rows ck) := by
    rw [rowsAt_unindexed, unindexed, groupComplex, groupComplex, List.flatMap_map]
    rfl
  refine Evidence.ext (by simp only [evidenceAt, hcells]) (funext fun k => Set.ext fun t => ?_)
  constructor
  · rintro (⟨d, hd⟩ | ⟨rt, hrt, hcov⟩ | ⟨d, hd⟩ | ⟨cd, hcd, hcol, hpath⟩ | ⟨t, ht⟩)
    · exact .partition d (partitionDeletions_unindexed ▸ hd)
    · exact .range rt (partitionRanges_unindexed ▸ hrt) hcov
    · exact .row d (hrow ▸ hd)
    · exact .complex cd (hcomplex ▸ hcd) hcol hpath
    · exact .dropped t ht
  · rintro (⟨d, hd⟩ | ⟨rt, hrt, hcov⟩ | ⟨d, hd⟩ | ⟨cd, hcd, hcol, hpath⟩ | ⟨t, ht⟩)
    · exact .partition d (partitionDeletions_unindexed.symm ▸ hd)
    · exact .range rt (partitionRanges_unindexed.symm ▸ hrt) hcov
    · exact .row d (hrow.symm ▸ hd)
    · exact .complex cd (hcomplex.symm ▸ hcd) hcol hpath
    · exact .dropped t ht

end Unindexed

/-! ### Opened runs -/

/-- Every run with its place. -/
def openRuns (runs : List (List MergeEntry)) : List (List MergeEntry) :=
  runs.mapIdx fun i run => run.map (MergeEntry.withRunIndex i)

/-- What a reader guarantees of the entries of one partition in an SSTable: the rows come in
    clustering order, and every entry has its form. -/
structure DeliveredRun [DebugFmt] (schema : TableSchema) (run : List MergeEntry) : Prop where
  rowOrder : run.Pairwise fun a b =>
    isRangeCarrier a = false → isRangeCarrier b = false → rowCmp schema a b ≠ .gt
  entry : ∀ e ∈ run, EntryInput schema e

/-- At most one row. -/
theorem deliveredRun_of_row [DebugFmt] {schema : TableSchema} {run : List MergeEntry} (hlen : run.length ≤ 1)
    (hrow : ∀ e ∈ run, isCarrier e = false ∧ e.rangeDeletion = none) : DeliveredRun schema run where
  rowOrder := by
    rcases run with _ | ⟨e, _ | ⟨e', run⟩⟩
    · exact List.Pairwise.nil
    · exact List.pairwise_singleton _ _
    · simp at hlen
  entry e he := by
    obtain ⟨hrow, hrange⟩ := hrow e he
    refine ⟨fun hc => ?_, fun _ => hrange, fun rt hrt => ?_⟩
    · rw [hrow] at hc
      cases hc
    · rw [hrange] at hrt
      cases hrt

theorem openRuns_indexed (runs : List (List MergeEntry)) :
    KWay.Indexed MergeEntry.runIndex (openRuns runs) := by
  intro i run hrun e he
  rw [openRuns, List.getElem?_mapIdx] at hrun
  obtain ⟨run', -, rfl⟩ := Option.map_eq_some_iff.mp hrun
  obtain ⟨x, -, rfl⟩ := List.mem_map.mp he
  rfl

theorem unindexed_openRuns (runs : List (List MergeEntry)) :
    unindexed (openRuns runs).flatten = unindexed runs.flatten := by
  have hmap : (openRuns runs).map unindexed = runs.map unindexed := by
    refine List.ext_getElem? fun i => ?_
    rw [openRuns, List.getElem?_map, List.getElem?_mapIdx, List.getElem?_map, Option.map_map]
    refine congrArg (fun f => Option.map f runs[i]?) (funext fun run => ?_)
    simp only [Function.comp_apply, unindexed, List.map_map]
    rfl
  rw [unindexed, List.map_flatten, unindexed, List.map_flatten]
  exact congrArg List.flatten hmap

section Opened

variable [DebugFmt] {schema : TableSchema} {cks : List ClusteringKey} {ranges : List RangeTombstone}
  {key : DecoratedKey} {runs : List (List MergeEntry)} {ck : Option ClusteringKey}
  (hs : KeySpace schema cks ranges) (h : EntriesIn cks ranges key runs.flatten)
  (hruns : ∀ run ∈ runs, DeliveredRun schema run)

/-- What a merge reads of a partition, in the order of the heap. -/
def popRuns (schema : TableSchema) (runs : List (List MergeEntry)) : List MergeEntry :=
  popOrder schema (openRuns runs)

theorem popRuns_perm (schema : TableSchema) (runs : List (List MergeEntry)) :
    (popRuns schema runs).Perm (openRuns runs).flatten :=
  ((KWay.inv_start (openRuns_indexed runs)).pops_perm (openRuns_indexed runs)).trans
    (KWay.start_perm _)

/-- It says of the cells what the runs say. -/
theorem evidenceAt_popRuns : evidenceAt schema (popRuns schema runs) ck =
    evidenceAt schema runs.flatten ck := by
  have hperm := popRuns_perm schema runs
  rw [evidenceAt_congr (fun e => hperm.mem_iff) ck, ← evidenceAt_unindexed, unindexed_openRuns,
    evidenceAt_unindexed]

omit [DebugFmt] in
include h in
theorem entriesIn_openRuns : EntriesIn cks ranges key (openRuns runs).flatten := by
  have hflat := h.unindexed
  rw [← unindexed_openRuns] at hflat
  exact hflat.of_unindexed

include h in
theorem entriesIn_popRuns : EntriesIn cks ranges key (popRuns schema runs) :=
  (entriesIn_openRuns h).mono fun _ he => (popRuns_perm schema runs).subset he

include hs h hruns

/-- Opened runs are what the merger requires. -/
theorem openRuns_input : RunsInput schema (openRuns runs) := by
  have hmem : ∀ run ∈ openRuns runs, ∃ i, ∃ run₀ ∈ runs,
      run = run₀.map (MergeEntry.withRunIndex i) := by
    intro run hrun
    obtain ⟨i, hi, rfl⟩ := List.mem_mapIdx.mp hrun
    exact ⟨i, _, List.getElem_mem _, rfl⟩
  refine runsInput_of_sameKey (openRuns_indexed runs) ((entriesIn_openRuns h).partitionInput hs) ?_ ?_
  · intro run hrun
    obtain ⟨i, run₀, hrun₀, rfl⟩ := hmem run hrun
    exact List.pairwise_map.mpr (hruns run₀ hrun₀).rowOrder
  · intro e he
    obtain ⟨run, hrun, he⟩ := List.mem_flatten.mp he
    obtain ⟨i, run₀, hrun₀, rfl⟩ := hmem run hrun
    obtain ⟨x, hx, rfl⟩ := List.mem_map.mp he
    obtain ⟨h₁, h₂, h₃⟩ := (hruns run₀ hrun₀).entry x hx
    exact ⟨h₁, h₂, h₃⟩

theorem popRuns_input : SegmentInput schema key (popRuns schema runs) := by
  have hin := openRuns_input hs h hruns
  have hrows : EntriesIn cks ranges key (popRuns schema runs) := entriesIn_popRuns h
  refine ⟨hrows.partitionInput hs, ?_, fun e he => hin.entry e ((popRuns_perm schema runs).subset he)⟩
  refine hin.popOrder_pairwise.imp_of_mem fun {a b} ha hb hab hpa hpb hgt => ?_
  have hkey : a.key = b.key := (hrows.sameKey a ha).trans (hrows.sameKey b hb).symm
  exact hab hpa hpb hkey (by rw [entryCmp_of_sameKey hkey, hgt]; rfl)

/-- The rows of a clustering key leave the heap run by run. -/
theorem rowsAt_popRuns (hck : ck ∈ optionalKeys cks) :
    rowsAt (popRuns schema runs) ck = rowsAt (openRuns runs).flatten ck := by
  have hin := openRuns_input hs h hruns
  have hrows : EntriesIn cks ranges key (popRuns schema runs) := entriesIn_popRuns h
  have hpart := hrows.partitionInput hs
  have hperm := popRuns_perm schema runs
  have htotal : Rank.TotalOn (fun a b : MergeEntry => compare a.runIndex b.runIndex)
      (rowsAt (openRuns runs).flatten ck) := by
    have h : Rank.TotalOn (compareOn MergeEntry.runIndex) (rowsAt (openRuns runs).flatten ck) :=
      Rank.totalOn_of_transCmp
    exact h
  have hrow : ∀ {a rows}, a ∈ rowsAt rows ck →
      a ∈ rows ∧ isCarrier a = false ∧ cmpOptionKey a.clusteringKey ck = .eq := by
    intro a rows ha
    obtain ⟨ha, hk⟩ := List.mem_filter.mp ha
    obtain ⟨ha, hc⟩ := List.mem_filter.mp ha
    exact ⟨ha, by simpa using hc, by simpa using hk⟩
  have hby : ∀ {l}, (∀ i, (l.filter fun e : MergeEntry => e.runIndex == i) =
      ((openRuns runs)[i]?).getD []) → ∀ a : MergeEntry, ((rowsAt l ck).filter fun b =>
        compare a.runIndex b.runIndex == .eq) = rowsAt (((openRuns runs)[a.runIndex]?).getD []) ck := by
    intro l hl a
    rw [← hl, rowsAt, rowsAt, List.filter_filter, List.filter_filter, List.filter_filter,
      List.filter_filter]
    refine List.filter_congr fun b _ => ?_
    rw [Bool.eq_iff_iff]
    simp only [Bool.and_eq_true, beq_iff_eq, compare_eq_iff_eq]
    tauto
  refine htotal.eq_of_classes (fun x hx => (mem_rowsAt_congr fun e => hperm.mem_iff).mp hx)
    (fun _ hy => hy) ?_ ?_ fun a ha => ?_
  · -- rows of one key compare by their run
    refine ((hin.popOrder_pairwise.filter _).filter _).imp_of_mem fun {a b} ha hb hab hgt => ?_
    obtain ⟨hamem, hac, hak⟩ := hrow ha
    obtain ⟨hbmem, hbc, hbk⟩ := hrow hb
    have hkey : a.key = b.key := (hrows.sameKey a hamem).trans (hrows.sameKey b hbmem).symm
    have heq : cmpOptionKey a.clusteringKey b.clusteringKey = .eq :=
      (hs.total.cmp_congr (hrows.keys b hbmem) hck (hrows.keys a hamem) hbk).trans hak
    have hschema := (hpart.schemaCmpOption_eq_iff hamem hbmem).mpr heq
    refine hab (isRangeCarrier_of_row hac) (isRangeCarrier_of_row hbc) hkey ?_
    rw [entryCmp_of_sameKey hkey, rowCmp_eq, hschema]
    exact hgt
  · refine (((KWay.flatten_ordered (openRuns_indexed runs).offset).2.filter _).filter _).imp ?_
    intro a b hle hgt
    rw [compare_gt_iff_gt] at hgt
    omega
  · have hpop : ∀ i, (popRuns schema runs).filter (fun e => e.runIndex == i) =
        ((openRuns runs)[i]?).getD [] := KWay.popOrder_filter (openRuns_indexed runs)
    have hflat : ∀ i, (openRuns runs).flatten.filter (fun e => e.runIndex == i) =
        ((openRuns runs)[i]?).getD [] := fun i => by
      simpa using KWay.flatten_filter (openRuns_indexed runs).offset i
    rw [hby hpop, hby hflat]

/-- So do its cells. -/
theorem groupCells_popRuns (hck : ck ∈ optionalKeys cks) :
    groupCells (rowsAt (popRuns schema runs) ck) = groupCells (rowsAt runs.flatten ck) := by
  rw [rowsAt_popRuns hs h hruns hck, ← groupCells_unindexed, ← rowsAt_unindexed, unindexed_openRuns,
    rowsAt_unindexed, groupCells_unindexed]

end Opened

end Cqlite
