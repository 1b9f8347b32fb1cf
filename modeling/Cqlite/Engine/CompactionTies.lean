import Cqlite.Engine.GenerationRead
import Cqlite.Engine.MergePolicy

/-! Tied cells across a compaction.

    The merger breaks a tie by the position of the run. A read hands it the generations newest first;
    a compaction hands it the SSTables as the policy lists them, by size and path, and its output
    becomes the newest generation. So the cell that wins a tie is kept for every content exactly when
    each SSTable newer than a compacted one is compacted too and is smaller. -/

namespace Cqlite

section Ties

variable [DebugFmt]

/-! ### Cells by SSTable -/

/-- The cells that an SSTable holds of a clustering key. -/
def cellsOf (files : Nat → TableFile) (key : DecoratedKey) (ck : Option ClusteringKey) (g : Nat) :
    List CellData := groupCells (rowsAt ((files g).rows key) ck)

theorem groupCells_append (a b : List MergeEntry) (ck : Option ClusteringKey) :
    groupCells (rowsAt (a ++ b) ck) = groupCells (rowsAt a ck) ++ groupCells (rowsAt b ck) := by
  rw [rowsAt_append, groupCells, List.flatMap_append]
  rfl

theorem groupCells_partitionRows (files : Nat → TableFile) (gens : List Nat) (key : DecoratedKey)
    (ck : Option ClusteringKey) :
    groupCells (rowsAt (partitionRows files gens key) ck) = gens.flatMap (cellsOf files key ck) := by
  induction gens with
  | nil => rfl
  | cons g gens ih => rw [partitionRows_cons, groupCells_append, ih, List.flatMap_cons, cellsOf]

/-! ### What stands stays -/

section Core

variable {cks : List ClusteringKey} {ranges : List RangeTombstone} {key : DecoratedKey}
  {sel : Selection} {files : Nat → TableFile} {ck : Option ClusteringKey} {outs : List Nat}
  {c : CellData}

/-- A live cell of the selected SSTables that stands over them stands over the merge inputs. -/
theorem wins_mergeInputs (hs : KeySpace sel.schema cks ranges) (hck : ck ∈ optionalKeys cks)
    (hin : EntriesIn cks ranges key (partitionRows files (sel.selected ++ outs) key))
    (hclock : sel.Clocked) (hhonest : HonestStats files (sel.selected ++ sel.outside) key)
    (halive : ¬ CellDead (some sel.now) c) (hdata : isDataCell ck c = true)
    (hwins : Lww.IsWinner CellData.cellKey cellRank (sel.selected.flatMap (cellsOf files key ck)) c) :
    Lww.IsWinner CellData.cellKey cellRank
      ((sel.mergeInputs files).flatMap (cellsOf files key ck)) c := by
  obtain ⟨pre, g, post, hsel, hg, hpre, hpost⟩ := Lww.isWinner_flatMap.mp hwins
  have hmem : g ∈ sel.selected := by
    rw [hsel]
    simp
  -- a dropped SSTable holds no live cell
  have hkept : g ∉ sel.dropSet files := by
    intro hdrop
    have hw : c ∈ (evidenceAt sel.schema (partitionRows files (sel.dropSet files) key) ck).writes := by
      refine ⟨?_, hdata⟩
      rw [groupCells_partitionRows]
      exact List.mem_flatMap.mpr ⟨g, hdrop, hg.mem⟩
    refine halive (dropped_dead hs hck hclock hhonest (fun _ h => h) (hin.mono ?_) hw)
    exact partitionRows_mono fun x hx =>
      List.mem_append_left _ (Selection.mem_selected.mpr (.inr hx))
  have hfilter : sel.mergeInputs files = sel.selected.filter (· ∉ sel.dropSet files) := by
    have hne : (sel.selected.filter (· ∉ sel.dropSet files)).isEmpty = false := by
      rw [← Bool.not_eq_true, List.isEmpty_iff]
      exact List.ne_nil_of_mem (List.mem_filter.mpr ⟨hmem, by simpa using hkept⟩)
    rw [Selection.mergeInputs, splitMergeAndDropped]
    simp only [hne, Bool.false_eq_true, if_false]
  rw [hfilter, hsel, List.filter_append, List.filter_cons_of_pos (by simpa using hkept)]
  refine Lww.isWinner_flatMap.mpr ⟨_, g, _, rfl, hg, ?_, ?_⟩
  · exact fun p hp => hpre p (List.mem_of_mem_filter hp)
  · exact fun p hp => hpost p (List.mem_of_mem_filter hp)

/-- The cells of a clustering key reach its group in the order of the merge inputs. -/
theorem groupCells_inTime (hs : KeySpace sel.schema cks ranges) (hck : ck ∈ optionalKeys cks)
    (hin : EntriesIn cks ranges key (partitionRows files sel.selected key))
    (hruns : ∀ g ∈ sel.selected, DeliveredRun sel.schema ((files g).rows key)) :
    groupCells (rowsAt (inTime sel.schema key (sel.segment files key) ck) ck) =
      (sel.mergeInputs files).flatMap (cellsOf files key ck) := by
  have hI : EntriesIn cks ranges key (partitionRows files (sel.mergeInputs files) key) :=
    hin.mono (partitionRows_mono fun g hg => Selection.mem_selected.mpr (.inl hg))
  rw [partitionRows, List.flatMap_def] at hI
  have hread : ∀ run ∈ (sel.mergeInputs files).map fun g => (files g).rows key,
      DeliveredRun sel.schema run := by
    intro run hrun
    obtain ⟨g, hg, rfl⟩ := List.mem_map.mp hrun
    exact hruns g (Selection.mem_selected.mpr (.inl hg))
  rw [inTime, rowsAt_underRanges, Selection.segment, groupCells_popRuns hs hI hread hck,
    ← List.flatMap_def]
  exact groupCells_partitionRows files (sel.mergeInputs files) key ck

/-- Whatever stands over the selected SSTables and the others, in this order, stands over the output
    and the others. -/
theorem Standing.after (hs : KeySpace sel.schema cks ranges) (hck : ck ∈ optionalKeys cks)
    (hin : EntriesIn cks ranges key (partitionRows files (sel.selected ++ outs) key))
    (hruns : ∀ g ∈ sel.selected, DeliveredRun sel.schema ((files g).rows key))
    (hclock : sel.Clocked) (hhonest : HonestStats files (sel.selected ++ sel.outside) key)
    (halive : ¬ CellDead (some sel.now) c)
    (h : Standing sel.schema (partitionRows files (sel.selected ++ outs) key) ck c) :
    Standing sel.schema (sel.outputRows files key ++ partitionRows files outs key) ck c := by
  have hsel : EntriesIn cks ranges key (partitionRows files sel.selected key) :=
    hin.mono (partitionRows_mono fun g hg => List.mem_append_left _ hg)
  have hseg : EntriesIn cks ranges key (sel.segment files key) := entriesIn_segment hsel
  have hsegin := segmentInput_segment hs hsel hruns
  have htime : EntriesIn cks ranges key (inTime sel.schema key (sel.segment files key) ck) :=
    entriesIn_inTime hseg ck
  have hcells := groupCells_inTime hs hck hsel hruns
  have hsub : ∀ e ∈ partitionRows files (sel.mergeInputs files) key,
      e ∈ partitionRows files (sel.selected ++ outs) key :=
    partitionRows_mono fun g hg => List.mem_append_left _ (Selection.mem_selected.mpr (.inl hg))
  have hdeleted : ∀ {k t}, DeletedAt sel.schema (sel.segment files key) ck k t →
      DeletedAt sel.schema (partitionRows files (sel.selected ++ outs) key) ck k t := by
    intro k t ht
    have ht : t ∈ (evidenceAt sel.schema (sel.segment files key) ck).deletes k := ht
    rw [evidenceAt_segment] at ht
    exact deletedAt_mono hsub ht
  have hstream : (evidenceAt sel.schema (sel.outputRows files key) ck).writes = _ :=
    @writes_stream _ (sel.config files) _ _ _ _ _ hseg hs hsegin hck
  have hwrites := fun a => @EntriesIn.mem_output _ _ _ _ _ ck (sel.config files) a htime hs hck
  have hfrom : ∀ a ∈ groupCells (rowsAt (sel.outputRows files key) ck), a.cellKey = c.cellKey →
      ∃ c₀, Standing sel.schema (inTime sel.schema key (sel.segment files key) ck) ck c₀ ∧
        expireCell (some sel.now) c₀ = a := by
    intro a ha hk
    have hcol : a.column = c.column := congrArg Prod.fst hk
    have hdata : isDataCell ck a = true := by
      rw [isDataCell, hcol]
      exact h.data
    obtain ⟨c₀, hstands, -, heq⟩ := (hwrites a).mp (hstream.subset ⟨ha, hdata⟩)
    exact ⟨c₀, hstands, heq⟩
  refine ⟨?_, h.data, ?_⟩
  · have hwins := h.wins
    rw [groupCells_partitionRows, List.flatMap_append, Lww.isWinner_append] at hwins
    rw [groupCells_append, groupCells_partitionRows, Lww.isWinner_append]
    refine hwins.imp ?_ ?_
    · rintro ⟨hfirst, houts⟩
      refine ⟨?_, houts⟩
      have hwin := wins_mergeInputs hs hck hin hclock hhonest halive h.data hfirst
      rw [← hcells] at hwin
      have hstands : Standing sel.schema (inTime sel.schema key (sel.segment files key) ck) ck c :=
        ⟨hwin, h.data, fun t ht => h.undeleted t (hdeleted (deletedAt_of_inTime ht))⟩
      have hmem := hstream.superset ((@EntriesIn.mem_output_alive _ _ _ _ _ ck (sel.config files) c
        htime hs hck halive).mpr hstands)
      refine Lww.isWinner_of_forall_eq hmem.1 fun a ha hk => ?_
      obtain ⟨c₀, hc₀, rfl⟩ := hfrom a ha hk
      obtain rfl : c₀ = c := hc₀.wins.unique hwin (by simpa using hk)
      exact expireCell_of_alive halive
    · rintro ⟨houts, hlt⟩
      refine ⟨houts, fun a ha hk => ?_⟩
      obtain ⟨c₀, hc₀, rfl⟩ := hfrom a ha hk
      have hmem : c₀ ∈ sel.selected.flatMap (cellsOf files key ck) := by
        have := hc₀.wins.mem
        rw [hcells] at this
        obtain ⟨g, hg, hcg⟩ := List.mem_flatMap.mp this
        exact List.mem_flatMap.mpr ⟨g, Selection.mem_selected.mpr (.inl hg), hcg⟩
      -- an older cell stays older when it expires
      have hrank := hlt c₀ hmem (by simpa using hk)
      refine cellRank_lt_of_timestamp_lt ?_
      rw [expireCell_timestamp]
      rw [cellRank, cellRank, cellRank_of_alive halive, Prod.Lex.toLex_lt_toLex] at hrank
      rcases hrank with hts | ⟨-, hfalse⟩
      · exact hts
      · exact absurd hfalse (by simp)
  · intro t ht
    have hboth : t ∈ (evidenceAt sel.schema
        (sel.outputRows files key ++ partitionRows files outs key) ck).deletes c.cellKey := ht
    rw [evidenceAt_append, Evidence.mem_deletes_union] at hboth
    rcases hboth with hout | houts
    · obtain ⟨u, hu, hle⟩ := @stream_deletes_down _ (sel.config files) _ _ _ _ _ hseg hs hsegin hck
        _ _ hout
      exact lt_of_le_of_lt hle (h.undeleted u (hdeleted hu))
    · refine h.undeleted t (deletedAt_mono (partitionRows_mono fun g hg => ?_) houts)
      exact List.mem_append_right _ hg

end Core

/-! ### A table and its compaction -/

/-- The SSTables of a table: generation, path and size, with the generation of the next one. -/
structure Published (π : Type) where
  live : List Nat
  metadata : Nat → SSTableMetadata π
  next : Nat
  nodup : live.Nodup
  paths : ∀ a ∈ live, ∀ b ∈ live, (metadata a).dataPath = (metadata b).dataPath → a = b
  fresh : ∀ g ∈ live, g < next

/-- What the SSTables hold of a partition, with the clocks of a compaction and of a read. -/
structure TableContents where
  schema : TableSchema
  partitionKeys : List String
  files : Nat → TableFile
  key : DecoratedKey
  gcBefore : Option Int
  started : Int
  now : Int
  outputStats : Option TimestampStatistics

section Table

variable {π : Type} [LinearOrder π]

namespace Published

variable (table : Published π) (policy : STCSPolicy)

def candidates : List (SSTableMetadata π) := table.live.map table.metadata

/-- The SSTable at a path. -/
def generationOf (p : π) : Option Nat := table.live.find? fun g => (table.metadata g).dataPath = p

/-- What `select_merge` chose, in its order. -/
def selected : List Nat := (policy.selectMerge table.candidates).filterMap table.generationOf

/-- `non_included`. -/
def outside : List Nat := table.live.filter (· ∉ table.selected policy)

def selection (c : TableContents) : Selection :=
  ⟨c.schema, table.selected policy, table.outside policy, c.gcBefore, c.started⟩

/-- The files once the output is published. -/
def filesAfter (c : TableContents) : Nat → TableFile :=
  Function.update c.files table.next
    ⟨(table.selection policy c).outputRows c.files, c.outputStats⟩

/-- The multi-generation read before the compaction. -/
def readBefore (c : TableContents) (ck : Option ClusteringKey) : Set CellData :=
  readCells c.files table.live c.schema (.new c.partitionKeys c.schema c.now) c.key ck

/-- The same read after it: the output and what was not selected. -/
def readAfter (c : TableContents) (ck : Option ClusteringKey) : Set CellData :=
  readCells (table.filesAfter policy c) (table.next :: table.outside policy) c.schema
    (.new c.partitionKeys c.schema c.now) c.key ck

/-- The rows of all SSTables. -/
def rows (c : TableContents) : List MergeEntry := partitionRows c.files table.live c.key

/-- What the writers of the SSTables guarantee, and clocks that do not run backwards. -/
structure Holds (c : TableContents) : Prop where
  input : MergeInput c.schema c.key (table.rows c)
  delivers : ∀ g ∈ table.live, DeliveredRun c.schema ((c.files g).rows c.key)
  honest : HonestStats c.files table.live c.key
  gcBefore : ∀ gc ∈ c.gcBefore, gc ≤ c.started ∧ gc ≤ i64Max
  later : c.started ≤ c.now

/-- Live cells of one key and timestamp with different values. -/
structure Tied (c : TableContents) (ck : Option ClusteringKey) (a b : CellData) : Prop where
  left : a ∈ (evidenceAt c.schema (table.rows c) ck).writes
  right : b ∈ (evidenceAt c.schema (table.rows c) ck).writes
  sameKey : a.cellKey = b.cellKey
  sameTime : a.timestamp = b.timestamp
  leftLive : ¬ CellDead (some c.now) a
  rightLive : ¬ CellDead (some c.now) b
  differ : a.value ≠ b.value

/-- The compaction does not change which of two tied cells is visible. -/
def TiesKept (c : TableContents) : Prop :=
  ∀ ck ∈ (table.rows c).map MergeEntry.clusteringKey, ∀ a b, table.Tied c ck a b →
    a ∈ table.readBefore c ck → a ∈ table.readAfter policy c ck

/-- In the first `max_threshold` of the smallest tier with `min_threshold` SSTables. -/
def Compacts (g : Nat) : Prop :=
  policy.minThreshold ≤ table.live.length ∧
    ∃ tier, (policy.groupIntoBuckets table.candidates).find? (policy.minThreshold ≤ ·.length) =
        some tier ∧ table.metadata g ∈ tier.take policy.maxThreshold

instance (g : Nat) : Decidable (table.Compacts policy g) :=
  decidable_of_iff (policy.minThreshold ≤ table.live.length ∧
    ((policy.groupIntoBuckets table.candidates).find? (policy.minThreshold ≤ ·.length)).any
      (fun tier => table.metadata g ∈ tier.take policy.maxThreshold) = true) (by
    simp only [Compacts, Option.any_eq_true, decide_eq_true_eq])

/-- Every SSTable newer than a compacted one is compacted too, and is smaller. -/
def NewerSmaller : Prop :=
  ∀ f ∈ table.live, table.Compacts policy f → ∀ g ∈ table.live, f < g →
    table.Compacts policy g ∧ (table.metadata g).sortKey < (table.metadata f).sortKey

instance : Decidable (table.NewerSmaller policy) :=
  inferInstanceAs (Decidable (∀ f ∈ table.live, table.Compacts policy f → ∀ g ∈ table.live, f < g →
    table.Compacts policy g ∧ (table.metadata g).sortKey < (table.metadata f).sortKey))

/-! ### The selection -/

variable {table policy}

omit [DebugFmt] [LinearOrder π] in
theorem metadata_inj {a b : Nat} (ha : a ∈ table.live) (hb : b ∈ table.live)
    (h : table.metadata a = table.metadata b) : a = b := table.paths a ha b hb (by rw [h])

omit [DebugFmt] in
theorem generationOf_eq_some {f : SSTableMetadata π} (hf : f ∈ table.candidates) {g : Nat} :
    table.generationOf f.dataPath = some g ↔ g ∈ table.live ∧ table.metadata g = f := by
  obtain ⟨g', hg', rfl⟩ := List.mem_map.mp hf
  have hfound : table.generationOf (table.metadata g').dataPath = some g' := by
    rw [generationOf]
    cases h : table.live.find? fun g => (table.metadata g).dataPath = (table.metadata g').dataPath with
    | none => exact absurd (List.find?_eq_none.mp h g' hg') (by simp)
    | some x =>
      have hpath := List.find?_some h
      rw [table.paths x (List.mem_of_find?_eq_some h) g' hg' (by simpa using hpath)]
  rw [hfound, Option.some.injEq]
  constructor
  · rintro rfl
    exact ⟨hg', rfl⟩
  · rintro ⟨hg, h⟩
    exact (metadata_inj hg hg' h).symm

omit [DebugFmt] [LinearOrder π] in
theorem candidates_nodup (table : Published π) : table.candidates.Nodup :=
  List.Nodup.map_on (fun _ ha _ hb => metadata_inj ha hb) table.nodup

section

omit [DebugFmt]

/-- What is compacted, and in which order. -/
theorem selected_spec (table : Published π) (policy : STCSPolicy) :
    (∀ g, g ∈ table.selected policy ↔ g ∈ table.live ∧ table.Compacts policy g) ∧
      (table.selected policy).Pairwise fun f g =>
        (table.metadata f).sortKey < (table.metadata g).sortKey := by
  have hlen : table.candidates.length = table.live.length := List.length_map _
  unfold selected STCSPolicy.selectMerge
  rw [hlen]
  split
  · rename_i hfew
    refine ⟨fun g => iff_of_false List.not_mem_nil ?_, List.Pairwise.nil⟩
    rintro ⟨-, hmin, -⟩
    omega
  · rename_i hmany
    cases htier : (policy.groupIntoBuckets table.candidates).find?
        (policy.minThreshold ≤ ·.length) with
    | none =>
      refine ⟨fun g => iff_of_false List.not_mem_nil ?_, List.Pairwise.nil⟩
      rintro ⟨-, -, tier, hsome, -⟩
      rw [htier] at hsome
      cases hsome
    | some tier =>
      obtain ⟨hsub, hsorted⟩ := STCSPolicy.bucket_spec table.candidates_nodup
        (List.mem_of_find?_eq_some htier)
      have hcand : ∀ f ∈ tier.take policy.maxThreshold, f ∈ table.candidates := fun f hf =>
        hsub f (List.mem_of_mem_take hf)
      simp only [List.filterMap_map]
      refine ⟨fun g => ?_, ?_⟩
      · rw [List.mem_filterMap]
        constructor
        · rintro ⟨f, hf, hg⟩
          obtain ⟨hlive, rfl⟩ := (generationOf_eq_some (hcand f hf)).mp hg
          exact ⟨hlive, by omega, tier, htier, hf⟩
        · rintro ⟨hlive, -, tier', htier', hmem⟩
          obtain rfl : tier = tier' := Option.some.inj (htier.symm.trans htier')
          exact ⟨_, hmem, (generationOf_eq_some (hcand _ hmem)).mpr ⟨hlive, rfl⟩⟩
      · rw [List.pairwise_filterMap]
        refine (hsorted.sublist (List.take_sublist ..)).imp_of_mem fun {f g} hf hg hlt => ?_
        intro a ha b hb
        obtain ⟨-, rfl⟩ := (generationOf_eq_some (hcand f hf)).mp ha
        obtain ⟨-, rfl⟩ := (generationOf_eq_some (hcand g hg)).mp hb
        exact hlt

theorem mem_selected {g : Nat} :
    g ∈ table.selected policy ↔ g ∈ table.live ∧ table.Compacts policy g :=
  (table.selected_spec policy).1 g

theorem mem_outside {g : Nat} :
    g ∈ table.outside policy ↔ g ∈ table.live ∧ g ∉ table.selected policy := by
  simp [outside]

theorem selected_nodup : (table.selected policy).Nodup :=
  (table.selected_spec policy).2.imp fun {f g} hlt heq => by
    rw [heq] at hlt
    exact lt_irrefl _ hlt

theorem selected_perm : (table.selected policy ++ table.outside policy).Perm table.live := by
  refine (List.perm_ext_iff_of_nodup ?_ table.nodup).mpr fun g => ?_
  · refine List.nodup_append'.mpr ⟨selected_nodup, table.nodup.filter _, fun g hg ho => ?_⟩
    exact (mem_outside.mp ho).2 hg
  · rw [List.mem_append, mem_outside]
    constructor
    · rintro (hg | hg)
      · exact (mem_selected.mp hg).1
      · exact hg.1
    · intro hg
      by_cases hs : g ∈ table.selected policy
      · exact .inl hs
      · exact .inr ⟨hg, hs⟩

end

/-! ### The order of the reads -/

section

omit [DebugFmt]

theorem orderedGenerationPaths_eq {l l' : List Nat} (hperm : l'.Perm l)
    (h : l'.Pairwise (· ≥ ·)) : orderedGenerationPaths l = l' :=
  ((List.perm_insertionSort _ l).trans hperm.symm).eq_of_pairwise
    (fun _ _ _ _ hab hba => Nat.le_antisymm hba hab) (List.pairwise_insertionSort _ l) h

theorem mem_orderedGenerationPaths {l : List Nat} {g : Nat} :
    g ∈ orderedGenerationPaths l ↔ g ∈ l := List.mem_insertionSort _

theorem ordered_after : orderedGenerationPaths (table.next :: table.outside policy) =
    table.next :: orderedGenerationPaths (table.outside policy) := by
  refine orderedGenerationPaths_eq ((List.perm_insertionSort _ _).cons _) ?_
  refine List.pairwise_cons.mpr ⟨fun g hg => ?_, List.pairwise_insertionSort _ _⟩
  exact (table.fresh g (mem_outside.mp (mem_orderedGenerationPaths.mp hg)).1).le

/-- Under the condition the policy lists the newest first, and nothing newer is left out. -/
theorem NewerSmaller.ordered (h : table.NewerSmaller policy) :
    (table.selected policy).Pairwise (· > ·) ∧ orderedGenerationPaths table.live =
      table.selected policy ++ orderedGenerationPaths (table.outside policy) := by
  have hsel : (table.selected policy).Pairwise (· > ·) := by
    refine ((table.selected_spec policy).2.and selected_nodup).imp_of_mem ?_
    rintro f g hf hg ⟨hlt, hne⟩
    rw [gt_iff_lt, ← not_le]
    intro hle
    obtain ⟨hflive, hfc⟩ := mem_selected.mp hf
    have hback := (h f hflive hfc g (mem_selected.mp hg).1 (lt_of_le_of_ne hle hne)).2
    exact lt_asymm hlt hback
  refine ⟨hsel, orderedGenerationPaths_eq ?_ ?_⟩
  · exact ((List.perm_insertionSort _ _).append_left _).trans selected_perm
  · refine List.pairwise_append.mpr ⟨hsel.imp fun hlt => le_of_lt hlt,
      List.pairwise_insertionSort _ _, fun f hf o ho => ?_⟩
    obtain ⟨hlive, hnot⟩ := mem_outside.mp (mem_orderedGenerationPaths.mp ho)
    obtain ⟨hflive, hfc⟩ := mem_selected.mp hf
    rw [ge_iff_le, ← not_lt]
    exact fun hlt => hnot (mem_selected.mpr ⟨hlive, (h f hflive hfc o hlive hlt).1⟩)

end

/-! ### Reading before and after -/

section Reads

variable {c : TableContents} {ck : Option ClusteringKey} {a : CellData} (hc : table.Holds c)
  (hck : ck ∈ (table.rows c).map MergeEntry.clusteringKey)

include hc

omit [LinearOrder π] in
theorem Holds.entriesIn {gens : List Nat} (hgens : ∀ g ∈ gens, g ∈ table.live) :
    EntriesIn (rowKeys (table.rows c)) (partitionRanges (table.rows c)) c.key
      (partitionRows c.files gens c.key) :=
  hc.input.entriesIn.mono (partitionRows_mono hgens)

theorem Holds.clocked : (table.selection policy c).Clocked :=
  ⟨fun gc hgc => (hc.gcBefore gc hgc).1, fun gc hgc => (hc.gcBefore gc hgc).2⟩

theorem Holds.honestStats : HonestStats c.files
    ((table.selection policy c).selected ++ (table.selection policy c).outside) c.key :=
  fun g hg => hc.honest g (selected_perm.subset hg)

omit [LinearOrder π] in
theorem mem_readBefore (hck : ck ∈ (table.rows c).map MergeEntry.clusteringKey) :
    a ∈ table.readBefore c ck ↔
      Standing c.schema (partitionRows c.files (orderedGenerationPaths table.live) c.key) ck a ∧
        Shows (.new c.partitionKeys c.schema c.now) a :=
  (hc.entriesIn fun _ hg => mem_orderedGenerationPaths.mp hg).mem_readCells hc.input.keySpace
    (hc.input.mem_optionalKeys hck)

theorem mem_readAfter (hck : ck ∈ (table.rows c).map MergeEntry.clusteringKey) :
    a ∈ table.readAfter policy c ck ↔
      Standing c.schema ((table.selection policy c).outputRows c.files c.key ++
        partitionRows c.files (orderedGenerationPaths (table.outside policy)) c.key) ck a ∧
        Shows (.new c.partitionKeys c.schema c.now) a := by
  have hs := hc.input.keySpace
  have houtside : ∀ g ∈ orderedGenerationPaths (table.outside policy), g ∈ table.live := fun g hg =>
    (mem_outside.mp (mem_orderedGenerationPaths.mp hg)).1
  have hrows : partitionRows (table.filesAfter policy c)
      (orderedGenerationPaths (table.next :: table.outside policy)) c.key =
      (table.selection policy c).outputRows c.files c.key ++
        partitionRows c.files (orderedGenerationPaths (table.outside policy)) c.key := by
    rw [ordered_after, partitionRows_cons, filesAfter, Function.update_self]
    congr 1
    refine List.flatMap_congr fun g hg => ?_
    rw [Function.update_of_ne (table.fresh g (houtside g hg)).ne]
  have hselected : ∀ g ∈ table.selected policy, g ∈ table.live := fun g hg => (mem_selected.mp hg).1
  have hout : EntriesIn (rowKeys (table.rows c)) (partitionRanges (table.rows c)) c.key
      ((table.selection policy c).outputRows c.files c.key ++
        partitionRows c.files (orderedGenerationPaths (table.outside policy)) c.key) :=
    (entriesIn_output hs (hc.entriesIn hselected) fun g hg =>
      hc.delivers g (hselected g hg)).append (hc.entriesIn houtside)
  rw [← hrows] at hout ⊢
  exact hout.mem_readCells hs (hc.input.mem_optionalKeys hck)

/-- A live cell that stands over the selected SSTables, in their order, and then the others, stands
    over the output and the others. -/
theorem Holds.standing_after (hck : ck ∈ (table.rows c).map MergeEntry.clusteringKey)
    (halive : ¬ CellDead (some c.now) a)
    (h : Standing c.schema (partitionRows c.files
      (table.selected policy ++ orderedGenerationPaths (table.outside policy)) c.key) ck a) :
    Standing c.schema ((table.selection policy c).outputRows c.files c.key ++
      partitionRows c.files (orderedGenerationPaths (table.outside policy)) c.key) ck a := by
  have hgens : ∀ g ∈ table.selected policy ++ orderedGenerationPaths (table.outside policy),
      g ∈ table.live := by
    intro g hg
    refine selected_perm.subset (List.mem_append.mpr ((List.mem_append.mp hg).imp_right ?_))
    exact mem_orderedGenerationPaths.mp
  have hclock : (table.selection policy c).Clocked := hc.clocked
  exact Standing.after hc.input.keySpace (hc.input.mem_optionalKeys hck) (hc.entriesIn hgens)
    (fun g hg => hc.delivers g (mem_selected.mp hg).1) hclock hc.honestStats
    (fun hdead => halive (cellDead_ages hc.later hdead)) h

/-- Under the condition the read returns every live cell that it returned before. -/
theorem NewerSmaller.read_kept (h : table.NewerSmaller policy)
    (hck : ck ∈ (table.rows c).map MergeEntry.clusteringKey) (halive : ¬ CellDead (some c.now) a)
    (ha : a ∈ table.readBefore c ck) : a ∈ table.readAfter policy c ck := by
  obtain ⟨hstands, hshows⟩ := (mem_readBefore hc hck).mp ha
  rw [h.ordered.2] at hstands
  exact (mem_readAfter hc hck).mpr ⟨hc.standing_after hck halive hstands, hshows⟩

end Reads

end Published

/-! ### A tie that flips -/

/-- `v` written once, at timestamp zero. -/
def cellV (n : Int) : CellData := .new "v" (.integer n) 0

/-- A row of a table without clustering columns. -/
def rowV (key : DecoratedKey) (n : Int) : MergeEntry := .new 0 key none 0 (.live [cellV n])

/-- One partition in which some SSTables hold `v`. -/
def contentsV (values : Nat → Option Int) : TableContents where
  schema := ⟨[], fun _ => none⟩
  partitionKeys := ["k"]
  files g := ⟨fun key => ((values g).map (rowV key)).toList, none⟩
  key := ⟨1, [1]⟩
  gcBefore := none
  started := 0
  now := 0
  outputStats := none

section Values

variable {values : Nat → Option Int} {gens : List Nat}

omit [DebugFmt] in
theorem mem_rowsV {e : MergeEntry} :
    e ∈ partitionRows (contentsV values).files gens (contentsV values).key ↔
      ∃ g ∈ gens, ∃ n ∈ values g, e = rowV ⟨1, [1]⟩ n := by
  simp only [mem_partitionRows, contentsV, Option.mem_toList, Option.mem_def, Option.map_eq_some_iff]
  refine exists_congr fun g => and_congr_right fun _ => exists_congr fun n => and_congr_right fun _ => ?_
  exact eq_comm

theorem cellsOf_contentsV (g : Nat) :
    cellsOf (contentsV values).files (contentsV values).key none g = ((values g).map cellV).toList := by
  rw [cellsOf, contentsV]
  simp only
  cases values g <;> rfl

theorem not_deleted {ck : Option ClusteringKey} {k : CellKey} {t : Int} :
    ¬ DeletedAt (contentsV values).schema
      (partitionRows (contentsV values).files gens (contentsV values).key) ck k t := by
  have hrow : ∀ {e : MergeEntry},
      e ∈ partitionRows (contentsV values).files gens (contentsV values).key →
      ∃ n, e = rowV ⟨1, [1]⟩ n := by
    intro e he
    obtain ⟨-, -, n, -, rfl⟩ := mem_rowsV.mp he
    exact ⟨n, rfl⟩
  intro ht
  cases ht with
  | partition d hd =>
    obtain ⟨e, he, hed⟩ := List.mem_filterMap.mp hd
    obtain ⟨n, rfl⟩ := hrow he
    cases hed
  | range rt hrt hcov =>
    obtain ⟨x, hx, -⟩ := List.mem_filterMap.mp hrt
    obtain ⟨hx, hcarrier⟩ := List.mem_filter.mp hx
    obtain ⟨n, rfl⟩ := hrow hx
    cases hcarrier
  | row d hd =>
    obtain ⟨e, he, hed⟩ := List.mem_flatMap.mp hd
    obtain ⟨n, rfl⟩ := hrow (List.mem_of_mem_filter (List.mem_of_mem_filter he))
    cases hed
  | complex cd hcd hcol hpath =>
    obtain ⟨e, he, hed⟩ := List.mem_flatMap.mp hcd
    obtain ⟨n, rfl⟩ := hrow (List.mem_of_mem_filter (List.mem_of_mem_filter he))
    cases hed
  | dropped t ht => cases ht

theorem standing_contentsV {pre post : List Nat} {g : Nat} {n : Int} (hn : values g = some n)
    (hpre : ∀ p ∈ pre, values p = none) :
    Standing (contentsV values).schema (partitionRows (contentsV values).files (pre ++ g :: post)
      (contentsV values).key) none (cellV n) := by
  refine ⟨?_, rfl, fun t ht => absurd ht not_deleted⟩
  rw [groupCells_partitionRows]
  refine Lww.isWinner_flatMap.mpr ⟨pre, g, post, rfl, ?_, ?_, ?_⟩
  · rw [cellsOf_contentsV, hn]
    exact Lww.isWinner_singleton.mpr rfl
  · intro p hp a ha
    rw [cellsOf_contentsV, hpre p hp] at ha
    cases ha
  · intro p hp a ha _
    rw [cellsOf_contentsV] at ha
    obtain ⟨m, -, rfl⟩ := Option.map_eq_some_iff.mp (Option.mem_toList.mp ha)
    exact le_rfl

omit [LinearOrder π] in
theorem holds_contentsV (table : Published π) : table.Holds (contentsV values) := by
  have hkeys : rowKeys (table.rows (contentsV values)) = [] :=
    List.filterMap_eq_nil_iff.mpr fun e he => by
      obtain ⟨-, -, n, -, rfl⟩ := mem_rowsV.mp he
      rfl
  have hranges : partitionRanges (table.rows (contentsV values)) = [] := by
    rw [partitionRanges, List.filterMap_eq_nil_iff]
    intro e he
    obtain ⟨-, -, n, -, rfl⟩ := mem_rowsV.mp (List.mem_of_mem_filter he)
    rfl
  refine ⟨⟨⟨?_, ?_, ?_⟩, ?_, ?_⟩, ?_, ?_, ?_, le_rfl⟩
  · intro e he
    obtain ⟨-, -, n, -, rfl⟩ := mem_rowsV.mp he
    rfl
  · rw [hkeys, hranges]
    exact ⟨by simp, by simp, ⟨by simp [occurringCuts], by simp [occurringCuts]⟩⟩
  · rw [hkeys]
    exact ⟨by simp, by simp⟩
  · rw [hkeys]
    intro ck hck
    cases hck
  · intro e he _
    obtain ⟨-, -, n, -, rfl⟩ := mem_rowsV.mp he
    rfl
  · -- every SSTable holds at most one row
    intro g _
    have hrun : (contentsV values).files g = ⟨fun key => ((values g).map (rowV key)).toList, none⟩ := rfl
    rw [hrun]
    cases values g with
    | none => exact deliveredRun_of_row (Nat.zero_le _) fun e he => by cases he
    | some n =>
      refine deliveredRun_of_row le_rfl fun e he => ?_
      obtain rfl := List.mem_singleton.mp he
      exact ⟨rfl, rfl⟩
  · intro g _ s hs
    cases hs
  · intro gc hgc
    cases hgc

end Values

namespace Published

variable {table : Published π} {policy : STCSPolicy}

/-- The older of two SSTables holds one, the newer two. -/
def tiedContents (f g : Nat) : TableContents :=
  contentsV fun x => if x = f then some 1 else if x = g then some 2 else none

omit [LinearOrder π] in
theorem tied_tiedContents {f g : Nat} (hf : f ∈ table.live) (hg : g ∈ table.live) (hne : f ≠ g) :
    table.Tied (tiedContents f g) none (cellV 2) (cellV 1) := by
  have hmem : ∀ x ∈ table.live, ∀ n, (if x = f then some 1 else if x = g then some 2 else none) =
      some n → cellV n ∈ (evidenceAt (tiedContents f g).schema
        (table.rows (tiedContents f g)) none).writes := by
    intro x hx n hn
    refine ⟨?_, rfl⟩
    rw [rows, groupCells_partitionRows]
    refine List.mem_flatMap.mpr ⟨x, hx, ?_⟩
    rw [tiedContents, cellsOf_contentsV, hn]
    simp
  have hlive : ∀ n now, ¬ CellDead now (cellV n) := by
    rintro n now (h | h)
    · cases h
    · cases now <;> simp [cellExpired, cellV, CellData.new] at h
  exact ⟨hmem g hg 2 (by simp [hne.symm]), hmem f hf 1 (by simp), rfl, rfl, hlive 2 _, hlive 1 _,
    by simp [cellV, CellData.new]⟩

/-- A newer SSTable that is not compacted, or after an older one, loses the tie. -/
theorem tie_lost {f g : Nat} (hf : f ∈ table.live) (hg : g ∈ table.live) (hfg : f < g)
    (hcf : table.Compacts policy f)
    (h : ¬ (table.Compacts policy g ∧ (table.metadata g).sortKey < (table.metadata f).sortKey)) :
    ¬ table.TiesKept policy (tiedContents f g) := by
  intro hkept
  have hholds : table.Holds (tiedContents f g) := holds_contentsV table
  have htied := tied_tiedContents hf hg hfg.ne
  have hck : none ∈ (table.rows (tiedContents f g)).map MergeEntry.clusteringKey :=
    List.mem_map.mpr ⟨rowV ⟨1, [1]⟩ 1, mem_rowsV.mpr ⟨f, hf, 1, by simp, rfl⟩, rfl⟩
  have hshows : Shows (.new (tiedContents f g).partitionKeys (tiedContents f g).schema
      (tiedContents f g).now) (cellV 2) :=
    ⟨by simp [ReadShadow.new, tiedContents, contentsV, cellV, CellData.new], rfl,
      fun t ht => nomatch ht⟩
  -- before the compaction the newer SSTable is read first
  have hbefore : cellV 2 ∈ table.readBefore (tiedContents f g) none := by
    refine (mem_readBefore hholds hck).mpr ⟨?_, hshows⟩
    obtain ⟨pre, post, hsplit⟩ := List.append_of_mem (mem_orderedGenerationPaths.mpr hg)
    have hsorted : (orderedGenerationPaths table.live).Pairwise (· ≥ ·) :=
      List.pairwise_insertionSort _ _
    rw [hsplit] at hsorted ⊢
    have hnodup : (pre ++ g :: post).Nodup := by
      rw [← hsplit]
      exact (List.perm_insertionSort _ _).nodup_iff.mpr table.nodup
    refine standing_contentsV (by simp [hfg.ne']) fun p hp => ?_
    have hpg := (List.pairwise_append.mp hsorted).2.2 p hp g (by simp)
    have hne : p ≠ g := by
      rintro rfl
      exact (List.nodup_append'.mp hnodup).2.2 hp (by simp)
    rw [if_neg (by omega), if_neg hne]
  have hafter := ((mem_readAfter hholds hck).mp
    (hkept none hck _ _ htied hbefore)).1
  -- in the compaction the older one is
  have hfirst : Standing (tiedContents f g).schema (partitionRows (tiedContents f g).files
      (table.selected policy ++ orderedGenerationPaths (table.outside policy))
      (tiedContents f g).key) none (cellV 1) := by
    obtain ⟨pre, post, hsplit⟩ := List.append_of_mem (mem_selected.mpr ⟨hf, hcf⟩)
    have hsorted := (table.selected_spec policy).2
    rw [hsplit] at hsorted
    rw [hsplit, List.append_assoc, List.cons_append]
    refine standing_contentsV (if_pos rfl) fun p hp => ?_
    have hlt := (List.pairwise_append.mp hsorted).2.2 p hp f (by simp)
    have hcp : table.Compacts policy p := (mem_selected.mp (by rw [hsplit]; simp [hp])).2
    rw [if_neg, if_neg]
    · rintro rfl
      exact h ⟨hcp, hlt⟩
    · rintro rfl
      exact lt_irrefl _ hlt
  have hstays := hholds.standing_after hck htied.rightLive hfirst
  have heq := hafter.wins.unique hstays.wins rfl
  simp [cellV, CellData.new] at heq

/-- For every content of the SSTables the compaction keeps the visible one of tied cells, and the
    policy lists the newest first, exactly if every SSTable newer than a compacted one is compacted
    too and is smaller. -/
theorem ties_kept_iff (table : Published π) (policy : STCSPolicy) :
    ((table.selected policy).Pairwise (· > ·) ∧
      ∀ c, table.Holds c → table.TiesKept policy c) ↔ table.NewerSmaller policy := by
  constructor
  · rintro ⟨-, hkept⟩ f hf hcf g hg hfg
    by_contra h
    exact tie_lost hf hg hfg hcf h (hkept _ (holds_contentsV table))
  · intro h
    refine ⟨h.ordered.1, fun c hc ck hck a b htied ha => ?_⟩
    exact h.read_kept hc hck htied.leftLive ha

/-- Generations one to four at these sizes. -/
def fourTables (size : Nat → Nat) : Published Nat where
  live := [1, 2, 3, 4]
  metadata g := ⟨g, size g⟩
  next := 5
  nodup := by decide
  paths _ _ _ _ h := h
  fresh := by decide

end Published

end Table

end Ties

namespace Published

/-- The oldest SSTable wins the tie when it is the smallest; with the sizes the other way round the
    newest does. -/
theorem smaller_wins :
    ¬ (fourTables fun g => g).TiesKept .default (tiedContents 1 4) ∧
      (fourTables fun g => 5 - g).TiesKept .default (tiedContents 1 4) := by
  refine ⟨tie_lost (by decide) (by decide) (by decide) (by decide +kernel) (by decide +kernel), ?_⟩
  have h : (fourTables fun g => 5 - g).NewerSmaller .default := by decide +kernel
  exact fun ck hck a b htied ha => h.read_kept (holds_contentsV _) hck htied.leftLive ha

end Published

end Cqlite
