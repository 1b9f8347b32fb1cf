import Cqlite.Merge.OpenRuns
import Cqlite.Merge.PurgeSafety
import Cqlite.Merge.StreamOutput

/-! What a compaction reads, what it drops unread, and what both do to the visible cells
    (`merge/fully_expired.rs`, `compute_max_purgeable_timestamp`, `maintenance_step_inner` up to
    `start_merge`).

    An SSTable is its entries by partition and its `Statistics.db`; the output of a compaction holds
    the merged partitions. -/

namespace Cqlite

/-! ### Statistics -/

/-- The fields of `TimestampStatistics` that decide. -/
structure TimestampStatistics where
  minTimestamp : Int
  maxTimestamp : Option Int
  maxDeletionTime : Int
  deriving DecidableEq, Repr

/-- A published SSTable; the statistics are missing when they cannot be read. -/
structure TableFile where
  rows : DecoratedKey → List MergeEntry
  stats : Option TimestampStatistics

def isFullyExpired (stats : TimestampStatistics) (gcBefore : Int) : Bool :=
  stats.maxDeletionTime < gcBefore

/-- `i64::MIN` stands for a maximum that was not recorded. -/
def authoritativeMaxTimestamp (stats : TimestampStatistics) : Option Int :=
  stats.maxTimestamp.filter (· ≠ i64Min)

/-- The smallest minimum timestamp of the files that count; unknown when one cannot be read. -/
def foldMinTimestamp (counts : TimestampStatistics → Bool) :
    List (Option TimestampStatistics) → Int → Option Int
  | [], bound => some bound
  | none :: _, _ => none
  | some s :: rest, bound =>
    foldMinTimestamp counts rest (if counts s then min bound s.minTimestamp else bound)

def computeMaxPurgeableTimestamp (outside : List (Option TimestampStatistics)) : Option Int :=
  if outside.isEmpty then none else foldMinTimestamp (fun _ => true) outside i64Max

/-! ### The drop set -/

/-- `classify_drop_set`. -/
def classifyDropSet (inputs : List (Nat × Option TimestampStatistics)) (outsideBound gcBefore : Int) :
    List Nat :=
  match foldMinTimestamp (fun s => !isFullyExpired s gcBefore) (inputs.map (·.2)) outsideBound with
  | none => []
  | some bound =>
    inputs.filterMap fun p =>
      p.2.bind fun s => (authoritativeMaxTimestamp s).bind fun newest =>
        if isFullyExpired s gcBefore && newest < bound then some p.1 else none

/-- `fully_expired_sstables`. -/
def fullyExpiredSstables (files : Nat → TableFile) (inputs outside : List Nat)
    (gcBefore : Option Int) : List Nat :=
  match gcBefore with
  | none => []
  | some gc =>
    let bound := if outside.isEmpty then some i64Max
      else computeMaxPurgeableTimestamp (outside.map fun g => (files g).stats)
    match bound with
    | none => []
    | some b => classifyDropSet (inputs.map fun g => (g, (files g).stats)) b gc

/-- `split_merge_and_dropped`: the merger gets one input even when all of them are dropped. -/
def splitMergeAndDropped (inputs dropSet : List Nat) : List Nat × List Nat :=
  let mergeInputs := inputs.filter (· ∉ dropSet)
  if mergeInputs.isEmpty then (dropSet.head?.toList, dropSet) else (mergeInputs, dropSet)

/-- The SSTables deleted after publication: the inputs, then the dropped ones not among them. -/
def reclaimed (inputs dropped : List Nat) : List Nat := inputs ++ dropped.filter (· ∉ inputs)

/-! ### A compaction -/

/-- What `maintenance_step_inner` hands to `start_merge`, with the clock it reads there. -/
structure Selection where
  schema : TableSchema
  selected : List Nat
  outside : List Nat
  gcBefore : Option Int
  now : Int

namespace Selection

variable (sel : Selection) (files : Nat → TableFile)

/-- Full when nothing is left out, bounded by what is left out otherwise. -/
def config : MergerConfig :=
  ⟨sel.schema, sel.outside.isEmpty, sel.gcBefore,
    if sel.outside.isEmpty then none
    else computeMaxPurgeableTimestamp (sel.outside.map fun g => (files g).stats), some sel.now⟩

def dropSet : List Nat := fullyExpiredSstables files sel.selected sel.outside sel.gcBefore

def mergeInputs : List Nat := (splitMergeAndDropped sel.selected (sel.dropSet files)).1

end Selection

/-- The entries that some SSTables hold of a partition. -/
def partitionRows (files : Nat → TableFile) (gens : List Nat) (key : DecoratedKey) :
    List MergeEntry := gens.flatMap fun g => (files g).rows key

variable {e : MergeEntry} {gens : List Nat} {a : CellData} {files : Nat → TableFile}

theorem mem_partitionRows {key : DecoratedKey} :
    e ∈ partitionRows files gens key ↔ ∃ g ∈ gens, e ∈ (files g).rows key :=
  List.mem_flatMap

theorem partitionRows_cons (files : Nat → TableFile) (g : Nat) (gens : List Nat) (key : DecoratedKey) :
    partitionRows files (g :: gens) key = (files g).rows key ++ partitionRows files gens key :=
  List.flatMap_cons

theorem partitionRows_append (files : Nat → TableFile) (a b : List Nat) (key : DecoratedKey) :
    partitionRows files (a ++ b) key = partitionRows files a key ++ partitionRows files b key :=
  List.flatMap_append

theorem partitionRows_mono {a b : List Nat} (h : ∀ g ∈ a, g ∈ b) {key : DecoratedKey} :
    ∀ e ∈ partitionRows files a key, e ∈ partitionRows files b key := by
  intro e he
  obtain ⟨g, hg, heg⟩ := mem_partitionRows.mp he
  exact mem_partitionRows.mpr ⟨g, h g hg, heg⟩

section Output

variable [DebugFmt] (sel : Selection) (files : Nat → TableFile) (key : DecoratedKey)

/-- The entries of a partition in the order in which the merger pops them. The heap goes by partition
    first, so the other partitions do not matter. -/
def Selection.segment : List MergeEntry :=
  popRuns sel.schema ((sel.mergeInputs files).map fun g => (files g).rows key)

/-- What the compaction writes for a partition: what it drains from the streaming merger. -/
def Selection.outputRows : List MergeEntry :=
  streamPartition (sel.config files) (sel.segment files key)

end Output

/-- How a reader merges what it finds: nothing is purged. -/
def readerConfig (schema : TableSchema) (now : Option Int) : MergerConfig :=
  ⟨schema, false, none, none, now⟩

/-! ### Honest statistics -/

/-- When a cell without tombstone stops being live. -/
def CellData.liveUntil (c : CellData) : Int :=
  match c.ttl, c.localDeletionTime with
  | some _, some ldt => asU32 ldt
  | _, _ => i64Max

/-- The times of the deletions an entry carries. -/
def MergeEntry.deletionTimes (e : MergeEntry) : List Int :=
  e.rowDeletions.map (·.1) ++ e.complexDeletions.map (·.markedForDeleteAt) ++
    e.rangeDeletion.toList.map (·.deletionTime) ++ e.partitionDeletion.toList.map (·.1)

/-- The statistics bound what the file holds. -/
structure TableFile.Honest (f : TableFile) (s : TimestampStatistics) (key : DecoratedKey) : Prop where
  cellMin : ∀ e ∈ f.rows key, ∀ c ∈ e.cells, isDataCell e.clusteringKey c = true →
    s.minTimestamp ≤ c.timestamp
  cellMax : ∀ e ∈ f.rows key, ∀ c ∈ e.cells, isDataCell e.clusteringKey c = true →
    ∀ m ∈ s.maxTimestamp, c.timestamp ≤ m
  cellLive : ∀ e ∈ f.rows key, ∀ c ∈ e.cells, isDataCell e.clusteringKey c = true →
    isCellTombstone c = false → c.liveUntil ≤ s.maxDeletionTime
  deletionMax : ∀ e ∈ f.rows key, ∀ t ∈ e.deletionTimes, ∀ m ∈ s.maxTimestamp, t ≤ m

/-- Every readable `Statistics.db` is honest about the partition. -/
def HonestStats (files : Nat → TableFile) (gens : List Nat) (key : DecoratedKey) : Prop :=
  ∀ g ∈ gens, ∀ s ∈ (files g).stats, (files g).Honest s key

/-! ### Specifications -/

/-- A known bound is at most the given one and the minimum of every file that counts. -/
theorem foldMinTimestamp_spec {counts : TimestampStatistics → Bool}
    {stats : List (Option TimestampStatistics)} {bound r : Int}
    (h : foldMinTimestamp counts stats bound = some r) :
    r ≤ bound ∧ ∀ o ∈ stats, ∃ s, o = some s ∧ (counts s = true → r ≤ s.minTimestamp) := by
  induction stats generalizing bound with
  | nil =>
    cases h
    exact ⟨le_rfl, fun o ho => by cases ho⟩
  | cons o rest ih =>
    cases o with
    | none => cases h
    | some s =>
      obtain ⟨hle, hrest⟩ := ih h
      refine ⟨?_, ?_⟩
      · split at hle
        · omega
        · exact hle
      · intro o ho
        rcases List.mem_cons.mp ho with rfl | ho
        · refine ⟨s, rfl, fun hc => ?_⟩
          rw [if_pos hc] at hle
          omega
        · exact hrest o ho

/-- A dropped SSTable: fully expired, and older than every other that is not fully expired. -/
structure Droppable (files : Nat → TableFile) (inputs outside : List Nat) (gc : Int) (g : Nat) :
    Prop where
  mem : g ∈ inputs
  older : ∃ s, (files g).stats = some s ∧ isFullyExpired s gc = true ∧
    ∃ newest ∈ s.maxTimestamp, (∀ o ∈ outside, ∃ s', (files o).stats = some s' ∧
        newest < s'.minTimestamp) ∧
      ∀ i ∈ inputs, ∃ s', (files i).stats = some s' ∧
        (isFullyExpired s' gc = true ∨ newest < s'.minTimestamp)

variable {g : Nat}

theorem droppable_of_mem {inputs outside : List Nat} {gcBefore : Option Int}
    (h : g ∈ fullyExpiredSstables files inputs outside gcBefore) :
    ∃ gc, gcBefore = some gc ∧ Droppable files inputs outside gc g := by
  unfold fullyExpiredSstables at h
  cases gcBefore with
  | none => cases h
  | some gc =>
    refine ⟨gc, rfl, ?_⟩
    simp only at h
    split at h
    · cases h
    · rename_i b hb
      -- the bound is at most the minimum of every SSTable outside
      have hout : ∀ o ∈ outside, ∃ s', (files o).stats = some s' ∧ b ≤ s'.minTimestamp := by
        intro o ho
        have hne : outside.isEmpty = false := by
          rw [← Bool.not_eq_true, List.isEmpty_iff]
          exact List.ne_nil_of_mem ho
        simp only [hne, Bool.false_eq_true, if_false, computeMaxPurgeableTimestamp,
          List.isEmpty_map] at hb
        obtain ⟨s', hs', hle⟩ := (foldMinTimestamp_spec hb).2 _ (List.mem_map_of_mem ho)
        exact ⟨s', hs', hle rfl⟩
      unfold classifyDropSet at h
      split at h
      · cases h
      · rename_i bound hbound
        obtain ⟨hle, hin⟩ := foldMinTimestamp_spec hbound
        obtain ⟨p, hp, hsome⟩ := List.mem_filterMap.mp h
        obtain ⟨g', hg', rfl⟩ := List.mem_map.mp hp
        obtain ⟨s, hs, hsome⟩ := Option.bind_eq_some_iff.mp hsome
        obtain ⟨newest, hnewest, hsome⟩ := Option.bind_eq_some_iff.mp hsome
        split at hsome
        · rename_i hcond
          obtain rfl : g' = g := by simpa using hsome
          rw [Bool.and_eq_true, decide_eq_true_eq] at hcond
          refine ⟨hg', s, hs, hcond.1, newest, (Option.filter_eq_some_iff.mp hnewest).1, ?_, ?_⟩
          · intro o ho
            obtain ⟨s', hs', hb'⟩ := hout o ho
            exact ⟨s', hs', by omega⟩
          · intro i hi
            obtain ⟨s', hs', himp⟩ := hin (files i).stats (List.mem_map.mpr
              ⟨(i, (files i).stats), List.mem_map_of_mem hi, rfl⟩)
            refine ⟨s', hs', ?_⟩
            cases hexp : isFullyExpired s' gc with
            | true => exact .inl rfl
            | false =>
              have := himp (by simp [hexp])
              exact .inr (by omega)
        · cases hsome

/-- The merge inputs and the dropped SSTables are the selected ones. -/
theorem mem_split {inputs dropSet : List Nat} (hsub : ∀ g ∈ dropSet, g ∈ inputs) :
    g ∈ inputs ↔ g ∈ (splitMergeAndDropped inputs dropSet).1 ∨ g ∈ dropSet := by
  unfold splitMergeAndDropped
  simp only
  split
  · rename_i hempty
    rw [List.isEmpty_iff, List.filter_eq_nil_iff] at hempty
    constructor
    · intro hg
      have := hempty g hg
      exact .inr (by simpa using this)
    · rintro (hg | hg)
      · refine hsub g ?_
        cases dropSet with
        | nil => cases hg
        | cons d ds =>
          simp only [List.head?_cons, Option.toList_some, List.mem_singleton] at hg
          simp [hg]
      · exact hsub g hg
  · constructor
    · intro hg
      by_cases hd : g ∈ dropSet
      · exact .inr hd
      · exact .inl (List.mem_filter.mpr ⟨hg, by simpa using hd⟩)
    · rintro (hg | hg)
      · exact (List.mem_filter.mp hg).1
      · exact hsub g hg

/-! ### Dropped SSTables hide nothing -/

theorem TableFile.Honest.dead {f : TableFile} {s : TimestampStatistics} {key : DecoratedKey}
    (h : f.Honest s key) {gc now : Int} (hexp : isFullyExpired s gc = true) (hgc : gc ≤ now)
    (hmax : gc ≤ i64Max) (he : e ∈ f.rows key) {c : CellData} (hc : c ∈ e.cells)
    (hdata : isDataCell e.clusteringKey c = true) : CellDead (some now) c := by
  cases htomb : isCellTombstone c with
  | true => exact .inl htomb
  | false =>
    refine .inr ?_
    have hlive := h.cellLive e he c hc hdata htomb
    simp only [isFullyExpired, decide_eq_true_eq] at hexp
    unfold CellData.liveUntil at hlive
    split at hlive
    · rename_i ttl ldt httl hldt
      have hle : asU32 ldt ≤ now := by omega
      simp [cellExpired, htomb, httl, hldt, hle]
    · omega

section Dropped

variable [DebugFmt] {cks : List ClusteringKey} {ranges : List RangeTombstone} {key : DecoratedKey}
  {sel : Selection} {files : Nat → TableFile} {ck : Option ClusteringKey}

/-- A data cell of a clustering key comes from an entry of one of the SSTables, and is a data cell
    there. -/
theorem exists_entry_of_write {schema : TableSchema} (hs : KeySpace schema cks ranges)
    (hin : EntriesIn cks ranges key (partitionRows files gens key)) (hck : ck ∈ optionalKeys cks)
    {c : CellData} (hc : c ∈ (evidenceAt schema (partitionRows files gens key) ck).writes) :
    ∃ g ∈ gens, ∃ e ∈ (files g).rows key, c ∈ e.cells ∧ isDataCell e.clusteringKey c = true := by
  obtain ⟨hcells, hdata⟩ := hc
  obtain ⟨e, he, hce⟩ := List.mem_flatMap.mp hcells
  obtain ⟨g, hg, heg⟩ := List.mem_flatMap.mp (of_mem_rowsAt he).1
  refine ⟨g, hg, e, heg, hce, ?_⟩
  rw [hin.isDataCell_rowsAt hs hck he]
  exact hdata

/-- A deletion that is not the drop of a column comes from an entry of one of the SSTables. -/
theorem exists_entry_of_delete {schema : TableSchema} {k : CellKey} {t : Int}
    (ht : DeletedAt schema (partitionRows files gens key) ck k t) :
    schema.droppedColumns k.1 = some t ∨
      ∃ g ∈ gens, ∃ e ∈ (files g).rows key, t ∈ e.deletionTimes := by
  have hentry : ∀ e ∈ partitionRows files gens key, t ∈ e.deletionTimes →
      ∃ g ∈ gens, ∃ e ∈ (files g).rows key, t ∈ e.deletionTimes := by
    intro e he hmem
    obtain ⟨g, hg, heg⟩ := List.mem_flatMap.mp he
    exact ⟨g, hg, e, heg, hmem⟩
  have hrow : ∀ e ∈ rowsAt (partitionRows files gens key) ck, e ∈ partitionRows files gens key :=
    fun e he => List.mem_of_mem_filter (List.mem_of_mem_filter he)
  cases ht with
  | partition d hd =>
    obtain ⟨e, he, hed⟩ := List.mem_filterMap.mp hd
    exact .inr (hentry e he (by simp [MergeEntry.deletionTimes, hed]))
  | range rt hrt hcov =>
    obtain ⟨e, he, hert⟩ := List.mem_filterMap.mp hrt
    exact .inr (hentry e (List.mem_of_mem_filter he) (by simp [MergeEntry.deletionTimes, hert]))
  | row d hd =>
    obtain ⟨e, he, hed⟩ := List.mem_flatMap.mp hd
    refine .inr (hentry e (hrow e he) ?_)
    simp only [MergeEntry.deletionTimes, List.mem_append]
    exact .inl (.inl (.inl (List.mem_map_of_mem hed)))
  | complex cd hcd hcol hpath =>
    obtain ⟨e, he, hecd⟩ := List.mem_flatMap.mp hcd
    refine .inr (hentry e (hrow e he) ?_)
    simp only [MergeEntry.deletionTimes, List.mem_append]
    exact .inl (.inl (.inr (List.mem_map_of_mem hecd)))
  | dropped t ht => exact .inl ht

/-- The clock of a compaction. -/
structure Selection.Clocked (sel : Selection) : Prop where
  before : ∀ gc ∈ sel.gcBefore, gc ≤ sel.now
  range : ∀ gc ∈ sel.gcBefore, gc ≤ i64Max

variable (hs : KeySpace sel.schema cks ranges) (hck : ck ∈ optionalKeys cks) (hclock : sel.Clocked)
  {gens dropped : List Nat} (hhonest : HonestStats files (sel.selected ++ sel.outside) key)
  (hdropped : ∀ g ∈ dropped, g ∈ sel.dropSet files)
  (hgens : ∀ g ∈ gens, g ∈ sel.selected ++ sel.outside)
  (hD : EntriesIn cks ranges key (partitionRows files dropped key))
  (hY : EntriesIn cks ranges key (partitionRows files gens key))

include hclock hhonest hdropped

include hs hck hD in
theorem dropped_dead {d : CellData}
    (hd : d ∈ (evidenceAt sel.schema (partitionRows files dropped key) ck).writes) :
    CellDead (some sel.now) d := by
  obtain ⟨g, hg, e, he, hce, hdata⟩ := exists_entry_of_write hs hD hck hd
  obtain ⟨gc, hgc, hmem, s, hstats, hexp, -⟩ := droppable_of_mem (hdropped g hg)
  exact (hhonest g (List.mem_append_left _ hmem) s hstats).dead hexp (hclock.before gc hgc)
    (hclock.range gc hgc) he hce hdata

include hgens

omit [DebugFmt] in
/-- A live cell elsewhere is newer than everything in a dropped SSTable. -/
theorem newer_than_dropped (hg : g ∈ dropped) {o : Nat} (ho : o ∈ gens)
    (he : e ∈ (files o).rows key) (ha : a ∈ e.cells) (hdata : isDataCell e.clusteringKey a = true)
    (halive : ¬ CellDead (some sel.now) a) :
    ∃ s, (files g).stats = some s ∧ ∃ m ∈ s.maxTimestamp, m < a.timestamp := by
  obtain ⟨gc, hgc, -, s, hstats, hexp, newest, hnewest, hout, hin⟩ :=
    droppable_of_mem (hdropped g hg)
  refine ⟨s, hstats, newest, hnewest, ?_⟩
  have hmem := hgens o ho
  have hold : ∃ s', (files o).stats = some s' ∧
      (isFullyExpired s' gc = true ∨ newest < s'.minTimestamp) := by
    rcases List.mem_append.mp hmem with hsel | hoth
    · exact hin o hsel
    · obtain ⟨s', hs', hlt⟩ := hout o hoth
      exact ⟨s', hs', .inr hlt⟩
  obtain ⟨s', hs', hcase⟩ := hold
  have hh := hhonest o hmem s' hs'
  rcases hcase with hexp' | hlt
  · exact absurd (hh.dead hexp' (hclock.before gc hgc) (hclock.range gc hgc) he ha hdata) halive
  · have := hh.cellMin e he a ha hdata
    omega

include hs hck hD hY

/-- What is live elsewhere and not of a dropped column outlasts the dropped SSTables. -/
theorem outlasts_dropped (ha : a ∈ (evidenceAt sel.schema (partitionRows files gens key) ck).writes)
    (halive : ¬ CellDead (some sel.now) a)
    (hcol : ∀ t, sel.schema.droppedColumns a.column = some t → t < a.timestamp) :
    (evidenceAt sel.schema (partitionRows files dropped key) ck).Outlasts
      (cellReading (some sel.now)) a := by
  obtain ⟨o, ho, e, he, hce, hdata⟩ := exists_entry_of_write hs hY hck ha
  refine ⟨?_, ?_⟩
  · intro d hd _
    obtain ⟨g, hg, e', he', hce', hdata'⟩ := exists_entry_of_write hs hD hck hd
    obtain ⟨s, hstats, m, hm, hlt⟩ :=
      newer_than_dropped hclock hhonest hdropped hgens hg ho he hce hdata halive
    have hmem := (droppable_of_mem (hdropped g hg)).choose_spec.2.mem
    have hle := (hhonest g (List.mem_append_left _ hmem) s hstats).cellMax e' he' d hce' hdata' m hm
    exact (cellRank_lt_of_timestamp_lt (lt_of_le_of_lt hle hlt)).le
  · intro t ht
    rcases exists_entry_of_delete ht with hcolumn | ⟨g, hg, e', he', hmem'⟩
    · exact hcol t hcolumn
    · obtain ⟨s, hstats, m, hm, hlt⟩ :=
        newer_than_dropped hclock hhonest hdropped hgens hg ho he hce hdata halive
      have hmem := (droppable_of_mem (hdropped g hg)).choose_spec.2.mem
      exact lt_of_le_of_lt
        ((hhonest g (List.mem_append_left _ hmem) s hstats).deletionMax e' he' t hmem' m hm) hlt

end Dropped

/-! ### The output in place of the selected SSTables -/

section Replaced

variable [DebugFmt] {cks : List ClusteringKey} {ranges : List RangeTombstone} {key : DecoratedKey}
  {sel : Selection} {files : Nat → TableFile} {ck : Option ClusteringKey} {now : Int}

/-- What a compaction forgets of a clustering key: what the merge lets go, and what the dropped
    SSTables hold. -/
def Selection.forgets (sel : Selection) (files : Nat → TableFile) (key : DecoratedKey)
    (ck : Option ClusteringKey) : Evidence CellData CellKey Int :=
  streamLostAt (sel.config files) key (sel.segment files key) ck ∪
    (evidenceAt sel.schema (partitionRows files (sel.dropSet files) key) ck).beyond
      (evidenceAt sel.schema [] ck)

/-- Nothing that the compaction writes is hidden by what it forgets: a live cell that outlasts the
    deletions popped in time for its row outlasts those as well. -/
def Selection.WritesNothingForgotten (sel : Selection) (files : Nat → TableFile)
    (key : DecoratedKey) (ck : Option ClusteringKey) : Prop :=
  ∀ a ∈ (evidenceAt sel.schema (sel.segment files key) ck).writes, ¬ CellDead (some sel.now) a →
    (evidenceAt sel.schema (inTime sel.schema key (sel.segment files key) ck) ck).Outlasts
      (cellReading none) a →
    (sel.forgets files key ck).Outlasts (cellReading none) a

theorem evidenceAt_segment : evidenceAt sel.schema (sel.segment files key) ck =
    evidenceAt sel.schema (partitionRows files (sel.mergeInputs files) key) ck := by
  rw [Selection.segment, evidenceAt_popRuns, partitionRows, List.flatMap_def]

omit [DebugFmt] in
theorem Selection.mem_selected :
    g ∈ sel.selected ↔ g ∈ sel.mergeInputs files ∨ g ∈ sel.dropSet files := by
  refine mem_split fun g hg => ?_
  obtain ⟨gc, -, hdrop⟩ := droppable_of_mem hg
  exact hdrop.mem

/-- The selected SSTables are the merge inputs and the dropped ones. -/
theorem evidenceAt_selected : evidenceAt sel.schema (partitionRows files sel.selected key) ck =
    evidenceAt sel.schema (partitionRows files (sel.mergeInputs files) key) ck ∪
      evidenceAt sel.schema (partitionRows files (sel.dropSet files) key) ck := by
  rw [← evidenceAt_append, ← partitionRows_append]
  refine evidenceAt_congr (fun e => ⟨?_, ?_⟩) ck
  · exact partitionRows_mono (fun g hg => List.mem_append.mpr (Selection.mem_selected.mp hg)) e
  · exact partitionRows_mono (fun g hg => Selection.mem_selected.mpr (List.mem_append.mp hg)) e

variable (hs : KeySpace sel.schema cks ranges) (hck : ck ∈ optionalKeys cks)
  (hin : EntriesIn cks ranges key (partitionRows files sel.selected key))
  (hruns : ∀ g ∈ sel.selected, DeliveredRun sel.schema ((files g).rows key))

include hin in
theorem entriesIn_segment : EntriesIn cks ranges key (sel.segment files key) := by
  refine entriesIn_popRuns ?_
  rw [← List.flatMap_def]
  exact hin.mono (partitionRows_mono fun g hg => Selection.mem_selected.mpr (.inl hg))

include hs hin hruns

theorem segmentInput_segment : SegmentInput sel.schema key (sel.segment files key) := by
  have hI : EntriesIn cks ranges key (partitionRows files (sel.mergeInputs files) key) :=
    hin.mono (partitionRows_mono fun g hg => Selection.mem_selected.mpr (.inl hg))
  rw [partitionRows, List.flatMap_def] at hI
  refine popRuns_input hs hI fun run hrun => ?_
  obtain ⟨g, hg, rfl⟩ := List.mem_map.mp hrun
  exact hruns g (Selection.mem_selected.mpr (.inl hg))

theorem entriesIn_output : EntriesIn cks ranges key (sel.outputRows files key) :=
  @entriesIn_stream _ (sel.config files) _ _ _ _ (entriesIn_segment hin) hs
    (segmentInput_segment hs hin hruns)

include hck

theorem output_drawn : Evidence.Drawn (cellReading none)
    (evidenceAt sel.schema (sel.outputRows files key) ck)
    (evidenceAt sel.schema (partitionRows files sel.selected key) ck) := by
  have hseg : EntriesIn cks ranges key (sel.segment files key) := entriesIn_segment hin
  have htime : EntriesIn cks ranges key (inTime sel.schema key (sel.segment files key) ck) :=
    entriesIn_inTime hseg ck
  have hout : OutputContent (sel.config files) (inTime sel.schema key (sel.segment files key) ck) ck :=
    htime.outputContent hs hck
  have hwrites : (evidenceAt sel.schema (sel.outputRows files key) ck).writes = _ :=
    @writes_stream _ (sel.config files) _ _ _ _ _ hseg hs (segmentInput_segment hs hin hruns) hck
  intro a ha
  rw [hwrites] at ha
  obtain ⟨c, hkept, hdata, -, rfl⟩ := (hout.cells a).mp ha
  cases hexp : cellExpired (sel.config files).settings.now c with
  | false =>
    refine .inl ?_
    have hc : c ∈ (evidenceAt sel.schema (inTime sel.schema key (sel.segment files key) ck) ck).writes :=
      ⟨hkept.unshadowed.wins.mem, hdata⟩
    rw [writes_inTime, evidenceAt_segment] at hc
    rw [expireCell, if_neg (by simp [hexp]), evidenceAt_selected]
    exact .inl hc
  | true =>
    refine .inr fun b halive heq => halive (.inl ?_)
    rw [expireCell, if_pos hexp] at heq
    have htomb : isCellTombstone b = isCellTombstone (expiredTombstone c) :=
      congrArg (fun r => (ofLex r).2) heq
    rw [htomb]
    simp [isCellTombstone, expiredTombstone]

variable (hclock : sel.Clocked) (hnow : sel.now ≤ now)
  (hhonest : HonestStats files (sel.selected ++ sel.outside) key)
  (hties : (evidenceAt sel.schema (partitionRows files sel.selected key) ck).NoTies
    (cellReading (some sel.now))) (hwrites : sel.WritesNothingForgotten files key ck)

include hclock hnow hhonest hties hwrites

/-- Next to anything that outlasts what the compaction forgot, the output shows what the selected
    SSTables showed. -/
theorem output_agrees : Evidence.AgreeBeyond (cellReading (some now)) (sel.forgets files key ck)
    (evidenceAt sel.schema (sel.outputRows files key) ck)
    (evidenceAt sel.schema (partitionRows files sel.selected key) ck) := by
  have hI : EntriesIn cks ranges key (partitionRows files (sel.mergeInputs files) key) :=
    hin.mono (partitionRows_mono fun g hg => Selection.mem_selected.mpr (.inl hg))
  have hD : EntriesIn cks ranges key (partitionRows files (sel.dropSet files) key) :=
    hin.mono (partitionRows_mono fun g hg => Selection.mem_selected.mpr (.inr hg))
  have hseg : EntriesIn cks ranges key (sel.segment files key) := entriesIn_segment hin
  have hsegin := segmentInput_segment hs hin hruns
  have htiesI : (evidenceAt sel.schema (sel.segment files key) ck).NoTies
      (cellReading (some sel.now)) := by
    rw [evidenceAt_selected, ← evidenceAt_segment] at hties
    exact fun a ha b hb => hties a (.inl ha) b (.inl hb)
  have hsum : Evidence.Summarizes (cellReading (some sel.now))
      (evidenceAt sel.schema (sel.outputRows files key) ck)
      (evidenceAt sel.schema (sel.segment files key) ck)
      (streamLostAt (sel.config files) key (sel.segment files key) ck) :=
    @summarizes_stream _ (sel.config files) _ _ _ _ _ hseg hs hsegin hck htiesI
  rw [evidenceAt_segment] at hsum
  have hdropped : ∀ g ∈ sel.dropSet files, g ∈ sel.dropSet files := fun g hg => hg
  rw [Selection.forgets, evidenceAt_selected]
  refine hsum.agreeBeyond (cellReading_ages hnow) (evidenceAt_bounded _ _ _ _) ?_ ?_ ?_ ?_
  · intro a ha halive
    have halive' : ¬ CellDead (some sel.now) a := fun hd => halive (cellDead_ages hnow hd)
    obtain ⟨hmem, hout⟩ := @of_stream_alive _ (sel.config files) _ _ _ _ _ hseg hs hsegin hck _ ha halive'
    have hage := cellReading_ages_none
    have hforgets := hwrites a hmem halive' ((hage _).outlasts_iff.mp hout)
    exact (hage _).outlasts_iff.mpr (Evidence.outlasts_union.mp hforgets).1
  · exact fun d hd => cellDead_ages hnow (dropped_dead hs hck hclock hhonest hdropped hD hd)
  · intro a ha halive hund
    refine (cellReading_ages hnow).outlasts_iff.mpr ?_
    refine outlasts_dropped hs hck hclock hhonest hdropped ?_ hD hI ha
      (fun hd => halive (cellDead_ages hnow hd)) fun t ht => hund t (.dropped t ht)
    exact fun g hg => List.mem_append_left _ (Selection.mem_selected.mpr (.inl hg))
  · exact fun k t ht => deletedAt_mono (fun e he => by cases he) ht

end Replaced

end Cqlite
