import Cqlite.Engine.BudgetPauses
import Cqlite.Merge.StreamRefines

/-! Streaming rows directly (`start_merge`'s gate and `ActiveMerge::stream_rows_directly`).

    Without deletions in any input the rows of a partition go straight to the writer instead of being
    buffered until its end. The gate reads the inputs' `Statistics.db`; parsing that file is outside
    the model, its decoded fields are given. -/

namespace Cqlite

/-! ### The gate -/

/-- `i32::MAX`, the local deletion time that stands for "no deletion". -/
def noDeletionTime : Int := 2 ^ 31 - 1

/-- What is decoded from a `Statistics.db`: the minimal local deletion time and the tombstone
    drop-time histogram, which may fail to decode on its own. -/
structure InputStatistics where
  minDeletionTime : Int
  tombstoneDropTimes : Option (List Int)

/-- One input of a compaction. The statistics are absent when the file is missing or unreadable. -/
structure CompactionInput where
  entries : List MergeEntry
  statistics : Option InputStatistics

namespace InputStatistics

/-- An undecodable histogram counts as a tombstone. -/
def hasTombstone (s : InputStatistics) : Bool :=
  match s.tombstoneDropTimes with
  | some times => !times.isEmpty
  | none => true

/-- What one input contributes to the baseline. -/
def lowerBaseline (baseline : Int) (s : InputStatistics) : Int :=
  if s.hasTombstone then min baseline (asI32 s.minDeletionTime) else baseline

/-- The statistics the writer collects from the deletion times it meets
    (`update_local_deletion_time`, `finalize`): the "no deletion" time is not recorded. -/
def ofDeletionTimes (times : List Int) : InputStatistics :=
  let recorded := times.filter (· != noDeletionTime)
  ⟨(recorded.min?).getD 0, some recorded⟩

end InputStatistics

/-- The local-deletion-time part of `compute_baseline_min`; an input without statistics is skipped. -/
def baselineMinLdt (inputs : List CompactionInput) : Int :=
  (inputs.filterMap (·.statistics)).foldl InputStatistics.lowerBaseline noDeletionTime

def allInputStatsReadable (inputs : List CompactionInput) : Bool :=
  inputs.all (·.statistics.isSome)

/-- The gate of `start_merge`. -/
def noDeletionsInAnyInput (inputs : List CompactionInput) : Bool :=
  baselineMinLdt inputs == noDeletionTime && allInputStatsReadable inputs

def ActiveMerge.start (inputs : List CompactionInput) : ActiveMerge :=
  ⟨.ofRuns (inputs.map (·.entries)), none, []⟩

def DrainConfig.direct (env : DrainConfig) : DrainConfig := { env with streamRowsDirectly := true }

def DrainConfig.buffered (env : DrainConfig) : DrainConfig := { env with streamRowsDirectly := false }

/-- The statistics of an input show its partition deletions and range tombstones. -/
def CompactionInput.RecordsDeletions (input : CompactionInput) : Prop :=
  (∃ e ∈ input.entries, ¬ Plain e) → ∀ s ∈ input.statistics,
    s.hasTombstone = true ∧ asI32 s.minDeletionTime < noDeletionTime

theorem foldl_lowerBaseline_le (stats : List InputStatistics) (baseline : Int) :
    stats.foldl InputStatistics.lowerBaseline baseline ≤ baseline := by
  induction stats generalizing baseline with
  | nil => exact Int.le_refl _
  | cons s stats ih =>
    refine Int.le_trans (ih _) ?_
    unfold InputStatistics.lowerBaseline
    split
    · exact Int.min_le_left ..
    · exact Int.le_refl _

theorem foldl_lowerBaseline_le_of_mem {stats : List InputStatistics} {s : InputStatistics}
    (hs : s ∈ stats) (ht : s.hasTombstone = true) (baseline : Int) :
    stats.foldl InputStatistics.lowerBaseline baseline ≤ asI32 s.minDeletionTime := by
  induction stats generalizing baseline with
  | nil => cases hs
  | cons a stats ih =>
    rcases List.mem_cons.mp hs with rfl | hs
    · refine Int.le_trans (foldl_lowerBaseline_le stats _) ?_
      rw [InputStatistics.lowerBaseline, if_pos ht]
      exact Int.min_le_right ..
    · exact ih hs _

theorem plain_of_noDeletionsInAnyInput {inputs : List CompactionInput}
    (hrec : ∀ input ∈ inputs, input.RecordsDeletions) (hgate : noDeletionsInAnyInput inputs = true) :
    ∀ e ∈ (inputs.map (·.entries)).flatten, Plain e := by
  simp only [noDeletionsInAnyInput, Bool.and_eq_true, beq_iff_eq] at hgate
  obtain ⟨hbase, hread⟩ := hgate
  intro e he
  obtain ⟨entries, hentries, he⟩ := List.mem_flatten.mp he
  obtain ⟨input, hinput, rfl⟩ := List.mem_map.mp hentries
  by_contra hplain
  obtain ⟨s, hs⟩ := Option.isSome_iff_exists.mp (List.all_eq_true.mp hread input hinput)
  obtain ⟨ht, hlt⟩ := hrec input hinput ⟨e, he, hplain⟩ s hs
  have hle : baselineMinLdt inputs ≤ asI32 s.minDeletionTime :=
    foldl_lowerBaseline_le_of_mem (List.mem_filterMap.mpr ⟨input, hinput, hs⟩) ht noDeletionTime
  omega

/-! ### Playing a sequence of steps -/

/-- What the loop does with a known sequence of steps when the writer refuses nothing. -/
def playSteps (env : DrainConfig) : PartitionStreamState → List WriterCall → List StreamingStep →
    DrainStatus × List WriterCall
  | _, log, [] => (.complete, log)
  | st, log, .clusterGroup key row :: steps =>
    if row.isMetadataOnlyNoOp then playSteps env st log steps
    else
      match mergeEntryToMutation env.fromBytes row with
      | .error e => (.failed (.conversion e), log)
      | .ok m =>
        match env.acceptMutation (some key) st m with
        | .error e => (.failed e, log)
        | .ok (st, calls) => playSteps env st (log ++ calls) steps
  | st, log, .partitionEnd key :: steps =>
    playSteps env .fresh (log ++ env.closePartition key st) steps
  | _, log, .complete :: _ => (.complete, log)

theorem issue_no_fault (log calls : List WriterCall) :
    issue (fun _ => none) log calls = (none, log ++ calls) := by
  induction calls generalizing log with
  | nil => rw [List.append_nil]; rfl
  | cons call calls ih =>
    rw [issue]
    simp only
    rw [ih, List.append_assoc]
    rfl

variable {cfg : MergerConfig} {n : Nat} {m : Mutation}

section Play

variable [DebugFmt] {env : DrainConfig}

variable {steps : List StreamingStep}

theorem StreamDrains.restart {size : MergeEntry → Nat} {sm : StreamingMerger}
    (hkey : sm.partitionKey = none) (hp : sm.state.pendingRows = [])
    (h : StreamDrains cfg size sm steps) :
    StreamDrains cfg size (.resume sm.merger none) steps := by
  obtain ⟨m, partitionKey, c⟩ := sm
  simp only at hkey hp
  subst hkey
  change StreamDrains cfg size ⟨m, none, .fresh⟩ steps
  cases hens : ensureHeap size m with
  | mk verdict m₁ =>
    cases verdict with
    | error x =>
      have hold : StreamingMerger.stepStreaming cfg size ⟨m, none, c⟩ =
          (.error (.read x), ⟨m₁, none, c⟩) := by simp [StreamingMerger.stepStreaming, hp, hens]
      cases h <;> rename_i h' <;> rw [hold] at h' <;> cases h'
    | ok u =>
      cases hpop : popMin cfg.schema m₁.heap with
      | none =>
        have hstep : ∀ c' : Checkpoint, c'.pendingRows = [] →
            StreamingMerger.stepStreaming cfg size ⟨m, none, c'⟩ = (.ok .complete, ⟨m₁, none, c'⟩) :=
          fun c' hc' => by simp [StreamingMerger.stepStreaming, hc', hens, hpop]
        have hold := hstep c hp
        cases h with
        | complete _ => exact .complete (hstep .fresh rfl)
        | group h' _ => rw [hold] at h'; cases h'
        | partitionEnd h' _ => rw [hold] at h'; cases h'
      | some p =>
        have hstep : ∀ c' : Checkpoint, c'.pendingRows = [] →
            StreamingMerger.stepStreaming cfg size ⟨m, none, c'⟩ =
              StreamingMerger.pullLoop cfg size p.1.key m₁ .fresh :=
          fun c' hc' => by simp [StreamingMerger.stepStreaming, hc', hens, hpop]
        exact .of_step_eq ((hstep .fresh rfl).trans (hstep c hp).symm) h

theorem drainLoop_eq_playSteps {ls : LoopState} (hls : ls.Consistent)
    (h : StreamDrains env.merger env.size ls.stream steps) (hn : steps.length < n) :
    ((drainLoop env (fun _ => none) n ls).1, (drainLoop env (fun _ => none) n ls).2.log) =
      playSteps env ls.state ls.log steps := by
  induction steps generalizing ls n with
  | nil =>
    obtain ⟨n, rfl⟩ : ∃ k, n = k + 1 := ⟨n - 1, by omega⟩
    cases h with
    | complete hstep => simp only [drainLoop, increment, hstep, playSteps]
  | cons step steps ih =>
    obtain ⟨n, rfl⟩ : ∃ k, n = k + 1 := ⟨n - 1, by omega⟩
    rw [List.length_cons, Nat.add_lt_add_iff_right] at hn
    rw [drainLoop]
    cases h with
    | @group _ sm key row _ hstep hrest =>
      obtain ⟨hafter, hopen⟩ := hls.open_key hstep
      have hkey : ls.keyForOpen.or sm.partitionKey = some key := by
        cases hk : ls.keyForOpen with
        | none => exact hafter
        | some k => rw [hopen k hk]; rfl
      have hinc : increment env (fun _ => none) ls =
          if row.isMetadataOnlyNoOp then .next { ls with stream := sm }
          else acceptRow env (fun _ => none) ls sm row := by
        simp only [increment, hstep]
      rw [playSteps]
      split at hinc
      · rw [if_pos ‹_›, hinc]
        exact ih (hls.increment hinc) hrest hn
      · rw [if_neg ‹_›]
        unfold acceptRow at hinc
        rw [hkey] at hinc
        cases hconv : mergeEntryToMutation env.fromBytes row with
        | error e => rw [hconv] at hinc; rw [hinc]
        | ok m =>
          rw [hconv] at hinc
          simp only at hinc ⊢
          cases hacc : env.acceptMutation (some key) ls.state m with
          | error e => rw [hacc] at hinc; rw [hinc]
          | ok accepted =>
            obtain ⟨state, calls⟩ := accepted
            rw [hacc] at hinc
            simp only [issue_no_fault] at hinc
            rw [hinc]
            exact ih (hls.increment hinc) hrest hn
    | @partitionEnd _ sm key _ hstep hrest =>
      obtain ⟨hs, -⟩ | ⟨k, ⟨-, hkey, hpending⟩, -⟩ := StreamingMerger.stepStreaming_shape hstep
      · cases hs
      have hinc : increment env (fun _ => none) ls =
          .next ⟨.resume sm.merger none, none, .fresh,
            ls.log ++ env.closePartition key ls.state⟩ := by
        simp only [increment, hstep, endOfPartition, issue_no_fault]
      rw [playSteps, hinc]
      exact ih (hls.increment hinc) (hrest.restart hkey hpending) hn

end Play

/-! ### Direct and buffered partitions -/

/-- Same verdict, and the same calls when it is a success. -/
def SameEnd (a b : DrainStatus × List WriterCall) : Prop := a.1 = b.1 ∧ (a.1 = .complete → a.2 = b.2)

/-- No row and no deletion so far. -/
structure PartitionStreamState.Unopened (st : PartitionStreamState) : Prop where
  tombstone : st.partitionTombstone = none
  ranges : st.rangeTombstones = []
  rows : st.bufferedRows = []
  session : st.directSession = false

/-- The direct path has already written what the buffered path holds back. -/
structure Ahead (hasStatic : Bool) (key : DecoratedKey) (d b : PartitionStreamState)
    (dlog blog : List WriterCall) : Prop where
  session : d.directSession = true
  unopened : b.directSession = false
  rows : b.bufferedRows ≠ []
  tombstone : b.partitionTombstone = none
  ranges : b.rangeTombstones = []
  folded : d.folded = b.folded
  log : dlog = blog ++ (b.openCalls hasStatic key none [] ++ b.bufferedRows.map .row)

/-- A mutation without partition deletion and range tombstones. -/
structure Mutation.IsRow (m : Mutation) : Prop where
  partitionOnly : m.isPartitionOnly = false
  rangeOnly : m.isRangeOnly = false

theorem isRow_of_plain {fromBytes : Bytes → Except Error PartitionKey} {e : MergeEntry}
    (he : Plain e) (h : mergeEntryToMutation fromBytes e = .ok m) :
    m.IsRow ∧ m.clusteringKey = e.clusteringKey := by
  unfold mergeEntryToMutation at h
  cases hb : fromBytes e.key.key with
  | error x => rw [hb] at h; cases h
  | ok pk =>
    rw [hb] at h
    simp only [he.1] at h
    cases h
    exact ⟨⟨by simp [Mutation.isPartitionOnly, rowMutation],
      by simp [Mutation.isRangeOnly, rowMutation, he.2]⟩, rfl⟩

/-- Static rows come first. -/
def StaticFirst (hasStatic : Bool) (rows : List MergeEntry) : Prop :=
  hasStatic = true → rows.Pairwise fun a b => b.clusteringKey = none → a.clusteringKey = none

section Paths

variable {env : DrainConfig} {key : DecoratedKey}

theorem acceptMutation_row (hm : m.IsRow) (st : PartitionStreamState) :
    env.acceptMutation (some key) st m =
      if m.clusteringKey.isNone && env.schemaHasStatic then .ok ((st.foldStats m).acceptStatic m, [])
      else env.feedRow (some key) (st.foldStats m) m := by
  simp only [DrainConfig.acceptMutation, hm.partitionOnly, hm.rangeOnly, Bool.false_eq_true,
    if_false]

variable {b d : PartitionStreamState} {blog dlog : List WriterCall}

/-- A row on the direct path, once the session is open, keeps it ahead. -/
theorem Ahead.feed (h : Ahead env.schemaHasStatic key d b dlog blog) (m : Mutation) :
    ∃ d' b' calls, env.direct.feedRow (some key) (d.foldStats m) m = .ok (d', calls) ∧
      env.buffered.feedRow (some key) (b.foldStats m) m = .ok (b', []) ∧
      Ahead env.schemaHasStatic key d' b' (dlog ++ calls) blog := by
  refine ⟨d.foldStats m, { b.foldStats m with bufferedRows := b.bufferedRows ++ [m] }, [.row m],
    ?_, ?_, ?_⟩
  · simp [DrainConfig.feedRow, DrainConfig.direct, PartitionStreamState.foldStats, h.session]
  · simp [DrainConfig.feedRow, DrainConfig.buffered, PartitionStreamState.foldStats]
  · refine ⟨h.session, h.unopened, by simp, h.tombstone, h.ranges, ?_, ?_⟩
    · simp [PartitionStreamState.foldStats, h.folded]
    · simp [h.log, PartitionStreamState.openCalls, PartitionStreamState.foldStats]

theorem PartitionStreamState.Unopened.feed (env : DrainConfig) (key : DecoratedKey) {st : PartitionStreamState} (h : st.Unopened)
    (log : List WriterCall) (m : Mutation) :
    ∃ d b calls, env.direct.feedRow (some key) (st.foldStats m) m = .ok (d, calls) ∧
      env.buffered.feedRow (some key) (st.foldStats m) m = .ok (b, []) ∧
      Ahead env.schemaHasStatic key d b (log ++ calls) log := by
  refine ⟨{ st.foldStats m with
      directSession := true, statics := if env.schemaHasStatic then [] else st.statics },
    { st.foldStats m with bufferedRows := [m] },
    st.openCalls env.schemaHasStatic key none [] ++ [.row m], ?_, ?_, ?_⟩
  · simp [DrainConfig.feedRow, DrainConfig.direct, foldStats, h.session, openCalls]
  · simp [DrainConfig.feedRow, DrainConfig.buffered, foldStats, h.rows]
  · refine ⟨rfl, h.session, by simp, h.tombstone, h.ranges, rfl, ?_⟩
    simp [openCalls, foldStats]

theorem Ahead.close (h : Ahead env.schemaHasStatic key d b dlog blog) :
    dlog ++ env.direct.closePartition key d = blog ++ env.buffered.closePartition key b := by
  have hrows : b.bufferedRows.isEmpty = false := by simpa using h.rows
  simp only [DrainConfig.closePartition, DrainConfig.direct, DrainConfig.buffered, h.session,
    h.unopened, hrows, h.tombstone, h.ranges, h.folded, h.log, if_true, Bool.false_eq_true, if_false,
    Bool.not_false, Bool.true_or, List.append_assoc]

theorem partitionSteps_cons (e : MergeEntry) (rows : List MergeEntry) (steps : List StreamingStep) :
    partitionSteps key (e :: rows) ++ steps =
      .clusterGroup key e :: (partitionSteps key rows ++ steps) := rfl

variable {steps : List StreamingStep}

theorem playSteps_ahead
    (hrest : ∀ log, SameEnd (playSteps env.direct .fresh log steps)
      (playSteps env.buffered .fresh log steps)) {rows : List MergeEntry}
    (hplain : ∀ e ∈ rows, Plain e)
    (hrows : env.schemaHasStatic = true → ∀ e ∈ rows, e.clusteringKey ≠ none)
    {d b : PartitionStreamState} {dlog blog : List WriterCall}
    (h : Ahead env.schemaHasStatic key d b dlog blog) :
    SameEnd (playSteps env.direct d dlog (partitionSteps key rows ++ steps))
      (playSteps env.buffered b blog (partitionSteps key rows ++ steps)) := by
  induction rows generalizing d b dlog blog with
  | nil =>
    simp only [partitionSteps, List.map_nil, List.nil_append, List.singleton_append, playSteps,
      h.close]
    exact hrest _
  | cons e rows ih =>
    have ih := @ih (fun x hx => hplain x (List.mem_cons_of_mem _ hx))
      (fun hs x hx => hrows hs x (List.mem_cons_of_mem _ hx))
    rw [partitionSteps_cons, playSteps, playSteps]
    rw [show env.direct.fromBytes = env.fromBytes from rfl,
      show env.buffered.fromBytes = env.fromBytes from rfl]
    split
    · exact ih h
    · cases hconv : mergeEntryToMutation env.fromBytes e with
      | error x => exact ⟨rfl, fun hc => (nomatch hc)⟩
      | ok m =>
        obtain ⟨hm, hck⟩ := isRow_of_plain (hplain e (by simp)) hconv
        have hstatic : (m.clusteringKey.isNone && env.schemaHasStatic) = false := by
          cases hs : env.schemaHasStatic with
          | false => rw [Bool.and_false]
          | true =>
            have hsome := hrows hs e (by simp)
            rw [← hck, ← Option.isSome_iff_ne_none] at hsome
            simpa using hsome
        obtain ⟨d', b', calls, hd, hb, hahead⟩ := h.feed m
        simp only
        rw [acceptMutation_row hm, acceptMutation_row hm,
          show env.direct.schemaHasStatic = env.schemaHasStatic from rfl,
          show env.buffered.schemaHasStatic = env.schemaHasStatic from rfl, hstatic]
        simp only [Bool.false_eq_true, if_false, hd, hb, List.append_nil]
        exact ih hahead

theorem playSteps_partition
    (hrest : ∀ log, SameEnd (playSteps env.direct .fresh log steps)
      (playSteps env.buffered .fresh log steps)) {rows : List MergeEntry}
    (hplain : ∀ e ∈ rows, Plain e) (hfirst : StaticFirst env.schemaHasStatic rows)
    {st : PartitionStreamState} (h : st.Unopened) (log : List WriterCall) :
    SameEnd (playSteps env.direct st log (partitionSteps key rows ++ steps))
      (playSteps env.buffered st log (partitionSteps key rows ++ steps)) := by
  induction rows generalizing st with
  | nil =>
    have hclose : env.direct.closePartition key st = env.buffered.closePartition key st := by
      simp only [DrainConfig.closePartition, DrainConfig.direct, DrainConfig.buffered]
    simp only [partitionSteps, List.map_nil, List.nil_append, List.singleton_append, playSteps,
      hclose]
    exact hrest _
  | cons e rows ih =>
    have hplain' : ∀ x ∈ rows, Plain x := fun x hx => hplain x (List.mem_cons_of_mem _ hx)
    have ih := @ih hplain' (fun hs => (List.pairwise_cons.mp (hfirst hs)).2)
    rw [partitionSteps_cons, playSteps, playSteps]
    rw [show env.direct.fromBytes = env.fromBytes from rfl,
      show env.buffered.fromBytes = env.fromBytes from rfl]
    split
    · exact ih h
    · cases hconv : mergeEntryToMutation env.fromBytes e with
      | error x => exact ⟨rfl, fun hc => (nomatch hc)⟩
      | ok m =>
        obtain ⟨hm, hck⟩ := isRow_of_plain (hplain e (by simp)) hconv
        simp only
        rw [acceptMutation_row hm, acceptMutation_row hm,
          show env.direct.schemaHasStatic = env.schemaHasStatic from rfl,
          show env.buffered.schemaHasStatic = env.schemaHasStatic from rfl]
        cases hstatic : m.clusteringKey.isNone && env.schemaHasStatic with
        | true =>
          simp only [if_true, List.append_nil]
          exact ih ⟨h.tombstone, h.ranges, h.rows, h.session⟩
        | false =>
          obtain ⟨d, b, calls, hd, hb, hopen⟩ := h.feed env key log m
          simp only [Bool.false_eq_true, if_false, hd, hb, List.append_nil]
          refine playSteps_ahead hrest hplain' (fun hs x hx hnone => ?_) hopen
          have hck' := (List.pairwise_cons.mp (hfirst hs)).1 x hx hnone
          rw [hck, hck', hs] at hstatic
          cases hstatic

end Paths

/-! ### The whole merge -/

section Merge

variable [DebugFmt] {env : DrainConfig} {runs : List (List MergeEntry)}

/-- A partition without deletions yields plain rows, the static row first. -/
theorem streamPartition_plain {key : DecoratedKey} {seg : List MergeEntry}
    (h : SegmentInput cfg.schema key seg) (hplain : ∀ e ∈ seg, Plain e) :
    (∀ e ∈ streamPartition cfg seg, Plain e) ∧
      (streamPartition cfg seg).Pairwise fun a b => b.clusteringKey = none → a.clusteringKey = none := by
  have hranges : partitionRanges seg = [] := by
    rw [partitionRanges, List.filterMap_eq_nil_iff]
    exact fun e he => (hplain e (List.mem_of_mem_filter he)).2
  have hdeletions : partitionDeletions seg = [] :=
    List.filterMap_eq_nil_iff.mpr fun e he => (hplain e he).1
  have hcarriers : rangeCarriers cfg key seg = [] := by
    simp [rangeCarriers, shadowRanges, hranges, coalescePartitionRangeTombstones, retainRanges]
  have hdeletion : partitionCarrier cfg key seg = none := by
    simp [partitionCarrier, maxPartitionDeletion, hdeletions, emitPartitionDeletion, Lww.latest]
  obtain ⟨carriers, ⟨hsame, -⟩, hout⟩ := streamPartition_eq h
  rw [hcarriers, List.forall₂_nil_right_iff] at hsame
  rw [hdeletion, hsame, Option.toList_none, List.nil_append, List.append_nil] at hout
  rw [hout]
  refine ⟨fun e he => ?_, (schemaRows_sorted h _ _).imp fun {a b} hab hb => ?_⟩
  · obtain ⟨cluster, hc, hrow⟩ := List.mem_filterMap.mp he
    exact (flushRow_row h hc hrow).2
  · exact none_of_rowCmp (by rw [hab]; simp) hb

/-- The partitions of a merge without deletions, written directly or buffered. -/
theorem playSteps_same {cfg : MergerConfig} {groups : List (DecoratedKey × List MergeEntry)}
    (h : ∀ g ∈ groups, SegmentInput cfg.schema g.1 g.2 ∧ ∀ e ∈ g.2, Plain e)
    (log : List WriterCall) :
    SameEnd
      (playSteps env.direct .fresh log
        (groups.flatMap fun g => partitionSteps g.1 (streamPartition cfg g.2)))
      (playSteps env.buffered .fresh log
        (groups.flatMap fun g => partitionSteps g.1 (streamPartition cfg g.2))) := by
  induction groups generalizing log with
  | nil => exact ⟨rfl, fun _ => rfl⟩
  | cons g groups ih =>
    rw [List.flatMap_cons]
    obtain ⟨hseg, hplain⟩ := h g (by simp)
    obtain ⟨hrows, hfirst⟩ := streamPartition_plain hseg hplain
    exact playSteps_partition (ih fun x hx => h x (List.mem_cons_of_mem _ hx)) hrows
      (fun _ => hfirst) ⟨rfl, rfl, rfl, rfl⟩ log

/-- The steps of the stream over whole runs. -/
def streamSteps (cfg : MergerConfig) (runs : List (List MergeEntry)) : List StreamingStep :=
  (segments (popOrder cfg.schema runs)).flatMap fun g => partitionSteps g.1 (streamPartition cfg g.2)

variable (env) in
/-- The merge of well-formed runs plays the stream of its segments. -/
theorem drainCall_eq_playSteps (h : RunsInput env.merger.schema runs)
    (hn : (streamSteps env.merger runs).length < n) :
    ((drainCall env (fun _ => none) n ⟨.ofRuns runs, none, []⟩).1,
      (drainCall env (fun _ => none) n ⟨.ofRuns runs, none, []⟩).2.log) =
      playSteps env .fresh [] (streamSteps env.merger runs) :=
  drainLoop_eq_playSteps (ActiveMerge.resume_consistent ⟨.ofRuns runs, none, []⟩)
    (streamDrains_of_ready h.indexed (ready_ofRuns env.size runs) (KWay.inv_start h.indexed) rfl) hn

/-- Pausing after any increments leaves the writer calls as they are, every schedule with enough
    budget ends like one unpaused call, and the direct path writes what the buffered path would when
    the statistics that select it show the deletions of their inputs. -/
theorem budget_pauses_keep_output (env : DrainConfig) (inputs : List CompactionInput) :
    (∀ fault am budgets,
      drainCalls env fault budgets am = drainCall env fault budgets.sum am) ∧
    (∀ fault am, ∃ n, (drainCall env fault n am).1 ≠ .paused ∧
      ∀ budgets, n ≤ budgets.sum → drainCalls env fault budgets am = drainCall env fault n am) ∧
    (RunsInput env.merger.schema (inputs.map (·.entries)) →
      (∀ input ∈ inputs, input.RecordsDeletions) → noDeletionsInAnyInput inputs = true →
      ∃ n, ∀ direct buffered, n ≤ direct.sum → n ≤ buffered.sum →
        SameEnd
          ((drainCalls env.direct (fun _ => none) direct (.start inputs)).1,
            (drainCalls env.direct (fun _ => none) direct (.start inputs)).2.log)
          ((drainCalls env.buffered (fun _ => none) buffered (.start inputs)).1,
            (drainCalls env.buffered (fun _ => none) buffered (.start inputs)).2.log)) := by
  refine ⟨fun fault am budgets => drainCalls_eq budgets am, fun fault am => ?_,
    fun hin hrec hgate => ?_⟩
  · obtain ⟨n, hn⟩ := exists_budget env fault am.resume
    refine ⟨n, hn, fun budgets hle => ?_⟩
    obtain ⟨k, hk⟩ := Nat.exists_eq_add_of_le hle
    rw [drainCalls_eq, hk, drainCall, drainLoop_add am.resume_consistent]
    exact continueWith_ended hn
  · have hplain := plain_of_noDeletionsInAnyInput hrec hgate
    have hsegs : ∀ g ∈ segments (popOrder env.merger.schema (inputs.map (·.entries))),
        SegmentInput env.merger.schema g.1 g.2 ∧ ∀ e ∈ g.2, Plain e := by
      rintro ⟨key, seg⟩ hg
      refine ⟨hin.segmentInput hg, fun e he => hplain e ?_⟩
      obtain ⟨run, hrun, her⟩ :=
        KWay.Feed.start_mem (KWay.Feed.mem_of_mem_pops ((mem_segments hg).1.subset he))
      exact List.mem_flatten_of_mem hrun her
    refine ⟨(streamSteps env.merger (inputs.map (·.entries))).length + 1,
      fun direct buffered hd hb => ?_⟩
    rw [drainCalls_eq, drainCalls_eq, ActiveMerge.start,
      drainCall_eq_playSteps env.direct hin hd, drainCall_eq_playSteps env.buffered hin hb]
    exact playSteps_same hsegs []

end Merge

/-! ### A deletion the statistics do not show -/

/-- A table without static columns, whose partition key is a blob. -/
def tableEnv : DrainConfig :=
  ⟨tableConfig, fun _ => 64, fun bytes => .ok ⟨[("k", .blob bytes)]⟩, false, true⟩

/-- Two inputs with one row each. -/
def plainInputs : List CompactionInput :=
  [⟨[rowAt 0 3 200], some (.ofDeletionTimes [])⟩, ⟨[rowAt 1 1 100], some (.ofDeletionTimes [])⟩]

/-- The rows with a range tombstone that was written with the local deletion time `i32::MAX`. -/
def unrecordedInputs : List CompactionInput :=
  [⟨[rowAt 0 3 200, rangeZeroToFive 0], some (.ofDeletionTimes [noDeletionTime])⟩,
    ⟨[rowAt 1 1 100], some (.ofDeletionTimes [])⟩]

theorem plainInputs_runs : RunsInput tableEnv.merger.schema (plainInputs.map (·.entries)) := by
  have hpart : PartitionInput tableConfig.schema ⟨1, [1]⟩ (plainInputs.map (·.entries)).flatten := by
    decide
  exact runsInput_of_sameKey (indexed_pair (by decide) (by decide)) hpart (by decide) (by decide)

/-- Inputs without deletions are written directly, to the same effect. -/
theorem plain_inputs_stream_directly :
    noDeletionsInAnyInput plainInputs = true ∧
      ∃ n, ∀ direct buffered, n ≤ direct.sum → n ≤ buffered.sum →
        SameEnd
          ((drainCalls tableEnv.direct (fun _ => none) direct (.start plainInputs)).1,
            (drainCalls tableEnv.direct (fun _ => none) direct (.start plainInputs)).2.log)
          ((drainCalls tableEnv.buffered (fun _ => none) buffered (.start plainInputs)).1,
            (drainCalls tableEnv.buffered (fun _ => none) buffered (.start plainInputs)).2.log) := by
  refine ⟨by decide, (budget_pauses_keep_output tableEnv plainInputs).2.2 plainInputs_runs
    (fun input hinput ⟨e, he, hplain⟩ => ?_) (by decide)⟩
  simp only [plainInputs, List.mem_cons, List.not_mem_nil, or_false] at hinput
  rcases hinput with rfl | rfl
  · rw [List.mem_singleton] at he
    exact absurd (he ▸ ⟨rfl, rfl⟩) hplain
  · rw [List.mem_singleton] at he
    exact absurd (he ▸ ⟨rfl, rfl⟩) hplain

/-- The session is opened with a range tombstone. -/
def WriterCall.opensRange : WriterCall → Bool
  | .beginPartition _ _ ranges => !ranges.isEmpty
  | _ => false

/-- The gate opens although an input holds a range tombstone, and the direct path drops it. -/
theorem unrecorded_range_dropped :
    RunsInput tableEnv.merger.schema (unrecordedInputs.map (·.entries)) ∧
      noDeletionsInAnyInput unrecordedInputs = true ∧
      (drainCall tableEnv.direct (fun _ => none) 5 (.start unrecordedInputs)).1 = .complete ∧
      (drainCall tableEnv.buffered (fun _ => none) 5 (.start unrecordedInputs)).1 = .complete ∧
      (drainCall tableEnv.direct (fun _ => none) 5 (.start unrecordedInputs)).2.log.any
        WriterCall.opensRange = false ∧
      (drainCall tableEnv.buffered (fun _ => none) 5 (.start unrecordedInputs)).2.log.any
        WriterCall.opensRange = true := by
  have hin : RunsInput tableEnv.merger.schema (unrecordedInputs.map (·.entries)) :=
    lateMarkerRuns_input
  have hsteps : (streamSteps tableEnv.merger (unrecordedInputs.map (·.entries))).length < 5 := by
    decide
  have hdirect := drainCall_eq_playSteps tableEnv.direct hin hsteps
  have hbuffered := drainCall_eq_playSteps tableEnv.buffered hin hsteps
  refine ⟨hin, by decide, ?_, ?_, ?_, ?_⟩
  · exact congrArg Prod.fst hdirect
  · exact congrArg Prod.fst hbuffered
  · refine (congrArg (fun r => r.2.any WriterCall.opensRange) hdirect).trans ?_
    decide
  · refine (congrArg (fun r => r.2.any WriterCall.opensRange) hbuffered).trans ?_
    decide

end Cqlite
