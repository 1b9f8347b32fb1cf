import Cqlite.Engine.DirectStream
import Cqlite.Lib.Machine

/-! Maintenance with errors (`maintenance_step` and `finalize_merge_async`).

    Reads, conversions and writer calls may fail in any step and the caller calls again. A failed
    drain leaves the merge active with what it had consumed gone; a failed finalize drops the merge,
    so that the next step starts over. The inputs are deleted when the output has been published. -/

namespace Cqlite

/-! ### What a partition leaves in the output -/

/-- The mutations of the streamed rows, without the rows that have nothing to write. -/
def mutationsOf (fromBytes : Bytes → Except Error PartitionKey) (rows : List MergeEntry) :
    List Mutation :=
  rows.filterMap fun row =>
    if row.isMetadataOnlyNoOp then none else (mergeEntryToMutation fromBytes row).toOption

/-- A mutation that carries the partition's deletions. -/
def Mutation.isCarrier (m : Mutation) : Bool := m.isPartitionOnly || m.isRangeOnly

/-- The static row, when the schema has one. -/
def Mutation.isStatic (hasStatic : Bool) (m : Mutation) : Bool :=
  !m.isCarrier && (m.clusteringKey.isNone && hasStatic)

/-- A clustering row. -/
def Mutation.isClusteringRow (hasStatic : Bool) (m : Mutation) : Bool :=
  !m.isCarrier && !(m.clusteringKey.isNone && hasStatic)

/-- The partition deletion: the last one streamed. -/
def tombstoneOf (ms : List Mutation) : Option PartitionTombstone :=
  ms.foldl (fun acc m => if m.isPartitionOnly then m.partitionTombstone else acc) none

def rangesOf (ms : List Mutation) : List RangeTombstone :=
  (ms.filter Mutation.isRangeOnly).flatMap (·.rangeTombstones)

/-- The timestamp of the static row, unless a deletion came before it. -/
def staticTsOf (hasStatic : Bool) (ms : List Mutation) : Int :=
  match ms.find? fun m => !m.isClusteringRow hasStatic with
  | some m => if m.isStatic hasStatic then m.timestampMicros else 0
  | none => 0

/-- Everything the streamed rows of a partition ask of the writer. -/
def writtenPartition (hasStatic : Bool) (key : DecoratedKey) (ms : List Mutation) :
    List WriterCall :=
  if ms.isEmpty then []
  else
    .beginPartition key (tombstoneOf ms) (rangesOf ms) ::
      (if hasStatic then [.staticRow (ms.filter (·.isStatic hasStatic)) (staticTsOf hasStatic ms)]
        else []) ++
      (ms.filter (·.isClusteringRow hasStatic)).map .row ++
      [.finishPartition, .completePartition key (tombstoneOf ms) ms]

/-- The buffered state after the given mutations. -/
def collected (hasStatic : Bool) (ms : List Mutation) : PartitionStreamState where
  partitionTombstone := tombstoneOf ms
  rangeTombstones := rangesOf ms
  statics := ms.filter (·.isStatic hasStatic)
  staticFirstTs := staticTsOf hasStatic ms
  sawCarrierOrStatic := ms.any fun m => !m.isClusteringRow hasStatic
  folded := ms
  bufferedRows := ms.filter (·.isClusteringRow hasStatic)
  directSession := false

section Collected

variable {env : DrainConfig} {ms : List Mutation}

theorem staticTsOf_concat (hasStatic : Bool) (m : Mutation) :
    staticTsOf hasStatic (ms ++ [m]) =
      if ms.any (fun m => !m.isClusteringRow hasStatic) then staticTsOf hasStatic ms
      else if m.isStatic hasStatic then m.timestampMicros else 0 := by
  unfold staticTsOf
  rw [List.find?_append]
  cases hf : ms.find? fun m => !m.isClusteringRow hasStatic with
  | some x =>
    have hany : ms.any (fun m => !m.isClusteringRow hasStatic) = true :=
      List.any_eq_true.mpr ⟨x, List.mem_of_find?_eq_some hf,
        List.find?_some (p := fun m => !Mutation.isClusteringRow hasStatic m) hf⟩
    simp [hany]
  | none =>
    have hany : ms.any (fun m => !m.isClusteringRow hasStatic) = false := by
      rw [List.find?_eq_none] at hf
      simpa using hf
    rw [hany]
    cases hm : m.isClusteringRow hasStatic with
    | true =>
      have : m.isStatic hasStatic = false := by
        simp only [Mutation.isClusteringRow, Mutation.isStatic] at hm ⊢
        grind
      simp [hm, this]
    | false => simp [hm]

theorem staticTsOf_of_rows {hasStatic : Bool}
    (h : ∀ m ∈ ms, m.isClusteringRow hasStatic = true) : staticTsOf hasStatic ms = 0 := by
  have hnone : ms.find? (fun m => !m.isClusteringRow hasStatic) = none := by
    rw [List.find?_eq_none]
    simpa using h
  simp [staticTsOf, hnone]

theorem tombstoneOf_concat (m : Mutation) :
    tombstoneOf (ms ++ [m]) =
      if m.isPartitionOnly then m.partitionTombstone else tombstoneOf ms := by
  simp [tombstoneOf]

theorem rangesOf_concat (m : Mutation) :
    rangesOf (ms ++ [m]) = rangesOf ms ++ if m.isRangeOnly then m.rangeTombstones else [] := by
  cases h : m.isRangeOnly <;> simp [rangesOf, h]

theorem acceptMutation_collected (key : DecoratedKey) (m : Mutation) :
    env.buffered.acceptMutation (some key) (collected env.schemaHasStatic ms) m =
      .ok (collected env.schemaHasStatic (ms ++ [m]), []) := by
  -- a mutation that is no static row leaves the timestamp as it is
  have hts : (∀ m ∈ ms, m.isClusteringRow env.schemaHasStatic = true) →
      staticTsOf env.schemaHasStatic ms = 0 := staticTsOf_of_rows
  unfold DrainConfig.acceptMutation
  rw [show env.buffered.schemaHasStatic = env.schemaHasStatic from rfl]
  simp only [collected, tombstoneOf_concat, rangesOf_concat, staticTsOf_concat, List.filter_append,
    List.any_append, PartitionStreamState.foldStats]
  cases hp : m.isPartitionOnly with
  | true =>
    have hr : m.isRangeOnly = false := by
      simp only [Mutation.isPartitionOnly, Mutation.isRangeOnly] at hp ⊢
      grind
    have hs : m.isStatic env.schemaHasStatic = false := by
      simp [Mutation.isStatic, Mutation.isCarrier, hp]
    have hc : m.isClusteringRow env.schemaHasStatic = false := by
      simp [Mutation.isClusteringRow, Mutation.isCarrier, hp]
    simpa [hr, hs, hc] using hts
  | false =>
    cases hr : m.isRangeOnly with
    | true =>
      have hs : m.isStatic env.schemaHasStatic = false := by
        simp [Mutation.isStatic, Mutation.isCarrier, hr]
      have hc : m.isClusteringRow env.schemaHasStatic = false := by
        simp [Mutation.isClusteringRow, Mutation.isCarrier, hr]
      simpa [hs, hc] using hts
    | false =>
      cases hk : m.clusteringKey.isNone && env.schemaHasStatic with
      | true =>
        have hs : m.isStatic env.schemaHasStatic = true := by
          simp [Mutation.isStatic, Mutation.isCarrier, hp, hr, hk]
        have hc : m.isClusteringRow env.schemaHasStatic = false := by
          simp [Mutation.isClusteringRow, Mutation.isCarrier, hk]
        simp [hs, hc, PartitionStreamState.acceptStatic]
      | false =>
        have hs : m.isStatic env.schemaHasStatic = false := by
          simp [Mutation.isStatic, hk]
        have hc : m.isClusteringRow env.schemaHasStatic = true := by
          simp [Mutation.isClusteringRow, Mutation.isCarrier, hp, hr, hk]
        simpa [hs, hc, DrainConfig.feedRow, DrainConfig.buffered] using hts

theorem closePartition_collected (key : DecoratedKey) :
    env.buffered.closePartition key (collected env.schemaHasStatic ms) =
      writtenPartition env.schemaHasStatic key ms := by
  have hempty : (!(ms.filter (·.isClusteringRow env.schemaHasStatic)).isEmpty ||
      ms.any fun m => !m.isClusteringRow env.schemaHasStatic) = !ms.isEmpty := by
    cases ms with
    | nil => rfl
    | cons m ms => cases hm : m.isClusteringRow env.schemaHasStatic <;> simp [hm]
  unfold DrainConfig.closePartition writtenPartition
  rw [show env.buffered.schemaHasStatic = env.schemaHasStatic from rfl]
  simp only [collected, Bool.false_eq_true, if_false, hempty]
  cases ms.isEmpty <;> simp [PartitionStreamState.openCalls]

/-- A partition whose rows all convert leaves its calls in the log. -/
theorem playSteps_written {key : DecoratedKey} {rows : List MergeEntry}
    (hconv : ∀ row ∈ rows, ∃ m, mergeEntryToMutation env.fromBytes row = .ok m)
    (steps : List StreamingStep) (log : List WriterCall) :
    playSteps env.buffered (collected env.schemaHasStatic ms) log
        (partitionSteps key rows ++ steps) =
      playSteps env.buffered .fresh
        (log ++ writtenPartition env.schemaHasStatic key (ms ++ mutationsOf env.fromBytes rows))
        steps := by
  induction rows generalizing ms with
  | nil =>
    simp only [partitionSteps, List.map_nil, List.nil_append, List.singleton_append, playSteps,
      closePartition_collected, mutationsOf, List.filterMap_nil, List.append_nil]
  | cons row rows ih =>
    have ih := fun ms => @ih ms fun r hr => hconv r (List.mem_cons_of_mem _ hr)
    rw [partitionSteps_cons, playSteps]
    split
    · rename_i hnoop
      rw [ih, show mutationsOf env.fromBytes (row :: rows) = mutationsOf env.fromBytes rows by
        simp [mutationsOf, hnoop]]
    · rename_i hnoop
      obtain ⟨m, hm⟩ := hconv row (by simp)
      rw [show env.buffered.fromBytes = env.fromBytes from rfl, hm]
      simp only
      rw [acceptMutation_collected]
      simp only
      rw [List.append_nil, ih, List.append_assoc,
        show mutationsOf env.fromBytes (row :: rows) = [m] ++ mutationsOf env.fromBytes rows by
          simp [mutationsOf, hnoop, hm, Except.toOption]]

end Collected

/-- The calls that write the merge of whole runs. -/
def mergedOutput [DebugFmt] (env : DrainConfig) (runs : List (List MergeEntry)) : List WriterCall :=
  (segments (popOrder env.merger.schema runs)).flatMap fun g =>
    writtenPartition env.schemaHasStatic g.1
      (mutationsOf env.fromBytes (streamPartition env.merger g.2))

section Output

variable [DebugFmt] {env : DrainConfig}

theorem playSteps_mergedOutput {groups : List (DecoratedKey × List MergeEntry)}
    (h : ∀ g ∈ groups, ∀ row ∈ streamPartition env.merger g.2,
      ∃ m, mergeEntryToMutation env.fromBytes row = .ok m) (log : List WriterCall) :
    playSteps env.buffered .fresh log
        (groups.flatMap fun g => partitionSteps g.1 (streamPartition env.merger g.2)) =
      (.complete, log ++ groups.flatMap fun g => writtenPartition env.schemaHasStatic g.1
        (mutationsOf env.fromBytes (streamPartition env.merger g.2))) := by
  induction groups generalizing log with
  | nil => simp [playSteps]
  | cons g groups ih =>
    rw [List.flatMap_cons, List.flatMap_cons]
    have hwritten := @playSteps_written env [] g.1 _ (h g (by simp))
      (groups.flatMap fun g => partitionSteps g.1 (streamPartition env.merger g.2)) log
    have hfresh : collected env.schemaHasStatic [] = .fresh := rfl
    rw [hfresh, List.nil_append] at hwritten
    rw [hwritten, ih fun x hx => h x (List.mem_cons_of_mem _ hx), List.append_assoc]

omit [DebugFmt] in
theorem shadowBelow_key {floor : Int} {ml : Bool} {entry out : MergeEntry}
    (h : shadowBelow floor ml entry = some out) : out.key = entry.key := by
  cases shadowBelow_cases h with
  | tombstone dt ldt hrow hlt => rfl
  | live cells hrow hkept => rfl
  | rowDeletion cells d hrow hdata hml hd hlt => rfl
  | carrier _ hout hrow hcells =>
    unfold complexCarrier at hout
    split at hout
    · cases hout
      rfl
    · cases hout

omit [DebugFmt] in
theorem shadowRow_key {f : Option Int} {p : Option Deletion} {e out : MergeEntry}
    (h : shadowRow f p e = some out) : out.key = e.key :=
  shadowRow_rule (fun _ _ _ _ hstep he => (shadowBelow_key hstep).trans he) h rfl

theorem streamPartition_key {cfg : MergerConfig} {key : DecoratedKey} {seg : List MergeEntry}
    (h : SegmentInput cfg.schema key seg) {e : MergeEntry} (he : e ∈ streamPartition cfg seg) :
    e.key = key := by
  obtain ⟨carriers, ⟨hsame, -⟩, hout⟩ := streamPartition_eq h
  rw [hout, List.mem_append, List.mem_append] at he
  rcases he with (hd | hr) | hc
  · have hmem := Option.mem_toList.mp hd
    rw [partitionCarrier, emitPartitionDeletion] at hmem
    split at hmem
    · split at hmem
      · cases hmem
      · rename_i hkey _
        cases hmem
        simp only at hkey
        split at hkey
        · cases hkey
        · exact (Option.some.inj hkey).symm
    · cases hmem
  · obtain ⟨cluster, hcl, hrow⟩ := List.mem_filterMap.mp hr
    obtain ⟨first, rest, hcluster, rfl⟩ :=
      h.partition.mem_clusteredRows.mp (h.partition.mem_schemaClusters.mp hcl)
    rw [flushRow, mergeCluster_eq] at hrow
    obtain ⟨row, hgroup, hshadow⟩ := Option.bind_eq_some_iff.mp hrow
    obtain ⟨ts, data, del, rfl⟩ := groupOutput_frame hgroup
    rw [shadowRow_key hshadow]
    exact h.partition.sameKey first (hcluster.mem (by simp))
  · obtain ⟨e', he', ra, rb, -, -, -, heq⟩ := exists_of_forall₂ hsame hc
    obtain ⟨r, hr, hemit⟩ := List.mem_filterMap.mp he'
    have hkey : e.key = e'.key := (MergeEntry.mk.inj heq).2.1
    rw [hkey]
    obtain ⟨rt, -, hrt⟩ := List.mem_map.mp (List.mem_of_mem_filter hr)
    unfold emitRange at hemit
    split at hemit
    · cases hemit
    · cases hemit
      rw [← hrt]
      rfl

end Output

/-! ### Steps with errors -/

/-- One call of `maintenance_step` with what may go wrong in it: opening the inputs, what reading
    them delivers, the writer's verdicts and the verdict on finalizing. -/
structure StepEvent where
  startError : Option Error
  sources : List (List (Except ReadError MergeEntry))
  budget : Nat
  fault : Nat → Option Error
  finalizeError : Option Error

/-- A compaction of one set of inputs. -/
structure MergeState where
  active : Option ActiveMerge
  published : Option (List WriterCall)
  inputsDeleted : Bool

def MergeState.initial : MergeState := ⟨none, none, false⟩

/-- `start_merge` opens every input afresh. -/
def openMerge (sources : List (List (Except ReadError MergeEntry))) : ActiveMerge :=
  ⟨⟨[], sources.map RunReader.new⟩, none, []⟩

section Step

variable [DebugFmt]

/-- Draining an active merge: it stays active after a pause and after an error, and is taken out to
    be finalized; publishing comes before the deletion of the inputs. -/
def drainActive (env : DrainConfig) (s : MergeState) (ev : StepEvent) (am : ActiveMerge) :
    MergeState :=
  match drainCall env ev.fault ev.budget am with
  | (.paused, am) => { s with active := some am }
  | (.failed _, am) => { s with active := some am }
  | (.complete, am) =>
    match ev.finalizeError with
    | some _ => { s with active := none }
    | none => ⟨none, some am.log, true⟩

def maintenanceStep (env : DrainConfig) (s : MergeState) (ev : StepEvent) : MergeState :=
  if s.inputsDeleted then s
  else
    match s.active with
    | some am => drainActive env s ev am
    | none =>
      match ev.startError with
      | some _ => s
      | none => drainActive env s ev (openMerge ev.sources)

/-- No error strikes the drain loop: the inputs read back, and the writer refuses nothing. Starting
    and finalizing may fail. -/
def ErrorFree (inputs : List CompactionInput) (_ : MergeState) (ev : StepEvent) : Prop :=
  ev.sources = inputs.map (fun input => input.entries.map .ok) ∧ ev.fault = fun _ => none

/-- What a compaction needs of its inputs: sorted runs, deletions that the statistics show, and
    partition keys that decode. -/
structure InputsReadable (env : DrainConfig) (inputs : List CompactionInput) : Prop where
  runs : RunsInput env.merger.schema (inputs.map (·.entries))
  recorded : ∀ input ∈ inputs, input.RecordsDeletions
  keys : ∀ e ∈ (inputs.map (·.entries)).flatten, ∃ pk, env.fromBytes e.key.key = .ok pk

variable {env : DrainConfig} {inputs : List CompactionInput}

theorem InputsReadable.converts (h : InputsReadable env inputs) :
    ∀ g ∈ segments (popOrder env.merger.schema (inputs.map (·.entries))),
      ∀ row ∈ streamPartition env.merger g.2,
        ∃ m, mergeEntryToMutation env.fromBytes row = .ok m := by
  rintro ⟨key, seg⟩ hg row hrow
  obtain ⟨hsub, hne, hkeys⟩ := mem_segments hg
  obtain ⟨e, he⟩ := List.exists_mem_of_ne_nil seg hne
  obtain ⟨run, hrun, her⟩ := KWay.Feed.start_mem (KWay.Feed.mem_of_mem_pops (hsub.subset he))
  obtain ⟨pk, hpk⟩ := h.keys e (List.mem_flatten_of_mem hrun her)
  rw [hkeys e he, ← streamPartition_key (h.runs.segmentInput hg) hrow] at hpk
  unfold mergeEntryToMutation
  rw [hpk]
  cases row.partitionDeletion with
  | none => exact ⟨_, rfl⟩
  | some d => exact ⟨_, rfl⟩

/-- The drain of readable inputs completes with the whole merge, in the mode the gate selects. -/
theorem InputsReadable.playSteps (h : InputsReadable env inputs)
    (hmode : env.streamRowsDirectly = noDeletionsInAnyInput inputs) :
    Cqlite.playSteps env .fresh [] (streamSteps env.merger (inputs.map (·.entries))) =
      (.complete, mergedOutput env (inputs.map (·.entries))) := by
  have hbuffered := playSteps_mergedOutput h.converts []
  rw [List.nil_append] at hbuffered
  cases hgate : noDeletionsInAnyInput inputs with
  | false =>
    have henv : env.buffered = env := by
      rw [hgate] at hmode
      rw [DrainConfig.buffered, ← hmode]
    rw [henv] at hbuffered
    exact hbuffered
  | true =>
    have henv : env.direct = env := by
      rw [hgate] at hmode
      rw [DrainConfig.direct, ← hmode]
    have hplain := plain_of_noDeletionsInAnyInput h.recorded hgate
    have hsame := @playSteps_same _ env env.merger _ (fun g hg => ⟨h.runs.segmentInput hg,
      fun e he => hplain e (by
        obtain ⟨run, hrun, her⟩ :=
          KWay.Feed.start_mem (KWay.Feed.mem_of_mem_pops ((mem_segments hg).1.subset he))
        exact List.mem_flatten_of_mem hrun her)⟩) []
    rw [henv, hbuffered] at hsame
    exact Prod.ext hsame.1 (hsame.2 hsame.1)

/-- A drain that has ended has completed and written the whole merge. -/
theorem InputsReadable.ended (h : InputsReadable env inputs)
    (hmode : env.streamRowsDirectly = noDeletionsInAnyInput inputs) {n : Nat}
    {outcome : DrainStatus × ActiveMerge}
    (hcall : drainCall env (fun _ => none) n (.start inputs) = outcome) (hended : outcome.1 ≠ .paused) :
    outcome.1 = .complete ∧ outcome.2.log = mergedOutput env (inputs.map (·.entries)) := by
  -- with more budget the outcome is the same
  have hlarge : drainCall env (fun _ => none)
      (n + ((streamSteps env.merger (inputs.map (·.entries))).length + 1)) (.start inputs) =
        outcome := by
    rw [drainCall, drainLoop_add (ActiveMerge.start inputs).resume_consistent, ← drainCall, hcall]
    exact continueWith_ended hended
  have hplay := drainCall_eq_playSteps env h.runs
    (n := n + ((streamSteps env.merger (inputs.map (·.entries))).length + 1)) (by omega)
  rw [← ActiveMerge.start, hlarge, h.playSteps hmode] at hplay
  exact Prod.mk.inj hplay

/-- Along an error-free run the active merge has come this far from its start, and a deletion of the
    inputs follows the publication of their merge. -/
structure RetryInv (env : DrainConfig) (inputs : List CompactionInput) (s : MergeState) : Prop where
  active : ∀ am, s.active = some am →
    ∃ n, drainCall env (fun _ => none) n (.start inputs) = (.paused, am)
  deleted : s.inputsDeleted = true →
    s.published = some (mergedOutput env (inputs.map (·.entries)))

theorem drainActive_inv (h : InputsReadable env inputs)
    (hmode : env.streamRowsDirectly = noDeletionsInAnyInput inputs) {s : MergeState}
    (hs : RetryInv env inputs s) {ev : StepEvent} (hev : ev.fault = fun _ => none)
    {am : ActiveMerge} {n : Nat}
    (ham : drainCall env (fun _ => none) n (.start inputs) = (.paused, am)) :
    RetryInv env inputs (drainActive env s ev am) := by
  have hfrom : drainCall env (fun _ => none) (n + ev.budget) (.start inputs) =
      drainCall env ev.fault ev.budget am := by
    rw [drainCall, drainLoop_add (ActiveMerge.start inputs).resume_consistent, ← drainCall, ham, hev]
    rfl
  unfold drainActive
  cases hcall : drainCall env ev.fault ev.budget am with
  | mk status am' =>
    rw [hcall] at hfrom
    cases status with
    | paused => exact ⟨fun x hx => ⟨_, Option.some.inj hx ▸ hfrom⟩, hs.deleted⟩
    | failed e => cases (h.ended hmode hfrom (by simp)).1
    | complete =>
      simp only
      split
      · exact ⟨fun x hx => (by cases hx), hs.deleted⟩
      · exact ⟨fun x hx => (by cases hx), fun _ => congrArg some (h.ended hmode hfrom (by simp)).2⟩

theorem maintenanceStep_inv (h : InputsReadable env inputs)
    (hmode : env.streamRowsDirectly = noDeletionsInAnyInput inputs) {s : MergeState}
    {ev : StepEvent} (hs : RetryInv env inputs s) (hev : ErrorFree inputs s ev) :
    RetryInv env inputs (maintenanceStep env s ev) := by
  unfold maintenanceStep
  split
  · exact hs
  · cases hactive : s.active with
    | some am =>
      obtain ⟨n, hn⟩ := hs.active am hactive
      exact drainActive_inv h hmode hs hev.2 hn
    | none =>
      simp only
      split
      · exact hs
      · have hopen : openMerge ev.sources = .start inputs := by
          rw [hev.1, openMerge, ActiveMerge.start, MergerState.ofRuns]
          simp only [List.map_map]
          rfl
        refine drainActive_inv h hmode hs hev.2 (n := 0) ?_
        rw [hopen, drainCall, drainLoop, ActiveMerge.pause_resume]

/-- In every run that no error of the drain loop strikes, the inputs are deleted only after the merge
    of all their rows has been published. -/
theorem inputs_deleted_after_merge (env : DrainConfig) (inputs : List CompactionInput)
    (h : InputsReadable env inputs) (hmode : env.streamRowsDirectly = noDeletionsInAnyInput inputs)
    (events : List StepEvent)
    (hrun : Machine.Along (maintenanceStep env) (ErrorFree inputs) .initial events)
    (hdel : (Machine.run (maintenanceStep env) .initial events).inputsDeleted = true) :
    (Machine.run (maintenanceStep env) .initial events).published =
      some (mergedOutput env (inputs.map (·.entries))) := by
  refine (Machine.inv_of_along (fun s ev hs hev => maintenanceStep_inv h hmode hs hev) ?_ hrun).deleted
    hdel
  exact ⟨fun am ham => (nomatch ham), fun hd => (nomatch hd)⟩

end Step

/-! ### Rows lost to an error -/

/-- The row `c = 7` of partition `2`. -/
def otherRow (run : Nat) : MergeEntry :=
  MergeEntry.new run ⟨2, [2]⟩ (some ⟨[("c", .integer 7)]⟩) 300
    (.live [.new "c" (.integer 7) 300, .new "v" (.integer 8) 300])

/-- Two inputs: partition `1` has a row in each, partition `2` one row. -/
def twoPartitionInputs : List CompactionInput :=
  [⟨[rowAt 0 3 200], some (.ofDeletionTimes [])⟩,
    ⟨[rowAt 1 1 100, otherRow 1], some (.ofDeletionTimes [])⟩]

theorem twoPartitionInputs_runs :
    RunsInput tableEnv.merger.schema (twoPartitionInputs.map (·.entries)) where
  indexed := indexed_pair (by decide) (by decide)
  keyOrder := by decide
  rowOrder := by decide
  entry := by decide
  partition key := by
    by_cases h₁ : key = ⟨1, [1]⟩
    · subst h₁
      decide
    · by_cases h₂ : key = ⟨2, [2]⟩
      · subst h₂
        decide
      · have hnil : ((twoPartitionInputs.map (·.entries)).flatten.filter fun e => e.key = key) = [] := by
          simp [twoPartitionInputs, rowAt, otherRow, MergeEntry.new, Ne.symm h₁, Ne.symm h₂]
        rw [hnil]
        exact ⟨by simp, by decide, by decide⟩

theorem twoPartitionInputs_readable : InputsReadable tableEnv twoPartitionInputs where
  runs := twoPartitionInputs_runs
  recorded input hinput := by
    rintro ⟨e, he, hplain⟩
    refine absurd ?_ hplain
    revert e
    simp only [twoPartitionInputs, List.mem_cons, List.not_mem_nil, or_false] at hinput
    rcases hinput with rfl | rfl
    · simp [rowAt, Plain, MergeEntry.new]
    · simp [rowAt, otherRow, Plain, MergeEntry.new]
  keys _ _ := ⟨_, rfl⟩

/-- A call with a large budget; the writer refuses what comes after `accepted` calls, if given. -/
def largeStep (accepted : Option Nat) : StepEvent :=
  ⟨none, twoPartitionInputs.map (fun input => input.entries.map .ok), 16,
    fun n => if accepted = some n then some (.storage "No space left on device") else none, none⟩

/-- The call feeds the row `c = n`. -/
def WriterCall.isRowAt (n : Int) : WriterCall → Bool
  | .row m =>
    match m.clusteringKey with
    | some ⟨[(_, .integer k)]⟩ => k = n
    | _ => false
  | _ => false

/-- Without an error one call publishes every row. -/
theorem undisturbed_merge_publishes :
    (Machine.run (maintenanceStep tableEnv) .initial [largeStep none]).inputsDeleted = true ∧
      (Machine.run (maintenanceStep tableEnv) .initial [largeStep none]).published =
        some (mergedOutput tableEnv (twoPartitionInputs.map (·.entries))) := by
  have hdel : (Machine.run (maintenanceStep tableEnv) .initial [largeStep none]).inputsDeleted =
      true := by decide +kernel
  refine ⟨hdel, inputs_deleted_after_merge tableEnv twoPartitionInputs twoPartitionInputs_readable
    (by decide) _ ⟨⟨rfl, ?_⟩, trivial⟩ hdel⟩
  simp [largeStep]

/-- The writer refuses to open partition `1`, the caller tries again, and the inputs are deleted
    although the rows that were in hand when the error struck are in no output. -/
theorem refused_call_loses_rows :
    InputsReadable tableEnv twoPartitionInputs ∧
      (Machine.run (maintenanceStep tableEnv) .initial
        [largeStep (some 0), largeStep none]).inputsDeleted = true ∧
      ((Machine.run (maintenanceStep tableEnv) .initial
        [largeStep (some 0), largeStep none]).published.any fun log =>
          log.any (WriterCall.isRowAt 7) && !log.any (WriterCall.isRowAt 1) &&
            !log.any (WriterCall.isRowAt 3)) = true ∧
      (mergedOutput tableEnv (twoPartitionInputs.map (·.entries))).any
        (WriterCall.isRowAt 1) = true := by
  refine ⟨twoPartitionInputs_readable, by decide +kernel, by decide +kernel, by decide +kernel⟩

end Cqlite
