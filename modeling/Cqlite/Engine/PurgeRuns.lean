import Cqlite.Lib.Machine
import Cqlite.Engine.CompactionPlan
import Cqlite.Engine.Mutation

/-! Background compaction between writes and flushes (`maintenance_step_inner`, `start_merge`,
    `finalize_merge_async`).

    A merge is selected, and its purge bound computed, from the SSTables that are published when it
    starts; its output replaces them when it is finalized. In between and afterwards there are writes
    and flushes with any timestamps. What the memtable stands for, and what a flush makes of it, is a
    parameter: the entries a reader delivers for a list of mutations. So are the places at which it
    delivers the range tombstones of an SSTable that a compaction wrote, and the `Statistics.db` of a
    new SSTable. -/

namespace Cqlite

/-! ### The engine -/

structure PurgeEnv where
  schema : TableSchema
  /-- The entries of a partition that some mutations are flushed as. -/
  flushRows : List Mutation → DecoratedKey → List MergeEntry
  /-- The entries of a partition as a reader delivers what a compaction wrote. -/
  readBack : List MergeEntry → List MergeEntry
  /-- The statistics of an SSTable with these entries. -/
  statsOf : (DecoratedKey → List MergeEntry) → Option TimestampStatistics
  /-- `compute_gc_before`. -/
  gcBefore : Int → Option Int

/-- The same engine with every purge disabled. -/
def PurgeEnv.unpurged (env : PurgeEnv) : PurgeEnv := { env with gcBefore := fun _ => none }

/-- `written` and `lost` are not fields of the source: the entries ever flushed, and what compactions
    have forgotten of them. -/
structure PurgeState where
  memtable : List Mutation
  files : Nat → TableFile
  published : List Nat
  generation : Nat
  activeMerge : Option (Nat × Selection)
  written : DecoratedKey → List MergeEntry
  lost : DecoratedKey → Option ClusteringKey → Evidence CellData CellKey Int

/-- The entries the memtable stands for. -/
def PurgeState.memRows (env : PurgeEnv) (s : PurgeState) (key : DecoratedKey) : List MergeEntry :=
  if s.memtable.isEmpty then [] else env.flushRows s.memtable key

inductive PurgeEvent
  | write (m : Mutation)
  | flush
  | start (selected : List Nat) (now : Int)
  | finalize

/-- The SSTable that is written for some entries. -/
def PurgeEnv.table (env : PurgeEnv) (rows : DecoratedKey → List MergeEntry) : TableFile :=
  ⟨rows, env.statsOf rows⟩

/-- The SSTable that a compaction writes. -/
def PurgeEnv.merged [DebugFmt] (env : PurgeEnv) (sel : Selection) (files : Nat → TableFile) :
    TableFile := env.table fun key => env.readBack (sel.outputRows files key)

section Steps

variable [DebugFmt] (env : PurgeEnv)

def flushStep (s : PurgeState) : PurgeState :=
  if s.memtable.isEmpty then s
  else
    { s with
      memtable := []
      files := Function.update s.files s.generation (env.table (env.flushRows s.memtable))
      published := s.published ++ [s.generation]
      generation := s.generation + 1
      written := fun key => s.written key ++ env.flushRows s.memtable key }

/-- A merge may start: none is active, and what it reads was found in the table directory. -/
def PurgeState.mayStart (s : PurgeState) (selected : List Nat) : Bool :=
  s.activeMerge.isNone && !selected.isEmpty && selected.all (· ∈ s.published)

def startStep (s : PurgeState) (selected : List Nat) (now : Int) : PurgeState :=
  if s.mayStart selected then
    { s with
      generation := s.generation + 1
      activeMerge := some (s.generation, ⟨env.schema, selected, s.published.filter (· ∉ selected),
        env.gcBefore now, now⟩) }
  else s

def finalizeStep (s : PurgeState) : PurgeState :=
  match s.activeMerge with
  | none => s
  | some (output, sel) =>
    { s with
      files := Function.update s.files output (env.merged sel s.files)
      published := output :: s.published.filter
        (· ∉ reclaimed (sel.mergeInputs s.files) (sel.dropSet s.files))
      activeMerge := none
      lost := fun key ck => sel.forgets s.files key ck ∪ s.lost key ck }

def purgeStep (s : PurgeState) : PurgeEvent → PurgeState
  | .write m => { s with memtable := s.memtable ++ [m] }
  | .flush => flushStep env s
  | .start selected now => startStep env s selected now
  | .finalize => finalizeStep env s

/-- The data is sane: entries of one key space that never tie, SSTables that a reader delivers in
    order and with all they hold, honest statistics, clocks that do not run ahead of the reader. -/
def StepSane (cks : List ClusteringKey) (ranges : List RangeTombstone) (key : DecoratedKey)
    (ck : Option ClusteringKey) (now : Int) (s : PurgeState) : PurgeEvent → Prop
  | .write m =>
    EntriesIn cks ranges key (env.flushRows (s.memtable ++ [m]) key) ∧
      (evidenceAt env.schema (s.written key ++ env.flushRows (s.memtable ++ [m]) key) ck).NoTies
        (cellReading none)
  | .flush => DeliveredRun env.schema (env.flushRows s.memtable key) ∧
      ∀ st ∈ env.statsOf (env.flushRows s.memtable),
        (env.table (env.flushRows s.memtable)).Honest st key
  | .start _ clock => clock ≤ now ∧ ∀ gc ∈ env.gcBefore clock, gc ≤ clock ∧ gc ≤ i64Max
  | .finalize => ∀ a ∈ s.activeMerge,
      (env.readBack (a.2.outputRows s.files key)).Perm (a.2.outputRows s.files key) ∧
      DeliveredRun env.schema (env.readBack (a.2.outputRows s.files key)) ∧
      ∀ st ∈ (env.merged a.2 s.files).stats, (env.merged a.2 s.files).Honest st key

/-- Nothing purged still hides a cell: what is written is newer than what compactions have forgotten,
    and when a merge is finalized its output, the memtable and the SSTables outside of it are newer
    than what it forgets. -/
def OutlivesPurges (key : DecoratedKey) (ck : Option ClusteringKey) (s : PurgeState) :
    PurgeEvent → Prop
  | .write m => ∀ a ∈ (evidenceAt env.schema (env.flushRows (s.memtable ++ [m]) key) ck).writes,
      (s.lost key ck).Outlasts (cellReading none) a
  | .finalize => ∀ m ∈ s.activeMerge, m.2.WritesNothingForgotten s.files key ck ∧
      ∀ a ∈ (evidenceAt env.schema (partitionRows s.files
        (s.published.filter (· ∉ m.2.selected)) key ++ s.memRows env key) ck).writes,
        (m.2.forgets s.files key ck).Outlasts (cellReading none) a
  | _ => True

end Steps

/-! ### The invariant -/

variable {files : Nat → TableFile}

section Invariant

variable [DebugFmt] {env : PurgeEnv} {cks : List ClusteringKey} {ranges : List RangeTombstone}
  {key : DecoratedKey} {ck : Option ClusteringKey} {now : Int} {s : PurgeState}

/-- What an active merge reads is still published, and its own generation is taken. -/
structure ActiveMergeSound (env : PurgeEnv) (now : Int) (s : PurgeState) (output : Nat)
    (sel : Selection) : Prop where
  taken : output < s.generation
  unpublished : output ∉ s.published
  reads : ∀ g ∈ sel.selected ++ sel.outside, g ∈ s.published
  schema : sel.schema = env.schema
  clocked : sel.Clocked
  past : sel.now ≤ now

/-- The published SSTables show what was ever written, next to whatever outlasts what compactions
    forgot; the memtable does. -/
structure PurgeInv (env : PurgeEnv) (cks : List ClusteringKey) (ranges : List RangeTombstone)
    (key : DecoratedKey) (ck : Option ClusteringKey) (now : Int) (s : PurgeState) : Prop where
  fresh : ∀ g ∈ s.published, g < s.generation
  active : ∀ output sel, s.activeMerge = some (output, sel) → ActiveMergeSound env now s output sel
  tables : EntriesIn cks ranges key (partitionRows s.files s.published key)
  delivers : ∀ g ∈ s.published, DeliveredRun env.schema ((s.files g).rows key)
  honest : HonestStats s.files s.published key
  mem : EntriesIn cks ranges key (s.memRows env key)
  ties : (evidenceAt env.schema (s.written key ++ s.memRows env key) ck).NoTies (cellReading none)
  drawn : Evidence.Drawn (cellReading none)
    (evidenceAt env.schema (partitionRows s.files s.published key) ck)
    (evidenceAt env.schema (s.written key) ck)
  agrees : Evidence.AgreeBeyond (cellReading (some now)) (s.lost key ck)
    (evidenceAt env.schema (partitionRows s.files s.published key) ck)
    (evidenceAt env.schema (s.written key) ck)
  newer : ∀ a ∈ (evidenceAt env.schema (s.memRows env key) ck).writes,
    (s.lost key ck).Outlasts (cellReading none) a

variable {g : Nat}

section

omit [DebugFmt]

theorem partitionRows_update {gens : List Nat} {f : TableFile} (hg : g ∉ gens) :
    partitionRows (Function.update files g f) gens key =
      partitionRows files gens key := by
  unfold partitionRows
  refine List.flatMap_congr fun g' hg' => ?_
  rw [Function.update_of_ne (ne_of_mem_of_not_mem hg' hg)]

/-- What holds of the old SSTables and of the new one. -/
theorem forall_update {p : TableFile → Prop} {gens gens' : List Nat} {f : TableFile}
    (h : ∀ g' ∈ gens, p (files g')) (hg : g ∉ gens) (hf : p f)
    (hgens : ∀ g' ∈ gens', g' = g ∨ g' ∈ gens) :
    ∀ g' ∈ gens', p (Function.update files g f g') := by
  intro g' hg'
  rcases hgens g' hg' with rfl | hmem
  · rwa [Function.update_self]
  · rw [Function.update_of_ne (ne_of_mem_of_not_mem hmem hg)]
    exact h g' hmem

theorem memRows_write (env : PurgeEnv) (s : PurgeState) (m : Mutation) :
    PurgeState.memRows env { s with memtable := s.memtable ++ [m] } key =
      env.flushRows (s.memtable ++ [m]) key := by
  simp [PurgeState.memRows]

theorem mem_reclaimed {sel : Selection} :
    g ∈ reclaimed (sel.mergeInputs files) (sel.dropSet files) ↔ g ∈ sel.selected := by
  have hsel : g ∈ sel.selected ↔ g ∈ sel.mergeInputs files ∨ g ∈ sel.dropSet files :=
    Selection.mem_selected
  rw [hsel]
  simp only [reclaimed, List.mem_append, List.mem_filter, decide_eq_true_eq]
  tauto

theorem EntriesIn.nil (cks : List ClusteringKey) (ranges : List RangeTombstone) (key : DecoratedKey) :
    EntriesIn cks ranges key [] where
  sameKey e he := by cases he
  keys e he := by cases he
  cuts rt hrt := by cases hrt
  rowRange e he := by cases he

end

namespace PurgeInv

variable (h : PurgeInv env cks ranges key ck now s)

include h

/-! ### Steps -/

theorem write {m : Mutation} (hsane : StepSane env cks ranges key ck now s (.write m))
    (hout : OutlivesPurges env key ck s (.write m)) :
    PurgeInv env cks ranges key ck now (purgeStep env s (.write m)) where
  fresh := h.fresh
  active output sel hact := by
    obtain ⟨h₁, h₂, h₃, h₄, h₅, h₆⟩ := h.active output sel hact
    exact ⟨h₁, h₂, h₃, h₄, h₅, h₆⟩
  tables := h.tables
  delivers := h.delivers
  honest := h.honest
  mem := by
    rw [purgeStep, memRows_write]
    exact hsane.1
  ties := by
    rw [purgeStep, memRows_write]
    exact hsane.2
  drawn := h.drawn
  agrees := h.agrees
  newer := by
    rw [purgeStep, memRows_write]
    exact hout

theorem flush (hsane : StepSane env cks ranges key ck now s .flush) :
    PurgeInv env cks ranges key ck now (purgeStep env s .flush) := by
  rw [purgeStep, flushStep]
  by_cases hempty : s.memtable.isEmpty = true
  · rw [if_pos hempty]
    exact h
  rw [if_neg hempty]
  have hmem : s.memRows env key = env.flushRows s.memtable key := by
    rw [PurgeState.memRows, if_neg hempty]
  have hnew : s.generation ∉ s.published := fun hg => absurd (h.fresh _ hg) (lt_irrefl _)
  have hrows : partitionRows (Function.update s.files s.generation (env.table
      (env.flushRows s.memtable))) (s.published ++ [s.generation]) key =
      partitionRows s.files s.published key ++ s.memRows env key := by
    rw [partitionRows_append, partitionRows_update hnew, hmem]
    simp [partitionRows, PurgeEnv.table]
  have hgens : ∀ g ∈ s.published ++ [s.generation], g = s.generation ∨ g ∈ s.published := by
    intro g hg
    rcases List.mem_append.mp hg with hold | hold
    · exact .inr hold
    · exact .inl (List.mem_singleton.mp hold)
  refine ⟨?_, ?_, ?_, ?_, ?_, EntriesIn.nil _ _ _, ?_, ?_, ?_, ?_⟩
  · intro g hg
    rcases List.mem_append.mp hg with hold | hold
    · exact Nat.lt_succ_of_lt (h.fresh g hold)
    · rw [List.mem_singleton.mp hold]
      exact Nat.lt_succ_self _
  · intro output sel hact
    obtain ⟨h₁, h₂, h₃, h₄, h₅, h₆⟩ := h.active output sel hact
    refine ⟨Nat.lt_succ_of_lt h₁, ?_, fun g hg => List.mem_append_left _ (h₃ g hg), h₄, h₅, h₆⟩
    intro hout
    rcases List.mem_append.mp hout with hold | hold
    · exact h₂ hold
    · exact absurd (List.mem_singleton.mp hold) h₁.ne
  · rw [hrows]
    exact h.tables.append h.mem
  · exact forall_update (p := fun f => DeliveredRun env.schema (f.rows key)) h.delivers hnew hsane.1
      hgens
  · exact forall_update (p := fun f => ∀ st ∈ f.stats, f.Honest st key) h.honest hnew hsane.2 hgens
  · have hties := h.ties
    rw [hmem] at hties
    simpa [PurgeState.memRows] using hties
  · dsimp only
    rw [hrows, ← hmem, evidenceAt_append, evidenceAt_append]
    exact h.drawn.union (Evidence.Drawn.refl _)
  · dsimp only
    rw [hrows, ← hmem, evidenceAt_append, evidenceAt_append]
    exact h.agrees.add fun a ha => (cellReading_ages_none now).outlasts_iff.mpr (h.newer a ha)
  · rintro a ⟨hc, -⟩
    cases hc

theorem start {selected : List Nat} {clock : Int}
    (hsane : StepSane env cks ranges key ck now s (.start selected clock)) :
    PurgeInv env cks ranges key ck now (purgeStep env s (.start selected clock)) := by
  rw [purgeStep, startStep]
  by_cases hmay : s.mayStart selected = true
  · rw [if_pos hmay]
    have hsel : ∀ g ∈ selected, g ∈ s.published := by
      simp only [PurgeState.mayStart, Bool.and_eq_true, List.all_eq_true, decide_eq_true_eq] at hmay
      exact hmay.2
    refine ⟨fun g hg => Nat.lt_succ_of_lt (h.fresh g hg), ?_, h.tables, h.delivers, h.honest, h.mem,
      h.ties, h.drawn, h.agrees, h.newer⟩
    intro output sel hact
    cases hact
    refine ⟨Nat.lt_succ_self _, fun hg => absurd (h.fresh _ hg) (lt_irrefl _), ?_, rfl,
      ⟨fun gc hgc => (hsane.2 gc hgc).1, fun gc hgc => (hsane.2 gc hgc).2⟩, hsane.1⟩
    intro g hg
    rcases List.mem_append.mp hg with hin | hout
    · exact hsel g hin
    · exact List.mem_of_mem_filter hout
  · rw [if_neg hmay]
    exact h

omit h in
/-- The published SSTables are those an active merge reads and the rest. -/
theorem evidenceAt_published {sel : Selection}
    (hreads : ∀ g ∈ sel.selected ++ sel.outside, g ∈ s.published) :
    evidenceAt env.schema (partitionRows s.files s.published key) ck =
      evidenceAt env.schema (partitionRows s.files sel.selected key) ck ∪
        evidenceAt env.schema
          (partitionRows s.files (s.published.filter (· ∉ sel.selected)) key) ck := by
  rw [← evidenceAt_append, ← partitionRows_append]
  refine evidenceAt_congr (fun e => ⟨partitionRows_mono (fun g hg => ?_) e,
    partitionRows_mono (fun g hg => ?_) e⟩) ck
  · rw [List.mem_append, List.mem_filter, decide_eq_true_eq]
    by_cases hsel : g ∈ sel.selected
    · exact .inl hsel
    · exact .inr ⟨hg, hsel⟩
  · rcases List.mem_append.mp hg with hsel | hrest
    · exact hreads g (List.mem_append_left _ hsel)
    · exact List.mem_of_mem_filter hrest

variable (hs : KeySpace env.schema cks ranges) (hck : ck ∈ optionalKeys cks)

include hs hck

theorem finalize (hsane : StepSane env cks ranges key ck now s .finalize)
    (hout : OutlivesPurges env key ck s .finalize) :
    PurgeInv env cks ranges key ck now (purgeStep env s .finalize) := by
  rw [purgeStep, finalizeStep]
  split
  · exact h
  rename_i output sel hact
  obtain ⟨htaken, hnew, hreads, hschema, hclock, hpast⟩ := h.active output sel hact
  have hrest : s.published.filter (· ∉ reclaimed (sel.mergeInputs s.files) (sel.dropSet s.files)) =
      s.published.filter (· ∉ sel.selected) := by
    simp only [mem_reclaimed]
  obtain ⟨hforgotten, hnewer⟩ := hout (output, sel) hact
  obtain ⟨hperm, hread, hstats⟩ := hsane (output, sel) hact
  rw [evidenceAt_append] at hnewer
  rw [hrest]
  have hnewrest : output ∉ s.published.filter (· ∉ sel.selected) :=
    fun hg => hnew (List.mem_of_mem_filter hg)
  have hrows : partitionRows (Function.update s.files output (env.merged sel s.files))
      (output :: s.published.filter (· ∉ sel.selected)) key =
        env.readBack (sel.outputRows s.files key) ++
          partitionRows s.files (s.published.filter (· ∉ sel.selected)) key := by
    rw [partitionRows_cons, Function.update_self, partitionRows_update hnewrest, PurgeEnv.merged,
      PurgeEnv.table]
  have hread_evidence : evidenceAt env.schema (env.readBack (sel.outputRows s.files key)) ck =
      evidenceAt env.schema (sel.outputRows s.files key) ck :=
    evidenceAt_congr (fun e => hperm.mem_iff) ck
  have hin : EntriesIn cks ranges key (partitionRows s.files sel.selected key) :=
    h.tables.mono (partitionRows_mono fun g hg => hreads g (List.mem_append_left _ hg))
  have hspace : KeySpace sel.schema cks ranges := hschema ▸ hs
  have hruns : ∀ g ∈ sel.selected, DeliveredRun sel.schema ((s.files g).rows key) := fun g hg =>
    hschema ▸ h.delivers g (hreads g (List.mem_append_left _ hg))
  have hgens : ∀ g ∈ output :: s.published.filter (· ∉ sel.selected), g = output ∨ g ∈ s.published :=
    fun g hg => (List.mem_cons.mp hg).imp id List.mem_of_mem_filter
  have hdrawn := h.drawn
  rw [evidenceAt_published hreads] at hdrawn
  have hagrees := h.agrees
  rw [evidenceAt_published hreads] at hagrees
  have htables : (evidenceAt env.schema (partitionRows s.files sel.selected key) ck).NoTies
      (cellReading (some sel.now)) := by
    refine Evidence.NoTies.aged (cellReading_ages_none sel.now) ?_
    have hties := h.ties
    rw [evidenceAt_append] at hties
    refine fun a ha b hb => hdrawn.noTies (fun a ha b hb => hties a (.inl ha) b (.inl hb)) a (.inl ha)
      b (.inl hb)
  have hmerged : Evidence.AgreeBeyond (cellReading (some now)) (sel.forgets s.files key ck)
      (evidenceAt env.schema (sel.outputRows s.files key) ck)
      (evidenceAt env.schema (partitionRows s.files sel.selected key) ck) := by
    rw [← hschema] at htables ⊢
    exact output_agrees hspace hck hin hruns hclock hpast (fun g hg => h.honest g (hreads g hg)) htables
      hforgotten
  have hpicked : Evidence.Drawn (cellReading none)
      (evidenceAt env.schema (sel.outputRows s.files key) ck)
      (evidenceAt env.schema (partitionRows s.files sel.selected key) ck) := by
    rw [← hschema]
    exact output_drawn hspace hck hin hruns
  refine ⟨?_, ?_, ?_, ?_, ?_, h.mem, h.ties, ?_, ?_, ?_⟩
  · intro g hg
    rcases List.mem_cons.mp hg with rfl | hold
    · exact htaken
    · exact h.fresh g (List.mem_of_mem_filter hold)
  · intro output' sel' hact'
    cases hact'
  · rw [hrows]
    have hread : EntriesIn cks ranges key (env.readBack (sel.outputRows s.files key)) :=
      (entriesIn_output hspace hin hruns).mono fun e he => hperm.subset he
    exact hread.append (h.tables.mono (partitionRows_mono fun g hg => List.mem_of_mem_filter hg))
  · exact forall_update (p := fun f => DeliveredRun env.schema (f.rows key)) h.delivers hnew hread
      hgens
  · exact forall_update (p := fun f => ∀ st ∈ f.stats, f.Honest st key) h.honest hnew hstats hgens
  · rw [hrows, evidenceAt_append, hread_evidence]
    exact (hpicked.union (Evidence.Drawn.refl _)).trans hdrawn
  · rw [hrows, evidenceAt_append, hread_evidence]
    refine hagrees.replace hmerged (hdrawn.aged (cellReading_ages_none now)) ?_
    exact fun a ha => (cellReading_ages_none now).outlasts_iff.mpr (hnewer a (.inl ha))
  · intro a ha
    exact Evidence.outlasts_union.mpr ⟨hnewer a (.inr ha), h.newer a ha⟩

/-- Every step keeps the invariant. -/
theorem step {e : PurgeEvent} (hsane : StepSane env cks ranges key ck now s e)
    (hout : OutlivesPurges env key ck s e) :
    PurgeInv env cks ranges key ck now (purgeStep env s e) := by
  cases e with
  | write m => exact h.write hsane hout
  | flush => exact h.flush hsane
  | start selected clock => exact h.start hsane
  | finalize => exact h.finalize hs hck hsane hout

end PurgeInv

end Invariant

/-! ### With and without purging -/

section Twin

variable [DebugFmt] {env : PurgeEnv}

/-- Two engines that were told the same: they differ only in what their compactions wrote. -/
structure Twin (s t : PurgeState) : Prop where
  memtable : s.memtable = t.memtable
  published : s.published = t.published
  generation : s.generation = t.generation
  written : s.written = t.written
  activeMerge : s.activeMerge.map (fun a => (a.1, a.2.selected)) =
    t.activeMerge.map fun a => (a.1, a.2.selected)

/-- Purging changes nothing in what the engine does next. -/
theorem Twin.step {s t : PurgeState} (h : Twin s t) (e : PurgeEvent) :
    Twin (purgeStep env s e) (purgeStep env.unpurged t e) := by
  obtain ⟨hm, hp, hg, hw, ha⟩ := h
  have hnone : s.activeMerge.isNone = t.activeMerge.isNone := by
    rw [← Option.isNone_map, ha, Option.isNone_map]
  cases e with
  | write m => exact ⟨by rw [purgeStep, purgeStep, hm], hp, hg, hw, ha⟩
  | flush =>
    rw [purgeStep, purgeStep, flushStep, flushStep, hm]
    split
    · exact ⟨hm, hp, hg, hw, ha⟩
    · exact ⟨rfl, by rw [hp, hg], by rw [hg], by simp only [hw, PurgeEnv.unpurged], ha⟩
  | start selected clock =>
    have hmay : s.mayStart selected = t.mayStart selected := by
      rw [PurgeState.mayStart, PurgeState.mayStart, hnone, hp]
    rw [purgeStep, purgeStep, startStep, startStep, hmay]
    split
    · exact ⟨hm, hp, by rw [hg], hw, by simp only [hg, Option.map_some]⟩
    · exact ⟨hm, hp, hg, hw, ha⟩
  | finalize =>
    rw [purgeStep, purgeStep, finalizeStep, finalizeStep]
    cases hs : s.activeMerge with
    | none =>
      cases ht : t.activeMerge with
      | none => exact ⟨hm, hp, hg, hw, by rw [hs, ht]⟩
      | some b =>
        rw [hs, ht] at ha
        cases ha
    | some a =>
      cases ht : t.activeMerge with
      | none =>
        rw [hs, ht] at ha
        cases ha
      | some b =>
        obtain ⟨output, sel⟩ := a
        obtain ⟨output', sel'⟩ := b
        simp only [hs, ht, Option.map_some, Option.some.injEq, Prod.mk.injEq] at ha
        refine ⟨hm, ?_, hg, hw, rfl⟩
        simp only [mem_reclaimed, hp, ha.1, ha.2]

variable {cks : List ClusteringKey} {ranges : List RangeTombstone} {key : DecoratedKey}
  {ck : Option ClusteringKey} {now : Int}

/-- The invariant holds after every run of steps that meet the conditions. -/
theorem PurgeInv.run (env : PurgeEnv) (hs : KeySpace env.schema cks ranges)
    (hck : ck ∈ optionalKeys cks) {s : PurgeState} {events : List PurgeEvent}
    (h : PurgeInv env cks ranges key ck now s)
    (hrun : Machine.Along (purgeStep env) (fun s e => StepSane env cks ranges key ck now s e ∧
      OutlivesPurges env key ck s e) s events) :
    PurgeInv env cks ranges key ck now (Machine.run (purgeStep env) s events) :=
  Machine.inv_of_along (fun _ _ hinv hc => hinv.step hs hck hc.1 hc.2) h hrun

end Twin

/-! ### A write during a merge -/

variable {gcBefore : Option Int}

variable {rows : List MergeEntry}

end Cqlite
