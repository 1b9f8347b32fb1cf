import Cqlite.Lib.Machine
import Mathlib.Data.List.MinMax

/-! Generation numbers of flushes and compactions (`write_engine/mod.rs`, `compaction.rs`).

    The table directory is the generations published in it (those with a `TOC.txt`) and those that
    left other files. Which outcome a call has (an I/O failure at each of its fallible points) is
    part of the event. -/

namespace Cqlite

/-! ### State -/

/-- A merge between `start_merge` and its finalization. -/
structure MergeTicket where
  output : Nat
  inputs : List Nat
  dropped : List Nat

/-- The SSTables that the finalization of a merge deletes. -/
def MergeTicket.consumed (m : MergeTicket) : List Nat := m.inputs ++ m.dropped

/-- An open engine. `retryOwed` is not a field of the source: it records that a flush of this engine
    failed after publishing its SSTable and has not been repeated. -/
structure GenEngine where
  generation : Nat
  memtableEmpty : Bool
  activeMerge : Option MergeTicket
  retryOwed : Bool

structure GenState where
  published : List Nat
  leftovers : List Nat
  engine : Option GenEngine

/-! ### Steps -/

/-- `determine_next_generation`, over every file of the data directory. The generations are `u64`;
    none of them is so great that adding one wraps. -/
def determineNextGeneration (files : List Nat) : Nat := files.foldl max 0 + 1

def publish (g : Nat) (published : List Nat) : List Nat :=
  if g ∈ published then published else g :: published

/-- `WriteEngine::new`; the sweep may leave files behind, and the log may hold mutations. -/
def openEngine (swept walEmpty : Bool) (s : GenState) : GenState :=
  let leftovers := if swept then [] else s.leftovers
  { s with
    leftovers := leftovers
    engine := some ⟨determineNextGeneration (s.published ++ leftovers), walEmpty, none, false⟩ }

/-- How `flush_internal_async` ends. -/
inductive FlushOutcome
  /-- the writer failed, having overwritten files of its generation or not -/
  | failedBeforePublish (overwritten : Bool)
  /-- a directory fsync failed: published, counter not advanced -/
  | failedAfterPublish
  /-- the state was committed, with or without a late log truncation error -/
  | committed

def flushInternal (outcome : FlushOutcome) (s : GenState) (e : GenEngine) : GenState :=
  if e.memtableEmpty then s
  else
    match outcome with
    | .failedBeforePublish overwritten =>
      { published := if overwritten then s.published.filter (· ≠ e.generation) else s.published
        leftovers := e.generation :: s.leftovers
        engine := some { e with retryOwed := e.retryOwed && !overwritten } }
    | .failedAfterPublish =>
      { s with
        published := publish e.generation s.published
        engine := some { e with retryOwed := true } }
    | .committed =>
      { s with
        published := publish e.generation s.published
        engine := some { e with
          generation := e.generation + 1, memtableEmpty := true, retryOwed := false } }

/-- A merge may start: none is active, and what it consumes was found in the directory. -/
def canStart (s : GenState) (e : GenEngine) (inputs dropped : List Nat) : Prop :=
  e.activeMerge = none ∧ inputs ≠ [] ∧ ∀ g ∈ inputs ++ dropped, g ∈ s.published

instance (s : GenState) (e : GenEngine) (inputs dropped : List Nat) :
    Decidable (canStart s e inputs dropped) :=
  decidable_of_iff (e.activeMerge.isNone ∧ inputs ≠ [] ∧ ∀ g ∈ inputs ++ dropped, g ∈ s.published)
    (by simp [canStart])

/-- `start_merge`: the counter moves at the end, when nothing can fail any more. -/
def startMerge (inputs dropped : List Nat) (s : GenState) (e : GenEngine) : GenState :=
  if canStart s e inputs dropped then
    { s with
      engine := some { e with
        generation := e.generation + 1
        activeMerge := some ⟨e.generation, inputs, dropped⟩ } }
  else s

/-- How `finalize_merge_async` ends. -/
inductive FinalizeOutcome
  /-- the writer failed, or a rename did and the renamed files were removed again -/
  | failed (renamed : Bool)
  /-- published; the deletion of the SSTables in `kept` failed -/
  | published (kept : List Nat)

def finalizeMerge (outcome : FinalizeOutcome) (s : GenState) (e : GenEngine) : GenState :=
  match e.activeMerge with
  | none => s
  | some m =>
    match outcome with
    | .failed renamed =>
      { published := if renamed then s.published.filter (· ≠ m.output) else s.published
        leftovers := m.output :: s.leftovers
        engine := some { e with activeMerge := none } }
    | .published kept =>
      { s with
        published := (publish m.output s.published).filter fun g => g ∉ m.consumed ∨ g ∈ kept
        engine := some { e with activeMerge := none } }

/-- What happens to an engine; a `maintenance_step` that neither starts nor finishes a merge changes
    no generation. -/
inductive GenEvent
  | reopen (swept walEmpty : Bool)
  | crash
  | write
  | flush (outcome : FlushOutcome)
  | startMergeFails
  | startMerge (inputs dropped : List Nat)
  | maintenance
  | finalize (outcome : FinalizeOutcome)

def genStep (s : GenState) (event : GenEvent) : GenState :=
  match event, s.engine with
  | .reopen swept walEmpty, none => openEngine swept walEmpty s
  | .crash, some _ => { s with engine := none }
  | .write, some e => { s with engine := some { e with memtableEmpty := false } }
  | .flush outcome, some e => flushInternal outcome s e
  | .startMerge inputs dropped, some e => startMerge inputs dropped s e
  | .finalize outcome, some e => finalizeMerge outcome s e
  | _, _ => s

/-! ### Fresh generations -/

/-- The generation that a step takes for its output is not published. A flush that repeats one that
    failed after publishing replaces its own SSTable; no other may. A merge neither overwrites nor
    consumes its output, which is published when it is done. -/
def FreshGeneration (s : GenState) (event : GenEvent) : Prop :=
  match event, s.engine with
  | .flush _, some e =>
    e.memtableEmpty = false → e.generation ∈ s.published → e.retryOwed = true
  | .startMerge inputs dropped, some e => canStart s e inputs dropped → e.generation ∉ s.published
  | .finalize outcome, some e =>
    ∀ m, e.activeMerge = some m → m.output ∉ s.published ∧ m.output ∉ m.consumed ∧
      ∀ kept, outcome = .published kept → m.output ∈ (genStep s event).published
  | _, _ => True

/-- No merge starts between a flush that failed after publishing and its repetition. -/
def NoMergeWhileOwed (s : GenState) (event : GenEvent) : Prop :=
  match event, s.engine with
  | .startMerge inputs dropped, some e => canStart s e inputs dropped → e.retryOwed = false
  | _, _ => True

/-- The counter is above every published generation, except for the one of a flush that is owed. -/
structure EngineInv (published : List Nat) (e : GenEngine) : Prop where
  below : ∀ g ∈ published, g < e.generation ∨ g = e.generation ∧ e.retryOwed = true
  owed : e.retryOwed = true → e.generation ∈ published
  output : ∀ m, e.activeMerge = some m → m.output < e.generation ∧ m.output ∉ published
  consumed : ∀ m, e.activeMerge = some m → ∀ g ∈ m.consumed, g < m.output

def GenInv (s : GenState) : Prop := ∀ e, s.engine = some e → EngineInv s.published e

theorem mem_publish {g h : Nat} {published : List Nat} :
    h ∈ publish g published ↔ h = g ∨ h ∈ published := by
  rw [publish]
  split
  · rename_i hg
    constructor
    · exact .inr
    · rintro (rfl | hh)
      · exact hg
      · exact hh
  · exact List.mem_cons

theorem lt_determineNextGeneration {files : List Nat} {g : Nat} (h : g ∈ files) :
    g < determineNextGeneration files := by
  have hmax : ∀ (l : List Nat) (a : Nat), a ≤ l.foldl max a ∧ ∀ x ∈ l, x ≤ l.foldl max a := by
    intro l
    induction l with
    | nil => simp
    | cons y l ih =>
      intro a
      obtain ⟨hacc, hmem⟩ := ih (max a y)
      refine ⟨le_trans (Nat.le_max_left a y) hacc, fun x hx => ?_⟩
      rcases List.mem_cons.mp hx with rfl | hx
      · exact le_trans (Nat.le_max_right a x) hacc
      · exact hmem x hx
  exact Nat.lt_succ_of_le ((hmax files 0).2 g h)

theorem openEngine_inv (swept walEmpty : Bool) (s : GenState) :
    GenInv (openEngine swept walEmpty s) := by
  rintro e he
  obtain rfl := Option.some.inj he
  refine ⟨fun g hg => .inl (lt_determineNextGeneration (List.mem_append_left _ hg)), ?_, ?_, ?_⟩
  · rintro ⟨⟩
  · intro m hm
    cases hm
  · intro m hm
    cases hm

theorem flushInternal_inv {s : GenState} {e : GenEngine} (he : s.engine = some e)
    (h : EngineInv s.published e) (outcome : FlushOutcome) : GenInv (flushInternal outcome s e) := by
  rw [flushInternal.eq_def]
  split
  · rintro e' he'
    obtain rfl := Option.some.inj (he.symm.trans he')
    exact h
  rintro e' he'
  cases outcome with
  | failedBeforePublish overwritten =>
    obtain rfl := Option.some.inj he'
    have hsub : ∀ g ∈ (if overwritten then s.published.filter (· ≠ e.generation) else s.published),
        g ∈ s.published := by
      intro g hg
      cases overwritten with
      | true => exact (List.mem_filter.mp hg).1
      | false => exact hg
    refine ⟨fun g hg => ?_, fun ho => ?_, fun m hm => ?_, h.consumed⟩
    · rcases h.below g (hsub g hg) with hlt | ⟨rfl, ho⟩
      · exact .inl hlt
      · cases overwritten with
        | true => simp at hg
        | false => exact .inr ⟨rfl, by simpa using ho⟩
    · obtain ⟨ho, hn⟩ : e.retryOwed = true ∧ overwritten = false := by simpa using ho
      simpa [hn] using h.owed ho
    · exact ⟨(h.output m hm).1, fun hmem => (h.output m hm).2 (hsub _ hmem)⟩
  | failedAfterPublish =>
    obtain rfl := Option.some.inj he'
    refine ⟨fun g hg => ?_, fun _ => mem_publish.mpr (.inl rfl), fun m hm => ?_, h.consumed⟩
    · rcases mem_publish.mp hg with rfl | hg
      · exact .inr ⟨rfl, rfl⟩
      · rcases h.below g hg with hlt | ⟨hge, -⟩
        · exact .inl hlt
        · exact .inr ⟨hge, rfl⟩
    · obtain ⟨hlt, hout⟩ := h.output m hm
      refine ⟨hlt, fun hmem => ?_⟩
      rcases mem_publish.mp hmem with heq | hmem
      · exact absurd heq (Nat.ne_of_lt hlt)
      · exact hout hmem
  | committed =>
    obtain rfl := Option.some.inj he'
    refine ⟨fun g hg => .inl ?_, by rintro ⟨⟩, fun m hm => ?_, h.consumed⟩
    · rcases mem_publish.mp hg with rfl | hg
      · exact Nat.lt_succ_self _
      · rcases h.below g hg with hlt | ⟨rfl, -⟩
        · exact Nat.lt_succ_of_lt hlt
        · exact Nat.lt_succ_self _
    · obtain ⟨hlt, hout⟩ := h.output m hm
      refine ⟨Nat.lt_succ_of_lt hlt, fun hmem => ?_⟩
      rcases mem_publish.mp hmem with heq | hmem
      · exact absurd heq (Nat.ne_of_lt hlt)
      · exact hout hmem

theorem startMerge_inv {s : GenState} {e : GenEngine} (he : s.engine = some e)
    (h : EngineInv s.published e) {inputs dropped : List Nat}
    (hclear : canStart s e inputs dropped → e.retryOwed = false) :
    GenInv (startMerge inputs dropped s e) := by
  rw [startMerge]
  split
  · rename_i hcan
    have hno := hclear hcan
    have hlt : ∀ g ∈ s.published, g < e.generation := by
      intro g hg
      rcases h.below g hg with hlt | ⟨-, ho⟩
      · exact hlt
      · rw [hno] at ho
        cases ho
    rintro e' he'
    obtain rfl := Option.some.inj he'
    refine ⟨fun g hg => .inl (Nat.lt_succ_of_lt (hlt g hg)), ?_, ?_, ?_⟩
    · intro ho
      rw [hno] at ho
      cases ho
    · rintro m hm
      obtain rfl := Option.some.inj hm
      exact ⟨Nat.lt_succ_self _, fun hmem => Nat.lt_irrefl _ (hlt _ hmem)⟩
    · rintro m hm g hg
      obtain rfl := Option.some.inj hm
      exact hlt g (hcan.2.2 g hg)
  · rintro e' he'
    obtain rfl := Option.some.inj (he.symm.trans he')
    exact h

theorem finalizeMerge_inv {s : GenState} {e : GenEngine} (he : s.engine = some e)
    (h : EngineInv s.published e) (outcome : FinalizeOutcome) :
    GenInv (finalizeMerge outcome s e) := by
  rw [finalizeMerge]
  cases hm : e.activeMerge with
  | none =>
    rintro e' he'
    obtain rfl := Option.some.inj (he.symm.trans he')
    exact h
  | some m =>
    obtain ⟨hlt, hout⟩ := h.output m hm
    rintro e' he'
    cases outcome with
    | failed renamed =>
      obtain rfl := Option.some.inj he'
      -- the output was not published, so removing it changes nothing
      have hsame : s.published.filter (· ≠ m.output) = s.published := by
        refine List.filter_eq_self.mpr fun g hg => ?_
        simpa using fun heq : g = m.output => hout (heq ▸ hg)
      have hpub : (if renamed then s.published.filter (· ≠ m.output) else s.published) =
          s.published := by
        rw [hsame, ite_self]
      refine ⟨?_, ?_, ?_, ?_⟩
      · simpa only [hpub] using h.below
      · simpa only [hpub] using h.owed
      · intro m' hm'
        cases hm'
      · intro m' hm'
        cases hm'
    | published kept =>
      obtain rfl := Option.some.inj he'
      refine ⟨fun g hg => ?_, fun ho => ?_, ?_, ?_⟩
      · rcases mem_publish.mp (List.mem_filter.mp hg).1 with rfl | hg
        · exact .inl hlt
        · exact h.below g hg
      · refine List.mem_filter.mpr ⟨mem_publish.mpr (.inr (h.owed ho)), ?_⟩
        have : e.generation ∉ m.consumed := fun hmem =>
          Nat.lt_asymm hlt (h.consumed m hm _ hmem)
        simp [this]
      · intro m' hm'
        cases hm'
      · intro m' hm'
        cases hm'

theorem genStep_inv (s : GenState) (event : GenEvent) (h : GenInv s)
    (hclear : NoMergeWhileOwed s event) : GenInv (genStep s event) := by
  cases he : s.engine with
  | none =>
    cases event with
    | reopen swept walEmpty =>
      simp only [genStep, he]
      exact openEngine_inv swept walEmpty s
    | _ =>
      simp only [genStep, he]
      exact h
  | some e =>
    have hinv := h e he
    cases event with
    | crash =>
      simp only [genStep, he]
      intro e' he'
      cases he'
    | write =>
      simp only [genStep, he]
      intro e' he'
      obtain rfl := Option.some.inj he'
      exact ⟨hinv.below, hinv.owed, hinv.output, hinv.consumed⟩
    | flush outcome =>
      simp only [genStep, he]
      exact flushInternal_inv he hinv outcome
    | startMerge inputs dropped =>
      simp only [genStep, he]
      simp only [NoMergeWhileOwed, he] at hclear
      exact startMerge_inv he hinv hclear
    | finalize outcome =>
      simp only [genStep, he]
      exact finalizeMerge_inv he hinv outcome
    | _ =>
      simp only [genStep, he]
      exact h

/-- At one step: under the invariant only a merge that starts too early takes a used generation. -/
theorem freshGeneration_iff (s : GenState) (event : GenEvent) (h : GenInv s) :
    FreshGeneration s event ↔ NoMergeWhileOwed s event := by
  cases he : s.engine with
  | none => cases event <;> simp [FreshGeneration, NoMergeWhileOwed, he]
  | some e =>
    have hinv := h e he
    cases event with
    | flush outcome =>
      simp only [FreshGeneration, NoMergeWhileOwed, he, iff_true]
      intro _ hmem
      rcases hinv.below _ hmem with hlt | ⟨-, ho⟩
      · exact absurd hlt (Nat.lt_irrefl _)
      · exact ho
    | startMerge inputs dropped =>
      simp only [FreshGeneration, NoMergeWhileOwed, he]
      refine imp_congr_right fun _ => ?_
      constructor
      · intro hfresh
        exact Bool.eq_false_iff.mpr fun ho => hfresh (hinv.owed ho)
      · intro hno hmem
        rcases hinv.below _ hmem with hlt | ⟨-, ho⟩
        · exact Nat.lt_irrefl _ hlt
        · rw [hno] at ho
          cases ho
    | finalize outcome =>
      simp only [FreshGeneration, NoMergeWhileOwed, he, iff_true]
      intro m hm
      have hself : m.output ∉ m.consumed := fun hmem => Nat.lt_irrefl _ (hinv.consumed m hm _ hmem)
      refine ⟨(hinv.output m hm).2, hself, ?_⟩
      rintro kept rfl
      simp only [genStep, he, finalizeMerge, hm]
      exact List.mem_filter.mpr ⟨mem_publish.mpr (.inl rfl), by simp [hself]⟩
    | _ => simp [FreshGeneration, NoMergeWhileOwed]

/-- Along every run from a closed engine, outputs get fresh generations exactly when no merge starts
    between a flush that failed after publishing and its repetition. -/
theorem generations_fresh_iff (published leftovers : List Nat) (events : List GenEvent) :
    Machine.Along genStep FreshGeneration ⟨published, leftovers, none⟩ events ↔
      Machine.Along genStep NoMergeWhileOwed ⟨published, leftovers, none⟩ events := by
  refine Machine.along_iff genStep_inv freshGeneration_iff ?_
  intro e he
  cases he

/-- Three flushes, a fourth that fails after publishing, and a merge of the four SSTables. -/
def collidingRun : List GenEvent :=
  [.reopen true true, .write, .flush .committed, .write, .flush .committed, .write,
    .flush .committed, .write, .flush .failedAfterPublish, .startMerge [1, 2, 3, 4] [],
    .finalize (.published [])]

/-- The merge takes the generation of one of its inputs: the finalization renames the output over
    the input and then deletes it, and nothing is left. -/
theorem merge_deletes_its_output :
    ¬ Machine.Along genStep FreshGeneration ⟨[], [], none⟩ collidingRun ∧
    (Machine.run genStep ⟨[], [], none⟩ collidingRun).published = [] := by
  refine ⟨?_, by decide⟩
  rintro ⟨-, -, -, -, -, -, -, -, -, hstart, -⟩
  have hcan : canStart ⟨[4, 3, 2, 1], [], some ⟨4, false, none, true⟩⟩ ⟨4, false, none, true⟩
      [1, 2, 3, 4] [] := by
    decide
  exact hstart hcan List.mem_cons_self

end Cqlite
