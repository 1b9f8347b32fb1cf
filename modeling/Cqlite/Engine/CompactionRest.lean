import Cqlite.Engine.CompactionTies
import Cqlite.Engine.Generations

/-! How often the background compaction of a table runs (`write_engine/maintenance.rs`,
    `write_engine/merge_policy.rs`), with flushes between any two of its steps. The ratios of the
    policy are read over the rationals. -/

namespace Cqlite

namespace Published

variable {π : Type} [LinearOrder π] {policy : STCSPolicy}

/-- Published merges; flushes, and inputs that were not deleted; the SSTables; the inputs of the
    active merge. A merge that fails, or that a crash ends, leaves its inputs. Sizes are arbitrary. -/
inductive Maintained (policy : STCSPolicy) (table : Published π) :
    Nat → Nat → Published π → Option (List Nat) → Prop
  | start : Maintained policy table 0 0 table none
  | flush {m n s s' active g} : Maintained policy table m n s active → s'.live.Perm (g :: s.live) →
      Maintained policy table m (n + 1) s' active
  | select {m n s} : Maintained policy table m n s none → s.selected policy ≠ [] →
      Maintained policy table m n s (some (s.selected policy))
  | abandon {m n s active} : Maintained policy table m n s active → Maintained policy table m n s none
  -- a crash after the rename, or a failed deletion, leaves inputs beside the output
  | finish {m n s s' inputs g} {k : List Nat} : Maintained policy table m n s (some inputs) →
      s'.live.Perm (g :: s.live.filter fun h => h ∉ inputs ∨ h ∈ k) →
      Maintained policy table (m + 1) (n + k.length) s' none

section Engine

variable {table s s' : Published π} {m n : Nat} {active : Option (List Nat)} {state : GenState}
  {e : GenEngine}

/-- A flush that the engine commits is one of the table. -/
theorem Maintained.genStep_flush (h : Maintained policy table m n s active)
    (hlive : s.live.Perm state.published) (hengine : state.engine = some e)
    (hfilled : e.memtableEmpty = false) (hfresh : e.generation ∉ state.published)
    (hlive' : s'.live.Perm (genStep state (.flush .committed)).published) :
    Maintained policy table m (n + 1) s' active := by
  refine .flush (g := e.generation) h (hlive'.trans ?_)
  simp only [genStep, hengine, flushInternal, hfilled, Bool.false_eq_true, if_false, publish,
    if_neg hfresh]
  exact (hlive.cons _).symm

/-- A merge that the engine finalizes is finished in the table, whichever deletions fail. -/
theorem Maintained.genStep_finalize {inputs kept : List Nat} {ticket : MergeTicket}
    (h : Maintained policy table m n s (some inputs)) (hlive : s.live.Perm state.published)
    (hengine : state.engine = some e) (hinv : EngineInv state.published e)
    (hactive : e.activeMerge = some ticket) (hconsumed : ticket.consumed.Perm inputs)
    (hlive' : s'.live.Perm (genStep state (.finalize (.published kept))).published) :
    Maintained policy table (m + 1) (n + kept.length) s' none := by
  obtain ⟨-, hfresh⟩ := hinv.output ticket hactive
  have hout : ticket.output ∉ inputs := fun hin =>
    lt_irrefl _ (hinv.consumed ticket hactive _ (hconsumed.mem_iff.mpr hin))
  refine .finish (g := ticket.output) h (hlive'.trans ?_)
  simp only [genStep, hengine, finalizeMerge, hactive, publish, if_neg hfresh,
    hconsumed.mem_iff]
  rw [List.filter_cons_of_pos (by simp [hout])]
  exact ((hlive.filter _).cons _).symm

end Engine

theorem minThreshold_le_selected {table : Published π}
    (hmax : policy.minThreshold ≤ policy.maxThreshold) (h : table.selected policy ≠ []) :
    policy.minThreshold ≤ (table.selected policy).length := by
  obtain ⟨g, hg⟩ := List.exists_mem_of_ne_nil _ h
  obtain ⟨-, hmany, tier, htier, -⟩ := mem_selected.mp hg
  have hlen : policy.minThreshold ≤ tier.length := by simpa using List.find?_some htier
  obtain ⟨hsub, hsorted⟩ := STCSPolicy.bucket_spec table.candidates_nodup
    (List.mem_of_find?_eq_some htier)
  have hnodup : (tier.take policy.maxThreshold).Nodup :=
    (hsorted.sublist (List.take_sublist ..)).imp fun {f g} hlt heq => by
      rw [heq] at hlt
      exact lt_irrefl _ hlt
  have hin : tier.take policy.maxThreshold ⊆ (table.selected policy).map table.metadata := by
    intro f hf
    obtain ⟨g, hlive, rfl⟩ := List.mem_map.mp (hsub f (List.mem_of_mem_take hf))
    exact List.mem_map_of_mem (mem_selected.mpr ⟨hlive, hmany, tier, htier, hf⟩)
  have hle := (hnodup.subperm hin).length_le
  rw [List.length_take, List.length_map] at hle
  omega

theorem length_kept_add {live inputs : List Nat} (kept : List Nat) (hlive : live.Nodup)
    (hnodup : inputs.Nodup) (hsub : inputs ⊆ live) :
    (live.filter fun h => h ∉ inputs ∨ h ∈ kept).length + inputs.length ≤
      live.length + kept.length := by
  have hkept : (live.filter fun h => h ∉ inputs ∨ h ∈ kept) ⊆ live.filter (· ∉ inputs) ++ kept := by
    intro h hh
    obtain ⟨hl, hout | hin⟩ := by simpa using hh
    · exact List.mem_append_left _ (List.mem_filter.mpr ⟨hl, by simpa using hout⟩)
    · exact List.mem_append_right _ hin
  have hout := ((hlive.filter _).subperm hkept).length_le
  have hin : inputs.length ≤ (live.filter (· ∈ inputs)).length :=
    (hnodup.subperm fun g hg => List.mem_filter.mpr ⟨hsub hg, by simpa using hg⟩).length_le
  have hsplit := List.length_eq_length_filter_add (l := live) (· ∈ inputs)
  rw [List.length_append] at hout
  simp only [decide_not] at *
  omega

/-- The inputs of an active merge stay published. -/
theorem Maintained.bounded {table s : Published π} {m n : Nat} {active : Option (List Nat)}
    (hmin : 0 < policy.minThreshold) (hmax : policy.minThreshold ≤ policy.maxThreshold)
    (h : Maintained policy table m n s active) :
    m * (policy.minThreshold - 1) + s.live.length ≤ table.live.length + n ∧ ∀ inputs ∈ active,
      inputs.Nodup ∧ inputs ⊆ s.live ∧ policy.minThreshold ≤ inputs.length := by
  induction h with
  | start => simp
  | flush _ hlive ih =>
    refine ⟨by rw [hlive.length_eq, List.length_cons]; omega, fun inputs hin => ?_⟩
    obtain ⟨hnodup, hsub, hlen⟩ := ih.2 inputs hin
    exact ⟨hnodup, fun g hg => hlive.mem_iff.mpr (List.mem_cons_of_mem _ (hsub hg)), hlen⟩
  | select _ hne ih =>
    refine ⟨ih.1, fun inputs hin => ?_⟩
    obtain rfl := Option.mem_some.mp hin
    exact ⟨selected_nodup, fun g hg => (mem_selected.mp hg).1, minThreshold_le_selected hmax hne⟩
  | abandon _ ih => exact ⟨ih.1, by simp⟩
  | @finish _ _ s _ _ _ kept _ hlive ih =>
    obtain ⟨hnodup, hsub, hlen⟩ := ih.2 _ rfl
    have hout := length_kept_add kept s.nodup hnodup hsub
    refine ⟨?_, by simp⟩
    rw [hlive.length_eq, List.length_cons, Nat.add_mul]
    omega

/-- A policy that asks for one SSTable selects the only one. -/
theorem mem_selected_sole {table : Published π} {g : Nat} (hlive : table.live = [g])
    (hone : policy.minThreshold = 1) (hmax : policy.minThreshold ≤ policy.maxThreshold) :
    g ∈ table.selected policy := by
  have hbucket : policy.groupIntoBuckets table.candidates = [[table.metadata g]] := by
    simp [candidates, hlive, STCSPolicy.groupIntoBuckets, STCSPolicy.bucketsByAverage, sortFiles,
      STCSPolicy.orderBuckets, STCSPolicy.placeFile, STCSPolicy.firstFit, BucketMap.keys,
      BucketMap.insert, BucketMap.remove]
  refine mem_selected.mpr ⟨by simp [hlive], by simp [hlive, hone], [table.metadata g], ?_, ?_⟩
  · simp [hbucket, hone]
  · rw [List.take_of_length_le (by simp; omega)]
    exact List.mem_singleton_self _

/-- Between flushes, compaction comes to rest: every merge whose inputs are deleted takes
    `min_threshold - 1` SSTables away. A `min_threshold` of 1 compacts a sole SSTable again and again. -/
theorem compactions_come_to_rest (hmin : 0 < policy.minThreshold)
    (hmax : policy.minThreshold ≤ policy.maxThreshold) (table : Published π) :
    (∀ s m n active, Maintained policy table m n s active →
      m * (policy.minThreshold - 1) + s.live.length ≤ table.live.length + n) ∧
    (policy.minThreshold = 1 → table.live.length = 1 →
      ∀ m, ∃ s, Maintained policy table m 0 s none ∧ s.live.length = 1) := by
  refine ⟨fun s m n active h => (h.bounded hmin hmax).1, fun hone hsole m => ?_⟩
  induction m with
  | zero => exact ⟨table, .start, hsole⟩
  | succ m ih =>
    obtain ⟨s, hrun, hlen⟩ := ih
    obtain ⟨g, hlive⟩ := List.length_eq_one_iff.mp hlen
    have hmem := mem_selected_sole hlive hone hmax
    refine ⟨⟨[g + 1], s.metadata, g + 2, by simp, by simp, by simp⟩,
      .finish (g := g + 1) (k := []) (.select hrun (List.ne_nil_of_mem hmem)) ?_, rfl⟩
    simp [hlive, hmem]

/-- Four SSTables of one size are merged. -/
theorem fourTables_come_to_rest : ∃ s, Maintained .default (fourTables fun _ => 1) 1 0 s none ∧
    1 * (4 - 1) + s.live.length ≤ 4 + 0 := by
  have hrun : Maintained .default (fourTables fun _ => 1) 1 0
      ⟨[5], fun g => ⟨g, 1⟩, 6, by decide, by simp, by decide⟩ none :=
    .finish (g := 5) (k := []) (.select .start (by decide +kernel)) (by decide +kernel)
  exact ⟨_, hrun, (compactions_come_to_rest (by decide) (by decide) _).1 _ _ _ _ hrun⟩

end Published

end Cqlite
