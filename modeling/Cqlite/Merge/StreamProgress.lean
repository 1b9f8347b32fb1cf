import Mathlib.Order.WellFounded
import Cqlite.Merge.Drain

/-! Progress of the streaming merger: what the state looks like after a step, and a weight that every
    step before completion lowers. Both hold for any runs, failing reads included. -/

namespace Cqlite

namespace StreamingMerger

variable [DebugFmt] {cfg : MergerConfig} {size : MergeEntry → Nat}

/-! ### The state after a step -/

/-- A cluster group belongs to the partition in progress; a partition end leaves none. -/
def StepShape (key : DecoratedKey) : StreamingStep → StreamingMerger → Prop
  | .clusterGroup k _, sm => k = key ∧ sm.partitionKey = some key
  | .partitionEnd k, sm => k = key ∧ sm.partitionKey = none ∧ sm.state.pendingRows = []
  | .complete, _ => False

variable {c : Checkpoint} {m : MergerState} {s : StreamingStep} {sm a b : StreamingMerger}

variable {key : DecoratedKey}

omit [DebugFmt] in
theorem yieldPending_shape {other : Except StreamError StreamingStep × StreamingMerger}
    (hother : c.pendingRows = [] → ∀ s sm, other = (.ok s, sm) → StepShape key s sm)
    (h : yieldPending m key c other = (.ok s, sm)) : StepShape key s sm := by
  unfold yieldPending at h
  cases hp : c.pendingRows with
  | nil =>
    rw [hp] at h
    exact hother hp s sm h
  | cons row rest =>
    rw [hp] at h
    cases h
    exact ⟨rfl, rfl⟩

theorem finish_shape (h : yieldPending m key (c.endPartition cfg)
      (.ok (.partitionEnd key), ⟨m, none, c.endPartition cfg⟩) = (.ok s, sm)) :
    StepShape key s sm := by
  refine yieldPending_shape (fun hp s sm heq => ?_) h
  cases heq
  exact ⟨rfl, rfl, hp⟩

theorem pullLoop_shape (h : pullLoop cfg size key m c = (.ok s, sm)) :
    StepShape key s sm := by
  induction hn : m.remaining using Nat.strongRecOn generalizing m c s sm with
  | ind n ih =>
    cases hpull : m.pull cfg.schema size with
    | none =>
      rw [pullLoop_none cfg size hpull] at h
      exact finish_shape h
    | some pulled =>
      obtain ⟨entry, verdict, m'⟩ := pulled
      rw [pullLoop] at h
      split at h
      · exact finish_shape h
      · rename_i entry' verdict' m'' hpull'
        rw [hpull] at hpull'
        cases hpull'
        split at h
        · cases verdict with
          | error x => cases h
          | ok u =>
            refine yieldPending_shape (fun _ s sm heq => ?_) h
            exact ih m'.remaining (hn ▸ MergerState.pull_remaining hpull) heq rfl
        · exact finish_shape h

/-- What `step_streaming` returns, read off the partition in progress before and after it. -/
theorem stepStreaming_shape {sm' : StreamingMerger} (h : sm.stepStreaming cfg size = (.ok s, sm')) :
    (s = .complete ∧ sm.partitionKey = none) ∨
      ∃ key, StepShape key s sm' ∧ ∀ k, sm.partitionKey = some k → k = key := by
  unfold stepStreaming at h
  cases hkey : sm.partitionKey with
  | some key =>
    rw [hkey] at h
    exact .inr ⟨key, yieldPending_shape (fun _ _ _ heq => pullLoop_shape heq) h,
      fun k hk => (Option.some.inj hk).symm⟩
  | none =>
    rw [hkey] at h
    simp only at h
    split at h
    · cases h
    · cases hens : ensureHeap size sm.merger with
      | mk verdict m =>
        rw [hens] at h
        cases verdict with
        | error x => cases h
        | ok u =>
          simp only at h
          cases hpop : popMin cfg.schema m.heap with
          | none =>
            rw [hpop] at h
            cases h
            exact .inl ⟨rfl, rfl⟩
          | some p =>
            rw [hpop] at h
            exact .inr ⟨p.1.key, pullLoop_shape h, fun k hk => (nomatch hk)⟩

/-! ### The weight of a state -/

/-- Before the end of the partition, between its end and its last row, or between partitions. -/
noncomputable def phase (sm : StreamingMerger) : Nat :=
  open Classical in
  if sm.partitionKey = none then 0 else if sm.state.Ended then 1 else 2

/-- Entries still to be read, then the phase, then the rows still to be yielded. -/
noncomputable def weight (sm : StreamingMerger) : ℕ ×ₗ ℕ ×ₗ ℕ :=
  toLex (sm.merger.remaining, toLex (sm.phase, sm.state.pendingRows.length))

omit [DebugFmt] in
theorem weight_lt_of_remaining (h : a.merger.remaining < b.merger.remaining) :
    a.weight < b.weight :=
  Prod.Lex.toLex_lt_toLex.mpr (.inl h)

omit [DebugFmt] in
theorem weight_lt_of_phase (hr : a.merger.remaining = b.merger.remaining) (h : a.phase < b.phase) :
    a.weight < b.weight :=
  Prod.Lex.toLex_lt_toLex.mpr (.inr ⟨hr, Prod.Lex.toLex_lt_toLex.mpr (.inl h)⟩)

omit [DebugFmt] in
theorem weight_lt_of_pending (hr : a.merger.remaining = b.merger.remaining)
    (hphase : a.phase = b.phase) (h : a.state.pendingRows.length < b.state.pendingRows.length) :
    a.weight < b.weight :=
  Prod.Lex.toLex_lt_toLex.mpr (.inr ⟨hr, Prod.Lex.toLex_lt_toLex.mpr (.inr ⟨hphase, h⟩)⟩)

variable (cfg size) in
/-- The loop never gives entries back. -/
theorem pullLoop_remaining (key : DecoratedKey) (m : MergerState) (c : Checkpoint) :
    (pullLoop cfg size key m c).2.merger.remaining ≤ m.remaining := by
  have hyield : ∀ (m' : MergerState) (c' : Checkpoint)
      (other : Except StreamError StreamingStep × StreamingMerger),
      m'.remaining ≤ m.remaining → other.2.merger.remaining ≤ m.remaining →
      (yieldPending m' key c' other).2.merger.remaining ≤ m.remaining := by
    intro m' c' other hm hother
    unfold yieldPending
    split
    · exact hm
    · exact hother
  induction hn : m.remaining using Nat.strongRecOn generalizing m c with
  | ind n ih =>
    subst hn
    rw [pullLoop]
    split
    · exact hyield _ _ _ le_rfl le_rfl
    · rename_i entry verdict m' hpull
      have hlt := MergerState.pull_remaining hpull
      split
      · cases verdict with
        | error x => exact hlt.le
        | ok u =>
          refine hyield _ _ _ hlt.le ?_
          have hrest := ih m'.remaining hlt m' (c.acceptEntry cfg entry)
            (fun m₂ c₂ other hm hother => ?_) rfl
          · exact hrest.trans hlt.le
          · unfold yieldPending
            split
            · exact hm
            · exact hother
      · exact hyield _ _ _ le_rfl le_rfl

variable (size) in
omit [DebugFmt] in
theorem ensureHeap_remaining (m : MergerState) :
    (ensureHeap size m).2.remaining ≤ m.remaining := by
  unfold ensureHeap
  split
  · unfold MergerState.initializeHeap
    refine List.foldlRecOn
      (motive := fun r : Except ReadError Unit × MergerState => r.2.remaining ≤ m.remaining) _ _ le_rfl ?_
    rintro ⟨verdict, m'⟩ hm i -
    cases verdict with
    | error x => exact hm
    | ok u => exact (MergerState.refillHeap_remaining size m' i).trans hm
  · exact le_rfl

/-- Ending a partition that was not ended yet, or leaving an ended one. -/
theorem finish_weight (hpending : c.pendingRows = []) (h : yieldPending m key (c.endPartition cfg)
      (.ok (.partitionEnd key), ⟨m, none, c.endPartition cfg⟩) = (.ok s, sm)) :
    sm.weight < weight ⟨m, some key, c⟩ := by
  unfold yieldPending at h
  cases hp : (c.endPartition cfg).pendingRows with
  | nil =>
    rw [hp] at h
    cases h
    refine weight_lt_of_phase rfl ?_
    unfold phase
    simp only [if_true, reduceCtorEq, if_false]
    split <;> omega
  | cons row rest =>
    rw [hp] at h
    cases h
    -- an ended partition would have yielded nothing here
    have hopen : ¬ c.Ended := by
      intro hended
      rw [hended.endPartition_eq, hpending] at hp
      cases hp
    have hended : ({ c.endPartition cfg with pendingRows := rest } : Checkpoint).Ended :=
      (c.endPartition_ended cfg).prepend rest
    refine weight_lt_of_phase rfl ?_
    simp [phase, hopen, hended]

theorem pullLoop_weight (hpending : c.pendingRows = [])
    (h : pullLoop cfg size key m c = (.ok s, sm)) : sm.weight < weight ⟨m, some key, c⟩ := by
  rw [pullLoop] at h
  split at h
  · exact finish_weight hpending h
  · rename_i entry verdict m' hpull
    have hlt := MergerState.pull_remaining hpull
    split at h
    · cases verdict with
      | error x => cases h
      | ok u =>
        refine weight_lt_of_remaining ?_
        refine lt_of_le_of_lt ?_ hlt
        have hle := pullLoop_remaining cfg size key m' (c.acceptEntry cfg entry)
        simp only at h
        unfold yieldPending at h
        split at h
        · cases h; exact le_rfl
        · rw [h] at hle; exact hle
    · exact finish_weight hpending h

/-- Every step uses something up. -/
theorem stepStreaming_weight {sm' : StreamingMerger} (h : sm.stepStreaming cfg size = (.ok s, sm'))
    (hs : s ≠ .complete) : sm'.weight < sm.weight := by
  obtain ⟨m, partitionKey, c⟩ := sm
  unfold stepStreaming at h
  cases partitionKey with
  | some key =>
    simp only at h
    cases hp : c.pendingRows with
    | nil =>
      rw [yieldPending, hp] at h
      exact pullLoop_weight hp h
    | cons row rest =>
      rw [yieldPending, hp] at h
      cases h
      refine weight_lt_of_pending rfl ?_ (by simp [hp])
      have hiff : ({ c with pendingRows := rest } : Checkpoint).Ended ↔ c.Ended :=
        ⟨fun he => ⟨he.cluster, he.resolved, he.awaiting, he.ranges⟩, fun he => he.prepend rest⟩
      by_cases hended : c.Ended
      · simp [phase, hended, hiff.mpr hended]
      · simp [phase, hended, mt hiff.mp hended]
  | none =>
    simp only at h
    split at h
    · cases h
    · have hle := ensureHeap_remaining size m
      cases hens : ensureHeap size m with
      | mk verdict m₁ =>
        rw [hens] at h hle
        cases verdict with
        | error x => cases h
        | ok u =>
          simp only at h
          cases hpop : popMin cfg.schema m₁.heap with
          | none =>
            rw [hpop] at h
            cases h
            exact absurd rfl hs
          | some p =>
            obtain ⟨top, rest⟩ := p
            rw [hpop] at h
            -- the first pull of the partition takes the entry that was peeked at
            have hpull : m₁.pull cfg.schema size =
                some (top, (MergerState.mk rest m₁.runs).refillHeap size top.runIndex) := by
              unfold MergerState.pull
              rw [hpop]
            generalize (MergerState.mk rest m₁.runs).refillHeap size top.runIndex = pulled at hpull
            obtain ⟨verdict, m'⟩ := pulled
            have hlt := MergerState.pull_remaining hpull
            refine weight_lt_of_remaining ?_
            refine lt_of_lt_of_le ?_ hle
            cases verdict with
            | error x =>
              simp only at h
              rw [pullLoop] at h
              split at h
              · rename_i hnone; rw [hpull] at hnone; cases hnone
              · rename_i hsome
                rw [hpull] at hsome
                cases hsome
                simp at h
            | ok u =>
              simp only at h
              rw [pullLoop_some cfg size hpull, if_pos rfl] at h
              have hrest := pullLoop_remaining cfg size top.key m'
                (Checkpoint.acceptEntry cfg .fresh top)
              unfold yieldPending at h
              split at h
              · cases h; exact hlt
              · rw [h] at hrest; exact lt_of_le_of_lt hrest hlt

end StreamingMerger

end Cqlite
