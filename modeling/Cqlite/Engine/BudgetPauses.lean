import Cqlite.Engine.Maintenance

/-! Budget pauses do not change what the drain loop does: a schedule of calls behaves like one call
    with the summed budget, and every schedule with enough budget ends in the same way. -/

namespace Cqlite

variable [DebugFmt] {env : DrainConfig} {fault : Nat → Option Error}

/-! ### Pausing and resuming -/

/-- The state between two increments: the resumed key is that of the partition in progress, and
    between partitions nothing has been collected. -/
structure LoopState.Consistent (ls : LoopState) : Prop where
  key : ∀ k, ls.keyForOpen = some k → ls.stream.partitionKey = some k
  between : ls.stream.partitionKey = none →
    ls.stream = .resume ls.stream.merger none ∧ ls.state = .fresh

/-- The state without the resumed key, which a consistent state does not need. -/
def LoopState.forgetKey (ls : LoopState) : LoopState := { ls with keyForOpen := none }

omit [DebugFmt] in
theorem ActiveMerge.resume_consistent (am : ActiveMerge) : am.resume.Consistent := by
  unfold resume
  cases am.pendingPartition with
  | none => exact ⟨fun k hk => (nomatch hk), fun _ => ⟨rfl, rfl⟩⟩
  | some pending => exact ⟨fun k hk => hk, fun hnone => (nomatch hnone)⟩

variable {ls : LoopState}

omit [DebugFmt] in
theorem LoopState.resume_pause (h : ls.Consistent) : ls.pause.resume.forgetKey = ls.forgetKey := by
  obtain ⟨⟨m, partitionKey, checkpoint⟩, keyForOpen, state, log⟩ := ls
  cases partitionKey with
  | some key => rfl
  | none =>
    obtain ⟨hstream, hstate⟩ := h.between rfl
    simp only at hstream hstate
    rw [hstream, hstate]
    rfl

omit [DebugFmt] in
/-- Resuming and pausing again without an increment changes nothing. -/
theorem ActiveMerge.pause_resume (am : ActiveMerge) : am.resume.pause = am := by
  obtain ⟨merger, pending, log⟩ := am
  cases pending <;> rfl

/-- The outcomes of an increment up to the resumed key. -/
def Increment.forgetKey : Increment → Increment
  | .next ls => .next ls.forgetKey
  | other => other

omit [DebugFmt] in
theorem acceptRow_forgetKey {sm : StreamingMerger} {row : MergeEntry} {key : DecoratedKey}
    (hkey : sm.partitionKey = some key) (hopen : ∀ k, ls.keyForOpen = some k → k = key) :
    (acceptRow env fault ls sm row).forgetKey =
      (acceptRow env fault ls.forgetKey sm row).forgetKey := by
  have hsame : ls.keyForOpen.or sm.partitionKey = sm.partitionKey := by
    cases hk : ls.keyForOpen with
    | none => rfl
    | some k => rw [hopen k hk, hkey]; rfl
  simp only [acceptRow, LoopState.forgetKey, hsame, Option.none_or]
  cases mergeEntryToMutation env.fromBytes row with
  | error e => rfl
  | ok m =>
    simp only
    cases env.acceptMutation sm.partitionKey ls.state m with
    | error e => rfl
    | ok accepted =>
      obtain ⟨state, calls⟩ := accepted
      simp only
      cases issue fault ls.log calls with
      | mk error log => cases error <;> rfl

theorem LoopState.Consistent.open_key (h : ls.Consistent) {key : DecoratedKey} {row : MergeEntry}
    {sm : StreamingMerger}
    (hstep : ls.stream.stepStreaming env.merger env.size = (.ok (.clusterGroup key row), sm)) :
    sm.partitionKey = some key ∧ ∀ k, ls.keyForOpen = some k → k = key := by
  obtain ⟨hs, -⟩ | ⟨k, ⟨rfl, hafter⟩, hbefore⟩ := StreamingMerger.stepStreaming_shape hstep
  · cases hs
  · exact ⟨hafter, fun k' hk' => hbefore k' (h.key k' hk')⟩

variable (env fault) in
theorem increment_forgetKey (h : ls.Consistent) :
    (increment env fault ls).forgetKey = (increment env fault ls.forgetKey).forgetKey := by
  unfold increment
  rw [show ls.forgetKey.stream = ls.stream from rfl]
  cases hstep : ls.stream.stepStreaming env.merger env.size with
  | mk verdict sm =>
    cases verdict with
    | error e => rfl
    | ok s =>
      cases s with
      | clusterGroup key row =>
        obtain ⟨hafter, hopen⟩ := h.open_key hstep
        simp only
        split
        · rfl
        · exact acceptRow_forgetKey hafter hopen
      | partitionEnd key =>
        simp only [endOfPartition, LoopState.forgetKey]
      | complete => rfl

/-- The step lemma of the drain loop. -/
theorem LoopState.Consistent.increment {ls' : LoopState} (h : ls.Consistent)
    (hnext : Cqlite.increment env fault ls = .next ls') : ls'.Consistent := by
  unfold Cqlite.increment at hnext
  cases hstep : ls.stream.stepStreaming env.merger env.size with
  | mk verdict sm =>
    rw [hstep] at hnext
    cases verdict with
    | error e => cases hnext
    | ok s =>
      cases s with
      | clusterGroup key row =>
        obtain ⟨hafter, hopen⟩ := h.open_key hstep
        have hsm : ∀ ls' : LoopState, ls'.stream = sm → ls'.keyForOpen = ls.keyForOpen →
            ls'.Consistent := by
          intro ls' hstream hkey
          refine ⟨fun k hk => ?_, fun hnone => ?_⟩
          · rw [hstream, hafter, hopen k (hkey ▸ hk)]
          · rw [hstream, hafter] at hnone
            cases hnone
        simp only at hnext
        split at hnext
        · cases hnext
          exact hsm _ rfl rfl
        · unfold acceptRow at hnext
          cases hconv : mergeEntryToMutation env.fromBytes row with
          | error e => rw [hconv] at hnext; cases hnext
          | ok m =>
            rw [hconv] at hnext
            simp only at hnext
            cases hacc : env.acceptMutation (ls.keyForOpen.or sm.partitionKey) ls.state m with
            | error e => rw [hacc] at hnext; cases hnext
            | ok accepted =>
              obtain ⟨state, calls⟩ := accepted
              rw [hacc] at hnext
              simp only at hnext
              cases hissue : issue fault ls.log calls with
              | mk error log =>
                rw [hissue] at hnext
                cases error with
                | some e => cases hnext
                | none =>
                  cases hnext
                  exact hsm _ rfl rfl
      | partitionEnd key =>
        simp only [endOfPartition] at hnext
        cases hissue : issue fault ls.log (env.closePartition key ls.state) with
        | mk error log =>
          rw [hissue] at hnext
          cases error with
          | some e => cases hnext
          | none =>
            cases hnext
            exact ⟨fun k hk => (nomatch hk), fun _ => ⟨rfl, rfl⟩⟩
      | complete => cases hnext

omit [DebugFmt] in
theorem LoopState.Consistent.forgetKey (h : ls.Consistent) : ls.forgetKey.Consistent :=
  ⟨fun _ hk => (nomatch hk), h.between⟩

/-- The resumed key is never needed. -/
theorem drainLoop_forgetKey (h : ls.Consistent) (n : Nat) :
    drainLoop env fault n ls = drainLoop env fault n ls.forgetKey := by
  induction n generalizing ls with
  | zero => rfl
  | succ n ih =>
    have hinc := increment_forgetKey env fault h
    unfold drainLoop
    cases ha : increment env fault ls with
    | next a =>
      cases hb : increment env fault ls.forgetKey with
      | next b =>
        rw [ha, hb] at hinc
        have hab : a.forgetKey = b.forgetKey := by
          simpa only [Increment.forgetKey, Increment.next.injEq] using hinc
        simp only
        rw [ih (h.increment ha), ih (h.forgetKey.increment hb), hab]
      | complete m log => rw [ha, hb] at hinc; cases hinc
      | failed e m log => rw [ha, hb] at hinc; cases hinc
    | complete m log =>
      rw [ha] at hinc
      cases hb : increment env fault ls.forgetKey <;> rw [hb] at hinc <;> cases hinc
      rfl
    | failed e m log =>
      rw [ha] at hinc
      cases hb : increment env fault ls.forgetKey <;> rw [hb] at hinc <;> cases hinc
      rfl

theorem drainLoop_resume_pause (h : ls.Consistent) (n : Nat) :
    drainLoop env fault n ls.pause.resume = drainLoop env fault n ls := by
  rw [drainLoop_forgetKey ls.pause.resume_consistent, LoopState.resume_pause h,
    ← drainLoop_forgetKey h]

/-! ### Schedules -/

variable (env fault) in
/-- The loop goes on after a pause, and not otherwise. -/
def continueWith (n : Nat) : DrainStatus × ActiveMerge → DrainStatus × ActiveMerge
  | (.paused, am) => drainCall env fault n am
  | ended => ended

theorem continueWith_ended {n : Nat} {outcome : DrainStatus × ActiveMerge}
    (h : outcome.1 ≠ .paused) : continueWith env fault n outcome = outcome := by
  obtain ⟨status, am⟩ := outcome
  cases status with
  | paused => exact absurd rfl h
  | complete => rfl
  | failed e => rfl

theorem drainLoop_add (h : ls.Consistent) (n m : Nat) :
    drainLoop env fault (n + m) ls =
      continueWith env fault m (drainLoop env fault n ls) := by
  induction n generalizing ls with
  | zero =>
    rw [Nat.zero_add]
    exact (drainLoop_resume_pause h m).symm
  | succ n ih =>
    rw [Nat.succ_add]
    unfold drainLoop
    cases hinc : increment env fault ls with
    | next ls' => exact ih (h.increment hinc)
    | complete merger log => rfl
    | failed e merger log => rfl

theorem drainCalls_eq (budgets : List Nat) (am : ActiveMerge) :
    drainCalls env fault budgets am = drainCall env fault budgets.sum am := by
  induction budgets generalizing am with
  | nil =>
    rw [List.sum_nil]
    simp only [drainCalls, drainCall, drainLoop, am.pause_resume]
  | cons n budgets ih =>
    rw [List.sum_cons]
    unfold drainCalls
    rw [drainCall, drainCall, drainLoop_add am.resume_consistent]
    generalize drainLoop env fault n am.resume = outcome
    obtain ⟨status, am'⟩ := outcome
    cases status with
    | paused => exact ih am'
    | complete => rfl
    | failed e => rfl

/-! ### The loop ends -/

/-- An increment that does not end the loop lowers the weight of the stream. -/
theorem increment_weight {ls' : LoopState} (hnext : increment env fault ls = .next ls') :
    ls'.stream.weight < ls.stream.weight := by
  unfold increment at hnext
  cases hstep : ls.stream.stepStreaming env.merger env.size with
  | mk verdict sm =>
    rw [hstep] at hnext
    cases verdict with
    | error e => cases hnext
    | ok s =>
      cases s with
      | clusterGroup key row =>
        have hlt := StreamingMerger.stepStreaming_weight hstep (by simp)
        suffices ls'.stream = sm by rwa [this]
        simp only at hnext
        split at hnext
        · cases hnext
          rfl
        · unfold acceptRow at hnext
          split at hnext
          · cases hnext
          · split at hnext
            · cases hnext
            · split at hnext
              · cases hnext
              · cases hnext
                rfl
      | partitionEnd key =>
        have hlt := StreamingMerger.stepStreaming_weight hstep (by simp)
        -- the next partition starts from the same merger with nothing pending
        suffices ls'.stream.weight ≤ sm.weight from lt_of_le_of_lt this hlt
        obtain ⟨hs, -⟩ | ⟨k, ⟨-, hkey, hpending⟩, -⟩ := StreamingMerger.stepStreaming_shape hstep
        · cases hs
        simp only [endOfPartition] at hnext
        split at hnext
        · cases hnext
        · cases hnext
          refine le_of_eq ?_
          simp [StreamingMerger.weight, StreamingMerger.phase, StreamingMerger.resume,
            StreamingMerger.new, hkey, hpending, Checkpoint.fresh]
      | complete => cases hnext

variable (env fault) in
theorem exists_budget (ls : LoopState) : ∃ n, (drainLoop env fault n ls).1 ≠ .paused := by
  induction hw : ls.stream.weight using WellFoundedLT.induction generalizing ls with
  | ind w ih =>
    cases hinc : increment env fault ls with
    | next ls' =>
      obtain ⟨n, hn⟩ := ih _ (hw ▸ increment_weight hinc) ls' rfl
      exact ⟨n + 1, by simpa only [drainLoop, hinc] using hn⟩
    | complete merger log => exact ⟨1, by simp [drainLoop, hinc]⟩
    | failed e merger log => exact ⟨1, by simp [drainLoop, hinc]⟩

end Cqlite
