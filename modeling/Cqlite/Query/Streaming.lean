import Cqlite.Query.Execute

/-! Streaming a `SELECT` against executing it.

    A plan that is streamed directly has a scan and then, in this order, perhaps a filter, a
    per-partition limit, a limit and a projection of the scanned columns. The producer's inline limits
    give the window the two limit steps give; the filter it leaves out. It also reads a partition whole
    where executing reads a slice of it. -/

namespace Cqlite

namespace QueryEnv

/-! ### The window of the two limits -/

/-- The per-partition limit of a statement. -/
def perPartition (s : SelectStatement) (rows : List QueryRow) : List QueryRow :=
  match s.perPartitionLimit with
  | none => rows
  | some n => executePerPartitionLimit n rows

/-- The rows `OFFSET` skips; without a `LIMIT` it is ignored. -/
def skipped (s : SelectStatement) : Nat := if s.limit.isSome then s.offset.getD 0 else 0

/-- What both limits leave. -/
def window (s : SelectStatement) (rows : List QueryRow) : List QueryRow :=
  match s.limit with
  | none => perPartition s rows
  | some count => executeLimit count s.offset (perPartition s rows)

theorem perPartition_nil (s : SelectStatement) : perPartition s [] = [] := by
  rw [perPartition]
  split <;> rfl

theorem perPartition_sublist (s : SelectStatement) (rows : List QueryRow) :
    (perPartition s rows).Sublist rows := by
  rw [perPartition]
  split
  · exact List.Sublist.refl rows
  · exact Quota.quota_sublist

variable {s : SelectStatement} {e : ScanEntry} {predicates : List SSTablePredicate}
  {projection : List String} {pushed : PushdownPlan}

theorem skipped_of_limit {count : Nat} (h : s.limit = some count) :
    skipped s = s.offset.getD 0 := by
  rw [skipped, h, Option.isSome_some, if_pos rfl]

theorem perPartition_length_mono (s : SelectStatement) {rows rows' : List QueryRow}
    (h : rows'.Sublist rows) : (perPartition s rows').length ≤ (perPartition s rows).length := by
  rw [perPartition, perPartition]
  split
  · exact h.length_le
  · exact Quota.length_quota_mono h _

theorem window_nil_of_length {rows : List QueryRow} (h : (perPartition s rows).length ≤ skipped s) :
    window s rows = [] := by
  rw [window]
  split
  · rename_i hlimit
    rw [skipped, hlimit] at h
    exact List.eq_nil_of_length_eq_zero (Nat.le_zero.mp h)
  · rename_i count hlimit
    rw [skipped_of_limit hlimit] at h
    rw [executeLimit, List.drop_eq_nil_of_le h, List.take_nil]

theorem window_ne_nil {rows : List QueryRow} (hlimit : s.limit ≠ some 0)
    (h : skipped s < (perPartition s rows).length) : window s rows ≠ [] := by
  intro hnil
  replace hnil := congrArg List.length hnil
  rw [window] at hnil
  split at hnil
  · rw [List.length_nil] at hnil
    omega
  · rename_i count hcount
    rw [skipped_of_limit hcount] at h
    rw [executeLimit, List.length_take, List.length_drop, List.length_nil] at hnil
    have : count ≠ 0 := fun h0 => hlimit (h0 ▸ hcount)
    omega

theorem window_nil (s : SelectStatement) : window s [] = [] :=
  window_nil_of_length (by simp [perPartition_nil])

theorem window_singleton (hlimit : s.limit ≠ some 0) (hpart : s.perPartitionLimit ≠ some 0)
    (hskip : skipped s = 0) (row : QueryRow) : window s [row] = [row] := by
  have hone : perPartition s [row] = [row] := by
    rw [perPartition]
    split
    · rfl
    · rename_i n hn
      have : n ≠ 0 := fun h => hpart (h ▸ hn)
      exact Quota.quota_eq_self_of_length (by rw [List.length_singleton]; omega)
  rw [window, hone]
  split
  · rfl
  · rename_i count hcount
    have : count ≠ 0 := fun h => hlimit (h ▸ hcount)
    rw [skipped_of_limit hcount] at hskip
    rw [executeLimit, hskip, List.drop_zero, List.take_of_length_le (by rw [List.length_singleton]; omega)]

/-! ### What the producer sends -/

/-- The limits and the state the producer starts with. -/
def limitsOf (s : SelectStatement) : StreamLimits := ⟨s.perPartitionLimit, s.limit⟩

def StreamState.start (s : SelectStatement) : StreamState := ⟨none, 0, skipped s, 0⟩

/-- The rows a state still lets through, by runs of equal keys. -/
def runs (limits : StreamLimits) (st : StreamState) (rows : List QueryRow) : List QueryRow :=
  match limits.perPartition with
  | none => rows
  | some n => Quota.runQuota QueryRow.key n st.currentPartition st.partitionCount rows

/-- The rows a state still sends. -/
def remaining (limits : StreamLimits) (st : StreamState) (rows : List QueryRow) : List QueryRow :=
  match limits.count with
  | none => (runs limits st rows).drop st.offsetRemaining
  | some n => ((runs limits st rows).drop st.offsetRemaining).take (n - st.sent)

/-- A row either is dropped by the per-partition limit or comes first in what it lets through. -/
theorem runs_cons (limits : StreamLimits) (st : StreamState) (row : QueryRow) (rows : List QueryRow) :
    runs limits st (row :: rows) =
      if (st.admitRow limits row.key).1 then row :: runs limits (st.admitRow limits row.key).2 rows
      else runs limits (st.admitRow limits row.key).2 rows := by
  cases hn : limits.perPartition with
  | none => simp only [runs, StreamState.admitRow, hn, if_true]
  | some n =>
    simp only [runs, StreamState.admitRow, hn, Quota.runQuota]
    generalize (if st.currentPartition = some row.key then st.partitionCount else 0) = kept
    by_cases hcap : n ≤ kept
    · simp only [if_pos hcap, Bool.false_eq_true, if_false]
    · simp only [if_neg hcap, if_true]

/-- The per-partition limit touches neither the offset nor the count of the rows sent. -/
theorem admitRow_frame (limits : StreamLimits) (key : Bytes) (st : StreamState) :
    (st.admitRow limits key).2.offsetRemaining = st.offsetRemaining ∧
      (st.admitRow limits key).2.sent = st.sent := by
  cases hn : limits.perPartition with
  | none => simp only [StreamState.admitRow, hn, and_self]
  | some n =>
    simp only [StreamState.admitRow, hn]
    generalize (if st.currentPartition = some key then st.partitionCount else 0) = kept
    split <;> exact ⟨rfl, rfl⟩

theorem remaining_cons {limits : StreamLimits} {st : StreamState} (row : QueryRow)
    (rows : List QueryRow) (hsent : ∀ n ∈ limits.count, st.sent < n) :
    remaining limits st (row :: rows) =
      match st.admitRow limits row.key with
      | (false, st) => remaining limits st rows
      | (true, st) =>
        if 0 < st.offsetRemaining then
          remaining limits { st with offsetRemaining := st.offsetRemaining - 1 } rows
        else if limits.count.any (· ≤ st.sent + 1) then [row]
        else row :: remaining limits { st with sent := st.sent + 1 } rows := by
  have hruns := runs_cons limits st row rows
  obtain ⟨hoff, hst⟩ := admitRow_frame limits row.key st
  rcases hadm : st.admitRow limits row.key with ⟨admitted, st'⟩
  rw [hadm] at hruns hoff hst
  dsimp only at hruns hoff hst
  rw [← hst] at hsent
  simp only [remaining, hruns, ← hoff, ← hst]
  cases admitted with
  | false => rfl
  | true =>
    simp only [if_true]
    rcases Nat.eq_zero_or_pos st'.offsetRemaining with hzero | hskip
    · simp only [hzero, List.drop_zero, lt_irrefl, if_false]
      cases hc : limits.count with
      | none =>
        simp only [Option.any_none, Bool.false_eq_true, if_false]
        rfl
      | some n =>
        obtain ⟨k, hk⟩ : ∃ k, n - st'.sent = k + 1 :=
          ⟨n - st'.sent - 1, by have := hsent n hc; omega⟩
        simp only [hk, Option.any_some, decide_eq_true_eq, List.take_succ_cons]
        split
        · rw [show k = 0 by omega, List.take_zero]
        · rw [show k = n - (st'.sent + 1) by omega]
          rfl
    · obtain ⟨k, hk⟩ : ∃ k, st'.offsetRemaining = k + 1 := ⟨st'.offsetRemaining - 1, by omega⟩
      simp only [hk, Nat.succ_pos, if_true, List.drop_succ_cons, Nat.add_sub_cancel]
      rfl

section Rows

variable [ValueOps]

theorem accepted_cons_none {es : List ScanEntry} (h : buildRowFromScan projection e = none) :
    accepted predicates projection (e :: es) = accepted predicates projection es := by
  rw [accepted, List.filterMap_cons_none h, accepted]

theorem accepted_cons_some {es : List ScanEntry} {row : QueryRow}
    (h : buildRowFromScan projection e = some row) :
    accepted predicates projection (e :: es) =
      if evaluatePredicates row predicates then row :: accepted predicates projection es
      else accepted predicates projection es := by
  rw [accepted, List.filterMap_cons_some h, List.filter_cons]
  rfl

/-- The producer sends what its limits leave of the accepted rows. -/
theorem produce_rows {limits : StreamLimits} {st : StreamState} {entries : List ScanEntry}
    (hsent : ∀ n ∈ limits.count, st.sent < n) :
    (produce limits predicates projection st entries).1 =
      remaining limits st (accepted predicates projection entries) := by
  induction entries generalizing st with
  | nil =>
    rw [produce, accepted]
    simp only [remaining, runs, List.filterMap_nil, List.filter_nil]
    split <;> split <;> simp [Quota.runQuota]
  | cons e es ih =>
    rw [produce]
    cases hb : buildRowFromScan projection e with
    | none =>
      rw [accepted_cons_none hb]
      exact ih hsent
    | some row =>
      rw [accepted_cons_some hb]
      by_cases hp : evaluatePredicates row predicates = true
      · obtain ⟨hoff, hst⟩ := admitRow_frame limits row.key st
        have hcons := remaining_cons row (accepted predicates projection es) hsent
        rw [if_pos hp, hcons]
        dsimp only
        rw [if_neg (by simp [hp])]
        rcases hadm : st.admitRow limits row.key with ⟨admitted, st'⟩
        rw [hadm] at hst
        dsimp only at hst
        rw [← hst] at hsent
        cases admitted with
        | false => exact ih hsent
        | true =>
          dsimp only
          split
          · exact ih hsent
          · split
            · rfl
            · rename_i hmore
              refine congrArg (row :: ·) (ih ?_)
              intro n hn
              rw [hn, Option.any_some, decide_eq_true_eq] at hmore
              dsimp only
              omega
      · dsimp only
        rw [if_pos (by simp [hp]), if_neg hp]
        exact ih hsent

/-- From the start, over contiguous partitions, the producer sends the window. -/
theorem produce_eq_window {entries : List ScanEntry} (hlimit : s.limit ≠ some 0)
    (hc : Quota.Contiguous ((accepted predicates projection entries).map QueryRow.key)) :
    (produce (limitsOf s) predicates projection (.start s) entries).1 =
      window s (accepted predicates projection entries) := by
  rw [produce_rows]
  · have hruns : runs (limitsOf s) (.start s) (accepted predicates projection entries) =
        perPartition s (accepted predicates projection entries) := by
      simp only [runs, limitsOf, perPartition, StreamState.start]
      split
      · rfl
      · exact Quota.runQuota_eq_quota hc
    rw [remaining, window, hruns]
    simp only [limitsOf, StreamState.start]
    cases hl : s.limit with
    | none => simp only [skipped, hl, Option.isSome_none, Bool.false_eq_true, if_false, List.drop_zero]
    | some n => simp only [skipped_of_limit hl, executeLimit, Nat.sub_zero]
  · intro n hn
    rcases Nat.eq_zero_or_pos n with rfl | hpos
    · exact absurd hn hlimit
    · exact hpos

end Rows

/-! ### Plans that are streamed directly -/

/-- What `optimize` plans for a statement over a table. -/
def plannedAs (s : SelectStatement) (pushed : PushdownPlan) : OptimizedQueryPlan :=
  ⟨s, .sstableScan pushed.sstablePredicates (extractProjectionColumns s) ::
    ((pushed.filter.map .filter).toList ++ laterSteps s), s.requiresAggregation⟩

theorem optimize_cases {plan : OptimizedQueryPlan} (h : optimize s = .ok plan) :
    (s.hasFrom = false ∧ plan = ⟨s, [], false⟩) ∨
      s.hasFrom = true ∧ ∃ pushed, planWhereClause s = .ok pushed ∧ plan = plannedAs s pushed := by
  have hsteps : optimize.planSteps s = .ok plan →
      ∃ pushed, planWhereClause s = .ok pushed ∧ plan = plannedAs s pushed := by
    intro h
    obtain ⟨pushed, hpushed, hplan⟩ := bind_ok h
    exact ⟨pushed, hpushed, (Except.ok.inj hplan).symm⟩
  rw [optimize] at h
  cases hfrom : s.hasFrom with
  | false =>
    rw [hfrom] at h
    exact .inl ⟨rfl, (Except.ok.inj h).symm⟩
  | true =>
    rw [hfrom, if_neg (by simp)] at h
    refine .inr ⟨rfl, ?_⟩
    split at h
    · split at h
      · cases h
      · exact hsteps h
    · exact hsteps h

/-- A statement whose plan the producer runs itself. -/
structure Direct (s : SelectStatement) : Prop where
  hasFrom : s.hasFrom = true
  aggregation : s.requiresAggregation = false
  orderBy : s.orderBy = none
  notDistinct : ∀ es, s.selectClause ≠ .distinct es
  cellMetadata : s.selectsCellMetadata = false
  plain : ∀ columns, projectStep s = some (.project columns) →
    columns.any projectExprReshapesRow = false
  sameColumns : ∀ columns, projectStep s = some (.project columns) → ∀ name,
    name ∈ columns.filterMap plainColumn ↔ name ∈ extractProjectionColumns s

theorem mem_laterSteps_sort {items : List OrderByItem} (h : s.orderBy = some items) :
    .sort items ∈ laterSteps s := by
  simp [laterSteps, h]

theorem projectStep_mem {step : ExecutionStep} (h : projectStep s = some step) :
    step ∈ laterSteps s := by
  simp [laterSteps, h]

theorem direct_of_not_routed (h : routedToExecute (plannedAs s pushed) = false) : Direct s := by
  simp only [routedToExecute, requiresMaterialization, Bool.or_eq_false_iff, Bool.not_eq_false',
    List.any_eq_false, Bool.not_eq_true] at h
  obtain ⟨⟨hagg, ⟨hsteps, hdistinct⟩, hmeta⟩, hfrom⟩ := h
  have hproject : ∀ columns, projectStep s = some (.project columns) →
      stepRequiresMaterialization (some (extractProjectionColumns s)) (.project columns) = false := by
    intro columns hc
    exact hsteps _ (List.mem_cons_of_mem _ (List.mem_append_right _ (projectStep_mem hc)))
  refine ⟨hfrom, hagg, ?_, ?_, hmeta, ?_, ?_⟩
  · cases ho : s.orderBy with
    | none => rfl
    | some items =>
      cases hsteps _ (List.mem_cons_of_mem _ (List.mem_append_right _ (mem_laterSteps_sort ho)))
  · intro es hes
    simp [plannedAs, hes] at hdistinct
  · intro columns hc
    exact (Bool.or_eq_false_iff.mp (hproject columns hc)).1
  · intro columns hc name
    have htrim := (Bool.or_eq_false_iff.mp (hproject columns hc)).2
    simp only [projectTrimsScanColumns, Bool.not_eq_false', Bool.and_eq_true, List.all_eq_true,
      List.contains_iff_mem] at htrim
    exact ⟨htrim.1 name, htrim.2 name⟩

theorem Direct.laterSteps_eq (hd : Direct s) :
    laterSteps s = (s.perPartitionLimit.map .perPartitionLimit).toList ++
      ((s.limit.map (.limit · s.offset)).toList ++ (projectStep s).toList) := by
  simp [laterSteps, hd.aggregation, hd.orderBy]

/-- What is projected is what is selected, where the scan does not already give it. -/
theorem projectStep_eq {step : ExecutionStep} (h : projectStep s = some step) :
    ∃ columns, step = .project columns ∧ projectionIsExactlySelected s = false ∧
      (s.selectClause = .columns columns ∨ s.selectClause = .distinct columns) := by
  rw [projectStep] at h
  split at h
  · cases h
  all_goals
    rename_i es hes
    split at h
    · cases h
    · rename_i hne
      rw [Bool.not_eq_true, Bool.or_eq_false_iff] at hne
      obtain rfl := Option.some.inj h
      exact ⟨es, rfl, hne.2, by simp [hes]⟩

/-- The columns a direct plan's projection keeps. -/
def projectRow (s : SelectStatement) (row : QueryRow) : QueryRow :=
  match projectStep s with
  | some (.project columns) => trimProjection columns row
  | _ => row

theorem Direct.projection_ne_nil (hd : Direct s) {columns : List SelectExpression}
    (hc : projectStep s = some (.project columns)) :
    (extractProjectionColumns s).isEmpty = false := by
  have hplain := hd.plain columns hc
  by_contra hnil
  rw [Bool.not_eq_false, List.isEmpty_iff] at hnil
  have hnone : columns.filterMap plainColumn = [] := by
    refine List.eq_nil_iff_forall_not_mem.mpr fun name hname => ?_
    have := (hd.sameColumns columns hc name).mp hname
    rw [hnil] at this
    cases this
  obtain ⟨columns', hcols, hexact, hclause⟩ := projectStep_eq hc
  obtain rfl : columns = columns' := ExecutionStep.project.inj hcols
  rcases hclause with hclause | hclause
  · simp only [projectionIsExactlySelected, hclause, hnil, hnone, beq_self_eq_true, Bool.and_true,
      List.all_eq_false] at hexact
    obtain ⟨e, he, hreshapes⟩ := hexact
    exact hreshapes (by simpa using List.any_eq_false.mp hplain e he)
  · exact hd.notDistinct _ hclause

theorem Direct.projectRow_eq (hd : Direct s) {row : QueryRow}
    (h : buildRowFromScan (extractProjectionColumns s) e = some row) : projectRow s row = row := by
  rw [projectRow]
  split
  · rename_i columns hc
    have hsame := hd.sameColumns columns hc
    obtain ⟨cells, -, rfl⟩ := Option.map_eq_some_iff.mp h
    rw [trimProjection]
    congr 1
    funext name
    by_cases hmem : name ∈ extractProjectionColumns s
    · rw [if_pos (List.contains_iff_mem.mpr ((hsame name).mpr hmem))]
    · rw [if_neg fun h => hmem ((hsame name).mp (List.contains_iff_mem.mp h))]
      simp [hd.projection_ne_nil hc, hmem]
  · rfl

/-! ### What a direct plan computes -/

section Run

variable [ValueOps] (env : QueryEnv)

/-- The filter step, if there is one. -/
def filterRows (pushed : PushdownPlan) (rows : List QueryRow) : Except QueryError (List QueryRow) :=
  match pushed.filter with
  | none => .ok rows
  | some w => executeFilter w rows

omit [ValueOps] in
theorem bind_ok_iff {α β : Type} {x : Except QueryError α} {f : α → Except QueryError β} {b : β} :
    (x >>= f) = .ok b ↔ ∃ a, x = .ok a ∧ f a = .ok b := by
  refine ⟨bind_ok, ?_⟩
  rintro ⟨a, rfl, h⟩
  exact h

section

variable (s : SelectStatement) (scanCap : Option Nat) (table : List ScanEntry)

theorem executeSteps_append (a b : List ExecutionStep) (rows : List QueryRow) :
    env.executeSteps s scanCap table (a ++ b) rows =
      (env.executeSteps s scanCap table a rows >>= fun rows =>
        env.executeSteps s scanCap table b rows) := by
  induction a generalizing rows with
  | nil => rfl
  | cons step steps ih =>
    rw [List.cons_append, executeSteps, executeSteps]
    cases env.executeStep s scanCap table rows step with
    | error e => rfl
    | ok rows' => exact ih rows'

theorem executeSteps_singleton (step : ExecutionStep) (rows : List QueryRow) :
    env.executeSteps s scanCap table [step] rows = env.executeStep s scanCap table rows step := by
  rw [executeSteps]
  cases env.executeStep s scanCap table rows step <;> rfl

theorem executeSteps_filter (pushed : PushdownPlan) (rows : List QueryRow) :
    env.executeSteps s scanCap table (pushed.filter.map .filter).toList rows =
      filterRows pushed rows := by
  rw [filterRows]
  cases pushed.filter with
  | none => rfl
  | some w => exact env.executeSteps_singleton s scanCap table (.filter w) rows

theorem executeSteps_perPartition (rows : List QueryRow) :
    env.executeSteps s scanCap table (s.perPartitionLimit.map .perPartitionLimit).toList rows =
      .ok (perPartition s rows) := by
  rw [perPartition]
  cases s.perPartitionLimit <;> rfl

theorem executeSteps_limit (rows : List QueryRow) :
    env.executeSteps s scanCap table (s.limit.map (.limit · s.offset)).toList (perPartition s rows) =
      .ok (window s rows) := by
  rw [window]
  cases s.limit <;> rfl

end

theorem executeSteps_project (hd : Direct s) (scanCap : Option Nat) (table : List ScanEntry)
    (rows : List QueryRow) :
    env.executeSteps s scanCap table (projectStep s).toList rows = .ok (rows.map (projectRow s)) := by
  cases hp : projectStep s with
  | none =>
    have hid : projectRow s = id := by
      funext row
      rw [projectRow, hp]
      rfl
    rw [hid, List.map_id]
    rfl
  | some step =>
    obtain ⟨columns, rfl, -⟩ := projectStep_eq hp
    have htrim : projectRow s = trimProjection columns := by
      funext row
      rw [projectRow, hp]
    rw [Option.toList_some, executeSteps_singleton, executeStep, if_neg (by simp [hd.plain columns hp]),
      htrim]

theorem executeSteps_later (hd : Direct s) (scanCap : Option Nat) (table : List ScanEntry)
    (rows : List QueryRow) :
    env.executeSteps s scanCap table (laterSteps s) rows =
      .ok ((window s rows).map (projectRow s)) := by
  rw [hd.laterSteps_eq, executeSteps_append, executeSteps_perPartition]
  refine Eq.trans (env.executeSteps_append s scanCap table _ _ _) ?_
  rw [executeSteps_limit]
  exact env.executeSteps_project hd scanCap table _

omit [ValueOps] in
theorem Direct.no_aggregate (hd : Direct s) (pushed : PushdownPlan) (g : List String) :
    ExecutionStep.aggregate g ∉ (plannedAs s pushed).executionSteps := by
  have hproject : projectStep s ≠ some (.aggregate g) := by
    intro h
    obtain ⟨columns, hc, -⟩ := projectStep_eq h
    cases hc
  simp [plannedAs, hd.laterSteps_eq, hproject]

/-- The cap on the rows of the scan of a plan. -/
def planCap (s : SelectStatement) (pushed : PushdownPlan) : Option Nat :=
  scanPushdownCap s (plannedAs s pushed).executionSteps

/-- The result check of a statement. -/
def withinBudget (s : SelectStatement) (rows : List QueryRow) : Prop :=
  env.enforceMaterializedRows (if s.limit.isSome then none else some env.maxResultRows) rows = .ok ()

/-- Executing a direct plan: the window of the filtered scan, if it is within the budget. -/
theorem execute_direct (hd : Direct s) (pushed : PushdownPlan) (table : List ScanEntry)
    (out : List QueryRow) :
    env.execute (plannedAs s pushed) table = .ok out ↔
      ∃ scanned rows, env.executeSstableScan s (planCap s pushed) table pushed.sstablePredicates
          (extractProjectionColumns s) = .ok scanned ∧ filterRows pushed scanned = .ok rows ∧
        out = (window s rows).map (projectRow s) ∧ env.withinBudget s out := by
  have hrun : env.executeSteps s (planCap s pushed) table (plannedAs s pushed).executionSteps [] =
      (env.executeSstableScan s (planCap s pushed) table pushed.sstablePredicates
        (extractProjectionColumns s) >>= fun scanned => filterRows pushed scanned >>= fun rows =>
          .ok ((window s rows).map (projectRow s))) := by
    rw [plannedAs, executeSteps]
    congr 1
    funext scanned
    rw [executeSteps_append, executeSteps_filter]
    congr 1
    funext rows
    exact env.executeSteps_later hd _ table rows
  have hsteps : env.defaultSteps (plannedAs s pushed) = (plannedAs s pushed).executionSteps := rfl
  have hfrom : (plannedAs s pushed).statement.hasFrom = true := hd.hasFrom
  rw [execute, hfrom, hsteps]
  simp only [Bool.not_true, Bool.false_eq_true, if_false,
    env.globalAggregate_none _ table (hd.no_aggregate pushed)]
  change ((env.executeSteps s (planCap s pushed) table (plannedAs s pushed).executionSteps []) >>= _) =
    Except.ok out ↔ _
  rw [hrun]
  simp only [bind_ok_iff, Except.ok.injEq]
  constructor
  · rintro ⟨out, ⟨scanned, hscan, rows, hrows, rfl⟩, ⟨⟩, hbudget, hret⟩
    obtain rfl := Except.ok.inj hret
    exact ⟨scanned, rows, hscan, hrows, rfl, hbudget⟩
  · rintro ⟨scanned, rows, hscan, hrows, rfl, hbudget⟩
    exact ⟨_, ⟨scanned, hscan, rows, hrows, rfl⟩, (), hbudget, rfl⟩

/-! ### The rows both paths read -/

omit [ValueOps] in
theorem contiguous_multiPartition (table : List ScanEntry) (keys : List Bytes) :
    Quota.Contiguous ((multiPartition table keys).map ScanEntry.key) := by
  have := decoratedKey_transCmp
  let R : Bytes → Bytes → Prop := fun a b =>
    (DecoratedKey.cmp (.fromKeyBytes a) (.fromKeyBytes b)).isLE = true
  have hsorted : ((multiPartition table keys).map ScanEntry.key).Pairwise R := by
    refine List.pairwise_map.mpr (List.pairwise_mergeSort ?_ ?_ _)
    · intro a b c hab hbc
      exact Std.TransCmp.isLE_trans hab hbc
    · intro a b
      have hswap : DecoratedKey.cmp (.fromKeyBytes b.key) (.fromKeyBytes a.key) =
          (DecoratedKey.cmp (.fromKeyBytes a.key) (.fromKeyBytes b.key)).swap :=
        Std.OrientedCmp.eq_swap
      simp only [hswap]
      cases DecoratedKey.cmp (.fromKeyBytes a.key) (.fromKeyBytes b.key) <;> rfl
  refine Quota.contiguous_of_pairwise (fun a b hab hba => ?_) hsorted
  exact (congrArg DecoratedKey.key (decoratedKey_cmp_eq.mp
    (Std.OrientedCmp.isLE_antisymm hab hba))).symm

variable {row : QueryRow}

omit [ValueOps] in
theorem build_key (h : buildRowFromScan projection e = some row) :
    row.key = e.key := by
  obtain ⟨cells, -, rfl⟩ := Option.map_eq_some_iff.mp h
  rfl

omit [ValueOps] in
/-- Rows read off entries have their keys. -/
theorem keys_sublist {f : ScanEntry → Option QueryRow} {keep : ScanEntry → Bool}
    (hf : ∀ e row, f e = some row → row.key = e.key ∧ keep e = true) (table : List ScanEntry) :
    ((table.filterMap f).map QueryRow.key).Sublist ((table.filter keep).map ScanEntry.key) := by
  induction table with
  | nil => exact .slnil
  | cons e es ih =>
    cases hrow : f e with
    | none =>
      rw [List.filterMap_cons_none hrow]
      exact ih.trans (((List.sublist_cons_self e es).filter _).map _)
    | some row =>
      obtain ⟨hkey, hkeep⟩ := hf e row hrow
      rw [List.filterMap_cons_some hrow, List.filter_cons_of_pos hkeep, List.map_cons, List.map_cons,
        hkey]
      exact ih.cons_cons _

theorem accepted_keys (predicates : List SSTablePredicate) (projection : List String)
    (entries : List ScanEntry) :
    ((accepted predicates projection entries).map QueryRow.key).Sublist
      (entries.map ScanEntry.key) :=
  ((List.filter_sublist.map _).trans
    (keys_sublist (fun _ _ h => ⟨build_key h, rfl⟩) entries)).trans (List.filter_sublist.map _)

/-- Reading fewer rows changes nothing if the predicates accept none of the others. -/
theorem accepted_filter {keep : ScanEntry → Bool} {entries : List ScanEntry}
    (hkeep : ∀ e ∈ entries, ∀ row, buildRowFromScan projection e = some row →
      evaluatePredicates row predicates = true → keep e = true) :
    accepted predicates projection (entries.filter keep) = accepted predicates projection entries := by
  rw [accepted, accepted, List.filter_filterMap, List.filter_filterMap, List.filterMap_filter]
  refine List.filterMap_congr fun e he => ?_
  split
  · rfl
  · rename_i hn
    cases hb : buildRowFromScan projection e with
    | none => rfl
    | some row => rw [Option.filter_some, if_neg fun hp => hn (hkeep e he row hb hp)]

theorem accepted_sublist {entries entries' : List ScanEntry} (h : entries.Sublist entries') :
    (accepted predicates projection entries).Sublist (accepted predicates projection entries') :=
  (h.filterMap _).filter _

/-- The rows the scan step reads where there is no schema-less seek. -/
def scanSource (s : SelectStatement) (table : List ScanEntry) (predicates : List SSTablePredicate) :
    Except QueryError (List ScanEntry) := do
  match ← env.lookup predicates with
  | .targeted key => return env.targetedRows s table predicates key
  | .multiTargeted keys => return multiPartition table keys
  | .fallback => return table

theorem scan_ok_iff (hseek : env.schemalessSeek s predicates = none) (scanCap : Option Nat)
    (table : List ScanEntry) (projection : List String) (scanned : List QueryRow) :
    env.executeSstableScan s scanCap table predicates projection = .ok scanned ↔
      validateTokenPredicates predicates env.schema = .ok () ∧
        ∃ entries, env.scanSource s table predicates = .ok entries ∧
          scanned = capped scanCap (accepted predicates projection entries) := by
  rw [executeSstableScan, hseek, bind_ok_iff]
  constructor
  · rintro ⟨⟨⟩, hv, h⟩
    obtain ⟨outcome, ho, h⟩ := bind_ok h
    rw [scanSource, ho]
    cases outcome <;> exact ⟨hv, _, rfl, (Except.ok.inj h).symm⟩
  · rintro ⟨hv, entries, he, rfl⟩
    refine ⟨(), hv, ?_⟩
    obtain ⟨outcome, ho, he⟩ := bind_ok he
    rw [ho]
    cases outcome <;>
      · obtain rfl := Except.ok.inj he
        rfl

omit [ValueOps] in
/-- Both paths read the same rows, but for the slice of a partition. -/
theorem scanSource_cases {table entries : List ScanEntry}
    (h : env.scanSource s table predicates = .ok entries) :
    env.streamSource table predicates = .ok entries ∨
      ∃ key slice, env.lookup predicates = .ok (.targeted key) ∧
        classifyClusteringSlice predicates env.schema = some slice ∧
        env.streamSource table predicates = .ok (scanPartition table key) ∧
        entries = (scanPartition table key).filter (env.sliceRead slice) := by
  obtain ⟨outcome, ho, h⟩ := bind_ok h
  rw [streamSource, ho]
  cases outcome with
  | targeted key =>
    obtain rfl := Except.ok.inj h
    rw [targetedRows, targetedPartitionRows]
    split
    · exact .inl rfl
    · split
      · rename_i slice hslice
        exact .inr ⟨key, slice, rfl, hslice, rfl, rfl⟩
      · exact .inl rfl
  | multiTargeted keys => exact .inl h
  | fallback => exact .inl h

theorem contiguous_accepted {table entries : List ScanEntry}
    (hc : Quota.Contiguous (table.map ScanEntry.key))
    (h : env.streamSource table predicates = .ok entries) (projection : List String) :
    Quota.Contiguous ((accepted predicates projection entries).map QueryRow.key) := by
  refine Quota.Contiguous.sublist ?_ (accepted_keys predicates projection entries)
  rw [streamSource] at h
  obtain ⟨outcome, -, h⟩ := bind_ok h
  cases outcome with
  | targeted key =>
    obtain rfl := Except.ok.inj h
    exact hc.sublist (List.filter_sublist.map _)
  | multiTargeted keys =>
    obtain rfl := Except.ok.inj h
    exact contiguous_multiPartition table keys
  | fallback =>
    obtain rfl := Except.ok.inj h
    exact hc

/-! ### Streaming a direct plan -/

section

omit [ValueOps]

theorem Direct.steps_eq (hd : Direct s) (pushed : PushdownPlan) :
    (plannedAs s pushed).executionSteps =
      .sstableScan pushed.sstablePredicates (extractProjectionColumns s) ::
        ((pushed.filter.map .filter).toList ++
          ((s.perPartitionLimit.map .perPartitionLimit).toList ++
            ((s.limit.map (.limit · s.offset)).toList ++ (projectStep s).toList))) := by
  rw [plannedAs, hd.laterSteps_eq]

theorem findSome?_projectStep {β : Type} (s : SelectStatement) {f : ExecutionStep → Option β}
    (hf : ∀ columns, f (.project columns) = none) :
    (projectStep s).toList.findSome? f = none := by
  cases hp : projectStep s with
  | none => rfl
  | some step =>
    obtain ⟨columns, rfl, -⟩ := projectStep_eq hp
    simp [hf]

theorem Direct.find_limit (hd : Direct s) (pushed : PushdownPlan) :
    (plannedAs s pushed).executionSteps.findSome? limitOf =
      s.limit.map fun count => (count, s.offset.getD 0) := by
  rw [hd.steps_eq]
  simp only [List.findSome?_cons, limitOf, List.findSome?_append,
    findSome?_projectStep s (f := limitOf) fun _ => rfl, Option.or_none]
  cases pushed.filter <;> cases s.perPartitionLimit <;> cases s.limit <;> rfl

theorem Direct.find_perPartition (hd : Direct s) (pushed : PushdownPlan) :
    (plannedAs s pushed).executionSteps.findSome? perPartitionLimitOf = s.perPartitionLimit := by
  rw [hd.steps_eq]
  simp only [List.findSome?_cons, perPartitionLimitOf, List.findSome?_append,
    findSome?_projectStep s (f := perPartitionLimitOf) fun _ => rfl, Option.or_none]
  cases pushed.filter <;> cases s.perPartitionLimit <;> cases s.limit <;> rfl

end

theorem streamSteps_no_scan (limits : StreamLimits) (table : List ScanEntry)
    {steps : List ExecutionStep} (h : ∀ step ∈ steps, scanProjection step = none) (st : StreamState) :
    env.streamSteps limits table st steps = .ok [] := by
  induction steps with
  | nil => rfl
  | cons step steps ih =>
    have hrest := ih fun step hmem => h step (List.mem_cons_of_mem _ hmem)
    cases step with
    | sstableScan ps projection => cases h _ List.mem_cons_self
    | _ => exact hrest

omit [ValueOps] in
theorem validateScans_no_scan {steps : List ExecutionStep}
    (h : ∀ step ∈ steps, scanProjection step = none) : env.validateScans steps = .ok () := by
  induction steps with
  | nil => rfl
  | cons step steps ih =>
    have hrest := ih fun step hmem => h step (List.mem_cons_of_mem _ hmem)
    cases step with
    | sstableScan ps projection => cases h _ List.mem_cons_self
    | _ => exact hrest

omit [ValueOps] in
theorem Direct.one_scan (hd : Direct s) (pushed : PushdownPlan) :
    ∀ step ∈ (pushed.filter.map ExecutionStep.filter).toList ++ laterSteps s,
      scanProjection step = none := by
  intro step hstep
  rw [hd.laterSteps_eq] at hstep
  simp only [List.mem_append, Option.mem_toList, Option.map_eq_some_iff] at hstep
  rcases hstep with ⟨w, -, rfl⟩ | ⟨n, -, rfl⟩ | ⟨n, -, rfl⟩ | hp
  · rfl
  · rfl
  · rfl
  · obtain ⟨columns, rfl, -⟩ := projectStep_eq hp
    rfl

/-- Streaming a direct plan: what the producer sends of the rows it reads. -/
theorem streaming_direct (hd : Direct s) (hroute : routedToExecute (plannedAs s pushed) = false)
    (hlimit : s.limit ≠ some 0) (table : List ScanEntry) (out : List QueryRow) :
    env.executeStreaming (plannedAs s pushed) table = .ok out ↔
      validateTokenPredicates pushed.sstablePredicates env.schema = .ok () ∧
        ∃ entries, env.streamSource table pushed.sstablePredicates = .ok entries ∧
          out = (produce (limitsOf s) pushed.sstablePredicates (extractProjectionColumns s)
            (.start s) entries).1 := by
  have hsteps : env.defaultSteps (plannedAs s pushed) = (plannedAs s pushed).executionSteps := rfl
  have hzero : (s.limit.map fun count => (count, s.offset.getD 0)).any (·.1 == 0) = false := by
    cases hl : s.limit with
    | none => rfl
    | some count =>
      have : count ≠ 0 := fun h => hlimit (h ▸ hl)
      simpa using this
  have hstart : (⟨none, 0, ((s.limit.map fun count => (count, s.offset.getD 0)).map (·.2)).getD 0, 0⟩ :
      StreamState) = .start s := by
    rw [StreamState.start, skipped]
    cases s.limit <;> rfl
  have hcount : (s.limit.map fun count => (count, s.offset.getD 0)).map (·.1) = s.limit := by
    cases s.limit <;> rfl
  rw [executeStreaming, hroute, hsteps]
  simp only [Bool.false_eq_true, if_false, executeStreamingBackground, hd.find_limit,
    hd.find_perPartition, hzero, hstart, hcount]
  rw [plannedAs]
  simp only [validateScans, streamSteps, validateScans_no_scan env (hd.one_scan pushed), bind_ok_iff,
    limitsOf]
  constructor
  · rintro ⟨⟨⟩, ⟨⟨⟩, hv, -⟩, ⟨⟩, -, entries, he, hout⟩
    refine ⟨hv, entries, he, ?_⟩
    split at hout
    · rename_i rows hrows
      rw [hrows]
      exact (Except.ok.inj hout).symm
    · rename_i rows st hrows
      rw [streamSteps_no_scan env _ table (hd.one_scan pushed)] at hout
      rw [hrows, ← Except.ok.inj hout, List.append_nil]
  · rintro ⟨hv, entries, he, rfl⟩
    refine ⟨(), ⟨(), hv, trivial⟩, (), hv, entries, he, ?_⟩
    split
    · rename_i rows hrows
      rw [hrows]
      rfl
    · rename_i rows st hrows
      rw [streamSteps_no_scan env _ table (hd.one_scan pushed), hrows]
      exact congrArg Except.ok (List.append_nil rows)

theorem streaming_limit_zero (hd : Direct s) (hroute : routedToExecute (plannedAs s pushed) = false)
    (hlimit : s.limit = some 0)
    (hv : validateTokenPredicates pushed.sstablePredicates env.schema = .ok ())
    (table : List ScanEntry) : env.executeStreaming (plannedAs s pushed) table = .ok [] := by
  have hsteps : env.defaultSteps (plannedAs s pushed) = (plannedAs s pushed).executionSteps := rfl
  rw [executeStreaming, hroute, hsteps]
  simp only [Bool.false_eq_true, if_false, executeStreamingBackground, hd.find_limit, hlimit]
  rw [plannedAs]
  simp only [validateScans, hv, validateScans_no_scan env (hd.one_scan pushed)]
  rfl

/-! ### The cap and the filter -/

omit [ValueOps] in
theorem Direct.planCap_eq (hd : Direct s) (pushed : PushdownPlan) :
    planCap s pushed =
      if pushed.filter.isSome || s.perPartitionLimit.isSome then none
      else s.limit.map (· + s.offset.getD 0) := by
  have hclause : ∀ steps, scanPushdownCap s steps = scanPushdownCap.stepsCap steps none := by
    intro steps
    rw [scanPushdownCap]
    split
    · rename_i es hes
      exact absurd hes (hd.notDistinct es)
    · rfl
  have hproject : ∀ n, scanPushdownCap.stepsCap (projectStep s).toList n = n := by
    intro n
    cases hp : projectStep s with
    | none => rfl
    | some step =>
      obtain ⟨columns, rfl, -⟩ := projectStep_eq hp
      rfl
  rw [planCap, hclause, hd.steps_eq]
  cases pushed.filter <;> cases s.perPartitionLimit <;> cases s.limit <;>
    simp [scanPushdownCap.stepsCap, hproject]

omit [ValueOps] in
theorem Direct.window_capped (hd : Direct s) (hfilter : pushed.filter = none) (rows : List QueryRow) :
    window s (capped (planCap s pushed) rows) = window s rows := by
  rw [hd.planCap_eq, hfilter]
  cases hp : s.perPartitionLimit with
  | some n => rfl
  | none =>
    cases hl : s.limit with
    | none => rfl
    | some count =>
      simp only [window, perPartition, hp, hl, executeLimit, Option.isSome_none, Bool.or_self,
        Bool.false_eq_true, if_false, Option.map_some, capped]
      rw [List.drop_take, List.take_take, Nat.add_sub_cancel, Nat.min_self]

/-- A row the filter is true of. -/
def passes (w : WhereExpression) (row : QueryRow) : Bool :=
  match evaluateWhereExpression row w with
  | .ok b => b
  | .error _ => false

theorem executeFilter_ok_iff (w : WhereExpression) (rows out : List QueryRow) :
    executeFilter w rows = .ok out ↔
      (∀ row ∈ rows, ∃ b, evaluateWhereExpression row w = .ok b) ∧ out = rows.filter (passes w) := by
  induction rows generalizing out with
  | nil => simp [executeFilter, eq_comm]
  | cons row rows ih =>
    rw [executeFilter]
    simp only [bind_ok_iff, ih, List.forall_mem_cons]
    constructor
    · rintro ⟨keep, hkeep, rest, ⟨hall, rfl⟩, hret⟩
      obtain rfl := Except.ok.inj hret
      refine ⟨⟨⟨keep, hkeep⟩, hall⟩, ?_⟩
      rw [List.filter_cons, passes, hkeep]
    · rintro ⟨⟨⟨keep, hkeep⟩, hall⟩, rfl⟩
      refine ⟨keep, hkeep, _, ⟨hall, rfl⟩, ?_⟩
      rw [List.filter_cons, passes, hkeep]
      rfl

/-! ### Table contents -/

/-- What the rows of a table are like: a partition's rows follow each other; without a schema and
    without clustering columns, a partition has one live row, of columns the metadata names. -/
structure TableContent (schema : Option LookupSchema) (shape : Option PartitionKeyShape)
    (table : List ScanEntry) : Prop where
  contiguous : Quota.Contiguous (table.map ScanEntry.key)
  columns : schema = none → ∀ keys, shape = some keys → keys.clusteringKeyCount = 0 →
    ∀ e ∈ table, ∀ cells, e.cells = some cells → ∀ name, (cells name).isSome →
      name ∈ keys.nonKeyColumnNames
  single : schema = none → ∀ keys, shape = some keys → keys.clusteringKeyCount = 0 →
    ((table.filter (·.cells.isSome)).map ScanEntry.key).Nodup

abbrev Content (table : List ScanEntry) : Prop := TableContent env.schema env.shape table

variable {env}

section

omit [ValueOps]

theorem TableContent.sublist {table table' : List ScanEntry} (h : env.Content table)
    (hsub : table'.Sublist table) : env.Content table' where
  contiguous := h.contiguous.sublist (hsub.map _)
  columns hs shape hshape hck e he := h.columns hs shape hshape hck e (hsub.subset he)
  single hs shape hshape hck := (h.single hs shape hshape hck).sublist ((hsub.filter _).map _)

/-- The entry a row can have been built from. -/
def entryOf (row : QueryRow) : ScanEntry := ⟨row.key, some row.values⟩

theorem build_entryOf {row : QueryRow} (h : buildRowFromScan projection e = some row) :
    buildRowFromScan projection (entryOf row) = some row := by
  obtain ⟨cells, -, rfl⟩ := Option.map_eq_some_iff.mp h
  rw [buildRowFromScan, entryOf, Option.map_some]
  congr 2
  funext name
  dsimp only
  split <;> rfl

theorem keys_filterMap_build (projection : List String) (table : List ScanEntry) :
    (table.filterMap (buildRowFromScan projection)).map QueryRow.key =
      (table.filter (·.cells.isSome)).map ScanEntry.key := by
  induction table with
  | nil => rfl
  | cons e es ih =>
    cases hc : e.cells with
    | none =>
      rw [List.filterMap_cons_none (by rw [buildRowFromScan, hc]; rfl),
        List.filter_cons_of_neg (by simp [hc]), ih]
    | some cells =>
      obtain ⟨row, hb⟩ : ∃ row, buildRowFromScan projection e = some row := by
        rw [buildRowFromScan, hc]
        exact ⟨_, rfl⟩
      rw [List.filterMap_cons_some hb, List.filter_cons_of_pos (by simp [hc]), List.map_cons, ih,
        List.map_cons, build_key hb]

theorem TableContent.of_rows {table : List ScanEntry} (h : env.Content table) {rows : List QueryRow}
    (hmem : ∀ row ∈ rows, row ∈ table.filterMap (buildRowFromScan projection))
    (hkeys : (rows.map QueryRow.key).Sublist
      ((table.filterMap (buildRowFromScan projection)).map QueryRow.key)) :
    env.Content (rows.map entryOf) ∧
      (rows.map entryOf).filterMap (buildRowFromScan projection) = rows := by
  rw [keys_filterMap_build] at hkeys
  have hmap : (rows.map entryOf).map ScanEntry.key = rows.map QueryRow.key := by
    rw [List.map_map]
    rfl
  have hlive : (rows.map entryOf).filter (·.cells.isSome) = rows.map entryOf := by
    rw [List.filter_eq_self]
    intro e he
    obtain ⟨row, -, rfl⟩ := List.mem_map.mp he
    rfl
  refine ⟨⟨?_, ?_, ?_⟩, ?_⟩
  · rw [hmap]
    exact h.contiguous.sublist (hkeys.trans (List.filter_sublist.map _))
  · intro hs shape hshape hck e he cells hcells name hname
    obtain ⟨row, hrow, rfl⟩ := List.mem_map.mp he
    obtain ⟨e', he', hb⟩ := List.mem_filterMap.mp (hmem row hrow)
    obtain ⟨cells', hcells', rfl⟩ := Option.map_eq_some_iff.mp hb
    obtain rfl := Option.some.inj hcells
    refine h.columns hs shape hshape hck e' he' cells' hcells' name ?_
    dsimp only at hname
    split at hname
    · exact hname
    · cases hname
  · intro hs shape hshape hck
    rw [hlive, hmap]
    exact (h.single hs shape hshape hck).sublist hkeys
  · rw [List.filterMap_map]
    have hbuild : ∀ row ∈ rows, (buildRowFromScan projection ∘ entryOf) row = some row := by
      intro row hrow
      obtain ⟨e, -, hb⟩ := List.mem_filterMap.mp (hmem row hrow)
      exact build_entryOf hb
    rw [List.filterMap_congr hbuild, List.filterMap_some]

end

variable {seek : SchemalessPointSeek}

omit [ValueOps] in
/-- A schema-less seek is for one equality, on a column no row has. -/
theorem seek_inv (h : env.schemalessSeek s predicates = some seek) :
    env.schema = none ∧ ∃ p shape, predicates = [p] ∧ p.tokenColumns = none ∧
      env.shape = some shape ∧ shape.clusteringKeyCount = 0 ∧ p.column ∉ shape.nonKeyColumnNames := by
  rw [schemalessSeek] at h
  split at h
  · cases h
  · rename_i hs
    rw [Bool.not_eq_true, Bool.or_eq_false_iff, Option.isSome_eq_false_iff, Option.isNone_iff_eq_none] at hs
    refine ⟨hs.1, ?_⟩
    unfold classifySchemalessPointLookup at h
    split at h
    · rename_i p shape hshape
      split at h
      · cases h
      · rename_i hop
        rw [Bool.not_eq_true, Bool.or_eq_false_iff] at hop
        split at h
        · split at h
          · rename_i hsole
            simp only [Bool.and_eq_true, beq_iff_eq, Bool.not_eq_true', ← Bool.not_eq_true,
              List.contains_iff_mem] at hsole
            exact ⟨p, shape, rfl, by simpa using hop.1, hshape, hsole.1.2, hsole.2⟩
          · cases h
        · cases h
    · cases h

omit [ValueOps] in
theorem validates_of_seek (hseek : env.schemalessSeek s predicates = some seek) :
    validateTokenPredicates predicates env.schema = .ok () := by
  obtain ⟨-, p, -, rfl, htoken, -⟩ := seek_inv hseek
  refine validateTokenPredicates_columns (fun q hq => ?_) _
  rw [List.mem_singleton.mp hq, htoken]

variable {table : List ScanEntry}

theorem accepted_seek (hseek : env.schemalessSeek s predicates = some seek) (hc : env.Content table)
    (projection : List String) :
    accepted predicates projection table = [] := by
  obtain ⟨hs, p, shape, rfl, htoken, hshape, hck, hcol⟩ := seek_inv hseek
  rw [accepted, List.filter_eq_nil_iff]
  intro row hrow
  obtain ⟨e, he, hb⟩ := List.mem_filterMap.mp hrow
  obtain ⟨cells, hcells, rfl⟩ := Option.map_eq_some_iff.mp hb
  have habsent : cells p.column = none := by
    by_contra hsome
    exact hcol (hc.columns hs shape hshape hck e he cells hcells _ (Option.isSome_iff_ne_none.mpr hsome))
  simp [evaluatePredicates, evaluateLeaf, htoken, habsent]

theorem finalize_key (h : env.finalizeSchemalessSeekRow projection predicates seek e = some row) :
    row.key = e.key ∧ e.cells.isSome = true := by
  rw [finalizeSchemalessSeekRow] at h
  obtain ⟨v, -, h⟩ := Option.bind_eq_some_iff.mp h
  obtain ⟨built, hb, h⟩ := Option.bind_eq_some_iff.mp h
  have hlive : e.cells.isSome = true := by
    obtain ⟨cells, hcells, -⟩ := Option.map_eq_some_iff.mp hb
    rw [hcells]
    rfl
  refine ⟨?_, hlive⟩
  rw [← build_key hb]
  dsimp only at h
  repeat' split at h
  all_goals first
    | (obtain rfl := Option.some.inj h; rfl)
    | cases h

theorem TableContent.seek_rows (hc : env.Content table)
    (hseek : env.schemalessSeek s predicates = some seek) (projection : List String) :
    (scanPartition table seek.bytes).filterMap
        (env.finalizeSchemalessSeekRow projection predicates seek) = [] ∨
      ∃ e ∈ table, e.key = seek.bytes ∧ ∃ row,
        env.finalizeSchemalessSeekRow projection predicates seek e = some row ∧
          (scanPartition table seek.bytes).filterMap
            (env.finalizeSchemalessSeekRow projection predicates seek) = [row] := by
  obtain ⟨hs, -, shape, -, -, hshape, hck, -⟩ := seek_inv hseek
  have hkeys := keys_sublist (f := env.finalizeSchemalessSeekRow projection predicates seek)
    (fun _ _ h => finalize_key h) (scanPartition table seek.bytes)
  have hnodup := ((hc.single hs shape hshape hck).sublist
    ((List.filter_sublist.filter _).map _)).sublist hkeys
  have hfound : ∀ row ∈ (scanPartition table seek.bytes).filterMap
      (env.finalizeSchemalessSeekRow projection predicates seek),
      ∃ e ∈ table, e.key = seek.bytes ∧
        env.finalizeSchemalessSeekRow projection predicates seek e = some row := by
    intro row hrow
    obtain ⟨e, he, hf⟩ := List.mem_filterMap.mp hrow
    obtain ⟨he, hkey⟩ := List.mem_filter.mp he
    exact ⟨e, he, eq_of_beq hkey, hf⟩
  generalize (scanPartition table seek.bytes).filterMap
    (env.finalizeSchemalessSeekRow projection predicates seek) = rows at hnodup hfound ⊢
  match rows with
  | [] => exact .inl rfl
  | [row] =>
    obtain ⟨e, he, hkey, hf⟩ := hfound row List.mem_cons_self
    exact .inr ⟨e, he, hkey, row, hf, rfl⟩
  | row :: row' :: rest =>
    obtain ⟨e, -, hkey, hf⟩ := hfound row List.mem_cons_self
    obtain ⟨e', -, hkey', hf'⟩ := hfound row' (List.mem_cons_of_mem _ List.mem_cons_self)
    refine absurd ?_ (List.nodup_cons.mp hnodup).1
    rw [(finalize_key hf).1, hkey, ← hkey', ← (finalize_key hf').1]
    exact List.mem_cons_self

/-! ### When streaming gives what executing gives -/

variable (env)

/-- More rows than `OFFSET` skips, on which the filter evaluates, all pass it. -/
def FilterPasses (s : SelectStatement) (w : WhereExpression) : Prop :=
  ∀ table, env.Content table →
    let rows := table.filterMap (buildRowFromScan (extractProjectionColumns s))
    (∀ row ∈ rows, ∃ b, evaluateWhereExpression row w = .ok b) →
      skipped s < (perPartition s rows).length → ∀ row ∈ rows, passes w row = true

/-- The row a schema-less seek finds is not returned. -/
def SeekSilent (s : SelectStatement) (predicates : List SSTablePredicate)
    (seek : SchemalessPointSeek) : Prop :=
  s.perPartitionLimit = some 0 ∨ 0 < skipped s ∨
    ∀ e row, env.Content [e] → e.key = seek.bytes →
      env.finalizeSchemalessSeekRow (extractProjectionColumns s) predicates seek e = some row →
        ¬ env.withinBudget s [projectRow s row]

/-- More rows than `OFFSET` skips, accepted in the partition looked up, all lie in the slice. -/
def SlicePasses (s : SelectStatement) (predicates : List SSTablePredicate) (key : Bytes)
    (slice : ClusteringSlice) : Prop :=
  ∀ schema, env.schema = some schema → ∀ table, env.Content table →
    skipped s < (perPartition s
      (accepted predicates (extractProjectionColumns s) (scanPartition table key))).length →
    ∀ e ∈ scanPartition table key, ∀ row, buildRowFromScan (extractProjectionColumns s) e = some row →
      evaluatePredicates row predicates = true → slice.covers schema e.cells = true

/-- The statement has nothing the producer leaves out: no schema-less seek that returns a row, no
    filter that rejects one and no slice that cuts one off. -/
def Streamable (s : SelectStatement) (pushed : PushdownPlan) : Prop :=
  match env.schemalessSeek s pushed.sstablePredicates with
  | some seek => env.mode = .full ∨
      env.mode = .auto ∧ env.SeekSilent s pushed.sstablePredicates seek
  | none => (∀ w, pushed.filter = some w → env.mode = .point ∨ env.FilterPasses s w) ∧
      (validateTokenPredicates pushed.sstablePredicates env.schema = .ok () →
        ∀ key slice, env.lookup pushed.sstablePredicates = .ok (.targeted key) →
          classifyClusteringSlice pushed.sstablePredicates env.schema = some slice →
          env.SlicePasses s pushed.sstablePredicates key slice)

/-- The executor that reads slices in this way. -/
abbrev reading (sliceRead : ClusteringSlice → ScanEntry → Bool) : QueryEnv :=
  { env with sliceRead := sliceRead }

/-- A slice is read with every row whose clustering value lies in it. -/
def ReadsSlices (sliceRead : ClusteringSlice → ScanEntry → Bool) : Prop :=
  ∀ schema, env.schema = some schema → ∀ slice e, slice.covers schema e.cells = true →
    sliceRead slice e = true

/-- Whatever `execute` returns, however slices are read, draining the stream gives too. -/
def Agrees (plan : OptimizedQueryPlan) : Prop :=
  ∀ sliceRead, env.ReadsSlices sliceRead → ∀ table, env.Content table → ∀ rows,
    (env.reading sliceRead).execute plan table = .ok rows →
    (env.reading sliceRead).executeStreaming plan table = .ok rows

variable {env}

omit [ValueOps] in
theorem withinBudget_nil (s : SelectStatement) : env.withinBudget s [] := by
  rw [withinBudget, enforceMaterializedRows]
  cases s.limit <;> simp

omit [ValueOps] in
theorem filter_predicates {w : WhereExpression} (h : planWhereClause s = .ok pushed)
    (hw : pushed.filter = some w) : pushed.sstablePredicates = [] := by
  rw [planWhereClause] at h
  split at h
  · obtain rfl := Except.ok.inj h
    rfl
  · rw [planWhere] at h
    obtain ⟨-, -, h⟩ := bind_ok h
    obtain ⟨ps, -, h⟩ := bind_ok h
    obtain rfl := Except.ok.inj h
    dsimp only at hw ⊢
    split at hw
    · rename_i hnil
      exact List.isEmpty_iff.mp hnil
    · cases hw

theorem accepted_nil (projection : List String) (table : List ScanEntry) :
    accepted [] projection table = table.filterMap (buildRowFromScan projection) :=
  List.filter_eq_self.mpr fun _ _ => rfl

omit [ValueOps] in
/-- Reading without predicates is a full scan, unless a point lookup is forced. -/
theorem streamSource_nil (table : List ScanEntry) :
    env.streamSource table [] = if env.mode = .point then .error forcedError else .ok table := by
  rw [streamSource, lookup, classifyPartitionLookup_nil]
  cases env.mode <;> rfl

omit [ValueOps] in
theorem scanSource_nil (s : SelectStatement) (table : List ScanEntry) :
    env.scanSource s table [] = if env.mode = .point then .error forcedError else .ok table := by
  rw [scanSource, lookup, classifyPartitionLookup_nil]
  cases env.mode <;> rfl

omit [ValueOps] in
/-- A clause that keeps its filter looks up no partition. -/
theorem filter_none_of_targeted {key : Bytes} (hwhere : planWhereClause s = .ok pushed)
    (hlookup : env.lookup pushed.sstablePredicates = .ok (.targeted key)) :
    pushed.filter = none := by
  cases hw : pushed.filter with
  | none => rfl
  | some w =>
    rw [filter_predicates hwhere hw, lookup, classifyPartitionLookup_nil] at hlookup
    cases hmode : env.mode <;> rw [hmode] at hlookup <;> cases hlookup

/-- Reading a slice leaves the window as it is when no accepted row lies outside. -/
theorem window_slice {key : Bytes} {slice : ClusteringSlice}
    {sliceRead : ClusteringSlice → ScanEntry → Bool}
    (hslice : classifyClusteringSlice predicates env.schema = some slice)
    (hread : env.ReadsSlices sliceRead) (hpass : env.SlicePasses s predicates key slice)
    (hc : env.Content table) :
    window s (accepted predicates (extractProjectionColumns s)
        ((scanPartition table key).filter (sliceRead slice))) =
      window s (accepted predicates (extractProjectionColumns s) (scanPartition table key)) := by
  obtain ⟨schema, hschema, -⟩ := Option.bind_eq_some_iff.mp hslice
  rcases Nat.lt_or_ge (skipped s) (perPartition s (accepted predicates (extractProjectionColumns s)
    (scanPartition table key))).length with hmore | hfew
  · have hcovered := hpass schema hschema table hc hmore
    rw [accepted_filter fun e he row hb hp => hread schema hschema slice e (hcovered e he row hb hp)]
  · rw [window_nil_of_length hfew, window_nil_of_length
      (Nat.le_trans (perPartition_length_mono s (accepted_sublist List.filter_sublist)) hfew)]

/-- A row in the slice is still in it when it is built anew from what was projected. -/
theorem covers_entryOf {schema : LookupSchema} {slice : ClusteringSlice}
    (h : buildRowFromScan projection e = some row)
    (hcovers : slice.covers schema (entryOf row).cells = true) :
    slice.covers schema e.cells = true := by
  obtain ⟨cells, hcells, rfl⟩ := Option.map_eq_some_iff.mp h
  cases hfirst : schema.clusteringKeys.head? with
  | none => simp [ClusteringSlice.covers, hfirst] at hcovers
  | some first =>
    simp only [ClusteringSlice.covers, hfirst, hcells, entryOf] at hcovers ⊢
    by_cases hmem : (projection.isEmpty || projection.contains first.name) = true
    · rwa [if_pos hmem] at hcovers
    · rw [if_neg hmem] at hcovers
      cases hcovers

variable {rows : List QueryRow}

omit [ValueOps] in
/-- A choice of rows the per-partition limit keeps, one more than `OFFSET` skips. -/
theorem exists_perPartition (hrow : row ∈ rows) (hn : skipped s < (perPartition s rows).length) :
    ∃ ys : List QueryRow, row ∈ ys ∧ ys.length = skipped s + 1 ∧ (∀ y ∈ ys, y ∈ rows) ∧
      (ys.map QueryRow.key).Sublist (rows.map QueryRow.key) ∧ perPartition s ys = ys := by
  simp only [perPartition] at hn ⊢
  cases hp : s.perPartitionLimit with
  | none =>
    rw [hp] at hn
    have hall : Quota.quota QueryRow.key rows.length (fun _ => 0) rows = rows :=
      Quota.quota_eq_self_of_length (Nat.le_refl _)
    obtain ⟨ys, hmem, hlen, hsub, hkeys, -⟩ := Quota.exists_kept hrow (hall.symm ▸ hn)
    exact ⟨ys, hmem, hlen, hsub, hkeys, rfl⟩
  | some n =>
    rw [hp] at hn
    exact Quota.exists_kept hrow hn

omit [ValueOps] in
theorem Direct.map_projectRow (hd : Direct s) (entries : List ScanEntry)
    (h : ∀ row ∈ rows, row ∈ entries.filterMap (buildRowFromScan (extractProjectionColumns s))) :
    rows.map (projectRow s) = rows := by
  refine (List.map_congr_left fun row hrow => ?_).trans rows.map_id
  obtain ⟨e, -, hb⟩ := List.mem_filterMap.mp (h row hrow)
  exact hd.projectRow_eq hb

omit [ValueOps] in
theorem window_subset (h : row ∈ window s rows) :
    row ∈ rows := by
  rw [window] at h
  split at h
  · exact (perPartition_sublist s rows).subset h
  · exact (perPartition_sublist s rows).subset (List.mem_of_mem_drop (List.mem_of_mem_take h))

section Directions

variable {s : SelectStatement} {pushed : PushdownPlan} (hd : Direct s)
  (hroute : routedToExecute (plannedAs s pushed) = false) (hwhere : planWhereClause s = .ok pushed)
  (hlimit : s.limit ≠ some 0)

include hd hroute

theorem agrees_limit_zero (h : s.limit = some 0) : env.Agrees (plannedAs s pushed) := by
  intro sliceRead _ table _ out hout
  obtain ⟨scanned, rows, hscan, -, rfl, -⟩ := (execute_direct _ hd pushed table out).mp hout
  obtain ⟨⟨⟩, hv, -⟩ := bind_ok hscan
  have hnil : window s rows = [] := by
    rw [window, h]
    exact List.take_zero
  rw [hnil]
  exact streaming_limit_zero _ hd hroute h hv table

include hwhere hlimit

/-- A statement that is not sought without a schema agrees when its filter passes every row and its
    slice has every row. -/
theorem agrees_of_passes (hseek : env.schemalessSeek s pushed.sstablePredicates = none)
    (hfilter : ∀ w, pushed.filter = some w → env.mode = .point ∨ env.FilterPasses s w)
    (hslices : validateTokenPredicates pushed.sstablePredicates env.schema = .ok () →
      ∀ key slice, env.lookup pushed.sstablePredicates = .ok (.targeted key) →
        classifyClusteringSlice pushed.sstablePredicates env.schema = some slice →
        env.SlicePasses s pushed.sstablePredicates key slice) :
    env.Agrees (plannedAs s pushed) := by
  intro sliceRead hread table hc out hout
  obtain ⟨scanned, rows, hscan, hrows, rfl, -⟩ := (execute_direct _ hd pushed table out).mp hout
  obtain ⟨hv, entries, hentries, rfl⟩ := (scan_ok_iff (env.reading sliceRead) hseek _ table _ _).mp hscan
  rw [streaming_direct _ hd hroute hlimit]
  obtain ⟨source, hsource, hwindow⟩ : ∃ source,
      env.streamSource table pushed.sstablePredicates = .ok source ∧ window s rows =
        window s (accepted pushed.sstablePredicates (extractProjectionColumns s) source) := by
    cases hw : pushed.filter with
    | none =>
      rw [filterRows, hw] at hrows
      obtain rfl := Except.ok.inj hrows
      rcases scanSource_cases _ hentries with hsource | ⟨key, slice, hlookup, hslice, hsource, rfl⟩
      · exact ⟨entries, hsource, hd.window_capped hw _⟩
      · refine ⟨_, hsource, ?_⟩
        rw [hd.window_capped hw]
        exact window_slice hslice hread (hslices hv key slice hlookup hslice) hc
    | some w =>
      have hsource : env.streamSource table pushed.sstablePredicates = .ok entries := by
        rcases scanSource_cases _ hentries with hsource | ⟨key, slice, hlookup, -⟩
        · exact hsource
        · rw [filter_none_of_targeted hwhere hlookup] at hw
          cases hw
      refine ⟨entries, hsource, ?_⟩
      rw [filterRows, hw, hd.planCap_eq, hw] at hrows
      rw [filter_predicates hwhere hw, accepted_nil] at hrows ⊢
      rw [filter_predicates hwhere hw, streamSource_nil] at hsource
      split at hsource
      · cases hsource
      rename_i hmode
      obtain rfl := Except.ok.inj hsource
      obtain ⟨hall, rfl⟩ := (executeFilter_ok_iff w _ _).mp hrows
      rcases Nat.lt_or_ge (skipped s) (perPartition s
        (table.filterMap (buildRowFromScan (extractProjectionColumns s)))).length with hmore | hfew
      · have hpass := ((hfilter w hw).resolve_left hmode) table hc hall hmore
        exact congrArg (window s) (List.filter_eq_self.mpr hpass)
      · rw [window_nil_of_length hfew]
        exact window_nil_of_length
          (Nat.le_trans (perPartition_length_mono s List.filter_sublist) hfew)
  refine ⟨hv, source, hsource, ?_⟩
  rw [produce_eq_window hlimit (env.contiguous_accepted hc.contiguous hsource _), hwindow]
  refine hd.map_projectRow source fun row hrow => ?_
  exact List.mem_of_mem_filter (window_subset hrow)

omit hd hroute hlimit in
theorem filterRows_of_seek (hseek : env.schemalessSeek s pushed.sstablePredicates = some seek)
    (rows : List QueryRow) : filterRows pushed rows = .ok rows := by
  obtain ⟨-, p, -, hp, -⟩ := seek_inv hseek
  rw [filterRows]
  split
  · rfl
  · rename_i w hw
    rw [filter_predicates hwhere hw] at hp
    cases hp

variable (env) in
omit hroute hlimit in
theorem execute_seek (hseek : env.schemalessSeek s pushed.sstablePredicates = some seek)
    (table : List ScanEntry) (out : List QueryRow) :
    env.execute (plannedAs s pushed) table = .ok out ↔ env.mode ≠ .full ∧
      out = (window s ((scanPartition table seek.bytes).filterMap
        (env.finalizeSchemalessSeekRow (extractProjectionColumns s) pushed.sstablePredicates
          seek))).map (projectRow s) ∧ env.withinBudget s out := by
  have hv := validates_of_seek hseek
  rw [env.execute_direct hd]
  simp only [filterRows_of_seek hwhere hseek, executeSstableScan, hseek, hv, bind_ok_iff]
  constructor
  · rintro ⟨scanned, rows, ⟨-, -, hscan⟩, hrows, rfl, hbudget⟩
    obtain rfl := Except.ok.inj hrows
    split at hscan
    · cases hscan
    · rename_i hmode
      obtain rfl := Except.ok.inj hscan
      exact ⟨hmode, rfl, hbudget⟩
  · rintro ⟨hmode, rfl, hbudget⟩
    exact ⟨_, _, ⟨(), trivial, if_neg hmode⟩, rfl, rfl, hbudget⟩

variable (env) in
omit hwhere in
theorem streaming_seek (hseek : env.schemalessSeek s pushed.sstablePredicates = some seek)
    {table : List ScanEntry} (hc : env.Content table) (out : List QueryRow) :
    env.executeStreaming (plannedAs s pushed) table = .ok out ↔ env.mode ≠ .point ∧ out = [] := by
  obtain ⟨hs, p, -, hp, -⟩ := seek_inv hseek
  have hv := validates_of_seek hseek
  have hsource : env.streamSource table pushed.sstablePredicates =
      if env.mode = .point then .error forcedError else .ok table := by
    rw [streamSource, lookup, hs, classifyPartitionLookup_schemaless]
    cases env.mode <;> rfl
  rw [env.streaming_direct hd hroute hlimit, hsource]
  constructor
  · rintro ⟨-, entries, hentries, rfl⟩
    split at hentries
    · cases hentries
    · rename_i hmode
      obtain rfl := Except.ok.inj hentries
      refine ⟨hmode, ?_⟩
      rw [produce_eq_window hlimit, accepted_seek hseek hc, window_nil]
      rw [accepted_seek hseek hc]
      exact fun _ _ h => (nomatch h)
  · rintro ⟨hmode, rfl⟩
    refine ⟨hv, table, if_neg hmode, ?_⟩
    rw [produce_eq_window hlimit, accepted_seek hseek hc, window_nil]
    rw [accepted_seek hseek hc]
    exact fun _ _ h => (nomatch h)

variable (env) in
/-- A seek whose row is not returned agrees with the empty stream. -/
theorem streaming_of_seekSilent (hseek : env.schemalessSeek s pushed.sstablePredicates = some seek)
    (h : env.mode = .full ∨ env.mode = .auto ∧ env.SeekSilent s pushed.sstablePredicates seek)
    {table : List ScanEntry} (hc : env.Content table) {out : List QueryRow}
    (hout : env.execute (plannedAs s pushed) table = .ok out) :
    env.executeStreaming (plannedAs s pushed) table = .ok out := by
  obtain ⟨hmode, rfl, hbudget⟩ := (execute_seek _ hd hwhere hseek table out).mp hout
  obtain ⟨hauto, hsilent⟩ := h.resolve_left hmode
  refine (streaming_seek _ hd hroute hlimit hseek hc _).mpr ⟨by rw [hauto]; decide, ?_⟩
  rcases hc.seek_rows hseek (extractProjectionColumns s) with hnil | ⟨e, he, hkey, row, hf, hone⟩
  · rw [hnil, window_nil, List.map_nil]
  rw [hone] at hbudget ⊢
  have hle := (perPartition_sublist s [row]).length_le
  rw [List.length_singleton] at hle
  by_cases hzero : s.perPartitionLimit = some 0
  · have hnone : perPartition s [row] = [] := by
      rw [perPartition, hzero]
      exact Quota.quota_zero _ _
    rw [window_nil_of_length (by simp [hnone]), List.map_nil]
  by_cases hskip : 0 < skipped s
  · rw [window_nil_of_length (by omega), List.map_nil]
  have hbroke := (hsilent.resolve_left hzero).resolve_left hskip
  rw [window_singleton hlimit hzero (by omega), List.map_singleton] at hbudget
  exact absurd hbudget
    (hbroke e row (hc.sublist (List.singleton_sublist.mpr he)) hkey hf)

omit hwhere in
/-- More rows than `OFFSET` skips, all accepted, do not stream as nothing. -/
theorem streams_accepted {read : ClusteringSlice → ScanEntry → Bool} {ys : List QueryRow}
    (hc : env.Content (ys.map entryOf))
    (hsource : env.streamSource (ys.map entryOf) pushed.sstablePredicates = .ok (ys.map entryOf))
    (haccepted : accepted pushed.sstablePredicates (extractProjectionColumns s) (ys.map entryOf) = ys)
    (hkept : perPartition s ys = ys) (hlen : ys.length = skipped s + 1) :
    (env.reading read).executeStreaming (plannedAs s pushed) (ys.map entryOf) ≠ .ok [] := by
  intro h
  obtain ⟨-, entries, hentries, hsent⟩ := (streaming_direct _ hd hroute hlimit _ _).mp h
  obtain rfl := Except.ok.inj (hsource.symm.trans hentries)
  rw [produce_eq_window hlimit (env.contiguous_accepted hc.contiguous hsource _), haccepted] at hsent
  refine window_ne_nil hlimit ?_ hsent.symm
  rw [hkept, hlen]
  exact Nat.lt_succ_self _

/-- Agreement needs a filter that passes every row. -/
theorem filterPasses_of_agrees (hagree : env.Agrees (plannedAs s pushed))
    {w : WhereExpression} (hw : pushed.filter = some w) (hmode : env.mode ≠ .point) :
    env.FilterPasses s w := by
  intro table hc rows hall hmore row hrow
  by_contra hfail
  obtain ⟨ys, hys, hlen, hmem, hkeys, hkept⟩ := exists_perPartition hrow hmore
  obtain ⟨hc', hbuilt⟩ := hc.of_rows hmem hkeys
  have hps := filter_predicates hwhere hw
  have hsource : env.streamSource (ys.map entryOf) pushed.sstablePredicates =
      .ok (ys.map entryOf) := by
    rw [hps, streamSource_nil, if_neg hmode]
  have hscan : (env.reading fun _ _ => true).scanSource s (ys.map entryOf) pushed.sstablePredicates =
      .ok (ys.map entryOf) := by
    rw [hps, scanSource_nil, if_neg hmode]
  have haccepted : accepted pushed.sstablePredicates (extractProjectionColumns s) (ys.map entryOf) =
      ys := by
    rw [hps, accepted_nil, hbuilt]
  have hv : validateTokenPredicates pushed.sstablePredicates env.schema = .ok () := by
    rw [hps]
    exact validateTokenPredicates_columns (by simp) _
  have hseek : env.schemalessSeek s pushed.sstablePredicates = none := by
    rw [hps, schemalessSeek]
    split <;> rfl
  -- the rejected row makes room for the offset to skip everything
  have hfew : (perPartition s (ys.filter (passes w))).length ≤ skipped s := by
    have hlt : (ys.filter (passes w)).length < ys.length :=
      List.length_filter_lt_length_iff_exists.mpr ⟨row, hys, hfail⟩
    have hle := (perPartition_sublist s (ys.filter (passes w))).length_le
    omega
  have hexecute : (env.reading fun _ _ => true).execute (plannedAs s pushed) (ys.map entryOf) =
      .ok [] := by
    refine (execute_direct _ hd pushed _ _).mpr ⟨ys, ys.filter (passes w), ?_, ?_, ?_, ?_⟩
    · refine (scan_ok_iff (env.reading fun _ _ => true) hseek _ _ _ _).mpr ⟨hv, _, hscan, ?_⟩
      rw [haccepted, hd.planCap_eq, hw]
      rfl
    · rw [filterRows, hw]
      exact (executeFilter_ok_iff w _ _).mpr ⟨fun y hy => hall y (hmem y hy), rfl⟩
    · rw [window_nil_of_length hfew, List.map_nil]
    · exact withinBudget_nil s
  exact streams_accepted hd hroute hlimit hc' hsource haccepted hkept hlen
    (hagree (fun _ _ => true) (fun _ _ _ _ _ => rfl) _ hc' _ hexecute)

/-- A row outside the slice, among as many as `OFFSET` skips and one more, is streamed only. -/
theorem slicePasses_of_agrees (hagree : env.Agrees (plannedAs s pushed))
    (hseek : env.schemalessSeek s pushed.sstablePredicates = none)
    (hv : validateTokenPredicates pushed.sstablePredicates env.schema = .ok ()) {key : Bytes}
    {slice : ClusteringSlice} (hlookup : env.lookup pushed.sstablePredicates = .ok (.targeted key))
    (hslice : classifyClusteringSlice pushed.sstablePredicates env.schema = some slice) :
    env.SlicePasses s pushed.sstablePredicates key slice := by
  intro schema hschema table hc hmore e he row hb hp
  by_contra hout
  have hrow : row ∈ accepted pushed.sstablePredicates (extractProjectionColumns s)
      (scanPartition table key) := List.mem_filter.mpr ⟨List.mem_filterMap.mpr ⟨e, he, hb⟩, hp⟩
  obtain ⟨ys, hys, hlen, hmem, hkeys, hkept⟩ := exists_perPartition hrow hmore
  obtain ⟨hc', hbuilt⟩ := TableContent.of_rows (hc.sublist List.filter_sublist)
    (fun y hy => List.mem_of_mem_filter (hmem y hy)) (hkeys.trans (List.filter_sublist.map _))
  have haccepted : accepted pushed.sstablePredicates (extractProjectionColumns s)
      (ys.map entryOf) = ys := by
    rw [accepted, hbuilt]
    exact List.filter_eq_self.mpr fun y hy => (List.mem_filter.mp (hmem y hy)).2
  have hpartition : scanPartition (ys.map entryOf) key = ys.map entryOf := by
    refine List.filter_eq_self.mpr fun e' he' => ?_
    obtain ⟨y, hy, rfl⟩ := List.mem_map.mp he'
    obtain ⟨e', he', hb'⟩ := List.mem_filterMap.mp (List.mem_of_mem_filter (hmem y hy))
    rw [entryOf, build_key hb']
    exact (List.mem_filter.mp he').2
  let read : ClusteringSlice → ScanEntry → Bool := fun slice e => slice.covers schema e.cells
  have hreads : env.ReadsSlices read := by
    intro schema' hschema' slice' e' hcovers
    obtain rfl := Option.some.inj (hschema.symm.trans hschema')
    exact hcovers
  have hfew : (perPartition s (accepted pushed.sstablePredicates (extractProjectionColumns s)
      ((ys.map entryOf).filter (read slice)))).length ≤ skipped s := by
    have hsub : (accepted pushed.sstablePredicates (extractProjectionColumns s)
        ((ys.map entryOf).filter (read slice))).Sublist ys := by
      conv_rhs => rw [← haccepted]
      exact accepted_sublist List.filter_sublist
    have hlt : (accepted pushed.sstablePredicates (extractProjectionColumns s)
        ((ys.map entryOf).filter (read slice))).length ≠ ys.length := by
      intro hsame
      have hread := hsub.eq_of_length hsame ▸ hys
      obtain ⟨e', he', hb'⟩ := List.mem_filterMap.mp (List.mem_of_mem_filter hread)
      obtain ⟨he', hcovers⟩ := List.mem_filter.mp he'
      obtain ⟨y, hy, rfl⟩ := List.mem_map.mp he'
      obtain ⟨f, -, hf⟩ := List.mem_filterMap.mp (List.mem_of_mem_filter (hmem y hy))
      obtain rfl := Option.some.inj ((build_entryOf hf).symm.trans hb')
      exact hout (covers_entryOf hb hcovers)
    have hle := (perPartition_sublist s (accepted pushed.sstablePredicates
      (extractProjectionColumns s) ((ys.map entryOf).filter (read slice)))).length_le
    have := hsub.length_le
    omega
  have hfilter := filter_none_of_targeted hwhere hlookup
  have hscan : (env.reading read).scanSource s (ys.map entryOf) pushed.sstablePredicates =
      .ok ((ys.map entryOf).filter (read slice)) := by
    have hrows : (env.reading read).targetedRows s (ys.map entryOf) pushed.sstablePredicates key =
        (ys.map entryOf).filter (read slice) := by
      rw [targetedRows, hd.cellMetadata, targetedPartitionRows, hslice, hpartition]
      rfl
    exact (congrArg (· >>= _) hlookup).trans (congrArg Except.ok hrows)
  have hexecute : (env.reading read).execute (plannedAs s pushed) (ys.map entryOf) = .ok [] := by
    have hrows : ∀ rows, filterRows pushed rows = .ok rows := fun rows => by rw [filterRows, hfilter]
    refine (execute_direct _ hd pushed _ _).mpr
      ⟨_, _, (scan_ok_iff (env.reading read) hseek _ _ _ _).mpr ⟨hv, _, hscan, rfl⟩, hrows _, ?_,
        withinBudget_nil s⟩
    · rw [hd.window_capped hfilter, window_nil_of_length hfew, List.map_nil]
  have hsource : env.streamSource (ys.map entryOf) pushed.sstablePredicates =
      .ok (ys.map entryOf) := by
    rw [streamSource, hlookup]
    exact congrArg Except.ok hpartition
  exact streams_accepted hd hroute hlimit hc' hsource haccepted hkept hlen
    (hagree read hreads _ hc' _ hexecute)

theorem seekSilent_of_agrees (hagree : env.Agrees (plannedAs s pushed))
    (hseek : env.schemalessSeek s pushed.sstablePredicates = some seek) (hmode : env.mode ≠ .full) :
    env.mode = .auto ∧ env.SeekSilent s pushed.sstablePredicates seek := by
  have hpoint : env.mode ≠ .point := by
    have hempty : env.Content [] := ⟨fun _ _ h => (nomatch h), by simp, by simp⟩
    have hexecute : (env.reading fun _ _ => true).execute (plannedAs s pushed) [] = .ok [] := by
      refine (execute_seek (env.reading fun _ _ => true) hd hwhere hseek [] []).mpr
        ⟨hmode, ?_, withinBudget_nil s⟩
      exact (congrArg (List.map _) (window_nil s)).symm
    exact ((streaming_seek (env.reading fun _ _ => true) hd hroute hlimit hseek hempty _).mp
      (hagree (fun _ _ => true) (fun _ _ _ _ _ => rfl) [] hempty _ hexecute)).1
  refine ⟨by cases hm : env.mode <;> simp_all, ?_⟩
  by_contra hloud
  simp only [SeekSilent, not_or, Nat.not_lt, Nat.le_zero, not_forall, not_not] at hloud
  obtain ⟨hpart, hskip, e, row, hc, hkey, hf, hbudget⟩ := hloud
  have hexecute : (env.reading fun _ _ => true).execute (plannedAs s pushed) [e] =
      .ok [projectRow s row] := by
    refine (execute_seek (env.reading fun _ _ => true) hd hwhere hseek [e] _).mpr ⟨hmode, ?_, hbudget⟩
    have hfound : (scanPartition [e] seek.bytes).filterMap (env.finalizeSchemalessSeekRow
        (extractProjectionColumns s) pushed.sstablePredicates seek) = [row] := by
      rw [scanPartition, List.filter_cons_of_pos (by simp [hkey]), List.filter_nil,
        List.filterMap_cons_some hf, List.filterMap_nil]
    refine Eq.trans ?_ (congrArg (fun rows => (window s rows).map (projectRow s)) hfound.symm)
    rw [window_singleton hlimit hpart hskip, List.map_singleton]
  cases ((streaming_seek (env.reading fun _ _ => true) hd hroute hlimit hseek hc _).mp
    (hagree (fun _ _ => true) (fun _ _ _ _ _ => rfl) [e] hc _ hexecute)).2

end Directions

/-- Draining the stream gives what executing the plan gives exactly when the plan is executed first,
    or reads nothing, or has no filter that rejects a row, no slice that cuts one off and no schema-less
    seek that finds one. -/
theorem streaming_agrees_iff {plan : OptimizedQueryPlan} (env : QueryEnv) (s : SelectStatement)
    (h : optimize s = .ok plan) :
    env.Agrees plan ↔ routedToExecute plan = true ∨ s.limit = some 0 ∨
      ∀ pushed, planWhereClause s = .ok pushed → env.Streamable s pushed := by
  by_cases hroute : routedToExecute plan = true
  · refine iff_of_true (fun sliceRead _ table _ rows hrows => ?_) (.inl hroute)
    rw [executeStreaming, hroute, if_pos rfl]
    exact hrows
  rw [Bool.not_eq_true] at hroute
  rcases optimize_cases h with ⟨hfrom, rfl⟩ | ⟨-, pushed, hwhere, rfl⟩
  · simp [routedToExecute, hfrom] at hroute
  have hd := direct_of_not_routed hroute
  by_cases hlimit : s.limit = some 0
  · exact iff_of_true (agrees_limit_zero hd hroute hlimit) (.inr (.inl hlimit))
  simp only [hroute, Bool.false_eq_true, hlimit, false_or, hwhere, Except.ok.injEq, forall_eq']
  rw [Streamable]
  cases hseek : env.schemalessSeek s pushed.sstablePredicates with
  | some seek =>
    refine ⟨fun hagree => ?_, fun hsilent sliceRead _ table hc rows hrows =>
      streaming_of_seekSilent (env.reading sliceRead) hd hroute hwhere hlimit hseek hsilent hc hrows⟩
    by_cases hmode : env.mode = .full
    · exact .inl hmode
    · exact .inr (seekSilent_of_agrees hd hroute hwhere hlimit hagree hseek hmode)
  | none =>
    refine ⟨fun hagree => ⟨fun w hw => ?_, fun hv key slice hlookup hslice => ?_⟩,
      fun hpasses => agrees_of_passes hd hroute hwhere hlimit hseek hpasses.1 hpasses.2⟩
    · by_cases hmode : env.mode = .point
      · exact .inl hmode
      · exact .inr (filterPasses_of_agrees hd hroute hwhere hlimit hagree hw hmode)
    · exact slicePasses_of_agrees hd hroute hwhere hlimit hagree hseek hv hlookup hslice

end Run

/-- A table with a partition key that the predicates do not pin. -/
def scanned : QueryEnv where
  mode := .auto
  schema := some ⟨[⟨"id", "int"⟩], [⟨"at", "timestamp"⟩]⟩
  codec := ⟨fun _ => .error (.invalidInput "nested"), fun _ => .error (.invalidInput "nested")⟩
  shape := none
  encodeSingleComponentKeyTyped _ _ := none
  deserializeValueBytes _ _ := none
  sliceRead _ _ := true
  resultColumns _ := []
  constantQuery _ := .ok []
  sortRows _ rows := .ok rows
  aggregateRows _ rows := .ok rows
  tryExecuteGlobalAggregate _ _ := .ok none
  projectedColumnName _ i := toString i
  estimateRowSize _ := 8
  maxResultBytes := 100
  maxResultRows := 100
  globalAggregate_none _ _ _ := rfl

/-- `SELECT * FROM t WHERE ...` -/
def selectAll (w : WhereExpression) : SelectStatement where
  selectClause := .all
  hasFrom := true
  whereClause := some w
  groupBy := none
  orderBy := none
  limit := none
  perPartitionLimit := none
  offset := none
  selectsCellMetadata := false

/-- A clause that is pushed whole streams what it executes. -/
theorem pushed_clause_streams :
    ∃ plan, optimize (selectAll pushedClause) = .ok plan ∧ scanned.Agrees plan := by
  refine ⟨_, rfl, (streaming_agrees_iff scanned (selectAll pushedClause) rfl).mpr ?_⟩
  refine .inr (.inr fun pushed hpushed => ⟨fun w hw => ?_, fun _ key slice hlookup => ?_⟩)
  · obtain rfl := Except.ok.inj hpushed
    cases hw
  · obtain rfl := Except.ok.inj hpushed
    cases hlookup

/-- `WHERE a = 2 OR a = 3`, over a row with `a = 1`: executing returns nothing, streaming the row. -/
theorem disjunction_streamed :
    ∃ plan, optimize (selectAll (.or [compareTo "a" .equal 2, compareTo "a" .equal 3])) = .ok plan ∧
      scanned.Content [entryOf exampleRow] ∧
      scanned.execute plan [entryOf exampleRow] = .ok [] ∧
      (scanned.executeStreaming plan [entryOf exampleRow]).map List.length = .ok 1 := by
  refine ⟨_, rfl, ⟨fun _ _ h => (nomatch h), nofun, nofun⟩, ?_, ?_⟩
  · rfl
  · rfl

end QueryEnv

end Cqlite
