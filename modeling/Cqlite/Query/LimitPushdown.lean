import Cqlite.Query.Streaming

/-! The cap of a scan (`select_executor/limit_pushdown/mod.rs`).

    A plan whose `LIMIT` follows the scan directly lets a full scan stop after the rows the limit needs.
    It then reads the lazy stream of the storage layer, which is a pipeline of its own: what it yields
    need not be what the authoritative scan returns. A stream that ends early is not trusted; one that
    fills the cap is, as long as its rows are in token order.

    The release build is modelled: the debug assertion that compares the two scans is left out, and so
    are the counters of scanned rows. -/

namespace Cqlite

namespace QueryEnv

/-- What the storage layer yields for a table: the authoritative scan and the lazy stream. -/
structure ScanSources where
  scan : List ScanEntry
  stream : List ScanEntry
  /-- `scan_stream_materializes`. -/
  materializes : Bool

section Defs

variable [ValueOps]

/-- `collect_capped_materialized`, after `n` rows. -/
def collectCappedMaterialized (scanCap : Option Nat) (predicates : List SSTablePredicate)
    (projection : List String) : Nat → List ScanEntry → List QueryRow
  | _, [] => []
  | n, e :: es =>
    if scanCap.any (· ≤ n) then []
    else match buildRowFromScan projection e with
      | none => collectCappedMaterialized scanCap predicates projection n es
      | some row =>
        if evaluatePredicates row predicates then
          row :: collectCappedMaterialized scanCap predicates projection (n + 1) es
        else collectCappedMaterialized scanCap predicates projection n es

/-- Receives from the stream until the cap is full; none if the stream ends before. -/
def receiveUntilFull (cap : Nat) (predicates : List SSTablePredicate) (projection : List String) :
    List QueryRow → List ScanEntry → Option (List QueryRow)
  | _, [] => none
  | results, e :: es =>
    match buildRowFromScan projection e with
    | none => receiveUntilFull cap predicates projection results es
    | some row =>
      if evaluatePredicates row predicates then
        if cap ≤ (results ++ [row]).length then some (results ++ [row])
        else receiveUntilFull cap predicates projection (results ++ [row]) es
      else receiveUntilFull cap predicates projection results es

/-- `prefix_is_token_ordered`: no row is before the one it follows. -/
def prefixIsTokenOrdered : Option Bytes → List QueryRow → Bool
  | _, [] => true
  | prev, row :: rows =>
    if prev.any fun p => DecoratedKey.cmp (.fromKeyBytes p) (.fromKeyBytes row.key) = .gt then false
    else prefixIsTokenOrdered (some row.key) rows

def reconcileViaAuthoritativeScan (cap : Nat) (predicates : List SSTablePredicate)
    (projection : List String) (src : ScanSources) : List QueryRow :=
  collectCappedMaterialized (some cap) predicates projection 0 src.scan

def cappedFallbackScan (cap : Nat) (predicates : List SSTablePredicate) (projection : List String)
    (src : ScanSources) : List QueryRow :=
  if cap = 0 then []
  else if src.materializes then collectCappedMaterialized (some cap) predicates projection 0 src.scan
  else match receiveUntilFull cap predicates projection [] src.stream with
    | some results =>
      if prefixIsTokenOrdered none results then results
      else reconcileViaAuthoritativeScan cap predicates projection src
    | none => reconcileViaAuthoritativeScan cap predicates projection src

variable (env : QueryEnv)

/-- The scan step; only a full scan without cell metadata reads the stream. -/
def executeSstableScanOver (s : SelectStatement) (scanCap : Option Nat) (src : ScanSources)
    (predicates : List SSTablePredicate) (projection : List String) :
    Except QueryError (List QueryRow) := do
  validateTokenPredicates predicates env.schema
  match env.schemalessSeek s predicates with
  | some seek =>
    if env.mode = .full then .error "forced read path unavailable: full"
    else
      let rows := scanPartition src.scan seek.bytes
      return rows.filterMap (env.finalizeSchemalessSeekRow projection predicates seek)
  | none =>
    match ← env.lookup predicates with
    | .targeted key =>
      return collectCappedMaterialized scanCap predicates projection 0
        (env.targetedRows s src.scan predicates key)
    | .multiTargeted keys =>
      return collectCappedMaterialized scanCap predicates projection 0 (multiPartition src.scan keys)
    | .fallback =>
      if s.selectsCellMetadata then
        return collectCappedMaterialized scanCap predicates projection 0 src.scan
      else match scanCap with
        | some cap => return cappedFallbackScan cap predicates projection src
        | none => return collectCappedMaterialized none predicates projection 0 src.scan

def executeStepOver (s : SelectStatement) (scanCap : Option Nat) (src : ScanSources)
    (rows : List QueryRow) : ExecutionStep → Except QueryError (List QueryRow)
  | .sstableScan predicates projection =>
    env.executeSstableScanOver s scanCap src predicates projection
  | step => env.executeStep s scanCap src.scan rows step

def executeStepsOver (s : SelectStatement) (scanCap : Option Nat) (src : ScanSources) :
    List ExecutionStep → List QueryRow → Except QueryError (List QueryRow)
  | [], rows => .ok rows
  | step :: steps, rows => do
    executeStepsOver s scanCap src steps (← env.executeStepOver s scanCap src rows step)

/-- `execute` over the two sources, with the cap given. -/
def executeOver (scanCap : Option Nat) (plan : OptimizedQueryPlan) (src : ScanSources) :
    Except QueryError (List QueryRow) := do
  let s := plan.statement
  if !s.hasFrom then
    let rows ← env.constantQuery s
    let rows := (rows.drop (s.offset.getD 0)).take (s.limit.getD rows.length)
    env.enforceMaterializedRows (some env.maxResultRows) rows
    return rows
  else
    let steps := env.defaultSteps plan
    let rows ← match ← env.tryExecuteGlobalAggregate steps src.scan with
      | some rows => pure rows
      | none => env.executeStepsOver s scanCap src steps []
    env.enforceMaterializedRows (if s.limit.isSome then none else some env.maxResultRows) rows
    return rows

end Defs

/-! ### The loops -/

variable {cap : Nat} {predicates : List SSTablePredicate} {projection : List String}

section Loops

variable [ValueOps]

theorem collectCappedMaterialized_eq (scanCap : Option Nat) (predicates : List SSTablePredicate)
    (projection : List String) (n : Nat) (entries : List ScanEntry) :
    collectCappedMaterialized scanCap predicates projection n entries =
      capped (scanCap.map (· - n)) (accepted predicates projection entries) := by
  induction entries generalizing n with
  | nil => cases scanCap <;> simp [collectCappedMaterialized, capped, accepted]
  | cons e es ih =>
    rw [collectCappedMaterialized]
    split
    · next hfull =>
      cases scanCap with
      | none => cases hfull
      | some cap =>
        have hle : cap ≤ n := by simpa using hfull
        simp [capped, Nat.sub_eq_zero_of_le hle]
    · next hfull =>
      cases hb : buildRowFromScan projection e with
      | none =>
        rw [accepted_cons_none hb]
        exact ih n
      | some row =>
        rw [accepted_cons_some hb]
        by_cases hrow : evaluatePredicates row predicates
        · simp only [hrow, if_true]
          rw [ih (n + 1)]
          cases scanCap with
          | none => rfl
          | some cap =>
            have hlt : n < cap := by simpa using hfull
            simp only [Option.map_some, capped]
            rw [show cap - n = cap - (n + 1) + 1 by omega, List.take_succ_cons]
        · simp only [hrow, Bool.false_eq_true, if_false]
          exact ih n

theorem receiveUntilFull_eq (predicates : List SSTablePredicate) (projection : List String)
    (results : List QueryRow) (entries : List ScanEntry) (h : results.length < cap) :
    receiveUntilFull cap predicates projection results entries =
      if cap ≤ results.length + (accepted predicates projection entries).length then
        some (results ++ (accepted predicates projection entries).take (cap - results.length))
      else none := by
  induction entries generalizing results with
  | nil => rw [receiveUntilFull, if_neg (by simp [accepted]; omega)]
  | cons e es ih =>
    rw [receiveUntilFull]
    cases hb : buildRowFromScan projection e with
    | none =>
      rw [accepted_cons_none hb]
      exact ih results h
    | some row =>
      rw [accepted_cons_some hb]
      by_cases hrow : evaluatePredicates row predicates
      · simp only [hrow, if_true, List.length_append, List.length_cons, List.length_nil]
        by_cases hfull : cap ≤ results.length + 1
        · rw [if_pos (by omega), if_pos (by omega), show cap - results.length = 0 + 1 by omega,
            List.take_succ_cons, List.take_zero]
        · rw [if_neg (by omega), ih _ (by simp; omega)]
          simp only [List.length_append, List.length_cons, List.length_nil]
          rw [show cap - results.length = cap - (results.length + 1) + 1 by omega, List.take_succ_cons,
            List.append_assoc, List.singleton_append, Nat.add_right_comm, Nat.add_assoc]
      · simp only [hrow, Bool.false_eq_true, if_false]
        exact ih results h

omit [ValueOps] in
theorem prefixIsTokenOrdered_of_sorted {rows : List QueryRow} {prev : Option Bytes}
    (h : (prev.toList ++ rows.map QueryRow.key).Pairwise fun a b =>
      (DecoratedKey.cmp (.fromKeyBytes a) (.fromKeyBytes b)).isLE) :
    prefixIsTokenOrdered prev rows = true := by
  induction rows generalizing prev with
  | nil => rfl
  | cons row rows ih =>
    rw [prefixIsTokenOrdered, if_neg]
    · refine ih ?_
      rw [List.map_cons] at h
      exact (List.pairwise_append.1 h).2.1
    · cases prev with
      | none => simp
      | some p =>
        have hle := List.rel_of_pairwise_cons h (List.mem_cons_self)
        simp only [Option.any_some, decide_eq_true_eq]
        intro hgt
        rw [hgt] at hle
        cases hle

end Loops

/-! ### The fallback scan -/

section Fallback

variable [ValueOps]

/-- The stream misses no accepted row before the one that fills the cap; a short stream and one that
    is not lazy are not asked. -/
def StreamSuffices (cap : Nat) (predicates : List SSTablePredicate) (projection : List String)
    (src : ScanSources) : Prop :=
  src.materializes = true ∨
    (cap ≤ (accepted predicates projection src.stream).length →
      (accepted predicates projection src.scan).take cap <+: accepted predicates projection src.stream)

theorem cappedFallbackScan_eq {src : ScanSources}
    (hsorted : src.stream.Pairwise fun a b => tokenLe a b) :
    cappedFallbackScan cap predicates projection src =
      if src.materializes = false ∧ cap ≤ (accepted predicates projection src.stream).length then
        (accepted predicates projection src.stream).take cap
      else (accepted predicates projection src.scan).take cap := by
  have hscan : collectCappedMaterialized (some cap) predicates projection 0 src.scan =
      (accepted predicates projection src.scan).take cap :=
    collectCappedMaterialized_eq (some cap) predicates projection 0 src.scan
  rw [cappedFallbackScan]
  by_cases hzero : cap = 0
  · simp [hzero]
  · rw [if_neg hzero]
    cases src.materializes with
    | true => simp [hscan]
    | false =>
      rw [if_neg (by simp), receiveUntilFull_eq predicates projection [] src.stream (by simp; omega)]
      simp only [List.length_nil, Nat.zero_add, List.nil_append, Nat.sub_zero, true_and]
      by_cases hfull : cap ≤ (accepted predicates projection src.stream).length
      · have hordered : prefixIsTokenOrdered none
            ((accepted predicates projection src.stream).take cap) = true := by
          refine prefixIsTokenOrdered_of_sorted ?_
          have hkeys := ((List.take_sublist cap (accepted predicates projection src.stream)).map
            QueryRow.key).trans (accepted_keys predicates projection src.stream)
          exact (List.pairwise_map.2 hsorted).sublist hkeys
        simp [hfull, hordered]
      · simp [hfull, reconcileViaAuthoritativeScan, hscan]

/-- The fallback scan gives the first accepted rows of the authoritative scan exactly if the stream
    suffices. -/
theorem cappedFallbackScan_eq_take_iff {src : ScanSources}
    (hsorted : src.scan.Pairwise fun a b => tokenLe a b) (hsub : src.stream.Sublist src.scan) :
    cappedFallbackScan cap predicates projection src =
        (accepted predicates projection src.scan).take cap ↔
      StreamSuffices cap predicates projection src := by
  rw [cappedFallbackScan_eq (hsorted.sublist hsub), StreamSuffices]
  cases src.materializes with
  | true => simp
  | false =>
    by_cases hfull : cap ≤ (accepted predicates projection src.stream).length
    · simp only [hfull, and_self, if_true, Bool.false_eq_true, false_or, forall_const]
      constructor
      · intro h
        rw [← h]
        exact List.take_prefix _ _
      · intro h
        have hlen : ((accepted predicates projection src.scan).take cap).length = cap := by
          rw [List.length_take]
          exact Nat.min_eq_left (hfull.trans (accepted_sublist hsub).length_le)
        rw [List.prefix_iff_eq_take, hlen] at h
        exact h.symm
    · simp [hfull]

end Fallback

/-! ### The plan -/

theorem planCap_some {s : SelectStatement} {pushed : PushdownPlan} {n : Nat}
    (h : planCap s pushed = some n) :
    ∃ count, n = count + s.offset.getD 0 ∧
      (plannedAs s pushed).executionSteps =
        .sstableScan pushed.sstablePredicates (extractProjectionColumns s) ::
          .limit count s.offset :: (projectStep s).toList := by
  have hsteps : scanPushdownCap.stepsCap (plannedAs s pushed).executionSteps none = some n := by
    rw [planCap, scanPushdownCap] at h
    split at h
    · cases h
    · exact h
  have hproject : ∀ n, scanPushdownCap.stepsCap (projectStep s).toList n = n := by
    intro n
    cases hp : projectStep s with
    | none => rfl
    | some step =>
      obtain ⟨columns, rfl, -⟩ := projectStep_eq hp
      rfl
  revert hsteps
  rw [plannedAs, laterSteps]
  cases pushed.filter <;> cases s.requiresAggregation <;> cases s.orderBy <;>
    cases s.perPartitionLimit <;> cases s.limit <;>
    simp [scanPushdownCap.stepsCap, hproject]
  rintro rfl
  rfl

theorem executeLimit_take (count : Nat) (offset : Option Nat) (rows : List QueryRow) :
    executeLimit count offset (rows.take (count + offset.getD 0)) = executeLimit count offset rows := by
  rw [executeLimit, executeLimit, List.drop_take, List.take_take, Nat.add_sub_cancel, Nat.min_self]

section Plan

variable [ValueOps] {env : QueryEnv} {s : SelectStatement} {src : ScanSources}

variable (env) in
/-- The scan step reads the whole table, for its rows only. -/
def FallsBack (s : SelectStatement) (predicates : List SSTablePredicate) : Prop :=
  env.schemalessSeek s predicates = none ∧ env.lookup predicates = .ok .fallback ∧
    s.selectsCellMetadata = false

/-- After the limit, a capped scan that gives the first accepted rows is as good as a full one. -/
theorem scan_then_limit {count : Nat}
    (h : env.FallsBack s predicates →
      cappedFallbackScan (count + s.offset.getD 0) predicates projection src =
        (accepted predicates projection src.scan).take (count + s.offset.getD 0)) :
    (env.executeSstableScanOver s (some (count + s.offset.getD 0)) src predicates projection).map
        (executeLimit count s.offset) =
      (env.executeSstableScanOver s none src predicates projection).map
        (executeLimit count s.offset) := by
  have hcollect : ∀ entries, executeLimit count s.offset (collectCappedMaterialized
      (some (count + s.offset.getD 0)) predicates projection 0 entries) =
      executeLimit count s.offset (collectCappedMaterialized none predicates projection 0 entries) := by
    intro entries
    rw [collectCappedMaterialized_eq, collectCappedMaterialized_eq]
    exact executeLimit_take count s.offset _
  rw [executeSstableScanOver, executeSstableScanOver]
  cases validateTokenPredicates predicates env.schema with
  | error e => rfl
  | ok u =>
    cases hseek : env.schemalessSeek s predicates with
    | some seek => rfl
    | none =>
      cases hlookup : env.lookup predicates with
      | error e => rfl
      | ok outcome =>
        cases outcome with
        | targeted key => exact congrArg Except.ok (hcollect _)
        | multiTargeted keys => exact congrArg Except.ok (hcollect _)
        | fallback =>
          cases hmeta : s.selectsCellMetadata with
          | true => exact congrArg Except.ok (hcollect _)
          | false =>
            refine congrArg Except.ok ?_
            rw [h ⟨hseek, hlookup, hmeta⟩, executeLimit_take, collectCappedMaterialized_eq]
            rfl

variable (env) in
/-- The cap of a plan. -/
def scanCapOf (plan : OptimizedQueryPlan) : Option Nat :=
  scanPushdownCap plan.statement (env.defaultSteps plan)

theorem executeStepsOver_limit (scanCap : Option Nat) (predicates : List SSTablePredicate)
    (projection : List String) (count : Nat) :
    env.executeStepsOver s scanCap src (.sstableScan predicates projection ::
        .limit count s.offset :: (projectStep s).toList) [] =
      (env.executeSstableScanOver s scanCap src predicates projection).map
          (executeLimit count s.offset) >>= fun rows =>
        env.executeSteps s none src.scan (projectStep s).toList rows := by
  have hproject : ∀ rows, env.executeStepsOver s scanCap src (projectStep s).toList rows =
      env.executeSteps s none src.scan (projectStep s).toList rows := by
    intro rows
    cases hp : projectStep s with
    | none => rfl
    | some step =>
      obtain ⟨columns, rfl, -⟩ := projectStep_eq hp
      rfl
  rw [executeStepsOver, executeStepOver]
  cases env.executeSstableScanOver s scanCap src predicates projection with
  | error e => rfl
  | ok rows => exact hproject _

variable (env) in
/-- The capped fallback scan gives the first accepted rows, and capping changes no result. -/
structure PushdownInvisible (plan : OptimizedQueryPlan) (src : ScanSources) : Prop where
  fallback : ∀ cap predicates projection, env.scanCapOf plan = some cap →
    .sstableScan predicates projection ∈ env.defaultSteps plan →
    env.FallsBack plan.statement predicates →
      cappedFallbackScan cap predicates projection src =
        (accepted predicates projection src.scan).take cap
  result : env.executeOver (env.scanCapOf plan) plan src = env.executeOver none plan src

/-- Capping the scan of a plan is invisible exactly if the stream suffices wherever the scan falls back
    to reading the whole table. -/
theorem pushdown_invisible_iff {plan : OptimizedQueryPlan} (hplan : optimize s = .ok plan)
    (hsorted : src.scan.Pairwise fun a b => tokenLe a b) (hsub : src.stream.Sublist src.scan) :
    env.PushdownInvisible plan src ↔
      ∀ cap predicates projection, env.scanCapOf plan = some cap →
        .sstableScan predicates projection ∈ env.defaultSteps plan →
        env.FallsBack plan.statement predicates → StreamSuffices cap predicates projection src := by
  simp only [← cappedFallbackScan_eq_take_iff hsorted hsub]
  refine ⟨fun h => h.fallback, fun h => ⟨h, ?_⟩⟩
  cases hcap : env.scanCapOf plan with
  | none => rfl
  | some cap =>
    obtain ⟨-, rfl⟩ | ⟨-, pushed, -, rfl⟩ := optimize_cases hplan
    · simp only [scanCapOf, defaultSteps, scanPushdownCap, scanPushdownCap.stepsCap, List.isEmpty_nil,
        if_true] at hcap
      split at hcap <;> cases hcap
    · have hplanned : planCap s pushed = some cap := hcap
      obtain ⟨count, rfl, hsteps⟩ := planCap_some hplanned
      have hscan : env.FallsBack s pushed.sstablePredicates → _ :=
        h _ pushed.sstablePredicates (extractProjectionColumns s) hcap (by simp [plannedAs, defaultSteps])
      have hrun : env.executeStepsOver s (some (count + s.offset.getD 0)) src
          (plannedAs s pushed).executionSteps [] =
          env.executeStepsOver s none src (plannedAs s pushed).executionSteps [] := by
        rw [hsteps, executeStepsOver_limit, executeStepsOver_limit, scan_then_limit hscan]
      rw [executeOver, executeOver]
      simp only [show (plannedAs s pushed).statement = s from rfl,
        show env.defaultSteps (plannedAs s pushed) = (plannedAs s pushed).executionSteps from rfl, hrun]

end Plan

/-- `SELECT * FROM t LIMIT 1` -/
def firstRow : SelectStatement where
  selectClause := .all
  hasFrom := true
  whereClause := none
  groupBy := none
  orderBy := none
  limit := some 1
  perPartitionLimit := none
  offset := none
  selectsCellMetadata := false

/-- The row of the partition `[1]` with this value. -/
def rowOf (n : Int) : ScanEntry := ⟨[1], some fun name => if name = "a" then some (.integer n) else none⟩

/-- A stream that misses the last row: the first one fills the cap. -/
theorem trailing_miss_invisible :
    ∃ plan, optimize firstRow = .ok plan ∧
      scanned.PushdownInvisible plan ⟨[rowOf 1, rowOf 2], [rowOf 1], false⟩ := by
  refine ⟨_, rfl, (pushdown_invisible_iff (s := firstRow) rfl ?_ ?_).2 ?_⟩
  · exact .cons (by simp [tokenLe, rowOf, DecoratedKey.cmp]) (.cons (by simp) .nil)
  · exact .cons_cons _ (.cons _ .slnil)
  · rintro cap predicates projection hcap hscan -
    obtain rfl : 1 = cap := Option.some.inj hcap
    obtain ⟨rfl, rfl⟩ : predicates = [] ∧ projection = [] := by
      simpa [defaultSteps, plannedAs, extractProjectionColumns, firstRow, laterSteps, projectStep,
        SelectStatement.requiresAggregation, SelectClause.exprs] using hscan
    exact .inr fun _ => ⟨[], rfl⟩

/-- A stream that misses the first row fills the cap with the second; the order check sees nothing. -/
theorem missed_row_visible :
    ∃ plan, optimize firstRow = .ok plan ∧
      [rowOf 1, rowOf 2].Pairwise (fun a b => tokenLe a b) ∧ [rowOf 2].Sublist [rowOf 1, rowOf 2] ∧
      (scanned.executeOver (scanned.scanCapOf plan) plan ⟨[rowOf 1, rowOf 2], [rowOf 2], false⟩).map
        (·.map fun row => row.values "a") = .ok [some (.integer 2)] ∧
      (scanned.executeOver none plan ⟨[rowOf 1, rowOf 2], [rowOf 2], false⟩).map
        (·.map fun row => row.values "a") = .ok [some (.integer 1)] ∧
      ¬ scanned.PushdownInvisible plan ⟨[rowOf 1, rowOf 2], [rowOf 2], false⟩ := by
  have hcapped : ∀ plan, optimize firstRow = .ok plan →
      (scanned.executeOver (scanned.scanCapOf plan) plan ⟨[rowOf 1, rowOf 2], [rowOf 2], false⟩).map
        (·.map fun row => row.values "a") = .ok [some (.integer 2)] := by
    rintro plan hplan
    obtain rfl := Except.ok.inj hplan
    rfl
  have hfull : ∀ plan, optimize firstRow = .ok plan →
      (scanned.executeOver none plan ⟨[rowOf 1, rowOf 2], [rowOf 2], false⟩).map
        (·.map fun row => row.values "a") = .ok [some (.integer 1)] := by
    rintro plan hplan
    obtain rfl := Except.ok.inj hplan
    rfl
  refine ⟨_, rfl, .cons (by simp [tokenLe, rowOf, DecoratedKey.cmp]) (.cons (by simp) .nil),
    .cons _ (.cons_cons _ .slnil), hcapped _ rfl, hfull _ rfl, ?_⟩
  intro h
  have heq := hcapped _ rfl
  rw [h.result, hfull _ rfl] at heq
  simp at heq

end QueryEnv

end Cqlite
