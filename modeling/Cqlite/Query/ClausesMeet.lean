import Cqlite.Query.Clauses

/-! When the rows of a `SELECT` are those of its clauses.

    The executor counts the per-partition limit by the keys of the rows, which groups have lost, and
    cuts a window only where there is a `LIMIT`. Each difference from the reference is a condition of
    its own: the window reads rows that show something new, the groups that are kept fit the limit, and
    nothing is left for `OFFSET` to drop. -/

namespace Cqlite

open QueryEnv

/-! ### Rows that project -/

theorem mapM_eq_ok_iff {ε α β : Type} {f : α → Except ε β} {xs : List α} {ys : List β} :
    xs.mapM f = .ok ys ↔ xs.map f = ys.map .ok := by
  induction xs generalizing ys with
  | nil => simp [pure, Except.pure, eq_comm]
  | cons x xs ih =>
    rw [List.mapM_cons]
    constructor
    · intro h
      obtain ⟨y, hy, h⟩ := bind_eq_ok.1 h
      obtain ⟨rest, hrest, h⟩ := bind_eq_ok.1 h
      obtain rfl := Except.ok.inj h
      rw [List.map_cons, List.map_cons, hy, ih.1 hrest]
    · intro h
      obtain _ | ⟨y, ys⟩ := ys
      · cases h
      · rw [List.map_cons, List.map_cons] at h
        obtain ⟨hy, hrest⟩ := List.cons.inj h
        exact bind_eq_ok.2 ⟨y, hy, bind_eq_ok.2 ⟨ys, ih.2 hrest, rfl⟩⟩

namespace SelectEnv

/-! ### Kept rows and windows -/

section Window

variable (s : SelectStatement)

/-- Of each partition the first rows. -/
def firstRows (s : SelectStatement) (result : List ResultRow) : List ResultRow :=
  Distinct.partly ResultRow.partition s.perPartitionLimit result

/-- The rows the executor keeps, by the keys they have. -/
def keptRows (s : SelectStatement) (result : List ResultRow) : List ResultRow :=
  Distinct.partly (fun r => r.row.key) s.perPartitionLimit result

/-- The window of the executor: without a `LIMIT` there is none. -/
def cutRows (s : SelectStatement) (kept : List ResultRow) : List ResultRow :=
  match s.limit with
  | none => kept
  | some n => (kept.drop (s.offset.getD 0)).take n

theorem window_rows (result : List ResultRow) :
    window s (result.map ResultRow.row) = (cutRows s (keptRows s result)).map ResultRow.row := by
  have hkept : perPartition s (result.map ResultRow.row) = (keptRows s result).map ResultRow.row := by
    exact Distinct.partly_map ResultRow.row s.perPartitionLimit result
  rw [window, cutRows, hkept]
  cases s.limit with
  | none => rfl
  | some n =>
    change ((_ : List ResultRow).map _ |>.drop _).take n = _
    rw [List.map_take, List.map_drop]

/-- How many of the kept rows the window reads. -/
def reach (s : SelectStatement) : Option Nat := s.limit.map (s.offset.getD 0 + ·)

/-- The window by definition. -/
def windowRows (s : SelectStatement) (kept : List ResultRow) : List ResultRow :=
  Distinct.upTo s.limit (kept.drop (s.offset.getD 0))

theorem cutRows_length (kept : List ResultRow)
    (h : (cutRows s kept).length = (windowRows s kept).length) (hlimit : s.limit = none) :
    s.offset.getD 0 = 0 ∨ kept = [] := by
  rw [cutRows, windowRows, hlimit] at h
  change kept.length = (kept.drop _).length at h
  rw [List.length_drop] at h
  rcases Nat.eq_zero_or_pos kept.length with hzero | hpos
  · exact .inr (List.eq_nil_of_length_eq_zero hzero)
  · exact .inl (by omega)

variable {kept : List ResultRow}

/-- With a `LIMIT`, or nothing to drop, the executor cuts the window. -/
theorem cutRows_eq (h : s.limit = none → s.offset.getD 0 = 0 ∨ kept = []) :
    cutRows s kept = windowRows s kept := by
  rw [cutRows, windowRows]
  cases hlimit : s.limit with
  | some n => rfl
  | none =>
    rcases h hlimit with hzero | rfl
    · rw [hzero]
      rfl
    · rw [List.drop_nil]
      rfl

/-- The window over the first groups is the window over all that are kept. -/
theorem windowRows_take {p : Nat} (h : kept.length ≤ p ∨ ∃ n, s.limit = some n ∧
      (n = 0 ∨ s.offset.getD 0 + n ≤ p ∨ kept.length ≤ s.offset.getD 0)) :
    windowRows s (kept.take p) = windowRows s kept := by
  rw [windowRows, windowRows]
  rcases h with h | ⟨n, hlimit, h⟩
  · rw [List.take_of_length_le h]
  · rw [hlimit]
    exact (Distinct.window_take_iff kept).2 (.inr h)

theorem of_windowRows_take {p : Nat}
    (h : (windowRows s (kept.take p)).length = (windowRows s kept).length)
    (hlimit : s.limit.isSome = true ∨ s.offset.getD 0 = 0) :
    kept.length ≤ p ∨ ∃ n, s.limit = some n ∧
      (n = 0 ∨ s.offset.getD 0 + n ≤ p ∨ kept.length ≤ s.offset.getD 0) := by
  rw [windowRows, windowRows] at h
  cases hn : s.limit with
  | some n =>
    rw [hn] at h
    rcases Distinct.length_window_take h with h | h
    · exact .inl h
    · exact .inr ⟨n, rfl, h⟩
  | none =>
    rw [hn] at h hlimit
    rw [hlimit.resolve_left (by simp)] at h
    simp only [Distinct.upTo, List.drop_zero, List.length_take] at h
    exact .inl (by omega)

/-- At most one clause is one that the plan treats by itself; of these, a repeated row under a
    per-partition limit is not skipped by an `OFFSET`. -/
def OneClause (s : SelectStatement) : Prop :=
  (s.isDistinct = false ∧ (s.perPartitionLimit = none ∨ s.requiresAggregation = false)) ∨
  (s.isDistinct = false ∧ (s.limit.isSome = true ∨ s.offset.getD 0 = 0)) ∨
  ((s.perPartitionLimit = none ∨ s.requiresAggregation = false) ∧
    (s.limit.isSome = true ∨ s.offset.getD 0 = 0) ∧
    (s.perPartitionLimit = none ∨ s.offset.getD 0 = 0))

end Window

end SelectEnv

/-! ### What the executor keeps -/

section Run

variable [DoubleArith] (env : SelectEnv) (s : SelectStatement)

namespace SelectEnv

omit [DoubleArith] in
theorem sortResult_perm (items : List OrderByItem) (rows : List ResultRow) :
    (env.sortResult items rows).Perm rows := by
  have hperm := (env.sort.perm (fun a b => compareKeys env.aggregation.display items a.1 b.1)
    (rows.map fun r => (items.map (sortKey r.row), r))).map Prod.snd
  rw [List.map_map] at hperm
  exact hperm.trans (List.Perm.of_eq (List.map_id rows))

variable {rows : List QueryRow}

theorem mem_resultRows {r : ResultRow} (h : r ∈ env.resultRows s rows) :
    r ∈ if s.requiresAggregation then env.groupRows (env.planAggregation s) rows
      else rows.map fun row => ⟨row.key, row⟩ := by
  rw [resultRows] at h
  cases horder : s.orderBy with
  | none =>
    rw [horder] at h
    exact h
  | some items =>
    rw [horder] at h
    exact (env.sortResult_perm items _).subset h

theorem key_of_row {r : ResultRow} (hagg : s.requiresAggregation = false)
    (h : r ∈ env.resultRows s rows) : r.row.key = r.partition := by
  have hmem := env.mem_resultRows s h
  rw [hagg, if_neg (by simp)] at hmem
  obtain ⟨row, -, rfl⟩ := List.mem_map.1 hmem
  rfl

theorem key_of_group {r : ResultRow} (hagg : s.requiresAggregation = true)
    (h : r ∈ env.resultRows s rows) : r.row.key = [] := by
  have hmem := env.mem_resultRows s h
  rw [if_pos hagg, groupRows] at hmem
  split at hmem
  · rw [List.mem_singleton.1 hmem]
    rfl
  · obtain ⟨group, -, rfl⟩ := List.mem_map.1 hmem
    rfl

theorem keptRows_of_rows (h : s.perPartitionLimit = none ∨ s.requiresAggregation = false) :
    keptRows s (env.resultRows s rows) = firstRows s (env.resultRows s rows) := by
  rcases h with h | h
  · rw [keptRows, firstRows, h]
    rfl
  · exact Distinct.partly_congr (fun r hr => env.key_of_row s h hr) _

theorem keptRows_of_groups {p : Nat} (hagg : s.requiresAggregation = true)
    (hquota : s.perPartitionLimit = some p) :
    keptRows s (env.resultRows s rows) = (firstRows s (env.resultRows s rows)).take p := by
  rw [keptRows, firstRows, hquota]
  have hkept := @Distinct.quota_of_const _ _ _ (fun r : ResultRow => r.row.key) p (fun _ => 0) []
    (env.resultRows s rows) fun r hr => env.key_of_group s hagg hr
  have hfirst := @Distinct.take_quota _ _ _ ResultRow.partition p (fun _ => 0) 0
    (fun _ => Nat.le_refl 0) (env.resultRows s rows)
  rw [Nat.sub_zero] at hkept hfirst
  exact hkept.trans hfirst.symm

/-! ### The clauses -/

open Classical in
/-- The rows that are kept, each with whether no earlier row shows the same. -/
noncomputable def markedRows (s : SelectStatement) (result : List ResultRow) :
    List (ResultRow × Bool) :=
  Distinct.partly (fun y => y.1.partition) s.perPartitionLimit
    (Distinct.marked (env.shown s) [] result)

/-- Where the plan does what the clauses say. Without a `LIMIT` there is nothing for `OFFSET` to drop.
    The groups that the per-partition limit keeps are no more than its number, or the window ends among
    the first so many, or behind all of them. The window of a `DISTINCT` reads no row that shows what an
    earlier one shows. -/
structure ClausesMeet (rows : List QueryRow) : Prop where
  offset : s.limit = none →
    s.offset.getD 0 = 0 ∨ env.resultRows s rows = [] ∨ s.perPartitionLimit = some 0
  groups : s.requiresAggregation = true → ∀ p, s.perPartitionLimit = some p →
    (firstRows s (env.resultRows s rows)).length ≤ p ∨ ∃ n, s.limit = some n ∧
      (n = 0 ∨ s.offset.getD 0 + n ≤ p ∨
        (firstRows s (env.resultRows s rows)).length ≤ s.offset.getD 0)
  distinct : s.isDistinct = true →
    (∃ n, s.limit = some n ∧
      (n = 0 ∨ (firstRows s (env.resultRows s rows)).length ≤ s.offset.getD 0)) ∨
    ∀ y ∈ Distinct.upTo (reach s) (env.markedRows s (env.resultRows s rows)), y.2 = true

open Classical in
/-- The rows that `DISTINCT` leaves. -/
noncomputable def distinctRows (result : List ResultRow) : List ResultRow :=
  if s.isDistinct then Distinct.firsts (env.shown s) [] result else result

theorem reference_eq (rows : List QueryRow) :
    env.reference s rows = (windowRows s (firstRows s (env.distinctRows s (env.resultRows s rows)))).mapM
      fun r => env.projectOne s r.row := rfl

theorem windowRows_distinct {result : List ResultRow}
    (h : s.isDistinct = true →
      (∃ n, s.limit = some n ∧ (n = 0 ∨ (firstRows s result).length ≤ s.offset.getD 0)) ∨
      ∀ y ∈ Distinct.upTo (reach s) (env.markedRows s result), y.2 = true) :
    windowRows s (firstRows s (env.distinctRows s result)) = windowRows s (firstRows s result) := by
  classical
  rw [distinctRows]
  cases hdistinct : s.isDistinct with
  | false => rfl
  | true =>
    rw [if_pos rfl]
    rcases h hdistinct with ⟨n, hlimit, rfl | hbehind⟩ | hnew
    · simp only [windowRows, hlimit, Distinct.upTo, List.take_zero]
    · have hfewer : (firstRows s (Distinct.firsts (env.shown s) [] result)).length ≤
          s.offset.getD 0 :=
        (Distinct.length_partly_mono (Distinct.firsts_sublist [] result)).trans hbehind
      rw [windowRows, windowRows, List.drop_eq_nil_of_le hfewer, List.drop_eq_nil_of_le hbehind]
    · exact Distinct.window_congr (Distinct.upTo_partly_firsts hnew)

theorem cutRows_reference (h : env.ClausesMeet s rows) :
    cutRows s (keptRows s (env.resultRows s rows)) =
      windowRows s (firstRows s (env.distinctRows s (env.resultRows s rows))) := by
  rw [env.windowRows_distinct s h.distinct, cutRows_eq]
  · by_cases hgroups : s.perPartitionLimit = none ∨ s.requiresAggregation = false
    · rw [env.keptRows_of_rows s hgroups]
    · rw [not_or, Bool.not_eq_false] at hgroups
      obtain ⟨p, hp⟩ := Option.ne_none_iff_exists'.1 hgroups.1
      rw [env.keptRows_of_groups s hgroups.2 hp]
      exact windowRows_take s (h.groups hgroups.2 p hp)
  · intro hlimit
    rcases h.offset hlimit with hzero | hnil | hquota
    · exact .inl hzero
    · rw [hnil]
      exact .inr (List.sublist_nil.1 (Distinct.partly_sublist _ _))
    · rw [keptRows, hquota]
      exact .inr (Quota.quota_zero _ _)

theorem distinctRows_of_all {result : List ResultRow} (h : s.isDistinct = false) :
    env.distinctRows s result = result := by
  classical
  rw [distinctRows, h]
  rfl

theorem ClausesMeet.of_rows (hrows : s.perPartitionLimit = none ∨ s.requiresAggregation = false)
    (hoffset : s.limit = none →
      s.offset.getD 0 = 0 ∨ firstRows s (env.resultRows s rows) = [])
    (hdistinct : s.isDistinct = true →
      (∃ n, s.limit = some n ∧
        (n = 0 ∨ (firstRows s (env.resultRows s rows)).length ≤ s.offset.getD 0)) ∨
      ∀ y ∈ Distinct.upTo (reach s) (env.markedRows s (env.resultRows s rows)), y.2 = true) :
    env.ClausesMeet s rows where
  offset hlimit := (hoffset hlimit).imp_right Distinct.partly_eq_nil
  groups hagg p hp := by
    rcases hrows with h | h
    · rw [hp] at h
      cases h
    · rw [hagg] at h
      cases h
  distinct := hdistinct

theorem clausesMeet_of_offset (hdistinct : s.isDistinct = false)
    (hrows : s.perPartitionLimit = none ∨ s.requiresAggregation = false)
    (h : (cutRows s (keptRows s (env.resultRows s rows))).length =
      (windowRows s (firstRows s (env.distinctRows s (env.resultRows s rows)))).length) :
    env.ClausesMeet s rows := by
  rw [env.distinctRows_of_all s hdistinct, env.keptRows_of_rows s hrows] at h
  refine ClausesMeet.of_rows env s hrows (cutRows_length s _ h) fun hd => ?_
  rw [hdistinct] at hd
  cases hd

theorem clausesMeet_of_groups (hdistinct : s.isDistinct = false)
    (hlimit : s.limit.isSome = true ∨ s.offset.getD 0 = 0)
    (h : (cutRows s (keptRows s (env.resultRows s rows))).length =
      (windowRows s (firstRows s (env.distinctRows s (env.resultRows s rows)))).length) :
    env.ClausesMeet s rows := by
  by_cases hrows : s.perPartitionLimit = none ∨ s.requiresAggregation = false
  · exact env.clausesMeet_of_offset s hdistinct hrows h
  rw [not_or, Bool.not_eq_false] at hrows
  obtain ⟨p, hp⟩ := Option.ne_none_iff_exists'.1 hrows.1
  have hzero : s.limit = none → s.offset.getD 0 = 0 := by
    intro hnone
    rw [hnone] at hlimit
    exact hlimit.resolve_left (by simp)
  rw [env.distinctRows_of_all s hdistinct, env.keptRows_of_groups s hrows.2 hp,
    cutRows_eq s fun hnone => .inl (hzero hnone)] at h
  refine ⟨fun hnone => .inl (hzero hnone), fun _ q hq => ?_, fun hd => ?_⟩
  · obtain rfl : p = q := Option.some.inj (hp.symm.trans hq)
    exact of_windowRows_take s h hlimit
  · rw [hdistinct] at hd
    cases hd

/-- Where the clauses do not cross, only DISTINCT can differ. -/
theorem clausesMeet_of_distinct (hrows : s.perPartitionLimit = none ∨ s.requiresAggregation = false)
    (hlimit : s.limit.isSome = true ∨ s.offset.getD 0 = 0)
    (hskip : s.perPartitionLimit = none ∨ s.offset.getD 0 = 0)
    (h : (cutRows s (keptRows s (env.resultRows s rows))).map (env.shown s) =
      (windowRows s (firstRows s (env.distinctRows s (env.resultRows s rows)))).map (env.shown s)) :
    env.ClausesMeet s rows := by
  classical
  have hzero : s.limit = none → s.offset.getD 0 = 0 := by
    intro hnone
    rw [hnone] at hlimit
    exact hlimit.resolve_left (by simp)
  rw [env.keptRows_of_rows s hrows, cutRows_eq s fun hnone => .inl (hzero hnone)] at h
  refine ClausesMeet.of_rows env s hrows (fun hnone => .inl (hzero hnone)) fun hd => ?_
  rw [distinctRows, if_pos hd, windowRows, windowRows] at h
  by_cases hoffset : s.offset.getD 0 = 0
  · -- the window starts with the first row
    have hreach : reach s = s.limit := by
      rw [reach, hoffset]
      cases s.limit with
      | none => rfl
      | some n => exact congrArg some (Nat.zero_add n)
    rw [hoffset, List.drop_zero, List.drop_zero] at h
    rw [hreach]
    exact .inr (Distinct.new_of_upTo_partly h.symm)
  · have hquota := hskip.resolve_right hoffset
    obtain ⟨n, hn⟩ := Option.isSome_iff_exists.1 (hlimit.resolve_right hoffset)
    rw [firstRows, firstRows, hquota, hn] at h
    by_cases hshown : 0 < n ∧ s.offset.getD 0 < (env.resultRows s rows).length
    · refine .inr ?_
      rw [reach, hn, markedRows, hquota]
      exact Distinct.new_of_window hshown.1 hshown.2 h.symm
    · refine .inl ⟨n, hn, ?_⟩
      rw [firstRows, hquota]
      change n = 0 ∨ (env.resultRows s rows).length ≤ _
      omega

/-- Where one clause only is at stake, equal rows are so for that reason. -/
theorem clausesMeet_of_eq (hone : OneClause s)
    (h : (cutRows s (keptRows s (env.resultRows s rows))).map (env.shown s) =
      (windowRows s (firstRows s (env.distinctRows s (env.resultRows s rows)))).map (env.shown s)) :
    env.ClausesMeet s rows := by
  have hlength := congrArg List.length h
  rw [List.length_map, List.length_map] at hlength
  rcases hone with ⟨hdistinct, hrows⟩ | ⟨hdistinct, hlimit⟩ | ⟨hrows, hlimit, hskip⟩
  · exact env.clausesMeet_of_offset s hdistinct hrows hlength
  · exact env.clausesMeet_of_groups s hdistinct hlimit hlength
  · exact env.clausesMeet_of_distinct s hrows hlimit hskip h

end SelectEnv

/-- A `SELECT` without `WHERE` over a table that returns rows returns those of its clauses where the
    clauses meet the plan, and only there when a single one of them is at stake. -/
theorem select_clauses (env : SelectEnv) (s : SelectStatement) (plan : OptimizedQueryPlan)
    (table : List ScanEntry) (out : List QueryRow) (hplan : optimize s = .ok plan)
    (hfrom : s.hasFrom = true) (hwhere : s.whereClause = none)
    (hrun : (env.executor s).execute plan table = .ok out) :
    (env.ClausesMeet s (SelectEnv.scanned s table) →
        env.reference s (SelectEnv.scanned s table) = .ok out) ∧
      (SelectEnv.OneClause s → env.reference s (SelectEnv.scanned s table) = .ok out →
        env.ClausesMeet s (SelectEnv.scanned s table)) := by
  have hcut := env.execute_clauses s hplan hfrom hwhere hrun
  rw [SelectEnv.window_rows, mapM_eq_ok_iff, List.map_map] at hcut
  rw [env.reference_eq, mapM_eq_ok_iff]
  constructor
  · intro hmeet
    rw [← env.cutRows_reference s hmeet]
    exact hcut
  · intro hone href
    refine env.clausesMeet_of_eq s hone ?_
    have heq := congrArg (List.map (Except.map QueryRow.values)) (hcut.trans href.symm)
    rw [List.map_map, List.map_map] at heq
    exact heq

end Run
/-! ### Two partitions -/

theorem merge_natural : NaturalSort StableSort.merge :=
  fun _ _ _ => List.map_mergeSort fun _ _ _ _ => rfl

/-- A table with a schema, sorted by merging; the aggregates of the plans are left out. -/
def partitionedTable : SelectEnv where
  query := scanned
  sort := .merge
  natural := merge_natural
  aggregation := collidingEnv
  planAggregation s := ⟨s.groupBy.getD [], s.groupBy.getD [], []⟩
  groupBy _ := rfl

/-- The row with this value in the partition `[p]`. -/
def partitionRow (p : UInt8) (n : Int) : ScanEntry :=
  ⟨[p], some fun name => if name = "a" then some (.integer n) else none⟩

/-- `SELECT * FROM t PER PARTITION LIMIT 1 LIMIT 1 OFFSET 1` -/
def secondPartition : SelectStatement :=
  { firstRow with perPartitionLimit := some 1, offset := some 1 }

/-- `SELECT DISTINCT a FROM t` -/
def distinctValues : SelectStatement :=
  { firstRow with selectClause := .distinct [.column "a"], limit := none }

/-- `SELECT * FROM t OFFSET 1` -/
def skipFirst : SelectStatement := { firstRow with limit := none, offset := some 1 }

/-- `SELECT * FROM t GROUP BY a PER PARTITION LIMIT 1` -/
def firstGroups : SelectStatement :=
  { firstRow with limit := none, groupBy := some ["a"], perPartitionLimit := some 1 }

/-- The first row of the second partition. -/
theorem secondPartition_reference :
    @SelectEnv.reference noDoubles partitionedTable secondPartition (SelectEnv.scanned secondPartition
        [partitionRow 1 1, partitionRow 1 2, partitionRow 2 3]) =
      .ok ((partitionRow 2 3).cells.toList.map fun cells => ⟨cells, [2]⟩) := by
  let _ := noDoubles
  refine (select_clauses partitionedTable secondPartition _
    [partitionRow 1 1, partitionRow 1 2, partitionRow 2 3] _ rfl rfl rfl rfl).1 ?_
  exact ⟨nofun, nofun, nofun⟩

/-- A table of two partitions with one row each. -/
def twoPartitions (m n : Int) : List ScanEntry := [partitionRow 1 m, partitionRow 2 n]

/-- The rows of `twoPartitions`. -/
def partitionResult (p : UInt8) (n : Int) : ResultRow :=
  ⟨[p], ⟨fun name => if name = "a" then some (.integer n) else none, [p]⟩⟩

theorem firstGroups_groups :
    SelectEnv.groupsOf ["a"] (SelectEnv.scanned firstGroups (twoPartitions 4 5)) =
      [([.integer 4], [(partitionResult 1 4).row]), ([.integer 5], [(partitionResult 2 5).row])] := by
  have hkey : ∀ p n, buildGroupKey ["a"] (partitionResult p n).row = [.integer n] := fun _ _ => rfl
  change [(partitionResult 1 4).row, (partitionResult 2 5).row].foldl _ [] = _
  simp [HashIndex.push, hkey, integerKey_eq]

theorem distinctValues_first :
    ∃ r, @SelectEnv.distinctRows noDoubles partitionedTable distinctValues
      (@SelectEnv.resultRows noDoubles partitionedTable distinctValues
        (SelectEnv.scanned distinctValues (twoPartitions 4 4))) = [r] ∧
      (@SelectEnv.projectOne noDoubles partitionedTable distinctValues r.row).isOk = true := by
  classical
  let _ := noDoubles
  obtain ⟨r, r', hrows, hsame, hok⟩ : ∃ r r', partitionedTable.resultRows distinctValues
      (SelectEnv.scanned distinctValues (twoPartitions 4 4)) = [r, r'] ∧
      partitionedTable.shown distinctValues r' = partitionedTable.shown distinctValues r ∧
      (partitionedTable.projectOne distinctValues r.row).isOk = true := ⟨_, _, rfl, rfl, rfl⟩
  refine ⟨r, ?_, hok⟩
  have hdistinct : distinctValues.isDistinct = true := rfl
  simp [SelectEnv.distinctRows, hrows, hdistinct, Distinct.firsts, hsame]

theorem firstGroups_steps [DoubleArith] :
    (partitionedTable.executor firstGroups).executeSteps firstGroups none (twoPartitions 4 5)
        (laterSteps firstGroups) (SelectEnv.scanned firstGroups (twoPartitions 4 5)) =
      .ok [executedRow collidingEnv ⟨["a"], ["a"], []⟩ ([.integer 4], [(partitionResult 1 4).row])] := by
  have hagg : executeAggregation collidingEnv ⟨["a"], ["a"], []⟩
      (SelectEnv.scanned firstGroups (twoPartitions 4 5)) =
      .ok ([([.integer 4], [(partitionResult 1 4).row]), ([.integer 5], [(partitionResult 2 5).row])].map
        (executedRow collidingEnv ⟨["a"], ["a"], []⟩)) := by
    have hgroups := partitionedTable.insert_groups ⟨["a"], ["a"], []⟩
      (SelectEnv.scanned firstGroups (twoPartitions 4 5))
    rw [firstGroups_groups] at hgroups
    rw [executeAggregation_eq, if_pos (by decide)]
    refine congrArg Except.ok ((if_neg (by simp)).trans ?_)
    exact congrArg (List.map fun group => finalizeGroup ⟨["a"], ["a"], []⟩ group.1 group.2) hgroups
  change (executeAggregation collidingEnv ⟨["a"], ["a"], []⟩
      (SelectEnv.scanned firstGroups (twoPartitions 4 5)) >>= _) = _
  rw [hagg]
  rfl

/-- Two rows with the same value, a row to be skipped, and two groups of different partitions. -/
theorem clauses_missed :
    (∃ plan, optimize distinctValues = .ok plan ∧
      ((@SelectEnv.executor noDoubles partitionedTable distinctValues).execute plan
        (twoPartitions 4 4)).map List.length = .ok 2 ∧
      (@SelectEnv.reference noDoubles partitionedTable distinctValues
        (SelectEnv.scanned distinctValues (twoPartitions 4 4))).map List.length = .ok 1) ∧
    (∃ plan, optimize skipFirst = .ok plan ∧
      ((@SelectEnv.executor noDoubles partitionedTable skipFirst).execute plan
        (twoPartitions 4 5)).map List.length = .ok 2 ∧
      (@SelectEnv.reference noDoubles partitionedTable skipFirst
        (SelectEnv.scanned skipFirst (twoPartitions 4 5))).map List.length = .ok 1) ∧
    ∃ plan, optimize firstGroups = .ok plan ∧
      ((@SelectEnv.executor noDoubles partitionedTable firstGroups).execute plan
        (twoPartitions 4 5)).map List.length = .ok 1 ∧
      (@SelectEnv.reference noDoubles partitionedTable firstGroups
        (SelectEnv.scanned firstGroups (twoPartitions 4 5))).map List.length = .ok 2 := by
  let _ := noDoubles
  refine ⟨⟨_, rfl, rfl, ?_⟩, ⟨_, rfl, rfl, rfl⟩, ⟨_, rfl, ?_, ?_⟩⟩
  · obtain ⟨r, hfirst, hok⟩ := distinctValues_first
    rw [SelectEnv.reference_eq, hfirst]
    change Except.map List.length ([r].mapM _) = _
    rw [List.mapM_cons, List.mapM_nil]
    cases hrow : partitionedTable.projectOne distinctValues r.row with
    | error e =>
      rw [hrow] at hok
      cases hok
    | ok row => rfl
  · have hsteps : (partitionedTable.executor firstGroups).executeSteps firstGroups none (twoPartitions 4 5)
        (plannedAs firstGroups ⟨[], none⟩).executionSteps [] = .ok [_] := firstGroups_steps
    have hrun : (partitionedTable.executor firstGroups).execute (plannedAs firstGroups ⟨[], none⟩)
        (twoPartitions 4 5) = ((partitionedTable.executor firstGroups).executeSteps firstGroups none
          (twoPartitions 4 5) (plannedAs firstGroups ⟨[], none⟩).executionSteps [] >>= fun rows =>
            (partitionedTable.executor firstGroups).enforceMaterializedRows (some 100) rows >>= fun _ =>
              .ok rows) := rfl
    refine (congrArg (Except.map List.length) hrun).trans ?_
    rw [hsteps]
    rfl
  · rw [SelectEnv.reference_eq]
    have hrows : partitionedTable.resultRows firstGroups (SelectEnv.scanned firstGroups (twoPartitions 4 5)) =
        (SelectEnv.groupsOf ["a"] (SelectEnv.scanned firstGroups (twoPartitions 4 5))).map fun group =>
          ⟨(group.2.head?.map QueryRow.key).getD [],
            executedRow collidingEnv ⟨["a"], ["a"], []⟩ group⟩ := by
      change (if (_ && false) = true then _ else _) = _
      rw [Bool.and_false]
      rfl
    rw [hrows, firstGroups_groups, partitionedTable.distinctRows_of_all firstGroups rfl]
    rfl

end Cqlite
