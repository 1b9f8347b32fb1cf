import Cqlite.Merge.KeyTypes
import Cqlite.Merge.PopOrder

/-! The k-way merge neither loses nor duplicates entries nor splits groups.

    The runs are sorted by the heap order and each entry carries the index of its run; the readers may
    hold any part of their run in the buffer. What the pull/refill loop pops is then the sorted
    sequence of all entries, so both mergers meet every partition once and every clustering key of it
    as one contiguous group. -/

namespace Cqlite

open KWay (Feed)

section Input

variable [DebugFmt]

/-- Runs sorted by `SchemaOrderedEntry::cmp`, tagged with their index, over keys of one table. -/
structure SortedRuns (schema : TableSchema) (types : Nat → ValueType)
    (runs : List (List MergeEntry)) : Prop where
  indexed : KWay.Indexed MergeEntry.runIndex runs
  sorted : ∀ run ∈ runs, run.Pairwise fun a b => entryCmp schema a b ≠ .gt
  full : ∀ e ∈ runs.flatten, ∀ ck ∈ e.clusteringKey, ck.Full schema types

variable {schema : TableSchema} {types : Nat → ValueType} {runs : List (List MergeEntry)}

/-! ### The order of the entries -/

theorem entryCmp_eq : entryCmp schema = fun a b : MergeEntry =>
    ((DecoratedKey.cmp a.key b.key).then (rowCmp schema a b)).then
      (compare a.runIndex b.runIndex) := by
  funext a b
  rw [entryCmp, Ordering.then_assoc]

section

variable (h : SortedRuns schema types runs)

include h

theorem SortedRuns.keys_total :
    Rank.TotalOn (schemaCmpOption schema) (runs.flatten.map MergeEntry.clusteringKey) := by
  have hfull : ∀ ck ∈ rowKeys runs.flatten, ck.Full schema types := fun ck hck => by
    obtain ⟨e, he, hk⟩ := List.mem_filterMap.mp hck
    exact h.full e he ck hk
  have hkeys : KeysOrdered schema (rowKeys runs.flatten) [] := keysOrdered_of_fits hfull (by simp)
  refine hkeys.totalOn_schemaCmpOption fun k hk ck hck => ?_
  obtain ⟨e, he, rfl⟩ := List.mem_map.mp hk
  exact List.mem_filterMap.mpr ⟨e, he, hck⟩

/-- Partition, then row. -/
theorem SortedRuns.rows_total : Rank.TotalOn (fun a b : MergeEntry =>
    (DecoratedKey.cmp a.key b.key).then (rowCmp schema a b)) runs.flatten := by
  have := decoratedKey_transCmp
  have hkey : Rank.TotalOn (fun a b : MergeEntry => DecoratedKey.cmp a.key b.key) runs.flatten :=
    Rank.TotalOn.comap Rank.totalOn_of_transCmp
  have hrow : Rank.TotalOn (rowCmp schema) runs.flatten := by
    have hcomap := Rank.TotalOn.comap h.keys_total
    exact hcomap.congr fun a _ b _ => rowCmp_eq schema a b
  exact hkey.lex fun a _ => hrow.mono fun e he => List.mem_of_mem_filter he

/-- `SchemaOrderedEntry::cmp` is a total order on the entries of the runs. -/
theorem SortedRuns.total : Rank.TotalOn (entryCmp schema) runs.flatten := by
  rw [entryCmp_eq]
  exact h.rows_total.lex fun _ _ => Rank.TotalOn.comap Rank.totalOn_of_transCmp

theorem SortedRuns.schemaCmpOption_eq_iff {a b : MergeEntry} (ha : a ∈ runs.flatten)
    (hb : b ∈ runs.flatten) :
    schemaCmpOption schema a.clusteringKey b.clusteringKey = .eq ↔
      cmpOptionKey a.clusteringKey b.clusteringKey = .eq :=
  Cqlite.schemaCmpOption_eq_iff (fun ck hck => (h.full a ha ck hck).length_eq)
    (fun ck hck => (h.full b hb ck hck).length_eq)

theorem SortedRuns.popOrder_perm : (popOrder schema runs).Perm runs.flatten :=
  ((KWay.inv_start h.indexed).pops_perm h.indexed).trans (KWay.start_perm runs)

theorem SortedRuns.popOrder_sorted :
    (popOrder schema runs).Pairwise fun a b => entryCmp schema a b ≠ .gt :=
  KWay.pops_sorted h.total (fun _ hrun _ hx => List.mem_flatten_of_mem hrun hx) h.indexed h.sorted
    (KWay.inv_start h.indexed)

/-- Popping sorted runs is a stable sort of the runs, one after the other. -/
theorem SortedRuns.popOrder_eq :
    popOrder schema runs = runs.flatten.mergeSort fun a b =>
      (DecoratedKey.cmp a.key b.key).then (rowCmp schema a b) != .gt := by
  rw [popOrder, entryCmp_eq]
  refine KWay.popOrder_eq_mergeSort h.rows_total h.indexed fun run hrun => ?_
  refine (h.sorted run hrun).imp fun {a b} hab hgt => hab ?_
  rw [entryCmp_eq]
  simp [hgt]

end

end Input

/-! ### Popping -/

variable {schema : TableSchema} {seg : List MergeEntry} {e : MergeEntry}

section Popping

variable [DebugFmt]

/-- Pulling until the heap is empty yields these entries, without an error. -/
inductive Pulls (schema : TableSchema) (size : MergeEntry → Nat) : MergerState → List MergeEntry → Prop
  | done {m : MergerState} (h : m.pull schema size = none) : Pulls schema size m []
  | next {m m' : MergerState} {e : MergeEntry} {rest : List MergeEntry}
      (h : m.pull schema size = some (e, .ok (), m')) (hrest : Pulls schema size m' rest) :
      Pulls schema size m (e :: rest)

theorem Delivers.pulls {m : MergerState} {s : Feed MergeEntry} (h : Delivers m s)
    (size : MergeEntry → Nat) : Pulls schema size m (pops schema s) := by
  generalize hl : pops schema s = popped
  induction popped generalizing m s with
  | nil => exact .done (h.pull_none size hl).1
  | cons e popped ih =>
    obtain ⟨m', s', hpull, hdel, hpops, -⟩ := h.pull size hl
    exact .next hpull (ih hdel hpops)

omit [DebugFmt] in
/-- Wherever the readers stand in their buffers, filling the heap takes the first entry of each. -/
theorem Delivers.initialized {m : MergerState} {runs : List (List MergeEntry)}
    (h : Delivers m ⟨[], runs⟩) (size : MergeEntry → Nat) :
    ∃ m', m.initializeHeap size = (.ok (), m') ∧ Delivers m' (Feed.start runs) := by
  obtain ⟨m', hm', hdel⟩ := h.initializeHeap size
  rw [KWay.foldl_refill] at hdel
  exact ⟨m', hm', hdel⟩

end Popping

/-! ### Partitions -/

/-- A sequence in which the partitions do not go back. -/
def KeysAscending (entries : List MergeEntry) : Prop :=
  entries.Pairwise fun a b => DecoratedKey.cmp a.key b.key ≠ .gt

theorem filter_key_eq {key : DecoratedKey} {rest : List MergeEntry} (hseg : ∀ e ∈ seg, e.key = key)
    (hrest : ∀ e ∈ rest, e.key ≠ key) : (seg ++ rest).filter (fun e => e.key = key) = seg := by
  rw [List.filter_append, List.filter_eq_self.mpr fun e he => by simpa using hseg e he,
    List.filter_eq_nil_iff.mpr fun e he => by simpa using hrest e he, List.append_nil]

theorem KeysAscending.not_mem_rest {rest : List MergeEntry} (h : KeysAscending (e :: seg ++ rest))
    (hstop : StopsAt e.key rest) : ∀ x ∈ rest, DecoratedKey.cmp e.key x.key = .lt := by
  have htrans := decoratedKey_transCmp
  obtain ⟨-, hrest, hcross⟩ := List.pairwise_append.mp h
  cases rest with
  | nil => simp
  | cons a rest =>
    have hea : DecoratedKey.cmp e.key a.key = .lt := by
      cases hc : DecoratedKey.cmp e.key a.key with
      | lt => rfl
      | eq => exact absurd (decoratedKey_cmp_eq.mp hc).symm (hstop a rfl)
      | gt => exact absurd hc (hcross e (by simp) a (by simp))
    intro x hx
    rcases List.mem_cons.mp hx with rfl | hx
    · exact hea
    · have hax := (List.pairwise_cons.mp hrest).1 x hx
      rw [ne_eq, ← Ordering.isLE_iff_ne_gt] at hax
      exact Std.TransCmp.lt_of_lt_of_isLE hea hax

/-- Every partition is one segment, and the segments come in increasing key order. -/
theorem KeysAscending.segments {entries : List MergeEntry} (h : KeysAscending entries) :
    (∀ g ∈ segments entries, g.2 = entries.filter fun e => e.key = g.1) ∧
      (segments entries).Pairwise (fun g h => DecoratedKey.cmp g.1 h.1 = .lt) ∧
      ∀ e ∈ entries, ∃ seg, (e.key, seg) ∈ segments entries := by
  generalize hn : entries.length = n
  induction n using Nat.strongRecOn generalizing entries with
  | ind n ih =>
    cases entries with
    | nil => simp [Cqlite.segments]
    | cons e entries =>
      obtain ⟨seg, rest, rfl, hkey, hstop⟩ := exists_segment e entries
      rw [← List.cons_append] at h ⊢
      have hlt := h.not_mem_rest hstop
      have hne : ∀ x ∈ rest, x.key ≠ e.key := fun x hx heq => by
        have := hlt x hx
        rw [heq, decoratedKey_cmp_eq.mpr rfl] at this
        cases this
      obtain ⟨hall, hpair, hcover⟩ := ih rest.length
        (by rw [← hn, List.length_cons, List.length_append]; omega)
        (List.pairwise_append.mp h).2.1 rfl
      have hin : ∀ g ∈ Cqlite.segments rest, ∃ x ∈ rest, x.key = g.1 := fun g hg => by
        obtain ⟨key, seg⟩ := g
        obtain ⟨hsub, hnil, hk⟩ := mem_segments hg
        obtain ⟨x, hx⟩ := List.exists_mem_of_ne_nil _ hnil
        exact ⟨x, hsub.subset hx, hk x hx⟩
      rw [segments_append hkey hstop]
      refine ⟨fun g hg => ?_, List.pairwise_cons.mpr ⟨fun g hg => ?_, hpair⟩, fun x hx => ?_⟩
      · rcases List.mem_cons.mp hg with rfl | hg
        · exact (filter_key_eq hkey hne).symm
        · obtain ⟨x, hx, hxg⟩ := hin g hg
          rw [List.filter_append, List.filter_eq_nil_iff.mpr fun y hy => ?_, List.nil_append]
          · exact hall g hg
          · rw [hkey y hy, ← hxg]
            simpa using (hne x hx).symm
      · obtain ⟨x, hx, hxg⟩ := hin g hg
        rw [← hxg]
        exact hlt x hx
      · rcases List.mem_append.mp hx with hx | hx
        · exact ⟨e :: seg, by rw [hkey x hx]; simp⟩
        · obtain ⟨s, hs⟩ := hcover x hx
          exact ⟨s, by simp [hs]⟩

/-! ### Clustering keys -/

section Clusters

variable [DebugFmt] (cfg : MergerConfig)

namespace Checkpoint

/-- The groups handed to `finalize_current_cluster` while the entries are accepted, the last one at
    the end of the partition. -/
def clusters : Checkpoint → List MergeEntry → List Cluster
  | c, [] => c.currentCluster.toList
  | c, e :: rest =>
    (if !isCarrier e && c.startsNewCluster e then c.currentCluster.toList else []) ++
      clusters (c.acceptEntry cfg e) rest

theorem acceptEntry_carrier {c : Checkpoint} (h : isCarrier e = true) :
    (c.acceptEntry cfg e).currentCluster = c.currentCluster := by
  unfold acceptEntry
  cases hd : e.partitionDeletion with
  | some d => rfl
  | none =>
    have hrange : isRangeMarkerCarrier e = true := by
      simpa [isCarrier, MergeEntry.isPartitionDeleteCarrier, hd] using h
    simp only [hrange, if_true]
    cases e.rangeDeletion with
    | none => rfl
    | some rt =>
      simp only [acceptRange]
      split
      · exact (reshadowAndFlushAwaiting_fields cfg _).2.1
      · rfl

theorem acceptEntry_row {c : Checkpoint} (h : isCarrier e = false) :
    (c.acceptEntry cfg e).currentCluster =
      match c.currentCluster with
      | none => some (e.clusteringKey, [e])
      | some (ck, rows) =>
        if cmpOptionKey ck e.clusteringKey == .eq then some (ck, rows ++ [e])
        else some (e.clusteringKey, [e]) := by
  have hd : e.partitionDeletion = none := by
    cases hd : e.partitionDeletion with
    | none => rfl
    | some d => simp [isCarrier, MergeEntry.isPartitionDeleteCarrier, hd] at h
  have hrange : isRangeMarkerCarrier e = false := by
    simpa [isCarrier, MergeEntry.isPartitionDeleteCarrier, hd] using h
  unfold acceptEntry
  rw [hd]
  obtain ⟨cur, hc⟩ : ∃ cur, c.currentCluster = cur := ⟨_, rfl⟩
  simp only [hrange, Bool.false_eq_true, if_false, acceptRow, startsNewCluster, hc]
  cases cur with
  | none => simp [growCluster, hc]
  | some cluster =>
    obtain ⟨ck, rows⟩ := cluster
    by_cases heq : cmpOptionKey ck e.clusteringKey = .eq
    · simp [heq, growCluster, hc]
    · have hnone := (finalizeCurrentCluster_fields cfg c).2
      simp [heq, growCluster, hnone]

theorem clusters_eq (c : Checkpoint) (seg : List MergeEntry) :
    c.clusters cfg seg = Grouping.adjacent (fun a b => cmpOptionKey a b == .eq)
      MergeEntry.clusteringKey c.currentCluster (seg.filter fun e => !isCarrier e) := by
  induction seg generalizing c with
  | nil => rfl
  | cons e seg ih =>
    rw [clusters, ih]
    cases hcar : isCarrier e with
    | true => simp [hcar, acceptEntry_carrier cfg hcar]
    | false =>
      rw [acceptEntry_row cfg hcar, List.filter_cons_of_pos (by simp [hcar])]
      simp only [startsNewCluster, Bool.not_false, Bool.true_and]
      cases c.currentCluster with
      | none => simp [Grouping.adjacent]
      | some cluster =>
        obtain ⟨ck, rows⟩ := cluster
        by_cases heq : cmpOptionKey ck e.clusteringKey = .eq
        · simp [Grouping.adjacent, heq]
        · simp [Grouping.adjacent, heq]

end Checkpoint

/-- The groups of a partition's rows: one contiguous block per clustering key, in popped order and
    inside a group in run order. -/
structure GroupedOnce (rows : List MergeEntry) (groups : List Cluster) : Prop where
  contiguous : groups.flatMap (·.2) = rows
  distinct : groups.Pairwise fun a b => cmpOptionKey a.1 b.1 ≠ .eq
  sameKey : ∀ g ∈ groups, ∀ e ∈ g.2, cmpOptionKey e.clusteringKey g.1 = .eq
  runOrder : ∀ g ∈ groups, g.2.Pairwise fun a b => a.runIndex ≤ b.runIndex

variable {cfg} {types : Nat → ValueType} {runs : List (List MergeEntry)}

/-- Popped entries of one partition and clustering key stand in run order. -/
theorem runIndex_le_of_entryCmp {a b : MergeEntry} (hkey : a.key = b.key)
    (hck : schemaCmpOption schema a.clusteringKey b.clusteringKey = .eq)
    (h : entryCmp schema a b ≠ .gt) : a.runIndex ≤ b.runIndex := by
  rw [entryCmp, decoratedKey_cmp_eq.mpr hkey, rowCmp_eq, hck] at h
  simpa [compare_gt_iff_gt] using h

theorem SortedRuns.sameKey_eq (h : SortedRuns schema types runs) :
    ∀ a ∈ runs.flatten.map MergeEntry.clusteringKey,
      ∀ b ∈ runs.flatten.map MergeEntry.clusteringKey,
        (cmpOptionKey a b == .eq) = (schemaCmpOption schema a b == .eq) := by
  intro a ha b hb
  obtain ⟨x, hx, rfl⟩ := List.mem_map.mp ha
  obtain ⟨y, hy, rfl⟩ := List.mem_map.mp hb
  rw [Bool.eq_iff_iff, beq_iff_eq, beq_iff_eq]
  exact (h.schemaCmpOption_eq_iff hx hy).symm

theorem SortedRuns.fallback_total (h : SortedRuns schema types runs) :
    Rank.TotalOn cmpOptionKey (runs.flatten.map MergeEntry.clusteringKey) := by
  have htyped : ∀ ck ∈ (runs.flatten.map MergeEntry.clusteringKey).filterMap id, ck.TypedBy types :=
    fun ck hck => by
      obtain ⟨o, ho, hk⟩ := List.mem_filterMap.mp hck
      obtain ⟨e, he, rfl⟩ := List.mem_map.mp ho
      exact (h.full e he ck hk).typed
  exact totalOn_cmpOptionKey (TypedBy.totalOn_cmp htyped)

theorem rows_sorted_of_entries {key : DecoratedKey} {rows : List MergeEntry}
    (hkey : ∀ e ∈ rows, e.key = key) (h : rows.Pairwise fun a b => entryCmp schema a b ≠ .gt) :
    rows.Pairwise fun a b => schemaCmpOption schema a.clusteringKey b.clusteringKey ≠ .gt := by
  refine h.imp_of_mem fun {a b} ha hb hab hgt => hab ?_
  rw [entryCmp, decoratedKey_cmp_eq.mpr ((hkey a ha).trans (hkey b hb).symm), rowCmp_eq, hgt]
  rfl

theorem SortedRuns.mem_groups_iff (h : SortedRuns schema types runs) {rows : List MergeEntry}
    (hmem : ∀ e ∈ rows, e ∈ runs.flatten) {key : DecoratedKey} (hkey : ∀ e ∈ rows, e.key = key)
    (hsorted : rows.Pairwise fun a b => entryCmp schema a b ≠ .gt) (g : Cluster) :
    g ∈ Grouping.groups cmpOptionKey MergeEntry.clusteringKey rows ↔
      g ∈ Grouping.adjacent (fun a b => cmpOptionKey a b == .eq) MergeEntry.clusteringKey none rows := by
  have hrows : ∀ e ∈ rows, e.clusteringKey ∈ runs.flatten.map MergeEntry.clusteringKey :=
    fun e he => List.mem_map_of_mem (hmem e he)
  rw [Grouping.mem_adjacent h.keys_total h.sameKey_eq hrows (rows_sorted_of_entries hkey hsorted)]
  have hgroup : g.1 ∈ runs.flatten.map MergeEntry.clusteringKey →
      (Grouping.IsGroup cmpOptionKey MergeEntry.clusteringKey rows g ↔
        Grouping.IsGroup (schemaCmpOption schema) MergeEntry.clusteringKey rows g) := fun hg => by
    have hfilter : rows.filter (fun e => cmpOptionKey e.clusteringKey g.1 == .eq) =
        rows.filter fun e => schemaCmpOption schema e.clusteringKey g.1 == .eq :=
      List.filter_congr fun e he => h.sameKey_eq _ (hrows e he) _ hg
    constructor
    · exact fun hg => ⟨hg.elements.trans hfilter, hg.first⟩
    · exact fun hg => ⟨hg.elements.trans hfilter.symm, hg.first⟩
  constructor
  · intro hg
    have hgl := (Grouping.groups_sorted h.fallback_total hrows).keys g hg
    exact ⟨hgl, (hgroup hgl).mp ((Grouping.mem_groups h.fallback_total hrows hgl).mp hg)⟩
  · rintro ⟨hgl, hg⟩
    exact (Grouping.mem_groups h.fallback_total hrows hgl).mpr ((hgroup hgl).mpr hg)

/-- Both mergers reconcile every clustering key of a partition as one group. -/
theorem SortedRuns.groupedOnce (h : SortedRuns cfg.schema types runs) {key : DecoratedKey}
    (hsub : seg.Sublist (popOrder cfg.schema runs)) (hkey : ∀ e ∈ seg, e.key = key) :
    GroupedOnce (seg.filter fun e => !isCarrier e) (Checkpoint.fresh.clusters cfg seg) ∧
      ∀ g, g ∈ clusteredRows seg ↔ g ∈ Checkpoint.fresh.clusters cfg seg := by
  have hmem : ∀ e ∈ seg.filter (fun e => !isCarrier e), e ∈ runs.flatten := fun e he =>
    h.popOrder_perm.subset (hsub.subset (List.mem_of_mem_filter he))
  have hkey' : ∀ e ∈ seg.filter (fun e => !isCarrier e), e.key = key := fun e he =>
    hkey e (List.mem_of_mem_filter he)
  have hentries : (seg.filter fun e => !isCarrier e).Pairwise fun a b =>
      entryCmp cfg.schema a b ≠ .gt :=
    (h.popOrder_sorted.sublist hsub).sublist List.filter_sublist
  have hclusters : Checkpoint.fresh.clusters cfg seg =
      Grouping.adjacent (fun a b => cmpOptionKey a b == .eq) MergeEntry.clusteringKey none
        (seg.filter fun e => !isCarrier e) := Checkpoint.clusters_eq cfg .fresh seg
  rw [hclusters]
  refine ⟨?_, h.mem_groups_iff hmem hkey' hentries⟩
  have hrows : ∀ e ∈ seg.filter (fun e => !isCarrier e),
      e.clusteringKey ∈ runs.flatten.map MergeEntry.clusteringKey := fun e he =>
    List.mem_map_of_mem (hmem e he)
  obtain ⟨hgroups, huniform⟩ := Grouping.adjacent_sorted h.keys_total h.sameKey_eq hrows
    (rows_sorted_of_entries hkey' hentries)
  have hflat : (Grouping.adjacent (fun a b => cmpOptionKey a b == .eq) MergeEntry.clusteringKey none
      (seg.filter fun e => !isCarrier e)).flatMap (·.2) = seg.filter fun e => !isCarrier e := by
    rw [Grouping.adjacent_flatMap]
    rfl
  generalize Grouping.adjacent (fun a b => cmpOptionKey a b == .eq) MergeEntry.clusteringKey none
    (seg.filter fun e => !isCarrier e) = groups at hgroups huniform hflat
  have hin : ∀ g ∈ groups, ∀ e ∈ g.2, e ∈ seg.filter fun e => !isCarrier e := fun g hg e he => by
    rw [← hflat]
    exact List.mem_flatMap.mpr ⟨g, hg, he⟩
  refine ⟨hflat, ?_, fun g hg e he => ?_, fun g hg => ?_⟩
  · refine hgroups.increasing.imp_of_mem fun {a b} ha hb hlt heq => ?_
    have heq' : (schemaCmpOption cfg.schema a.1 b.1 == .eq) = true := by
      rw [← h.sameKey_eq _ (hgroups.keys a ha) _ (hgroups.keys b hb)]
      simp [heq]
    rw [hlt] at heq'
    cases heq'
  · have heq := (huniform g hg).2 e he
    have hsame := h.sameKey_eq _ (hrows e (hin g hg e he)) _ (hgroups.keys g hg)
    rw [heq] at hsame
    simpa using hsame
  · have hpart : g.2.Pairwise fun a b => entryCmp cfg.schema a b ≠ .gt := by
      obtain ⟨before, after, rfl⟩ := List.append_of_mem hg
      rw [List.flatMap_append, List.flatMap_cons] at hflat
      rw [← hflat] at hentries
      exact (List.pairwise_append.mp (List.pairwise_append.mp hentries).2.1).1
    refine hpart.imp_of_mem fun {a b} ha hb hab => ?_
    refine runIndex_le_of_entryCmp ((hkey' a (hin g hg a ha)).trans (hkey' b (hin g hg b hb)).symm)
      ?_ hab
    have hga := (huniform g hg).2 a ha
    have hgb := (huniform g hg).2 b hb
    have hb' := hrows b (hin g hg b hb)
    rw [h.keys_total.cmp_congr hb' (hgroups.keys g hg) (hrows a (hin g hg a ha)) hgb]
    exact hga

end Clusters

/-! ### The whole merge -/

section Merge

variable [DebugFmt]

/-- **The merge keeps entries and groups.** Over sorted, tagged runs and wherever the readers stand in
    their buffers, the heap fills and is pulled empty without an error; every input entry is popped
    exactly once, in non-decreasing heap order; both mergers then close every partition once, with
    all of its entries, and reconcile every clustering key of it as one contiguous group in run
    order. -/
theorem merge_keeps_groups (cfg : MergerConfig) (types : Nat → ValueType) (size : MergeEntry → Nat)
    (runs : List (List MergeEntry)) (m : MergerState) (hruns : SortedRuns cfg.schema types runs)
    (hheap : m.heap = []) (hreaders : List.Forall₂ RunReader.Holds m.runs runs) :
    ∃ m' popped, m.initializeHeap size = (.ok (), m') ∧ Pulls cfg.schema size m' popped ∧
      popped.Perm runs.flatten ∧
      (popped.Pairwise fun a b => entryCmp cfg.schema a b ≠ .gt) ∧
      BufferedDrains cfg size m ((segments popped).map fun g => (g.1, mergePartitionRows cfg g.2)) ∧
      StreamDrains cfg size ⟨m, none, .fresh⟩ ((segments popped).flatMap fun g =>
        partitionSteps g.1 (streamPartition cfg g.2)) ∧
      ((segments popped).Pairwise fun g h => DecoratedKey.cmp g.1 h.1 = .lt) ∧
      (∀ e ∈ popped, ∃ seg, (e.key, seg) ∈ segments popped) ∧
      ∀ g ∈ segments popped, (g.2 = popped.filter fun e => e.key = g.1) ∧
        GroupedOnce (g.2.filter fun e => !isCarrier e) (Checkpoint.fresh.clusters cfg g.2) ∧
        ∀ c, c ∈ clusteredRows g.2 ↔ c ∈ Checkpoint.fresh.clusters cfg g.2 := by
  have hdel : Delivers m ⟨[], runs⟩ := ⟨hheap, hreaders⟩
  have hinv := KWay.inv_start hruns.indexed
  obtain ⟨m', hm', hdel'⟩ := hdel.initialized size
  have hready : Ready size m (Feed.start runs) := ⟨m', by simpa [ensureHeap, hheap] using hm', hdel'⟩
  have hkeys : KeysAscending (popOrder cfg.schema runs) :=
    hruns.popOrder_sorted.imp fun hab hgt => hab (by simp [entryCmp, hgt])
  obtain ⟨hseg, hincreasing, hcover⟩ := hkeys.segments
  refine ⟨m', popOrder cfg.schema runs, hm', hdel'.pulls size, hruns.popOrder_perm,
    hruns.popOrder_sorted, bufferedDrains_of_ready hruns.indexed hready hinv,
    streamDrains_of_ready hruns.indexed hready hinv rfl, hincreasing, hcover, fun g hg => ?_⟩
  obtain ⟨key, seg⟩ := g
  obtain ⟨hsub, -, hkey⟩ := mem_segments hg
  exact ⟨hseg _ hg, hruns.groupedOnce hsub hkey⟩

/-- The heap is a stable sort: wherever the readers stand in their buffers, it pops sorted runs as a
    stable sort by partition and clustering key leaves them, one run after the other. -/
theorem merge_pops_stably (schema : TableSchema) (types : Nat → ValueType)
    (size : MergeEntry → Nat) (runs : List (List MergeEntry)) (m : MergerState)
    (hruns : SortedRuns schema types runs) (hheap : m.heap = [])
    (hreaders : List.Forall₂ RunReader.Holds m.runs runs) :
    ∃ m', m.initializeHeap size = (.ok (), m') ∧
      Pulls schema size m' (runs.flatten.mergeSort fun a b =>
        (DecoratedKey.cmp a.key b.key).then (rowCmp schema a b) != .gt) := by
  have hdel : Delivers m ⟨[], runs⟩ := ⟨hheap, hreaders⟩
  obtain ⟨m', hinit, hdel'⟩ := hdel.initialized size
  refine ⟨m', hinit, ?_⟩
  rw [← hruns.popOrder_eq]
  exact hdel'.pulls size

end Merge

/-- A live row `c = n` of run `i`. -/
def rowOfRun (i : Nat) (n : Int) : MergeEntry :=
  MergeEntry.new i ⟨7, [1]⟩ (some (integerKey n)) 10 (.live [])

theorem rowOfRun_runs_indexed :
    KWay.Indexed MergeEntry.runIndex [[rowOfRun 0 5], [rowOfRun 1 5]] := by
  intro i run hrun e he
  match i, hrun with
  | 0, hrun =>
    cases hrun
    rw [List.mem_singleton.mp he]
    rfl
  | 1, hrun =>
    cases hrun
    rw [List.mem_singleton.mp he]
    rfl

theorem rowOfRun_runs_sorted :
    SortedRuns descendingTable (fun _ => .integer) [[rowOfRun 0 5], [rowOfRun 1 5]] := by
  refine ⟨rowOfRun_runs_indexed, fun run hrun => ?_, fun e he ck hck => ?_⟩
  · simp only [List.mem_cons, List.not_mem_nil, or_false] at hrun
    rcases hrun with rfl | rfl <;> exact List.pairwise_singleton _ _
  · simp only [List.flatten_cons, List.flatten_nil, List.append_nil, List.singleton_append,
      List.mem_cons, List.not_mem_nil, or_false] at he
    rcases he with rfl | rfl <;> cases hck <;> exact integerKey_full 5

theorem rowOfRun_runs_pop :
    ∃ m', (MergerState.mk [] [RunReader.new [.ok (rowOfRun 0 5)],
        RunReader.new [.ok (rowOfRun 1 5)]]).initializeHeap (fun _ => 1) = (.ok (), m') ∧
      Pulls descendingTable (fun _ => 1) m' [rowOfRun 0 5, rowOfRun 1 5] := by
  have hsort : [rowOfRun 0 5, rowOfRun 1 5].mergeSort (fun a b =>
      (DecoratedKey.cmp a.key b.key).then (rowCmp descendingTable a b) != .gt) =
      [rowOfRun 0 5, rowOfRun 1 5] := List.mergeSort_of_pairwise (by simp; decide)
  rw [← hsort]
  exact merge_pops_stably descendingTable (fun _ => .integer) (fun _ => 1)
    [[rowOfRun 0 5], [rowOfRun 1 5]] (MergerState.mk [] [RunReader.new [.ok (rowOfRun 0 5)],
      RunReader.new [.ok (rowOfRun 1 5)]]) rowOfRun_runs_sorted rfl
    (.cons ⟨[rowOfRun 0 5], rfl, rfl, fun h => by cases h⟩ (.cons ⟨[rowOfRun 1 5], rfl, rfl, fun h => by cases h⟩ .nil))

/-- Two runs with the same row, one of them already buffered by its reader. -/
theorem rowOfRun_runs_merge :
    ∃ m' popped, (MergerState.mk [] [⟨[], [rowOfRun 0 5], false⟩,
        RunReader.new [.ok (rowOfRun 1 5)]]).initializeHeap (fun _ => 1) = (.ok (), m') ∧
      Pulls descendingTable (fun _ => 1) m' popped ∧
      popped.Perm [rowOfRun 0 5, rowOfRun 1 5] := by
  obtain ⟨m', popped, hinit, hpulls, hperm, -⟩ := merge_keeps_groups
    ⟨descendingTable, true, none, none, none⟩ (fun _ => .integer) (fun _ => 1)
    [[rowOfRun 0 5], [rowOfRun 1 5]]
    (MergerState.mk [] [⟨[], [rowOfRun 0 5], false⟩, RunReader.new [.ok (rowOfRun 1 5)]])
    rowOfRun_runs_sorted rfl
    (.cons ⟨[], rfl, rfl, fun h => (nomatch h)⟩
      (.cons ⟨[rowOfRun 1 5], rfl, rfl, fun h => (nomatch h)⟩ .nil))
  exact ⟨m', popped, hinit, hpulls, hperm⟩

end Cqlite
