import Cqlite.Merge.StreamSpec

/-! The groups of a partition as the streaming merger meets them.

    The rows arrive in schema order, so the group in progress is always the last one, and the ranges
    known when it is finished are those popped before the first row after it. -/

namespace Cqlite

section Groups

variable [DebugFmt] (schema : TableSchema)

/-- The groups of a partition in schema order. -/
def schemaClusters (seg : List MergeEntry) : List Cluster :=
  Grouping.groups (schemaCmpOption schema) MergeEntry.clusteringKey (seg.filter fun e => !isCarrier e)

/-- The entry is popped before any row after `ck`. -/
def reachedAt (ck : Option ClusteringKey) (e : MergeEntry) : Bool :=
  isCarrier e || schemaCmpOption schema e.clusteringKey ck != .gt

/-- The ranges a row of key `ck` is shadowed by: those popped before the first row after it and, if
    there are any, the next one. -/
def knownRanges (seg : List MergeEntry) (ck : Option ClusteringKey) : List RangeTombstone :=
  flushRanges (partitionRanges (seg.takeWhile (reachedAt schema ck)))
    (seg.dropWhile (reachedAt schema ck))

variable {schema} {key : DecoratedKey} {seg seen rest : List MergeEntry}

theorem PartitionInput.schemaKeys_total (h : PartitionInput schema key seg) :
    Rank.TotalOn (schemaCmpOption schema) (seg.map MergeEntry.clusteringKey) :=
  h.keys.totalOn_schemaCmpOption fun k hk ck hck => by
    obtain ⟨e, he, rfl⟩ := List.mem_map.mp hk
    exact List.mem_filterMap.mpr ⟨e, he, hck⟩

theorem PartitionInput.schemaCmpOption_eq_iff (h : PartitionInput schema key seg) {a b : MergeEntry}
    (ha : a ∈ seg) (hb : b ∈ seg) :
    schemaCmpOption schema a.clusteringKey b.clusteringKey = .eq ↔
      cmpOptionKey a.clusteringKey b.clusteringKey = .eq :=
  Cqlite.schemaCmpOption_eq_iff
    (fun ck hck => h.keys.rowArity ck (List.mem_filterMap.mpr ⟨a, ha, hck⟩))
    (fun ck hck => h.keys.rowArity ck (List.mem_filterMap.mpr ⟨b, hb, hck⟩))

theorem schemaClusters_concat (e : MergeEntry) :
    schemaClusters schema (seen ++ [e]) =
      if isCarrier e then schemaClusters schema seen
      else Grouping.push (schemaCmpOption schema) MergeEntry.clusteringKey
        (schemaClusters schema seen) e := by
  unfold schemaClusters
  rw [List.filter_append]
  cases hc : isCarrier e with
  | true => simp [hc]
  | false => simp [hc, Grouping.groups_concat]

/-- The group in progress is the last one: its key occurs and no row seen is after it. -/
structure LastGroup (schema : TableSchema) (seen : List MergeEntry) (done : List Cluster)
    (cur : Option Cluster) : Prop where
  groups : schemaClusters schema seen = done ++ cur.toList
  first : cur = none → done = []
  occurs : ∀ ck rows, cur = some (ck, rows) → ∃ x ∈ seen, isCarrier x = false ∧ x.clusteringKey = ck
  last : ∀ ck rows, cur = some (ck, rows) → ∀ x ∈ seen, isCarrier x = false →
    schemaCmpOption schema x.clusteringKey ck ≠ .gt

variable {cur : Option Cluster} {done : List Cluster}

theorem LastGroup.carrier (h : LastGroup schema seen done cur) {e : MergeEntry}
    (hc : isCarrier e = true) :
    LastGroup schema (seen ++ [e]) done cur where
  groups := by rw [schemaClusters_concat, if_pos hc, h.groups]
  first := h.first
  occurs ck rows hcur := by
    obtain ⟨x, hx, hrest⟩ := h.occurs ck rows hcur
    exact ⟨x, List.mem_append_left _ hx, hrest⟩
  last ck rows hcur x hx hrow := by
    rcases List.mem_append.mp hx with hx | hx
    · exact h.last ck rows hcur x hx hrow
    · rw [List.mem_singleton.mp hx, hc] at hrow
      cases hrow

/-- A row that is not before the rows seen extends the last group or opens the next one. -/
theorem LastGroup.row {e : MergeEntry} (hseg : SegmentInput schema key (seen ++ e :: rest))
    (h : LastGroup schema seen done cur) (hrow : isCarrier e = false) :
    match cur with
    | none => LastGroup schema (seen ++ [e]) [] (some (e.clusteringKey, [e]))
    | some (ck, rows) =>
      (cmpOptionKey ck e.clusteringKey ≠ .eq →
        LastGroup schema (seen ++ [e]) (done ++ [(ck, rows)]) (some (e.clusteringKey, [e])) ∧
          reachedAt schema ck e = false) ∧
      (cmpOptionKey ck e.clusteringKey = .eq →
        LastGroup schema (seen ++ [e]) done (some (ck, rows ++ [e]))) := by
  have htotal := hseg.partition.schemaKeys_total
  have hin : ∀ x ∈ seen ++ [e],
      x.clusteringKey ∈ (seen ++ e :: rest).map MergeEntry.clusteringKey := fun x hx =>
    List.mem_map_of_mem (by rw [← concat_append]; exact List.mem_append_left _ hx)
  have hmem : e.clusteringKey ∈ (seen ++ e :: rest).map MergeEntry.clusteringKey :=
    hin e (by simp)
  have hconcat := @schemaClusters_concat _ schema seen e
  rw [if_neg (by simp [hrow]), h.groups] at hconcat
  -- no row seen is after the new one
  have hle : ∀ x ∈ seen ++ [e], isCarrier x = false →
      schemaCmpOption schema x.clusteringKey e.clusteringKey ≠ .gt := by
    intro x hx hxrow
    rcases List.mem_append.mp hx with hx | hx
    · rw [← rowCmp_eq]
      exact (List.pairwise_append.mp hseg.ordered).2.2 x hx e (by simp) (isRangeCarrier_of_row hxrow)
        (isRangeCarrier_of_row hrow)
    · rw [List.mem_singleton.mp hx, htotal.refl hmem]
      simp
  have hnew : ∀ done', schemaClusters schema (seen ++ [e]) = done' ++ [(e.clusteringKey, [e])] →
      LastGroup schema (seen ++ [e]) done' (some (e.clusteringKey, [e])) := fun done' hg =>
    ⟨hg, by simp, fun ck rows hc => by cases hc; exact ⟨e, by simp, hrow, rfl⟩,
      fun ck rows hc x hx hxrow => by cases hc; exact hle x hx hxrow⟩
  cases cur with
  | none =>
    rw [h.first rfl] at hconcat
    exact hnew [] hconcat
  | some cluster =>
    obtain ⟨ck, rows⟩ := cluster
    obtain ⟨x, hx, hxrow, rfl⟩ := h.occurs ck rows rfl
    have hxmem := hin x (List.mem_append_left _ hx)
    have hxe := hle x (List.mem_append_left _ hx) hxrow
    have hxseg : x ∈ seen ++ e :: rest := List.mem_append_left _ hx
    have heseg : e ∈ seen ++ e :: rest := by simp
    have hagree := hseg.partition.schemaCmpOption_eq_iff hxseg heseg
    have hsorted : Grouping.Sorted (schemaCmpOption schema)
        ((seen ++ e :: rest).map MergeEntry.clusteringKey) (schemaClusters schema seen) :=
      Grouping.groups_sorted htotal fun y hy =>
        hin y (List.mem_append_left _ (List.mem_of_mem_filter hy))
    rw [h.groups] at hsorted
    -- the groups already done are before the last one, hence before the row
    have hskip : ∀ g ∈ done, schemaCmpOption schema e.clusteringKey g.1 = .gt := fun g hg => by
      have hg' := hsorted.keys g (List.mem_append_left _ hg)
      have hlt := (List.pairwise_append.mp hsorted.increasing).2.2 g hg (x.clusteringKey, rows)
        (by simp)
      exact (htotal.lt_iff_gt hg' hmem).mp (htotal.lt_of_lt_of_le hg' hxmem hmem hlt hxe)
    simp only [Option.toList_some] at hconcat
    rw [Grouping.push_append hskip, Grouping.push] at hconcat
    refine ⟨fun hne => ?_, fun heq => ?_⟩
    · have hgt : schemaCmpOption schema e.clusteringKey x.clusteringKey = .gt := by
        rw [← htotal.lt_iff_gt hxmem hmem]
        cases hc : schemaCmpOption schema x.clusteringKey e.clusteringKey with
        | lt => rfl
        | eq => exact absurd (hagree.mp hc) hne
        | gt => exact absurd hc hxe
      rw [hgt] at hconcat
      refine ⟨hnew _ ?_, by simp [reachedAt, hrow, hgt]⟩
      simpa [Grouping.push] using hconcat
    · have heq' := (htotal.eq_comm hxmem hmem).mp (hagree.mpr heq)
      rw [heq'] at hconcat
      refine ⟨hconcat, by simp, fun ck rows' hc => ?_, fun ck rows' hc y hy hyrow => ?_⟩
      · cases hc
        exact ⟨x, List.mem_append_left _ hx, hxrow, rfl⟩
      · cases hc
        rcases List.mem_append.mp hy with hy | hy
        · exact h.last _ rows rfl y hy hyrow
        · rw [List.mem_singleton.mp hy, heq']
          simp

/-- What is known of a group when the next entry is a row after it. -/
theorem knownRanges_eq {ck : Option ClusteringKey} (hseen : ∀ e ∈ seen, reachedAt schema ck e = true)
    (hrest : ∀ e ∈ rest.head?, reachedAt schema ck e = false) :
    knownRanges schema (seen ++ rest) ck = flushRanges (partitionRanges seen) rest := by
  unfold knownRanges
  rw [List.takeWhile_append_of_pos hseen, List.dropWhile_append_of_pos hseen]
  cases rest with
  | nil => simp
  | cons e rest => simp [hrest e rfl]

theorem LastGroup.reached {ck : Option ClusteringKey} {rows : List MergeEntry}
    (h : LastGroup schema seen done (some (ck, rows))) :
    ∀ e ∈ seen, reachedAt schema ck e = true := by
  intro e he
  cases hc : isCarrier e with
  | true => simp [reachedAt, hc]
  | false => simpa [reachedAt, hc] using h.last ck rows rfl e he hc

/-- The schedule lists the groups in schema order with their known ranges. -/
theorem schedule_eq (hseg : SegmentInput schema key seg) (hs : seen ++ rest = seg)
    (h : LastGroup schema seen done cur) :
    ∃ todo, schemaClusters schema seg = done ++ todo ∧
      schedule cur (partitionRanges seen) rest =
        todo.map fun cluster => (cluster, knownRanges schema seg cluster.1) := by
  induction rest generalizing seen done cur with
  | nil =>
    subst hs
    refine ⟨cur.toList, by rw [List.append_nil]; exact h.groups, ?_⟩
    cases cur with
    | none => rfl
    | some cluster =>
      obtain ⟨ck, rows⟩ := cluster
      rw [schedule, Option.map_some, Option.toList_some, Option.toList_some, List.map_singleton,
        knownRanges_eq h.reached (by simp)]
  | cons e rest ih =>
    subst hs
    have hconcat : seen ++ [e] ++ rest = seen ++ e :: rest := concat_append e
    rw [schedule_cons]
    cases hpd : e.isPartitionDeleteCarrier with
    | true =>
      have hr : partitionRanges (seen ++ [e]) = partitionRanges seen := by
        rw [partitionRanges_append, partitionRanges_singleton]
        simp [isRangeCarrier, hpd]
      have := ih hconcat (h.carrier (by simp [isCarrier, hpd]))
      rw [hr] at this
      exact this
    | false =>
      cases hm : isRangeMarkerCarrier e with
      | true =>
        have hr : partitionRanges (seen ++ [e]) = partitionRanges seen ++ e.rangeDeletion.toList := by
          rw [partitionRanges_append, partitionRanges_singleton]
          simp [isRangeCarrier, hpd, hm]
        have := ih hconcat (h.carrier (by simp [isCarrier, hm]))
        rw [hr] at this
        exact this
      | false =>
        have hrow : isCarrier e = false := by simp [isCarrier, hpd, hm]
        have hr : partitionRanges (seen ++ [e]) = partitionRanges seen := by
          rw [partitionRanges_append, partitionRanges_singleton]
          simp [isRangeCarrier, hm]
        have hstep := h.row hseg hrow
        simp only [Bool.false_eq_true, if_false]
        cases cur with
        | none =>
          have := ih hconcat hstep
          rw [hr] at this
          rw [h.first rfl]
          exact this
        | some cluster =>
          obtain ⟨ck, rows⟩ := cluster
          by_cases heq : cmpOptionKey ck e.clusteringKey = .eq
          · have := ih hconcat (hstep.2 heq)
            rw [hr] at this
            simpa [heq] using this
          · obtain ⟨hlast, hnot⟩ := hstep.1 heq
            obtain ⟨todo, hgroups, hsched⟩ := ih hconcat hlast
            rw [hr] at hsched
            refine ⟨(ck, rows) :: todo, by simpa using hgroups, ?_⟩
            have hne : (cmpOptionKey ck e.clusteringKey != .eq) = true := by simpa using heq
            simp only [hne, if_true, hsched, List.map_cons]
            rw [knownRanges_eq h.reached (fun x hx => by cases hx; exact hnot)]

/-- The groups in schema order are the groups of the buffered merge. -/
theorem PartitionInput.mem_schemaClusters (h : PartitionInput schema key seg) {cluster : Cluster} :
    cluster ∈ schemaClusters schema seg ↔ cluster ∈ clusteredRows seg := by
  have hsub : ∀ e ∈ seg.filter (fun e => !isCarrier e),
      e.clusteringKey ∈ seg.map MergeEntry.clusteringKey := fun e he =>
    List.mem_map_of_mem (List.mem_of_mem_filter he)
  -- the two comparisons agree on the key of a row
  have hgroup : (∃ x ∈ seg, x.clusteringKey = cluster.1) →
      (Grouping.IsGroup (schemaCmpOption schema) MergeEntry.clusteringKey
          (seg.filter fun e => !isCarrier e) cluster ↔
        Grouping.IsGroup cmpOptionKey MergeEntry.clusteringKey
          (seg.filter fun e => !isCarrier e) cluster) := by
    rintro ⟨x, hx, hk⟩
    have hfilter : ((seg.filter fun e => !isCarrier e).filter fun e =>
        schemaCmpOption schema e.clusteringKey cluster.1 == .eq) =
        (seg.filter fun e => !isCarrier e).filter fun e =>
          cmpOptionKey e.clusteringKey cluster.1 == .eq := by
      refine List.filter_congr fun e he => ?_
      rw [Bool.eq_iff_iff, beq_iff_eq, beq_iff_eq, ← hk]
      exact h.schemaCmpOption_eq_iff (List.mem_of_mem_filter he) hx
    refine ⟨fun hg => ⟨by rw [← hfilter]; exact hg.elements, hg.first⟩,
      fun hg => ⟨by rw [hfilter]; exact hg.elements, hg.first⟩⟩
  have hocc : cluster.1 ∈ seg.map MergeEntry.clusteringKey →
      ∃ x ∈ seg, x.clusteringKey = cluster.1 := List.mem_map.mp
  constructor
  · intro hc
    have hk := (Grouping.groups_sorted h.schemaKeys_total hsub).keys cluster hc
    exact (Grouping.mem_groups h.cmpOptionKey_total hsub hk).mpr
      ((hgroup (hocc hk)).mp ((Grouping.mem_groups h.schemaKeys_total hsub hk).mp hc))
  · intro hc
    have hk := (Grouping.groups_sorted h.cmpOptionKey_total hsub).keys cluster hc
    exact (Grouping.mem_groups h.schemaKeys_total hsub hk).mpr
      ((hgroup (hocc hk)).mpr ((Grouping.mem_groups h.cmpOptionKey_total hsub hk).mp hc))

theorem PartitionInput.schemaClusters_sorted (h : PartitionInput schema key seg) :
    Grouping.Sorted (schemaCmpOption schema) (seg.map MergeEntry.clusteringKey)
      (schemaClusters schema seg) :=
  Grouping.groups_sorted h.schemaKeys_total fun _ he =>
    List.mem_map_of_mem (List.mem_of_mem_filter he)

omit [DebugFmt] in
theorem nodup_of_sorted {cmp : Option ClusteringKey → Option ClusteringKey → Ordering}
    {keys : List (Option ClusteringKey)} (ht : Rank.TotalOn cmp keys) {clusters : List Cluster}
    (h : Grouping.Sorted cmp keys clusters) : clusters.Nodup := by
  refine h.increasing.imp_of_mem fun {a b} ha _ hlt heq => ?_
  rw [← heq, ht.refl (h.keys a ha)] at hlt
  cases hlt

theorem PartitionInput.schemaClusters_perm (h : PartitionInput schema key seg) :
    (schemaClusters schema seg).Perm (clusteredRows seg) := by
  have hsorted : Grouping.Sorted cmpOptionKey (seg.map MergeEntry.clusteringKey) (clusteredRows seg) :=
    Grouping.groups_sorted h.cmpOptionKey_total fun _ he =>
      List.mem_map_of_mem (List.mem_of_mem_filter he)
  rw [List.perm_ext_iff_of_nodup (nodup_of_sorted h.schemaKeys_total h.schemaClusters_sorted)
    (nodup_of_sorted h.cmpOptionKey_total hsorted)]
  exact fun cluster => h.mem_schemaClusters

end Groups

end Cqlite
