import Cqlite.Merge.Drain
import Cqlite.Merge.RowOrder

/-! What the heap delivers for one partition.

    Runs deliver their partitions in token order and, inside a partition, the partition deletion and
    then the rows in clustering order; range carriers may stand anywhere. The heap keeps that order
    over all runs, but a range carrier has no clustering key and leaves the heap as soon as it heads
    its run, wherever the other runs stand. -/

namespace Cqlite

/-- A range carrier: what the merge loop treats as one. -/
def isRangeCarrier (e : MergeEntry) : Bool := !e.isPartitionDeleteCarrier && isRangeMarkerCarrier e

theorem partitionRanges_eq (rows : List MergeEntry) :
    partitionRanges rows = (rows.filter isRangeCarrier).filterMap MergeEntry.rangeDeletion := rfl

section Input

variable [DebugFmt] (schema : TableSchema)

/-- The range covers some position. -/
def RangeTombstone.NonEmpty (rt : RangeTombstone) : Prop :=
  RangeCut.cmp schema (.ofStart rt.startBound) (.ofEnd rt.endBound) = .lt

/-- What the reader guarantees of one entry: carriers have no clustering key, only carriers hold a
    range, and a range ends after it starts. -/
@[mk_iff]
structure EntryInput (e : MergeEntry) : Prop where
  carrierKey : isCarrier e = true → e.clusteringKey = none
  rowRange : isCarrier e = false → e.rangeDeletion = none
  nonEmpty : ∀ rt ∈ e.rangeDeletion, rt.NonEmpty schema

instance {e : MergeEntry} : Decidable (EntryInput schema e) :=
  have (rt : RangeTombstone) : Decidable (rt.NonEmpty schema) := inferInstanceAs (Decidable (_ = _))
  decidable_of_iff _ (entryInput_iff schema e).symm

/-- The runs as the compaction reader emits them. -/
structure RunsInput (runs : List (List MergeEntry)) : Prop where
  indexed : KWay.Indexed MergeEntry.runIndex runs
  keyOrder : ∀ run ∈ runs, run.Pairwise fun a b => DecoratedKey.cmp a.key b.key ≠ .gt
  rowOrder : ∀ run ∈ runs, run.Pairwise fun a b =>
    a.key = b.key → isRangeCarrier a = false → isRangeCarrier b = false → rowCmp schema a b ≠ .gt
  entry : ∀ e ∈ runs.flatten, EntryInput schema e
  partition : ∀ key, PartitionInput schema key (runs.flatten.filter fun e => e.key = key)

/-- The entries of one partition as the heap delivers them. -/
structure SegmentInput (key : DecoratedKey) (seg : List MergeEntry) : Prop where
  partition : PartitionInput schema key seg
  ordered : seg.Pairwise fun a b =>
    isRangeCarrier a = false → isRangeCarrier b = false → rowCmp schema a b ≠ .gt
  entry : ∀ e ∈ seg, EntryInput schema e

end Input

/-! ### Sub-partitions -/

theorem rowKeys_subset {a b : List MergeEntry} (h : ∀ e ∈ a, e ∈ b) :
    ∀ ck ∈ rowKeys a, ck ∈ rowKeys b := by
  intro ck hck
  obtain ⟨e, he, hk⟩ := List.mem_filterMap.mp hck
  exact List.mem_filterMap.mpr ⟨e, h e he, hk⟩

theorem partitionRanges_subset {a b : List MergeEntry} (h : ∀ e ∈ a, e ∈ b) :
    ∀ rt ∈ partitionRanges a, rt ∈ partitionRanges b := by
  intro rt hrt
  obtain ⟨e, he, hk⟩ := List.mem_filterMap.mp hrt
  obtain ⟨he, hc⟩ := List.mem_filter.mp he
  exact List.mem_filterMap.mpr ⟨e, List.mem_filter.mpr ⟨h e he, hc⟩, hk⟩

section Segments

variable [DebugFmt] {schema : TableSchema}

theorem KeysOrdered.mono {cks cks' : List ClusteringKey} {ranges ranges' : List RangeTombstone}
    (h : KeysOrdered schema cks ranges) (hcks : ∀ ck ∈ cks', ck ∈ cks)
    (hranges : ∀ rt ∈ ranges', rt ∈ ranges) : KeysOrdered schema cks' ranges' where
  rowArity ck hck := h.rowArity ck (hcks ck hck)
  boundArity rt hrt := h.boundArity rt (hranges rt hrt)
  total := by
    refine h.total.mono fun c hc => ?_
    rcases List.mem_append.mp hc with hc | hc
    · obtain ⟨ck, hck, rfl⟩ := List.mem_map.mp hc
      exact rowCut_mem (hcks ck hck)
    · obtain ⟨rt, hrt, hc⟩ := List.mem_flatMap.mp hc
      exact List.mem_append_right _ (List.mem_flatMap.mpr ⟨rt, hranges rt hrt, hc⟩)

theorem PartitionInput.mono {key : DecoratedKey} {rows rows' : List MergeEntry}
    (h : PartitionInput schema key rows) (hsub : ∀ e ∈ rows', e ∈ rows) :
    PartitionInput schema key rows' where
  sameKey e he := h.sameKey e (hsub e he)
  keys := h.keys.mono (rowKeys_subset hsub) (partitionRanges_subset hsub)
  fallback := h.fallback.mono (rowKeys_subset hsub)

theorem PartitionInput.schema_total {key : DecoratedKey} {rows : List MergeEntry}
    (h : PartitionInput schema key rows) : Rank.TotalOn (rowCmp schema) rows := by
  have hrow : rowCmp schema = fun a b => schemaCmpOption schema a.clusteringKey b.clusteringKey :=
    funext fun a => funext fun b => rowCmp_eq schema a b
  rw [hrow]
  refine Rank.TotalOn.comap (h.keys.totalOn_schemaCmpOption fun k hk ck hck => ?_)
  obtain ⟨e, he, rfl⟩ := List.mem_map.mp hk
  exact List.mem_filterMap.mpr ⟨e, he, hck⟩

/-! ### The heap order -/

theorem RunsInput.entryCmp_total {runs : List (List MergeEntry)} (h : RunsInput schema runs) :
    Rank.TotalOn (entryCmp schema) runs.flatten := by
  have := decoratedKey_transCmp
  have hkey : Rank.TotalOn (fun a b : MergeEntry => DecoratedKey.cmp a.key b.key) runs.flatten :=
    Rank.TotalOn.comap Rank.totalOn_of_transCmp
  refine hkey.lex fun a _ => ?_
  have hsub : ∀ e ∈ runs.flatten.filter (fun b => DecoratedKey.cmp a.key b.key == .eq),
      e ∈ runs.flatten.filter fun e => e.key = a.key := by
    intro e he
    obtain ⟨he, hc⟩ := List.mem_filter.mp he
    have hc : a.key = e.key := decoratedKey_cmp_eq.mp (by simpa using hc)
    exact List.mem_filter.mpr ⟨he, by simp [hc]⟩
  have hrow := ((h.partition a.key).mono hsub).schema_total
  refine hrow.lex fun b _ => ?_
  exact Rank.TotalOn.comap Rank.totalOn_of_transCmp

theorem rowCmp_of_none {a b : MergeEntry} (h : a.clusteringKey = none) : rowCmp schema a b ≠ .gt := by
  rw [rowCmp_eq, h]
  cases b.clusteringKey <;> simp [schemaCmpOption]

theorem none_of_rowCmp {a b : MergeEntry} (h : rowCmp schema a b ≠ .gt) (hb : b.clusteringKey = none) :
    a.clusteringKey = none := by
  rw [rowCmp_eq, hb] at h
  cases hk : a.clusteringKey with
  | none => rfl
  | some ck => rw [hk] at h; exact absurd rfl h

theorem entryCmp_of_sameKey {a b : MergeEntry} (h : a.key = b.key) :
    entryCmp schema a b = (rowCmp schema a b).then (compare a.runIndex b.runIndex) := by
  simp [entryCmp, decoratedKey_cmp_eq.mpr h]

/-- The heap delivers the rows of a partition in clustering order, and equal ones by run. -/
theorem RunsInput.popOrder_pairwise {runs : List (List MergeEntry)} (h : RunsInput schema runs) :
    (popOrder schema runs).Pairwise fun a b => isRangeCarrier a = false → isRangeCarrier b = false →
      a.key = b.key → entryCmp schema a b ≠ .gt := by
  have htrans := decoratedKey_transCmp
  refine KWay.pops_pairwise h.entryCmp_total (fun run hrun x hx => List.mem_flatten_of_mem hrun hx)
    h.indexed (fun run hrun e t hsuf x hx hpx hxe y hy hpy hkey => ?_) (KWay.inv_start h.indexed)
  have hmem : ∀ z ∈ e :: t, z ∈ runs.flatten := fun z hz =>
    List.mem_flatten_of_mem hrun (hsuf.subset hz)
  have hxe_key : DecoratedKey.cmp x.key e.key ≠ .gt := fun hgt => hxe (by simp [entryCmp, hgt])
  have hey_key : DecoratedKey.cmp e.key y.key ≠ .gt := by
    rcases List.mem_cons.mp hy with rfl | hy
    · simp [decoratedKey_cmp_eq.mpr]
    · exact (List.pairwise_cons.mp ((h.keyOrder run hrun).sublist hsuf.sublist)).1 y hy
  -- the head lies between two entries of one partition, and in the run of the later one
  have hek : x.key = e.key := by
    rw [Ne, ← Ordering.isLE_iff_ne_gt] at hxe_key hey_key
    rw [← hkey] at hey_key
    exact decoratedKey_cmp_eq.mp (htrans.isLE_antisymm hxe_key hey_key)
  obtain ⟨i, hi⟩ := List.getElem?_of_mem hrun
  have hindex : e.runIndex = y.runIndex :=
    (h.indexed i run hi e (hsuf.subset (by simp))).trans (h.indexed i run hi y (hsuf.subset hy)).symm
  have hxe' := hxe
  rw [entryCmp_of_sameKey hek] at hxe'
  have hxe_row : rowCmp schema x e ≠ .gt := fun hgt => hxe' (by rw [hgt]; rfl)
  cases hec : isRangeCarrier e with
  | true =>
    have hnone := (h.entry e (hmem e (by simp))).carrierKey (by
      unfold isRangeCarrier at hec
      unfold isCarrier
      simp_all)
    have hx := none_of_rowCmp hxe_row hnone
    have hxe_eq : rowCmp schema x e = .eq := by
      rw [rowCmp_eq, hx, hnone]
      rfl
    rw [hxe_eq, Ordering.eq_then, hindex] at hxe'
    rw [entryCmp_of_sameKey hkey]
    intro hgt
    rcases Ordering.then_eq_gt.mp hgt with hrow | ⟨-, hrun⟩
    · exact rowCmp_of_none hx hrow
    · exact hxe' hrun
  | false =>
    rcases List.mem_cons.mp hy with rfl | hyt
    · exact hxe
    have hrow := (List.pairwise_cons.mp ((h.rowOrder run hrun).sublist hsuf.sublist)).1 y hyt
      (hek.symm.trans hkey) hec hpy
    have hey : entryCmp schema e y ≠ .gt := by
      rw [entryCmp_of_sameKey (hek.symm.trans hkey), hindex]
      intro hgt
      rcases Ordering.then_eq_gt.mp hgt with hgt | ⟨-, hgt⟩
      · exact hrow hgt
      · exact absurd hgt (by simp)
    exact h.entryCmp_total.trans x hx e (hmem e (by simp)) y (hmem y hy) hxe hey

end Segments

/-! ### The segments of the popped sequence -/

/-- A segment has the entries of one key. -/
theorem mem_segments {entries seg : List MergeEntry} {key : DecoratedKey}
    (h : (key, seg) ∈ segments entries) :
    seg.Sublist entries ∧ seg ≠ [] ∧ ∀ e ∈ seg, e.key = key := by
  induction entries generalizing key seg with
  | nil => simp [segments] at h
  | cons e entries ih =>
    rw [segments] at h
    cases hs : segments entries with
    | nil =>
      rw [hs] at h
      obtain ⟨rfl, rfl⟩ : key = e.key ∧ seg = [e] := by simpa using h
      simp
    | cons g rest =>
      obtain ⟨k, s⟩ := g
      rw [hs] at h ih
      simp only at h
      split at h
      · rename_i hk
        rcases List.mem_cons.mp h with heq | hmem
        · obtain ⟨rfl, rfl⟩ := Prod.mk.inj heq
          obtain ⟨hsub, -, hkeys⟩ := ih (List.mem_cons_self : (key, s) ∈ (key, s) :: rest)
          refine ⟨hsub.cons_cons e, by simp, fun x hx => ?_⟩
          rcases List.mem_cons.mp hx with rfl | hx
          · exact hk
          · exact hkeys x hx
        · obtain ⟨hsub, hrest⟩ := ih (List.mem_cons_of_mem _ hmem)
          exact ⟨hsub.cons e, hrest⟩
      · rcases List.mem_cons.mp h with heq | hmem
        · obtain ⟨rfl, rfl⟩ := Prod.mk.inj heq
          simp
        · obtain ⟨hsub, hrest⟩ := ih hmem
          exact ⟨hsub.cons e, hrest⟩

/-- Every partition reaches the merge with its rows in clustering order. -/
theorem RunsInput.segmentInput [DebugFmt] {schema : TableSchema} {runs : List (List MergeEntry)}
    (h : RunsInput schema runs) {key : DecoratedKey} {seg : List MergeEntry}
    (hseg : (key, seg) ∈ segments (popOrder schema runs)) : SegmentInput schema key seg := by
  obtain ⟨hsub, -, hkeys⟩ := mem_segments hseg
  have hmem : ∀ e ∈ seg, e ∈ runs.flatten := fun e he => by
    obtain ⟨run, hrun, her⟩ := KWay.Feed.start_mem (KWay.Feed.mem_of_mem_pops (hsub.subset he))
    exact List.mem_flatten_of_mem hrun her
  refine ⟨(h.partition key).mono fun e he => ?_, ?_, fun e he => h.entry e (hmem e he)⟩
  · exact List.mem_filter.mpr ⟨hmem e he, by simpa using hkeys e he⟩
  · refine (h.popOrder_pairwise.sublist hsub).imp_of_mem fun {a b} ha hb hab hpa hpb hgt => ?_
    have hkey : a.key = b.key := (hkeys a ha).trans (hkeys b hb).symm
    exact hab hpa hpb hkey (by rw [entryCmp_of_sameKey hkey, hgt]; rfl)

/-- Runs of one partition. -/
theorem runsInput_of_sameKey [DebugFmt] {schema : TableSchema} {key : DecoratedKey}
    {runs : List (List MergeEntry)} (hindex : KWay.Indexed MergeEntry.runIndex runs)
    (hpart : PartitionInput schema key runs.flatten)
    (hrow : ∀ run ∈ runs, run.Pairwise fun x y =>
      isRangeCarrier x = false → isRangeCarrier y = false → rowCmp schema x y ≠ .gt)
    (hentry : ∀ e ∈ runs.flatten, EntryInput schema e) : RunsInput schema runs where
  indexed := hindex
  keyOrder run hrun := by
    refine List.pairwise_of_forall_mem_list fun x hx y hy => ?_
    have hkey : ∀ e ∈ run, e.key = key := fun e he =>
      hpart.sameKey e (List.mem_flatten_of_mem hrun he)
    rw [hkey x hx, hkey y hy, decoratedKey_cmp_eq.mpr rfl]
    simp
  rowOrder run hrun := by
    refine (hrow run hrun).imp ?_
    exact fun hxy _ => hxy
  entry := hentry
  partition key' := by
    by_cases hkey : key' = key
    · subst hkey
      exact hpart.mono fun e he => List.mem_of_mem_filter he
    · have hnil : (runs.flatten.filter fun e => e.key = key') = [] := by
        refine List.filter_eq_nil_iff.mpr fun e he => ?_
        rw [hpart.sameKey e he]
        simpa using Ne.symm hkey
      rw [hnil]
      refine ⟨by simp, hpart.keys.mono ?_ ?_, hpart.fallback.mono ?_⟩
      · simp [rowKeys]
      · simp [partitionRanges]
      · simp [rowKeys]

theorem indexed_pair {a b : List MergeEntry} (ha : ∀ e ∈ a, e.runIndex = 0)
    (hb : ∀ e ∈ b, e.runIndex = 1) : KWay.Indexed MergeEntry.runIndex [a, b] := by
  intro i run hi e he
  rcases i with _ | _ | i
  · obtain rfl : a = run := by simpa using hi
    exact ha e he
  · obtain rfl : b = run := by simpa using hi
    exact hb e he
  · simp at hi

end Cqlite
