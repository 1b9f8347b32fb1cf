import Cqlite.Merge.PopOrder
import Cqlite.Merge.RangeCoverage

/-! The range accumulator of the streaming merger.

    The accumulator is coalesced again and again while markers arrive, the buffered merge coalesces
    once. At every position both have the same deletion in force, so they shadow rows alike, and the
    coalesced form is canonical, so they re-emit the same ranges. -/

namespace Cqlite

section Ranges

variable [DebugFmt] (schema : TableSchema) (key : DecoratedKey)

/-- Ranges of one partition, coalesced, as shadowing takes them. -/
def keyedRanges (ranges : List RangeTombstone) : List KeyedRange :=
  (coalescePartitionRangeTombstones schema ranges).map fun rt => (key, rt)

/-- The accumulator stands for the ranges `known` of the partition `seg`. -/
structure TracksRanges (seg : List MergeEntry) (rts : List KeyedRange)
    (known : List RangeTombstone) : Prop where
  known_mem : ∀ rt ∈ known, rt ∈ partitionRanges seg
  exists_ranges : ∃ ts : List RangeTombstone, rts = ts.map (fun rt => (key, rt)) ∧
    RangesIn (rowKeys seg) (partitionRanges seg) ts ∧ (∀ rt ∈ ts, rt.NonEmpty schema) ∧
    Coverage.SameWeight deletionValue
      (ts.map (rankSeg schema (rowKeys seg) (partitionRanges seg)))
      (known.map (rankSeg schema (rowKeys seg) (partitionRanges seg)))

/-- Two range tombstones that delete the same positions at the same time. -/
def SameRange (a b : RangeTombstone) : Prop :=
  RangeCut.cmp schema (.ofStart a.startBound) (.ofStart b.startBound) = .eq ∧
    RangeCut.cmp schema (.ofEnd a.endBound) (.ofEnd b.endBound) = .eq ∧
    a.deletionTime = b.deletionTime ∧ a.localDeletionTime = b.localDeletionTime

end Ranges

section Tracking

variable [DebugFmt] {schema : TableSchema} {key : DecoratedKey} {seg : List MergeEntry}

variable {rt : RangeTombstone} {cks : List ClusteringKey} {ranges ts : List RangeTombstone}

theorem SegmentInput.nonEmpty (h : SegmentInput schema key seg) (hrt : rt ∈ partitionRanges seg) :
    rt.NonEmpty schema := by
  obtain ⟨e, he, hr⟩ := List.mem_filterMap.mp hrt
  exact (h.entry e (List.mem_of_mem_filter he)).nonEmpty rt hr

theorem KeysOrdered.rankSeg_lt (h : KeysOrdered schema cks ranges) (hin : RangesIn cks ranges ts)
    (hrt : rt ∈ ts) :
    rt.NonEmpty schema ↔ (rankSeg schema cks ranges rt).lo < (rankSeg schema cks ranges rt).hi := by
  rw [← compare_lt_iff_lt]
  have := h.compare_cutRank (hin rt hrt (.ofStart rt.startBound) (by simp [RangeTombstone.cuts]))
    (hin rt hrt (.ofEnd rt.endBound) (by simp [RangeTombstone.cuts]))
  rw [RangeTombstone.NonEmpty, ← this]
  rfl

theorem KeysOrdered.canonical_coalesce (h : KeysOrdered schema cks ranges)
    (hin : RangesIn cks ranges ts) (hne : ∀ rt ∈ ts, rt.NonEmpty schema) :
    Coverage.Canonical
      ((coalescePartitionRangeTombstones schema ts).map (rankSeg schema cks ranges)) := by
  by_cases hlen : ts.length ≤ 1
  · rw [coalescePartitionRangeTombstones, if_pos hlen]
    rcases ts with _ | ⟨rt, _ | ⟨rt', ts⟩⟩
    · exact ⟨⟨by simp, by simp⟩, by simp⟩
    · exact Coverage.canonical_singleton ((h.rankSeg_lt hin (by simp)).mp (hne rt (by simp)))
    · simp at hlen
  · rw [h.map_rankSeg_coalesce hin hlen]
    exact Coverage.coalesce_canonical _

theorem KeysOrdered.coalesce_nonEmpty (h : KeysOrdered schema cks ranges)
    (hin : RangesIn cks ranges ts) (hne : ∀ rt ∈ ts, rt.NonEmpty schema) :
    ∀ rt ∈ coalescePartitionRangeTombstones schema ts, rt.NonEmpty schema := fun _ hrt =>
  (h.rankSeg_lt (coalesce_rangesIn hin) hrt).mpr
    ((h.canonical_coalesce hin hne).nonempty _ (List.mem_map_of_mem hrt))

theorem KeysOrdered.forall₂_sameRange {as bs : List RangeTombstone}
    (h : KeysOrdered schema cks ranges) (ha : RangesIn cks ranges as) (hb : RangesIn cks ranges bs)
    (hmap : as.map (rankSeg schema cks ranges) = bs.map (rankSeg schema cks ranges)) :
    List.Forall₂ (SameRange schema) as bs := by
  induction as generalizing bs with
  | nil =>
    cases bs with
    | nil => exact .nil
    | cons b bs => simp at hmap
  | cons a as ih =>
    cases bs with
    | nil => simp at hmap
    | cons b bs =>
      obtain ⟨hhead, htail⟩ := List.cons.inj hmap
      refine .cons ?_ (ih (fun rt hrt => ha rt (by simp [hrt])) (fun rt hrt => hb rt (by simp [hrt]))
        htail)
      simp only [rankSeg, Coverage.Seg.map, RangeTombstone.toSeg, Coverage.Seg.mk.injEq,
        Prod.mk.injEq] at hhead
      refine ⟨?_, ?_, hhead.2.2.1, hhead.2.2.2⟩
      · rw [← h.compare_cutRank (ha a (by simp) _ (by simp [RangeTombstone.cuts]))
          (hb b (by simp) _ (by simp [RangeTombstone.cuts])), hhead.1]
        exact compare_eq_iff_eq.mpr rfl
      · rw [← h.compare_cutRank (ha a (by simp) _ (by simp [RangeTombstone.cuts]))
          (hb b (by simp) _ (by simp [RangeTombstone.cuts])), hhead.2.1]
        exact compare_eq_iff_eq.mpr rfl

/-- Ranges with equal cuts cover the same keys. -/
theorem KeysOrdered.covers_sameRange {as bs : List RangeTombstone}
    (h : KeysOrdered schema cks ranges) (ha : RangesIn cks ranges as) (hb : RangesIn cks ranges bs)
    {a b : RangeTombstone} (hra : a ∈ as) (hrb : b ∈ bs) (hsame : SameRange schema a b)
    {x : ClusteringKey} (hx : x ∈ cks) :
    rangeTombstoneCoversCk schema x a = true ↔ rangeTombstoneCoversCk schema x b = true := by
  have hlo := h.compare_cutRank (ha a hra (.ofStart a.startBound) (by simp [RangeTombstone.cuts]))
    (hb b hrb (.ofStart b.startBound) (by simp [RangeTombstone.cuts]))
  have hhi := h.compare_cutRank (ha a hra (.ofEnd a.endBound) (by simp [RangeTombstone.cuts]))
    (hb b hrb (.ofEnd b.endBound) (by simp [RangeTombstone.cuts]))
  rw [hsame.1, compare_eq_iff_eq] at hlo
  rw [hsame.2.1, compare_eq_iff_eq] at hhi
  rw [h.covers_iff ha hx hra, h.covers_iff hb hx hrb]
  simp only [Coverage.Covers, rankSeg, Coverage.Seg.map, RangeTombstone.toSeg, hlo, hhi]

/-- The ranges that repeated merges leave, each over what the one before left and a new batch. -/
def coalesceBatches (schema : TableSchema) (batches : List (List RangeTombstone)) :
    List RangeTombstone :=
  batches.foldl (fun known batch => coalescePartitionRangeTombstones schema (known ++ batch)) []

theorem KeysOrdered.foldl_coalesce {cks : List ClusteringKey} {ranges known done : List RangeTombstone}
    (h : KeysOrdered schema cks ranges) (hne : ∀ rt ∈ ranges, rt.NonEmpty schema)
    {batches : List (List RangeTombstone)} (hbatches : ∀ batch ∈ batches, ∀ rt ∈ batch, rt ∈ ranges)
    (hin : RangesIn cks ranges known) (hknown : ∀ rt ∈ known, rt.NonEmpty schema)
    (hcanonical : Coverage.Canonical (known.map (rankSeg schema cks ranges)))
    (hsame : Coverage.SameWeight deletionValue (known.map (rankSeg schema cks ranges))
      (done.map (rankSeg schema cks ranges))) :
    ∃ ts, ts = batches.foldl (fun known batch =>
        coalescePartitionRangeTombstones schema (known ++ batch)) known ∧
      RangesIn cks ranges ts ∧ Coverage.Canonical (ts.map (rankSeg schema cks ranges)) ∧
      Coverage.SameWeight deletionValue (ts.map (rankSeg schema cks ranges))
        ((done ++ batches.flatten).map (rankSeg schema cks ranges)) := by
  induction batches generalizing known done with
  | nil => exact ⟨_, rfl, hin, hcanonical, by simpa using hsame⟩
  | cons batch batches ih =>
    obtain ⟨hbatch, hbatches⟩ := List.forall_mem_cons.mp hbatches
    have hin' : RangesIn cks ranges (known ++ batch) := fun rt hrt =>
      (List.mem_append.mp hrt).elim (hin rt) (rangesIn_self cks hbatch rt)
    have hne' : ∀ rt ∈ known ++ batch, rt.NonEmpty schema := fun rt hrt =>
      (List.mem_append.mp hrt).elim (hknown rt) fun hrt => hne rt (hbatch rt hrt)
    rw [List.foldl_cons, List.flatten_cons, ← List.append_assoc]
    refine ih hbatches (coalesce_rangesIn hin') (h.coalesce_nonEmpty hin' hne')
      (h.canonical_coalesce hin' hne') ((h.sameWeight_coalesce hin').trans ?_)
    rw [List.map_append, List.map_append]
    exact hsame.append _

/-- Merging in batches, in any order, leaves the ranges of merging everything at once. -/
theorem coalesce_in_batches (schema : TableSchema) (types : Nat → ValueType)
    (batches : List (List RangeTombstone)) (ranges : List RangeTombstone)
    (hperm : batches.flatten.Perm ranges) (hfits : ∀ rt ∈ ranges, rt.Fits schema types)
    (hne : ∀ rt ∈ ranges, rt.NonEmpty schema) :
    List.Forall₂ (SameRange schema) (coalesceBatches schema batches)
      (coalescePartitionRangeTombstones schema ranges) := by
  have h : KeysOrdered schema [] ranges := keysOrdered_of_fits (by simp) hfits
  have hself : RangesIn [] ranges ranges := rangesIn_self [] fun _ hrt => hrt
  have hmem : ∀ batch ∈ batches, ∀ rt ∈ batch, rt ∈ ranges := fun batch hbatch rt hrt =>
    hperm.subset (List.mem_flatten_of_mem hbatch hrt)
  obtain ⟨ts, hts, hin, hcanonical, hsame⟩ := @KeysOrdered.foldl_coalesce _ _ [] ranges [] [] h hne _
    hmem (by simp [RangesIn]) (by simp) ⟨⟨by simp, by simp⟩, by simp⟩ fun _ _ => Iff.rfl
  have hflat : Coverage.SameWeight deletionValue
      (([] ++ batches.flatten).map (rankSeg schema [] ranges))
      (ranges.map (rankSeg schema [] ranges)) := fun x w => by
    simp only [Coverage.WeightAt, (hperm.map (rankSeg schema [] ranges)).mem_iff, List.nil_append]
  rw [coalesceBatches, ← hts]
  exact h.forall₂_sameRange hin (KeysOrdered.coalesce_rangesIn hself)
    (hcanonical.eq_of_sameWeight (h.canonical_coalesce hself hne)
      ((hsame.trans hflat).trans (h.sameWeight_coalesce hself).symm))

namespace TracksRanges

variable {rts : List KeyedRange} {known : List RangeTombstone}

theorem nil : TracksRanges schema key seg [] [] :=
  ⟨by simp, [], rfl, fun _ h => by simp at h, by simp, fun _ _ => Iff.rfl⟩

/-- A marker is added on both sides. -/
theorem push (h : TracksRanges schema key seg rts known) (hrt : rt ∈ partitionRanges seg)
    (hne : rt.NonEmpty schema) :
    TracksRanges schema key seg (rts ++ [(key, rt)]) (known ++ [rt]) := by
  obtain ⟨ts, rfl, hin, hts, hsame⟩ := h.exists_ranges
  refine ⟨fun x hx => ?_, ts ++ [rt], by simp, fun x hx => ?_, fun x hx => ?_, ?_⟩
  · rcases List.mem_append.mp hx with hx | hx
    · exact h.known_mem x hx
    · rwa [List.mem_singleton.mp hx]
  · rcases List.mem_append.mp hx with hx | hx
    · exact hin x hx
    · exact rangesIn_self _ (fun _ hy => List.mem_singleton.mp hy ▸ hrt) x hx
  · rcases List.mem_append.mp hx with hx | hx
    · exact hts x hx
    · rwa [List.mem_singleton.mp hx]
  · rw [List.map_append, List.map_append]
    exact hsame.append _

/-- Coalescing the accumulator changes nothing. -/
theorem coalesce (hkeys : KeysOrdered schema (rowKeys seg) (partitionRanges seg))
    (h : TracksRanges schema key seg rts known) :
    TracksRanges schema key seg (coalesceRangeTombstones schema rts) known := by
  obtain ⟨ts, rfl, hin, hts, hsame⟩ := h.exists_ranges
  rw [coalesceRangeTombstones_partition]
  exact ⟨h.known_mem, _, rfl, KeysOrdered.coalesce_rangesIn hin, hkeys.coalesce_nonEmpty hin hts,
    (hkeys.sameWeight_coalesce hin).trans hsame⟩

/-- The accumulator is empty exactly as long as no marker has arrived. -/
theorem eq_nil_iff (hseg : SegmentInput schema key seg) (h : TracksRanges schema key seg rts known) :
    rts = [] ↔ known = [] := by
  obtain ⟨ts, rfl, hin, hts, hsame⟩ := h.exists_ranges
  have hkeys := hseg.partition.keys
  -- a non-empty range has a weight in force at its start, so neither side can be empty alone
  have hpos : ∀ {xs ys : List RangeTombstone}, RangesIn (rowKeys seg) (partitionRanges seg) xs →
      (∀ rt ∈ xs, rt.NonEmpty schema) →
      Coverage.SameWeight deletionValue
        (xs.map (rankSeg schema (rowKeys seg) (partitionRanges seg)))
        (ys.map (rankSeg schema (rowKeys seg) (partitionRanges seg))) → ys = [] → xs = [] := by
    intro xs ys hxs hne hxy hys
    cases xs with
    | nil => rfl
    | cons rt xs =>
      have hlt := (hkeys.rankSeg_lt hxs (by simp)).mp (hne rt (by simp))
      obtain ⟨w, hw, -⟩ : ∃ w, Coverage.WeightAt deletionValue
          ((rt :: xs).map (rankSeg schema (rowKeys seg) (partitionRanges seg)))
          (rankSeg schema (rowKeys seg) (partitionRanges seg) rt).lo w ∧ _ :=
        Coverage.exists_weightAt (List.mem_map_of_mem List.mem_cons_self) ⟨le_rfl, hlt⟩
      rw [hxy, hys] at hw
      obtain ⟨i, hi, -⟩ := hw
      simp at hi
  rw [List.map_eq_nil_iff]
  refine ⟨hpos (rangesIn_self _ h.known_mem) (fun rt hrt => hseg.nonEmpty (h.known_mem rt hrt)) hsame.symm,
    hpos hin hts hsame⟩

/-- The accumulator shadows a row of the partition as the known ranges do. -/
theorem applyRangeShadowing_eq (hkeys : KeysOrdered schema (rowKeys seg) (partitionRanges seg))
    (h : TracksRanges schema key seg rts known) {e : MergeEntry} (hkey : e.key = key)
    (hck : ∀ ck ∈ e.clusteringKey, ck ∈ rowKeys seg) :
    applyRangeShadowing schema (coalesceRangeTombstones schema rts) e =
      applyRangeShadowing schema (keyedRanges schema key known) e := by
  obtain ⟨ts, rfl, hin, -, hsame⟩ := h.exists_ranges
  rw [Cqlite.applyRangeShadowing_eq, Cqlite.applyRangeShadowing_eq, hkey,
    coalesceRangeTombstones_partition]
  congr 1
  cases hk : e.clusteringKey with
  | none => rfl
  | some ck =>
    have hmem := hck ck (by rw [hk]; rfl)
    simp only [rowRangeFloor, Option.bind_some, keyedRanges]
    refine Option.ext fun f => ?_
    rw [hkeys.rangeFloor_eq_some hin key hmem,
      hkeys.rangeFloor_eq_some (rangesIn_self _ h.known_mem) key hmem]
    simp only [hsame _ _]

/-- At the end both coalesced forms are the same sequence of ranges. -/
theorem forall₂_coalesce (hseg : SegmentInput schema key seg)
    (h : TracksRanges schema key seg rts known) :
    List.Forall₂ (fun a b : KeyedRange => a.1 = b.1 ∧ SameRange schema a.2 b.2)
      (coalesceRangeTombstones schema rts) (keyedRanges schema key known) := by
  obtain ⟨ts, rfl, hin, hts, hsame⟩ := h.exists_ranges
  have hkeys := hseg.partition.keys
  have hin' := rangesIn_self (rowKeys seg) h.known_mem
  have hmap := (hkeys.canonical_coalesce hin hts).eq_of_sameWeight
    (hkeys.canonical_coalesce hin' fun rt hrt => hseg.nonEmpty (h.known_mem rt hrt))
    (((hkeys.sameWeight_coalesce hin).trans hsame).trans (hkeys.sameWeight_coalesce hin').symm)
  have hsame' := hkeys.forall₂_sameRange (KeysOrdered.coalesce_rangesIn hin)
    (KeysOrdered.coalesce_rangesIn hin') hmap
  rw [coalesceRangeTombstones_partition, keyedRanges, List.forall₂_map_left_iff,
    List.forall₂_map_right_iff]
  exact hsame'.imp fun _ _ hab => ⟨rfl, hab⟩

end TracksRanges

end Tracking

/-- Two overlapping ranges, the second one merged first. -/
theorem overlappingRanges_in_batches : List.Forall₂ (SameRange descendingTable)
    (coalesceBatches descendingTable (overlappingRanges.reverse.map fun rt => [rt]))
    (coalescePartitionRangeTombstones descendingTable overlappingRanges) :=
  coalesce_in_batches descendingTable (fun _ => .integer) _ overlappingRanges
    (List.Perm.swap _ _ []) overlappingRanges_fit (by unfold RangeTombstone.NonEmpty; decide)

end Cqlite
