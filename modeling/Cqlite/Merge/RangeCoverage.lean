import Cqlite.Lib.BinarySearch
import Cqlite.Merge.KeyTypes
import Cqlite.Merge.PartitionSpec

/-! What coalescing the range tombstones of a partition keeps, and how a row is looked up in the
    result (`coalesce_partition_range_tombstones`, `range_end_before_ck`, `apply_range_shadowing`).

    For the keys of one table the coalesced ranges are a sorted, disjoint sequence with the same
    newest deletion at every row, coalescing them again changes nothing, and the binary search of
    `apply_range_shadowing` finds the range that covers a row. -/

namespace Cqlite

variable {ck : ClusteringKey} {rts : List RangeTombstone}

section Coalesced

variable [DebugFmt] {schema : TableSchema} {types : Nat → ValueType}

/-! ### The coalesced sequence -/

omit [DebugFmt] in
theorem pairwise_of_two_le {α : Type*} {R : α → α → Prop} {l : List α}
    (h : 2 ≤ l.length → l.Pairwise R) : l.Pairwise R := by
  match l, h with
  | [], _ => exact List.Pairwise.nil
  | [a], _ => exact List.pairwise_singleton _ _
  | a :: b :: rest, h => exact h (by simp)

namespace KeysOrdered

variable {cks : List ClusteringKey} {ranges : List RangeTombstone}

section

variable (h : KeysOrdered schema cks ranges) (hin : RangesIn cks ranges rts)

include h hin

/-- Two or more coalesced ranges are non-empty and follow each other. -/
theorem disjoint_coalesce (hlen : 2 ≤ (coalescePartitionRangeTombstones schema rts).length) :
    Coverage.Disjoint
      ((coalescePartitionRangeTombstones schema rts).map (rankSeg schema cks ranges)) := by
  have hrts : ¬ rts.length ≤ 1 := fun hle => by
    rw [coalescePartitionRangeTombstones, if_pos hle] at hlen
    omega
  rw [h.map_rankSeg_coalesce hin hrts]
  exact (Coverage.coalesce_canonical _).toDisjoint

/-- Start cuts increase along the coalesced ranges, and each range ends before the next starts. -/
theorem pairwise_coalesce :
    (coalescePartitionRangeTombstones schema rts).Pairwise fun a b =>
      RangeCut.cmp schema (.ofStart a.startBound) (.ofStart b.startBound) = .lt ∧
        RangeCut.cmp schema (.ofEnd a.endBound) (.ofStart b.startBound) ≠ .gt := by
  have hout : RangesIn cks ranges (coalescePartitionRangeTombstones schema rts) :=
    coalesce_rangesIn hin
  refine pairwise_of_two_le fun hlen => ?_
  have hdis := h.disjoint_coalesce hin hlen
  refine (List.pairwise_map.mp hdis.ordered).imp_of_mem fun {a b} ha hb hab => ?_
  have hne := hdis.nonempty _ (List.mem_map_of_mem ha)
  have hsa := hout a ha (.ofStart a.startBound) (by simp [RangeTombstone.cuts])
  have hea := hout a ha (.ofEnd a.endBound) (by simp [RangeTombstone.cuts])
  have hsb := hout b hb (.ofStart b.startBound) (by simp [RangeTombstone.cuts])
  rw [← h.compare_cutRank hsa hsb, ← h.compare_cutRank hea hsb, compare_lt_iff_lt, ne_eq,
    compare_gt_iff_gt, not_lt]
  exact ⟨lt_of_lt_of_le hne hab, hab⟩

theorem filter_covers_coalesce (hck : ck ∈ cks) {rt : RangeTombstone}
    (hrt : rt ∈ coalescePartitionRangeTombstones schema rts)
    (hcov : rangeTombstoneCoversCk schema ck rt = true) :
    (coalescePartitionRangeTombstones schema rts).filter (rangeTombstoneCoversCk schema ck) = [rt] := by
  have hout : RangesIn cks ranges (coalescePartitionRangeTombstones schema rts) :=
    coalesce_rangesIn hin
  have hord := List.pairwise_map.mp (h.inOrder_coalesce hin)
  have hcovers := fun {r : RangeTombstone} (hr : r ∈ coalescePartitionRangeTombstones schema rts) =>
    h.covers_iff hout hck hr
  have hfilter : ((coalescePartitionRangeTombstones schema rts).filter
      (rangeTombstoneCoversCk schema ck)).Pairwise fun _ _ => False := by
    refine (hord.sublist List.filter_sublist).imp_of_mem fun {a b} ha hb hab => ?_
    obtain ⟨ha, hca⟩ := List.mem_filter.mp ha
    obtain ⟨hb, hcb⟩ := List.mem_filter.mp hb
    have hlt := ((hcovers ha).mp hca).2
    have hle := ((hcovers hb).mp hcb).1
    exact absurd (lt_of_lt_of_le hlt (hab.trans hle)) (lt_irrefl _)
  have hmem : rt ∈ (coalescePartitionRangeTombstones schema rts).filter
      (rangeTombstoneCoversCk schema ck) := List.mem_filter.mpr ⟨hrt, hcov⟩
  generalize (coalescePartitionRangeTombstones schema rts).filter
    (rangeTombstoneCoversCk schema ck) = covering at hfilter hmem
  match covering, hfilter, hmem with
  | [a], _, hmem => rw [List.mem_singleton.mp hmem]
  | a :: b :: rest, hfilter, _ => exact ((List.pairwise_cons.mp hfilter).1 b (by simp)).elim

/-- A coalesced range covers a row exactly when it carries the newest deletion covering it. -/
theorem exists_covering_coalesce (hck : ck ∈ cks) {d : Int} :
    (∃ rt ∈ coalescePartitionRangeTombstones schema rts,
        rangeTombstoneCoversCk schema ck rt = true ∧ rt.deletionTime = d) ↔
      ((rts.filter (rangeTombstoneCoversCk schema ck)).map (·.deletionTime)).max? = some d := by
  have hfloor := h.rangeFloor_eq_some hin ⟨0, []⟩ hck (f := d)
  rw [rangeFloor_partition, h.lookup_eq_some (coalesce_rangesIn hin) (h.inOrder_coalesce hin) hck]
    at hfloor
  rw [hfloor, List.max?_eq_some_iff]
  simp only [List.mem_map, List.mem_filter]
  constructor
  · rintro ⟨w, ⟨_, hseg, hcov, rfl, hmax⟩, rfl⟩
    obtain ⟨rt, hrt, rfl⟩ := List.mem_map.mp hseg
    refine ⟨⟨rt, ⟨hrt, (h.covers_iff hin hck hrt).mpr hcov⟩, rfl⟩, ?_⟩
    rintro _ ⟨rt', ⟨hrt', hcov'⟩, rfl⟩
    exact Prod.Lex.monotone_fst _ _
      (hmax _ (List.mem_map_of_mem hrt') ((h.covers_iff hin hck hrt').mp hcov'))
  · rintro ⟨⟨rt, ⟨hrt, hcov⟩, rfl⟩, hmax⟩
    obtain ⟨w, hw, hle⟩ := h.exists_weightAt hin hck hrt hcov
    refine ⟨w, hw, le_antisymm ?_ hle⟩
    obtain ⟨_, hseg, hcov', rfl, -⟩ := hw
    obtain ⟨rt', hrt', rfl⟩ := List.mem_map.mp hseg
    exact hmax _ ⟨rt', ⟨hrt', (h.covers_iff hin hck hrt').mpr hcov'⟩, rfl⟩

/-- The newest deletion covering a row is the deletion of the coalesced range covering it. -/
theorem covering_coalesce (hck : ck ∈ cks) :
    ((coalescePartitionRangeTombstones schema rts).filter (rangeTombstoneCoversCk schema ck)).map
        (·.deletionTime) =
      ((rts.filter (rangeTombstoneCoversCk schema ck)).map (·.deletionTime)).max?.toList := by
  have hiff := fun {d : Int} => h.exists_covering_coalesce hin hck (d := d)
  cases hmax : ((rts.filter (rangeTombstoneCoversCk schema ck)).map (·.deletionTime)).max? with
  | some d =>
    obtain ⟨rt, hrt, hcov, rfl⟩ := hiff.mpr hmax
    rw [h.filter_covers_coalesce hin hck hrt hcov]
    rfl
  | none =>
    rw [Option.toList_none, List.map_eq_nil_iff, List.filter_eq_nil_iff]
    intro rt hrt hcov
    have hsome := hiff.mp ⟨rt, hrt, hcov, rfl⟩
    rw [hmax] at hsome
    cases hsome

theorem coalesce_idem :
    coalescePartitionRangeTombstones schema (coalescePartitionRangeTombstones schema rts) =
      coalescePartitionRangeTombstones schema rts := by
  by_cases hout : (coalescePartitionRangeTombstones schema rts).length ≤ 1
  · generalize coalescePartitionRangeTombstones schema rts = out at hout
    rw [coalescePartitionRangeTombstones, if_pos hout]
  · have hlen : ¬ rts.length ≤ 1 := fun hle => hout (by
      rw [coalescePartitionRangeTombstones, if_pos hle]
      exact hle)
    have htwice := Coverage.coalesce_coalesce deletionBetter_iff deletionValue_injective
      (fun a ha b hb => h.compare_cutRank ha hb) (cutsIn_toSeg hin)
    have hseg : RangeTombstone.toSeg ∘ RangeTombstone.ofSeg = id := by
      funext seg
      exact toSeg_ofSeg seg
    conv_lhs => rw [coalescePartitionRangeTombstones, if_neg hout]
    rw [coalescePartitionRangeTombstones, if_neg hlen, List.map_map, hseg, List.map_id, htwice]

end

end KeysOrdered

/-- **Coalescing preserves coverage.** The result is sorted and disjoint on the clustering axis; at
    every row at most one range covers, exactly when an input range does, with the newest deletion
    time of the covering input ranges; and coalescing again leaves it unchanged. -/
theorem coalesce_preserves_coverage (schema : TableSchema) (types : Nat → ValueType)
    (ranges : List RangeTombstone) (h : ∀ rt ∈ ranges, rt.Fits schema types) :
    ((coalescePartitionRangeTombstones schema ranges).Pairwise fun a b =>
      RangeCut.cmp schema (.ofStart a.startBound) (.ofStart b.startBound) = .lt ∧
        RangeCut.cmp schema (.ofEnd a.endBound) (.ofStart b.startBound) ≠ .gt) ∧
    (∀ ck : ClusteringKey, ck.Full schema types →
      ((coalescePartitionRangeTombstones schema ranges).filter
          (rangeTombstoneCoversCk schema ck)).map (·.deletionTime) =
        ((ranges.filter (rangeTombstoneCoversCk schema ck)).map (·.deletionTime)).max?.toList) ∧
    coalescePartitionRangeTombstones schema (coalescePartitionRangeTombstones schema ranges) =
      coalescePartitionRangeTombstones schema ranges := by
  have hkeys : KeysOrdered schema [] ranges := keysOrdered_of_fits (by simp) h
  refine ⟨hkeys.pairwise_coalesce (rangesIn_self _ fun _ h => h), fun ck hck => ?_,
    hkeys.coalesce_idem (rangesIn_self _ fun _ h => h)⟩
  have hkey : KeysOrdered schema [ck] ranges := keysOrdered_of_fits (by simpa using hck) h
  exact hkey.covering_coalesce (rangesIn_self _ fun _ h => h) (by simp)

end Coalesced

/-- Two overlapping ranges of the descending table: `8 > c >= 3` and everything from `5` down. -/
def overlappingRanges : List RangeTombstone :=
  [⟨.exclusive (integerKey 8), .inclusive (integerKey 3), 10, 1⟩,
    ⟨.inclusive (integerKey 5), .top, 20, 2⟩]

theorem overlappingRanges_fit : ∀ rt ∈ overlappingRanges, rt.Fits descendingTable fun _ => .integer := by
  intro rt hrt c hc
  simp only [overlappingRanges, List.mem_cons, List.not_mem_nil, or_false] at hrt
  rcases hrt with rfl | rfl <;> rcases List.mem_cons.mp hc with rfl | hc
  · exact integerKey_fits 8
  · rw [List.mem_singleton.mp hc]
    exact integerKey_fits 3
  · exact integerKey_fits 5
  · rw [List.mem_singleton.mp hc]
    trivial

/-- Two overlapping ranges. -/
theorem overlappingRanges_coalesced :
    (coalescePartitionRangeTombstones descendingTable (coalescePartitionRangeTombstones
        descendingTable overlappingRanges) =
      coalescePartitionRangeTombstones descendingTable overlappingRanges) ∧
    ((coalescePartitionRangeTombstones descendingTable overlappingRanges).filter
      (rangeTombstoneCoversCk descendingTable (integerKey 4))).map (·.deletionTime) =
      ((overlappingRanges.filter (rangeTombstoneCoversCk descendingTable (integerKey 4))).map
        (·.deletionTime)).max?.toList := by
  obtain ⟨-, hcover, hidem⟩ := coalesce_preserves_coverage descendingTable (fun _ => .integer)
    overlappingRanges overlappingRanges_fit
  exact ⟨hidem, hcover (integerKey 4) (integerKey_full 4)⟩

/-! ### The binary search -/

section Search

variable [DebugFmt] {schema : TableSchema}

/-- The floor as `apply_range_shadowing` computes it: `partition_point` on a slice that is one
    partition, the exact scan otherwise. -/
def rangeFloorBySearch (schema : TableSchema) (key : DecoratedKey) (ck : ClusteringKey)
    (rts : List KeyedRange) : Option Int :=
  let singlePartition := match rts.head?, rts.getLast? with
    | some first, some last => first.1.key = key.key && last.1.key = key.key
    | _, _ => false
  if singlePartition then
    (rts[BinarySearch.partitionPoint (fun r => rangeEndBeforeCk schema ck r.2) rts]?.filter
      (coversRow schema key ck)).map (·.2.deletionTime)
  else
    ((rts.filter (coversRow schema key ck)).map (·.2.deletionTime)).max?

/-- Where the predicate is monotone the search finds the range that a scan from the left finds. -/
theorem rangeFloorBySearch_eq_rangeFloor {key : DecoratedKey} {rts : List KeyedRange}
    (h : BinarySearch.Partitioned (fun r : KeyedRange => rangeEndBeforeCk schema ck r.2) rts) :
    rangeFloorBySearch schema key ck rts = rangeFloor schema key ck rts := by
  rw [rangeFloorBySearch, BinarySearch.getElem?_partitionPoint h]
  rfl

/-- Along coalesced ranges, a range that ends before the row is preceded by such ranges only. -/
theorem KeysOrdered.partitioned_coalesce {cks : List ClusteringKey} {ranges : List RangeTombstone}
    (h : KeysOrdered schema cks ranges) (hin : RangesIn cks ranges rts) (hck : ck ∈ cks) :
    BinarySearch.Partitioned (rangeEndBeforeCk schema ck)
      (coalescePartitionRangeTombstones schema rts) := by
  have hout : RangesIn cks ranges (coalescePartitionRangeTombstones schema rts) :=
    coalesce_rangesIn hin
  refine pairwise_of_two_le fun hlen => ?_
  have hdis := h.disjoint_coalesce hin hlen
  refine (List.pairwise_map.mp hdis.ordered).imp_of_mem fun {a b} ha hb hab hend => ?_
  rw [h.endBefore_iff hout hck ha]
  have hb' := (h.endBefore_iff hout hck hb).mp hend
  exact hab.trans ((hdis.nonempty _ (List.mem_map_of_mem hb)).le.trans hb')

omit [DebugFmt] in
/-- Ranges of one partition form one group, under the key seen first. -/
theorem groupRangesByKey_sameBytes {first : KeyedRange} {rest : List KeyedRange}
    (h : ∀ r ∈ rest, r.1.key = first.1.key) :
    groupRangesByKey (first :: rest) = [(first.1, (first :: rest).map (·.2))] := by
  induction rest using List.reverseRecOn with
  | nil => rfl
  | append_singleton rest r ih =>
    have hr : first.1.key = r.1.key := (h r (by simp)).symm
    have ih := ih fun x hx => h x (by simp [hx])
    rw [groupRangesByKey, ← List.cons_append, List.foldl_append]
    rw [groupRangesByKey] at ih
    rw [ih]
    simp [groupRangesByKey.insert, hr]

theorem KeysOrdered.rangeFloorBySearch_eq {cks : List ClusteringKey} {ranges : List RangeTombstone}
    (h : KeysOrdered schema cks ranges) (hin : RangesIn cks ranges rts) (hck : ck ∈ cks)
    {key seen : DecoratedKey} (hkey : seen.key = key.key) :
    rangeFloorBySearch schema key ck
        ((coalescePartitionRangeTombstones schema rts).map fun rt => (seen, rt)) =
      (((coalescePartitionRangeTombstones schema rts).filter
        (rangeTombstoneCoversCk schema ck)).map (·.deletionTime)).max? := by
  have hout : RangesIn cks ranges (coalescePartitionRangeTombstones schema rts) :=
    coalesce_rangesIn hin
  have hpart := h.partitioned_coalesce hin hck
  have hmax := fun d => h.exists_covering_coalesce hout hck (d := d)
  rw [h.coalesce_idem hin] at hmax
  have hlook := fun d => h.lookup_eq_some hout (h.inOrder_coalesce hin) hck (f := d)
  generalize coalescePartitionRangeTombstones schema rts = out at *
  have hkeyed : BinarySearch.Partitioned (fun r : KeyedRange => rangeEndBeforeCk schema ck r.2)
      (out.map fun rt => (seen, rt)) := List.pairwise_map.mpr hpart
  have hdrop : (out.map fun rt => (seen, rt)).dropWhile (fun r => rangeEndBeforeCk schema ck r.2) =
      (out.dropWhile (rangeEndBeforeCk schema ck)).map fun rt => (seen, rt) := List.dropWhile_map ..
  rw [rangeFloorBySearch_eq_rangeFloor hkeyed]
  have hcovers : ∀ rt, coversRow schema key ck (seen, rt) = rangeTombstoneCoversCk schema ck rt :=
    fun rt => by simp [coversRow, hkey]
  cases out with
  | nil => rfl
  | cons rt out =>
    have hlast : ((rt :: out).map fun rt => (seen, rt)).getLast? =
        some (seen, (rt :: out).getLast (by simp)) := by
      rw [List.getLast?_map, List.getLast?_eq_some_getLast (by simp), Option.map_some]
    simp only [rangeFloor, hlast, hdrop, List.head?_map]
    refine Option.ext fun d => ?_
    rw [← hmax d, ← hlook d]
    simp only [List.head?_cons, Option.map_some, hkey, decide_true, Bool.and_self, if_true]
    cases ((rt :: out).dropWhile (rangeEndBeforeCk schema ck)).head? with
    | none => rfl
    | some found =>
      simp only [Option.map_some, Option.filter_some, hcovers]
      split <;> rfl

/-- **The searched floor is the naive one.** On the ranges that coalescing leaves for a partition,
    `partition_point` with the one containment check gives the newest deletion covering the row. -/
theorem search_floor_eq_max (schema : TableSchema) (types : Nat → ValueType) (key : DecoratedKey)
    (ck : ClusteringKey) (rts : List KeyedRange) (hck : ck.Full schema types)
    (hkey : ∀ r ∈ rts, r.1.key = key.key) (hrts : ∀ r ∈ rts, r.2.Fits schema types) :
    rangeFloorBySearch schema key ck (coalesceRangeTombstones schema rts) =
      (((coalesceRangeTombstones schema rts).filter (coversRow schema key ck)).map
        (·.2.deletionTime)).max? := by
  cases rts with
  | nil => rfl
  | cons first rest =>
    have hfirst : first.1.key = key.key := hkey first (by simp)
    have hsame : ∀ r ∈ rest, r.1.key = first.1.key := fun r hr =>
      (hkey r (by simp [hr])).trans hfirst.symm
    have hkeys : KeysOrdered schema [ck] ((first :: rest).map (·.2)) :=
      keysOrdered_of_fits (by simpa using hck) fun rt hrt => by
        obtain ⟨r, hr, rfl⟩ := List.mem_map.mp hrt
        exact hrts r hr
    have hcoal : coalesceRangeTombstones schema (first :: rest) =
        (coalescePartitionRangeTombstones schema ((first :: rest).map (·.2))).map
          fun rt => (first.1, rt) := by
      rw [coalesceRangeTombstones, groupRangesByKey_sameBytes hsame]
      simp
    rw [hcoal, hkeys.rangeFloorBySearch_eq (rangesIn_self _ fun _ h => h) (by simp) hfirst,
      List.filter_map, List.map_map]
    have hcovers : (coversRow schema key ck ∘ fun rt => (first.1, rt)) =
        rangeTombstoneCoversCk schema ck := by
      funext rt
      simp [coversRow, hfirst]
    rw [hcovers]
    rfl

end Search

/-- The floor of the row `c = 4` under the overlapping ranges. -/
theorem overlappingRanges_floor :
    (integerKey 4).Full descendingTable (fun _ => .integer) ∧
    rangeFloorBySearch descendingTable ⟨0, [1]⟩ (integerKey 4)
        (coalesceRangeTombstones descendingTable (overlappingRanges.map fun rt => (⟨0, [1]⟩, rt))) =
      (((coalesceRangeTombstones descendingTable
        (overlappingRanges.map fun rt => (⟨0, [1]⟩, rt))).filter
          (coversRow descendingTable ⟨0, [1]⟩ (integerKey 4))).map (·.2.deletionTime)).max? := by
  refine ⟨integerKey_full 4, search_floor_eq_max descendingTable (fun _ => .integer) ⟨0, [1]⟩
    (integerKey 4) _ (integerKey_full 4) ?_ ?_⟩
  · intro r hr
    obtain ⟨rt, -, rfl⟩ := List.mem_map.mp hr
    rfl
  · intro r hr
    obtain ⟨rt, hrt, rfl⟩ := List.mem_map.mp hr
    exact overlappingRanges_fit rt hrt

end Cqlite
