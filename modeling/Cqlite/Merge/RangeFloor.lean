import Cqlite.Lib.Rank
import Cqlite.Merge.ShadowSpec

/-! The range floor of a row is the newest deletion covering it.

    The code looks a row up in the coalesced ranges by cut positions. On the keys of one partition
    the cut comparison is a total order, so cuts can be replaced by their ranks, a row by the cut
    just before it, and the lookup by a point query on intervals of natural numbers. -/

namespace Cqlite

/-! ### Rows as cut positions -/

/-- The cut just before a row. -/
def rowCut (ck : ClusteringKey) : RangeCut := .atKey ck false

/-- The number of components a cut fixes. -/
def RangeCut.arity : RangeCut → Nat
  | .atKey ck _ => ck.columns.length
  | .bottom => 0
  | .top => 0

/-- The two cuts of a range. -/
def RangeTombstone.cuts (rt : RangeTombstone) : List RangeCut :=
  [.ofStart rt.startBound, .ofEnd rt.endBound]

variable {ck : ClusteringKey} {ranges rts : List RangeTombstone}

theorem truncate_of_le {n : Nat} (h : ck.columns.length ≤ n) : ck.truncate n = ck := by
  simp [ClusteringKey.truncate, List.take_of_length_le h]

section Order

variable [DebugFmt] (schema : TableSchema)

/-- A row against the cut at a bound key: the components decide, then the side of the cut. -/
theorem cmp_rowCut {b : ClusteringKey} (h : b.columns.length ≤ ck.columns.length) (after : Bool) :
    RangeCut.cmp schema (rowCut ck) (.atKey b after) =
      match cmpBound schema ck b with
      | .eq => if after then .lt else
          if ck.columns.length = b.columns.length then .eq else .gt
      | ord => ord := by
  simp only [RangeCut.cmp, rowCut, cmpBound, min_eq_right h, truncate_of_le (le_refl _)]
  cases ClusteringKey.schemaCmp schema (ck.truncate b.columns.length) b with
  | lt => rfl
  | gt => rfl
  | eq =>
    rcases h.lt_or_eq with hlt | heq
    · have hgt : compare ck.columns.length b.columns.length = .gt := compare_gt_iff_gt.mpr hlt
      simp only [hgt, if_neg (Nat.ne_of_gt hlt)]
    · simp only [heq, compare_eq_iff_eq.mpr, if_true]
      cases after <;> rfl

theorem afterStart_iff {b : ClusteringBound} (h : (RangeCut.ofStart b).arity ≤ ck.columns.length) :
    afterStart schema ck b = true ↔ RangeCut.cmp schema (rowCut ck) (.ofStart b) ≠ .lt := by
  cases b with
  | inclusive b =>
    rw [RangeCut.ofStart, cmp_rowCut schema h]
    simp only [afterStart, bne_iff_ne]
    cases cmpBound schema ck b <;> grind
  | exclusive b =>
    rw [RangeCut.ofStart, cmp_rowCut schema h]
    simp only [afterStart]
    cases cmpBound schema ck b <;> simp
  | bottom => simp [afterStart, RangeCut.ofStart, RangeCut.cmp, rowCut]
  | top => simp [afterStart, RangeCut.ofStart, RangeCut.cmp, rowCut]

theorem beforeEnd_iff {b : ClusteringBound} (h : (RangeCut.ofEnd b).arity ≤ ck.columns.length) :
    beforeEnd schema ck b = true ↔ RangeCut.cmp schema (rowCut ck) (.ofEnd b) = .lt := by
  cases b with
  | inclusive b =>
    rw [RangeCut.ofEnd, cmp_rowCut schema h]
    simp only [beforeEnd, bne_iff_ne]
    cases cmpBound schema ck b <;> simp
  | exclusive b =>
    rw [RangeCut.ofEnd, cmp_rowCut schema h]
    simp only [beforeEnd]
    cases cmpBound schema ck b <;> grind
  | bottom => simp [beforeEnd, RangeCut.ofEnd, RangeCut.cmp, rowCut]
  | top => simp [beforeEnd, RangeCut.ofEnd, RangeCut.cmp, rowCut]

theorem rangeEndBeforeCk_eq (ck : ClusteringKey) (rt : RangeTombstone) :
    rangeEndBeforeCk schema ck rt = !beforeEnd schema ck rt.endBound := by
  unfold rangeEndBeforeCk beforeEnd
  cases rt.endBound with
  | inclusive b => simp [bne]
  | exclusive b => simp [bne]
  | bottom => rfl
  | top => rfl

/-! ### The keys of a partition -/

/-- The row cuts and range cuts that occur together. -/
def occurringCuts (cks : List ClusteringKey) (ranges : List RangeTombstone) : List RangeCut :=
  cks.map rowCut ++ ranges.flatMap RangeTombstone.cuts

/-- What the reader guarantees of the keys of a partition: rows have every clustering component,
    bounds at most that many, and components of one column have one type, so that `cut_cmp` orders
    the cuts. -/
@[mk_iff]
structure KeysOrdered (cks : List ClusteringKey) (ranges : List RangeTombstone) : Prop where
  rowArity : ∀ ck ∈ cks, ck.columns.length = schema.clusteringKeys.length
  boundArity : ∀ rt ∈ ranges, ∀ c ∈ rt.cuts, c.arity ≤ schema.clusteringKeys.length
  total : Rank.TotalOn (RangeCut.cmp schema) (occurringCuts cks ranges)

instance {cks : List ClusteringKey} {ranges : List RangeTombstone} :
    Decidable (KeysOrdered schema cks ranges) :=
  decidable_of_iff _ (keysOrdered_iff schema cks ranges).symm

/-- A cut as its rank among the occurring ones. -/
def cutRank (cks : List ClusteringKey) (ranges : List RangeTombstone) : RangeCut → Nat :=
  Rank.rank (RangeCut.cmp schema) (occurringCuts cks ranges)

/-- A range as a weighted interval of ranks. -/
def rankSeg (cks : List ClusteringKey) (ranges : List RangeTombstone) (rt : RangeTombstone) :
    Coverage.Seg Nat Deletion := rt.toSeg.map (cutRank schema cks ranges)

end Order

/-- Deletions by `(markedForDeleteAt, localDeletionTime)`. -/
def deletionValue (d : Deletion) : Int ×ₗ Int := toLex d

theorem deletionValue_injective : Function.Injective deletionValue := fun _ _ h => toLex_inj.mp h

theorem deletionBetter_iff (b w : Deletion) :
    deletionBetter b w = true ↔ deletionValue w ≤ deletionValue b := by
  unfold deletionValue
  rw [Prod.Lex.toLex_le_toLex]
  simp only [deletionBetter, Bool.or_eq_true, Bool.and_eq_true, decide_eq_true_eq]
  constructor
  · rintro (h | ⟨h, h'⟩)
    · exact .inl h
    · exact .inr ⟨h.symm, h'⟩
  · rintro (h | ⟨h, h'⟩)
    · exact .inl h
    · exact .inr ⟨h.symm, h'⟩

/-! ### Ranges between occurring cuts -/

/-- The ranges run between occurring cuts. -/
def RangesIn (cks : List ClusteringKey) (ranges rts : List RangeTombstone) : Prop :=
  ∀ rt ∈ rts, ∀ c ∈ rt.cuts, c ∈ occurringCuts cks ranges

theorem rangesIn_self (cks : List ClusteringKey) (h : ∀ rt ∈ rts, rt ∈ ranges) :
    RangesIn cks ranges rts := fun rt hrt _ hc =>
  List.mem_append_right _ (List.mem_flatMap.mpr ⟨rt, h rt hrt, hc⟩)

theorem rowCut_mem {cks : List ClusteringKey} (hck : ck ∈ cks) :
    rowCut ck ∈ occurringCuts cks ranges :=
  List.mem_append_left _ (List.mem_map_of_mem hck)

theorem toSeg_ofSeg (seg : Coverage.Seg RangeCut Deletion) :
    (RangeTombstone.ofSeg seg).toSeg = seg := by
  simp [RangeTombstone.toSeg, RangeTombstone.ofSeg]

theorem cutsIn_toSeg {cks : List ClusteringKey} (hin : RangesIn cks ranges rts) :
    Coverage.CutsIn (· ∈ occurringCuts cks ranges) (rts.map RangeTombstone.toSeg) := by
  intro seg hseg
  obtain ⟨rt, hrt, rfl⟩ := List.mem_map.mp hseg
  exact ⟨hin rt hrt _ (by simp [RangeTombstone.cuts, RangeTombstone.toSeg]),
    hin rt hrt _ (by simp [RangeTombstone.cuts, RangeTombstone.toSeg])⟩

section Floor

variable [DebugFmt] {schema : TableSchema} {cks : List ClusteringKey} {ranges : List RangeTombstone}

namespace KeysOrdered

theorem arity_le (h : KeysOrdered schema cks ranges) {c : RangeCut}
    (hc : c ∈ occurringCuts cks ranges) : c.arity ≤ schema.clusteringKeys.length := by
  rcases List.mem_append.mp hc with hc | hc
  · obtain ⟨ck, hck, rfl⟩ := List.mem_map.mp hc
    exact (h.rowArity ck hck).le
  · obtain ⟨rt, hrt, hc⟩ := List.mem_flatMap.mp hc
    exact h.boundArity rt hrt c hc

theorem compare_cutRank (h : KeysOrdered schema cks ranges) {a b : RangeCut}
    (ha : a ∈ occurringCuts cks ranges) (hb : b ∈ occurringCuts cks ranges) :
    compare (cutRank schema cks ranges a) (cutRank schema cks ranges b) =
      RangeCut.cmp schema a b :=
  h.total.compare_rank ha hb

variable {rt : RangeTombstone}

/-- A range covers a row exactly when its interval contains the row's cut. -/
theorem covers_iff (h : KeysOrdered schema cks ranges) (hin : RangesIn cks ranges rts)
    (hck : ck ∈ cks) (hrt : rt ∈ rts) :
    rangeTombstoneCoversCk schema ck rt = true ↔
      Coverage.Covers (cutRank schema cks ranges (rowCut ck)) (rankSeg schema cks ranges rt) := by
  have hlo : RangeCut.ofStart rt.startBound ∈ occurringCuts cks ranges :=
    hin rt hrt _ (by simp [RangeTombstone.cuts])
  have hhi : RangeCut.ofEnd rt.endBound ∈ occurringCuts cks ranges :=
    hin rt hrt _ (by simp [RangeTombstone.cuts])
  have hx : rowCut ck ∈ occurringCuts cks ranges := rowCut_mem hck
  have hn := h.rowArity ck hck
  rw [rangeTombstoneCoversCk, Bool.and_eq_true, afterStart_iff schema (by rw [hn]; exact h.arity_le hlo),
    beforeEnd_iff schema (by rw [hn]; exact h.arity_le hhi), ← h.compare_cutRank hx hlo,
    ← h.compare_cutRank hx hhi, ne_eq, compare_lt_iff_lt, compare_lt_iff_lt, not_lt]
  rfl

theorem endBefore_iff (h : KeysOrdered schema cks ranges) (hin : RangesIn cks ranges rts)
    (hck : ck ∈ cks) (hrt : rt ∈ rts) :
    rangeEndBeforeCk schema ck rt = true ↔
      (rankSeg schema cks ranges rt).hi ≤ cutRank schema cks ranges (rowCut ck) := by
  have hhi : RangeCut.ofEnd rt.endBound ∈ occurringCuts cks ranges :=
    hin rt hrt _ (by simp [RangeTombstone.cuts])
  rw [rangeEndBeforeCk_eq, Bool.not_eq_true', ← Bool.not_eq_true,
    beforeEnd_iff schema (by rw [h.rowArity ck hck]; exact h.arity_le hhi),
    ← h.compare_cutRank (rowCut_mem hck) hhi, compare_lt_iff_lt, not_lt]
  rfl

/-! ### Coalescing on ranks -/

theorem coalesce_rangesIn (hin : RangesIn cks ranges rts) :
    RangesIn cks ranges (coalescePartitionRangeTombstones schema rts) := by
  unfold coalescePartitionRangeTombstones
  split
  · exact hin
  · intro rt hrt c hc
    obtain ⟨seg, hseg, rfl⟩ := List.mem_map.mp hrt
    obtain ⟨hlo, hhi⟩ := Coverage.coalesce_in (cutsIn_toSeg hin) seg hseg
    simp only [RangeTombstone.cuts, RangeTombstone.ofSeg, RangeCut.ofStart_toStartBound,
      RangeCut.ofEnd_toEndBound, List.mem_cons, List.not_mem_nil, or_false] at hc
    rcases hc with rfl | rfl
    · exact hlo
    · exact hhi

theorem map_rankSeg_coalesce (h : KeysOrdered schema cks ranges) (hin : RangesIn cks ranges rts)
    (hlen : ¬ rts.length ≤ 1) :
    (coalescePartitionRangeTombstones schema rts).map (rankSeg schema cks ranges) =
      Coverage.coalesce compare deletionBetter (rts.map (rankSeg schema cks ranges)) := by
  have hmap : (Coverage.coalesce (RangeCut.cmp schema) deletionBetter
        (rts.map RangeTombstone.toSeg)).map (Coverage.Seg.map (cutRank schema cks ranges)) =
      Coverage.coalesce compare deletionBetter
        ((rts.map RangeTombstone.toSeg).map (Coverage.Seg.map (cutRank schema cks ranges))) :=
    Coverage.coalesce_map (fun a ha b hb => h.compare_cutRank ha hb) (cutsIn_toSeg hin)
  rw [coalescePartitionRangeTombstones, if_neg hlen, List.map_map]
  have hseg : rankSeg schema cks ranges ∘ RangeTombstone.ofSeg =
      Coverage.Seg.map (cutRank schema cks ranges) := by
    funext seg
    simp [rankSeg, toSeg_ofSeg]
  rw [hseg, hmap, List.map_map]
  rfl

theorem inOrder_coalesce (h : KeysOrdered schema cks ranges) (hin : RangesIn cks ranges rts) :
    Coverage.InOrder
      ((coalescePartitionRangeTombstones schema rts).map (rankSeg schema cks ranges)) := by
  by_cases hlen : rts.length ≤ 1
  · rw [coalescePartitionRangeTombstones, if_pos hlen]
    match rts, hlen with
    | [], _ => exact Coverage.inOrder_nil
    | [rt], _ => exact Coverage.inOrder_singleton _
  · rw [h.map_rankSeg_coalesce hin hlen]
    exact (Coverage.coalesce_canonical _).ordered

theorem sameWeight_coalesce (h : KeysOrdered schema cks ranges) (hin : RangesIn cks ranges rts) :
    Coverage.SameWeight deletionValue
      ((coalescePartitionRangeTombstones schema rts).map (rankSeg schema cks ranges))
      (rts.map (rankSeg schema cks ranges)) := by
  by_cases hlen : rts.length ≤ 1
  · rw [coalescePartitionRangeTombstones, if_pos hlen]
    exact fun x w => Iff.rfl
  · rw [h.map_rankSeg_coalesce hin hlen]
    exact fun x w => Coverage.weightAt_coalesce deletionBetter_iff deletionValue_injective

/-! ### The floor -/

omit [DebugFmt] in
theorem dropWhile_congr_mem {α : Type*} {p q : α → Bool} {l : List α} (h : ∀ a ∈ l, p a = q a) :
    l.dropWhile p = l.dropWhile q := by
  induction l with
  | nil => rfl
  | cons a l ih =>
    simp only [List.dropWhile_cons, h a (by simp), ih fun b hb => h b (by simp [hb])]

/-- On the ranges of one partition the lookup is the `partition_point` search. -/
theorem rangeFloor_partition (key : DecoratedKey) (ck : ClusteringKey) (rts : List RangeTombstone) :
    rangeFloor schema key ck (rts.map fun rt => (key, rt)) =
      ((rts.dropWhile (rangeEndBeforeCk schema ck)).head?.filter
        (rangeTombstoneCoversCk schema ck)).map (·.deletionTime) := by
  have hlookup : ((rts.map fun rt => (key, rt)).dropWhile fun r => rangeEndBeforeCk schema ck r.2) =
      (rts.dropWhile (rangeEndBeforeCk schema ck)).map fun rt => (key, rt) := List.dropWhile_map ..
  cases rts with
  | nil => rfl
  | cons rt rts =>
    have hhead : ((rt :: rts).map fun rt => (key, rt)).head? = some (key, rt) := rfl
    have hlast : ((rt :: rts).map fun rt => (key, rt)).getLast? =
        some (key, (rt :: rts).getLast (by simp)) := by
      rw [List.getLast?_map, List.getLast?_eq_some_getLast (by simp), Option.map_some]
    simp only [rangeFloor, hhead, hlast, decide_true, Bool.and_self, if_true, hlookup,
      List.head?_map]
    cases ((rt :: rts).dropWhile (rangeEndBeforeCk schema ck)).head? with
    | none => rfl
    | some found =>
      simp only [Option.map_some, Option.filter_some, coversRow, decide_true, Bool.true_and]
      split <;> rfl

/-- The range that is found is the one that covers the row. -/
theorem lookup_eq_some (h : KeysOrdered schema cks ranges) {out : List RangeTombstone}
    (hin : RangesIn cks ranges out) (hord : Coverage.InOrder (out.map (rankSeg schema cks ranges)))
    (hck : ck ∈ cks) {f : Int} :
    ((out.dropWhile (rangeEndBeforeCk schema ck)).head?.filter
        (rangeTombstoneCoversCk schema ck)).map (·.deletionTime) = some f ↔
      ∃ rt ∈ out, rangeTombstoneCoversCk schema ck rt = true ∧ rt.deletionTime = f := by
  let x := cutRank schema cks ranges (rowCut ck)
  have hdrop : (out.map (rankSeg schema cks ranges)).dropWhile (fun seg => decide (seg.hi ≤ x)) =
      (out.dropWhile (rangeEndBeforeCk schema ck)).map (rankSeg schema cks ranges) := by
    rw [List.dropWhile_map]
    refine congrArg _ (dropWhile_congr_mem fun rt hrt => ?_)
    rw [Bool.eq_iff_iff, h.endBefore_iff hin hck hrt]
    simp [x]
  constructor
  · intro hf
    obtain ⟨rt, hrt, rfl⟩ := Option.map_eq_some_iff.mp hf
    obtain ⟨hhead, hcov⟩ := Option.filter_eq_some_iff.mp hrt
    exact ⟨rt, (List.dropWhile_sublist _).subset (List.mem_of_mem_head? hhead), hcov, rfl⟩
  · rintro ⟨rt, hrt, hcov, rfl⟩
    have hc := (h.covers_iff hin hck hrt).mp hcov
    have hfind := (hord.head?_dropWhile (p := fun seg => decide (seg.hi ≤ x))
      (fun _ _ => decide_eq_true_iff)).mpr ⟨List.mem_map_of_mem hrt, hc⟩
    rw [hdrop, List.head?_map] at hfind
    obtain ⟨found, hhead, hfound⟩ := Option.map_eq_some_iff.mp hfind.1
    have hmem : found ∈ out :=
      (List.dropWhile_sublist _).subset (List.mem_of_mem_head? hhead)
    have hcf : rangeTombstoneCoversCk schema ck found = true :=
      (h.covers_iff hin hck hmem).mpr (hfound ▸ hc)
    have hw : (rankSeg schema cks ranges found).weight = (rankSeg schema cks ranges rt).weight := by
      rw [hfound]
    simp only [rankSeg, Coverage.Seg.map_weight, RangeTombstone.toSeg, Prod.mk.injEq] at hw
    simp [hhead, hcf, hw.1]

/-- The floor of a row among coalesced ranges is the deletion time in force at its cut. -/
theorem rangeFloor_eq_some (h : KeysOrdered schema cks ranges) (hin : RangesIn cks ranges rts)
    (key : DecoratedKey) (hck : ck ∈ cks) {f : Int} :
    rangeFloor schema key ck
        ((coalescePartitionRangeTombstones schema rts).map fun rt => (key, rt)) = some f ↔
      ∃ w, Coverage.WeightAt deletionValue (rts.map (rankSeg schema cks ranges))
        (cutRank schema cks ranges (rowCut ck)) w ∧ w.1 = f := by
  have hin' : RangesIn cks ranges (coalescePartitionRangeTombstones schema rts) :=
    coalesce_rangesIn hin
  have hord := h.inOrder_coalesce hin
  rw [rangeFloor_partition, h.lookup_eq_some hin' hord hck]
  simp only [← h.sameWeight_coalesce hin _ _, hord.weightAt_iff, List.mem_map]
  constructor
  · rintro ⟨rt, hrt, hcov, rfl⟩
    exact ⟨_, ⟨_, ⟨rt, hrt, rfl⟩, (h.covers_iff hin' hck hrt).mp hcov, rfl⟩, rfl⟩
  · rintro ⟨w, ⟨_, ⟨rt, hrt, rfl⟩, hcov, rfl⟩, rfl⟩
    exact ⟨rt, hrt, (h.covers_iff hin' hck hrt).mpr hcov, rfl⟩

/-- A range that covers a key is dominated by the newest one there. -/
theorem exists_weightAt (h : KeysOrdered schema cks ranges) (hin : RangesIn cks ranges rts)
    (hck : ck ∈ cks) (hrt : rt ∈ rts) (hcov : rangeTombstoneCoversCk schema ck rt = true) :
    ∃ w, Coverage.WeightAt deletionValue (rts.map (rankSeg schema cks ranges))
      (cutRank schema cks ranges (rowCut ck)) w ∧ rt.deletionTime ≤ w.1 :=
  (Coverage.exists_weightAt (List.mem_map_of_mem hrt) ((h.covers_iff hin hck hrt).mp hcov)).imp
    fun _ hw => ⟨hw.1, Prod.Lex.monotone_fst _ _ hw.2⟩

theorem above_rangeFloor_iff (h : KeysOrdered schema cks ranges) (hin : RangesIn cks ranges rts)
    (key : DecoratedKey) (hck : ck ∈ cks) {t : Int} :
    Above (rangeFloor schema key ck
        ((coalescePartitionRangeTombstones schema rts).map fun rt => (key, rt))) t ↔
      ∀ rt ∈ rts, rangeTombstoneCoversCk schema ck rt = true → rt.deletionTime < t := by
  constructor
  · intro habove rt hrt hcov
    obtain ⟨w, hw, hle⟩ := h.exists_weightAt hin hck hrt hcov
    exact hle.trans_lt (habove w.1 ((h.rangeFloor_eq_some hin key hck).mpr ⟨w, hw, rfl⟩))
  · intro hall f hf
    obtain ⟨w, ⟨seg, hseg, hcov, rfl, -⟩, rfl⟩ := (h.rangeFloor_eq_some hin key hck).mp hf
    obtain ⟨rt, hrt, rfl⟩ := List.mem_map.mp hseg
    exact hall rt hrt ((h.covers_iff hin hck hrt).mpr hcov)

end KeysOrdered

end Floor

end Cqlite
