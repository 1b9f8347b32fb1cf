import Mathlib.Data.List.TakeWhile
import Cqlite.Writer.MarkerRanges
import Cqlite.Writer.PartitionSession

/-! A session emits the items of the whole partition.

    The whole-partition writer sorts rows and markers together and then joins boundaries; a session
    sorts the markers, lets every row drain the markers before it and joins boundaries as it goes.
    The two agree because a row and a marker never tie and the two bounds of a boundary are on the
    same side of every row. -/

namespace Cqlite

/-! ### Draining -/

section Drain

variable {schema : TableSchema}

theorem coalesce_append {xs ys : List PartitionItem}
    (h : ∀ x ∈ xs, ∀ y ∈ ys, joinBoundary schema x y = none) :
    coalesceBoundaries schema (xs ++ ys) =
      coalesceBoundaries schema xs ++ coalesceBoundaries schema ys := by
  fun_induction coalesceBoundaries schema xs with
  | case1 => rfl
  | case2 item =>
    obtain _ | ⟨y, ys⟩ := ys
    · rfl
    · rw [List.singleton_append, coalesceBoundaries, h item (by simp) y (by simp)]
      rfl
  | case3 a b rest c hjoin ih =>
    rw [List.cons_append, List.cons_append, coalesceBoundaries, hjoin]
    exact congrArg _ (ih fun x hx => h x (by simp [hx]))
  | case4 a b rest hjoin ih =>
    rw [List.cons_append, List.cons_append, coalesceBoundaries, hjoin]
    exact congrArg _ (ih fun x hx => h x (List.mem_cons_of_mem _ hx))

theorem joinBoundary_row_left (row : RowWrite) (item : PartitionItem) :
    joinBoundary schema (.row row) item = none := rfl

theorem joinBoundary_row_right (item : PartitionItem) (row : RowWrite) :
    joinBoundary schema item (.row row) = none := by
  cases item with
  | marker bound isOpen d ldt => cases isOpen <;> rfl
  | _ => rfl

/-- Draining is coalescing up to the stop when both bounds of a boundary are on one side of it. -/
theorem drainMarkers_eq {stop : PartitionItem → Bool} {markers : List PartitionItem}
    (h : ∀ x ∈ markers, ∀ y ∈ markers, (joinBoundary schema x y).isSome → stop x = stop y) :
    drainMarkers schema stop markers =
      (coalesceBoundaries schema (markers.takeWhile fun m => !stop m),
        markers.dropWhile fun m => !stop m) := by
  fun_induction drainMarkers schema stop markers with
  | case1 => rfl
  | case2 m hstop => simp [hstop, coalesceBoundaries]
  | case3 m hstop => simp [hstop, coalesceBoundaries]
  | case4 m n rest hstop => simp [hstop, coalesceBoundaries]
  | case5 m n rest hstop boundary hjoin emitted left hdrain ih =>
    have hn : stop n = stop m := (h m (by simp) n (by simp) (by simp [hjoin])).symm
    have hm : stop m = false := by simpa using hstop
    have ih := ih fun x hx y hy => h x (by simp [hx]) y (by simp [hy])
    rw [hdrain] at ih
    simp only [List.takeWhile_cons, List.dropWhile_cons, hn, hm, Bool.not_false, if_true]
    rw [coalesceBoundaries, hjoin]
    exact congrArg (fun p => (boundary :: p.1, p.2)) ih
  | case6 m n rest hstop hjoin emitted left hdrain ih =>
    have hm : stop m = false := by simpa using hstop
    have ih := ih fun x hx y hy => h x (List.mem_cons_of_mem _ hx) y (List.mem_cons_of_mem _ hy)
    rw [hdrain] at ih
    rw [List.takeWhile_cons, List.dropWhile_cons, hm]
    have hcons : coalesceBoundaries schema (m :: (n :: rest).takeWhile fun m => !stop m) =
        m :: coalesceBoundaries schema ((n :: rest).takeWhile fun m => !stop m) := by
      cases hn : stop n with
      | true => simp [hn, coalesceBoundaries]
      | false => simp [hn, coalesceBoundaries, hjoin]
    simp only [Bool.not_false, if_true, hcons]
    exact congrArg (fun p => (m :: p.1, p.2)) ih

end Drain

/-! ### Rows among markers -/

variable {x : PartitionItem}

section Weave

variable [DebugFmt] (schema : TableSchema)

/-- The comparison that stops the draining for a row. -/
def afterRow (m : Mutation) (marker : PartitionItem) : Bool :=
  partitionItemCmp schema marker (.row (rowItem m)) == .gt

/-- The sorted markers with every row behind those before it. -/
def weave (rowOf : Mutation → Option RowWrite) : List PartitionItem → List Mutation → List PartitionItem
  | markers, [] => markers
  | markers, m :: ms =>
    markers.takeWhile (fun x => !afterRow schema m x) ++ ((rowOf m).toList.map .row ++
      weave rowOf (markers.dropWhile fun x => !afterRow schema m x) ms)

/-- The items of a session, call by call. -/
def sessionItems (rowOf : Mutation → Option RowWrite) :
    List PartitionItem → List Mutation → List PartitionItem
  | markers, [] => (drainMarkers schema (fun _ => false) markers).1
  | markers, m :: ms =>
    (drainMarkers schema (afterRow schema m) markers).1 ++ ((rowOf m).toList.map .row ++
      sessionItems rowOf (drainMarkers schema (afterRow schema m) markers).2 ms)

variable {schema} {rowOf : Mutation → Option RowWrite}

variable {ms : List Mutation} {markers : List PartitionItem}

theorem mem_weave (hx : x ∈ weave schema rowOf markers ms) :
    x ∈ markers ∨ ∃ m ∈ ms, ∃ r, rowOf m = some r ∧ x = .row r := by
  induction ms generalizing markers with
  | nil => exact .inl hx
  | cons m ms ih =>
    rcases List.mem_append.mp hx with hx | hx
    · exact .inl ((List.takeWhile_sublist _).subset hx)
    rcases List.mem_append.mp hx with hx | hx
    · obtain ⟨r, hr, rfl⟩ := List.mem_map.mp hx
      exact .inr ⟨m, by simp, r, Option.mem_toList.mp hr, rfl⟩
    · rcases ih hx with hx | ⟨n, hn, hrest⟩
      · exact .inl ((List.dropWhile_sublist _).subset hx)
      · exact .inr ⟨n, List.mem_cons_of_mem _ hn, hrest⟩

theorem weave_filter_row (hmarkers : ∀ x ∈ markers, x.isRow = false) :
    (weave schema rowOf markers ms).filter PartitionItem.isRow = (ms.filterMap rowOf).map .row := by
  induction ms generalizing markers with
  | nil => simpa [weave] using hmarkers
  | cons m ms ih =>
    have hbefore : (markers.takeWhile fun x => !afterRow schema m x).filter PartitionItem.isRow = [] :=
      List.filter_eq_nil_iff.mpr fun x hx => by simp [hmarkers x ((List.takeWhile_sublist _).subset hx)]
    rw [weave, List.filter_append, List.filter_append, hbefore,
      ih fun x hx => hmarkers x ((List.dropWhile_sublist _).subset hx)]
    cases hrow : rowOf m <;> simp [hrow, List.filter_cons]

theorem weave_filter_marker (hmarkers : ∀ x ∈ markers, x.isRow = false) :
    (weave schema rowOf markers ms).filter (fun x => !x.isRow) = markers := by
  induction ms generalizing markers with
  | nil => simpa [weave] using hmarkers
  | cons m ms ih =>
    have hbefore : (markers.takeWhile fun x => !afterRow schema m x).filter (fun x => !x.isRow) =
        markers.takeWhile fun x => !afterRow schema m x :=
      List.filter_eq_self.mpr fun x hx => by simp [hmarkers x ((List.takeWhile_sublist _).subset hx)]
    rw [weave, List.filter_append, List.filter_append, hbefore,
      ih fun x hx => hmarkers x ((List.dropWhile_sublist _).subset hx)]
    cases hrow : rowOf m <;> simp [List.takeWhile_append_dropWhile]

omit [DebugFmt] in
theorem forall_mem_dropWhile {α : Type} {p : α → Bool} {l : List α}
    (h : l.Pairwise fun x y => p x = true → p y = true) :
    ∀ x ∈ l.dropWhile (fun x => !p x), p x = true := by
  induction l with
  | nil => simp
  | cons a l ih =>
    obtain ⟨ha, hl⟩ := List.pairwise_cons.mp h
    cases hp : p a with
    | false => simpa [List.dropWhile_cons, hp] using ih hl
    | true =>
      intro x hx
      rw [List.dropWhile_cons, hp] at hx
      rcases List.mem_cons.mp hx with rfl | hx
      · exact hp
      · exact ha x hx hp

/-- The session writes the woven items with their boundaries joined. -/
theorem sessionItems_eq
    (hside : ∀ m ∈ ms, ∀ x ∈ markers, ∀ y ∈ markers, (joinBoundary schema x y).isSome →
      afterRow schema m x = afterRow schema m y)
    (hmono : ∀ m ∈ ms, markers.Pairwise fun x y =>
      afterRow schema m x = true → afterRow schema m y = true) :
    sessionItems schema rowOf markers ms =
      coalesceBoundaries schema (weave schema rowOf markers ms) := by
  induction ms generalizing markers with
  | nil =>
    rw [sessionItems, drainMarkers_eq (by simp), weave]
    exact congrArg _ (List.takeWhile_eq_self_iff.mpr (by simp))
  | cons m ms ih =>
    have hdrop : ∀ x ∈ markers.dropWhile (fun x => !afterRow schema m x), x ∈ markers :=
      fun x hx => (List.dropWhile_sublist _).subset hx
    have hafter := forall_mem_dropWhile (hmono m (by simp))
    -- a marker before the row is not joined with one behind it
    have hsplit : ∀ x ∈ markers.takeWhile (fun x => !afterRow schema m x),
        ∀ y ∈ (rowOf m).toList.map .row ++
          weave schema rowOf (markers.dropWhile fun x => !afterRow schema m x) ms,
        joinBoundary schema x y = none := by
      intro x hx y hy
      rcases List.mem_append.mp hy with hy | hy
      · obtain ⟨r, -, rfl⟩ := List.mem_map.mp hy
        exact joinBoundary_row_right x r
      rcases mem_weave hy with hy | ⟨n, -, r, -, rfl⟩
      · have hbefore : afterRow schema m x = false := by simpa using List.mem_takeWhile_imp hx
        cases hjoin : joinBoundary schema x y with
        | none => rfl
        | some c =>
          have := hside m (by simp) x ((List.takeWhile_sublist _).subset hx) y (hdrop y hy) (by simp [hjoin])
          rw [hbefore, hafter y hy] at this
          cases this
      · exact joinBoundary_row_right x r
    have hrow : ∀ x ∈ (rowOf m).toList.map PartitionItem.row,
        ∀ y ∈ weave schema rowOf (markers.dropWhile fun x => !afterRow schema m x) ms,
        joinBoundary schema x y = none := by
      intro x hx y _
      obtain ⟨r, -, rfl⟩ := List.mem_map.mp hx
      exact joinBoundary_row_left r y
    have hsingle : coalesceBoundaries schema ((rowOf m).toList.map .row) =
        (rowOf m).toList.map .row := by
      cases rowOf m <;> rfl
    rw [sessionItems, drainMarkers_eq (hside m (by simp)), weave, coalesce_append hsplit,
      coalesce_append hrow, hsingle]
    refine congrArg _ (congrArg _ (ih ?_ ?_))
    · exact fun n hn x hx y hy => hside n (List.mem_cons_of_mem _ hn) x (hdrop x hx) y (hdrop y hy)
    · exact fun n hn => (hmono n (List.mem_cons_of_mem _ hn)).sublist (List.dropWhile_sublist _)

end Weave

/-! ### The woven list is the sorted one -/

section Sorted

variable {rowOf : Mutation → Option RowWrite} {ms : List Mutation} {ranges : List RangeTombstone}

/-- A row of a mutation is compared by the key of the mutation. -/
def KeepsKey (rowOf : Mutation → Option RowWrite) : Prop :=
  ∀ m r, rowOf m = some r → r.clusteringKey = m.clusteringKey

/-- The items that are compared: the rows as they come in and as they are written, and the markers. -/
def comparedItems (rowOf : Mutation → Option RowWrite) (ms : List Mutation)
    (ranges : List RangeTombstone) : List PartitionItem :=
  allItems (ms.map rowItem) ranges ++ (ms.filterMap rowOf).map .row

variable {m : Mutation}

theorem rowItem_mem (hm : m ∈ ms) : .row (rowItem m) ∈ comparedItems rowOf ms ranges :=
  List.mem_append_left _ (mem_allItems.mpr (.inl ⟨_, List.mem_map_of_mem hm, rfl⟩))

theorem row_mem (hm : m ∈ ms) {r : RowWrite} (hr : rowOf m = some r) :
    .row r ∈ comparedItems rowOf ms ranges :=
  List.mem_append_right _ (List.mem_map_of_mem (List.mem_filterMap.mpr ⟨m, hm, hr⟩))

theorem marker_mem (hx : x ∈ ranges.flatMap rangeMarkers) : x ∈ comparedItems rowOf ms ranges :=
  List.mem_append_left _ (List.mem_append_right _ hx)

theorem mem_compared (hx : x ∈ allItems (ms.filterMap rowOf) ranges) :
    x ∈ comparedItems rowOf ms ranges := by
  rcases List.mem_append.mp hx with hx | hx
  · exact List.mem_append_right _ hx
  · exact marker_mem hx

/-- A row without its cells. -/
def PartitionItem.bare : PartitionItem → PartitionItem
  | .row r => .row ⟨r.clusteringKey, none, none, none, [], []⟩
  | item => item

variable [DebugFmt] {schema : TableSchema}

theorem partitionItemCmp_bare (a b : PartitionItem) :
    partitionItemCmp schema a.bare b.bare = partitionItemCmp schema a b := by
  cases a <;> cases b <;> rfl

theorem partitionItemCmp_row {r : RowWrite} (hkey : r.clusteringKey = m.clusteringKey)
    (x : PartitionItem) :
    partitionItemCmp schema x (.row r) = partitionItemCmp schema x (.row (rowItem m)) ∧
      partitionItemCmp schema (.row r) x = partitionItemCmp schema (.row (rowItem m)) x := by
  simp only [partitionItemCmp, sortClass, hkey, rowItem, and_self]

variable (hkey : KeepsKey rowOf) (h : ItemsOrdered schema (ms.map rowItem) ranges)

include hkey h

theorem compared_total : Rank.TotalOn (partitionItemCmp schema) (comparedItems rowOf ms ranges) := by
  have hbare : Rank.TotalOn (partitionItemCmp schema)
      ((comparedItems rowOf ms ranges).map PartitionItem.bare) := by
    refine h.partitionItemCmp_total.mono fun x hx => ?_
    obtain ⟨y, hy, rfl⟩ := List.mem_map.mp hx
    rcases List.mem_append.mp hy with hy | hy
    · rcases mem_allItems.mp hy with ⟨r, hr, rfl⟩ | ⟨rt, hrt, hmarker⟩
      · obtain ⟨m, -, rfl⟩ := List.mem_map.mp hr
        exact hy
      · rcases mem_rangeMarkers.mp hmarker with rfl | rfl <;> exact hy
    · obtain ⟨r, hr, rfl⟩ := List.mem_map.mp hy
      obtain ⟨m, hm, hrow⟩ := List.mem_filterMap.mp hr
      rw [PartitionItem.bare, hkey m r hrow]
      exact mem_allItems.mpr (.inl ⟨_, List.mem_map_of_mem hm, rfl⟩)
  exact hbare.comap.congr fun a _ b _ => (partitionItemCmp_bare a b).symm

omit hkey in
theorem rowItem_pairwise : ms.Pairwise fun m n =>
    partitionItemCmp schema (.row (rowItem m)) (.row (rowItem n)) = .lt := by
  refine (List.pairwise_map.mp h.sorted).imp_of_mem fun {m n} hm hn hlt => ?_
  rw [(h.row_cmp (List.mem_map_of_mem hm) (List.mem_map_of_mem hn)).1]
  exact hlt

theorem afterRow_pairwise {markers : List PartitionItem}
    (hmem : ∀ x ∈ markers, x ∈ comparedItems rowOf ms ranges)
    (hsorted : markers.Pairwise fun x y => partitionItemCmp schema x y ≠ .gt) (hm : m ∈ ms) :
    markers.Pairwise fun x y => afterRow schema m x = true → afterRow schema m y = true := by
  have htotal := compared_total hkey h
  refine hsorted.imp_of_mem fun {x y} hx hy hxy hafter => ?_
  simp only [afterRow, beq_iff_eq] at hafter ⊢
  rw [← htotal.lt_iff_gt (rowItem_mem hm) (hmem x hx)] at hafter
  rw [← htotal.lt_iff_gt (rowItem_mem hm) (hmem y hy)]
  exact htotal.lt_of_lt_of_le (rowItem_mem hm) (hmem x hx) (hmem y hy) hafter hxy

/-- Weaving sorted markers into the rows keeps the order. -/
theorem weave_pairwise {markers : List PartitionItem} {ns : List Mutation}
    (hmem : ∀ x ∈ markers, x ∈ comparedItems rowOf ms ranges)
    (hsorted : markers.Pairwise fun x y => partitionItemCmp schema x y ≠ .gt)
    (hns : ns.Sublist ms) :
    (weave schema rowOf markers ns).Pairwise fun x y => partitionItemCmp schema x y ≠ .gt := by
  have htotal := compared_total hkey h
  induction ns generalizing markers with
  | nil => exact hsorted
  | cons m ns ih =>
    have hm : m ∈ ms := hns.subset List.mem_cons_self
    have hsub : ns.Sublist ms := (List.sublist_cons_self m ns).trans hns
    have hdrop : ∀ x ∈ markers.dropWhile (fun x => !afterRow schema m x), x ∈ markers :=
      fun x hx => (List.dropWhile_sublist _).subset hx
    have hlater : ∀ n ∈ ns, partitionItemCmp schema (.row (rowItem m)) (.row (rowItem n)) = .lt :=
      (List.pairwise_cons.mp ((rowItem_pairwise h).sublist hns)).1
    have hafter := forall_mem_dropWhile (afterRow_pairwise hkey h hmem hsorted hm)
    -- what follows the row comes after it
    have hbehind : ∀ y ∈ weave schema rowOf (markers.dropWhile fun x => !afterRow schema m x) ns,
        y ∈ comparedItems rowOf ms ranges ∧
          partitionItemCmp schema (.row (rowItem m)) y = .lt := by
      intro y hy
      rcases mem_weave hy with hy | ⟨n, hn, r, hr, rfl⟩
      · refine ⟨hmem y (hdrop y hy), ?_⟩
        rw [htotal.lt_iff_gt (rowItem_mem hm) (hmem y (hdrop y hy))]
        simpa [afterRow] using hafter y hy
      · refine ⟨row_mem (hsub.subset hn) hr, ?_⟩
        rw [(partitionItemCmp_row (hkey n r hr) _).1]
        exact hlater n hn
    have htail := ih (fun x hx => hmem x (hdrop x hx))
      (hsorted.sublist (List.dropWhile_sublist _)) hsub
    rw [weave, List.pairwise_append]
    refine ⟨hsorted.sublist (List.takeWhile_sublist _), ?_, ?_⟩
    · rw [List.pairwise_append]
      refine ⟨?_, htail, fun x hx y hy => ?_⟩
      · cases rowOf m <;> simp
      · obtain ⟨r, hr, rfl⟩ := List.mem_map.mp hx
        rw [(partitionItemCmp_row (hkey m r (Option.mem_toList.mp hr)) y).2, (hbehind y hy).2]
        simp
    · intro x hx y hy
      have hxm := hmem x ((List.takeWhile_sublist _).subset hx)
      have hbefore : partitionItemCmp schema x (.row (rowItem m)) ≠ .gt := by
        simpa [afterRow] using List.mem_takeWhile_imp hx
      rcases List.mem_append.mp hy with hy | hy
      · obtain ⟨r, hr, rfl⟩ := List.mem_map.mp hy
        rwa [(partitionItemCmp_row (hkey m r (Option.mem_toList.mp hr)) x).1]
      · obtain ⟨hym, hlt⟩ := hbehind y hy
        rw [htotal.lt_of_le_of_lt hxm (rowItem_mem hm) hym hbefore hlt]
        simp

variable {rows : List RowWrite}

omit hkey h in
/-- The items equal to a row are rows, those equal to a marker are markers. -/
theorem isRow_of_tie (htotal : Rank.TotalOn (partitionItemCmp schema) (allItems rows ranges))
    {a b : PartitionItem} (ha : a ∈ allItems rows ranges) (hb : b ∈ allItems rows ranges)
    (htie : partitionItemCmp schema a b = .eq) : b.isRow = a.isRow := by
  rcases mem_allItems.mp ha with ⟨r, -, rfl⟩ | ⟨rt, -, hma⟩
  · rcases mem_allItems.mp hb with ⟨s, -, rfl⟩ | ⟨rt, -, hmb⟩
    · rfl
    · exact absurd htie (row_ne_marker r hmb)
  · rcases mem_allItems.mp hb with ⟨s, -, rfl⟩ | ⟨rt', -, hmb⟩
    · exact absurd ((htotal.eq_comm ha hb).mp htie) (row_ne_marker s hma)
    · rcases mem_rangeMarkers.mp hma with rfl | rfl <;>
        rcases mem_rangeMarkers.mp hmb with rfl | rfl <;> rfl

omit hkey h in
theorem filter_tie (htotal : Rank.TotalOn (partitionItemCmp schema) (allItems rows ranges))
    {a : PartitionItem} (ha : a ∈ allItems rows ranges) {items : List PartitionItem}
    (hitems : ∀ x ∈ items, x ∈ allItems rows ranges) :
    items.filter (fun b => partitionItemCmp schema a b == .eq) =
      (items.filter fun b => b.isRow == a.isRow).filter
        fun b => partitionItemCmp schema a b == .eq := by
  rw [List.filter_filter]
  refine List.filter_congr fun b hb => ?_
  cases htie : partitionItemCmp schema a b == .eq with
  | false => rfl
  | true => simp [isRow_of_tie htotal ha (hitems b hb) (by simpa using htie)]

omit [DebugFmt] hkey h in
theorem filter_rows :
    (allItems rows ranges).filter PartitionItem.isRow = rows.map .row := by
  have hmarkers : (ranges.flatMap rangeMarkers).filter PartitionItem.isRow = [] := by
    refine List.filter_eq_nil_iff.mpr fun x hx => ?_
    obtain ⟨rt, -, hx⟩ := List.mem_flatMap.mp hx
    rcases mem_rangeMarkers.mp hx with rfl | rfl <;> exact Bool.false_ne_true
  rw [allItems, List.filter_append, hmarkers, List.append_nil]
  exact List.filter_eq_self.mpr (by simp)

/-- Weaving the rows into the sorted markers sorts the items of the partition. -/
theorem weave_eq_sort :
    weave schema rowOf (sortPartitionItems schema (ranges.flatMap rangeMarkers)) ms =
      sortPartitionItems schema (allItems (ms.filterMap rowOf) ranges) := by
  have htotal := compared_total hkey h
  have hmarkers : Rank.TotalOn (partitionItemCmp schema) (ranges.flatMap rangeMarkers) :=
    htotal.mono fun x hx => marker_mem hx
  have hitems : Rank.TotalOn (partitionItemCmp schema) (allItems (ms.filterMap rowOf) ranges) :=
    htotal.mono fun x hx => mem_compared hx
  have hsub : ∀ x ∈ sortPartitionItems schema (ranges.flatMap rangeMarkers),
      x ∈ ranges.flatMap rangeMarkers := fun x hx => List.mem_mergeSort.mp hx
  have hnotRow : ∀ x ∈ sortPartitionItems schema (ranges.flatMap rangeMarkers), x.isRow = false := by
    intro x hx
    obtain ⟨rt, -, hx⟩ := List.mem_flatMap.mp (hsub x hx)
    rcases mem_rangeMarkers.mp hx with rfl | rfl <;> rfl
  have hwoven : ∀ x ∈ weave schema rowOf (sortPartitionItems schema (ranges.flatMap rangeMarkers)) ms,
      x ∈ allItems (ms.filterMap rowOf) ranges := by
    intro x hx
    rcases mem_weave hx with hx | ⟨m, hm, r, hr, rfl⟩
    · exact List.mem_append_right _ (hsub x hx)
    · exact List.mem_append_left _ (List.mem_map_of_mem (List.mem_filterMap.mpr ⟨m, hm, hr⟩))
  refine hitems.eq_of_classes hwoven (fun x hx => List.mem_mergeSort.mp hx)
    (weave_pairwise hkey h (fun x hx => marker_mem (hsub x hx)) hmarkers.pairwise_mergeSort
      (List.Sublist.refl ms)) hitems.pairwise_mergeSort fun a ha => ?_
  -- both lists keep the order of equals, and equals are rows only or markers only
  rw [show (sortPartitionItems schema (allItems (ms.filterMap rowOf) ranges)).filter
    (fun b => partitionItemCmp schema a b == .eq) = _ from hitems.filter_mergeSort_class ha,
    filter_tie hitems ha hwoven, filter_tie hitems ha fun x hx => hx]
  cases hrow : a.isRow with
  | true =>
    simp only [beq_true]
    rw [weave_filter_row hnotRow, filter_rows]
  | false =>
    simp only [beq_false]
    rw [weave_filter_marker hnotRow, filter_markers]
    refine hmarkers.filter_mergeSort_class ?_
    rcases List.mem_append.mp ha with ha | ha
    · obtain ⟨r, -, rfl⟩ := List.mem_map.mp ha
      cases hrow
    · exact ha

omit [DebugFmt] hkey h in
theorem rowKey_mem {m : Mutation} (hm : m ∈ ms) {k : ClusteringKey} (hk : m.clusteringKey = some k) :
    k ∈ (⟨[]⟩ : ClusteringKey) ::
      (occurringCuts ((ms.map rowItem).map RowWrite.key) ranges).map RangeCut.key := by
  have hrow : PartitionItem.row (rowItem m) ∈ allItems (ms.map rowItem) ranges :=
    mem_allItems.mpr (.inl ⟨_, List.mem_map_of_mem hm, rfl⟩)
  have hmem := ItemsOrdered.key_mem hrow
  rwa [show (PartitionItem.row (rowItem m)).cut.key = k by
    simp [PartitionItem.cut, rowCut, RangeCut.key, RowWrite.key, rowItem, hk]] at hmem

omit hkey in
/-- Keys that make a boundary compare alike with the key of a row. -/
theorem cmpKeys_congr {y : PartitionItem} (hx : x ∈ ranges.flatMap rangeMarkers)
    (hy : y ∈ ranges.flatMap rangeMarkers) (hm : m ∈ ms)
    (heq : ClusteringKey.schemaCmp schema x.cut.key y.cut.key = .eq) :
    cmpKeys schema (some x.cut.key) m.clusteringKey =
      cmpKeys schema (some y.cut.key) m.clusteringKey := by
  cases hk : m.clusteringKey with
  | none => rfl
  | some k =>
    have hmem := @rowKey_mem ms ranges m hm k hk
    have hxm := ItemsOrdered.key_mem (List.mem_append_right ((ms.map rowItem).map .row) hx)
    have hym := ItemsOrdered.key_mem (List.mem_append_right ((ms.map rowItem).map .row) hy)
    simp only [cmpKeys]
    rw [h.schemaOrder.swap k hmem _ hxm, h.schemaOrder.swap k hmem _ hym,
      h.schemaOrder.cmp_congr hxm hym hmem heq]

omit hkey in
/-- The two bounds of a boundary are on the same side of every row. -/
theorem joinBoundary_side {y : PartitionItem} (hx : x ∈ ranges.flatMap rangeMarkers)
    (hy : y ∈ ranges.flatMap rangeMarkers) (hjoin : (joinBoundary schema x y).isSome) (hm : m ∈ ms) :
    afterRow schema m x = afterRow schema m y := by
  obtain ⟨c, hjoin⟩ := Option.isSome_iff_exists.mp hjoin
  obtain ⟨closing, opening, _, _, _, _, p, rfl, rfl, hp, -⟩ := joinBoundary_cases hjoin
  rcases boundaryKindFor_cases hp with ⟨c₁, c₂, rfl, rfl, heq, -⟩ | ⟨c₁, c₂, rfl, rfl, heq, -⟩ <;>
  · have hcmp : ClusteringKey.schemaCmp schema c₁ c₂ = .eq := by
      rw [ClusteringKey.schemaCmp, heq]
      rfl
    have hkeys := cmpKeys_congr h hx hy hm hcmp
    simp only [PartitionItem.cut, RangeCut.ofEnd, RangeCut.ofStart, RangeCut.key] at hkeys
    simp only [afterRow, partitionItemCmp, sortClass, rowItem, hkeys]
    rfl

theorem sessionItems_eq_partitionItems :
    sessionItems schema rowOf (sortPartitionItems schema (ranges.flatMap rangeMarkers)) ms =
      partitionItems schema (ms.filterMap rowOf) ranges := by
  have hsub : ∀ x ∈ sortPartitionItems schema (ranges.flatMap rangeMarkers),
      x ∈ ranges.flatMap rangeMarkers := fun x hx => List.mem_mergeSort.mp hx
  have hmarkers : Rank.TotalOn (partitionItemCmp schema) (ranges.flatMap rangeMarkers) :=
    (compared_total hkey h).mono fun x hx => marker_mem hx
  rw [sessionItems_eq, weave_eq_sort hkey h]
  · rfl
  · exact fun m hm x hx y hy hjoin => joinBoundary_side h (hsub x hx) (hsub y hy) hjoin hm
  · exact fun m hm => afterRow_pairwise hkey h (fun x hx => marker_mem (hsub x hx))
      hmarkers.pairwise_mergeSort hm

end Sorted

end Cqlite
