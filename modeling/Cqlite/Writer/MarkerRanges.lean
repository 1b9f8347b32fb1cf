import Cqlite.Writer.MarkerStream

/-! Which lists of range tombstones are written exactly.

    Sorting the markers of ranges that are apart gives start, end, start, end; everything the reader
    sees follows from that. Conversely an alternating sequence in clustering order pairs every start
    with its own end, so ranges that overlap are never written exactly. -/

namespace Cqlite

/-! ### The markers of ranges that are apart -/

def RangeTombstone.opening (rt : RangeTombstone) : PartitionItem :=
  .marker rt.startBound true rt.deletionTime rt.localDeletionTime

def RangeTombstone.closing (rt : RangeTombstone) : PartitionItem :=
  .marker rt.endBound false rt.deletionTime rt.localDeletionTime

theorem mem_rangeMarkers {rt : RangeTombstone} {item : PartitionItem} :
    item ∈ rangeMarkers rt ↔ item = rt.opening ∨ item = rt.closing := by
  simp [rangeMarkers, RangeTombstone.opening, RangeTombstone.closing]

section Ranges

variable [DebugFmt] {schema : TableSchema} {rows : List RowWrite} {ranges : List RangeTombstone}

section

omit [DebugFmt]

theorem opening_mem {rt : RangeTombstone} (hrt : rt ∈ ranges) : rt.opening ∈ allItems rows ranges :=
  mem_allItems.mpr (.inr ⟨rt, hrt, mem_rangeMarkers.mpr (.inl rfl)⟩)

theorem closing_mem {rt : RangeTombstone} (hrt : rt ∈ ranges) : rt.closing ∈ allItems rows ranges :=
  mem_allItems.mpr (.inr ⟨rt, hrt, mem_rangeMarkers.mpr (.inr rfl)⟩)

theorem kind_opening (rt : RangeTombstone) :
    (sortClass rt.opening).kind = 1 ∨ (sortClass rt.opening).kind = 7 := by
  obtain ⟨start, stop, d, ldt⟩ := rt
  cases start <;> simp [RangeTombstone.opening, sortClass, boundKindOrdinal, inclStartBound,
    exclStartBound]

theorem kind_closing (rt : RangeTombstone) :
    (sortClass rt.closing).kind = 0 ∨ (sortClass rt.closing).kind = 6 := by
  obtain ⟨start, stop, d, ldt⟩ := rt
  cases stop <;> simp [RangeTombstone.closing, sortClass, boundKindOrdinal, inclEndBound,
    exclEndBound]

end

theorem opening_ne_closing (r s : RangeTombstone) :
    partitionItemCmp schema r.opening s.closing ≠ .eq := by
  intro htie
  have hkind := kind_of_tie htie
  rcases kind_opening r with hr | hr <;> rcases kind_closing s with hs | hs <;> omega

theorem closing_ne_opening (r s : RangeTombstone) :
    partitionItemCmp schema r.closing s.opening ≠ .eq := by
  intro htie
  have hkind := kind_of_tie htie
  rcases kind_opening s with hr | hr <;> rcases kind_closing r with hs | hs <;> omega

theorem row_ne_marker (row : RowWrite) {rt : RangeTombstone} {item : PartitionItem}
    (hitem : item ∈ rangeMarkers rt) : partitionItemCmp schema (.row row) item ≠ .eq := by
  intro htie
  have hkind : clusteringKind = (sortClass item).kind := kind_of_tie htie
  rw [clusteringKind] at hkind
  rcases mem_rangeMarkers.mp hitem with rfl | rfl
  · rcases kind_opening rt with hr | hr <;> omega
  · rcases kind_closing rt with hr | hr <;> omega

variable {a b : PartitionItem} {r : RangeTombstone} {rs : List RangeTombstone}

theorem itemOrder_of_markers (ha : a.isRow = false) (hb : b.isRow = false) :
    itemOrder schema a b = RangeCut.cmp schema a.cut b.cut := by
  rw [itemOrder, ha, hb]
  cases RangeCut.cmp schema a.cut b.cut <;> rfl

variable (h : ItemsOrdered schema rows ranges)

include h

omit h in
theorem lt_of_agrees (hagree : OrderAgrees schema rows ranges) (ha : a ∈ allItems rows ranges)
    (hb : b ∈ allItems rows ranges) (hne : partitionItemCmp schema a b ≠ .eq)
    (hlt : itemOrder schema a b = .lt) : partitionItemCmp schema a b = .lt := by
  have hgt := hagree a ha b hb hlt
  cases hcmp : partitionItemCmp schema a b with
  | lt => rfl
  | eq => exact absurd hcmp hne
  | gt => exact absurd hcmp hgt

omit h in
theorem markers_nonempty (hagree : OrderAgrees schema rows ranges) (hr : r ∈ ranges)
    (hrn : r.Nonempty schema) :
    partitionItemCmp schema r.opening r.closing = .lt ∧
      itemOrder schema r.opening r.closing = .lt := by
  have hlt : itemOrder schema r.opening r.closing = .lt := by
    rw [itemOrder_of_markers rfl rfl]
    exact hrn
  exact ⟨lt_of_agrees hagree (opening_mem hr) (closing_mem hr) (opening_ne_closing r r) hlt, hlt⟩

omit h in
theorem markers_meet (hagree : OrderAgrees schema rows ranges) {s : RangeTombstone}
    (hr : r ∈ ranges) (hs : s ∈ ranges) (hrs : r.Before schema s) :
    partitionItemCmp schema r.closing s.opening = .lt ∧ InOrder schema r.closing s.opening := by
  have hcut : itemOrder schema r.closing s.opening =
      RangeCut.cmp schema (.ofEnd r.endBound) (.ofStart s.startBound) := itemOrder_of_markers rfl rfl
  rcases hrs with hlt | ⟨heq, hsome⟩
  · rw [← hcut] at hlt
    exact ⟨lt_of_agrees hagree (closing_mem hr) (opening_mem hs) (closing_ne_opening r s) hlt, .inl hlt⟩
  · obtain ⟨p, hp⟩ := Option.isSome_iff_exists.mp hsome
    have hjoin : joinBoundary schema r.closing s.opening = some (.boundary p.1 p.2 r.deletionTime
        r.localDeletionTime s.deletionTime s.localDeletionTime) := by
      rw [RangeTombstone.closing, RangeTombstone.opening, joinBoundary, hp]
      rfl
    exact ⟨joinBoundary_lt hjoin, .inr ⟨hcut.trans heq, by simp [hjoin]⟩⟩

/-- The markers of a range and of one after it, for the writer and in clustering order. -/
theorem markers_before (hagree : OrderAgrees schema rows ranges) {s : RangeTombstone}
    (hr : r ∈ ranges) (hs : s ∈ ranges) (hrn : r.Nonempty schema) (hsn : s.Nonempty schema)
    (hrs : r.Before schema s) : ∀ x ∈ rangeMarkers r, ∀ y ∈ rangeMarkers s,
      partitionItemCmp schema x y = .lt ∧ InOrder schema x y := by
  have hcode := h.partitionItemCmp_total
  have hspec := h.itemOrder_total
  have hSr := @opening_mem rows _ _ hr
  have hEr := @closing_mem rows _ _ hr
  have hSs := @opening_mem rows _ _ hs
  have hEs := @closing_mem rows _ _ hs
  obtain ⟨hr₁, hr₂⟩ := markers_nonempty hagree hr hrn
  obtain ⟨hs₁, hs₂⟩ := markers_nonempty hagree hs hsn
  obtain ⟨hm₁, hm₂⟩ := markers_meet hagree hr hs hrs
  have hr₁s : partitionItemCmp schema r.opening s.opening = .lt :=
    hcode.lt_of_lt_of_le hSr hEr hSs hr₁ (by simp [hm₁])
  have hr₂s : itemOrder schema r.opening s.opening = .lt :=
    hspec.lt_of_lt_of_le hSr hEr hSs hr₂ hm₂.le
  intro x hx y hy
  rcases mem_rangeMarkers.mp hx with rfl | rfl <;> rcases mem_rangeMarkers.mp hy with rfl | rfl
  · exact ⟨hr₁s, .inl hr₂s⟩
  · exact ⟨hcode.lt_of_lt_of_le hSr hSs hEs hr₁s (by simp [hs₁]),
      .inl (hspec.lt_of_lt_of_le hSr hSs hEs hr₂s (by simp [hs₂]))⟩
  · exact ⟨hm₁, hm₂⟩
  · exact ⟨hcode.lt_of_lt_of_le hEr hSs hEs hm₁ (by simp [hs₁]),
      .inl (hspec.lt_of_le_of_lt hEr hSs hEs hm₂.le hs₂)⟩

theorem exists_sorted_ranges (hne : ∀ r ∈ ranges, r.Nonempty schema)
    (hapart : ranges.Pairwise (RangeTombstone.Apart schema)) :
    ∃ rs : List RangeTombstone, rs.Perm ranges ∧ rs.Pairwise (RangeTombstone.Before schema) := by
  have hlo : ∀ r ∈ ranges, RangeCut.ofStart r.startBound ∈
      occurringCuts (rows.map RowWrite.key) ranges := fun r hr => cut_mem (opening_mem hr)
  have hhi : ∀ r ∈ ranges, RangeCut.ofEnd r.endBound ∈
      occurringCuts (rows.map RowWrite.key) ranges := fun r hr => cut_mem (closing_mem hr)
  have hstarts : Rank.TotalOn (RangeCut.cmp schema) (ranges.map fun r => .ofStart r.startBound) := by
    refine h.keys.total.mono fun c hc => ?_
    obtain ⟨r, hr, rfl⟩ := List.mem_map.mp hc
    exact hlo r hr
  have hsorted := hstarts.comap.pairwise_mergeSort
  have hperm := List.mergeSort_perm ranges fun r s =>
    RangeCut.cmp schema (.ofStart r.startBound) (.ofStart s.startBound) != .gt
  have hsym : ∀ {r s : RangeTombstone}, r.Apart schema s → s.Apart schema r := Or.symm
  refine ⟨_, hperm, ((hperm.pairwise_iff hsym).mpr hapart |>.and hsorted).imp_of_mem ?_⟩
  rintro r s hr hs ⟨hrs | hsr, hle⟩
  · exact hrs
  · -- `s` would end before `r` starts, and so before it starts itself
    have hr := hperm.subset hr
    have hs := hperm.subset hs
    have hend : RangeCut.cmp schema (.ofEnd s.endBound) (.ofStart s.startBound) ≠ .gt := by
      refine h.keys.total.trans _ (hhi s hs) _ (hlo r hr) _ (hlo s hs) ?_ hle
      rcases hsr with hlt | ⟨heq, -⟩ <;> simp [*]
    exact absurd ((h.keys.total.lt_iff_gt (hlo s hs) (hhi s hs)).mp (hne s hs)) hend

theorem markers_pairwise (hagree : OrderAgrees schema rows ranges)
    (hne : ∀ r ∈ ranges, r.Nonempty schema) (hperm : rs.Perm ranges)
    (hrs : rs.Pairwise (RangeTombstone.Before schema)) :
    (rs.flatMap rangeMarkers).Pairwise fun a b => partitionItemCmp schema a b = .lt := by
  refine List.pairwise_flatMap.mpr ⟨fun r hr => ?_, hrs.imp_of_mem fun {r s} hr hs hrs => ?_⟩
  · have hr := hperm.subset hr
    exact List.pairwise_pair.mpr (markers_nonempty hagree hr (hne r hr)).1
  · have hr := hperm.subset hr
    have hs := hperm.subset hs
    exact fun x hx y hy => (markers_before h hagree hr hs (hne r hr) (hne s hs) hrs x hx y hy).1

omit [DebugFmt] h in
theorem filter_markers : (allItems rows ranges).filter (fun item => !item.isRow) =
    ranges.flatMap rangeMarkers := by
  have hrows : (rows.map PartitionItem.row).filter (fun item => !item.isRow) = [] := by
    simp [List.filter_eq_nil_iff]
  have hmarkers : (ranges.flatMap rangeMarkers).filter (fun item => !item.isRow) =
      ranges.flatMap rangeMarkers := by
    refine List.filter_eq_self.mpr fun item hitem => ?_
    obtain ⟨rt, -, hitem⟩ := List.mem_flatMap.mp hitem
    rcases mem_rangeMarkers.mp hitem with rfl | rfl <;> rfl
  rw [allItems, List.filter_append, hrows, hmarkers, List.nil_append]

section

variable (hagree : OrderAgrees schema rows ranges) (hne : ∀ r ∈ ranges, r.Nonempty schema)

include hagree hne

theorem filter_sorted (hperm : rs.Perm ranges) (hrs : rs.Pairwise (RangeTombstone.Before schema)) :
    (sortPartitionItems schema (allItems rows ranges)).filter (fun item => !item.isRow) =
      rs.flatMap rangeMarkers := by
  refine h.partitionItemCmp_total.filter_mergeSort_eq ?_ (markers_pairwise h hagree hne hperm hrs)
  rw [filter_markers]
  exact hperm.flatMap_right _

theorem sorted_strict (hapart : ranges.Pairwise (RangeTombstone.Apart schema)) :
    (sortPartitionItems schema (allItems rows ranges)).Pairwise fun a b =>
      partitionItemCmp schema a b = .lt := by
  have htotal := h.partitionItemCmp_total
  obtain ⟨rs, hperm, hrs⟩ := exists_sorted_ranges h hne hapart
  have hswap : ∀ {a b}, a ∈ allItems rows ranges → b ∈ allItems rows ranges →
      partitionItemCmp schema a b ≠ .eq →
        partitionItemCmp schema a b ≠ .eq ∧ partitionItemCmp schema b a ≠ .eq :=
    fun ha hb hne => ⟨hne, fun heq => hne ((htotal.eq_comm hb ha).mp heq)⟩
  have hties : (allItems rows ranges).Pairwise fun a b =>
      partitionItemCmp schema a b ≠ .eq ∧ partitionItemCmp schema b a ≠ .eq := by
    rw [allItems, List.pairwise_append]
    refine ⟨List.pairwise_map.mpr (h.sorted.imp_of_mem fun {a b} ha hb hab => ?_), ?_, ?_⟩
    · refine hswap (mem_allItems.mpr (.inl ⟨a, ha, rfl⟩)) (mem_allItems.mpr (.inl ⟨b, hb, rfl⟩)) ?_
      rw [(h.row_cmp ha hb).1, hab]
      simp
    · refine List.Perm.pairwise (hperm.flatMap_right _) ?_ And.symm
      refine (markers_pairwise h hagree hne hperm hrs).imp_of_mem fun {a b} ha hb hab => ?_
      have hmem : ∀ x ∈ rs.flatMap rangeMarkers, x ∈ allItems rows ranges := fun x hx =>
        List.mem_append_right _ ((hperm.flatMap_right _).subset hx)
      exact hswap (hmem a ha) (hmem b hb) (by simp [hab])
    · intro a ha b hb
      obtain ⟨row, hrow, rfl⟩ := List.mem_map.mp ha
      obtain ⟨rt, hrt, hb⟩ := List.mem_flatMap.mp hb
      exact hswap (mem_allItems.mpr (.inl ⟨row, hrow, rfl⟩)) (mem_allItems.mpr (.inr ⟨rt, hrt, hb⟩))
        (row_ne_marker row hb)
  have hsorted := htotal.pairwise_mergeSort
  have hties' := List.Perm.pairwise (List.mergeSort_perm _ fun a b =>
    partitionItemCmp schema a b != .gt).symm hties And.symm
  refine (hsorted.and hties').imp fun {a b} hab => ?_
  cases hcmp : partitionItemCmp schema a b with
  | lt => rfl
  | eq => exact absurd hcmp hab.2.1
  | gt => exact absurd hcmp hab.1

/-- Items in the writer's order are in clustering order, or the bounds of a boundary. -/
theorem inOrder_of_lt (hapart : ranges.Pairwise (RangeTombstone.Apart schema))
    (ha : a ∈ allItems rows ranges) (hb : b ∈ allItems rows ranges)
    (hlt : partitionItemCmp schema a b = .lt) : InOrder schema a b := by
  have hgt : partitionItemCmp schema b a = .gt := (h.partitionItemCmp_total.lt_iff_gt ha hb).mp hlt
  -- a row and a marker are never at one place
  have hmixed : itemOrder schema a b ≠ .eq → InOrder schema a b := by
    intro hne
    cases hspec : itemOrder schema a b with
    | lt => exact .inl hspec
    | eq => exact absurd hspec hne
    | gt => exact absurd hgt (hagree b hb a ha ((h.itemOrder_total.lt_iff_gt hb ha).mpr hspec))
  rcases mem_allItems.mp ha with ⟨row, hrow, rfl⟩ | ⟨r, hr, har⟩
  · rcases mem_allItems.mp hb with ⟨row', hrow', rfl⟩ | ⟨s, hs, hbs⟩
    · rw [(h.row_cmp hrow hrow').1, ← (h.row_cmp hrow hrow').2] at hlt
      exact .inl hlt
    · refine hmixed ?_
      rcases mem_rangeMarkers.mp hbs with rfl | rfl <;>
        simp [itemOrder, Ordering.then_eq_eq, RangeTombstone.opening, RangeTombstone.closing]
  · rcases mem_allItems.mp hb with ⟨row', hrow', rfl⟩ | ⟨s, hs, hbs⟩
    · refine hmixed ?_
      rcases mem_rangeMarkers.mp har with rfl | rfl <;>
        simp [itemOrder, Ordering.then_eq_eq, RangeTombstone.opening, RangeTombstone.closing]
    · by_cases hrs : r = s
      · subst hrs
        obtain ⟨hcode, hspec⟩ := markers_nonempty hagree hr (hne r hr)
        have hrefl := h.partitionItemCmp_total.refl ha
        rcases mem_rangeMarkers.mp har with rfl | rfl <;> rcases mem_rangeMarkers.mp hbs with rfl | rfl
        · rw [hrefl] at hlt; cases hlt
        · exact .inl hspec
        · rw [hcode] at hgt; cases hgt
        · rw [hrefl] at hlt; cases hlt
      · have hsymm : Std.Symm (RangeTombstone.Apart schema) := ⟨fun _ _ => Or.symm⟩
        rcases hapart.forall hr hs hrs with hbefore | hbefore
        · exact (markers_before h hagree hr hs (hne r hr) (hne s hs) hbefore a har b hbs).2
        · rw [(markers_before h hagree hs hr (hne s hs) (hne r hr) hbefore b hbs a har).1] at hgt
          cases hgt

end

omit h in
theorem lt_of_cmp {cks : List ClusteringKey} (hck : KeysOrdered schema cks ranges) {a b : RangeCut}
    (ha : a ∈ occurringCuts cks ranges) (hb : b ∈ occurringCuts cks ranges)
    (h : RangeCut.cmp schema a b = .lt) : cutRank schema cks ranges a < cutRank schema cks ranges b := by
  rwa [← hck.compare_cutRank ha hb, compare_lt_iff_lt] at h

omit h in
theorem le_of_cmp {cks : List ClusteringKey} (hck : KeysOrdered schema cks ranges) {a b : RangeCut}
    (ha : a ∈ occurringCuts cks ranges) (hb : b ∈ occurringCuts cks ranges)
    (h : RangeCut.cmp schema a b ≠ .gt) : cutRank schema cks ranges a ≤ cutRank schema cks ranges b := by
  rwa [← hck.compare_cutRank ha hb, ne_eq, compare_gt_iff_gt, not_lt] at h

omit [DebugFmt] h in
/-- The bounds of a boundary are an end and a start of the ranges. -/
theorem join_ranges (ha : a ∈ allItems rows ranges) (hb : b ∈ allItems rows ranges)
    (hjoin : (joinBoundary schema a b).isSome) :
    ∃ r ∈ ranges, ∃ s ∈ ranges, a = r.closing ∧ b = s.opening ∧
      (boundaryKindFor schema r.endBound s.startBound).isSome := by
  obtain ⟨c, hc⟩ := Option.isSome_iff_exists.mp hjoin
  obtain ⟨closing, opening, _, _, _, _, p, rfl, rfl, hp, -⟩ := joinBoundary_cases hc
  obtain ⟨_, _, hrow⟩ | ⟨r, hr, har⟩ := mem_allItems.mp ha
  · cases hrow
  obtain ⟨_, _, hrow⟩ | ⟨s, hs, hbs⟩ := mem_allItems.mp hb
  · cases hrow
  have har := (mem_rangeMarkers.mp har).resolve_left nofun
  have hbs := (mem_rangeMarkers.mp hbs).resolve_right nofun
  refine ⟨r, hr, s, hs, har, hbs, ?_⟩
  cases har
  cases hbs
  simp [hp]

omit h in
theorem precedes_rank {ck : ClusteringKey}
    (hck : KeysOrdered schema (ck :: rows.map RowWrite.key) ranges) {item : PartitionItem}
    (hcut : item.cut ∈ occurringCuts (ck :: rows.map RowWrite.key) ranges) :
    item.precedes schema ck =
      decide (cutRank schema (ck :: rows.map RowWrite.key) ranges item.cut ≤
        cutRank schema (ck :: rows.map RowWrite.key) ranges (rowCut ck)) := by
  rw [PartitionItem.precedes, ← hck.compare_cutRank hcut (rowCut_mem List.mem_cons_self),
    Bool.eq_iff_iff, bne_iff_ne, ne_eq, compare_gt_iff_gt, decide_eq_true_eq, not_lt]

omit h in
theorem force_ranges {ck : ClusteringKey}
    (hck : KeysOrdered schema (ck :: rows.map RowWrite.key) ranges)
    (hne : ∀ r ∈ ranges, r.Nonempty schema) (hsub : ∀ r ∈ rs, r ∈ ranges)
    (hrs : rs.Pairwise (RangeTombstone.Before schema)) (d : Int) :
    ((rs.flatMap rangeMarkers).filter fun item => item.precedes schema ck).foldl
        PartitionItem.force none = some d ↔
      ∃ rt ∈ rs, rangeTombstoneCoversCk schema ck rt = true ∧ rt.deletionTime = d := by
  let rankOf := cutRank schema (ck :: rows.map RowWrite.key) ranges
  have hlo : ∀ r ∈ ranges, RangeCut.ofStart r.startBound ∈
      occurringCuts (ck :: rows.map RowWrite.key) ranges := fun r hr =>
    rangesIn_self _ (fun _ h => h) r hr _ (by simp [RangeTombstone.cuts])
  have hhi : ∀ r ∈ ranges, RangeCut.ofEnd r.endBound ∈
      occurringCuts (ck :: rows.map RowWrite.key) ranges := fun r hr =>
    rangesIn_self _ (fun _ h => h) r hr _ (by simp [RangeTombstone.cuts])
  have hrow : rowCut ck ∈ occurringCuts (ck :: rows.map RowWrite.key) ranges :=
    rowCut_mem List.mem_cons_self
  have hopening : ∀ r ∈ ranges, r.opening.precedes schema ck =
      decide (rankOf (.ofStart r.startBound) ≤ rankOf (rowCut ck)) := fun r hr =>
    precedes_rank hck (hlo r hr)
  have hclosing : ∀ r ∈ ranges, r.closing.precedes schema ck =
      decide (rankOf (.ofEnd r.endBound) ≤ rankOf (rowCut ck)) := fun r hr =>
    precedes_rank hck (hhi r hr)
  have hcovers : ∀ r ∈ ranges, rangeTombstoneCoversCk schema ck r = true ↔
      rankOf (.ofStart r.startBound) ≤ rankOf (rowCut ck) ∧
        rankOf (rowCut ck) < rankOf (.ofEnd r.endBound) := fun r hr =>
    hck.covers_iff (rangesIn_self _ fun _ h => h) List.mem_cons_self hr
  induction rs with
  | nil => simp
  | cons r rs ih =>
    obtain ⟨hbefore, hrest⟩ := List.pairwise_cons.mp hrs
    have hr := hsub r List.mem_cons_self
    have hsub' : ∀ s ∈ rs, s ∈ ranges := fun s hs => hsub s (List.mem_cons_of_mem _ hs)
    have ih := ih hsub' hrest
    have hnr : rankOf (.ofStart r.startBound) < rankOf (.ofEnd r.endBound) :=
      lt_of_cmp hck (hlo r hr) (hhi r hr) (hne r hr)
    -- what comes later starts at or after the end of `r`
    have hlater : ∀ s ∈ rs, rankOf (.ofEnd r.endBound) ≤ rankOf (.ofStart s.startBound) := by
      intro s hs
      refine le_of_cmp hck (hhi r hr) (hlo s (hsub' s hs)) ?_
      rcases hbefore s hs with hlt | ⟨heq, -⟩ <;> simp [*]
    have hmarkers : (r :: rs).flatMap rangeMarkers =
        r.opening :: r.closing :: rs.flatMap rangeMarkers := rfl
    rw [hmarkers, List.filter_cons, List.filter_cons, hopening r hr, hclosing r hr]
    by_cases hin : rankOf (.ofStart r.startBound) ≤ rankOf (rowCut ck) ∧
        rankOf (rowCut ck) < rankOf (.ofEnd r.endBound)
    · -- the key is inside `r` and before everything later
      have hnone : (rs.flatMap rangeMarkers).filter (fun item => item.precedes schema ck) = [] := by
        refine List.filter_eq_nil_iff.mpr fun item hitem => ?_
        obtain ⟨s, hs, hitem⟩ := List.mem_flatMap.mp hitem
        have hls := hlater s hs
        have hns : rankOf _ < rankOf _ := lt_of_cmp hck (hlo s (hsub' s hs)) (hhi s (hsub' s hs)) (hne s (hsub' s hs))
        rcases mem_rangeMarkers.mp hitem with rfl | rfl
        · rw [hopening s (hsub' s hs), decide_eq_true_eq]
          omega
        · rw [hclosing s (hsub' s hs), decide_eq_true_eq]
          omega
      have honly : ∀ s ∈ rs, rangeTombstoneCoversCk schema ck s ≠ true := by
        intro s hs hcov
        have hls := hlater s hs
        rw [hcovers s (hsub' s hs)] at hcov
        omega
      rw [decide_eq_true hin.1, decide_eq_false (by omega), hnone]
      constructor
      · intro hd
        exact ⟨r, List.mem_cons_self, (hcovers r hr).mpr hin, Option.some.inj hd⟩
      · rintro ⟨s, hs, hcov, rfl⟩
        rcases List.mem_cons.mp hs with rfl | hs
        · rfl
        · exact absurd hcov (honly s hs)
    · -- outside `r` its two markers leave nothing in force
      have hcov : rangeTombstoneCoversCk schema ck r ≠ true := fun hc => hin ((hcovers r hr).mp hc)
      have hdrop : (∃ rt ∈ r :: rs, rangeTombstoneCoversCk schema ck rt = true ∧ rt.deletionTime = d) ↔
          ∃ rt ∈ rs, rangeTombstoneCoversCk schema ck rt = true ∧ rt.deletionTime = d := by
        simp [hcov]
      refine Iff.trans ?_ (ih.trans hdrop.symm)
      by_cases hstart : rankOf (.ofStart r.startBound) ≤ rankOf (rowCut ck)
      · rw [decide_eq_true hstart, decide_eq_true (by omega)]
        rfl
      · rw [decide_eq_false hstart, decide_eq_false (by omega)]
        rfl

/-- Ranges that are apart, in an order the writer keeps, are covered exactly. -/
theorem exactStream_of_apart (hagree : OrderAgrees schema rows ranges)
    (hmeet : BoundariesMeet schema ranges) (hne : ∀ r ∈ ranges, r.Nonempty schema)
    (hapart : ranges.Pairwise (RangeTombstone.Apart schema)) : ExactStream schema rows ranges := by
  obtain ⟨rs, hperm, hrs⟩ := exists_sorted_ranges h hne hapart
  have hsorted := sorted_strict h hagree hne hapart
  have hmem : ∀ x ∈ sortPartitionItems schema (allItems rows ranges), x ∈ allItems rows ranges :=
    fun x hx => List.mem_mergeSort.mp hx
  have hmarkers := filter_sorted h hagree hne hperm hrs
  refine ⟨?_, ?_, fun ck hck d => ?_⟩
  · refine coalesce_pairwise (h.itemOrder_total.mono hmem) (hsorted.imp_of_mem fun {a b} ha hb hab => ?_)
    exact inOrder_of_lt h hagree hne hapart (hmem a ha) (hmem b hb) hab
  · rw [partitionItems, markersAlternate_coalesce, ← markersAlternate_filter, hmarkers]
    exact markersAlternate_ranges rs
  · have hforce := fun d => force_ranges hck hne (fun r hr => hperm.subset hr) hrs d
    have hin : inForce schema (partitionItems schema rows ranges) ck =
        ((rs.flatMap rangeMarkers).filter fun item => item.precedes schema ck).foldl
          PartitionItem.force none := by
      rw [partitionItems, inForce_coalesce, inForce, foldl_force_filter, hmarkers]
      intro a ha b hb hjoin
      obtain ⟨r, hr, s, hs, rfl, rfl, hsome⟩ := join_ranges (hmem a ha) (hmem b hb) hjoin
      have hclose := rangesIn_self (ck :: rows.map RowWrite.key) (fun _ h => h) r hr
        (.ofEnd r.endBound) (by simp [RangeTombstone.cuts])
      have hopen := rangesIn_self (ck :: rows.map RowWrite.key) (fun _ h => h) s hs
        (.ofStart s.startBound) (by simp [RangeTombstone.cuts])
      have heq := hmeet r hr s hs hsome
      rw [← hck.compare_cutRank hclose hopen, compare_eq_iff_eq] at heq
      have hr' := @precedes_rank _ schema rows ranges ck hck r.closing hclose
      have hs' := @precedes_rank _ schema rows ranges ck hck s.opening hopen
      rw [hr', hs']
      exact congrArg (fun n => decide (n ≤ _)) heq
    rw [hin, hforce]
    constructor
    · rintro ⟨rt, hrt, hcov, rfl⟩
      refine ⟨⟨rt, hperm.subset hrt, hcov, rfl⟩, fun rt' hrt' hcov' => ?_⟩
      -- one range covers the key at most
      have hother := (hforce rt'.deletionTime).mpr ⟨rt', hperm.mem_iff.mpr hrt', hcov', rfl⟩
      rw [(hforce rt.deletionTime).mpr ⟨rt, hrt, hcov, rfl⟩] at hother
      exact (Option.some.inj hother).ge
    · rintro ⟨⟨rt, hrt, hcov, hd⟩, -⟩
      exact ⟨rt, hperm.mem_iff.mpr hrt, hcov, hd⟩

/-! ### Only ranges that are apart -/

omit h in
/-- Alternating markers in order pair every start with its own end. -/
theorem exists_paired (htotal : Rank.TotalOn (itemOrder schema) (allItems rows ranges))
    (hne : ∀ r ∈ ranges, r.Nonempty schema) {n : Nat} {part : List RangeTombstone}
    (hlen : part.length = n) (hsub : ∀ r ∈ part, r ∈ ranges) {markers : List PartitionItem}
    (hperm : markers.Perm (part.flatMap rangeMarkers)) (halt : MarkersAlternate false markers)
    (hord : markers.Pairwise (InOrder schema)) :
    ∃ rs : List RangeTombstone, rs.Perm part ∧ markers = rs.flatMap rangeMarkers := by
  induction n generalizing part markers with
  | zero =>
    obtain rfl := List.length_eq_zero_iff.mp hlen
    exact ⟨[], .refl _, List.Perm.eq_nil hperm⟩
  | succ n ih =>
    have hmarker : ∀ x ∈ markers, ∃ r ∈ part, x = r.opening ∨ x = r.closing := by
      intro x hx
      obtain ⟨r, hr, hx⟩ := List.mem_flatMap.mp (hperm.subset hx)
      exact ⟨r, hr, mem_rangeMarkers.mp hx⟩
    obtain _ | ⟨x, _ | ⟨y, rest⟩⟩ := markers
    · obtain _ | ⟨r, part⟩ := part
      · cases hlen
      · exact absurd (List.Perm.nil_eq hperm) (by simp [rangeMarkers])
    · obtain ⟨r, -, rfl | rfl⟩ := hmarker x List.mem_cons_self
      · cases halt.2
      · cases halt.1
    · obtain ⟨r₀, -, rfl | rfl⟩ := hmarker x List.mem_cons_self
      swap
      · cases halt.1
      obtain ⟨r, hr, rfl | rfl⟩ := hmarker y (by simp)
      · cases halt.2.1
      -- the start of the first end is the only start before it
      have hopen : r.opening = r₀.opening := by
        have hmem : r.opening ∈ r₀.opening :: r.closing :: rest := hperm.mem_iff.mpr
          (List.mem_flatMap.mpr ⟨r, hr, mem_rangeMarkers.mpr (.inl rfl)⟩)
        simp only [List.mem_cons] at hmem
        rcases hmem with heq | heq | hmem
        · exact heq
        · exact absurd heq (by simp [RangeTombstone.opening, RangeTombstone.closing])
        · have hle := ((List.pairwise_cons.mp (List.pairwise_cons.mp hord).2).1 _ hmem).le
          have hlt : itemOrder schema r.opening r.closing = .lt := by
            rw [itemOrder_of_markers rfl rfl]
            exact hne r (hsub r hr)
          exact absurd ((htotal.lt_iff_gt (opening_mem (hsub r hr)) (closing_mem (hsub r hr))).mp hlt) hle
      rw [← hopen] at hperm halt hord ⊢
      obtain ⟨before, after, rfl⟩ := List.append_of_mem hr
      have hmiddle : (r.opening :: r.closing :: rest).Perm
          (r.opening :: r.closing :: (before ++ after).flatMap rangeMarkers) :=
        hperm.trans (List.perm_middle.flatMap_right rangeMarkers)
      obtain ⟨rs, hrs, rfl⟩ := @ih (before ++ after) (by simp at hlen ⊢; omega)
        (fun s hs => hsub s (by
          rcases List.mem_append.mp hs with hs | hs <;> simp [hs])) _ hmiddle.cons_inv.cons_inv
        halt.2.2 (List.pairwise_cons.mp (List.pairwise_cons.mp hord).2).2
      exact ⟨r :: rs, (hrs.cons r).trans List.perm_middle.symm, rfl⟩

/-- A stream that covers the ranges exactly comes from ranges that are apart. -/
theorem apart_of_exactStream (hmeet : BoundariesMeet schema ranges)
    (hne : ∀ r ∈ ranges, r.Nonempty schema) (hexact : ExactStream schema rows ranges) :
    OrderAgrees schema rows ranges ∧ ranges.Pairwise (RangeTombstone.Apart schema) := by
  have hmem : ∀ x ∈ sortPartitionItems schema (allItems rows ranges), x ∈ allItems rows ranges :=
    fun x hx => List.mem_mergeSort.mp hx
  have hspec := h.itemOrder_total
  have hord : (sortPartitionItems schema (allItems rows ranges)).Pairwise (InOrder schema) := by
    refine pairwise_of_coalesce (hspec.mono hmem) (fun a ha b hb hjoin => ?_) hexact.ordered
    obtain ⟨r, hr, s, hs, rfl, rfl, hsome⟩ := join_ranges (hmem a ha) (hmem b hb) hjoin
    rw [itemOrder_of_markers rfl rfl]
    exact hmeet r hr s hs hsome
  constructor
  · intro a ha b hb hlt hgt
    have hsymm : Std.Symm fun x y => (partitionItemCmp schema x y ≠ .gt ∧ InOrder schema x y) ∨
        (partitionItemCmp schema y x ≠ .gt ∧ InOrder schema y x) := ⟨fun _ _ => Or.symm⟩
    have hboth := (h.partitionItemCmp_total.pairwise_mergeSort.and hord).imp
      (S := fun x y => (partitionItemCmp schema x y ≠ .gt ∧ InOrder schema x y) ∨
        (partitionItemCmp schema y x ≠ .gt ∧ InOrder schema y x)) Or.inl
    have hne : a ≠ b := by
      rintro rfl
      rw [hspec.refl ha] at hlt
      cases hlt
    rcases hboth.forall (List.mem_mergeSort.mpr ha) (List.mem_mergeSort.mpr hb) hne with
      ⟨hcode, -⟩ | ⟨-, hin⟩
    · exact hcode hgt
    · exact hin.le ((hspec.lt_iff_gt ha hb).mp hlt)
  · have hperm : ((sortPartitionItems schema (allItems rows ranges)).filter fun item =>
        !item.isRow).Perm (ranges.flatMap rangeMarkers) := by
      rw [← @filter_markers rows ranges]
      exact (List.mergeSort_perm _ _).filter _
    have halt := hexact.alternates
    rw [partitionItems, markersAlternate_coalesce, ← markersAlternate_filter] at halt
    obtain ⟨rs, hrs, hmarkers⟩ := exists_paired hspec hne rfl (fun _ hr => hr) hperm halt
      (hord.filter _)
    have hpairs := hord.filter fun item => !item.isRow
    rw [hmarkers, List.pairwise_flatMap] at hpairs
    have hbefore : rs.Pairwise (RangeTombstone.Apart schema) := by
      refine hpairs.2.imp fun {r s} hrs => .inl ?_
      have hmeet := hrs r.closing (mem_rangeMarkers.mpr (.inr rfl)) s.opening
        (mem_rangeMarkers.mpr (.inl rfl))
      rcases hmeet with hlt | ⟨heq, hsome⟩
      · rw [itemOrder_of_markers rfl rfl] at hlt
        exact .inl hlt
      · rw [itemOrder_of_markers rfl rfl] at heq
        rw [RangeTombstone.closing, RangeTombstone.opening, joinBoundary, Option.isSome_map] at hsome
        exact .inr ⟨heq, hsome⟩
    exact List.Perm.pairwise hrs hbefore Or.symm

/-! ### Bounds with every component -/

/-- The stream covers exactly the deleted ranges when they are non-empty and apart and the writer's
    comparison puts no two items the wrong way round; of non-empty ranges only then. -/
theorem exactStream_iff_apart :
    ((∀ r ∈ ranges, r.Nonempty schema) ∧ BoundariesMeet schema ranges ∧
        OrderAgrees schema rows ranges ∧ ranges.Pairwise (RangeTombstone.Apart schema) →
      ExactStream schema rows ranges) ∧
    ((∀ r ∈ ranges, r.Nonempty schema) → BoundariesMeet schema ranges →
      ExactStream schema rows ranges →
        OrderAgrees schema rows ranges ∧ ranges.Pairwise (RangeTombstone.Apart schema)) :=
  ⟨fun ⟨hne, hmeet, hagree, hapart⟩ => exactStream_of_apart h hagree hmeet hne hapart,
    fun hne hmeet hexact => apart_of_exactStream h hmeet hne hexact⟩


end Ranges

section Runs

def intKey (n : Int) : ClusteringKey := ⟨[("c", .integer n)]⟩

def intSchema : TableSchema := ⟨[⟨"c", .asc⟩], fun _ => none⟩

def intRow (n ts : Int) : RowWrite := ⟨some (intKey n), some ts, none, none, [], []⟩

/-- Two ranges that touch, with a newer row in the second. -/
theorem touching_ranges_exact :
    ItemsOrdered intSchema [intRow 6 30] [⟨.inclusive (intKey 1), .exclusive (intKey 5), 10, 1⟩,
      ⟨.inclusive (intKey 5), .inclusive (intKey 8), 20, 2⟩] ∧
    ExactStream intSchema [intRow 6 30] [⟨.inclusive (intKey 1), .exclusive (intKey 5), 10, 1⟩,
      ⟨.inclusive (intKey 5), .inclusive (intKey 8), 20, 2⟩] := by
  have h : ItemsOrdered intSchema [intRow 6 30] [⟨.inclusive (intKey 1), .exclusive (intKey 5), 10, 1⟩,
      ⟨.inclusive (intKey 5), .inclusive (intKey 8), 20, 2⟩] :=
    ⟨⟨by decide, by decide, by decide, by decide⟩, ⟨by decide, by decide⟩, by decide⟩
  refine ⟨h, (exactStream_iff_apart h).1 ⟨?_, ?_, ?_, ?_⟩⟩
  · simp only [RangeTombstone.Nonempty]; decide
  · unfold BoundariesMeet; decide
  · unfold OrderAgrees; decide
  · simp only [List.pairwise_pair, RangeTombstone.Apart, RangeTombstone.Before]; decide

/-- Two ranges that overlap are written as open, open, close, close. -/
theorem overlapping_ranges_inexact :
    ItemsOrdered intSchema [] [⟨.inclusive (intKey 1), .inclusive (intKey 5), 10, 1⟩,
      ⟨.inclusive (intKey 3), .inclusive (intKey 8), 20, 2⟩] ∧
    ¬ ExactStream intSchema [] [⟨.inclusive (intKey 1), .inclusive (intKey 5), 10, 1⟩,
      ⟨.inclusive (intKey 3), .inclusive (intKey 8), 20, 2⟩] := by
  have h : ItemsOrdered intSchema [] [⟨.inclusive (intKey 1), .inclusive (intKey 5), 10, 1⟩,
      ⟨.inclusive (intKey 3), .inclusive (intKey 8), 20, 2⟩] :=
    ⟨⟨by decide, by decide, by decide, by decide⟩, ⟨by decide, by decide⟩, by decide⟩
  refine ⟨h, fun hexact => ?_⟩
  have hapart := (apart_of_exactStream h (by unfold BoundariesMeet; decide)
    (by simp only [RangeTombstone.Nonempty]; decide) hexact).2
  simp only [List.pairwise_pair, RangeTombstone.Apart, RangeTombstone.Before] at hapart
  exact absurd hapart (by decide)

end Runs

end Cqlite
