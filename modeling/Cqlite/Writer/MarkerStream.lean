import Cqlite.Writer.PartitionItems

/-! The range markers of a partition and the ranges they stand for.

    Read back, the deletion in force at a key is the one opened last before it. This is the newest
    range over the key when the ranges are apart and the writer's comparison puts every marker where
    it belongs: an inclusive end and an exclusive start of a prefix come after all rows of the
    prefix, but the comparison sorts a shorter key before its extensions. -/

namespace Cqlite

/-! ### Positions in clustering order -/

def RowWrite.key (row : RowWrite) : ClusteringKey := row.clusteringKey.getD ⟨[]⟩

/-- The key of a cut, empty at the open ends. -/
def RangeCut.key : RangeCut → ClusteringKey
  | .atKey ck _ => ck
  | _ => ⟨[]⟩

namespace PartitionItem

/-- The cut an item sits at, a row at the cut just before it. -/
def cut : PartitionItem → RangeCut
  | .row r => rowCut r.key
  | .marker bound true _ _ => .ofStart bound
  | .marker bound false _ _ => .ofEnd bound
  | .boundary kind ck _ _ _ _ => .atKey ck (kind == inclEndExclStartBoundary)

def isRow : PartitionItem → Bool
  | .row _ => true
  | _ => false

@[simp] theorem isRow_row (r : RowWrite) : (row r).isRow = true := rfl

@[simp] theorem isRow_marker (bound : ClusteringBound) (isOpen : Bool) (d ldt : Int) :
    (marker bound isOpen d ldt).isRow = false := rfl

@[simp] theorem isRow_boundary (kind : Nat) (ck : ClusteringKey) (d ldt d' ldt' : Int) :
    (boundary kind ck d ldt d' ldt').isRow = false := rfl

/-- The deletion in force after an item. -/
def force (state : Option Int) : PartitionItem → Option Int
  | .row _ => state
  | .marker _ true d _ => some d
  | .marker _ false _ _ => none
  | .boundary _ _ _ _ d _ => some d

end PartitionItem

/-- Open and close markers alternate; a boundary closes and reopens, and nothing is left open. -/
def MarkersAlternate : Bool → List PartitionItem → Prop
  | o, [] => o = false
  | o, .row _ :: rest => MarkersAlternate o rest
  | o, .marker _ isOpen _ _ :: rest => o = !isOpen ∧ MarkersAlternate isOpen rest
  | o, .boundary _ _ _ _ _ _ :: rest => o = true ∧ MarkersAlternate true rest

section Stream

variable [DebugFmt] (schema : TableSchema)

/-- Clustering order: at one cut a marker comes before the row. -/
def itemOrder (a b : PartitionItem) : Ordering :=
  (RangeCut.cmp schema a.cut b.cut).then (compare a.isRow b.isRow)

def PartitionItem.precedes (item : PartitionItem) (ck : ClusteringKey) : Bool :=
  RangeCut.cmp schema item.cut (rowCut ck) != .gt

/-- The deletion in force at the position of a key. -/
def inForce (stream : List PartitionItem) (ck : ClusteringKey) : Option Int :=
  (stream.filter fun item => item.precedes schema ck).foldl PartitionItem.force none

variable (rows : List RowWrite) (ranges : List RangeTombstone)

/-- The stream covers exactly the deleted ranges. -/
structure ExactStream : Prop where
  ordered : (partitionItems schema rows ranges).Pairwise fun a b => itemOrder schema a b = .lt
  alternates : MarkersAlternate false (partitionItems schema rows ranges)
  covering : ∀ ck, KeysOrdered schema (ck :: rows.map RowWrite.key) ranges → ∀ d,
    inForce schema (partitionItems schema rows ranges) ck = some d ↔
      (∃ rt ∈ ranges, rangeTombstoneCoversCk schema ck rt = true ∧ rt.deletionTime = d) ∧
        ∀ rt ∈ ranges, rangeTombstoneCoversCk schema ck rt = true → rt.deletionTime ≤ d

/-! ### When it does -/

/-- What the callers give: keys of the schema's types, and rows in clustering order, one per key. -/
structure ItemsOrdered : Prop where
  keys : KeysOrdered schema (rows.map RowWrite.key) ranges
  schemaOrder : Rank.TotalOn (ClusteringKey.schemaCmp schema)
    (⟨[]⟩ :: (occurringCuts (rows.map RowWrite.key) ranges).map RangeCut.key)
  sorted : rows.Pairwise fun a b => ClusteringKey.schemaCmp schema a.key b.key = .lt

variable {rows ranges}

def RangeTombstone.Nonempty (rt : RangeTombstone) : Prop :=
  RangeCut.cmp schema (.ofStart rt.startBound) (.ofEnd rt.endBound) = .lt

/-- One range ends before the other starts, or where it starts in a boundary. -/
def RangeTombstone.Before (r s : RangeTombstone) : Prop :=
  RangeCut.cmp schema (.ofEnd r.endBound) (.ofStart s.startBound) = .lt ∨
    (RangeCut.cmp schema (.ofEnd r.endBound) (.ofStart s.startBound) = .eq ∧
      (boundaryKindFor schema r.endBound s.startBound).isSome)

def RangeTombstone.Apart (r s : RangeTombstone) : Prop := r.Before schema s ∨ s.Before schema r

variable (rows ranges)

/-- The writer's comparison never puts two items the wrong way round. -/
def OrderAgrees : Prop :=
  ∀ a ∈ allItems rows ranges, ∀ b ∈ allItems rows ranges, itemOrder schema a b = .lt →
    partitionItemCmp schema a b ≠ .gt

/-- Bounds that make a boundary have equally many components. -/
def BoundariesMeet : Prop :=
  ∀ r ∈ ranges, ∀ s ∈ ranges, (boundaryKindFor schema r.endBound s.startBound).isSome →
    RangeCut.cmp schema (.ofEnd r.endBound) (.ofStart s.startBound) = .eq

end Stream

/-! ### The writer's comparison -/

variable {a b : PartitionItem}

section Comparison

variable [DebugFmt] {schema : TableSchema} {rows : List RowWrite} {ranges : List RangeTombstone}

variable {item c : PartitionItem}

section

omit [DebugFmt]

theorem mem_allItems : item ∈ allItems rows ranges ↔
    (∃ row ∈ rows, item = .row row) ∨ ∃ rt ∈ ranges, item ∈ rangeMarkers rt := by
  simp [allItems, eq_comm]

theorem cut_mem (hitem : item ∈ allItems rows ranges) :
    item.cut ∈ occurringCuts (rows.map RowWrite.key) ranges := by
  rcases mem_allItems.mp hitem with ⟨row, hrow, rfl⟩ | ⟨rt, hrt, hitem⟩
  · exact rowCut_mem (List.mem_map_of_mem hrow)
  · refine List.mem_append_right _ (List.mem_flatMap.mpr ⟨rt, hrt, ?_⟩)
    simp only [rangeMarkers, List.mem_cons, List.not_mem_nil, or_false] at hitem
    rcases hitem with rfl | rfl <;> simp [PartitionItem.cut, RangeTombstone.cuts]

theorem sortClass_key (item : PartitionItem) : (sortClass item).key.getD ⟨[]⟩ = item.cut.key := by
  cases item with
  | row row => rfl
  | marker bound isOpen d ldt => cases bound <;> cases isOpen <;> rfl
  | boundary kind ck d ldt d' ldt' => rfl

theorem RangeCut.arity_eq (c : RangeCut) : c.arity = c.key.columns.length := by
  cases c <;> rfl

theorem sortClass_position {k : ClusteringKey} (hkey : (sortClass item).key = some k) :
    (sortClass item).position = 0 := by
  cases item with
  | row row => rfl
  | marker bound isOpen d ldt => cases bound <;> first | rfl | cases hkey
  | boundary kind ck d ldt d' ldt' => rfl

end

theorem schemaCmp_nil : ClusteringKey.schemaCmp schema ⟨[]⟩ ⟨[]⟩ = .eq := by
  have hnull : ∀ i cols, ClusteringKey.compareFrom ⟨[]⟩ ⟨[]⟩ i cols = some .eq := by
    intro i cols
    induction cols generalizing i with
    | nil => rfl
    | cons col cols ih => exact ih (i + 1)
  rw [ClusteringKey.schemaCmp, ClusteringKey.compare, if_neg (by simp), hnull]
  rfl

theorem kind_of_tie (htie : partitionItemCmp schema a b = .eq) :
    (sortClass a).kind = (sortClass b).kind := by
  simp only [partitionItemCmp, Ordering.then_eq_eq] at htie
  simpa using htie.2.2.2

namespace ItemsOrdered

variable (h : ItemsOrdered schema rows ranges)

include h

omit [DebugFmt] h in
theorem key_mem (hitem : item ∈ allItems rows ranges) :
    item.cut.key ∈ (⟨[]⟩ : ClusteringKey) ::
      (occurringCuts (rows.map RowWrite.key) ranges).map RangeCut.key :=
  List.mem_cons_of_mem _ (List.mem_map_of_mem (cut_mem hitem))

/-- A key is absent only at an open end, or where there are no clustering columns. -/
theorem absent_key (hitem : item ∈ allItems rows ranges) (hkey : (sortClass item).key = none) :
    (sortClass item).position ≠ 0 ∨ schema.clusteringKeys.length = 0 := by
  rcases mem_allItems.mp hitem with ⟨row, hrow, rfl⟩ | ⟨rt, hrt, hitem⟩
  · right
    rw [← h.keys.rowArity row.key (List.mem_map_of_mem hrow), RowWrite.key,
      show row.clusteringKey = none from hkey]
    rfl
  · left
    simp only [rangeMarkers, List.mem_cons, List.not_mem_nil, or_false] at hitem
    rcases hitem with rfl | rfl
    · cases hb : rt.startBound <;> simp [sortClass, hb] at hkey ⊢
    · cases hb : rt.endBound <;> simp [sortClass, hb] at hkey ⊢

/-- Keys at one position compare as their cuts do. -/
theorem cmpKeys_eq (ha : a ∈ allItems rows ranges) (hb : b ∈ allItems rows ranges)
    (hpos : (sortClass a).position = (sortClass b).position) :
    cmpKeys schema (sortClass a).key (sortClass b).key =
      ClusteringKey.schemaCmp schema a.cut.key b.cut.key := by
  -- an absent key beside a present one: the table has no clustering columns
  have hnil : ∀ x ∈ allItems rows ranges, ∀ y ∈ allItems rows ranges, ∀ k, (sortClass x).key = none →
      (sortClass y).key = some k → (sortClass x).position = (sortClass y).position → k = ⟨[]⟩ := by
    intro x hx y hy k hxk hyk hpos
    have hlen : k.columns.length ≤ schema.clusteringKeys.length := by
      have := h.keys.arity_le (cut_mem hy)
      rw [RangeCut.arity_eq, ← sortClass_key, hyk] at this
      exact this
    have hzero : (sortClass y).position = 0 := sortClass_position hyk
    have hcols := (h.absent_key hx hxk).resolve_left (by rw [hpos, hzero]; simp)
    rw [hcols] at hlen
    exact congrArg ClusteringKey.mk (List.length_eq_zero_iff.mp (Nat.le_zero.mp hlen))
  rw [← sortClass_key, ← sortClass_key]
  cases hka : (sortClass a).key with
  | none =>
    cases hkb : (sortClass b).key with
    | none => exact schemaCmp_nil.symm
    | some k =>
      obtain rfl := hnil a ha b hb k hka hkb hpos
      exact schemaCmp_nil.symm
  | some k =>
    cases hkb : (sortClass b).key with
    | none =>
      obtain rfl := hnil b hb a ha k hkb hka hpos.symm
      exact schemaCmp_nil.symm
    | some k' => rfl

theorem partitionItemCmp_total : Rank.TotalOn (partitionItemCmp schema) (allItems rows ranges) := by
  refine Rank.TotalOn.lex (Rank.totalOn_of_transCmp.comap) fun a ha => ?_
  -- within one class the keys compare as the schema orders them
  have hmem : ∀ b ∈ (allItems rows ranges).filter fun b =>
      compare (sortClass a).position (sortClass b).position == .eq,
      b ∈ allItems rows ranges ∧ (sortClass a).position = (sortClass b).position := by
    intro b hb
    obtain ⟨hb, hpos⟩ := List.mem_filter.mp hb
    exact ⟨hb, by simpa using hpos⟩
  have hkeys : Rank.TotalOn (ClusteringKey.schemaCmp schema)
      ((allItems rows ranges).map fun b => b.cut.key) := by
    refine h.schemaOrder.mono fun k hk => ?_
    obtain ⟨b, hb, rfl⟩ := List.mem_map.mp hk
    exact key_mem hb
  have hclass := hkeys.comap.mono fun b hb => (hmem b hb).1
  refine Rank.TotalOn.lex (hclass.congr fun b hb c hc => ?_) fun b hb =>
    Rank.TotalOn.lex (Rank.totalOn_of_transCmp.comap) fun c hc => Rank.totalOn_of_transCmp.comap
  exact h.cmpKeys_eq (hmem b hb).1 (hmem c hc).1 ((hmem b hb).2.symm.trans (hmem c hc).2)

theorem itemOrder_total : Rank.TotalOn (itemOrder schema) (allItems rows ranges) := by
  have hcuts : Rank.TotalOn (RangeCut.cmp schema) ((allItems rows ranges).map PartitionItem.cut) := by
    refine h.keys.total.mono fun c hc => ?_
    obtain ⟨b, hb, rfl⟩ := List.mem_map.mp hc
    exact cut_mem hb
  exact Rank.TotalOn.lex hcuts.comap fun a ha => Rank.totalOn_of_transCmp.comap

/-- Rows are strictly ordered. -/
theorem row_cmp {a b : RowWrite} (ha : a ∈ rows) (hb : b ∈ rows) :
    partitionItemCmp schema (.row a) (.row b) = ClusteringKey.schemaCmp schema a.key b.key ∧
      itemOrder schema (.row a) (.row b) = ClusteringKey.schemaCmp schema a.key b.key := by
  have ha' : PartitionItem.row a ∈ allItems rows ranges := mem_allItems.mpr (.inl ⟨a, ha, rfl⟩)
  have hb' : PartitionItem.row b ∈ allItems rows ranges := mem_allItems.mpr (.inl ⟨b, hb, rfl⟩)
  constructor
  · rw [partitionItemCmp, h.cmpKeys_eq ha' hb' rfl]
    simp [sortClass, PartitionItem.cut, rowCut, RangeCut.key]
  · rw [itemOrder, PartitionItem.cut, PartitionItem.cut,
      cmp_rowCut_rowCut (h.keys.rowArity _ (List.mem_map_of_mem ha))
        (h.keys.rowArity _ (List.mem_map_of_mem hb))]
    simp [PartitionItem.isRow]

end ItemsOrdered

/-! ### Boundaries -/

omit [DebugFmt] in
theorem boundaryKindFor_cases {closing opening : ClusteringBound} {p : Nat × ClusteringKey}
    (h : boundaryKindFor schema closing opening = some p) :
    (∃ c₁ c₂, closing = .exclusive c₁ ∧ opening = .inclusive c₂ ∧ c₁.compare c₂ schema = some .eq ∧
      p = (exclEndInclStartBoundary, c₂)) ∨
    ∃ c₁ c₂, closing = .inclusive c₁ ∧ opening = .exclusive c₂ ∧ c₁.compare c₂ schema = some .eq ∧
      p = (inclEndExclStartBoundary, c₁) := by
  unfold boundaryKindFor at h
  split at h
  · next c₁ c₂ =>
    split at h
    · next heq => exact .inl ⟨c₁, c₂, rfl, rfl, heq, (Option.some.inj h).symm⟩
    · cases h
  · next c₁ c₂ =>
    split at h
    · next heq => exact .inr ⟨c₁, c₂, rfl, rfl, heq, (Option.some.inj h).symm⟩
    · cases h
  · cases h

omit [DebugFmt] in
theorem joinBoundary_cases (h : joinBoundary schema a b = some c) :
    ∃ closing opening endDt endLdt startDt startLdt p, a = .marker closing false endDt endLdt ∧
      b = .marker opening true startDt startLdt ∧ boundaryKindFor schema closing opening = some p ∧
      c = .boundary p.1 p.2 endDt endLdt startDt startLdt := by
  unfold joinBoundary at h
  split at h
  · next closing endDt endLdt opening startDt startLdt =>
    obtain ⟨p, hp, rfl⟩ := Option.map_eq_some_iff.mp h
    exact ⟨closing, opening, endDt, endLdt, startDt, startLdt, p, rfl, rfl, hp, rfl⟩
  · cases h

theorem joinBoundary_lt (hjoin : joinBoundary schema a b = some c) :
    partitionItemCmp schema a b = .lt := by
  obtain ⟨closing, opening, _, _, _, _, p, rfl, rfl, hp, -⟩ := joinBoundary_cases hjoin
  rcases boundaryKindFor_cases hp with ⟨c₁, c₂, rfl, rfl, heq, -⟩ | ⟨c₁, c₂, rfl, rfl, heq, -⟩ <;>
  · have hcmp : ClusteringKey.schemaCmp schema c₁ c₂ = .eq := by
      rw [ClusteringKey.schemaCmp, heq]
      rfl
    rw [partitionItemCmp]
    simp only [sortClass, cmpKeys, hcmp]
    rfl

omit [DebugFmt] in
theorem joinBoundary_cut (hjoin : joinBoundary schema a b = some c) :
    c.isRow = false ∧ (c.cut = a.cut ∨ c.cut = b.cut) ∧ a.isRow = false ∧ b.isRow = false := by
  obtain ⟨closing, opening, _, _, _, _, p, rfl, rfl, hp, rfl⟩ := joinBoundary_cases hjoin
  rcases boundaryKindFor_cases hp with ⟨c₁, c₂, rfl, rfl, -, rfl⟩ | ⟨c₁, c₂, rfl, rfl, -, rfl⟩
  · exact ⟨rfl, .inr rfl, rfl, rfl⟩
  · exact ⟨rfl, .inl rfl, rfl, rfl⟩

omit [DebugFmt] in
theorem joinBoundary_next {d : PartitionItem} (hjoin : joinBoundary schema a b = some c) :
    joinBoundary schema b d = none := by
  obtain ⟨closing, opening, _, _, _, _, p, rfl, rfl, -, -⟩ := joinBoundary_cases hjoin
  rfl

end Comparison

/-! ### Coalescing -/

section Coalesce

variable [DebugFmt] {schema : TableSchema}

/-- Two items in clustering order, or the two bounds of a boundary. -/
def InOrder (schema : TableSchema) (a b : PartitionItem) : Prop :=
  itemOrder schema a b = .lt ∨ (itemOrder schema a b = .eq ∧ (joinBoundary schema a b).isSome)

theorem InOrder.le (h : InOrder schema a b) : itemOrder schema a b ≠ .gt := by
  rcases h with h | ⟨h, -⟩ <;> simp [h]

theorem InOrder.lt_of_none (h : InOrder schema a b) (hjoin : joinBoundary schema a b = none) :
    itemOrder schema a b = .lt := by
  rcases h with h | ⟨-, hsome⟩
  · exact h
  · simp [hjoin] at hsome

variable {items : List PartitionItem}

omit [DebugFmt] in
theorem mem_coalesce {y : PartitionItem} (hy : y ∈ coalesceBoundaries schema items) :
    ∃ z ∈ items, z.cut = y.cut ∧ z.isRow = y.isRow := by
  fun_induction coalesceBoundaries schema items with
  | case1 => cases hy
  | case2 item => exact ⟨y, hy, rfl, rfl⟩
  | case3 a b rest c hjoin ih =>
    obtain ⟨hrow, hcut, hra, hrb⟩ := joinBoundary_cut hjoin
    rcases List.mem_cons.mp hy with rfl | hy
    · rcases hcut with hcut | hcut
      · exact ⟨a, by simp, hcut.symm, hra.trans hrow.symm⟩
      · exact ⟨b, by simp, hcut.symm, hrb.trans hrow.symm⟩
    · obtain ⟨z, hz, hcut⟩ := ih hy
      exact ⟨z, by simp [hz], hcut⟩
  | case4 a b rest hjoin ih =>
    rcases List.mem_cons.mp hy with rfl | hy
    · exact ⟨y, by simp, rfl, rfl⟩
    · obtain ⟨z, hz, hcut⟩ := ih hy
      exact ⟨z, List.mem_cons_of_mem _ hz, hcut⟩

theorem itemOrder_congr_right {y z : PartitionItem} (hcut : z.cut = y.cut)
    (hrow : z.isRow = y.isRow) : itemOrder schema a y = itemOrder schema a z := by
  rw [itemOrder, itemOrder, hcut, hrow]

/-- Joined boundaries are strictly ordered. -/
theorem coalesce_pairwise (htotal : Rank.TotalOn (itemOrder schema) items)
    (h : items.Pairwise (InOrder schema)) :
    (coalesceBoundaries schema items).Pairwise fun a b => itemOrder schema a b = .lt := by
  fun_induction coalesceBoundaries schema items with
  | case1 => exact .nil
  | case2 item => exact List.pairwise_singleton _ _
  | case3 a b rest c hjoin ih =>
    obtain ⟨ha, hb⟩ := List.pairwise_cons.mp h
    obtain ⟨hb, hrest⟩ := List.pairwise_cons.mp hb
    refine List.pairwise_cons.mpr ⟨fun y hy => ?_, ih (htotal.mono (by simp_all)) hrest⟩
    obtain ⟨z, hz, hcut, hrow⟩ := mem_coalesce hy
    rw [itemOrder_congr_right hcut hrow]
    -- the opening bound is strictly before what follows, and the closing one not after it
    have hbz : itemOrder schema b z = .lt := (hb z hz).lt_of_none (joinBoundary_next hjoin)
    have haz : itemOrder schema a z = .lt := htotal.lt_of_le_of_lt (by simp) (by simp) (by simp [hz])
      (ha b (by simp)).le hbz
    obtain ⟨hcrow, hccut, har, hbr⟩ := joinBoundary_cut hjoin
    rcases hccut with hccut | hccut
    · rw [itemOrder, hccut, hcrow, ← har]
      exact haz
    · rw [itemOrder, hccut, hcrow, ← hbr]
      exact hbz
  | case4 a b rest hjoin ih =>
    obtain ⟨ha, hrest⟩ := List.pairwise_cons.mp h
    refine List.pairwise_cons.mpr ⟨fun y hy => ?_, ih (htotal.mono (by simp_all)) hrest⟩
    obtain ⟨z, hz, hcut, hrow⟩ := mem_coalesce hy
    rw [itemOrder_congr_right hcut hrow]
    have hab : itemOrder schema a b = .lt := (ha b (by simp)).lt_of_none hjoin
    rcases List.mem_cons.mp hz with rfl | hz'
    · exact hab
    · exact htotal.lt_of_lt_of_le (by simp) (by simp) (List.mem_cons_of_mem _ hz) hab
        ((List.pairwise_cons.mp hrest).1 z hz').le

theorem exists_mem_coalesce {z : PartitionItem} (hz : z ∈ items)
    (htotal : Rank.TotalOn (itemOrder schema) items)
    (hmeet : ∀ a ∈ items, ∀ b ∈ items, (joinBoundary schema a b).isSome →
      itemOrder schema a b = .eq) :
    ∃ y ∈ coalesceBoundaries schema items, ∃ z' ∈ items, itemOrder schema z z' = .eq ∧
      z'.cut = y.cut ∧ z'.isRow = y.isRow := by
  fun_induction coalesceBoundaries schema items with
  | case1 => cases hz
  | case2 item => exact ⟨z, hz, z, hz, htotal.refl hz, rfl, rfl⟩
  | case3 a b rest c hjoin ih =>
    obtain ⟨hcrow, hcut, har, hbr⟩ := joinBoundary_cut hjoin
    have hab : itemOrder schema a b = .eq := hmeet a (by simp) b (by simp) (by simp [hjoin])
    have hba : itemOrder schema b a = .eq := (htotal.eq_comm (by simp) (by simp)).mp hab
    have haa : itemOrder schema a a = .eq := htotal.refl (by simp)
    have hbb : itemOrder schema b b = .eq := htotal.refl (by simp)
    simp only [List.mem_cons] at hz
    rcases hz with rfl | rfl | hz
    · rcases hcut with hcut | hcut
      · exact ⟨c, by simp, z, by simp, haa, hcut.symm, har.trans hcrow.symm⟩
      · exact ⟨c, by simp, b, by simp, hab, hcut.symm, hbr.trans hcrow.symm⟩
    · rcases hcut with hcut | hcut
      · exact ⟨c, by simp, a, by simp, hba, hcut.symm, har.trans hcrow.symm⟩
      · exact ⟨c, by simp, z, by simp, hbb, hcut.symm, hbr.trans hcrow.symm⟩
    · obtain ⟨y, hy, z', hz', hrest⟩ := ih hz (htotal.mono (by simp_all))
        fun x hx w hw => hmeet x (by simp [hx]) w (by simp [hw])
      exact ⟨y, by simp [hy], z', by simp [hz'], hrest⟩
  | case4 a b rest hjoin ih =>
    rcases List.mem_cons.mp hz with rfl | hz
    · exact ⟨z, by simp, z, by simp, htotal.refl (by simp), rfl, rfl⟩
    · obtain ⟨y, hy, z', hz', hrest⟩ := ih hz (htotal.mono (by simp_all))
        fun x hx w hw => hmeet x (List.mem_cons_of_mem _ hx) w (List.mem_cons_of_mem _ hw)
      exact ⟨y, List.mem_cons_of_mem _ hy, z', List.mem_cons_of_mem _ hz', hrest⟩

/-- Joining boundaries hides no disorder. -/
theorem pairwise_of_coalesce (htotal : Rank.TotalOn (itemOrder schema) items)
    (hmeet : ∀ a ∈ items, ∀ b ∈ items, (joinBoundary schema a b).isSome →
      itemOrder schema a b = .eq)
    (h : (coalesceBoundaries schema items).Pairwise fun a b => itemOrder schema a b = .lt) :
    items.Pairwise (InOrder schema) := by
  fun_induction coalesceBoundaries schema items with
  | case1 => exact .nil
  | case2 item => exact List.pairwise_singleton _ _
  | case3 a b rest c hjoin ih =>
    obtain ⟨hc, hrest⟩ := List.pairwise_cons.mp h
    have hab : itemOrder schema a b = .eq := hmeet a (by simp) b (by simp) (by simp [hjoin])
    have hsub : ∀ x ∈ rest, x ∈ a :: b :: rest := by simp_all
    have hmeet' : ∀ x ∈ rest, ∀ w ∈ rest, (joinBoundary schema x w).isSome →
        itemOrder schema x w = .eq := fun x hx w hw => hmeet x (hsub x hx) w (hsub w hw)
    -- what the boundary is before, both its bounds are before
    have hlt : ∀ z ∈ rest, itemOrder schema a z = .lt ∧ itemOrder schema b z = .lt := by
      intro z hz
      obtain ⟨y, hy, z', hz', hzz', hcut, hrow⟩ :=
        exists_mem_coalesce hz (htotal.mono hsub) hmeet'
      have hcz : itemOrder schema c z' = .lt := by
        rw [← itemOrder_congr_right hcut hrow]
        exact hc y hy
      obtain ⟨hcrow, hccut, har, hbr⟩ := joinBoundary_cut hjoin
      have hone : itemOrder schema a z' = .lt ∨ itemOrder schema b z' = .lt := by
        rcases hccut with hccut | hccut
        · left
          rwa [itemOrder, hccut, hcrow, ← har] at hcz
        · right
          rwa [itemOrder, hccut, hcrow, ← hbr] at hcz
      have hza := htotal.cmp_congr (hsub z hz) (hsub z' hz') (List.mem_cons_self : a ∈ a :: b :: rest) hzz'
      have hzb := htotal.cmp_congr (hsub z hz) (hsub z' hz') (by simp : b ∈ a :: b :: rest) hzz'
      rw [hza, hzb]
      rcases hone with hone | hone
      · exact ⟨hone, htotal.lt_of_le_of_lt (by simp) (by simp) (hsub z' hz')
          (by simp [(htotal.eq_comm (by simp) (by simp)).mp hab]) hone⟩
      · exact ⟨htotal.lt_of_le_of_lt (by simp) (by simp) (hsub z' hz') (by simp [hab]) hone, hone⟩
    refine List.pairwise_cons.mpr ⟨fun z hz => ?_, List.pairwise_cons.mpr
      ⟨fun z hz => .inl (hlt z hz).2, ih (htotal.mono hsub) hmeet' hrest⟩⟩
    rcases List.mem_cons.mp hz with rfl | hz
    · exact .inr ⟨hab, by simp [hjoin]⟩
    · exact .inl (hlt z hz).1
  | case4 a b rest hjoin ih =>
    obtain ⟨ha, hrest⟩ := List.pairwise_cons.mp h
    have hmeet' : ∀ x ∈ b :: rest, ∀ w ∈ b :: rest, (joinBoundary schema x w).isSome →
        itemOrder schema x w = .eq := fun x hx w hw =>
      hmeet x (List.mem_cons_of_mem _ hx) w (List.mem_cons_of_mem _ hw)
    have htotal' : Rank.TotalOn (itemOrder schema) (b :: rest) :=
      htotal.mono fun x hx => List.mem_cons_of_mem _ hx
    refine List.pairwise_cons.mpr ⟨fun z hz => .inl ?_, ih htotal' hmeet' hrest⟩
    obtain ⟨y, hy, z', hz', hzz', hcut, hrow⟩ := exists_mem_coalesce hz htotal' hmeet'
    rw [htotal.cmp_congr (List.mem_cons_of_mem _ hz) (List.mem_cons_of_mem _ hz') (by simp) hzz',
      ← itemOrder_congr_right hcut hrow]
    exact ha y hy

section

omit [DebugFmt]

theorem markersAlternate_coalesce {o : Bool} :
    MarkersAlternate o (coalesceBoundaries schema items) ↔ MarkersAlternate o items := by
  fun_induction coalesceBoundaries schema items generalizing o with
  | case1 => rfl
  | case2 item => rfl
  | case3 a b rest c hjoin ih =>
    obtain ⟨closing, opening, _, _, _, _, p, rfl, rfl, -, rfl⟩ := joinBoundary_cases hjoin
    simp [MarkersAlternate, ih]
  | case4 a b rest hjoin ih =>
    cases a with
    | row r => exact ih
    | marker bound isOpen d ldt => simp only [MarkersAlternate, ih]
    | boundary kind ck d ldt d' ldt' => simp only [MarkersAlternate, ih]

theorem markersAlternate_filter {o : Bool} :
    MarkersAlternate o (items.filter fun item => !item.isRow) ↔ MarkersAlternate o items := by
  induction items generalizing o with
  | nil => rfl
  | cons item items ih => cases item <;> simp [MarkersAlternate, ih]

theorem markersAlternate_ranges (ranges : List RangeTombstone) :
    MarkersAlternate false (ranges.flatMap rangeMarkers) := by
  induction ranges with
  | nil => rfl
  | cons rt ranges ih => exact ⟨rfl, rfl, ih⟩

theorem foldl_force_filter {p : PartitionItem → Bool} {state : Option Int} :
    ((items.filter p).foldl PartitionItem.force state) =
      ((items.filter fun item => !item.isRow).filter p).foldl PartitionItem.force state := by
  induction items generalizing state with
  | nil => rfl
  | cons item items ih =>
    cases item with
    | row r =>
      cases hp : p (.row r) <;> simp [hp, PartitionItem.force, ih]
    | marker bound isOpen d ldt =>
      cases hp : p (.marker bound isOpen d ldt) <;> simp [hp, ih]
    | boundary kind ck d ldt d' ldt' =>
      cases hp : p (.boundary kind ck d ldt d' ldt') <;> simp [hp, ih]

end

/-- Coalescing bounds that meet leaves the deletion in force at every key. -/
theorem inForce_coalesce {ck : ClusteringKey}
    (hmeet : ∀ a ∈ items, ∀ b ∈ items, (joinBoundary schema a b).isSome →
      a.precedes schema ck = b.precedes schema ck) :
    inForce schema (coalesceBoundaries schema items) ck = inForce schema items ck := by
  rw [inForce, inForce]
  generalize none = state
  fun_induction coalesceBoundaries schema items generalizing state with
  | case1 => rfl
  | case2 item => rfl
  | case3 a b rest c hjoin ih =>
    have hab := hmeet a (by simp) b (by simp) (by simp [hjoin])
    have hca : c.precedes schema ck = b.precedes schema ck := by
      obtain ⟨-, hcut | hcut, -⟩ := joinBoundary_cut hjoin
      · rw [PartitionItem.precedes, hcut, ← PartitionItem.precedes, hab]
      · rw [PartitionItem.precedes, hcut, ← PartitionItem.precedes]
    have ih := ih fun x hx y hy => hmeet x (by simp [hx]) y (by simp [hy])
    obtain ⟨closing, opening, _, _, startDt, startLdt, p, rfl, rfl, -, rfl⟩ :=
      joinBoundary_cases hjoin
    cases hb : (PartitionItem.marker opening true startDt startLdt).precedes schema ck with
    | false => simpa [hca, hab, hb] using ih state
    | true => simpa [hca, hab, hb, PartitionItem.force] using ih _
  | case4 a b rest hjoin ih =>
    have ih := ih fun x hx y hy => hmeet x (List.mem_cons_of_mem _ hx) y (List.mem_cons_of_mem _ hy)
    cases ha : a.precedes schema ck with
    | false => simpa [List.filter_cons, ha] using ih state
    | true => simpa [List.filter_cons, ha] using ih _

end Coalesce

end Cqlite
