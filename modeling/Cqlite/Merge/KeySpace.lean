import Cqlite.Merge.MarkerShadow
import Cqlite.Merge.PopOrder
import Cqlite.Merge.ShadowContent

/-! Merging what was merged before.

    The output of a merge is input of the next one, together with entries of other SSTables. Both
    merges compare keys and cuts of one `KeySpace`; within it, equal keys are interchangeable and the
    rows of a key in the output are read off the rows of that key in the input. -/

namespace Cqlite

variable [DebugFmt]

/-! ### Keys -/

/-- Clustering keys and range bounds that occur together: ordered by the schema, grouped by the
    fallback order, and named by the schema. -/
structure KeySpace (schema : TableSchema) (cks : List ClusteringKey) (ranges : List RangeTombstone) :
    Prop where
  ordered : KeysOrdered schema cks ranges
  fallback : Rank.TotalOn ClusteringKey.cmp cks
  names : ∀ ck ∈ cks, ck.columnNames = schema.clusteringKeys.map (·.name)

/-- The optional keys of a key space. -/
def optionalKeys (cks : List ClusteringKey) : List (Option ClusteringKey) := none :: cks.map some

variable {ck a b : Option ClusteringKey}

omit [DebugFmt] in
theorem mem_optionalKeys {cks : List ClusteringKey} :
    ck ∈ optionalKeys cks ↔ ∀ x ∈ ck, x ∈ cks := by
  cases ck <;> simp [optionalKeys]

namespace KeySpace

variable {schema : TableSchema} {cks : List ClusteringKey} {ranges : List RangeTombstone}

theorem total (h : KeySpace schema cks ranges) : Rank.TotalOn cmpOptionKey (optionalKeys cks) := by
  refine totalOn_cmpOptionKey ?_
  have : (optionalKeys cks).filterMap id = cks := by simp [optionalKeys, List.filterMap_map]
  rw [this]
  exact h.fallback

theorem cutRank_congr (h : KeySpace schema cks ranges) {a b : ClusteringKey} (ha : a ∈ cks)
    (hb : b ∈ cks) (hab : a.cmp b = .eq) :
    cutRank schema cks ranges (rowCut a) = cutRank schema cks ranges (rowCut b) := by
  have hla := h.ordered.rowArity a ha
  have hlb := h.ordered.rowArity b hb
  rw [← compare_eq_iff_eq, h.ordered.compare_cutRank (rowCut_mem ha) (rowCut_mem hb),
    cmp_rowCut_rowCut hla hlb, schemaCmp_eq_iff hla hlb]
  exact hab

theorem covers_congr (h : KeySpace schema cks ranges) {rts : List RangeTombstone}
    (hin : RangesIn cks ranges rts) (ha : a ∈ optionalKeys cks) (hb : b ∈ optionalKeys cks)
    (hab : cmpOptionKey a b = .eq) {rt : RangeTombstone} (hrt : rt ∈ rts) :
    (∃ x ∈ a, rangeTombstoneCoversCk schema x rt = true) ↔
      ∃ x ∈ b, rangeTombstoneCoversCk schema x rt = true := by
  rw [mem_optionalKeys] at ha hb
  cases a with
  | none =>
    cases b with
    | none => rfl
    | some b => cases hab
  | some a =>
    cases b with
    | none => cases hab
    | some b =>
      have ha := ha a rfl
      have hb := hb b rfl
      simp only [Option.mem_def, Option.some.injEq, exists_eq_left']
      rw [h.ordered.covers_iff hin ha hrt, h.ordered.covers_iff hin hb hrt,
        h.cutRank_congr ha hb hab]

theorem isDataCell_congr (h : KeySpace schema cks ranges) (ha : a ∈ optionalKeys cks)
    (hb : b ∈ optionalKeys cks) (hab : cmpOptionKey a b = .eq) (c : CellData) :
    isDataCell a c = isDataCell b c := by
  rw [mem_optionalKeys] at ha hb
  have hnames : ckNames a = ckNames b := by
    cases a with
    | none =>
      cases b with
      | none => rfl
      | some b => cases hab
    | some a =>
      cases b with
      | none => cases hab
      | some b => exact (h.names a (ha a rfl)).trans (h.names b (hb b rfl)).symm
  rw [isDataCell, isDataCell, hnames]

end KeySpace

/-! ### Entries -/

/-- Entries of one partition over a key space: one partition key, keys and range bounds of the space,
    and ranges on carriers only. -/
structure EntriesIn (cks : List ClusteringKey) (ranges : List RangeTombstone) (key : DecoratedKey)
    (rows : List MergeEntry) : Prop where
  sameKey : ∀ e ∈ rows, e.key = key
  keys : ∀ e ∈ rows, e.clusteringKey ∈ optionalKeys cks
  cuts : RangesIn cks ranges (partitionRanges rows)
  rowRange : ∀ e ∈ rows, isCarrier e = false → e.rangeDeletion = none

namespace EntriesIn

variable {schema : TableSchema} {cks : List ClusteringKey} {ranges : List RangeTombstone}
  {key : DecoratedKey} {rows rows' : List MergeEntry}

omit [DebugFmt] in
theorem mono (h : EntriesIn cks ranges key rows) (hsub : ∀ e ∈ rows', e ∈ rows) :
    EntriesIn cks ranges key rows' where
  sameKey e he := h.sameKey e (hsub e he)
  keys e he := h.keys e (hsub e he)
  cuts rt hrt := h.cuts rt (partitionRanges_subset hsub rt hrt)
  rowRange e he := h.rowRange e (hsub e he)

omit [DebugFmt] in
theorem append (h : EntriesIn cks ranges key rows) (h' : EntriesIn cks ranges key rows') :
    EntriesIn cks ranges key (rows ++ rows') where
  sameKey e he := (List.mem_append.mp he).elim (h.sameKey e) (h'.sameKey e)
  keys e he := (List.mem_append.mp he).elim (h.keys e) (h'.keys e)
  cuts rt hrt := by
    rw [partitionRanges_append, List.mem_append] at hrt
    exact hrt.elim (h.cuts rt) (h'.cuts rt)
  rowRange e he := (List.mem_append.mp he).elim (h.rowRange e) (h'.rowRange e)

theorem partitionInput (h : EntriesIn cks ranges key rows) (hs : KeySpace schema cks ranges) :
    PartitionInput schema key rows := by
  have hkeys : ∀ ck ∈ rowKeys rows, ck ∈ cks := by
    intro ck hck
    obtain ⟨e, he, hk⟩ := List.mem_filterMap.mp hck
    exact mem_optionalKeys.mp (h.keys e he) ck hk
  refine ⟨h.sameKey, ⟨fun ck hck => hs.ordered.rowArity ck (hkeys ck hck), ?_, ?_⟩,
    hs.fallback.mono hkeys⟩
  · intro rt hrt c hc
    exact hs.ordered.arity_le (h.cuts rt hrt c hc)
  · refine hs.ordered.total.mono ?_
    intro c hc
    rcases List.mem_append.mp hc with hc | hc
    · obtain ⟨ck, hck, rfl⟩ := List.mem_map.mp hc
      exact rowCut_mem (hkeys ck hck)
    · obtain ⟨rt, hrt, hc⟩ := List.mem_flatMap.mp hc
      exact h.cuts rt hrt c hc

theorem rowsAt_congr (h : EntriesIn cks ranges key rows) (hs : KeySpace schema cks ranges)
    (ha : a ∈ optionalKeys cks) (hb : b ∈ optionalKeys cks) (hab : cmpOptionKey a b = .eq) :
    rowsAt rows a = rowsAt rows b := by
  refine List.filter_congr fun e he => ?_
  rw [hs.total.cmp_congr ha hb (h.keys e (List.mem_of_mem_filter he)) hab]

end EntriesIn

/-! ### The output at a key -/

section Output

variable {cfg : MergerConfig} {cks : List ClusteringKey} {ranges : List RangeTombstone}
  {key : DecoratedKey} {rows : List MergeEntry}

variable {e out : MergeEntry}

omit [DebugFmt] in
theorem shadowBelow_carries {floor : Int} {ml : Bool} (h : shadowBelow floor ml e = some out) :
    out.key = e.key ∧ out.partitionDeletion = none ∧ out.rangeDeletion = none := by
  cases shadowBelow_cases h with
  | tombstone dt ldt hrow hlt => exact ⟨rfl, rfl, rfl⟩
  | live cells hrow hkept => exact ⟨rfl, rfl, rfl⟩
  | rowDeletion cells d hrow hdata hml hd hlt => exact ⟨rfl, rfl, rfl⟩
  | carrier _ hout hrow hcells =>
    unfold complexCarrier at hout
    split at hout
    · cases hout
      exact ⟨rfl, rfl, rfl⟩
    · cases hout

omit [DebugFmt] in
theorem shadowRow_carries {f : Option Int} {p : Option Deletion} (h : shadowRow f p e = some out)
    (hp : e.partitionDeletion = none) (hr : e.rangeDeletion = none) :
    out.key = e.key ∧ out.partitionDeletion = none ∧ out.rangeDeletion = none := by
  obtain ⟨mid, hmid, hout⟩ := Option.bind_eq_some_iff.mp h
  have h₁ : mid.key = e.key ∧ mid.partitionDeletion = none ∧ mid.rangeDeletion = none := by
    cases f with
    | none =>
      cases hmid
      exact ⟨rfl, hp, hr⟩
    | some f => exact shadowBelow_carries hmid
  cases p with
  | none =>
    cases hout
    exact h₁
  | some p =>
    obtain ⟨hk, hrest⟩ := shadowBelow_carries hout
    exact ⟨hk.trans h₁.1, hrest⟩

/-- A merged row is a plain row: neither a carrier nor a holder of a range. -/
theorem EntriesIn.mergedRow_plain (h : EntriesIn cks ranges key rows) {first : MergeEntry}
    {rest : List MergeEntry} (hcl : IsCluster rows first rest)
    (he : mergedRow cfg key rows first rest = some e) :
    e.key = key ∧ isCarrier e = false ∧ e.rangeDeletion = none := by
  rw [mergedRow, mergeCluster_eq] at he
  obtain ⟨e₀, he₀, hout⟩ := Option.bind_eq_some_iff.mp he
  obtain ⟨ts, data, del, rfl⟩ := groupOutput_frame he₀
  have hranges : groupRanges (first :: rest) = [] := by
    rw [groupRanges, List.flatMap_eq_nil_iff]
    intro x hx
    have hx' : x ∈ rowsAt rows first.clusteringKey := by
      rw [hcl]
      exact hx
    have hplain : isCarrier x = false := by
      simpa using (List.mem_filter.mp (List.mem_of_mem_filter hx')).2
    rw [h.rowRange x (hcl.mem hx) hplain]
    rfl
  have hrd : groupRangeDeletion (first :: rest) = none := by
    rw [groupRangeDeletion, hranges]
    rfl
  obtain ⟨hk, hp, hr⟩ := shadowRow_carries hout rfl hrd
  refine ⟨hk.trans (h.sameKey first (hcl.mem (by simp))), ?_, hr⟩
  simp [isCarrier, MergeEntry.isPartitionDeleteCarrier, isRangeMarkerCarrier, hp, hr]

/-- The output of a merge is input for another one over the same key space. -/
theorem EntriesIn.output (h : EntriesIn cks ranges key rows) (hs : KeySpace cfg.schema cks ranges) :
    EntriesIn cks ranges key (mergePartitionRows cfg rows) := by
  have hin := h.partitionInput hs
  have hcuts : RangesIn cks ranges (coalescePartitionRangeTombstones cfg.schema (partitionRanges rows)) :=
    KeysOrdered.coalesce_rangesIn h.cuts
  have hrange : ∀ e ∈ rangeCarriers cfg key rows, e.key = key ∧ e.clusteringKey = none ∧
      e.partitionDeletion = none ∧ isCarrier e = true ∧ ∃ rt ∈ coalescePartitionRangeTombstones
        cfg.schema (partitionRanges rows), e.rangeDeletion = some rt := by
    intro e he
    obtain ⟨r, hr, hem⟩ := List.mem_filterMap.mp he
    obtain ⟨rt, hrt, rfl⟩ := List.mem_map.mp (List.mem_of_mem_filter hr)
    unfold emitRange at hem
    split at hem
    · cases hem
    · cases hem
      exact ⟨rfl, rfl, rfl, rfl, rt, hrt, rfl⟩
  have hpart : ∀ e ∈ partitionCarrier cfg key rows, e.key = key ∧ e.clusteringKey = none ∧
      e.partitionDeletion.isSome = true := by
    intro e he
    rw [Option.mem_def, partitionCarrier, emitPartitionDeletion] at he
    split at he
    · rename_i d k hd hk
      split at he
      · cases he
      · cases he
        have hkey : k = key := by
          by_cases hnil : partitionDeletions rows = []
          · simp [hnil] at hk
          · simpa [hnil] using hk.symm
        exact ⟨hkey, rfl, rfl⟩
    · cases he
  refine ⟨?_, ?_, ?_, ?_⟩
  · intro e he
    rcases hin.mem_mergePartitionRows.mp he with ⟨first, rest, hcl, hrow⟩ | he | he
    · exact (h.mergedRow_plain hcl hrow).1
    · exact (hrange e he).1
    · exact (hpart e he).1
  · intro e he
    rcases hin.mem_mergePartitionRows.mp he with ⟨first, rest, hcl, hrow⟩ | he | he
    · rw [mergedRow_clusteringKey hrow]
      exact h.keys first (hcl.mem (by simp))
    · rw [(hrange e he).2.1]
      exact List.mem_cons_self
    · rw [(hpart e he).2.1]
      exact List.mem_cons_self
  · intro rt hrt
    obtain ⟨e, he, hrd⟩ := List.mem_filterMap.mp hrt
    obtain ⟨he, hc⟩ := List.mem_filter.mp he
    rcases hin.mem_mergePartitionRows.mp he with ⟨first, rest, hcl, hrow⟩ | he | he
    · rw [(h.mergedRow_plain hcl hrow).2.2] at hrd
      cases hrd
    · obtain ⟨-, -, -, -, rt', hrt', hrd'⟩ := hrange e he
      obtain rfl : rt' = rt := by simpa [hrd'] using hrd
      exact hcuts rt' hrt'
    · simp [MergeEntry.isPartitionDeleteCarrier, (hpart e he).2.2] at hc
  · intro e he hc
    rcases hin.mem_mergePartitionRows.mp he with ⟨first, rest, hcl, hrow⟩ | he | he
    · exact (h.mergedRow_plain hcl hrow).2.2
    · rw [(hrange e he).2.2.2.1] at hc
      cases hc
    · simp [isCarrier, MergeEntry.isPartitionDeleteCarrier, (hpart e he).2.2] at hc

/-- The output at a key comes from the group of that key. -/
theorem EntriesIn.mem_rowsAt_output (h : EntriesIn cks ranges key rows)
    (hs : KeySpace cfg.schema cks ranges) (hck : ck ∈ optionalKeys cks) :
    e ∈ rowsAt (mergePartitionRows cfg rows) ck ↔
      ∃ first rest, rowsAt rows ck = first :: rest ∧ mergedRow cfg key rows first rest = some e := by
  have hin := h.partitionInput hs
  simp only [rowsAt, List.mem_filter, Bool.not_eq_true', beq_iff_eq]
  constructor
  · rintro ⟨⟨he, hc⟩, hk⟩
    rcases hin.mem_mergePartitionRows.mp he with ⟨first, rest, hcl, hrow⟩ | he | he
    · rw [mergedRow_clusteringKey hrow] at hk
      refine ⟨first, rest, ?_, hrow⟩
      exact (h.rowsAt_congr hs (h.keys first (hcl.mem (by simp))) hck hk).symm.trans hcl
    · obtain ⟨k, rt, rfl⟩ := rangeCarriers_frame he
      cases hc
    · obtain ⟨k, d, rfl⟩ := partitionCarrier_frame he
      cases hc
  · rintro ⟨first, rest, hrows, hrow⟩
    have hfirst : first ∈ rowsAt rows ck := by
      rw [rowsAt, hrows]
      simp
    obtain ⟨hmem, hk⟩ := of_mem_rowsAt hfirst
    have hcl : IsCluster rows first rest := by
      rw [IsCluster, h.rowsAt_congr hs (h.keys first hmem) hck hk]
      exact hrows
    refine ⟨⟨hin.mem_mergePartitionRows.mpr (.inl ⟨first, rest, hcl, hrow⟩),
      (h.mergedRow_plain hcl hrow).2.1⟩, ?_⟩
    rw [mergedRow_clusteringKey hrow]
    exact hk

end Output

end Cqlite
