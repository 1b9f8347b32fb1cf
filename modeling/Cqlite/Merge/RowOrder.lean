import Cqlite.Merge.PartitionSpec

/-! The schema order of a partition's rows.

    The heap and the final sort compare clustering keys by the schema, the grouping by the
    schema-less fallback. On keys with every component the two agree on equality, so both merges see
    the same groups. -/

namespace Cqlite

/-! ### Schema order and fallback order -/

section Agreement

theorem compareAt_eq (order : ClusteringOrder) (a b : Value) :
    ∃ reverse : Bool, ClusteringKey.compareAt order a b =
      (compareValues a b).map fun o => if reverse then o.swap else o := by
  unfold ClusteringKey.compareAt
  split
  · exact ⟨false, by simp [compareValues]⟩
  · exact ⟨false, by rename_i h; cases b <;> simp_all [compareValues]⟩
  · exact ⟨false, by rename_i h; cases a <;> simp_all [compareValues]⟩
  · exact ⟨decide (order = .desc), by simp⟩

variable [DebugFmt]

/-- Positions from `i` on: the schema comparison is equal where the fallback is, and fails only on a
    pair the fallback decides by its texts. -/
theorem compareFrom_eq_iff {a b : ClusteringKey} {i : Nat} {cols : List ClusteringColumn}
    (ha : a.columns.length = i + cols.length) (hb : b.columns.length = i + cols.length) :
    (ClusteringKey.compareFrom a b i cols).all fun o =>
      (o == .eq) == (ClusteringKey.cmpColumns (a.columns.drop i) (b.columns.drop i) == .eq) := by
  induction cols generalizing i with
  | nil =>
    rw [List.length_nil, Nat.add_zero] at ha hb
    simp [ClusteringKey.compareFrom, List.drop_of_length_le, ha, hb, ClusteringKey.cmpColumns]
  | cons col cols ih =>
    rw [List.length_cons] at ha hb
    have hia : i < a.columns.length := by omega
    have hib : i < b.columns.length := by omega
    have hca : a.component i = a.columns[i].2 := by simp [ClusteringKey.component, hia]
    have hcb : b.component i = b.columns[i].2 := by simp [ClusteringKey.component, hib]
    rw [List.drop_eq_getElem_cons hia, List.drop_eq_getElem_cons hib, ClusteringKey.cmpColumns,
      ClusteringKey.compareFrom, hca, hcb, ClusteringKey.cmpValue]
    obtain ⟨reverse, hr⟩ := compareAt_eq col.order a.columns[i].2 b.columns[i].2
    rw [hr]
    cases compareValues a.columns[i].2 b.columns[i].2 with
    | none => simp
    | some o =>
      cases o with
      | eq =>
        have := ih (i := i + 1) (by omega) (by omega)
        cases reverse <;> simpa using this
      | lt => cases reverse <;> simp
      | gt => cases reverse <;> simp

/-- Keys with every component are equal for the schema exactly when they are for the fallback. -/
theorem schemaCmp_eq_iff {schema : TableSchema} {a b : ClusteringKey}
    (ha : a.columns.length = schema.clusteringKeys.length)
    (hb : b.columns.length = schema.clusteringKeys.length) :
    ClusteringKey.schemaCmp schema a b = .eq ↔ a.cmp b = .eq := by
  have h := @compareFrom_eq_iff _ a b 0 schema.clusteringKeys (by omega) (by omega)
  unfold ClusteringKey.schemaCmp ClusteringKey.compare ClusteringKey.cmp
  rw [if_neg (by omega)]
  cases hc : ClusteringKey.compareFrom a b 0 schema.clusteringKeys with
  | none => rfl
  | some o =>
    rw [hc] at h
    simp only [Option.all_some, List.drop_zero, beq_iff_eq] at h
    rw [Option.getD_some, ← beq_iff_eq, h, beq_iff_eq]

end Agreement

/-! ### Optional keys in schema order -/

section Optional

variable [DebugFmt]

/-- `rowCmp` on the keys alone. -/
def schemaCmpOption (schema : TableSchema) : Option ClusteringKey → Option ClusteringKey → Ordering
  | none, none => .eq
  | none, some _ => .lt
  | some _, none => .gt
  | some a, some b => ClusteringKey.schemaCmp schema a b

theorem rowCmp_eq (schema : TableSchema) (a b : MergeEntry) :
    rowCmp schema a b = schemaCmpOption schema a.clusteringKey b.clusteringKey := by
  unfold rowCmp schemaCmpOption
  cases a.clusteringKey <;> cases b.clusteringKey <;> rfl

variable {schema : TableSchema}

theorem cmp_rowCut_rowCut {a b : ClusteringKey}
    (ha : a.columns.length = schema.clusteringKeys.length)
    (hb : b.columns.length = schema.clusteringKeys.length) :
    RangeCut.cmp schema (rowCut a) (rowCut b) = ClusteringKey.schemaCmp schema a b := by
  have hlen : a.columns.length = b.columns.length := ha.trans hb.symm
  rw [rowCut, rowCut, RangeCut.cmp, hlen, min_self, truncate_of_le hlen.le, truncate_of_le le_rfl]
  simp only [compare_eq_iff_eq.mpr]
  cases ClusteringKey.schemaCmp schema a b <;> rfl

/-- The schema order is total on the row keys of a partition, absent keys first. -/
theorem KeysOrdered.totalOn_schemaCmpOption {cks : List ClusteringKey} {ranges : List RangeTombstone}
    (h : KeysOrdered schema cks ranges) {keys : List (Option ClusteringKey)}
    (hkeys : ∀ k ∈ keys, ∀ ck ∈ k, ck ∈ cks) : Rank.TotalOn (schemaCmpOption schema) keys := by
  have hcmp : ∀ a ∈ cks, ∀ b ∈ cks,
      ClusteringKey.schemaCmp schema a b = RangeCut.cmp schema (rowCut a) (rowCut b) :=
    fun a ha b hb => (cmp_rowCut_rowCut (h.rowArity a ha) (h.rowArity b hb)).symm
  refine ⟨fun a ha b hb => ?_, fun a ha b hb c hc hab hbc => ?_⟩
  · cases a with
    | none => cases b <;> rfl
    | some a =>
      cases b with
      | none => rfl
      | some b =>
        have ha := hkeys _ ha a rfl
        have hb := hkeys _ hb b rfl
        simp only [schemaCmpOption, hcmp a ha b hb, hcmp b hb a ha]
        exact h.total.swap _ (rowCut_mem ha) _ (rowCut_mem hb)
  · cases a with
    | none => cases c <;> simp [schemaCmpOption]
    | some a =>
      cases b with
      | none => simp [schemaCmpOption] at hab
      | some b =>
        cases c with
        | none => simp [schemaCmpOption] at hbc
        | some c =>
          have ha := hkeys _ ha a rfl
          have hb := hkeys _ hb b rfl
          have hc := hkeys _ hc c rfl
          simp only [schemaCmpOption, hcmp a ha b hb, hcmp b hb c hc, hcmp a ha c hc] at hab hbc ⊢
          exact h.total.trans _ (rowCut_mem ha) _ (rowCut_mem hb) _ (rowCut_mem hc) hab hbc

/-- Optional keys are equal for the schema exactly when they are for the fallback. -/
theorem schemaCmpOption_eq_iff {a b : Option ClusteringKey}
    (ha : ∀ ck ∈ a, ck.columns.length = schema.clusteringKeys.length)
    (hb : ∀ ck ∈ b, ck.columns.length = schema.clusteringKeys.length) :
    schemaCmpOption schema a b = .eq ↔ cmpOptionKey a b = .eq := by
  cases a with
  | none => cases b <;> simp [schemaCmpOption, cmpOptionKey]
  | some a =>
    cases b with
    | none => simp [schemaCmpOption, cmpOptionKey]
    | some b => exact schemaCmp_eq_iff (ha a rfl) (hb b rfl)

end Optional

end Cqlite
