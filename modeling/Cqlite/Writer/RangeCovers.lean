import Cqlite.Merge.KeyTypes
import Cqlite.Writer.PartitionSession

/-! Coverage of a row by a range tombstone when it is written (`data_writer/encoding.rs`:
    `range_tombstone_covers`) and when it is merged (`merge/mod.rs`: `range_tombstone_covers_ck`).

    The merge compares the components of the bound only. The writer compares the whole key, in which a
    component the bound lacks counts as null and sorts first, so a row that continues a prefix bound
    lies behind it. -/

namespace Cqlite

section Covers

variable [DebugFmt] (schema : TableSchema)

/-! ### The writer's coverage -/

namespace WriterBounds

def afterStart (ck : ClusteringKey) : ClusteringBound → Bool
  | .inclusive b => ClusteringKey.schemaCmp schema ck b != .lt
  | .exclusive b => ClusteringKey.schemaCmp schema ck b == .gt
  | .bottom => true
  | .top => false

def beforeEnd (ck : ClusteringKey) : ClusteringBound → Bool
  | .inclusive b => ClusteringKey.schemaCmp schema ck b != .gt
  | .exclusive b => ClusteringKey.schemaCmp schema ck b == .lt
  | .top => true
  | .bottom => false

end WriterBounds

theorem rangeTombstoneCovers_some (rt : RangeTombstone) (ck : ClusteringKey) :
    rangeTombstoneCovers schema rt (some ck) =
      (WriterBounds.afterStart schema ck rt.startBound &&
        WriterBounds.beforeEnd schema ck rt.endBound) := by
  rw [rangeTombstoneCovers]
  rfl

/-! ### Keys that continue a bound -/

/-- `ck` agrees with the bound on its components and goes on behind them: with a value that is not
    null, or with any when the components were compared by their texts. -/
def Continues (ck b : ClusteringKey) : Prop :=
  ClusteringKey.schemaCmp schema (ck.truncate b.columns.length) b = .eq ∧
    ∃ i, b.columns.length ≤ i ∧ i < ck.columns.length ∧
      (ClusteringKey.compare (ck.truncate b.columns.length) b schema = none ∨ ck.component i ≠ .null)

omit [DebugFmt] in
theorem compareAt_null_right {order : ClusteringOrder} {v : Value} (hv : v ≠ .null) :
    ClusteringKey.compareAt order v .null = some .gt := by
  cases v <;> first | exact absurd rfl hv | rfl

omit [DebugFmt] in
/-- Behind the components of the bound the first value that is not null decides. -/
theorem compareFrom_of_prefix_eq {ck b : ClusteringKey} {n : Nat} (hb : b.columns.length = n)
    {i : Nat} {cols : List ClusteringColumn} (hlen : ck.columns.length = i + cols.length)
    (heq : ClusteringKey.compareFrom (ck.truncate n) b i cols = some .eq) :
    ((∃ j, n ≤ j ∧ i ≤ j ∧ j < ck.columns.length ∧ ck.component j ≠ .null) →
      ClusteringKey.compareFrom ck b i cols = some .gt) ∧
    ((∀ j, n ≤ j → i ≤ j → j < ck.columns.length → ck.component j = .null) →
      ClusteringKey.compareFrom ck b i cols = some .eq) := by
  induction cols generalizing i with
  | nil =>
    rw [List.length_nil, Nat.add_zero] at hlen
    refine ⟨?_, fun _ => rfl⟩
    rintro ⟨j, -, hij, hj, -⟩
    omega
  | cons col cols ih =>
    rw [List.length_cons] at hlen
    rw [ClusteringKey.compareFrom] at heq ⊢
    rw [ClusteringKey.component_truncate] at heq
    by_cases hi : i < n
    · rw [if_pos hi] at heq
      split at heq
      · obtain ⟨hsome, hnone⟩ := ih (by omega) heq
        refine ⟨?_, fun hnull => hnone fun j hn hij hj => hnull j hn (by omega) hj⟩
        rintro ⟨j, hn, hij, hj, hne⟩
        exact hsome ⟨j, hn, by omega, hj, hne⟩
      · rename_i hother
        exact absurd heq hother
    · have hcomponent : b.component i = .null := by
        rw [ClusteringKey.component, List.getD_eq_getElem?_getD,
          List.getElem?_eq_none (by rw [List.length_map]; omega)]
        rfl
      rw [if_neg hi, hcomponent] at heq
      simp only [ClusteringKey.compareAt] at heq
      obtain ⟨hsome, hnone⟩ := ih (by omega) heq
      rw [hcomponent]
      by_cases hnull : ck.component i = .null
      · rw [hnull]
        simp only [ClusteringKey.compareAt]
        refine ⟨?_, fun hall => hnone fun j hn hij hj => hall j hn (by omega) hj⟩
        rintro ⟨j, hn, hij, hj, hne⟩
        refine hsome ⟨j, hn, ?_, hj, hne⟩
        rcases Nat.lt_or_eq_of_le hij with hlt | rfl
        · exact hlt
        · exact absurd hnull hne
      · rw [compareAt_null_right hnull]
        refine ⟨fun _ => rfl, fun hall => ?_⟩
        exact absurd (hall i (by omega) le_rfl (by omega)) hnull

/-- Of two lists that agree as far as the second goes, the longer is greater. -/
theorem cmpColumns_take_eq {as bs : List (String × Value)} (hlen : bs.length ≤ as.length)
    (heq : ClusteringKey.cmpColumns (as.take bs.length) bs = .eq) :
    ClusteringKey.cmpColumns as bs = if bs.length < as.length then .gt else .eq := by
  induction bs generalizing as with
  | nil => cases as <;> simp [ClusteringKey.cmpColumns]
  | cons b bs ih =>
    cases as with
    | nil => simp at hlen
    | cons a as =>
      rw [List.length_cons, List.take_succ_cons, ClusteringKey.cmpColumns] at heq
      obtain ⟨hhead, htail⟩ := Ordering.then_eq_eq.1 heq
      rw [ClusteringKey.cmpColumns, hhead, ih (by simpa using hlen) htail]
      simp

/-- The writer's comparison: a key that continues the bound is greater, any other stands to the bound
    as its components do. -/
theorem schemaCmp_bound {ck b : ClusteringKey}
    (hfull : ck.columns.length = schema.clusteringKeys.length)
    (hbound : b.columns.length ≤ schema.clusteringKeys.length) :
    (Continues schema ck b → ClusteringKey.schemaCmp schema ck b = .gt) ∧
      (¬ Continues schema ck b → ClusteringKey.schemaCmp schema ck b = cmpBound schema ck b) := by
  obtain ⟨n, hn⟩ : ∃ n, b.columns.length = n := ⟨_, rfl⟩
  have hlen : (ck.truncate n).columns.length ≤ schema.clusteringKeys.length :=
    (List.length_take_le' _ _).trans hfull.le
  have hcompare : ClusteringKey.compare ck b schema =
      ClusteringKey.compareFrom ck b 0 schema.clusteringKeys := by
    rw [ClusteringKey.compare, if_neg (by omega)]
  have hfirst : ClusteringKey.compare (ck.truncate n) b schema =
      ClusteringKey.compareFrom (ck.truncate n) b 0 schema.clusteringKeys := by
    rw [ClusteringKey.compare, if_neg (by omega)]
  rw [cmpBound, Continues, hn]
  by_cases hsame : ClusteringKey.compareFrom (ck.truncate n) b 0 schema.clusteringKeys = some .eq
  · -- the schema finds the components equal
    have hcmp : ClusteringKey.schemaCmp schema (ck.truncate n) b = .eq := by
      rw [ClusteringKey.schemaCmp, hfirst, hsame]
      rfl
    obtain ⟨hsome, hnone⟩ := compareFrom_of_prefix_eq hn (by omega) hsame
    constructor
    · rintro ⟨-, i, hi, hlt, hnull⟩
      rw [hfirst, hsame] at hnull
      have hgt := hsome ⟨i, hi, Nat.zero_le _, hlt, hnull.resolve_left (by simp)⟩
      rw [ClusteringKey.schemaCmp, hcompare, hgt]
      rfl
    · intro hends
      have heq := hnone fun i hi _ hlt => by
        by_contra hne
        exact hends ⟨hcmp, i, hi, hlt, .inr hne⟩
      rw [hcmp, ClusteringKey.schemaCmp, hcompare, heq]
      rfl
  · -- the components differ, or have no common type
    have hb : b.truncate n = b := truncate_of_le hn.le
    have hck : ck.truncate ck.columns.length = ck := truncate_of_le le_rfl
    have hmono := compareFrom_truncate_mono ck b (show n ≤ ck.columns.length by omega)
      (by rwa [hb])
    rw [hb, hck, truncate_of_le (show b.columns.length ≤ ck.columns.length by omega)] at hmono
    rw [ClusteringKey.schemaCmp, ClusteringKey.schemaCmp, hcompare, hfirst, hmono]
    cases hc : ClusteringKey.compareFrom (ck.truncate n) b 0 schema.clusteringKeys with
    | some o =>
      have hne : o ≠ .eq := fun h => hsame (by rw [hc, h])
      exact ⟨fun h => absurd h.1 hne, fun _ => rfl⟩
    | none =>
      simp only [Option.getD_none, true_or, and_true]
      by_cases htexts : (ck.truncate n).cmp b = .eq
      · have hlonger : ck.cmp b = if b.columns.length < ck.columns.length then .gt else .eq := by
          refine cmpColumns_take_eq (by omega) ?_
          rw [hn]
          exact htexts
        constructor
        · rintro ⟨-, i, hi, hlt⟩
          rw [hlonger, if_pos (by omega)]
        · intro hends
          have hsame : ¬ b.columns.length < ck.columns.length := fun hlt =>
            hends ⟨htexts, n, le_rfl, by omega⟩
          rw [htexts, hlonger, if_neg hsame]
      · refine ⟨fun h => absurd h.1 htexts, fun _ => ?_⟩
        have hmono := @cmpColumns_take_mono _ ck.columns b.columns n ck.columns.length (by omega)
          (by rwa [List.take_of_length_le hn.le])
        rwa [List.take_of_length_le hn.le, List.take_of_length_le le_rfl,
          List.take_of_length_le (by omega)] at hmono

/-! ### When the two agree -/

/-- The key continues an exclusive start. -/
def ContinuesStart (ck : ClusteringKey) (rt : RangeTombstone) : Prop :=
  ∃ b, rt.startBound = .exclusive b ∧ Continues schema ck b

/-- The key continues an inclusive end. -/
def ContinuesEnd (ck : ClusteringKey) (rt : RangeTombstone) : Prop :=
  ∃ b, rt.endBound = .inclusive b ∧ Continues schema ck b

section Bounds

variable {schema}
variable {ck : ClusteringKey} (hfull : ck.columns.length = schema.clusteringKeys.length)

include hfull

/-- What a test makes of the writer's comparison with a bound: on the keys that continue it, what it
    makes of greater where the merge's comparison is equal. -/
theorem test_schemaCmp {b : ClusteringKey} (test : Ordering → Bool)
    (harity : b.columns.length ≤ schema.clusteringKeys.length) :
    (Continues schema ck b → test (ClusteringKey.schemaCmp schema ck b) = test .gt ∧
      test (cmpBound schema ck b) = test .eq) ∧
    ((Continues schema ck b → test .gt = test .eq) →
      test (ClusteringKey.schemaCmp schema ck b) = test (cmpBound schema ck b)) := by
  obtain ⟨hgt, hsame⟩ := schemaCmp_bound schema hfull harity
  have hcontinues : Continues schema ck b → test (ClusteringKey.schemaCmp schema ck b) = test .gt ∧
      test (cmpBound schema ck b) = test .eq := fun h => by
    rw [hgt h, cmpBound, h.1]
    exact ⟨rfl, rfl⟩
  refine ⟨hcontinues, fun htest => ?_⟩
  by_cases h : Continues schema ck b
  · rw [(hcontinues h).1, (hcontinues h).2, htest h]
  · rw [hsame h]

/-- Starts differ only on the keys that continue an exclusive one: the writer lets them in. -/
theorem writer_afterStart {rt : RangeTombstone}
    (harity : (RangeCut.ofStart rt.startBound).arity ≤ schema.clusteringKeys.length) :
    (ContinuesStart schema ck rt → WriterBounds.afterStart schema ck rt.startBound = true ∧
      afterStart schema ck rt.startBound = false) ∧
    (¬ ContinuesStart schema ck rt →
      WriterBounds.afterStart schema ck rt.startBound = afterStart schema ck rt.startBound) := by
  unfold ContinuesStart
  cases hstart : rt.startBound with
  | bottom => exact ⟨fun ⟨_, h, _⟩ => (nomatch h), fun _ => rfl⟩
  | top => exact ⟨fun ⟨_, h, _⟩ => (nomatch h), fun _ => rfl⟩
  | inclusive b =>
    rw [hstart] at harity
    exact ⟨fun ⟨_, h, _⟩ => (nomatch h),
      fun _ => (test_schemaCmp hfull (· != .lt) harity).2 fun _ => rfl⟩
  | exclusive b =>
    rw [hstart] at harity
    obtain ⟨hcontinues, hsame⟩ := test_schemaCmp hfull (· == .gt) harity
    refine ⟨?_, fun hends => hsame fun h => (hends ⟨b, rfl, h⟩).elim⟩
    rintro ⟨_, ⟨⟩, h⟩
    exact hcontinues h

/-- Ends differ only on the keys that continue an inclusive one: the writer leaves them out. -/
theorem writer_beforeEnd {rt : RangeTombstone}
    (harity : (RangeCut.ofEnd rt.endBound).arity ≤ schema.clusteringKeys.length) :
    (ContinuesEnd schema ck rt → WriterBounds.beforeEnd schema ck rt.endBound = false ∧
      beforeEnd schema ck rt.endBound = true) ∧
    (¬ ContinuesEnd schema ck rt →
      WriterBounds.beforeEnd schema ck rt.endBound = beforeEnd schema ck rt.endBound) := by
  unfold ContinuesEnd
  cases hend : rt.endBound with
  | bottom => exact ⟨fun ⟨_, h, _⟩ => (nomatch h), fun _ => rfl⟩
  | top => exact ⟨fun ⟨_, h, _⟩ => (nomatch h), fun _ => rfl⟩
  | exclusive b =>
    rw [hend] at harity
    exact ⟨fun ⟨_, h, _⟩ => (nomatch h),
      fun _ => (test_schemaCmp hfull (· == .lt) harity).2 fun _ => rfl⟩
  | inclusive b =>
    rw [hend] at harity
    obtain ⟨hcontinues, hsame⟩ := test_schemaCmp hfull (· != .gt) harity
    refine ⟨?_, fun hends => hsame fun h => (hends ⟨b, rfl, h⟩).elim⟩
    rintro ⟨_, ⟨⟩, h⟩
    exact hcontinues h

end Bounds

/-- The key continues neither an exclusive start nor an inclusive end, or both, or it lies outside by
    the other end of the range. -/
structure PrefixesDecide (ck : ClusteringKey) (rt : RangeTombstone) : Prop where
  start : ContinuesStart schema ck rt → ContinuesEnd schema ck rt ∨
    RangeCut.cmp schema (rowCut ck) (.ofEnd rt.endBound) ≠ .lt
  finish : ContinuesEnd schema ck rt → ContinuesStart schema ck rt ∨
    RangeCut.cmp schema (rowCut ck) (.ofStart rt.startBound) = .lt

/-- The writer covers a row exactly when the merge does, on these rows and no others. -/
theorem writer_covers_iff_merge_covers {schema : TableSchema} {ck : ClusteringKey}
    {rt : RangeTombstone} (hfull : ck.columns.length = schema.clusteringKeys.length)
    (hbounds : ∀ c ∈ rt.cuts, c.arity ≤ schema.clusteringKeys.length) :
    (rangeTombstoneCovers schema rt (some ck) = true ↔ rangeTombstoneCoversCk schema ck rt = true) ↔
      PrefixesDecide schema ck rt := by
  have hstartArity : (RangeCut.ofStart rt.startBound).arity ≤ schema.clusteringKeys.length :=
    hbounds _ (by simp [RangeTombstone.cuts])
  have hendArity : (RangeCut.ofEnd rt.endBound).arity ≤ schema.clusteringKeys.length :=
    hbounds _ (by simp [RangeTombstone.cuts])
  obtain ⟨hstartGoes, hstartEnds⟩ := writer_afterStart hfull hstartArity
  obtain ⟨hendGoes, hendEnds⟩ := writer_beforeEnd hfull hendArity
  have hafter := afterStart_iff schema (hstartArity.trans hfull.ge)
  have hbefore := beforeEnd_iff schema (hendArity.trans hfull.ge)
  rw [rangeTombstoneCovers_some, rangeTombstoneCoversCk]
  by_cases hs : ContinuesStart schema ck rt
  · obtain ⟨hwriter, hmerge⟩ := hstartGoes hs
    rw [hwriter, hmerge, Bool.true_and, Bool.false_and]
    by_cases he : ContinuesEnd schema ck rt
    · rw [(hendGoes he).1]
      exact iff_of_true Iff.rfl ⟨fun _ => .inl he, fun _ => .inl hs⟩
    · rw [hendEnds he, hbefore]
      constructor
      · intro h
        refine ⟨fun _ => .inr fun hlt => ?_, fun h => absurd h he⟩
        cases h.1 hlt
      · rintro ⟨hstart, -⟩
        have := (hstart hs).resolve_left he
        exact ⟨fun hlt => absurd hlt this, fun h => by cases h⟩
  · rw [hstartEnds hs]
    by_cases he : ContinuesEnd schema ck rt
    · obtain ⟨hwriter, hmerge⟩ := hendGoes he
      rw [hwriter, hmerge, Bool.and_false, Bool.and_true, hafter]
      constructor
      · intro h
        refine ⟨fun h => absurd h hs, fun _ => .inr ?_⟩
        by_contra hne
        cases h.2 hne
      · rintro ⟨-, hfinish⟩
        have := (hfinish he).resolve_left hs
        exact ⟨fun h => (by cases h), fun hne => absurd this hne⟩
    · rw [hendEnds he]
      exact iff_of_true Iff.rfl ⟨fun h => absurd h hs, fun h => absurd h he⟩

end Covers

/-! ### Runs -/

/-- Two clustering columns, the second descending. -/
def pairTable : TableSchema := ⟨[⟨"c1", .asc⟩, ⟨"c2", .desc⟩], fun _ => none⟩

def pairKey (m n : Int) : ClusteringKey := ⟨[("c1", .integer m), ("c2", .integer n)]⟩

def prefixKey (m : Int) : ClusteringKey := ⟨[("c1", .integer m)]⟩

/-- From the rows of 1 on up to those of 3. -/
theorem writer_covers_prefix_range :
    (rangeTombstoneCovers pairTable ⟨.inclusive (prefixKey 1), .exclusive (prefixKey 3), 10, 1⟩
        (some (pairKey 1 2)) = true ↔
      rangeTombstoneCoversCk pairTable (pairKey 1 2)
        ⟨.inclusive (prefixKey 1), .exclusive (prefixKey 3), 10, 1⟩ = true) ↔
    PrefixesDecide pairTable (pairKey 1 2)
      ⟨.inclusive (prefixKey 1), .exclusive (prefixKey 3), 10, 1⟩ := by
  refine writer_covers_iff_merge_covers rfl ?_
  intro c hc
  simp only [RangeTombstone.cuts, List.mem_cons, List.not_mem_nil, or_false] at hc
  rcases hc with rfl | rfl <;> decide

/-- The range of one prefix covers its rows in the merge and none of them in the writer. -/
theorem writer_misses_prefix_rows :
    ¬ (rangeTombstoneCovers pairTable ⟨.inclusive (prefixKey 1), .inclusive (prefixKey 1), 10, 1⟩
        (some (pairKey 1 2)) = true ↔
      rangeTombstoneCoversCk pairTable (pairKey 1 2)
        ⟨.inclusive (prefixKey 1), .inclusive (prefixKey 1), 10, 1⟩ = true) := by
  decide

end Cqlite
