import Mathlib.Data.Int.ConditionallyCompleteOrder
import Cqlite.Query.Aggregates
import Cqlite.Query.Execute
import Mathlib.Data.Nat.Log
import Mathlib.Data.Set.Finite.Lemmas
import Mathlib.Tactic.Linarith

/-! Sorting and extrema of integers (`select_executor/value_ops.rs`, `execute_sort` of `mod.rs`).

    Numbers are compared as doubles. The double of an integer keeps the order but not the differences:
    it has 53 bits. -/

namespace Cqlite

/-! ### The nearest double -/

/-- The bits of the double of a positive integer. -/
def doubleMagnitude (m : Nat) : Nat :=
  if m = 0 then 0
  else (Nat.log2 m + 1022) * 2 ^ 52 +
    if Nat.log2 m ≤ 52 then m * 2 ^ (52 - Nat.log2 m) else roundHalfEven m (Nat.log2 m - 52)

/-- The place of the double of an integer among all doubles. -/
def doubleRank (n : Int) : Int :=
  if n < 0 then -(doubleMagnitude n.natAbs : Int) else doubleMagnitude n.natAbs

theorem roundHalfEven_bounds (m s : Nat) :
    m / 2 ^ s ≤ roundHalfEven m s ∧ roundHalfEven m s ≤ m / 2 ^ s + 1 := by
  simp only [roundHalfEven]
  split <;> omega

variable {m : Nat} {n a b : Int} {v : Value} {r r' : QueryRow}

theorem roundHalfEven_mono {m' : Nat} (h : m ≤ m') (s : Nat) :
    roundHalfEven m s ≤ roundHalfEven m' s := by
  rcases (Nat.div_le_div_right h : m / 2 ^ s ≤ m' / 2 ^ s).lt_or_eq with hlt | heq
  · have := (roundHalfEven_bounds m s).2
    have := (roundHalfEven_bounds m' s).1
    omega
  · have hrest : m % 2 ^ s ≤ m' % 2 ^ s := by
      have := Nat.div_add_mod m (2 ^ s)
      have := Nat.div_add_mod m' (2 ^ s)
      rw [heq] at *
      omega
    simp only [roundHalfEven, heq]
    split
    · rw [if_pos (by omega)]
    · split <;> omega

/-- A double lies between the powers of two around its number. -/
theorem doubleMagnitude_bounds (h : m ≠ 0) :
    (Nat.log2 m + 1023) * 2 ^ 52 ≤ doubleMagnitude m ∧
      doubleMagnitude m ≤ (Nat.log2 m + 1024) * 2 ^ 52 := by
  have hlow := Nat.log2_self_le h
  have hhigh := Nat.lt_log2_self (n := m)
  have hsignificand : 2 ^ 52 ≤ (if Nat.log2 m ≤ 52 then m * 2 ^ (52 - Nat.log2 m)
      else roundHalfEven m (Nat.log2 m - 52)) ∧
      (if Nat.log2 m ≤ 52 then m * 2 ^ (52 - Nat.log2 m)
      else roundHalfEven m (Nat.log2 m - 52)) ≤ 2 ^ 53 := by
    split
    · rename_i hsmall
      have hexp : ∀ k, Nat.log2 m + k + (52 - Nat.log2 m) = 52 + k := by omega
      have hlow' := Nat.mul_le_mul_right (2 ^ (52 - Nat.log2 m)) hlow
      have hhigh' := Nat.mul_le_mul_right (2 ^ (52 - Nat.log2 m)) hhigh.le
      rw [← Nat.pow_add] at hlow' hhigh'
      rw [show Nat.log2 m + (52 - Nat.log2 m) = 52 by omega] at hlow'
      rw [show Nat.log2 m + 1 + (52 - Nat.log2 m) = 53 by omega] at hhigh'
      exact ⟨hlow', hhigh'⟩
    · have hdivLow : 2 ^ 52 ≤ m / 2 ^ (Nat.log2 m - 52) := by
        rw [Nat.le_div_iff_mul_le (Nat.pow_pos (by decide)), ← Nat.pow_add]
        rwa [show 52 + (Nat.log2 m - 52) = Nat.log2 m by omega]
      have hdivHigh : m / 2 ^ (Nat.log2 m - 52) < 2 ^ 53 := by
        rw [Nat.div_lt_iff_lt_mul (Nat.pow_pos (by decide)), ← Nat.pow_add]
        rwa [show 53 + (Nat.log2 m - 52) = Nat.log2 m + 1 by omega]
      have := roundHalfEven_bounds m (Nat.log2 m - 52)
      omega
  have hdouble : 2 ^ 53 = 2 * 2 ^ 52 := rfl
  rw [hdouble] at hsignificand
  rw [doubleMagnitude, if_neg h]
  generalize 2 ^ 52 = c at *
  constructor <;> linarith

theorem doubleMagnitude_mono {m' : Nat} (h : m ≤ m') : doubleMagnitude m ≤ doubleMagnitude m' := by
  by_cases hm : m = 0
  · simp [doubleMagnitude, hm]
  have hm' : m' ≠ 0 := by omega
  have hlog : Nat.log2 m ≤ Nat.log2 m' := by
    rw [Nat.log2_eq_log_two, Nat.log2_eq_log_two]
    exact Nat.log_mono_right h
  rcases hlog.lt_or_eq with hlt | heq
  · have hexponent : Nat.log2 m + 1024 ≤ Nat.log2 m' + 1023 := by omega
    calc doubleMagnitude m ≤ (Nat.log2 m + 1024) * 2 ^ 52 := (doubleMagnitude_bounds hm).2
      _ ≤ (Nat.log2 m' + 1023) * 2 ^ 52 := Nat.mul_le_mul_right _ hexponent
      _ ≤ doubleMagnitude m' := (doubleMagnitude_bounds hm').1
  · rw [doubleMagnitude, doubleMagnitude, if_neg hm, if_neg hm', heq]
    refine Nat.add_le_add_left ?_ _
    split
    · exact Nat.mul_le_mul_right _ h
    · exact roundHalfEven_mono h _

theorem doubleRank_mono : Monotone doubleRank := by
  intro a b hab
  unfold doubleRank
  split
  · split
    · have := doubleMagnitude_mono (show b.natAbs ≤ a.natAbs by omega)
      omega
    · omega
  · rw [if_neg (by omega)]
    have := doubleMagnitude_mono (show a.natAbs ≤ b.natAbs by omega)
    omega

/-- In the range of the widest integer type. -/
def InI64 (n : Int) : Prop := -(2 ^ 63) ≤ n ∧ n < 2 ^ 63

theorem doubleMagnitude_lt (h : InI64 n) : doubleMagnitude n.natAbs < 2 ^ 63 - 2 ^ 52 := by
  by_cases hn : n.natAbs = 0
  · rw [doubleMagnitude, if_pos hn]
    decide
  have hlog : Nat.log2 n.natAbs < 64 := by
    refine (Nat.log2_lt hn).2 ?_
    have := h.1
    have := h.2
    omega
  calc doubleMagnitude n.natAbs ≤ (Nat.log2 n.natAbs + 1024) * 2 ^ 52 := (doubleMagnitude_bounds hn).2
    _ ≤ (64 + 1024) * 2 ^ 52 := Nat.mul_le_mul_right _ (by omega)
    _ < 2 ^ 63 - 2 ^ 52 := by decide

theorem toNat_f64OfInt (h : InI64 n) :
    (f64OfInt n).toNat = (if n < 0 then 2 ^ 63 else 0) + doubleMagnitude n.natAbs := by
  have hlt := doubleMagnitude_lt h
  have hbits : f64OfInt n =
      UInt64.ofNat ((if n < 0 then 2 ^ 63 else 0) + doubleMagnitude n.natAbs) := by
    unfold f64OfInt doubleMagnitude
    by_cases hn : n.natAbs = 0
    · have : ¬ n < 0 := by omega
      simp [hn, this]
    · simp only [if_neg hn, Nat.add_assoc]
  rw [hbits, UInt64.toNat_ofNat_of_lt']
  split
  · exact Nat.lt_of_lt_of_le (Nat.add_lt_add_left hlt _) (by decide)
  · exact Nat.lt_of_lt_of_le (Nat.add_lt_add_left hlt _) (by decide)

theorem doubleMagnitude_pos (h : n ≠ 0) : 0 < doubleMagnitude n.natAbs :=
  (Nat.mul_pos (Nat.succ_pos _) (by decide)).trans_le
    (doubleMagnitude_bounds (Int.natAbs_ne_zero.2 h)).1

theorem neg_iff_of_doubleRank_eq (h : doubleRank a = doubleRank b) : a < 0 ↔ b < 0 := by
  unfold doubleRank at h
  split at h <;> split at h <;> rename_i h1 h2
  · exact ⟨fun _ => h2, fun _ => h1⟩
  · have := doubleMagnitude_pos (show a ≠ 0 by omega)
    omega
  · have := doubleMagnitude_pos (show b ≠ 0 by omega)
    omega
  · exact ⟨fun h => absurd h h1, fun h => absurd h h2⟩

/-- Doubles of integers compare as their ranks. -/
theorem cassandraDoubleCmp_f64OfInt (ha : InI64 a) (hb : InI64 b) :
    cassandraDoubleCmp (f64OfInt a) (f64OfInt b) = compare (doubleRank a) (doubleRank b) := by
  have hmagnitude : ∀ {n : Int}, InI64 n → ieeeMagnitude 63 (f64OfInt n).toNat =
      doubleMagnitude n.natAbs := fun {n} h => by
    have hlt := doubleMagnitude_lt h
    rw [ieeeMagnitude, toNat_f64OfInt h]
    split
    · rw [Nat.add_mod_left, Nat.mod_eq_of_lt (hlt.trans_le (by decide))]
    · rw [Nat.zero_add, Nat.mod_eq_of_lt (hlt.trans_le (by decide))]
  have hnegative : ∀ {n : Int}, InI64 n → ieeeNegative 63 (f64OfInt n).toNat = decide (n < 0) :=
    fun {n} h => by
      have hlt := (doubleMagnitude_lt h).trans_le (show 2 ^ 63 - 2 ^ 52 ≤ 2 ^ 63 by decide)
      rw [ieeeNegative, toNat_f64OfInt h, decide_eq_decide]
      split
      · simp [*]
      · rw [Nat.zero_add]
        exact ⟨fun hle => absurd hlt (not_lt.2 hle), fun hneg => absurd hneg ‹_›⟩
  have hnan : ∀ {n : Int}, InI64 n → ieeeNaN 63 52 (f64OfInt n).toNat = false := fun {n} h => by
    rw [ieeeNaN, hmagnitude h]
    exact decide_eq_false (not_lt.2 (doubleMagnitude_lt h).le)
  have hposition : ∀ {n : Int}, InI64 n → ieeePosition 63 (f64OfInt n).toNat = doubleRank n :=
    fun {n} h => by
      simp only [ieeePosition, hnegative h, hmagnitude h, decide_eq_true_eq]
      rfl
  rw [cassandraDoubleCmp, cassandraCmp, hnan ha, hnan hb, hposition ha, hposition hb]
  cases hc : compare (doubleRank a) (doubleRank b) with
  | lt => rfl
  | gt => rfl
  | eq =>
    -- a negative and another integer have different doubles
    have heq := compare_eq_iff_eq.1 hc
    have hsign := neg_iff_of_doubleRank_eq heq
    simp only [signBitTiebreak, hnegative ha, hnegative hb, hsign]
    by_cases hneg : b < 0 <;> simp [hneg]

theorem doubleRank_eq_iff (ha : InI64 a) (hb : InI64 b) :
    doubleRank a = doubleRank b ↔ f64OfInt a = f64OfInt b := by
  constructor
  · intro h
    have hsign := neg_iff_of_doubleRank_eq h
    refine UInt64.toNat_inj.1 ?_
    rw [toNat_f64OfInt ha, toNat_f64OfInt hb]
    unfold doubleRank at h
    by_cases hneg : b < 0
    · rw [if_pos (hsign.2 hneg), if_pos hneg] at h ⊢
      omega
    · rw [if_neg (mt hsign.1 hneg), if_neg hneg] at h ⊢
      omega
  · intro h
    have hself := cassandraDoubleCmp_f64OfInt ha ha
    rw [compare_eq_iff_eq.2 (rfl : doubleRank a = doubleRank a)] at hself
    have hcmp := cassandraDoubleCmp_f64OfInt ha hb
    rw [← h, hself] at hcmp
    exact compare_eq_iff_eq.1 hcmp.symm

/-! ### Comparing integers -/

/-- An integer value of one of the integral types. -/
def Value.Holds (v : Value) (n : Int) : Prop := v.asIntegralI128 = some n ∧ InI64 n

theorem Value.Holds.asF64 (h : v.Holds n) : v.asF64 = some (f64OfInt n) := by
  obtain ⟨h, -⟩ := h
  cases v <;> simp_all [Value.asIntegralI128, Value.asF64]

theorem Value.Holds.isNull (h : v.Holds n) : v.isNull = false := by
  obtain ⟨h, -⟩ := h
  cases v <;> simp_all [Value.asIntegralI128, Value.isNull]

theorem Value.Holds.unique {m : Int} (hm : v.Holds m) (hn : v.Holds n) : m = n :=
  Option.some.inj (hm.1.symm.trans hn.1)

variable {display : Value → String}

variable {w : Value}

theorem compareValuesOrdering_holds (hv : v.Holds a) (hw : w.Holds b) :
    compareValuesOrdering display v w = compare (doubleRank a) (doubleRank b) := by
  rw [compareValuesOrdering, Value.tryCompareValues, hv.asF64, hw.asF64]
  exact cassandraDoubleCmp_f64OfInt hv.2 hw.2

theorem compare_doubleRank_iff :
    compare (doubleRank a) (doubleRank b) = compare a b ↔ (doubleRank a = doubleRank b → a = b) := by
  constructor
  · intro h heq
    rw [compare_eq_iff_eq.2 heq] at h
    exact compare_eq_iff_eq.1 h.symm
  · intro h
    rcases lt_trichotomy a b with hlt | rfl | hgt
    · rw [compare_lt_iff_lt.2 hlt, compare_lt_iff_lt]
      exact lt_of_le_of_ne (doubleRank_mono hlt.le) fun heq => hlt.ne (h heq)
    · rw [compare_eq_iff_eq.2 rfl, compare_eq_iff_eq.2 rfl]
    · rw [compare_gt_iff_gt.2 hgt, compare_gt_iff_gt]
      exact lt_of_le_of_ne (doubleRank_mono hgt.le) fun heq => hgt.ne (h heq.symm).symm

/-! ### Sorting -/

/-- The sort key of a row: `NULL` where the expression does not evaluate. -/
def sortKey (row : QueryRow) (item : OrderByItem) : Value :=
  match evaluateSelectExpression row item.expression with
  | .ok v => v
  | .error _ => .null

/-- The comparator over the keys of two rows, item by item. -/
def compareKeys (display : Value → String) :
    List OrderByItem → List Value → List Value → Ordering
  | item :: items, a :: as, b :: bs =>
    let ordering := if item.descending then compareValuesOrdering display b a
      else compareValuesOrdering display a b
    if ordering ≠ .eq then ordering else compareKeys display items as bs
  | _, _, _ => .eq

/-- Decorate, sort, undecorate; the library's sort is stable. -/
def executeSort (sort : StableSort) (display : Value → String) (items : List OrderByItem)
    (rows : List QueryRow) : List QueryRow :=
  let decorated := rows.map fun row => (items.map (sortKey row), row)
  (sort.run (fun a b => compareKeys display items a.1 b.1) decorated).map Prod.snd

/-- The integer a row is sorted by. -/
def sortInteger (row : QueryRow) (item : OrderByItem) : Int :=
  ((sortKey row item).asIntegralI128).getD 0

/-- Rows by their sort integers as `place` arranges these, item by item. -/
def rowOrder (place : Int → Int) : List OrderByItem → QueryRow → QueryRow → Ordering
  | [] => fun _ _ => .eq
  | item :: items => compareLex
      (compareOn fun row => (if item.descending then -1 else 1) * place (sortInteger row item))
      (rowOrder place items)

/-- Every sort key of every row is an integer. -/
def IntegerKeys (items : List OrderByItem) (rows : List QueryRow) : Prop :=
  ∀ row ∈ rows, ∀ item ∈ items, ∃ n, (sortKey row item).Holds n

theorem IntegerKeys.holds {items : List OrderByItem} {rows : List QueryRow}
    (h : IntegerKeys items rows) {row : QueryRow} (hrow : row ∈ rows) {item : OrderByItem}
    (hitem : item ∈ items) : (sortKey row item).Holds (sortInteger row item) := by
  obtain ⟨n, hn⟩ := h row hrow item hitem
  rwa [sortInteger, hn.1]

instance rowOrder_trans (place : Int → Int) (items : List OrderByItem) :
    Std.TransCmp (rowOrder place items) := by
  induction items with
  | nil => exact { eq_swap := rfl, isLE_trans := fun _ _ => rfl }
  | cons item items ih => exact inferInstanceAs (Std.TransCmp (compareLex _ _))

theorem rowOrder_swap (place : Int → Int) (items : List OrderByItem) (r r' : QueryRow) :
    rowOrder place items r r' = (rowOrder place items r' r).swap := Std.OrientedCmp.eq_swap

theorem rowOrder_total (place : Int → Int) (items : List OrderByItem) (rows : List QueryRow) :
    Rank.TotalOn (rowOrder place items) rows := Rank.totalOn_of_transCmp

theorem compare_neg_mul (x y : Int) : compare (-1 * x) (-1 * y) = compare y x := by
  rcases lt_trichotomy x y with hlt | rfl | hgt
  · rw [compare_gt_iff_gt.2 hlt, compare_gt_iff_gt]
    omega
  · rw [compare_eq_iff_eq.2 rfl, compare_eq_iff_eq.2 rfl]
  · rw [compare_lt_iff_lt.2 hgt, compare_lt_iff_lt]
    omega

theorem compareKeys_eq {items : List OrderByItem} (h : IntegerKeys items [r, r']) :
    compareKeys display items (items.map (sortKey r)) (items.map (sortKey r')) =
      rowOrder doubleRank items r r' := by
  induction items with
  | nil => rfl
  | cons item items ih =>
    have hrest := ih fun row hrow i hi => h row hrow i (List.mem_cons_of_mem _ hi)
    have ha : (sortKey r item).Holds (sortInteger r item) := h.holds (by simp) (by simp)
    have hb : (sortKey r' item).Holds (sortInteger r' item) := h.holds (by simp) (by simp)
    rw [List.map_cons, List.map_cons, compareKeys, hrest, compareValuesOrdering_holds ha hb,
      compareValuesOrdering_holds hb ha, rowOrder, compareLex, compareOn]
    generalize sortInteger r item = a
    generalize sortInteger r' item = b
    cases item.descending with
    | true =>
      simp only [if_true, compare_neg_mul]
      cases compare (doubleRank b) (doubleRank a) <;> rfl
    | false =>
      simp only [Bool.false_eq_true, if_false, one_mul]
      cases compare (doubleRank a) (doubleRank b) <;> rfl

variable {sort : StableSort} {items : List OrderByItem} {rows : List QueryRow}

theorem executeSort_eq (h : IntegerKeys items rows) :
    executeSort sort display items rows =
      rows.mergeSort fun a b => rowOrder doubleRank items a b != .gt := by
  have hcmp : ∀ a ∈ rows.map (fun row => (items.map (sortKey row), row)),
      ∀ b ∈ rows.map (fun row => (items.map (sortKey row), row)),
      compareKeys display items a.1 b.1 = rowOrder doubleRank items a.2 b.2 := by
    intro a ha b hb
    obtain ⟨r, hr, rfl⟩ := List.mem_map.1 ha
    obtain ⟨r', hr', rfl⟩ := List.mem_map.1 hb
    refine compareKeys_eq fun row hrow item hitem => ?_
    simp only [List.mem_cons, List.not_mem_nil, or_false] at hrow
    rcases hrow with rfl | rfl
    · exact h row hr item hitem
    · exact h row hr' item hitem
  have htotal : Rank.TotalOn (fun a b : List Value × QueryRow => compareKeys display items a.1 b.1)
      (rows.map fun row => (items.map (sortKey row), row)) :=
    (rowOrder_total doubleRank items _).comap.congr hcmp
  rw [executeSort, sort.sorts htotal]
  have hmap := List.map_mergeSort (f := Prod.snd)
    (r := fun a b : List Value × QueryRow => compareKeys display items a.1 b.1 != .gt)
    (s := fun a b => rowOrder doubleRank items a b != .gt)
    (l := rows.map fun row => (items.map (sortKey row), row)) fun a ha b hb => by rw [hcmp a ha b hb]
  rw [hmap, List.map_map]
  exact congrArg (List.mergeSort · _) (List.map_id _)

theorem rowOrder_eq_of_id (place : Int → Int) (h : rowOrder id items r r' = .eq) :
    rowOrder place items r r' = .eq := by
  induction items with
  | nil => rfl
  | cons item items ih =>
    rw [rowOrder, compareLex, Ordering.then_eq_eq] at h ⊢
    refine ⟨?_, ih h.2⟩
    have heq := compare_eq_iff_eq.1 h.1
    refine compare_eq_iff_eq.2 ?_
    have hkey : sortInteger r item = sortInteger r' item := by
      split at heq <;> simpa using heq
    simp only [hkey]

theorem exists_perm_pair {α : Type} {l : List α} {a b : α} (ha : a ∈ l) (hb : b ∈ l) (hne : b ≠ a) :
    ∃ rest, (a :: b :: rest).Perm l := by
  obtain ⟨before, after, rfl⟩ := List.append_of_mem ha
  have hrest : b ∈ before ++ after := by
    rcases List.mem_append.1 hb with hb | hb
    · exact List.mem_append.2 (.inl hb)
    · exact List.mem_append.2 (.inr ((List.mem_cons.1 hb).resolve_left hne))
  obtain ⟨before', after', heq⟩ := List.append_of_mem hrest
  refine ⟨before' ++ after', ?_⟩
  exact ((List.perm_middle.symm.trans (heq ▸ List.Perm.refl _)).cons a).trans List.perm_middle.symm

/-- Every arrangement of the rows is sorted by the integers just where the doubles order the rows as
    the integers do. -/
theorem executeSort_iff (h : IntegerKeys items rows) :
    (∀ l : List QueryRow, l.Perm rows → executeSort sort display items l =
      l.mergeSort fun a b => rowOrder id items a b != .gt) ↔
    ∀ r ∈ rows, ∀ r' ∈ rows, rowOrder doubleRank items r r' = rowOrder id items r r' := by
  have hkeys : ∀ l : List QueryRow, l.Perm rows → IntegerKeys items l := fun l hl row hrow =>
    h row (hl.subset hrow)
  constructor
  · intro hsort
    have hlt : ∀ r ∈ rows, ∀ r' ∈ rows, rowOrder id items r r' = .lt →
        rowOrder doubleRank items r r' = .lt := by
      intro r hr r' hr' hint
      by_contra hrank
      have hne : r ≠ r' := by
        rintro rfl
        have hself : rowOrder id items r r = .eq := Std.ReflCmp.compare_self
        rw [hself] at hint
        cases hint
      obtain ⟨rest, hperm⟩ := exists_perm_pair hr' hr hne
      -- the two rows stay in the order they come in
      have hpair : [r', r].Pairwise fun a b => (rowOrder doubleRank items a b != .gt) = true := by
        refine List.pairwise_pair.2 ?_
        rw [rowOrder_swap]
        cases hc : rowOrder doubleRank items r r' with
        | lt => exact absurd hc hrank
        | eq => rfl
        | gt => rfl
      have htrans : ∀ a b c, (rowOrder doubleRank items a b != .gt) = true →
          (rowOrder doubleRank items b c != .gt) = true →
          (rowOrder doubleRank items a c != .gt) = true := fun a b c hab hbc => by
        have ht := (rowOrder_total doubleRank items [a, b, c]).trans
        simpa using ht a (by simp) b (by simp) c (by simp) (by simpa using hab) (by simpa using hbc)
      have hboth : ∀ a b, ((rowOrder doubleRank items a b != .gt) ||
          (rowOrder doubleRank items b a != .gt)) = true := fun a b => by
        rw [rowOrder_swap doubleRank items a b]
        cases rowOrder doubleRank items b a <;> rfl
      have hsub : [r', r].Sublist ((r' :: r :: rest).mergeSort
          fun a b => rowOrder doubleRank items a b != .gt) :=
        List.sublist_mergeSort htrans hboth hpair (by simp)
      have hresult : executeSort sort display items (r' :: r :: rest) = _ :=
        executeSort_eq (hkeys _ hperm)
      rw [← hresult, hsort _ hperm] at hsub
      have hback := List.pairwise_pair.1
        ((rowOrder_total id items (r' :: r :: rest)).pairwise_mergeSort.sublist hsub)
      rw [rowOrder_swap, hint] at hback
      exact hback rfl
    intro r hr r' hr'
    cases hint : rowOrder id items r r' with
    | eq => exact rowOrder_eq_of_id _ hint
    | lt => exact hlt r hr r' hr' hint
    | gt =>
      have hswap : rowOrder id items r' r = .lt := by
        rw [rowOrder_swap, hint]
        rfl
      rw [rowOrder_swap, hlt r' hr' r hr hswap]
      rfl
  · intro hagree l hperm
    rw [executeSort_eq (hkeys l hperm)]
    have hcongr := List.map_mergeSort (f := id) (r := fun a b => rowOrder doubleRank items a b != .gt)
      (s := fun a b => rowOrder id items a b != .gt) (l := l) fun a ha b hb => by
        rw [hagree a (hperm.subset ha) b (hperm.subset hb)]
        rfl
    simpa using hcongr

/-! ### Extrema -/

/-- A direction to look for an extremum in: which comparisons are better, and the places that are
    lower then. -/
structure Direction where
  better : Ordering → Bool
  place : Int → Int
  better_iff : ∀ a b : Int, better (compare a b) = true ↔ place a < place b
  mono : ∀ f : Int → Int, Monotone f → ∀ a b, place a ≤ place b → place (f a) ≤ place (f b)
  inj : ∀ a b, place a = place b → a = b

def Direction.least : Direction where
  better := Ordering.isLT
  place := id
  better_iff a b := by
    rw [Ordering.isLT_iff_eq_lt, compare_lt_iff_lt]
    rfl
  mono _ hf _ _ h := hf h
  inj _ _ h := h

def Direction.greatest : Direction where
  better := Ordering.isGT
  place n := -n
  better_iff a b := by
    rw [Ordering.isGT_iff_eq_gt, compare_gt_iff_gt]
    omega
  mono f hf a b h := by
    have := hf (show b ≤ a by omega)
    omega
  inj _ _ h := by omega

/-- The integers among the inputs of an aggregate. -/
def inputIntegers (inputs : List (Option Value)) : Set Int := {n | ∃ v, some v ∈ inputs ∧ v.Holds n}

/-- Every input is missing, null or an integer. -/
def IntegerInputs (inputs : List (Option Value)) : Prop :=
  ∀ v, some v ∈ inputs → v.isNull = true ∨ ∃ n, v.Holds n

section Extremum

variable (display) (d : Direction)

/-- No integer of the set lies before the number. -/
def Direction.Best (s : Set Int) (n : Int) : Prop := n ∈ s ∧ ∀ k ∈ s, d.place n ≤ d.place k

/-- From the value `w` of `b` a fold over the inputs may end at the value `v` of `n`. -/
structure Direction.Ends (inputs : List (Option Value)) (w : Value) (b : Int) (v : Value) (n : Int) :
    Prop where
  holds : v.Holds n
  origin : v = w ∨ some v ∈ inputs
  start : d.place (doubleRank n) ≤ d.place (doubleRank b)
  all : ∀ m ∈ inputIntegers inputs, d.place (doubleRank n) ≤ d.place (doubleRank m)
  first : (∀ m ∈ inputIntegers inputs, d.place (doubleRank b) ≤ d.place (doubleRank m)) → v = w

variable {inputs : List (Option Value)}

theorem keepBetter_holds (hv : v.Holds a) (hw : w.Holds b) :
    keepBetter display d.better w (some v) =
      if d.place (doubleRank a) < d.place (doubleRank b) then v else w := by
  rw [keepBetter, hv.isNull, hw.isNull, compareValuesOrdering_holds hv hw]
  simp only [Bool.not_false, Bool.false_or, Bool.true_and, d.better_iff]

theorem keepBetter_skip {o : Option Value} (h : IntegerInputs [o]) :
    (∃ x a, o = some x ∧ x.Holds a) ∨
      inputIntegers [o] = ∅ ∧ ∀ w : Value, keepBetter display d.better w o = w := by
  cases o with
  | none => exact .inr ⟨Set.eq_empty_of_forall_notMem fun m ⟨x, hx, _⟩ => by simp at hx, fun _ => rfl⟩
  | some x =>
    rcases h x List.mem_cons_self with hnull | ⟨a, hx⟩
    · refine .inr ⟨Set.eq_empty_of_forall_notMem fun m ⟨y, hy, hm⟩ => ?_, fun w => ?_⟩
      · obtain rfl : y = x := by simpa using hy
        rw [hm.isNull] at hnull
        cases hnull
      · rw [keepBetter, hnull]
        rfl
    · exact .inl ⟨x, a, rfl, hx⟩

theorem inputIntegers_single {x : Value} (h : x.Holds a) : inputIntegers [some x] = {a} := by
  ext m
  constructor
  · rintro ⟨y, hy, hm⟩
    obtain rfl : y = x := by simpa using hy
    exact hm.unique h
  · rintro rfl
    exact ⟨x, List.mem_cons_self, h⟩

theorem inputIntegers_cons (o : Option Value) (inputs : List (Option Value)) :
    inputIntegers (o :: inputs) = inputIntegers [o] ∪ inputIntegers inputs := by
  ext n
  simp only [inputIntegers, List.mem_cons, List.not_mem_nil, or_false, Set.mem_union,
    Set.mem_ofPred_eq, or_and_right, exists_or]

theorem keepBetter_step {o : Option Value} (h : IntegerInputs [o]) (hw : w.Holds b) :
    ∃ n, d.Ends [o] w b (keepBetter display d.better w o) n := by
  rcases keepBetter_skip display d h with ⟨x, a, rfl, hx⟩ | ⟨hnone, hkeep⟩
  · rw [keepBetter_holds display d hx hw]
    by_cases hlt : d.place (doubleRank a) < d.place (doubleRank b)
    · rw [if_pos hlt]
      refine ⟨a, hx, .inr List.mem_cons_self, hlt.le, ?_, fun hb => ?_⟩
      · rw [inputIntegers_single hx]
        rintro m rfl
        exact le_rfl
      · exact absurd (hb a ⟨x, List.mem_cons_self, hx⟩) (not_le.2 hlt)
    · rw [if_neg hlt]
      refine ⟨b, hw, .inl rfl, le_rfl, ?_, fun _ => rfl⟩
      rw [inputIntegers_single hx]
      rintro m rfl
      exact not_lt.1 hlt
  · rw [hkeep w]
    refine ⟨b, hw, .inl rfl, le_rfl, ?_, fun _ => rfl⟩
    rw [hnone]
    exact fun m hm => absurd hm (Set.notMem_empty m)

/-- From an integer on, the fold ends at an input with the best double, or where it began. -/
theorem foldl_keepBetter (h : IntegerInputs inputs) (hw : w.Holds b) :
    ∃ n, d.Ends inputs w b (inputs.foldl (keepBetter display d.better) w) n := by
  induction inputs generalizing w b with
  | nil => exact ⟨b, hw, .inl rfl, le_rfl, fun m ⟨v, hv, _⟩ => (by cases hv), fun _ => rfl⟩
  | cons o inputs ih =>
    obtain ⟨a, hstep⟩ := keepBetter_step display d (o := o) (fun v hv => h v (by simp_all)) hw
    obtain ⟨n, hrest⟩ := ih (fun v hv => h v (List.mem_cons_of_mem _ hv)) hstep.holds
    rw [List.foldl_cons]
    refine ⟨n, hrest.holds, ?_, hrest.start.trans hstep.start, ?_, fun hb => ?_⟩
    · rcases hrest.origin with hsame | hin
      · rw [hsame]
        exact hstep.origin.imp_right fun heq => List.mem_cons.2 (.inl (List.mem_singleton.1 heq))
      · exact .inr (List.mem_cons_of_mem _ hin)
    · rw [inputIntegers_cons]
      rintro m (hm | hm)
      · exact hrest.start.trans (hstep.all m hm)
      · exact hrest.all m hm
    · rw [inputIntegers_cons] at hb
      have hfirst := hstep.first fun m hm => hb m (.inl hm)
      have hholds := hstep.holds
      rw [hfirst] at hholds hrest ⊢
      obtain rfl := hholds.unique hw
      exact hrest.first fun m hm => hb m (.inr hm)

/-- The fold keeps a best number in the order of doubles. -/
theorem foldl_keepBetter_null (h : IntegerInputs inputs) (hne : (inputIntegers inputs).Nonempty) :
    ∃ n, (inputs.foldl (keepBetter display d.better) .null).Holds n ∧ n ∈ inputIntegers inputs ∧
      ∀ m ∈ inputIntegers inputs, d.place (doubleRank n) ≤ d.place (doubleRank m) := by
  induction inputs with
  | nil =>
    obtain ⟨m, v, hv, -⟩ := hne
    cases hv
  | cons o inputs ih =>
    have hrest : IntegerInputs inputs := fun v hv => h v (List.mem_cons_of_mem _ hv)
    have hhead : IntegerInputs [o] := fun v hv => h v (by simp_all)
    rw [inputIntegers_cons] at hne ⊢
    rcases keepBetter_skip display d hhead with ⟨x, a, rfl, hx⟩ | ⟨hnone, hkeep⟩
    · have hfirst : keepBetter display d.better .null (some x) = x := by
        rw [keepBetter, hx.isNull]
        rfl
      obtain ⟨n, hfold⟩ := foldl_keepBetter display d hrest hx
      rw [List.foldl_cons, hfirst, inputIntegers_single hx]
      refine ⟨n, hfold.holds, ?_, ?_⟩
      · rcases hfold.origin with hsame | hin
        · exact .inl ((hsame ▸ hfold.holds).unique hx)
        · exact .inr ⟨_, hin, hfold.holds⟩
      · rintro m (rfl | hm)
        · exact hfold.start
        · exact hfold.all m hm
    · rw [hnone, Set.empty_union] at hne ⊢
      rw [List.foldl_cons, hkeep]
      exact ih hrest hne

theorem inputIntegers_finite (inputs : List (Option Value)) : (inputIntegers inputs).Finite := by
  refine (List.finite_toSet (inputs.filterMap fun o => o.bind Value.asIntegralI128)).subset ?_
  rintro n ⟨v, hv, hn⟩
  exact List.mem_filterMap.2 ⟨some v, hv, hn.1⟩

/-- Whatever the order of the rows, the fold over their inputs ends at the extremum, just where no
    other integer has the double of the extremum. -/
theorem extremum_iff {β : Type} {rows : List β} {f : β → Option Value}
    (h : IntegerInputs (rows.map f)) (hne : (inputIntegers (rows.map f)).Nonempty) :
    (∀ l : List β, l.Perm rows → ∃ n, ((l.map f).foldl (keepBetter display d.better) .null).Holds n ∧
      d.Best (inputIntegers (rows.map f)) n) ↔
    ∀ m n, d.Best (inputIntegers (rows.map f)) m → n ∈ inputIntegers (rows.map f) →
      f64OfInt n = f64OfInt m → n = m := by
  have hsame : ∀ l : List β, l.Perm rows → inputIntegers (l.map f) = inputIntegers (rows.map f) :=
    fun l hl => by
      ext n
      simp only [inputIntegers, (hl.map f).mem_iff]
  have hrange : ∀ m ∈ inputIntegers (rows.map f), InI64 m := fun m ⟨_, _, hm⟩ => hm.2
  constructor
  · rintro hall m n ⟨hm, hbest⟩ ⟨v, hv, hn⟩ hdouble
    have hrank := (doubleRank_eq_iff hn.2 (hrange m hm)).2 hdouble
    -- the row with the same double comes first
    obtain ⟨row, hrow, hfv⟩ := List.mem_map.1 hv
    obtain ⟨before, after, rfl⟩ := List.append_of_mem hrow
    have hperm : (row :: (before ++ after)).Perm (before ++ row :: after) := List.perm_middle.symm
    obtain ⟨k, hk, -, hkbest⟩ := hall _ hperm
    have hothers : ∀ x, some x ∈ (before ++ after).map f → some x ∈ (before ++ row :: after).map f :=
      fun x hx => (hperm.map f).subset (List.mem_cons_of_mem _ hx)
    obtain ⟨j, hfold⟩ := foldl_keepBetter display d (fun x hx => h x (hothers x hx)) hn
    have hstart : keepBetter display d.better .null (f row) = v := by
      rw [hfv, keepBetter, hn.isNull]
      rfl
    have hwv : ((before ++ after).map f).foldl (keepBetter display d.better) v = v :=
      hfold.first fun x ⟨y, hy, hx⟩ => by
        rw [hrank]
        exact d.mono doubleRank doubleRank_mono m x (hbest x ⟨y, hothers y hy, hx⟩)
    rw [List.map_cons, List.foldl_cons, hstart, hwv] at hk
    obtain rfl := hk.unique hn
    exact d.inj _ _ (le_antisymm (hkbest m hm) (hbest k ⟨v, hv, hn⟩))
  · intro hdistinct l hl
    obtain ⟨n, hv, hn, hall⟩ := foldl_keepBetter_null display d
      (fun x hx => h x ((hl.map f).subset hx)) ((hsame l hl).symm ▸ hne)
    rw [hsame l hl] at hn hall
    obtain ⟨m, hm, hbest⟩ := Set.exists_min_image _ d.place (inputIntegers_finite (rows.map f)) hne
    have hrank : doubleRank n = doubleRank m :=
      d.inj _ _ (le_antisymm (hall m hm) (d.mono doubleRank doubleRank_mono m n (hbest n hn)))
    have hnm := hdistinct m n ⟨hm, hbest⟩ hn ((doubleRank_eq_iff (hrange n hn) (hrange m hm)).1 hrank)
    subst hnm
    exact ⟨n, hv, hn, hbest⟩

end Extremum

theorem best_least_iff {s : Set Int} : Direction.least.Best s n ↔ IsLeast s n := Iff.rfl

theorem best_greatest_iff {s : Set Int} : Direction.greatest.Best s n ↔ IsGreatest s n := by
  refine and_congr_right fun _ => forall₂_congr fun k _ => ?_
  change -n ≤ -k ↔ k ≤ n
  omega

/-! ### The aggregates over rows -/

section Aggregate

variable [DoubleArith] {agg : AggregateComputation} (resultType : Option CqlType)

theorem aggregateOver_min (hmin : agg.function = .min) (rows : List QueryRow) :
    aggregateOver display agg resultType rows =
      (rows.map agg.input).foldl (keepBetter display Direction.least.better) .null := by
  have hfold : ∀ v : Value, (rows.foldl (fun state row => updateAggregate display state agg row)
      (.min v)) = .min ((rows.map agg.input).foldl (keepBetter display Direction.least.better) v) := by
    induction rows with
    | nil => exact fun _ => rfl
    | cons row rows ih => exact fun v => ih _
  rw [aggregateOver, hmin, initAccumulator, hfold]
  rfl

theorem aggregateOver_max (hmax : agg.function = .max) (rows : List QueryRow) :
    aggregateOver display agg resultType rows =
      (rows.map agg.input).foldl (keepBetter display Direction.greatest.better) .null := by
  have hfold : ∀ v : Value, (rows.foldl (fun state row => updateAggregate display state agg row)
      (.max v)) = .max ((rows.map agg.input).foldl (keepBetter display Direction.greatest.better) v) := by
    induction rows with
    | nil => exact fun _ => rfl
    | cons row rows ih => exact fun v => ih _
  rw [aggregateOver, hmax, initAccumulator, hfold]
  rfl

end Aggregate

/-- One sort item tells the rows apart by its integers where their doubles do. -/
theorem rowOrder_single_iff {item : OrderByItem} (h : IntegerKeys [item] [r, r']) :
    rowOrder doubleRank [item] r r' = rowOrder id [item] r r' ↔
      (f64OfInt (sortInteger r item) = f64OfInt (sortInteger r' item) →
        sortInteger r item = sortInteger r' item) := by
  have ha : (sortKey r item).Holds (sortInteger r item) := h.holds (by simp) (by simp)
  have hb : (sortKey r' item).Holds (sortInteger r' item) := h.holds (by simp) (by simp)
  rw [← doubleRank_eq_iff ha.2 hb.2]
  simp only [rowOrder, compareLex, compareOn, Ordering.then_eq, id_eq]
  cases item.descending with
  | true =>
    simp only [if_true, compare_neg_mul]
    rw [compare_doubleRank_iff]
    exact ⟨fun h heq => (h heq.symm).symm, fun h heq => (h heq.symm).symm⟩
  | false =>
    simp only [Bool.false_eq_true, if_false, one_mul]
    exact compare_doubleRank_iff

/-! ### Exactness -/

/-- A row of one column. -/
def singleColumnRow (column : String) (v : Value) : QueryRow :=
  ⟨fun name => if name = column then some v else none, []⟩

/-- Comparing, sorting and the extrema are exact on integers just where no two different integers have
    one double: the two compared, the sort keys of two rows (of several keys, where the doubles order
    the rows as the integers do), the extremum and another value. -/
theorem integers_exact_iff [DoubleArith] (sort : StableSort) (display : Value → String) :
    (∀ v w a b, v.Holds a → w.Holds b →
      (compareValuesOrdering display v w = compare a b ↔ (f64OfInt a = f64OfInt b → a = b))) ∧
    (∀ items rows, IntegerKeys items rows →
      ((∀ l : List QueryRow, l.Perm rows → executeSort sort display items l =
          l.mergeSort fun a b => rowOrder id items a b != .gt) ↔
        ∀ r ∈ rows, ∀ r' ∈ rows, rowOrder doubleRank items r r' = rowOrder id items r r')) ∧
    (∀ item rows, IntegerKeys [item] rows →
      ((∀ l : List QueryRow, l.Perm rows → executeSort sort display [item] l =
          l.mergeSort fun a b => rowOrder id [item] a b != .gt) ↔
        ∀ r ∈ rows, ∀ r' ∈ rows, f64OfInt (sortInteger r item) = f64OfInt (sortInteger r' item) →
          sortInteger r item = sortInteger r' item)) ∧
    (∀ agg resultType rows, agg.function = .min → IntegerInputs (rows.map agg.input) →
      (inputIntegers (rows.map agg.input)).Nonempty →
      ((∀ l : List QueryRow, l.Perm rows → ∃ n, (aggregateOver display agg resultType l).Holds n ∧
          IsLeast (inputIntegers (rows.map agg.input)) n) ↔
        ∀ m n, IsLeast (inputIntegers (rows.map agg.input)) m →
          n ∈ inputIntegers (rows.map agg.input) → f64OfInt n = f64OfInt m → n = m)) ∧
    (∀ agg resultType rows, agg.function = .max → IntegerInputs (rows.map agg.input) →
      (inputIntegers (rows.map agg.input)).Nonempty →
      ((∀ l : List QueryRow, l.Perm rows → ∃ n, (aggregateOver display agg resultType l).Holds n ∧
          IsGreatest (inputIntegers (rows.map agg.input)) n) ↔
        ∀ m n, IsGreatest (inputIntegers (rows.map agg.input)) m →
          n ∈ inputIntegers (rows.map agg.input) → f64OfInt n = f64OfInt m → n = m)) := by
  refine ⟨fun v w a b hv hw => ?_, fun items rows h => executeSort_iff h, fun item rows h => ?_,
    fun agg resultType rows hmin h hne => ?_, fun agg resultType rows hmax h hne => ?_⟩
  · rw [compareValuesOrdering_holds hv hw, compare_doubleRank_iff, doubleRank_eq_iff hv.2 hw.2]
  · rw [executeSort_iff h]
    refine forall₂_congr fun r hr => forall₂_congr fun r' hr' => ?_
    refine rowOrder_single_iff fun row hrow i hi => h row ?_ i hi
    rcases List.mem_cons.1 hrow with rfl | hrow
    · exact hr
    · exact List.mem_singleton.1 hrow ▸ hr'
  · simp only [aggregateOver_min resultType hmin, ← best_least_iff]
    exact extremum_iff display Direction.least h hne
  · simp only [aggregateOver_max resultType hmax, ← best_greatest_iff]
    exact extremum_iff display Direction.greatest h hne

/-- `2^53 + 1` and `2^53` as `bigint`: they compare as equal, and the first of them to come is the
    minimum. -/
theorem integers_collapse :
    ¬ (∀ v w a b, v.Holds a → w.Holds b →
      compareValuesOrdering (fun _ => "") v w = compare a b) ∧
    (@aggregateOver ⟨fun a _ => a, fun a _ => a⟩ (fun _ => "") ⟨.min, "v", "m", false⟩ none
        [singleColumnRow "v" (.bigInt (2 ^ 53 + 1)), singleColumnRow "v" (.bigInt (2 ^ 53))]).asIntegralI128 =
      some (2 ^ 53 + 1) := by
  refine ⟨fun h => ?_, by decide +kernel⟩
  have := h (.bigInt (2 ^ 53 + 1)) (.bigInt (2 ^ 53)) (2 ^ 53 + 1) (2 ^ 53) ⟨rfl, by decide, by decide⟩
    ⟨rfl, by decide, by decide⟩
  revert this
  decide +kernel

end Cqlite
