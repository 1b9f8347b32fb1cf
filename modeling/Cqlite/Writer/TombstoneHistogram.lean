import Cqlite.Types
import Mathlib.Data.List.Dedup
import Mathlib.Data.List.Induction
import Mathlib.Algebra.Order.BigOperators.Group.List
import Mathlib.Tactic.Linarith
import Mathlib.Tactic.Ring

/-! The drop times of tombstones in the statistics of a table.

    Every deletion time is counted in a bin. Above a hundred bins the two closest ones become one,
    at the truncated average of their points weighted by their counts. All arithmetic is on signed
    integers of 64 bits and an overflow of it is `none`. -/

namespace Cqlite

/-- A result of 64 bits; `none` is an overflow. -/
def checkedI64 (n : Int) : Option Int := if i64Min ≤ n ∧ n ≤ i64Max then some n else none

/-- Points and their counts: a `BTreeMap` in the order of its keys. -/
abbrev Bins := List (Int × Int)

namespace TombstoneHistogram

def tombstoneHistogramMaxBinSize : Nat := 100

/-! ### The map -/

/-- `*bins.entry(key).or_insert(0) += count`. -/
def addCount : Bins → Int → Int → Option Bins
  | [], key, count => some [(key, count)]
  | (k, v) :: bins, key, count =>
    if key < k then some ((key, count) :: (k, v) :: bins)
    else if key = k then (checkedI64 (v + count)).map fun sum => (k, sum) :: bins
    else (addCount bins key count).map ((k, v) :: ·)

/-- `bins.remove(&key).unwrap_or(0)` and the bins that stay. -/
def removeKey (bins : Bins) (key : Int) : Int × Bins :=
  ((bins.lookup key).getD 0, bins.filter (·.1 ≠ key))

/-! ### Recording a time -/

/-- The smallest gap and the index of its first pair, after one more pair. -/
def closestStep (keys : List Int) (acc : Int × Nat) (i : Nat) : Option (Int × Nat) :=
  (checkedI64 (keys.getD (i + 1) 0 - keys.getD i 0)).map fun gap =>
    if gap < acc.1 then (gap, i) else acc

/-- The index of the first pair of adjacent keys with the smallest gap. -/
def mergeIdx (keys : List Int) : Option Nat :=
  ((List.range (keys.length - 1)).foldlM (closestStep keys) (i64Max, 0)).map (·.2)

/-- The average of two points weighted by their counts. -/
def mergedKey (k1 v1 k2 v2 total : Int) : Option Int :=
  if total = 0 then do
    let sum ← checkedI64 (k1 + k2)
    return sum.tdiv 2
  else do
    let left ← checkedI64 (k1 * v1)
    let right ← checkedI64 (k2 * v2)
    let sum ← checkedI64 (left + right)
    checkedI64 (sum.tdiv total)

def mergeClosestBins (bins : Bins) : Option Bins :=
  if bins.length < 2 then some bins
  else do
    let keys := bins.map (·.1)
    let idx ← mergeIdx keys
    let k1 := keys.getD idx 0
    let k2 := keys.getD (idx + 1) 0
    let (v1, bins) := removeKey bins k1
    let (v2, bins) := removeKey bins k2
    let total ← checkedI64 (v1 + v2)
    let merged ← mergedKey k1 v1 k2 v2 total
    addCount bins merged total

/-- `while bins.len() > MAX { merge_closest_bins() }`; no fuel left is `none`. -/
def mergeWhile : Nat → Bins → Option Bins
  | 0, _ => none
  | fuel + 1, bins =>
    if tombstoneHistogramMaxBinSize < bins.length then
      (mergeClosestBins bins).bind (mergeWhile fuel)
    else some bins

def update (bins : Bins) (localDeletionTime : Int) : Option Bins := do
  let bins ← addCount bins localDeletionTime 1
  mergeWhile bins.length bins

/-- A new histogram after the calls of `update`. -/
def recordAll (times : List Int) : Option Bins := times.foldlM update []

/-! ### Arithmetic -/

theorem checkedI64_eq {n : Int} (hlow : i64Min ≤ n) (hhigh : n ≤ i64Max) : checkedI64 n = some n :=
  if_pos ⟨hlow, hhigh⟩

/-- A quotient that is cut towards zero stays within integer bounds of the exact one. -/
theorem tdiv_mem_Icc {a b s t : Int} (ht : 0 < t) (hlow : a * t ≤ s) (hhigh : s ≤ b * t) :
    a ≤ s.tdiv t ∧ s.tdiv t ≤ b := by
  rcases le_total 0 s with hs | hs
  · rw [Int.tdiv_eq_ediv_of_nonneg hs]
    exact ⟨(Int.le_ediv_iff_mul_le ht).mpr hlow,
      le_trans (Int.ediv_le_ediv ht hhigh) (Int.mul_ediv_cancel b ht.ne').le⟩
  · obtain ⟨u, rfl⟩ : ∃ u, s = -u := ⟨-s, by omega⟩
    rw [Int.neg_tdiv, Int.tdiv_eq_ediv_of_nonneg (by omega)]
    have hfloor : -b ≤ u / t := (Int.le_ediv_iff_mul_le ht).mpr (by linarith)
    have hceil : u / t ≤ -a := by
      refine le_trans (Int.ediv_le_ediv ht (b := -a * t) (by linarith)) ?_
      exact (Int.mul_ediv_cancel (-a) ht.ne').le
    exact ⟨by omega, by omega⟩

/-- A point of 32 bits times a count stays within `count * 2 ^ 31`. -/
theorem abs_mul_le {k v : Int} (hk : -(2 ^ 31) ≤ k ∧ k < 2 ^ 31) (hv : 0 ≤ v) :
    -(2 ^ 31 * v) ≤ k * v ∧ k * v ≤ 2 ^ 31 * v := by
  constructor
  · have := mul_le_mul_of_nonneg_right hk.1 hv
    linarith
  · exact mul_le_mul_of_nonneg_right hk.2.le hv

/-- The average of two points lies between them, and nothing on the way to it overflows. -/
theorem mergedKey_between {k1 v1 k2 v2 : Int} (h1 : -(2 ^ 31) ≤ k1 ∧ k1 < 2 ^ 31)
    (h2 : -(2 ^ 31) ≤ k2 ∧ k2 < 2 ^ 31) (hkeys : k1 ≤ k2) (hv1 : 0 < v1) (hv2 : 0 < v2)
    (htotal : v1 + v2 < 2 ^ 31) :
    ∃ m, mergedKey k1 v1 k2 v2 (v1 + v2) = some m ∧ k1 ≤ m ∧ m ≤ k2 := by
  obtain ⟨hl1, hh1⟩ := abs_mul_le h1 hv1.le
  obtain ⟨hl2, hh2⟩ := abs_mul_le h2 hv2.le
  have hlow : k1 * (v1 + v2) ≤ k1 * v1 + k2 * v2 := by
    have := mul_le_mul_of_nonneg_right hkeys hv2.le
    rw [mul_add]
    linarith
  have hhigh : k1 * v1 + k2 * v2 ≤ k2 * (v1 + v2) := by
    have := mul_le_mul_of_nonneg_right hkeys hv1.le
    rw [mul_add]
    linarith
  obtain ⟨hle, hge⟩ := tdiv_mem_Icc (by omega : 0 < v1 + v2) hlow hhigh
  refine ⟨(k1 * v1 + k2 * v2).tdiv (v1 + v2), ?_, hle, hge⟩
  have hp1 : checkedI64 (k1 * v1) = some (k1 * v1) :=
    checkedI64_eq (by rw [i64Min]; omega) (by rw [i64Max]; omega)
  have hp2 : checkedI64 (k2 * v2) = some (k2 * v2) :=
    checkedI64_eq (by rw [i64Min]; omega) (by rw [i64Max]; omega)
  have hsum : checkedI64 (k1 * v1 + k2 * v2) = some (k1 * v1 + k2 * v2) :=
    checkedI64_eq (by rw [i64Min]; omega) (by rw [i64Max]; omega)
  rw [mergedKey, if_neg (by omega), hp1, hp2]
  simp only [Option.bind_eq_bind, Option.bind_some]
  rw [hsum, Option.bind_some]
  exact checkedI64_eq (by rw [i64Min]; omega) (by rw [i64Max]; omega)

/-! ### The map keeps its order -/

/-- The points of the bins, strictly ascending. -/
def Ascending (bins : Bins) : Prop := bins.Pairwise fun a b => a.1 < b.1

def countSum (bins : Bins) : Int := (bins.map (·.2)).sum

/-- A count that is added to sorted bins: nothing overflows, the order stays, the sum grows by the
    count, the points are the old ones and the new one. -/
theorem addCount_spec {bins : Bins} (hsorted : Ascending bins) (hpos : ∀ p ∈ bins, 0 < p.2)
    {key count : Int} (hcount : 0 < count) (hfits : countSum bins + count ≤ i64Max) :
    ∃ after, addCount bins key count = some after ∧ Ascending after ∧
      countSum after = countSum bins + count ∧ (∀ p ∈ after, 0 < p.2) ∧
      after.length ≤ bins.length + 1 ∧
      ∀ k, k ∈ after.map (·.1) ↔ k = key ∨ k ∈ bins.map (·.1) := by
  induction bins with
  | nil =>
    refine ⟨[(key, count)], rfl, List.pairwise_singleton _ _, ?_, ?_, ?_, ?_⟩ <;>
      simp [countSum, hcount]
  | cons b bins ih =>
    obtain ⟨k, v⟩ := b
    obtain ⟨hhead, htail⟩ := List.pairwise_cons.mp hsorted
    have hv : 0 < v := hpos (k, v) (by simp)
    have hrest : ∀ p ∈ bins, 0 < p.2 := fun p hp => hpos p (by simp [hp])
    have hnonneg : 0 ≤ countSum bins := by
      refine List.sum_nonneg ?_
      rintro _ hx
      obtain ⟨p, hp, rfl⟩ := List.mem_map.mp hx
      exact (hrest p hp).le
    have hcons : countSum ((k, v) :: bins) = v + countSum bins := by simp [countSum]
    rw [addCount]
    rcases lt_trichotomy key k with hlt | rfl | hgt
    · rw [if_pos hlt]
      refine ⟨_, rfl, ?_, ?_, ?_, by simp, by simp⟩
      · refine List.pairwise_cons.mpr ⟨?_, hsorted⟩
        rintro p hp
        rcases List.mem_cons.mp hp with rfl | hp
        · exact hlt
        · exact hlt.trans (hhead p hp)
      · simp [countSum]
        ring
      · rintro p hp
        rcases List.mem_cons.mp hp with rfl | hp
        · exact hcount
        · exact hpos p hp
    · rw [if_neg (lt_irrefl _), if_pos rfl, checkedI64_eq (by rw [i64Min]; omega) (by omega)]
      refine ⟨(key, v + count) :: bins, rfl, ?_, ?_, ?_, by simp, by simp⟩
      · exact List.pairwise_cons.mpr ⟨hhead, htail⟩
      · simp [countSum]
        ring
      · rintro p hp
        rcases List.mem_cons.mp hp with rfl | hp
        · exact add_pos hv hcount
        · exact hrest p hp
    · obtain ⟨after, hafter, hasc, hsum, hposAfter, hlen, hmem⟩ := ih htail hrest (by omega)
      rw [if_neg (by omega), if_neg (by omega), hafter]
      refine ⟨(k, v) :: after, rfl, ?_, ?_, ?_, ?_, ?_⟩
      · refine List.pairwise_cons.mpr ⟨?_, hasc⟩
        intro p hp
        rcases (hmem p.1).mp (List.mem_map_of_mem hp) with h | h
        · rw [h]
          exact hgt
        · obtain ⟨q, hq, hqp⟩ := List.mem_map.mp h
          rw [← hqp]
          exact hhead q hq
      · rw [hcons, countSum, List.map_cons, List.sum_cons]
        rw [countSum] at hsum
        rw [hsum]
        ring
      · rintro p hp
        rcases List.mem_cons.mp hp with rfl | hp
        · exact hv
        · exact hposAfter p hp
      · simpa using hlen
      · intro q
        simp only [List.map_cons, List.mem_cons, hmem]
        tauto

/-- The count of a point that is between the points of two runs of bins. -/
theorem addCount_between {pre post : Bins} {key count : Int} (hpre : ∀ p ∈ pre, p.1 < key)
    (hpost : ∀ p ∈ post, key < p.1) :
    addCount (pre ++ post) key count = some (pre ++ (key, count) :: post) := by
  induction pre with
  | nil =>
    cases post with
    | nil => rfl
    | cons q post =>
      rw [List.nil_append, addCount, if_pos (hpost q (by simp)), List.nil_append]
  | cons p pre ih =>
    have hlt : p.1 < key := hpre p (by simp)
    rw [List.cons_append, addCount, if_neg (by omega), if_neg (by omega),
      ih fun q hq => hpre q (by simp [hq])]
    rfl

theorem removeKey_append {pre post : Bins} {k v : Int} (h : Ascending (pre ++ (k, v) :: post)) :
    removeKey (pre ++ (k, v) :: post) k = (v, pre ++ post) := by
  obtain ⟨-, htail, hcross⟩ := List.pairwise_append.mp h
  have hpre : ∀ p ∈ pre, p.1 ≠ k := fun p hp => (hcross p hp (k, v) (by simp)).ne
  have hpost : ∀ p ∈ post, p.1 ≠ k := fun p hp => ((List.pairwise_cons.mp htail).1 p hp).ne'
  have hlookup : (pre ++ (k, v) :: post).lookup k = some v := by
    clear h htail hcross
    induction pre with
    | nil => simp
    | cons p pre ih =>
      rw [List.cons_append, List.lookup_cons, beq_eq_false_iff_ne.mpr (hpre p (by simp)).symm]
      exact ih fun q hq => hpre q (by simp [hq])
  have hfilter : (pre ++ (k, v) :: post).filter (·.1 ≠ k) = pre ++ post := by
    rw [List.filter_append, List.filter_cons_of_neg (by simp),
      List.filter_eq_self.mpr (by simpa using hpre), List.filter_eq_self.mpr (by simpa using hpost)]
  rw [removeKey, hlookup, hfilter, Option.getD_some]

/-! ### One merge -/

/-- Points that are deletion times of 32 bits. -/
def Narrow (bins : Bins) : Prop := ∀ p ∈ bins, -(2 ^ 31) ≤ p.1 ∧ p.1 < 2 ^ 31

variable {bins : Bins}

theorem getD_keys {j : Nat} (hj : j < bins.length) : (bins.map (·.1)).getD j 0 = bins[j].1 := by
  rw [List.getD_eq_getElem?_getD, List.getElem?_map, List.getElem?_eq_getElem hj]
  rfl

theorem closest_fold (hnarrow : Narrow bins) (is : List Nat) (his : ∀ i ∈ is, i + 1 < bins.length)
    {acc : Int × Nat} (hacc : acc.2 + 1 < bins.length) :
    ∃ acc', is.foldlM (closestStep (bins.map (·.1))) acc = some acc' ∧
      acc'.2 + 1 < bins.length := by
  induction is generalizing acc with
  | nil => exact ⟨acc, rfl, hacc⟩
  | cons i is ih =>
    have hi : i + 1 < bins.length := his i (by simp)
    have hkey : ∀ j, j < bins.length → -(2 ^ 31) ≤ (bins.map (·.1)).getD j 0 ∧
        (bins.map (·.1)).getD j 0 < 2 ^ 31 := by
      intro j hj
      rw [getD_keys hj]
      exact hnarrow _ (List.getElem_mem hj)
    have hlow := hkey i (by omega)
    have hhigh := hkey (i + 1) hi
    rw [List.foldlM_cons, closestStep,
      checkedI64_eq (by rw [i64Min]; omega) (by rw [i64Max]; omega), Option.map_some]
    refine ih (fun j hj => his j (by simp [hj])) ?_
    split
    · exact hi
    · exact hacc

theorem mergeIdx_split (hnarrow : Narrow bins) (hlen : 2 ≤ bins.length) :
    ∃ idx pre k1 v1 k2 v2 post, mergeIdx (bins.map (·.1)) = some idx ∧
      bins = pre ++ (k1, v1) :: (k2, v2) :: post ∧ (bins.map (·.1)).getD idx 0 = k1 ∧
      (bins.map (·.1)).getD (idx + 1) 0 = k2 := by
  obtain ⟨acc, hfold, hacc⟩ := closest_fold hnarrow (List.range ((bins.map (·.1)).length - 1))
    (fun i hi => by
      rw [List.mem_range, List.length_map] at hi
      omega)
    (show ((i64Max, 0) : Int × Nat).2 + 1 < bins.length from hlen)
  refine ⟨acc.2, bins.take acc.2, bins[acc.2].1, bins[acc.2].2, bins[acc.2 + 1].1,
    bins[acc.2 + 1].2, bins.drop (acc.2 + 1 + 1), by rw [mergeIdx, hfold]; rfl, ?_, ?_, ?_⟩
  · rw [Prod.mk.eta, Prod.mk.eta, List.getElem_cons_drop, List.getElem_cons_drop,
      List.take_append_drop]
  · exact getD_keys (by omega)
  · exact getD_keys hacc

/-- Two neighbours of `bins` became one bin of `merged` between them, on no point of another. -/
def MergedPair (bins merged : Bins) : Prop :=
  ∃ pre k1 v1 k2 v2 post m, bins = pre ++ (k1, v1) :: (k2, v2) :: post ∧
    merged = pre ++ (m, v1 + v2) :: post ∧ k1 ≤ m ∧ m ≤ k2 ∧
    m ∉ (pre ++ post).map (·.1) ∧ Ascending merged

theorem mergeClosestBins_spec (hsorted : Ascending bins) (hpos : ∀ p ∈ bins, 0 < p.2)
    (hnarrow : Narrow bins) (htotal : countSum bins < 2 ^ 31) (hlen : 2 ≤ bins.length) :
    ∃ merged, mergeClosestBins bins = some merged ∧ MergedPair bins merged := by
  obtain ⟨idx, pre, k1, v1, k2, v2, post, hidx, hsplit, hk1, hk2⟩ := mergeIdx_split hnarrow hlen
  have hv1 : 0 < v1 := hpos (k1, v1) (by simp [hsplit])
  have hv2 : 0 < v2 := hpos (k2, v2) (by simp [hsplit])
  have hsum : v1 + v2 ≤ countSum bins := by
    have hnonneg : ∀ (front : Bins), (∀ p ∈ front, p ∈ bins) → 0 ≤ (front.map (·.2)).sum := by
      intro front hfront
      refine List.sum_nonneg ?_
      intro _ hx
      obtain ⟨p, hp, rfl⟩ := List.mem_map.mp hx
      exact (hpos p (hfront p hp)).le
    have hpre := hnonneg pre fun p hp => by simp [hsplit, hp]
    have hpost := hnonneg post fun p hp => by simp [hsplit, hp]
    rw [hsplit, countSum, List.map_append, List.sum_append, List.map_cons, List.map_cons,
      List.sum_cons, List.sum_cons]
    omega
  obtain ⟨hascPre, hascRest, hcross⟩ := List.pairwise_append.mp (hsplit ▸ hsorted)
  obtain ⟨hk1Rest, hascPair⟩ := List.pairwise_cons.mp hascRest
  obtain ⟨hk2Post, hascPost⟩ := List.pairwise_cons.mp hascPair
  have hlt : k1 < k2 := hk1Rest (k2, v2) (by simp)
  obtain ⟨m, hm, hle, hge⟩ := mergedKey_between (hnarrow (k1, v1) (by simp [hsplit]))
    (hnarrow (k2, v2) (by simp [hsplit])) hlt.le hv1 hv2 (by omega)
  have hbelow : ∀ p ∈ pre, p.1 < m := fun p hp => (hcross p hp (k1, v1) (by simp)).trans_le hle
  have habove : ∀ p ∈ post, m < p.1 := fun p hp => hge.trans_lt (hk2Post p hp)
  have hmiddle : Ascending (pre ++ (k2, v2) :: post) := by
    refine List.pairwise_append.mpr ⟨hascPre, hascPair, ?_⟩
    intro p hp q hq
    exact hcross p hp q (List.mem_cons_of_mem _ hq)
  refine ⟨pre ++ (m, v1 + v2) :: post, ?_, pre, k1, v1, k2, v2, post, m, hsplit, rfl, hle, hge,
    ?_, ?_⟩
  · rw [mergeClosestBins, if_neg (by omega)]
    simp only [hidx, Option.bind_eq_bind, Option.bind_some, hk1, hk2]
    rw [hsplit, removeKey_append (hsplit ▸ hsorted)]
    simp only [removeKey_append hmiddle]
    rw [checkedI64_eq (by rw [i64Min]; omega) (by rw [i64Max]; omega), Option.bind_some, hm,
      Option.bind_some]
    exact addCount_between hbelow habove
  · intro hmem
    obtain ⟨p, hp, hpm⟩ := List.mem_map.mp hmem
    rcases List.mem_append.mp hp with hp | hp
    · exact (hbelow p hp).ne hpm
    · exact (habove p hp).ne' hpm
  · refine List.pairwise_append.mpr ⟨hascPre, List.pairwise_cons.mpr ⟨habove, hascPost⟩, ?_⟩
    intro p hp q hq
    rcases List.mem_cons.mp hq with rfl | hq
    · exact hbelow p hp
    · exact hcross p hp q (by simp [hq])

/-! ### A run of calls -/

/-- What bins of a sorted map say about the times that were recorded. -/
structure Summarizes (times : List Int32) (bins : Bins) : Prop where
  ascending : Ascending bins
  positive : ∀ p ∈ bins, 0 < p.2
  total : countSum bins = times.length
  within : ∀ p ∈ bins, ∃ lo ∈ times, ∃ hi ∈ times, lo.toInt ≤ p.1 ∧ p.1 ≤ hi.toInt

variable {times : List Int32}

theorem Summarizes.narrow (h : Summarizes times bins) : Narrow bins := by
  intro p hp
  obtain ⟨lo, -, hi, -, hlow, hhigh⟩ := h.within p hp
  have := lo.le_toInt
  have := hi.toInt_lt
  exact ⟨by omega, by omega⟩

theorem Summarizes.record (h : Summarizes times bins) (t : Int32)
    (hcalls : times.length + 1 < 2 ^ 31) :
    ∃ recorded, addCount bins t.toInt 1 = some recorded ∧ Summarizes (times ++ [t]) recorded ∧
      recorded.length ≤ bins.length + 1 := by
  obtain ⟨recorded, hadd, hasc, hsum, hpos, hlen, hmem⟩ :=
    @addCount_spec bins h.ascending h.positive t.toInt 1 one_pos
      (by rw [h.total, i64Max]; omega)
  refine ⟨recorded, hadd, ⟨hasc, hpos, ?_, ?_⟩, hlen⟩
  · rw [hsum, h.total, List.length_append]
    rfl
  · intro p hp
    rcases (hmem p.1).mp (List.mem_map_of_mem hp) with hnew | hold
    · exact ⟨t, by simp, t, by simp, hnew.ge, hnew.le⟩
    · obtain ⟨q, hq, hqp⟩ := List.mem_map.mp hold
      obtain ⟨lo, hlo, hi, hhi, hlow, hhigh⟩ := h.within q hq
      exact ⟨lo, by simp [hlo], hi, by simp [hhi], hqp ▸ hlow, hqp ▸ hhigh⟩

theorem Summarizes.merged {merged : Bins} (h : Summarizes times bins)
    (hmerged : MergedPair bins merged) :
    Summarizes times merged ∧ merged.length + 1 = bins.length := by
  obtain ⟨pre, k1, v1, k2, v2, post, m, rfl, rfl, hle, hge, -, hasc⟩ := hmerged
  have hv1 : 0 < v1 := h.positive (k1, v1) (by simp)
  have hv2 : 0 < v2 := h.positive (k2, v2) (by simp)
  obtain ⟨lo, hlo, -, -, hlow, -⟩ := h.within (k1, v1) (by simp)
  obtain ⟨-, -, hi, hhi, -, hhigh⟩ := h.within (k2, v2) (by simp)
  have hcases : ∀ p ∈ pre ++ (m, v1 + v2) :: post,
      p = (m, v1 + v2) ∨ p ∈ pre ++ (k1, v1) :: (k2, v2) :: post := by
    intro p hp
    simp only [List.mem_append, List.mem_cons] at hp ⊢
    tauto
  refine ⟨⟨hasc, ?_, ?_, ?_⟩, by simp; omega⟩
  · intro p hp
    rcases hcases p hp with rfl | hold
    · exact add_pos hv1 hv2
    · exact h.positive p hold
  · rw [← h.total]
    simp only [countSum, List.map_append, List.map_cons, List.sum_append, List.sum_cons]
    ring
  · intro p hp
    rcases hcases p hp with rfl | hold
    · exact ⟨lo, hlo, hi, hhi, hlow.trans hle, hge.trans hhigh⟩
    · exact h.within p hold

/-- What a call does once its time is recorded: nothing, or the one merge that is needed. -/
def Settled (recorded after : Bins) : Prop :=
  recorded.length ≤ tombstoneHistogramMaxBinSize ∧ after = recorded ∨
    tombstoneHistogramMaxBinSize < recorded.length ∧ MergedPair recorded after

theorem mergeWhile_settled {recorded : Bins} (h : Summarizes times recorded)
    (hcalls : times.length < 2 ^ 31) (hpos : 0 < recorded.length)
    (hlen : recorded.length ≤ tombstoneHistogramMaxBinSize + 1) :
    ∃ after, mergeWhile recorded.length recorded = some after ∧ Settled recorded after ∧
      Summarizes times after ∧ after.length ≤ tombstoneHistogramMaxBinSize := by
  obtain ⟨fuel, hfuel⟩ : ∃ fuel, recorded.length = fuel + 1 := ⟨recorded.length - 1, by omega⟩
  rw [hfuel, mergeWhile]
  by_cases hfull : tombstoneHistogramMaxBinSize < recorded.length
  · rw [tombstoneHistogramMaxBinSize] at *
    obtain ⟨after, hmerge, hpair⟩ := mergeClosestBins_spec h.ascending h.positive h.narrow
      (by rw [h.total]; omega) (by omega)
    obtain ⟨hsummary, hshorter⟩ := h.merged hpair
    -- a hundred bins are left, so the loop ends after this merge
    obtain ⟨rest, hrest⟩ : ∃ rest, fuel = rest + 1 := ⟨fuel - 1, by omega⟩
    refine ⟨after, ?_, .inr ⟨hfull, hpair⟩, hsummary, by omega⟩
    rw [if_pos hfull, hmerge, Option.bind_some, hrest, mergeWhile,
      if_neg (by rw [tombstoneHistogramMaxBinSize]; omega)]
  · rw [if_neg hfull]
    exact ⟨recorded, rfl, .inl ⟨by omega, rfl⟩, h, by omega⟩

theorem update_summarizes (h : Summarizes times bins)
    (hlen : bins.length ≤ tombstoneHistogramMaxBinSize) (t : Int32)
    (hcalls : times.length + 1 < 2 ^ 31) :
    ∃ recorded after, addCount bins t.toInt 1 = some recorded ∧ update bins t.toInt = some after ∧
      Settled recorded after ∧ Summarizes (times ++ [t]) after ∧
      after.length ≤ tombstoneHistogramMaxBinSize := by
  obtain ⟨recorded, hadd, hsummary, hgrown⟩ := h.record t hcalls
  have hpos : 0 < recorded.length := by
    rcases recorded with _ | ⟨p, recorded⟩
    · have := hsummary.total
      simp [countSum] at this
      omega
    · simp
  obtain ⟨after, hmerge, hsettled, hafter, hcapacity⟩ :=
    mergeWhile_settled hsummary (by simpa using hcalls) hpos (by omega)
  refine ⟨recorded, after, hadd, ?_, hsettled, hafter, hcapacity⟩
  rw [update, hadd]
  exact hmerge

theorem recordAll_concat (times : List Int) (t : Int) :
    recordAll (times ++ [t]) = (recordAll times).bind fun bins => update bins t := by
  rw [recordAll, recordAll, List.foldlM_append]
  cases times.foldlM update [] with
  | none => rfl
  | some bins => exact bind_pure (update bins t)

theorem recordAll_summarizes (times : List Int32) (hcalls : times.length < 2 ^ 31) :
    ∃ bins, recordAll (times.map (·.toInt)) = some bins ∧ Summarizes times bins ∧
      bins.length ≤ tombstoneHistogramMaxBinSize := by
  induction times using List.reverseRecOn with
  | nil => exact ⟨[], rfl, ⟨List.Pairwise.nil, by simp, rfl, by simp⟩, Nat.zero_le _⟩
  | append_singleton times t ih =>
    rw [List.length_append, List.length_singleton] at hcalls
    obtain ⟨bins, hrun, hsummary, hlen⟩ := ih (by omega)
    obtain ⟨-, after, -, hupdate, -, hafter, hcapacity⟩ :=
      update_summarizes hsummary hlen t hcalls
    refine ⟨after, ?_, hafter, hcapacity⟩
    rw [List.map_append, List.map_singleton, recordAll_concat, hrun]
    exact hupdate

/-- No observation is lost: after any run of calls there are at most a hundred bins whose counts
    add up to the calls, on strictly ascending points between the extreme times, and each call of
    the run recorded its time and merged at most one pair of neighbours, on no third bin. A value
    of `some` says that no sum, product or gap on the way left 64 bits. -/
theorem histogram_complete (times : List Int32) (hcalls : times.length < 2 ^ 31) :
    (∃ bins, recordAll (times.map (·.toInt)) = some bins ∧
      bins.length ≤ tombstoneHistogramMaxBinSize ∧ (bins.map (·.2)).sum = times.length ∧
      (∀ p ∈ bins, ∃ lo ∈ times, ∃ hi ∈ times, lo.toInt ≤ p.1 ∧ p.1 ≤ hi.toInt) ∧
      (bins.map (·.1)).Pairwise (· < ·)) ∧
    ∀ front t back, times = front ++ t :: back → ∃ before recorded after,
      recordAll (front.map (·.toInt)) = some before ∧
      addCount before t.toInt 1 = some recorded ∧ update before t.toInt = some after ∧
      Settled recorded after := by
  constructor
  · obtain ⟨bins, hrun, hsummary, hlen⟩ := recordAll_summarizes times hcalls
    exact ⟨bins, hrun, hlen, hsummary.total, hsummary.within,
      List.pairwise_map.mpr hsummary.ascending⟩
  · rintro front t back rfl
    rw [List.length_append, List.length_cons] at hcalls
    obtain ⟨before, hrun, hsummary, hlen⟩ := recordAll_summarizes front (by omega)
    obtain ⟨recorded, after, hadd, hupdate, hsettled, -, -⟩ :=
      update_summarizes hsummary hlen t (by omega)
    exact ⟨before, recorded, after, hrun, hadd, hupdate, hsettled⟩

/-- A hundred and one different times: two of them share a bin. -/
theorem hundredOne_counted :
    ∃ bins, recordAll (((List.range 101).map fun i => Int32.ofNat (10 * i)).map (·.toInt)) =
      some bins ∧ bins.length ≤ 100 ∧ (bins.map (·.2)).sum = 101 := by
  obtain ⟨⟨bins, hrun, hlen, hsum, -⟩, -⟩ :=
    histogram_complete ((List.range 101).map fun i => Int32.ofNat (10 * i)) (by decide)
  exact ⟨bins, hrun, hlen, by simpa using hsum⟩

/-! ### Few different times -/

/-- The count of a point. -/
def countOf (bins : Bins) (k : Int) : Int := (bins.lookup k).getD 0

theorem countOf_cons (k v : Int) (bins : Bins) (q : Int) :
    countOf ((k, v) :: bins) q = if q = k then v else countOf bins q := by
  rw [countOf, List.lookup_cons]
  by_cases h : q = k
  · simp [h]
  · rw [beq_eq_false_iff_ne.mpr h, if_neg h]
    rfl

theorem countOf_notMem {q : Int} (h : q ∉ bins.map (·.1)) : countOf bins q = 0 := by
  induction bins with
  | nil => rfl
  | cons b bins ih =>
    rw [List.map_cons, List.mem_cons, not_or] at h
    rw [← Prod.mk.eta (p := b), countOf_cons, if_neg h.1]
    exact ih h.2

theorem countOf_addCount {after : Bins} (hsorted : Ascending bins) {key count : Int}
    (hafter : addCount bins key count = some after) (q : Int) :
    countOf after q = countOf bins q + if q = key then count else 0 := by
  induction bins generalizing after with
  | nil =>
    obtain rfl := Option.some.inj hafter
    rw [countOf_cons]
    split <;> simp [countOf]
  | cons b bins ih =>
    obtain ⟨k, v⟩ := b
    obtain ⟨hhead, htail⟩ := List.pairwise_cons.mp hsorted
    rw [addCount] at hafter
    rcases lt_trichotomy key k with hlt | rfl | hgt
    · rw [if_pos hlt] at hafter
      obtain rfl := Option.some.inj hafter
      rw [countOf_cons]
      split
      · rename_i heq
        have hnew : q ∉ ((k, v) :: bins).map (·.1) := by
          intro hmem
          rcases List.mem_cons.mp hmem with h | h
          · exact hlt.ne (heq ▸ h)
          · obtain ⟨p, hp, hpq⟩ := List.mem_map.mp h
            have hp' : k < p.1 := hhead p hp
            omega
        rw [countOf_notMem hnew, zero_add]
      · rw [add_zero]
    · rw [if_neg (lt_irrefl _), if_pos rfl] at hafter
      obtain ⟨sum, hsum, rfl⟩ := Option.map_eq_some_iff.mp hafter
      rw [checkedI64, Option.ite_none_right_eq_some] at hsum
      rw [countOf_cons, countOf_cons, ← Option.some.inj hsum.2]
      split <;> simp
    · rw [if_neg (by omega), if_neg (by omega)] at hafter
      obtain ⟨rest, hrest, rfl⟩ := Option.map_eq_some_iff.mp hafter
      rw [countOf_cons, countOf_cons, ih htail hrest]
      by_cases hqk : q = k
      · rw [if_pos hqk, if_pos hqk, if_neg (by omega), add_zero]
      · rw [if_neg hqk, if_neg hqk]

/-- Bins that hold exactly the times and how often each was recorded. -/
structure Tallies (times : List Int) (bins : Bins) : Prop where
  ascending : Ascending bins
  positive : ∀ p ∈ bins, 0 < p.2
  total : countSum bins = times.length
  points : ∀ k, k ∈ bins.map (·.1) ↔ k ∈ times
  counts : ∀ k, countOf bins k = times.count k

theorem Tallies.length_le {times : List Int} (h : Tallies times bins) :
    bins.length ≤ times.dedup.length := by
  have hnodup : (bins.map (·.1)).Nodup :=
    List.pairwise_map.mpr (h.ascending.imp fun hlt => hlt.ne)
  have hsub : bins.map (·.1) ⊆ times.dedup := fun k hk =>
    List.mem_dedup.mpr ((h.points k).mp hk)
  simpa using (List.subperm_of_subset hnodup hsub).length_le

theorem recordAll_tallies (times : List Int)
    (hfew : times.dedup.length ≤ tombstoneHistogramMaxBinSize)
    (hcalls : times.length ≤ i64Max) :
    ∃ bins, recordAll times = some bins ∧ Tallies times bins := by
  induction times using List.reverseRecOn with
  | nil => exact ⟨[], rfl, List.Pairwise.nil, by simp, rfl, by simp, by simp [countOf]⟩
  | append_singleton times t ih =>
    rw [List.length_append, List.length_singleton] at hcalls
    have hsub : times.dedup.length ≤ (times ++ [t]).dedup.length :=
      (List.subperm_of_subset times.nodup_dedup fun k hk =>
        List.mem_dedup.mpr (List.mem_append_left _ (List.mem_dedup.mp hk))).length_le
    obtain ⟨bins, hrun, h⟩ := ih (hsub.trans hfew) (by push_cast at hcalls; omega)
    obtain ⟨after, hadd, hasc, hsum, hpos, -, hmem⟩ :=
      @addCount_spec bins h.ascending h.positive t 1 one_pos
        (by rw [h.total]; push_cast at hcalls; omega)
    have hafter : Tallies (times ++ [t]) after := by
      refine ⟨hasc, hpos, ?_, ?_, ?_⟩
      · rw [hsum, h.total, List.length_append]
        rfl
      · intro k
        rw [hmem, h.points, List.mem_append, List.mem_singleton, or_comm]
      · intro k
        rw [countOf_addCount h.ascending hadd, h.counts, List.count_append, List.count_singleton]
        by_cases hk : k = t
        · simp [hk]
        · simp [hk, Ne.symm hk]
    refine ⟨after, ?_, hafter⟩
    have hlen := hafter.length_le
    have hne : 0 < after.length := by
      rcases after with _ | ⟨p, after⟩
      · have := (hafter.points t).mpr (by simp)
        simp at this
      · simp
    obtain ⟨fuel, hfuel⟩ : ∃ fuel, after.length = fuel + 1 := ⟨after.length - 1, by omega⟩
    rw [recordAll_concat, hrun, Option.bind_some, update, hadd]
    change mergeWhile after.length after = some after
    rw [hfuel, mergeWhile, if_neg (by omega)]

theorem Tallies.ext {times times' : List Int} {bins' : Bins} (h : Tallies times bins)
    (h' : Tallies times' bins') (hperm : times.Perm times') : bins = bins' := by
  have hentries : ∀ {ts : List Int} {bs : Bins}, Tallies ts bs →
      bs = (bs.map (·.1)).map fun k => (k, (ts.count k : Int)) := by
    intro ts bs hbs
    rw [List.map_map]
    refine (List.map_id bs).symm.trans (List.map_congr_left fun p hp => ?_)
    have hcount : countOf bs p.1 = p.2 := by
      obtain ⟨front, back, rfl⟩ := List.append_of_mem hp
      have := congrArg Prod.fst (removeKey_append hbs.ascending)
      exact this
    exact Prod.ext rfl (hcount.symm.trans (hbs.counts p.1))
  have hkeys : bins.map (·.1) = bins'.map (·.1) := by
    have hsorted := List.pairwise_map.mpr h.ascending
    have hsorted' := List.pairwise_map.mpr h'.ascending
    refine List.Perm.eq_of_pairwise (fun a b _ _ hab hba => absurd hab hba.asymm) hsorted hsorted' ?_
    refine (List.perm_ext_iff_of_nodup (hsorted.imp fun h => h.ne) (hsorted'.imp fun h => h.ne)).mpr ?_
    intro k
    rw [h.points, h'.points, hperm.mem_iff]
  rw [hentries h, hentries h', hkeys]
  exact List.map_congr_left fun k _ => by rw [hperm.count_eq]

/-- Two runs over the same few times leave the same bins if and only if every time was recorded as
    often in both. -/
theorem recordAll_eq_iff {times times' : List Int} (hsub : times' ⊆ times)
    (hfew : times.dedup.length ≤ tombstoneHistogramMaxBinSize) (hcalls : times.length ≤ i64Max)
    (hcalls' : times'.length ≤ i64Max) :
    recordAll times' = recordAll times ↔ times'.Perm times := by
  have hfew' : times'.dedup.length ≤ tombstoneHistogramMaxBinSize :=
    (List.subperm_of_subset times'.nodup_dedup fun k hk =>
      List.mem_dedup.mpr (hsub (List.mem_dedup.mp hk))).length_le.trans hfew
  obtain ⟨bins, hrun, h⟩ := recordAll_tallies times hfew hcalls
  obtain ⟨bins', hrun', h'⟩ := recordAll_tallies times' hfew' hcalls'
  rw [hrun, hrun', Option.some.injEq]
  constructor
  · rintro rfl
    exact List.perm_iff_count.mpr fun k => by
      have := (h'.counts k).symm.trans (h.counts k)
      exact_mod_cast this
  · exact fun hperm => h'.ext h hperm

end TombstoneHistogram

end Cqlite
