import Mathlib.Algebra.Order.Ring.Int
import Mathlib.Data.List.TakeWhile
import Mathlib.Data.List.Pairwise
import Mathlib.Tactic.Common

/-! The standard library's `partition_point` and `binary_search`: halving search for the first element
    that fails a predicate, and for an element. -/

namespace BinarySearch

variable {α : Type*}

/-- The loop: the answer lies between `base` and `base + size`; the last candidate is tested once. -/
def search (p : Nat → Bool) (base size : Nat) : Nat :=
  if 1 < size then
    let half := size / 2
    let mid := base + half
    search p (if p mid then mid else base) (size - half)
  else if p base then base + 1
  else base
termination_by size
decreasing_by omega

/-- `slice::partition_point`. -/
def partitionPoint (p : α → Bool) (l : List α) : Nat :=
  if l.length = 0 then 0 else search (fun i => l[i]?.any p) 0 l.length

/-- The predicate holds for a first part of the list and fails for the rest. -/
def Partitioned (p : α → Bool) (l : List α) : Prop := l.Pairwise fun a b => p b = true → p a = true

/-- The loop of `binary_search_by`: the last candidate that is not greater. -/
def searchBase (p : Nat → Bool) (base size : Nat) : Nat :=
  if 1 < size then
    let half := size / 2
    let mid := base + half
    searchBase p (if p mid then mid else base) (size - half)
  else base
termination_by size
decreasing_by omega

theorem searchBase_eq {p : Nat → Bool} {base size k : Nat} (hsize : 0 < size) (hlo : base ≤ k)
    (hhi : k ≤ base + size) (hp : ∀ i < base + size, p i = true ↔ i < k) :
    searchBase p base size = max base (k - 1) := by
  induction size using Nat.strongRecOn generalizing base with
  | ind size ih =>
    rw [searchBase]
    by_cases h : 1 < size
    · simp only [if_pos h]
      have hmid := hp (base + size / 2) (by omega)
      by_cases hc : p (base + size / 2) = true
      · have hk := hmid.mp hc
        rw [if_pos hc, ih (size - size / 2) (by omega) (by omega) hk.le (by omega) fun i hi =>
          hp i (by omega)]
        omega
      · have hk : k ≤ base + size / 2 := not_lt.mp (mt hmid.mpr hc)
        rw [if_neg hc, ih (size - size / 2) (by omega) (by omega) hlo (by omega) fun i hi =>
          hp i (by omega)]
    · rw [if_neg h]
      omega

theorem search_eq_searchBase (p : Nat → Bool) (base size : Nat) : search p base size =
    if p (searchBase p base size) then searchBase p base size + 1 else searchBase p base size := by
  induction size using Nat.strongRecOn generalizing base with
  | ind size ih =>
    rw [search, searchBase]
    by_cases h : 1 < size
    · simp only [if_pos h]
      exact ih _ (by omega) _
    · simp only [if_neg h]

theorem search_eq {p : Nat → Bool} {base size k : Nat} (hsize : 0 < size) (hlo : base ≤ k)
    (hhi : k ≤ base + size) (hp : ∀ i < base + size, p i = true ↔ i < k) :
    search p base size = k := by
  have hbefore := hp (max base (k - 1)) (by omega)
  rw [search_eq_searchBase, searchBase_eq hsize hlo hhi hp]
  split
  · rename_i h
    have := hbefore.mp h
    omega
  · rename_i h
    have := mt hbefore.mpr h
    omega

variable {i : Nat} {l : List α} {p : α → Bool}

/-- On a partitioned list the predicate holds exactly before the partition point. -/
theorem Partitioned.any_iff (h : Partitioned p l) (hi : i < l.length) :
    l[i]?.any p = true ↔ i < (l.takeWhile p).length := by
  induction l generalizing i with
  | nil => simp at hi
  | cons a l ih =>
    obtain ⟨ha, hl⟩ := List.pairwise_cons.mp h
    by_cases hpa : p a = true
    · rw [List.takeWhile_cons_of_pos hpa, List.length_cons]
      cases i with
      | zero => simp [hpa]
      | succ i =>
        rw [List.getElem?_cons_succ, ih hl (by simpa using hi)]
        omega
    · rw [List.takeWhile_cons_of_neg hpa]
      cases i with
      | zero => simp [hpa]
      | succ i =>
        have hi' : i < l.length := by simpa using hi
        rw [List.getElem?_cons_succ, List.getElem?_eq_getElem hi']
        have hne : ¬ p l[i] = true := fun hp => hpa (ha _ (List.getElem_mem hi') hp)
        simp [hne]

theorem partitionPoint_eq (h : Partitioned p l) : partitionPoint p l = (l.takeWhile p).length := by
  have hle : (l.takeWhile p).length ≤ l.length := (List.takeWhile_sublist p).length_le
  unfold partitionPoint
  split
  · omega
  · exact search_eq (by omega) (by omega) (by omega) fun i hi => h.any_iff (by omega)

theorem getElem?_partitionPoint (h : Partitioned p l) :
    l[partitionPoint p l]? = (l.dropWhile p).head? := by
  rw [partitionPoint_eq h, List.head?_eq_getElem?]
  obtain ⟨n, hn⟩ : ∃ n, (l.takeWhile p).length = n := ⟨_, rfl⟩
  calc l[(l.takeWhile p).length]? = (l.takeWhile p ++ l.dropWhile p)[n]? := by
        rw [List.takeWhile_append_dropWhile, hn]
    _ = (l.dropWhile p)[0]? := by
        rw [List.getElem?_append_right hn.le, hn, Nat.sub_self]

/-! ### Search for an element -/

/-- `slice::binary_search`: the place of an element equal to the one sought. -/
def binarySearch [LinearOrder α] (l : List α) (x : α) : Option Nat :=
  if l.length = 0 then none
  else
    let base := searchBase (fun i => l[i]?.any (· ≤ x)) 0 l.length
    if l[base]? = some x then some base else none

theorem getElem?_of_binarySearch [LinearOrder α] {x : α} (h : binarySearch l x = some i) :
    l[i]? = some x := by
  rw [binarySearch] at h
  split at h
  · cases h
  · simp only at h
    split at h
    · rename_i hx
      rwa [← Option.some.inj h]
    · cases h

theorem lt_of_binarySearch [LinearOrder α] {x : α} (h : binarySearch l x = some i) : i < l.length :=
  (List.getElem?_eq_some_iff.1 (getElem?_of_binarySearch h)).1

/-- In an ascending list, the search finds an element where it is. -/
theorem binarySearch_eq_some_iff [LinearOrder α] {l : List α} (h : l.Pairwise (· < ·)) {x : α}
    {i : Nat} : binarySearch l x = some i ↔ l[i]? = some x := by
  have hpart : Partitioned (fun y => decide (y ≤ x)) l := by
    refine h.imp fun {a b} hab hb => ?_
    simp only [decide_eq_true_eq] at hb ⊢
    exact hab.le.trans hb
  obtain ⟨k, hk⟩ : ∃ k, k = (l.takeWhile fun y => decide (y ≤ x)).length := ⟨_, rfl⟩
  have hle : k ≤ l.length := hk ▸ (List.takeWhile_sublist _).length_le
  rw [binarySearch]
  split
  · next hnil =>
    rw [List.length_eq_zero_iff.1 hnil]
    simp
  · next hne =>
    have hbase : searchBase (fun i => l[i]?.any (· ≤ x)) 0 l.length = k - 1 := by
      rw [searchBase_eq (by omega) (Nat.zero_le k) (by omega) fun i hi => by
        rw [hk]
        exact hpart.any_iff (by omega)]
      omega
    simp only [hbase]
    constructor
    · intro hfound
      split at hfound
      · next hx => rwa [← Option.some.inj hfound]
      · cases hfound
    · intro hx
      obtain ⟨hi, hxi⟩ := List.getElem?_eq_some_iff.1 hx
      -- the element sought is the last of those not greater
      have hik : i < k := by
        rw [hk, ← hpart.any_iff hi, hx]
        simp
      have hki : k - 1 = i := by
        refine Classical.byContradiction fun hne' => ?_
        have hlt : k - 1 < l.length := by omega
        have hgt := List.pairwise_iff_getElem.1 h i (k - 1) hi hlt (by omega)
        have hany := (hpart.any_iff hlt).2 (by omega)
        rw [List.getElem?_eq_getElem hlt] at hany
        simp only [Option.any_some, decide_eq_true_eq] at hany
        rw [hxi] at hgt
        exact absurd hany (not_le.2 hgt)
      rw [hki, if_pos hx]

end BinarySearch
