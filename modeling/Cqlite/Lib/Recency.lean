import Mathlib.Algebra.Order.Ring.Int
import Mathlib.Algebra.Order.BigOperators.Group.List
import Mathlib.Algebra.Order.Group.Nat
import Mathlib.Data.List.Nodup

/-! Lists in order of recency.

    A cache that throws out what was used least recently is a list of keys and values, the last used
    one first. Using a key moves it to the front, and trimming takes entries off the end. Where a key
    has two halves, the entries under one first half are in order of recency too. -/

namespace Recency

variable {ι κ ν μ : Type*} [DecidableEq ι] [DecidableEq κ]

def lookup (l : List (κ × ν)) (k : κ) : Option ν := (l.find? fun p => p.1 = k).map (·.2)

def erase (k : κ) (l : List (κ × ν)) : List (κ × ν) := l.filter fun p => p.1 ≠ k

/-- The key is used, with a value. -/
def touch (k : κ) (v : ν) (l : List (κ × ν)) : List (κ × ν) := (k, v) :: erase k l

def weigh (weight : κ → Nat) (l : List (κ × ν)) : Nat := (l.map fun p => weight p.1).sum

/-- At most so many entries leave, while there is more than one and they weigh too much. -/
def trim (weight : κ → Nat) (budget : Nat) : Nat → List (κ × ν) → List (κ × ν)
  | 0, l => l
  | n + 1, l =>
    if budget < weigh weight l ∧ 1 < l.length then trim weight budget n l.dropLast else l

/-- A key is given a value. -/
def put (weight : κ → Nat) (budget : Nat) (k : κ) (v : ν) (l : List (κ × ν)) : List (κ × ν) :=
  trim weight budget (touch k v l).length (touch k v l)

/-- The entries under one first half. -/
def part (i : ι) (l : List ((ι × κ) × ν)) : List (κ × ν) :=
  (l.filter fun p => p.1.1 = i).map fun p => (p.1.2, p.2)

variable {l : List (κ × ν)} {k : κ} {v : ν} {weight : κ → Nat} {budget : Nat}

theorem mem_of_lookup (h : lookup l k = some v) : (k, v) ∈ l := by
  obtain ⟨p, hp, rfl⟩ := Option.map_eq_some_iff.mp h
  obtain rfl : p.1 = k := by simpa using List.find?_some hp
  exact List.mem_of_find?_eq_some hp

theorem lookup_cons (p : κ × ν) :
    lookup (p :: l) k = if p.1 = k then some p.2 else lookup l k := by
  rw [lookup, List.find?_cons]
  split <;> simp_all [lookup]

theorem lookup_of_mem (h : (l.map (·.1)).Nodup) (hmem : (k, v) ∈ l) : lookup l k = some v := by
  induction l with
  | nil => cases hmem
  | cons p l ih =>
    obtain ⟨hnot, hl⟩ := List.nodup_cons.mp h
    rw [lookup_cons]
    rcases List.mem_cons.mp hmem with rfl | hmem
    · exact if_pos rfl
    · rw [if_neg fun hp => hnot (List.mem_map.mpr ⟨_, hmem, hp.symm⟩), ih hl hmem]

theorem erase_cons (p : κ × ν) :
    erase k (p :: l) = if p.1 = k then erase k l else p :: erase k l := by
  rw [erase, List.filter_cons]
  split <;> simp_all [erase]

omit [DecidableEq κ] in
theorem weigh_cons (p : κ × ν) : weigh weight (p :: l) = weight p.1 + weigh weight l := rfl

omit [DecidableEq κ] in
theorem weigh_one : weigh (fun _ => 1) l = l.length := by simp [weigh]

theorem nodup_touch (h : (l.map (·.1)).Nodup) : ((touch k v l).map (·.1)).Nodup := by
  rw [touch, List.map_cons, List.nodup_cons]
  exact ⟨by simp [erase], h.sublist (List.filter_sublist.map _)⟩

/-- Using a key adds its weight when it was not there. -/
theorem weigh_touch (h : (l.map (·.1)).Nodup) :
    weigh weight (touch k v l) =
      if (lookup l k).isSome then weigh weight l else weigh weight l + weight k := by
  suffices herase : (if (lookup l k).isSome then weight k else 0) + weigh weight (erase k l) =
      weigh weight l by
    rw [touch, weigh_cons, ← herase]
    by_cases hk : (lookup l k).isSome
    · rw [if_pos hk, if_pos hk]
    · rw [if_neg hk, if_neg hk, Nat.zero_add, Nat.add_comm]
  induction l with
  | nil => rfl
  | cons p l ih =>
    obtain ⟨hnot, hl⟩ := List.nodup_cons.mp h
    rw [lookup_cons, erase_cons, weigh_cons]
    by_cases hp : p.1 = k
    · have hkeep : erase k l = l := List.filter_eq_self.mpr fun q hq => by
        simp only [ne_eq, decide_eq_true_eq]
        rintro rfl
        exact hnot (List.mem_map.mpr ⟨q, hq, hp.symm⟩)
      rw [if_pos hp, if_pos hp, hkeep, hp]
      rfl
    · rw [if_neg hp, if_neg hp, weigh_cons, ← ih hl]
      omega

omit [DecidableEq κ] in
theorem trim_initial (n : Nat) : trim weight budget n l <+: l := by
  induction n generalizing l with
  | zero => exact List.prefix_rfl
  | succ n ih =>
    rw [trim]
    split
    · exact ih.trans (List.dropLast_prefix l)
    · exact List.prefix_rfl

omit [DecidableEq κ] in
/-- With rounds enough a trimmed list is light or has one entry. -/
theorem trim_within {n : Nat} (h : l.length ≤ n) :
    weigh weight (trim weight budget n l) ≤ budget ∨ (trim weight budget n l).length ≤ 1 := by
  induction n generalizing l with
  | zero => exact .inr (by rw [trim]; omega)
  | succ n ih =>
    rw [trim]
    split
    · exact ih (by rw [List.length_dropLast]; omega)
    · omega

omit [DecidableEq κ] in
/-- A light front stays. -/
theorem prefix_trim {a b : List (κ × ν)} (hlight : weigh weight a ≤ budget) (n : Nat) :
    a <+: trim weight budget n (a ++ b) := by
  induction n generalizing b with
  | zero => exact List.prefix_append a b
  | succ n ih =>
    rw [trim]
    split
    · rename_i hover
      obtain rfl | ⟨b, x, rfl⟩ := List.eq_nil_or_concat b
      · rw [List.append_nil] at hover
        omega
      · rw [List.concat_eq_append, ← List.append_assoc, List.dropLast_concat]
        exact ih
    · exact List.prefix_append a b

/-! ### The values do not count -/

theorem lookup_map (f : ν → μ) : lookup (l.map fun p => (p.1, f p.2)) k = (lookup l k).map f := by
  rw [lookup, lookup, List.find?_map, Option.map_map, Option.map_map]
  rfl

theorem touch_map (f : ν → μ) :
    touch k (f v) (l.map fun p => (p.1, f p.2)) = (touch k v l).map fun p => (p.1, f p.2) := by
  rw [touch, erase, List.filter_map, touch, List.map_cons]
  rfl

omit [DecidableEq κ] in
theorem weigh_map (f : ν → μ) : weigh weight (l.map fun p => (p.1, f p.2)) = weigh weight l := by
  rw [weigh, weigh, List.map_map]
  rfl

omit [DecidableEq κ] in
theorem trim_map (f : ν → μ) (n : Nat) :
    trim weight budget n (l.map fun p => (p.1, f p.2)) =
      (trim weight budget n l).map fun p => (p.1, f p.2) := by
  induction n generalizing l with
  | zero => rfl
  | succ n ih =>
    rw [trim, trim, weigh_map, List.length_map, ← List.map_dropLast, ih]
    split <;> rfl

/-! ### Parts -/

variable {i j : ι} {l : List ((ι × κ) × ν)}

theorem lookup_part : lookup (part i l) k = lookup l (i, k) := by
  induction l with
  | nil => rfl
  | cons p l ih =>
    rw [lookup_cons, ← ih, part, List.filter_cons]
    split
    · rw [List.map_cons, lookup_cons, ← part]
      simp_all [Prod.ext_iff]
    · rw [← part, if_neg (by simp_all [Prod.ext_iff])]

omit [DecidableEq κ] in
theorem mem_part {q : κ × ν} : q ∈ part i l ↔ ((i, q.1), q.2) ∈ l := by
  simp only [part, List.mem_map, List.mem_filter, decide_eq_true_eq]
  constructor
  · rintro ⟨p, ⟨hp, rfl⟩, rfl⟩
    exact hp
  · exact fun h => ⟨_, ⟨h, rfl⟩, rfl⟩

theorem part_touch_self : part i (touch (i, k) v l) = touch k v (part i l) := by
  simp only [part, touch, erase, List.filter_cons, List.filter_filter, List.filter_map]
  simp
  congr 1
  refine List.filter_congr fun p _ => ?_
  grind

theorem part_touch_of_ne (h : i ≠ j) : part i (touch (j, k) v l) = part i l := by
  simp only [part, touch, erase, List.filter_cons, List.filter_filter]
  rw [if_neg (by simpa using h.symm)]
  congr 1
  refine List.filter_congr fun p _ => ?_
  grind

omit [DecidableEq κ] in
theorem part_filter_of_ne (h : i ≠ j) : part i (l.filter fun p => p.1.1 ≠ j) = part i l := by
  simp only [part, List.filter_filter]
  congr 1
  refine List.filter_congr fun p _ => ?_
  grind

omit [DecidableEq κ] in
theorem weigh_filter {weight : ι × κ → Nat} :
    weigh weight (l.filter fun p => p.1.1 ≠ i) + ((part i l).map fun q => weight (i, q.1)).sum =
      weigh weight l := by
  induction l with
  | nil => rfl
  | cons p l ih =>
    rw [weigh_cons, ← ih, part, List.filter_cons, List.filter_cons]
    by_cases hp : p.1.1 = i
    · rw [if_neg (by simpa using hp), if_pos (by simpa using hp), List.map_cons, List.map_cons,
        List.sum_cons, ← part, ← hp]
      exact Nat.add_left_comm _ _ _
    · rw [if_pos (by simpa using hp), if_neg (by simpa using hp), weigh_cons, ← part]
      exact Nat.add_assoc _ _ _

omit [DecidableEq κ] in
/-- The parts have the entries between them. -/
theorem sum_length_part {ids : List ι} (hids : ids.Nodup) (hall : ∀ p ∈ l, p.1.1 ∈ ids) :
    (ids.map fun i => (part i l).length).sum = l.length := by
  induction l with
  | nil => simp [part]
  | cons p l ih =>
    have hone : ∀ i, (part i (p :: l)).length = (part i l).length + [p.1.1].count i := by
      intro i
      rw [part, List.filter_cons, List.count_singleton]
      split <;> simp_all [part]
    have hcount : (ids.map fun i => [p.1.1].count i).sum = 1 := by
      rw [List.sum_map_eq_nsmul_single p.1.1 _ fun i hne _ =>
        List.count_eq_zero.mpr (by simpa using hne),
        List.count_eq_one_of_mem hids (hall p List.mem_cons_self)]
      simp
    simp only [hone, List.sum_map_add, hcount, List.length_cons,
      ih fun q hq => hall q (List.mem_cons_of_mem _ hq)]

end Recency
