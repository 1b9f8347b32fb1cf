import Cqlite.Lib.BinarySearch

/-! Sparse indexes: of a sorted list only every `n`-th element is kept in the index, and the search
    for an element goes to the last kept one that is not behind it. -/

namespace SparseIndex

open BinarySearch

variable {α β : Type*} {n : Nat}

/-- The first element and every `n`-th one after it. -/
def everyNth (n : Nat) : List α → List α
  | [] => []
  | a :: l => a :: everyNth n (l.drop (n - 1))
termination_by l => l.length
decreasing_by
  rw [List.length_drop, List.length_cons]
  omega

@[simp] theorem everyNth_nil : everyNth n ([] : List α) = [] := by rw [everyNth]

theorem everyNth_cons (a : α) (l : List α) :
    everyNth n (a :: l) = a :: everyNth n (l.drop (n - 1)) := by rw [everyNth]

theorem getElem?_everyNth (hn : 0 < n) (l : List α) (j : Nat) : (everyNth n l)[j]? = l[j * n]? := by
  fun_induction everyNth n l generalizing j with
  | case1 => simp
  | case2 a l ih =>
    cases j with
    | zero => simp
    | succ j =>
      have hplace : (j + 1) * n = n - 1 + j * n + 1 := by
        rw [Nat.succ_mul]
        omega
      rw [List.getElem?_cons_succ, ih, List.getElem?_drop, hplace, List.getElem?_cons_succ]

theorem lt_length_everyNth (hn : 0 < n) (l : List α) (j : Nat) :
    j < (everyNth n l).length ↔ j * n < l.length := by
  rw [← not_iff_not, Nat.not_lt, Nat.not_lt, ← List.getElem?_eq_none_iff, getElem?_everyNth hn,
    List.getElem?_eq_none_iff]

theorem everyNth_sublist (l : List α) : (everyNth n l).Sublist l := by
  fun_induction everyNth n l with
  | case1 => exact .slnil
  | case2 a l ih => exact (ih.trans (List.drop_sublist _ _)).cons_cons a

theorem map_everyNth (f : α → β) (l : List α) : (everyNth n l).map f = everyNth n (l.map f) := by
  fun_induction everyNth n l with
  | case1 => simp
  | case2 a l ih => rw [List.map_cons, ih, List.map_cons, everyNth_cons, List.map_drop]

/-- An index is built element by element: one more is kept when it is at a multiple of `n`. -/
theorem everyNth_concat (hn : 0 < n) (l : List α) (a : α) :
    everyNth n (l ++ [a]) = everyNth n l ++ if l.length % n = 0 then [a] else [] := by
  fun_induction everyNth n l with
  | case1 => simp [everyNth_cons]
  | case2 b l ih =>
    rw [List.cons_append, everyNth_cons, List.cons_append, List.length_cons]
    congr 1
    by_cases h : n - 1 ≤ l.length
    · rw [List.drop_append_of_le_length h, ih, List.length_drop]
      have hmod : (l.length + 1) % n = (l.length - (n - 1)) % n := by
        rw [Nat.mod_eq_sub_mod (by omega)]
        congr 1
        omega
      rw [hmod]
    · rw [List.drop_eq_nil_of_le (by rw [List.length_append, List.length_singleton]; omega),
        List.drop_eq_nil_of_le (by omega), Nat.mod_eq_of_lt (by omega), if_neg (by omega)]
      simp

theorem mapIdx_take_concat (f : List α → α → β) (l : List α) (a : α) :
    ((l ++ [a]).mapIdx fun i x => f ((l ++ [a]).take i) x) =
      (l.mapIdx fun i x => f (l.take i) x) ++ [f l a] := by
  rw [List.mapIdx_concat, List.take_left]
  congr 1
  refine List.ext_getElem? fun i => ?_
  rw [List.getElem?_mapIdx, List.getElem?_mapIdx]
  cases h : l[i]? with
  | none => rfl
  | some x => rw [List.take_append_of_le_length (List.getElem?_eq_some_iff.1 h).1.le]

/-! ### Search -/

theorem Partitioned.everyNth {p : α → Bool} {l : List α} (h : Partitioned p l) :
    Partitioned p (everyNth n l) :=
  List.Pairwise.sublist (everyNth_sublist l) h

/-- The search in the index counts the kept elements of the first part. -/
theorem lt_partitionPoint_everyNth {p : α → Bool} {l : List α} (hn : 0 < n) (h : Partitioned p l)
    (j : Nat) : j < partitionPoint p (everyNth n l) ↔ j * n < (l.takeWhile p).length := by
  rw [partitionPoint_eq (Partitioned.everyNth h)]
  by_cases hj : j < (SparseIndex.everyNth n l).length
  · rw [← (Partitioned.everyNth h).any_iff hj, getElem?_everyNth hn,
      h.any_iff ((lt_length_everyNth hn l j).1 hj)]
  · have hj' := mt (lt_length_everyNth hn l j).2 hj
    have hkept := (List.takeWhile_sublist (l := SparseIndex.everyNth n l) p).length_le
    have hfirst := (List.takeWhile_sublist (l := l) p).length_le
    omega

/-- The last kept element of the first part is the one whose stretch the first part ends in; it is
    the first element when the first part is empty. -/
theorem floor_everyNth {p : α → Bool} {l : List α} (hn : 0 < n) (h : Partitioned p l) :
    partitionPoint p (everyNth n l) - 1 = ((l.takeWhile p).length - 1) / n := by
  have hlt := lt_partitionPoint_everyNth hn h
  generalize (l.takeWhile p).length = c at hlt ⊢
  cases c with
  | zero =>
    have hzero := mt (hlt 0).1 (Nat.not_lt_zero _)
    rw [Nat.zero_sub, Nat.zero_div]
    omega
  | succ i =>
    have hin := (hlt (i / n)).2 (by have := Nat.div_mul_le_self i n; omega)
    have hout := mt (hlt (i / n + 1)).1 (by
      have := Nat.lt_mul_of_div_lt (Nat.lt_succ_self (i / n)) hn
      rw [Nat.succ_eq_add_one] at this
      omega)
    exact Nat.sub_eq_of_eq_add (Nat.le_antisymm (Nat.not_lt.1 hout) hin)

/-! ### Stretches -/

/-- The elements from a kept one to the next. -/
def stretch (n j : Nat) (l : List α) : List α := (l.drop (j * n)).take n

theorem mem_stretch {l : List α} {i : Nat} {a : α} (hn : 0 < n) (h : l[i]? = some a) :
    a ∈ stretch n (i / n) l := by
  refine List.mem_of_getElem? (i := i % n) ?_
  rw [stretch, List.getElem?_take_of_lt (Nat.mod_lt i hn), List.getElem?_drop, Nat.div_add_mod', h]

theorem stretch_sublist (j : Nat) (l : List α) : (stretch n j l).Sublist l :=
  (List.take_sublist _ _).trans (List.drop_sublist _ _)

end SparseIndex
