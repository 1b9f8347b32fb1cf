import Mathlib.Data.List.Basic

/-! Lists cut into blocks of `n` places, the last one maybe shorter. -/

namespace Blocks

variable {α : Type}

/-! ### Parts -/

/-- The places from `i` up to `j`. -/
def part (i j : Nat) (xs : List α) : List α := (xs.take j).drop i

@[simp] theorem length_part (i j : Nat) (xs : List α) :
    (part i j xs).length = min j xs.length - i := by
  rw [part, List.length_drop, List.length_take]

variable {i j k : Nat} {xs : List α}

theorem part_eq_nil (h : j ≤ i) : part i j xs = [] := by
  rw [← List.length_eq_zero_iff, length_part]
  omega

theorem part_eq_drop (i : Nat) (h : xs.length ≤ j) : part i j xs = xs.drop i := by
  rw [part, List.take_of_length_le h]

theorem take_drop_eq_part (i n : Nat) (xs : List α) : (xs.drop i).take n = part i (i + n) xs := by
  rw [part, List.take_drop]

theorem part_append_part (hij : i ≤ j) (hjk : j ≤ k) (xs : List α) :
    part i j xs ++ part j k xs = part i k xs := by
  have hsplit : part i k xs = (part i k xs).take (j - i) ++ (part i k xs).drop (j - i) :=
    (List.take_append_drop _ _).symm
  have htake : (part i k xs).take (j - i) = part i j xs := by
    rw [part, part, List.take_drop, List.take_take]
    congr 2
    omega
  have hdrop : (part i k xs).drop (j - i) = part j k xs := by
    rw [part, part, List.drop_drop]
    congr 1
    omega
  rw [hsplit, htake, hdrop]

/-- A part with the part behind it, which may begin further on only when the first is empty. -/
theorem part_append_max (hjk : j ≤ k) (xs : List α) :
    part i j xs ++ part (max i j) k xs = part i k xs := by
  rcases Nat.le_total i j with h | h
  · rw [Nat.max_eq_right h, part_append_part h hjk]
  · rw [Nat.max_eq_left h, part_eq_nil h, List.nil_append]

theorem part_min_append (hij : i ≤ j) (xs : List α) :
    part i (min k j) xs ++ part j k xs = part i k xs := by
  rcases Nat.le_total k j with h | h
  · rw [Nat.min_eq_left h, part_eq_nil h, List.append_nil]
  · rw [Nat.min_eq_right h, part_append_part hij h]

theorem part_min_length (i j : Nat) (xs : List α) : part i (min j xs.length) xs = part i j xs := by
  rw [part, part, ← List.take_eq_take_min]

/-- A part of a part. -/
theorem part_part {a b : Nat} (h : i + b ≤ j) (xs : List α) :
    part a b (part i j xs) = part (i + a) (i + b) xs := by
  rw [part, part, part, List.take_drop, List.take_take, List.drop_drop]
  congr 2
  omega

/-! ### Blocks -/

/-- Block number `c`. -/
def block (n c : Nat) (xs : List α) : List α := part (c * n) ((c + 1) * n) xs

/-- How many blocks `len` places take, rounded up. -/
def count (n len : Nat) : Nat := (len + n - 1) / n

def blocks (n : Nat) (xs : List α) : List (List α) :=
  (List.range (count n xs.length)).map fun c => block n c xs

variable {n : Nat}

variable {c : Nat}

theorem lt_count (hn : 0 < n) {len : Nat} : c < count n len ↔ c * n < len := by
  rw [count, Nat.lt_iff_add_one_le, Nat.le_div_iff_mul_le hn, Nat.add_one_mul]
  omega

@[simp] theorem length_blocks (xs : List α) : (blocks n xs).length = count n xs.length := by
  rw [blocks, List.length_map, List.length_range]

theorem getElem?_blocks (hn : 0 < n) (h : c * n < xs.length) :
    (blocks n xs)[c]? = some (block n c xs) := by
  rw [blocks, List.getElem?_map, List.getElem?_range ((lt_count hn).2 h)]
  rfl

theorem count_mul (hn : 0 < n) (k : Nat) : count n (n * k) = k := by
  have h : n * k + n - 1 = (n - 1) + n * k := by omega
  rw [count, h, Nat.add_mul_div_left _ _ hn, Nat.div_eq_of_lt (by omega), Nat.zero_add]

theorem count_mul_add (hn : 0 < n) {m : Nat} (hpos : 0 < m) (hle : m ≤ n) :
    count n (n * k + m) = k + 1 := by
  have h : n * k + m + n - 1 = (m - 1) + n * (k + 1) := by
    rw [Nat.mul_add]
    omega
  rw [count, h, Nat.add_mul_div_left _ _ hn, Nat.div_eq_of_lt (by omega), Nat.zero_add]

theorem block_append_left (ys : List α) (h : (c + 1) * n ≤ xs.length) :
    block n c (xs ++ ys) = block n c xs := by
  rw [block, block, part, part, List.take_append_of_le_length h]

theorem blocks_concat (hn : 0 < n) {front last : List α} (hfront : front.length = n * k)
    (hpos : 0 < last.length) (hle : last.length ≤ n) :
    blocks n (front ++ last) = blocks n front ++ [last] := by
  rw [blocks, blocks, List.length_append, hfront, count_mul hn, count_mul_add hn hpos hle,
    List.range_succ, List.map_append, List.map_singleton]
  congr 1
  · refine List.map_congr_left fun c hc => block_append_left last ?_
    rw [hfront, Nat.mul_comm n k]
    exact Nat.mul_le_mul_right n (List.mem_range.1 hc)
  · have hlen : (front ++ last).length ≤ (k + 1) * n := by
      rw [List.length_append, hfront, Nat.add_one_mul, Nat.mul_comm n k]
      omega
    rw [block, part_eq_drop _ hlen, Nat.mul_comm k n, ← hfront, List.drop_left]

theorem block_eq_nil (h : xs.length ≤ c * n) : block n c xs = [] := by
  rw [← List.length_eq_zero_iff, block, length_part]
  omega

theorem part_append_block (h : i ≤ c * n) (xs : List α) :
    part i (c * n) xs ++ block n c xs = part i ((c + 1) * n) xs :=
  part_append_part h (Nat.mul_le_mul_right n (Nat.le_succ c)) xs

theorem part_prefix (i : Nat) (h : j ≤ k) (xs : List α) : part i j xs <+: part i k xs := by
  rcases Nat.le_total i j with hij | hji
  · exact ⟨part j k xs, part_append_part hij h xs⟩
  · rw [part_eq_nil hji]
    exact List.nil_prefix

theorem drop_part (a i j : Nat) (xs : List α) : (part i j xs).drop a = part (i + a) j xs := by
  rw [part, part, List.drop_drop]

/-! ### Records one behind another -/

/-- Where the records start. -/
def starts (records : List (List α)) : List Nat :=
  (List.range records.length).map fun k => (records.take k).flatten.length

variable {records : List (List α)} {record : List α} {k : Nat}

@[simp] theorem length_starts (records : List (List α)) :
    (starts records).length = records.length := by
  rw [starts, List.length_map, List.length_range]

theorem getElem?_starts (h : k < records.length) :
    (starts records)[k]? = some (records.take k).flatten.length := by
  rw [starts, List.getElem?_map, List.getElem?_range h]
  rfl

theorem flatten_take_succ (h : records[k]? = some record) :
    (records.take (k + 1)).flatten = (records.take k).flatten ++ record := by
  rw [List.take_add_one, h, List.flatten_append]
  simp

theorem start_next (h : records[k]? = some record) :
    (starts records)[k + 1]?.getD records.flatten.length =
      (records.take k).flatten.length + record.length := by
  rw [← List.length_append, ← flatten_take_succ h]
  obtain ⟨hlt, -⟩ := List.getElem?_eq_some_iff.1 h
  rcases Nat.lt_or_ge (k + 1) records.length with hnext | hlast
  · rw [getElem?_starts hnext]
    rfl
  · rw [List.getElem?_eq_none (by rw [length_starts]; exact hlast), List.take_of_length_le hlast]
    rfl

theorem part_record (h : records[k]? = some record) :
    part (records.take k).flatten.length ((records.take k).flatten.length + record.length)
      records.flatten = record := by
  obtain ⟨hlt, hrecord⟩ := List.getElem?_eq_some_iff.1 h
  have hsplit : records.flatten =
      (records.take k).flatten ++ (record ++ (records.drop (k + 1)).flatten) := by
    conv_lhs => rw [← List.take_append_drop k records]
    rw [List.flatten_append, List.drop_eq_getElem_cons hlt, List.flatten_cons, hrecord]
  rw [hsplit, ← take_drop_eq_part, List.drop_left, List.take_left]

end Blocks
