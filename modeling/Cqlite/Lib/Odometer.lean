import Mathlib.Data.List.Basic
import Mathlib.Algebra.BigOperators.Group.List.Basic

/-! Counting with a mixed radix.

    The last digit advances fastest, and a digit that reaches its size starts again and carries. Started
    at zeros the counter passes through every list of digits once. -/

namespace Odometer

/-- One step, and whether the first digit has carried. -/
def advance : List Nat → List Nat → List Nat × Bool
  | size :: sizes, digit :: rest =>
    match advance sizes rest with
    | (rest, false) => (digit :: rest, false)
    | (rest, true) => if digit + 1 < size then ((digit + 1) :: rest, false) else (0 :: rest, true)
  | _, _ => ([], true)

/-- The first `n` lists of digits from one on. -/
def run (sizes : List Nat) : Nat → List Nat → List (List Nat)
  | 0, _ => []
  | n + 1, state => state :: run sizes n (advance sizes state).1

/-- The digits of a number. -/
def digits : List Nat → Nat → List Nat
  | [], _ => []
  | _ :: sizes, n => n / sizes.prod :: digits sizes (n % sizes.prod)

theorem digits_zero (sizes : List Nat) : digits sizes 0 = List.replicate sizes.length 0 := by
  induction sizes with
  | nil => rfl
  | cons size sizes ih =>
    rw [digits, Nat.zero_div, Nat.zero_mod, ih]
    rfl

/-- One step counts up by one. -/
theorem advance_digits {sizes : List Nat} {n : Nat} (h : n < sizes.prod) :
    advance sizes (digits sizes n) =
      if n + 1 < sizes.prod then (digits sizes (n + 1), false) else (digits sizes 0, true) := by
  induction sizes generalizing n with
  | nil =>
    rw [List.prod_nil] at h ⊢
    obtain rfl : n = 0 := by omega
    rfl
  | cons size sizes ih =>
    rw [List.prod_cons] at h ⊢
    have hpos : 0 < sizes.prod := by
      by_contra hzero
      rw [Nat.eq_zero_of_not_pos hzero] at h
      omega
    obtain ⟨q, r, hr, rfl⟩ : ∃ q r, r < sizes.prod ∧ n = sizes.prod * q + r :=
      ⟨n / sizes.prod, n % sizes.prod, Nat.mod_lt n hpos, (Nat.div_add_mod n sizes.prod).symm⟩
    have hread : ∀ q r, r < sizes.prod → digits (size :: sizes) (sizes.prod * q + r) = q :: digits sizes r := by
      intro q r hr
      rw [digits, Nat.mul_add_div hpos, Nat.mul_add_mod, Nat.div_eq_of_lt hr, Nat.mod_eq_of_lt hr,
        Nat.add_zero]
    have hzero : digits (size :: sizes) 0 = 0 :: digits sizes 0 := hread 0 0 hpos
    rw [hread q r hr, advance, ih hr, hzero]
    by_cases hlow : r + 1 < sizes.prod
    · -- no carry
      have hlt : sizes.prod * q + r + 1 < size * sizes.prod := by
        have hq : q < size := by
          by_contra hge
          have := Nat.mul_le_mul_left sizes.prod (Nat.not_lt.1 hge)
          rw [Nat.mul_comm sizes.prod size] at this
          omega
        have := Nat.mul_le_mul_left sizes.prod hq
        rw [Nat.mul_comm sizes.prod size, Nat.mul_succ] at this
        omega
      rw [if_pos hlow, if_pos hlt, Nat.add_assoc, hread q (r + 1) hlow]
    · have hnext : sizes.prod * q + r + 1 = sizes.prod * (q + 1) := by
        rw [Nat.mul_succ]
        omega
      rw [if_neg hlow, hnext, Nat.mul_comm size]
      simp only [Nat.mul_lt_mul_left hpos]
      split
      · rw [← hread (q + 1) 0 hpos, Nat.add_zero]
      · rfl

/-- Started at zeros, the counter passes through every list of digits. -/
theorem run_digits {sizes : List Nat} {n k : Nat} (h : n + k = sizes.prod) :
    run sizes k (digits sizes n) = (List.range' n k).map (digits sizes) := by
  induction k generalizing n with
  | zero => rfl
  | succ k ih =>
    rw [run, List.range'_succ, List.map_cons, advance_digits (by omega)]
    split
    · rw [ih (by omega)]
    · obtain rfl : k = 0 := by omega
      rfl

theorem exists_digits {sizes ds : List Nat} (h : List.Forall₂ (fun d size => d < size) ds sizes) :
    ∃ n < sizes.prod, digits sizes n = ds := by
  induction h with
  | nil => exact ⟨0, by simp, rfl⟩
  | @cons d size ds sizes hd _ ih =>
    obtain ⟨r, hr, hdigits⟩ := ih
    have hpos : 0 < sizes.prod := Nat.zero_lt_of_lt hr
    refine ⟨sizes.prod * d + r, ?_, ?_⟩
    · have := Nat.mul_le_mul_left sizes.prod hd
      rw [Nat.mul_succ] at this
      rw [List.prod_cons, Nat.mul_comm size]
      omega
    · rw [digits, Nat.mul_add_div hpos, Nat.mul_add_mod, Nat.div_eq_of_lt hr, Nat.mod_eq_of_lt hr,
        Nat.add_zero, hdigits]

theorem digits_lt {sizes : List Nat} {n : Nat} (h : n < sizes.prod) :
    List.Forall₂ (fun d size => d < size) (digits sizes n) sizes := by
  induction sizes generalizing n with
  | nil => exact .nil
  | cons size sizes ih =>
    rw [List.prod_cons] at h
    have hpos : 0 < sizes.prod := Nat.pos_of_mul_pos_left (Nat.zero_lt_of_lt h)
    exact .cons (Nat.div_lt_of_lt_mul (by rwa [Nat.mul_comm])) (ih (Nat.mod_lt n hpos))

theorem mem_run_iff {sizes ds : List Nat} :
    ds ∈ run sizes sizes.prod (List.replicate sizes.length 0) ↔
      List.Forall₂ (fun d size => d < size) ds sizes := by
  rw [← digits_zero, run_digits (Nat.zero_add _), List.mem_map]
  constructor
  · rintro ⟨n, hn, rfl⟩
    have hlt := (List.mem_range'_1.1 hn).2
    exact digits_lt (by omega)
  · intro h
    obtain ⟨n, hn, hdigits⟩ := exists_digits h
    exact ⟨n, List.mem_range'_1.2 ⟨Nat.zero_le n, by omega⟩, hdigits⟩

end Odometer
