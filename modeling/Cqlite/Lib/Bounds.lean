import Mathlib.Algebra.Order.Ring.Int
import Mathlib.Data.List.Basic
import Mathlib.Order.MinMax

/-! Least and greatest elements kept by a fold.

    A fold of `min` that starts above all elements ends at the least of them, and a later fold goes
    on from there as if it had seen them all. The order of the elements does not matter. -/

namespace Bounds

variable {α : Type*} [LinearOrder α] {xs : List α} {a top bot : α}

theorem foldl_min_apart (h : a ≤ top) : xs.foldl min a = min a (xs.foldl min top) := by
  have hassoc : xs.foldl min (min a top) = min a (xs.foldl min top) := List.foldl_assoc
  rwa [min_eq_left h] at hassoc

theorem foldl_min_perm {ys : List α} (h : xs.Perm ys) (a : α) : xs.foldl min a = ys.foldl min a :=
  h.foldl_eq' (fun x _ y _ z => by rw [min_right_comm]) a

theorem foldl_min_le : ∀ (xs : List α) (a : α), xs.foldl min a ≤ a ∧ ∀ x ∈ xs, xs.foldl min a ≤ x
  | [], a => ⟨le_refl a, by simp⟩
  | x :: xs, a => by
    obtain ⟨hle, hall⟩ := foldl_min_le xs (min a x)
    refine ⟨hle.trans (min_le_left a x), ?_⟩
    exact List.forall_mem_cons.mpr ⟨hle.trans (min_le_right a x), hall⟩

theorem foldl_min_mem_cons : ∀ (xs : List α) (a : α), xs.foldl min a ∈ a :: xs
  | [], a => by simp
  | x :: xs, a => by
    rcases min_choice a x with h | h
    · have := foldl_min_mem_cons xs a
      rw [List.foldl_cons, h]
      rcases List.mem_cons.mp this with heq | hmem
      · simp [heq]
      · simp [hmem]
    · have := foldl_min_mem_cons xs x
      rw [List.foldl_cons, h]
      exact List.mem_cons_of_mem a this

/-- What holds of the start and of every element holds of the least of them. -/
theorem foldl_min_of_forall {P : α → Prop} (ha : P a) (h : ∀ x ∈ xs, P x) : P (xs.foldl min a) :=
  List.forall_mem_cons.mpr ⟨ha, h⟩ _ (foldl_min_mem_cons xs a)

theorem foldl_min_eq_iff : xs.foldl min a = a ↔ ∀ x ∈ xs, a ≤ x := by
  obtain ⟨hle, hall⟩ := foldl_min_le xs a
  refine ⟨fun heq => heq ▸ hall, fun h => le_antisymm hle ?_⟩
  exact foldl_min_of_forall (P := (a ≤ ·)) le_rfl h

theorem foldl_min_mem (hne : xs ≠ []) (h : ∀ x ∈ xs, x ≤ top) : xs.foldl min top ∈ xs := by
  obtain ⟨x, xs, rfl⟩ := List.exists_cons_of_ne_nil hne
  rw [List.foldl_cons, min_eq_right (h x (by simp))]
  exact foldl_min_mem_cons xs x

/-! The greatest element is the least one of the dual order. -/

theorem foldl_max_apart (h : bot ≤ a) : xs.foldl max a = max a (xs.foldl max bot) :=
  @foldl_min_apart αᵒᵈ _ xs a bot h

theorem foldl_max_perm {ys : List α} (h : xs.Perm ys) (a : α) : xs.foldl max a = ys.foldl max a :=
  @foldl_min_perm αᵒᵈ _ xs ys h a

theorem le_foldl_max (xs : List α) (a : α) : a ≤ xs.foldl max a ∧ ∀ x ∈ xs, x ≤ xs.foldl max a :=
  @foldl_min_le αᵒᵈ _ xs a

theorem foldl_max_of_forall {P : α → Prop} (ha : P a) (h : ∀ x ∈ xs, P x) : P (xs.foldl max a) :=
  @foldl_min_of_forall αᵒᵈ _ xs a P ha h

theorem foldl_max_mem (hne : xs ≠ []) (h : ∀ x ∈ xs, bot ≤ x) : xs.foldl max bot ∈ xs :=
  @foldl_min_mem αᵒᵈ _ xs bot hne h

/-- The extremes of a list, with a fold from any start beyond them. -/
theorem exists_extremes (hne : xs ≠ []) (hbot : ∀ x ∈ xs, bot ≤ x) (htop : ∀ x ∈ xs, x ≤ top) :
    ∃ lo ∈ xs, ∃ hi ∈ xs, lo ≤ hi ∧ xs.foldl min top = lo ∧ xs.foldl max bot = hi ∧
      (∀ a ≤ top, xs.foldl min a = min a lo) ∧ ∀ a, bot ≤ a → xs.foldl max a = max a hi := by
  refine ⟨_, foldl_min_mem hne htop, _, foldl_max_mem hne hbot, ?_, rfl, rfl,
    fun _ => foldl_min_apart, fun _ => foldl_max_apart⟩
  obtain ⟨x, xs, rfl⟩ := List.exists_cons_of_ne_nil hne
  exact ((foldl_min_le (x :: xs) top).2 x (by simp)).trans
    ((le_foldl_max (x :: xs) bot).2 x (by simp))

end Bounds
