import Mathlib.Data.List.Basic

/-! Codes that keep an order.

    Lists over an ordered alphabet are compared position by position, a front before what extends it.
    A code keeps an order when two codes are decided where they first differ, or where the longer one
    goes on from a limit that nothing behind the shorter one reaches. Such codes can stand one behind
    the other. -/

namespace OrderCode

open Std

/-! ### First differences -/

variable {o : Ordering}

section Difference

variable {τ : Type}

/-- The lists agree up to a position that holds `x` and `y`. -/
def FirstDifference (xs ys : List τ) (x y : τ) : Prop :=
  x ≠ y ∧ ∃ front xs' ys', xs = front ++ x :: xs' ∧ ys = front ++ y :: ys'

variable {a b x y : τ} {c : τ → τ → Ordering}

theorem firstDifference_cons_ne (h : x ≠ y) {xs ys : List τ} :
    FirstDifference (x :: xs) (y :: ys) a b ↔ a = x ∧ b = y := by
  constructor
  · rintro ⟨-, front, xs', ys', hxs, hys⟩
    cases front with
    | nil =>
      cases hxs
      cases hys
      exact ⟨rfl, rfl⟩
    | cons c front =>
      cases hxs
      cases hys
      exact absurd rfl h
  · rintro ⟨rfl, rfl⟩
    exact ⟨h, [], xs, ys, rfl, rfl⟩

theorem firstDifference_cons_same {xs ys : List τ} :
    FirstDifference (x :: xs) (x :: ys) a b ↔ FirstDifference xs ys a b := by
  constructor
  · rintro ⟨hne, front, xs', ys', hxs, hys⟩
    cases front with
    | nil =>
      cases hxs
      cases hys
      exact absurd rfl hne
    | cons c front =>
      cases hxs
      cases hys
      exact ⟨hne, front, xs', ys', rfl, rfl⟩
  · rintro ⟨hne, front, xs', ys', rfl, rfl⟩
    exact ⟨hne, x :: front, xs', ys', rfl, rfl⟩

theorem not_firstDifference_nil_left {ys : List τ} : ¬ FirstDifference [] ys a b := by
  rintro ⟨-, front, xs', -, h, -⟩
  cases front <;> cases h

theorem not_firstDifference_nil_right {xs : List τ} : ¬ FirstDifference xs [] a b := by
  rintro ⟨-, front, -, ys', -, h⟩
  cases front <;> cases h

/-- The comparison is equal on equal elements of one position only. -/
def EqualAt (c : τ → τ → Ordering) (xs ys : List τ) : Prop :=
  ∀ (i : Nat) x y, xs[i]? = some x → ys[i]? = some y → (c x y = .eq ↔ x = y)

theorem EqualAt.head {xs ys : List τ} (h : EqualAt c (x :: xs) (y :: ys)) : c x y = .eq ↔ x = y := h 0 x y rfl rfl

theorem EqualAt.tail {xs ys : List τ} (h : EqualAt c (x :: xs) (y :: ys)) : EqualAt c xs ys := fun i => h (i + 1)

theorem then_eq_left (h : o ≠ .eq) (rest : Ordering) : o.then rest = o := by
  cases o with
  | eq => exact absurd rfl h
  | lt => rfl
  | gt => rfl

theorem compareLex_eq_eq {xs ys : List τ} (hc : EqualAt c xs ys) :
    List.compareLex c xs ys = .eq ↔ xs = ys := by
  induction xs generalizing ys with
  | nil =>
    cases ys with
    | nil => exact iff_of_true rfl rfl
    | cons y ys => exact ⟨fun h => (nomatch h), fun h => (nomatch h)⟩
  | cons x xs ih =>
    cases ys with
    | nil => exact ⟨fun h => (nomatch h), fun h => (nomatch h)⟩
    | cons y ys =>
      rw [List.compareLex_cons_cons, Ordering.then_eq_eq, hc.head, ih hc.tail, List.cons.injEq]

/-- Two comparisons that agree on what is equal agree on lists when they do at the first difference. -/
theorem compareLex_eq_iff {d : τ → τ → Ordering} {xs ys : List τ} (hc : EqualAt c xs ys)
    (hd : EqualAt d xs ys) :
    List.compareLex c xs ys = List.compareLex d xs ys ↔
      ∀ x y, FirstDifference xs ys x y → c x y = d x y := by
  induction xs generalizing ys with
  | nil =>
    refine iff_of_true ?_ fun x y h => absurd h not_firstDifference_nil_left
    cases ys <;> rfl
  | cons x xs ih =>
    cases ys with
    | nil => exact iff_of_true rfl fun x y h => absurd h not_firstDifference_nil_right
    | cons y ys =>
      rw [List.compareLex_cons_cons, List.compareLex_cons_cons]
      by_cases h : x = y
      · rw [hc.head.2 h, hd.head.2 h, Ordering.eq_then, Ordering.eq_then, ih hc.tail hd.tail]
        subst h
        exact forall_congr' fun a => forall_congr' fun b => by rw [firstDifference_cons_same]
      · rw [then_eq_left (fun heq => h (hc.head.1 heq)), then_eq_left (fun heq => h (hd.head.1 heq))]
        constructor
        · intro heq a b hdiff
          obtain ⟨rfl, rfl⟩ := (firstDifference_cons_ne h).1 hdiff
          exact heq
        · exact fun hall => hall x y ((firstDifference_cons_ne h).2 ⟨rfl, rfl⟩)

end Difference

/-! ### Lists that a position decides -/

section Before

variable {α : Type} [Ord α]

/-- `xs` comes before `ys` at the first difference, or `ys` goes on from `limit` where `xs` ends. -/
inductive Before (limit : α) : List α → List α → Prop
  | extend {y : α} (h : compare limit y ≠ .gt) (ys : List α) : Before limit [] (y :: ys)
  | differ {x y : α} (h : compare x y = .lt) (xs ys : List α) : Before limit (x :: xs) (y :: ys)
  | cons (x : α) {xs ys : List α} (h : Before limit xs ys) : Before limit (x :: xs) (x :: ys)

/-- The list is empty or starts below the limit. -/
def StartsBelow (limit : α) (s : List α) : Prop := ∀ x ∈ s.head?, compare x limit = .lt

theorem startsBelow_nil (limit : α) : StartsBelow limit [] := fun _ hx => (nomatch hx)

theorem startsBelow_cons {limit x : α} (h : compare x limit = .lt) (s : List α) :
    StartsBelow limit (x :: s) := fun y hy => by cases hy; exact h

variable {limit : α} {xs ys : List α}

theorem Before.front (front : List α) (h : Before limit xs ys) :
    Before limit (front ++ xs) (front ++ ys) := by
  induction front with
  | nil => exact h
  | cons x front ih => exact .cons x ih

theorem before_of_length_eq (limit : α) [LawfulEqOrd α] (hlen : xs.length = ys.length)
    (h : compare xs ys = .lt) : Before limit xs ys := by
  induction xs generalizing ys with
  | nil =>
    obtain rfl := List.length_eq_zero_iff.1 hlen.symm
    cases h
  | cons x xs ih =>
    obtain ⟨y, ys, rfl⟩ := List.exists_cons_of_length_eq_add_one hlen.symm
    rw [List.compare_cons_cons] at h
    cases hxy : compare x y with
    | lt => exact .differ hxy xs ys
    | eq =>
      obtain rfl := LawfulEqOrd.eq_of_compare hxy
      rw [hxy] at h
      exact .cons x (ih (by simpa using hlen) h)
    | gt =>
      rw [hxy] at h
      cases h

variable [TransOrd α]

theorem compare_append_left (front : List α) (xs ys : List α) :
    compare (front ++ xs) (front ++ ys) = compare xs ys := by
  induction front with
  | nil => rfl
  | cons x front ih =>
    rw [List.cons_append, List.cons_append, List.compare_cons_cons, ReflOrd.compare_self, ih]
    rfl

/-- What stands behind does not matter while it stays below the limit. -/
theorem Before.compare_append (h : Before limit xs ys) {s : List α} (hs : StartsBelow limit s)
    (t : List α) : compare (xs ++ s) (ys ++ t) = .lt := by
  induction h with
  | extend hy ys =>
    cases s with
    | nil => rfl
    | cons x s =>
      have hlt : compare x _ = .lt := TransCmp.lt_of_lt_of_isLE (hs x rfl) (Ordering.isLE_iff_ne_gt.2 hy)
      rw [List.nil_append, List.cons_append, List.compare_cons_cons, hlt]
      rfl
  | differ hlt xs ys =>
    rw [List.cons_append, List.cons_append, List.compare_cons_cons, hlt]
    rfl
  | cons x _ ih =>
    rw [List.cons_append, List.cons_append, List.compare_cons_cons, ReflOrd.compare_self, ih]
    rfl

/-- How two codes are ordered, whatever stands behind them. -/
def Decides (limit : α) : Ordering → List α → List α → Prop
  | .lt, xs, ys => Before limit xs ys
  | .eq, xs, ys => xs = ys
  | .gt, xs, ys => Before limit ys xs

theorem Decides.compare_append (h : Decides limit o xs ys) {s t : List α} (hs : StartsBelow limit s)
    (ht : StartsBelow limit t) : compare (xs ++ s) (ys ++ t) = o.then (compare s t) := by
  cases o with
  | lt => exact Before.compare_append h hs t
  | eq =>
    obtain rfl : xs = ys := h
    exact compare_append_left xs s t
  | gt => exact OrientedOrd.eq_swap.trans (by rw [Before.compare_append h ht s]; rfl)

theorem Decides.compare_eq (h : Decides limit o xs ys) : compare xs ys = o := by
  have := h.compare_append (startsBelow_nil limit) (startsBelow_nil limit)
  rw [List.append_nil, List.append_nil] at this
  rw [this]
  cases o <;> rfl

theorem decides_of_length_eq (limit : α) [LawfulEqOrd α] (hlen : xs.length = ys.length) :
    Decides limit (compare xs ys) xs ys := by
  cases h : compare xs ys with
  | lt => exact before_of_length_eq limit hlen h
  | eq => exact LawfulEqOrd.eq_of_compare h
  | gt =>
    refine before_of_length_eq limit hlen.symm ?_
    rw [OrientedOrd.eq_swap (a := ys), h]
    rfl

omit [TransOrd α] in
theorem Decides.front (front : List α) (h : Decides limit o xs ys) :
    Decides limit o (front ++ xs) (front ++ ys) := by
  cases o with
  | lt => exact Before.front front h
  | eq => exact congrArg _ h
  | gt => exact Before.front front h

end Before

/-! ### Letters the other way round -/

section Complement

variable {α : Type} [Ord α] [TransOrd α] {limit : α} {xs ys : List α} {f : α → α}

/-- Turned round, the longer one goes on below what stands behind the shorter one. -/
theorem Before.compare_map_append (hf : ∀ x y, compare (f x) (f y) = compare y x)
    (h : Before limit xs ys) {x : α} (hx : compare (f limit) x = .lt) (s t : List α) :
    compare (ys.map f ++ t) (xs.map f ++ x :: s) = .lt := by
  induction h with
  | extend hy ys =>
    rename_i y
    have hle : (compare (f y) (f limit)).isLE := by
      rw [hf]
      exact Ordering.isLE_iff_ne_gt.2 hy
    rw [List.map_nil, List.nil_append, List.map_cons, List.cons_append, List.compare_cons_cons,
      TransCmp.lt_of_isLE_of_lt hle hx]
    rfl
  | differ hlt xs ys =>
    rw [List.map_cons, List.map_cons, List.cons_append, List.cons_append, List.compare_cons_cons, hf,
      hlt]
    rfl
  | cons z _ ih =>
    rw [List.map_cons, List.map_cons, List.cons_append, List.cons_append, List.compare_cons_cons,
      ReflOrd.compare_self, ih]
    rfl

theorem Decides.compare_map_append (hf : ∀ x y, compare (f x) (f y) = compare y x)
    (h : Decides limit o xs ys) {x : α} (hx : compare (f limit) x = .lt) (s t : List α) :
    compare (xs.map f ++ x :: s) (ys.map f ++ x :: t) = o.swap.then (compare s t) := by
  cases o with
  | lt =>
    refine OrientedOrd.eq_swap.trans ?_
    rw [Before.compare_map_append hf h hx s (x :: t)]
    rfl
  | eq =>
    obtain rfl : xs = ys := h
    rw [compare_append_left, List.compare_cons_cons, ReflOrd.compare_self]
    rfl
  | gt => exact Before.compare_map_append hf h hx t (x :: s)

/-- With nothing behind, a code that the other one extends comes first both ways. -/
theorem Before.compare_map (hf : ∀ x y, compare (f x) (f y) = compare y x)
    (h : Before limit xs ys) :
    (xs <+: ys → compare (xs.map f) (ys.map f) = .lt) ∧
      (¬ xs <+: ys → compare (xs.map f) (ys.map f) = .gt) := by
  induction h with
  | extend hy ys => exact ⟨fun _ => rfl, fun hno => absurd List.nil_prefix hno⟩
  | differ hlt xs ys =>
    rename_i x y
    have hne : x ≠ y := by
      rintro rfl
      rw [ReflOrd.compare_self] at hlt
      cases hlt
    refine ⟨fun hpre => absurd (List.cons_prefix_cons.1 hpre).1 hne, fun _ => ?_⟩
    rw [List.map_cons, List.map_cons, List.compare_cons_cons, hf, OrientedOrd.eq_swap, hlt]
    rfl
  | cons z _ ih =>
    have hcons : ∀ as bs : List α, compare ((z :: as).map f) ((z :: bs).map f) =
        compare (as.map f) (bs.map f) := by
      intro as bs
      rw [List.map_cons, List.map_cons, List.compare_cons_cons, ReflOrd.compare_self]
      rfl
    rw [hcons, List.cons_prefix_cons]
    exact ⟨fun hpre => ih.1 hpre.2, fun hno => ih.2 fun hpre => hno ⟨rfl, hpre⟩⟩

end Complement

end OrderCode
