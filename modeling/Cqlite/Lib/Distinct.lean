import Cqlite.Lib.Quota

/-! Dropping the items whose value has come before, and windows of what is left.

    `firsts` keeps the items with a new value, `marked` keeps all and says which these are. A quota over
    the first items keeps what a quota over all items keeps as long as this has no repeated value; at
    the first repeated value it goes on with another one. -/

namespace Distinct

variable {α β κ : Type*} [DecidableEq β] [DecidableEq κ] (f : α → β)

/-- The items whose value neither was seen nor comes before. -/
def firsts : List β → List α → List α
  | _, [] => []
  | seen, x :: xs => if f x ∈ seen then firsts seen xs else x :: firsts (f x :: seen) xs

/-- Each item with whether its value is new. -/
def marked : List β → List α → List (α × Bool)
  | _, [] => []
  | seen, x :: xs => (x, decide (f x ∉ seen)) :: marked (f x :: seen) xs

/-- At most so many items, or all. -/
def upTo (n : Option Nat) (xs : List α) : List α :=
  match n with
  | none => xs
  | some n => xs.take n

/-- At most so many items of each key, or all. -/
def partly (key : α → κ) (cap : Option Nat) (xs : List α) : List α :=
  match cap with
  | none => xs
  | some cap => Quota.quota key cap (fun _ => 0) xs

variable {f} {key : α → κ} {cap : Nat}

theorem firsts_sublist (seen : List β) (xs : List α) : (firsts f seen xs).Sublist xs := by
  induction xs generalizing seen with
  | nil => exact .slnil
  | cons x xs ih =>
    rw [firsts]
    split
    · exact (ih seen).cons x
    · exact (ih _).cons_cons x

variable {seen : List β} {xs : List α} {m o : Nat} {γ : Type*} {n : Option Nat}

theorem notMem_of_mem_firsts {x : α} (h : x ∈ firsts f seen xs) : f x ∉ seen := by
  induction xs generalizing seen with
  | nil => cases h
  | cons y ys ih =>
    rw [firsts] at h
    split at h
    · exact ih h
    · rename_i hy
      rcases List.mem_cons.1 h with rfl | h
      · exact hy
      · exact fun hx => ih h (List.mem_cons_of_mem _ hx)

theorem firsts_of_mem {b : β} (hb : b ∈ seen) (xs : List α) :
    firsts f (b :: seen) xs = firsts f seen xs := by
  have hsame : ∀ seen seen' : List β, (∀ c, c ∈ seen ↔ c ∈ seen') →
      firsts f seen xs = firsts f seen' xs := by
    induction xs with
    | nil => intros; rfl
    | cons x xs ih =>
      intro seen seen' h
      rw [firsts, firsts]
      by_cases hx : f x ∈ seen
      · rw [if_pos hx, if_pos ((h _).1 hx), ih seen seen' h]
      · rw [if_neg hx, if_neg fun hx' => hx ((h _).2 hx'), ih _ (f x :: seen')]
        intro c
        rw [List.mem_cons, List.mem_cons, h]
  refine hsame _ _ fun c => ?_
  rw [List.mem_cons, or_iff_right_of_imp]
  rintro rfl
  exact hb

@[simp]
theorem length_marked (seen : List β) (xs : List α) : (marked f seen xs).length = xs.length := by
  induction xs generalizing seen with
  | nil => rfl
  | cons x xs ih => rw [marked, List.length_cons, List.length_cons, ih]

/-! ### Quotas -/

variable (key cap) in
/-- The first `m` items within the quota, among those with a mark. -/
def admitted (counts : κ → Nat) (m : Nat) (seen : List β) (xs : List α) (f : α → β) : List (α × Bool) :=
  (Quota.quota (fun y : α × Bool => key y.1) cap counts (marked f seen xs)).take m

/-- The quota of the first items is the quota of all where this has new values only. -/
theorem take_quota_firsts {counts : κ → Nat}
    (h : ∀ y ∈ admitted key cap counts m seen xs f, y.2 = true) :
    (Quota.quota key cap counts (firsts f seen xs)).take m =
      (Quota.quota key cap counts xs).take m := by
  induction xs generalizing counts m seen with
  | nil => rfl
  | cons x xs ih =>
    cases m with
    | zero => rfl
    | succ m =>
      rw [admitted, marked, Quota.quota] at h
      rw [firsts]
      by_cases hx : counts (key x) < cap
      · rw [if_pos hx, List.take_succ_cons] at h
        obtain ⟨hnew, h⟩ := List.forall_mem_cons.1 h
        rw [if_neg (of_decide_eq_true hnew), Quota.quota, Quota.quota, if_pos hx, if_pos hx,
          List.take_succ_cons, List.take_succ_cons, ih h]
      · rw [if_neg hx] at h
        have hrest := ih h
        rw [@Quota.quota.eq_2 _ _ _ key cap counts x xs, if_neg hx, ← hrest]
        split
        · rename_i hseen
          rw [firsts_of_mem hseen]
        · rw [Quota.quota, if_neg hx]

theorem new_of_take_quota {counts : κ → Nat}
    (h : ((Quota.quota key cap counts (firsts f seen xs)).take m).map f =
      ((Quota.quota key cap counts xs).take m).map f) :
    ∀ y ∈ admitted key cap counts m seen xs f, y.2 = true := by
  induction xs generalizing counts m seen with
  | nil => simp [admitted, marked, Quota.quota]
  | cons x xs ih =>
    cases m with
    | zero => simp [admitted]
    | succ m =>
      rw [firsts, @Quota.quota.eq_2 _ _ _ key cap counts x xs] at h
      rw [admitted, marked, Quota.quota]
      by_cases hx : counts (key x) < cap
      · rw [if_pos hx, List.take_succ_cons, List.map_cons] at h
        rw [if_pos hx, List.take_succ_cons, List.forall_mem_cons]
        by_cases hseen : f x ∈ seen
        · -- the next first item has another value
          rw [if_pos hseen] at h
          have hmem : f x ∈ ((Quota.quota key cap counts (firsts f seen xs)).take (m + 1)).map f := by
            rw [h]
            exact List.mem_cons_self
          obtain ⟨y, hy, hyx⟩ := List.mem_map.1 hmem
          have hfirst := Quota.quota_sublist.subset (List.mem_of_mem_take hy)
          exact absurd hseen (hyx ▸ notMem_of_mem_firsts hfirst)
        · rw [if_neg hseen, Quota.quota, if_pos hx, List.take_succ_cons, List.map_cons] at h
          exact ⟨decide_eq_true hseen, ih (List.cons.inj h).2⟩
      · rw [if_neg hx] at h
        rw [if_neg hx]
        refine ih ?_
        by_cases hseen : f x ∈ seen
        · rwa [if_pos hseen, ← firsts_of_mem hseen] at h
        · rwa [if_neg hseen, Quota.quota, if_neg hx] at h

theorem quota_map (g : γ → α) (counts : κ → Nat) (xs : List γ) :
    Quota.quota key cap counts (xs.map g) =
      (Quota.quota (fun x => key (g x)) cap counts xs).map g := by
  induction xs generalizing counts with
  | nil => rfl
  | cons x xs ih =>
    rw [List.map_cons, Quota.quota, Quota.quota]
    split
    · rw [ih, List.map_cons]
    · exact ih counts

theorem partly_map (g : γ → α) (cap : Option Nat) (xs : List γ) :
    partly key cap (xs.map g) = (partly (fun x => key (g x)) cap xs).map g := by
  cases cap with
  | none => rfl
  | some cap => exact quota_map g _ xs

theorem partly_congr {key' : α → κ} (h : ∀ x ∈ xs, key x = key' x) (cap : Option Nat) :
    partly key cap xs = partly key' cap xs := by
  cases cap with
  | none => rfl
  | some cap =>
    have hquota : ∀ counts, Quota.quota key cap counts xs = Quota.quota key' cap counts xs := by
      induction xs with
      | nil => exact fun _ => rfl
      | cons x xs ih =>
        obtain ⟨hx, h⟩ := List.forall_mem_cons.1 h
        intro counts
        rw [Quota.quota, Quota.quota, hx, ih h, ih h]
    exact hquota _

theorem partly_eq_nil {cap : Option Nat} (h : partly key cap xs = []) : xs = [] ∨ cap = some 0 := by
  cases cap with
  | none => exact .inl h
  | some cap =>
    obtain _ | ⟨x, xs⟩ := xs
    · exact .inl rfl
    · rcases Nat.eq_zero_or_pos cap with rfl | hpos
      · exact .inr rfl
      · change Quota.quota key cap (fun _ => 0) (x :: xs) = [] at h
        rw [Quota.quota, if_pos hpos] at h
        cases h

theorem partly_sublist (cap : Option Nat) (xs : List α) : (partly key cap xs).Sublist xs := by
  cases cap with
  | none => exact List.Sublist.refl _
  | some cap => exact Quota.quota_sublist

theorem length_partly_mono {cap : Option Nat} {ys : List α} (h : ys.Sublist xs) :
    (partly key cap ys).length ≤ (partly key cap xs).length := by
  cases cap with
  | none => exact h.length_le
  | some cap => exact Quota.length_quota_mono h _

/-! ### Windows -/

/-- Once behind, the first items stay behind: what stands later in them than an item has another
    value. -/
theorem ne_of_behind {i j : Nat} {x z : α} (hij : i < j) (hx : xs[i]? = some x)
    (hz : (firsts f seen xs)[j]? = some z) : f z ≠ f x := by
  induction xs generalizing seen i j with
  | nil => cases hx
  | cons y ys ih =>
    obtain ⟨j, rfl⟩ : ∃ k, j = k + 1 := ⟨j - 1, by omega⟩
    rw [firsts] at hz
    cases i with
    | zero =>
      obtain rfl := Option.some.inj hx
      split at hz
      · rename_i hseen
        exact fun heq => notMem_of_mem_firsts (List.mem_of_getElem? hz) (heq ▸ hseen)
      · rw [List.getElem?_cons_succ] at hz
        exact fun heq => notMem_of_mem_firsts (List.mem_of_getElem? hz) (heq ▸ List.mem_cons_self)
    | succ i =>
      rw [List.getElem?_cons_succ] at hx
      split at hz
      · exact ih (by omega) hx hz
      · rw [List.getElem?_cons_succ] at hz
        exact ih (by omega) hx hz

theorem admitted_all (m : Nat) (seen : List β) (xs : List α) :
    admitted (fun _ : α => ()) xs.length (fun _ => 0) m seen xs f = (marked f seen xs).take m :=
  congrArg (List.take m) (Quota.quota_eq_self_of_length (Nat.le_of_eq (length_marked seen xs)))

theorem take_firsts (h : ∀ y ∈ (marked f seen xs).take m, y.2 = true) :
    (firsts f seen xs).take m = xs.take m := by
  rw [← admitted_all] at h
  have hquota := take_quota_firsts h
  rwa [Quota.quota_eq_self_of_length (firsts_sublist seen xs).length_le,
    Quota.quota_eq_self_of_length (Nat.le_refl _)] at hquota

theorem new_of_take (h : ((firsts f seen xs).take m).map f = (xs.take m).map f) :
    ∀ y ∈ (marked f seen xs).take m, y.2 = true := by
  rw [← admitted_all]
  refine new_of_take_quota ?_
  rw [Quota.quota_eq_self_of_length (firsts_sublist seen xs).length_le,
    Quota.quota_eq_self_of_length (Nat.le_refl _), h]

theorem upTo_eq_take {ys : List γ} (h : ys.length ≤ m) : upTo n ys = ys.take (n.getD m) := by
  cases n with
  | some n => rfl
  | none => exact (List.take_of_length_le h).symm

/-- Nothing is cut from a list that has no more items than there were to choose from. -/
theorem length_partly_le {key : γ → κ} {cap : Option Nat} {ys : List γ} (h : ys.length ≤ m) :
    (partly key cap ys).length ≤ m := by
  cases cap with
  | none => exact h
  | some cap => exact Nat.le_trans Quota.quota_sublist.length_le h

/-- The kept items of the new ones are those of all, as far as these are new. -/
theorem upTo_partly_firsts {cap : Option Nat}
    (h : ∀ y ∈ upTo n (partly (fun y => key y.1) cap (marked f seen xs)), y.2 = true) :
    upTo n (partly key cap (firsts f seen xs)) = upTo n (partly key cap xs) := by
  rw [upTo_eq_take (length_partly_le (Nat.le_of_eq (length_marked seen xs)))] at h
  rw [upTo_eq_take (length_partly_le (firsts_sublist seen xs).length_le),
    upTo_eq_take (length_partly_le (Nat.le_refl xs.length))]
  cases cap with
  | none => exact take_firsts h
  | some cap => exact take_quota_firsts h

theorem new_of_upTo_partly {cap : Option Nat}
    (h : (upTo n (partly key cap (firsts f seen xs))).map f = (upTo n (partly key cap xs)).map f) :
    ∀ y ∈ upTo n (partly (fun y => key y.1) cap (marked f seen xs)), y.2 = true := by
  rw [upTo_eq_take (length_partly_le (firsts_sublist seen xs).length_le),
    upTo_eq_take (length_partly_le (Nat.le_refl xs.length))] at h
  rw [upTo_eq_take (length_partly_le (Nat.le_of_eq (length_marked seen xs)))]
  cases cap with
  | none => exact new_of_take h
  | some cap => exact new_of_take_quota h

theorem window_congr {ys : List α} (h : upTo (n.map (o + ·)) xs = upTo (n.map (o + ·)) ys) :
    upTo n (xs.drop o) = upTo n (ys.drop o) := by
  cases n with
  | none => exact congrArg (List.drop o) h
  | some n =>
    have hdrop := congrArg (List.drop o) h
    simp only [Option.map_some, upTo, List.drop_take, Nat.add_sub_cancel_left] at hdrop
    exact hdrop

/-- A window that shows something shows the same only of new values. -/
theorem new_of_window {n : Nat} (hn : 0 < n) (ho : o < xs.length)
    (h : (((firsts f seen xs).drop o).take n).map f = ((xs.drop o).take n).map f) :
    ∀ y ∈ (marked f seen xs).take (o + n), y.2 = true := by
  induction o generalizing seen xs with
  | zero =>
    rw [Nat.zero_add]
    exact new_of_take h
  | succ o ih =>
    obtain _ | ⟨x, xs⟩ := xs
    · cases ho
    rw [List.length_cons, Nat.succ_lt_succ_iff] at ho
    rw [firsts, List.drop_succ_cons] at h
    split at h
    · -- the window of the first items starts behind
      obtain ⟨a, ha⟩ : ∃ a, xs[o]? = some a := ⟨_, List.getElem?_eq_getElem ho⟩
      obtain ⟨n, rfl⟩ : ∃ k, n = k + 1 := ⟨n - 1, by omega⟩
      have hhead := congrArg List.head? h
      rw [List.head?_map, List.head?_map, List.head?_take, List.head?_take, List.head?_drop,
        List.head?_drop, ha] at hhead
      obtain ⟨z, hz, hza⟩ := Option.map_eq_some_iff.1 hhead
      exact absurd hza (ne_of_behind (Nat.lt_succ_self o) ha hz)
    · rename_i hseen
      rw [List.drop_succ_cons] at h
      rw [marked, Nat.succ_add, List.take_succ_cons, List.forall_mem_cons]
      exact ⟨decide_eq_true hseen, ih ho h⟩

/-! ### One key -/

theorem quota_of_const {counts : κ → Nat} {k : κ} {xs : List α} (h : ∀ x ∈ xs, key x = k) :
    Quota.quota key cap counts xs = xs.take (cap - counts k) := by
  induction xs generalizing counts with
  | nil => simp [Quota.quota]
  | cons x xs ih =>
    obtain ⟨rfl, h⟩ := List.forall_mem_cons.1 h
    rw [Quota.quota]
    split
    · rename_i hlt
      obtain ⟨d, hd⟩ : ∃ d, cap - counts (key x) = d + 1 := ⟨cap - counts (key x) - 1, by omega⟩
      rw [ih h, Function.update_self, hd, List.take_succ_cons]
      congr 2
      omega
    · rename_i hge
      have hzero : cap - counts (key x) = 0 := by omega
      rw [ih h, hzero, List.take_zero, List.take_zero]

theorem take_quota {counts : κ → Nat} {c : Nat} (hcounts : ∀ k, counts k ≤ c) (xs : List α) :
    (Quota.quota key cap counts xs).take (cap - c) = xs.take (cap - c) := by
  induction xs generalizing counts c with
  | nil => rfl
  | cons x xs ih =>
    by_cases hc : c < cap
    · obtain ⟨d, hd⟩ : ∃ d, cap - c = d + 1 := ⟨cap - c - 1, by omega⟩
      have hx := hcounts (key x)
      rw [Quota.quota, if_pos (by omega), hd, List.take_succ_cons, List.take_succ_cons]
      have hrest := @ih (Function.update counts (key x) (counts (key x) + 1)) (c + 1) (by
        intro k
        by_cases hk : k = key x
        · rw [hk, Function.update_self]
          omega
        · rw [Function.update_of_ne hk]
          exact Nat.le_succ_of_le (hcounts k))
      have hd' : cap - (c + 1) = d := by omega
      rw [hd'] at hrest
      rw [hrest]
    · have hzero : cap - c = 0 := by omega
      rw [hzero, List.take_zero, List.take_zero]

/-- A window over a prefix shows as many as the window over the list where it ends in the prefix, or
    shows nothing. -/
theorem length_window_take {n p : Nat}
    (h : (((xs.take p).drop o).take n).length = ((xs.drop o).take n).length) :
    xs.length ≤ p ∨ n = 0 ∨ o + n ≤ p ∨ xs.length ≤ o := by
  simp only [List.length_take, List.length_drop] at h
  omega

theorem window_take_iff {n p : Nat} (xs : List α) :
    ((xs.take p).drop o).take n = (xs.drop o).take n ↔
      xs.length ≤ p ∨ n = 0 ∨ o + n ≤ p ∨ xs.length ≤ o := by
  refine ⟨fun h => length_window_take (congrArg List.length h), ?_⟩
  rw [List.drop_take, List.take_take]
  rintro (h | rfl | h | h)
  · rw [List.take_eq_take_iff, List.length_drop]
    omega
  · rw [Nat.zero_min]
  · rw [Nat.min_eq_left (by omega)]
  · rw [List.drop_eq_nil_of_le h, List.take_nil, List.take_nil]

end Distinct
