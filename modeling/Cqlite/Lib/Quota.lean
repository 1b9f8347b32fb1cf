import Mathlib.Data.List.Basic
import Mathlib.Data.List.Count
import Mathlib.Logic.Function.Basic

/-! Keeping at most a number of items of each key.

    One count per key over the whole list, and one count for the current run of equal keys, keep the
    same items when no key comes back after its run has ended. -/

namespace Quota

variable {α κ : Type*} [DecidableEq κ] {key : α → κ} {cap : Nat}

/-- No key comes back after another one. -/
def Contiguous (ks : List κ) : Prop := ∀ a b, [a, b, a].Sublist ks → b = a

variable (key cap) in
/-- At most `cap` items of each key, counting from `seen`. -/
def quota : (κ → Nat) → List α → List α
  | _, [] => []
  | seen, x :: xs =>
    if seen (key x) < cap then x :: quota (Function.update seen (key x) (seen (key x) + 1)) xs
    else quota seen xs

variable (key cap) in
/-- At most `cap` items of each run, `n` of the current one having been kept. -/
def runQuota : Option κ → Nat → List α → List α
  | _, _, [] => []
  | current, n, x :: xs =>
    let n := if current = some (key x) then n else 0
    if cap ≤ n then runQuota (some (key x)) n xs
    else x :: runQuota (some (key x)) (n + 1) xs

variable {ks : List κ} {current : Option κ} {n : Nat} {seen : κ → Nat} {xs : List α}

omit [DecidableEq κ] in
theorem Contiguous.sublist {ks' : List κ} (h : Contiguous ks) (hsub : ks'.Sublist ks) :
    Contiguous ks' := fun a b hab => h a b (hab.trans hsub)

omit [DecidableEq κ] in
/-- Keys in the order of an antisymmetric relation are contiguous. -/
theorem contiguous_of_pairwise {R : κ → κ → Prop} (hanti : ∀ a b, R a b → R b a → b = a)
    (h : ks.Pairwise R) : Contiguous ks := by
  intro a b hab
  have hpair := h.sublist hab
  rw [List.pairwise_cons] at hpair
  exact hanti a b (hpair.1 b (by simp)) ((List.pairwise_cons.mp hpair.2).1 a (by simp))

/-! ### Runs and counts -/

/-- What a run's count says of every item to come: only the current key has been seen. -/
def Current (seen : κ → Nat) (current : Option κ) (n : Nat) (ks : List κ) : Prop :=
  ∀ k ∈ ks, seen k = if current = some k then n else 0

omit [DecidableEq κ] in
theorem Contiguous.tail {k : κ} (h : Contiguous (current.toList ++ k :: ks)) :
    Contiguous ((some k).toList ++ ks) :=
  h.sublist (List.sublist_append_right _ _)

theorem Current.other {k k' : κ} (h : Current seen current n (k :: ks))
    (hc : Contiguous (current.toList ++ k :: ks)) (hmem : k' ∈ ks) (hne : k ≠ k') :
    seen k' = 0 := by
  rw [h k' (List.mem_cons_of_mem _ hmem), if_neg]
  rintro rfl
  refine hne (hc k' k ?_)
  exact (List.singleton_sublist.mpr hmem).cons_cons k |>.cons_cons k'

/-- Counting runs is counting keys where keys are contiguous. -/
theorem runQuota_eq_quota_of_current (hcur : Current seen current n (xs.map key))
    (hc : Contiguous (current.toList ++ xs.map key)) :
    runQuota key cap current n xs = quota key cap seen xs := by
  induction xs generalizing seen current n with
  | nil => rfl
  | cons x xs ih =>
    have hseen : seen (key x) = if current = some (key x) then n else 0 := hcur _ List.mem_cons_self
    rw [runQuota, quota, ← hseen]
    by_cases hcap : seen (key x) < cap
    · rw [if_neg (by omega), if_pos hcap, ih _ hc.tail]
      intro k hk
      by_cases hkx : key x = k
      · simp [← hkx]
      · rw [Function.update_of_ne (Ne.symm hkx), hcur.other hc hk hkx, if_neg (by simpa using hkx)]
    · rw [if_pos (by omega), if_neg hcap, ih _ hc.tail]
      intro k hk
      by_cases hkx : key x = k
      · simp [← hkx]
      · rw [hcur.other hc hk hkx, if_neg (by simpa using hkx)]

theorem runQuota_eq_quota (h : Contiguous (xs.map key)) :
    runQuota key cap none 0 xs = quota key cap (fun _ => 0) xs :=
  runQuota_eq_quota_of_current (fun _ _ => by simp) h

/-! ### What is kept -/

theorem quota_sublist : (quota key cap seen xs).Sublist xs := by
  induction xs generalizing seen with
  | nil => exact .slnil
  | cons x xs ih =>
    rw [quota]
    split
    · exact ih.cons_cons x
    · exact ih.cons x

theorem quota_zero (seen : κ → Nat) (xs : List α) : quota key 0 seen xs = [] := by
  induction xs generalizing seen with
  | nil => rfl
  | cons x xs ih => rw [quota, if_neg (Nat.not_lt_zero _), ih]

theorem count_quota_le {seen : κ → Nat} {xs : List α} {k : κ} (h : seen k ≤ cap) :
    seen k + ((quota key cap seen xs).map key).count k ≤ cap := by
  induction xs generalizing seen with
  | nil => simpa [quota] using h
  | cons x xs ih =>
    rw [quota]
    split
    · rename_i hlt
      by_cases hk : key x = k
      · subst hk
        have := ih (show Function.update seen (key x) (seen (key x) + 1) (key x) ≤ cap by simpa using Nat.succ_le_of_lt hlt)
        rw [Function.update_self] at this
        rw [List.map_cons, List.count_cons_self]
        omega
      · have := ih (show Function.update seen (key x) (seen (key x) + 1) k ≤ cap by
          rwa [Function.update_of_ne (Ne.symm hk)])
        rw [Function.update_of_ne (Ne.symm hk)] at this
        rwa [List.map_cons, List.count_cons_of_ne hk]
    · exact ih h

theorem quota_eq_self (h : ∀ k, seen k + (xs.map key).count k ≤ cap) :
    quota key cap seen xs = xs := by
  induction xs generalizing seen with
  | nil => rfl
  | cons x xs ih =>
    have hx := h (key x)
    rw [List.map_cons, List.count_cons_self] at hx
    rw [quota, if_pos (by omega), ih]
    intro k
    by_cases hk : key x = k
    · subst hk
      rw [Function.update_self]
      omega
    · have := h k
      rw [List.map_cons, List.count_cons_of_ne hk] at this
      rwa [Function.update_of_ne (Ne.symm hk)]

theorem quota_eq_self_of_length (h : xs.length ≤ cap) : quota key cap (fun _ => 0) xs = xs := by
  refine quota_eq_self fun k => ?_
  have : (xs.map key).count k ≤ (xs.map key).length := List.count_le_length
  rw [List.length_map] at this
  omega

/-- One more use costs at most one place. -/
theorem length_quota_update (seen : κ → Nat) (k : κ) (xs : List α) :
    (quota key cap seen xs).length ≤
      (quota key cap (Function.update seen k (seen k + 1)) xs).length + 1 := by
  induction xs generalizing seen with
  | nil => simp [quota]
  | cons x xs ih =>
    rw [quota, quota]
    by_cases hk : key x = k
    · subst hk
      rw [Function.update_self]
      by_cases hmore : seen (key x) + 1 < cap
      · rw [if_pos (by omega), if_pos hmore, List.length_cons, List.length_cons]
        have := ih (Function.update seen (key x) (seen (key x) + 1))
        rw [Function.update_self] at this
        omega
      · rw [if_neg hmore]
        by_cases hlast : seen (key x) < cap
        · rw [if_pos hlast]
          exact Nat.le_of_eq List.length_cons
        · rw [if_neg hlast]
          exact ih seen
    · rw [Function.update_of_ne hk]
      by_cases hlt : seen (key x) < cap
      · rw [if_pos hlt, if_pos hlt, List.length_cons, List.length_cons]
        have := ih (Function.update seen (key x) (seen (key x) + 1))
        rw [Function.update_of_ne (Ne.symm hk), Function.update_comm hk] at this
        omega
      · rw [if_neg hlt, if_neg hlt]
        exact ih seen

theorem length_quota_mono {ys : List α} (h : ys.Sublist xs) (seen : κ → Nat) :
    (quota key cap seen ys).length ≤ (quota key cap seen xs).length := by
  induction h generalizing seen with
  | slnil => exact Nat.le_refl _
  | cons x _ ih =>
    rw [quota]
    split
    · refine Nat.le_trans (length_quota_update seen (key x) _) ?_
      exact Nat.succ_le_succ (ih _)
    · exact ih seen
  | cons_cons x _ ih =>
    rw [quota, quota]
    split
    · exact Nat.succ_le_succ (ih _)
    · exact ih seen

theorem exists_mem_quota {x : α} (hcap : 0 < cap) (hx : x ∈ xs) (hseen : seen (key x) = 0) :
    ∃ z ∈ quota key cap seen xs, key z = key x := by
  induction xs generalizing seen with
  | nil => cases hx
  | cons y ys ih =>
    rw [quota]
    by_cases hy : key y = key x
    · rw [if_pos (by rw [hy, hseen]; exact hcap)]
      exact ⟨y, List.mem_cons_self, hy⟩
    · have hx : x ∈ ys := by
        rcases List.mem_cons.mp hx with rfl | hx
        · exact absurd rfl hy
        · exact hx
      split
      · obtain ⟨z, hz, hkey⟩ := ih hx ((Function.update_of_ne (Ne.symm hy) _ seen).trans hseen)
        exact ⟨z, List.mem_cons_of_mem _ hz, hkey⟩
      · exact ih hx hseen

/-- A choice of `n + 1` items within the quota that has a given one among them. -/
theorem exists_kept {x : α} (hx : x ∈ xs) (hn : n < (quota key cap (fun _ => 0) xs).length) :
    ∃ ys : List α, x ∈ ys ∧ ys.length = n + 1 ∧ (∀ y ∈ ys, y ∈ xs) ∧
      (ys.map key).Sublist (xs.map key) ∧ quota key cap (fun _ => 0) ys = ys := by
  have hcap : 0 < cap := by
    by_contra h
    obtain rfl : cap = 0 := by omega
    simp [quota_zero] at hn
  obtain ⟨z, hz, hkey⟩ : ∃ z ∈ quota key cap (fun _ => 0) xs, key z = key x :=
    exists_mem_quota hcap hx rfl
  obtain ⟨l, r, hlr⟩ := List.append_of_mem hz
  have hsub : (quota key cap (fun _ => 0) xs).Sublist xs := quota_sublist
  have hlen : n ≤ l.length + r.length := by
    rw [hlr, List.length_append, List.length_cons] at hn
    omega
  have hpick : (l.take n ++ z :: r.take (n - l.length)).Sublist (quota key cap (fun _ => 0) xs) := by
    rw [hlr]
    exact (List.take_sublist _ _).append ((List.take_sublist _ _).cons_cons z)
  have hkeys : (l.take n ++ x :: r.take (n - l.length)).map key =
      (l.take n ++ z :: r.take (n - l.length)).map key := by
    simp [hkey]
  refine ⟨l.take n ++ x :: r.take (n - l.length), by simp, ?_, ?_, ?_, quota_eq_self fun k => ?_⟩
  · rw [List.length_append, List.length_cons, List.length_take, List.length_take]
    omega
  · intro y hy
    rcases List.mem_append.mp hy with hy | hy
    · exact (hpick.trans hsub).subset (List.mem_append_left _ hy)
    · rcases List.mem_cons.mp hy with rfl | hy
      · exact hx
      · exact (hpick.trans hsub).subset (List.mem_append_right _ (List.mem_cons_of_mem _ hy))
  · rw [hkeys]
    exact (hpick.trans hsub).map key
  · rw [hkeys]
    have hle := (hpick.map key).count_le k
    have hcount := @count_quota_le α κ _ key cap (fun _ => 0) xs k (Nat.zero_le cap)
    omega

end Quota
