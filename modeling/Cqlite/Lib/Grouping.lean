import Mathlib.Data.List.Induction
import Cqlite.Lib.Rank

/-! Grouping by an ordered map of vectors (`BTreeMap::entry(key).or_default().push(x)`).

    The map is its sorted association list. Over keys that the comparison orders, the groups are the
    filters of the input by key equality, each under the key of its first element. -/

namespace Grouping

open Rank

variable {α κ : Type*} (cmp : κ → κ → Ordering) (key : α → κ)

/-- Append to the group of the element's key, creating it in key order. -/
def push : List (κ × List α) → α → List (κ × List α)
  | [], x => [(key x, [x])]
  | (k, xs) :: groups, x =>
    match cmp (key x) k with
    | .lt => (key x, [x]) :: (k, xs) :: groups
    | .eq => (k, xs ++ [x]) :: groups
    | .gt => (k, xs) :: push groups x

def groups (xs : List α) : List (κ × List α) := xs.foldl (push cmp key) []

/-- A group: the elements with its key, in input order, under the key of the first. -/
structure IsGroup (xs : List α) (g : κ × List α) : Prop where
  elements : g.2 = xs.filter fun x => cmp (key x) g.1 == .eq
  first : g.2.head?.map key = some g.1

variable {cmp key} {l : List κ}

variable {g : κ × List α} {gs : List (κ × List α)} {x : α} {xs : List α} {same : κ → κ → Bool}

theorem push_keys (h : g ∈ push cmp key gs x) : g.1 = key x ∨ ∃ g' ∈ gs, g.1 = g'.1 := by
  induction gs with
  | nil => rw [push, List.mem_singleton] at h; exact .inl (by rw [h])
  | cons a gs ih =>
    obtain ⟨k, ys⟩ := a
    rw [push] at h
    split at h
    · rcases List.mem_cons.mp h with rfl | h
      · exact .inl rfl
      · exact .inr ⟨g, h, rfl⟩
    · rcases List.mem_cons.mp h with rfl | h
      · exact .inr ⟨(k, ys), by simp, rfl⟩
      · exact .inr ⟨g, by simp [h], rfl⟩
    · rcases List.mem_cons.mp h with rfl | h
      · exact .inr ⟨(k, ys), by simp, rfl⟩
      · rcases ih h with h | ⟨g', hg', h⟩
        · exact .inl h
        · exact .inr ⟨g', by simp [hg'], h⟩

/-- The association list of an ordered map: strictly increasing keys, all of them occurring. -/
structure Sorted (cmp : κ → κ → Ordering) (l : List κ) (gs : List (κ × List α)) : Prop where
  keys : ∀ g ∈ gs, g.1 ∈ l
  increasing : gs.Pairwise fun g h => cmp g.1 h.1 = .lt

theorem Sorted.tail (h : Sorted cmp l (g :: gs)) : Sorted cmp l gs :=
  ⟨fun g hg => h.keys g (by simp [hg]), (List.pairwise_cons.mp h.increasing).2⟩

theorem Sorted.push (ht : TotalOn cmp l) (h : Sorted cmp l gs) (hx : key x ∈ l) :
    Sorted cmp l (push cmp key gs x) := by
  refine ⟨fun g hg => ?_, ?_⟩
  · rcases push_keys hg with he | ⟨g', hg', he⟩
    · rwa [he]
    · rw [he]; exact h.keys g' hg'
  · induction gs with
    | nil => simp [Grouping.push]
    | cons a gs ih =>
      obtain ⟨k, ys⟩ := a
      obtain ⟨hhead, htail⟩ := List.pairwise_cons.mp h.increasing
      have hk : k ∈ l := h.keys (k, ys) (by simp)
      rw [Grouping.push]
      split
      · rename_i hlt
        refine List.pairwise_cons.mpr ⟨fun g hg => ?_, h.increasing⟩
        rcases List.mem_cons.mp hg with rfl | hg
        · exact hlt
        · exact ht.lt_of_lt_of_le hx hk (h.keys g (by simp [hg])) hlt (by simp [hhead g hg])
      · exact List.pairwise_cons.mpr ⟨hhead, htail⟩
      · rename_i hgt
        refine List.pairwise_cons.mpr ⟨fun g hg => ?_, ih h.tail⟩
        rcases push_keys hg with he | ⟨g', hg', he⟩
        · rw [he]; exact (ht.lt_iff_gt hk hx).mpr hgt
        · rw [he]; exact hhead g' hg'

/-- What one push does: the group of the key grows, or a new group appears. -/
theorem Sorted.mem_push (ht : TotalOn cmp l) (h : Sorted cmp l gs) (hx : key x ∈ l) :
    g ∈ Grouping.push cmp key gs x ↔
      (g ∈ gs ∧ cmp (key x) g.1 ≠ .eq) ∨
      (∃ ys, (g.1, ys) ∈ gs ∧ cmp (key x) g.1 = .eq ∧ g.2 = ys ++ [x]) ∨
      ((∀ g' ∈ gs, cmp (key x) g'.1 ≠ .eq) ∧ g = (key x, [x])) := by
  induction gs with
  | nil => simp [Grouping.push]
  | cons a gs ih =>
    obtain ⟨k, ys⟩ := a
    obtain ⟨gk, gys⟩ := g
    obtain ⟨hhead, -⟩ := List.pairwise_cons.mp h.increasing
    have hk : k ∈ l := h.keys (k, ys) (by simp)
    -- once the key is at or before the head it differs from all later keys
    have hlater : cmp (key x) k ≠ .gt → ∀ g ∈ gs, cmp (key x) g.1 ≠ .eq := fun hle g hg => by
      have := ht.lt_of_le_of_lt hx hk (h.keys g (by simp [hg])) hle (hhead g hg)
      simp [this]
    rw [Grouping.push]
    cases hc : cmp (key x) k with
    | lt =>
      have hne := hlater (by simp [hc])
      simp only [List.mem_cons, Prod.mk.injEq]
      constructor
      · rintro (⟨rfl, rfl⟩ | ⟨rfl, rfl⟩ | hg)
        · refine .inr (.inr ⟨?_, rfl, rfl⟩)
          rintro g' (rfl | hg')
          · simp [hc]
          · exact hne g' hg'
        · exact .inl ⟨.inl ⟨rfl, rfl⟩, by simp [hc]⟩
        · exact .inl ⟨.inr hg, hne _ hg⟩
      · rintro (⟨hg | hg, -⟩ | ⟨zs, hg | hg, he, -⟩ | ⟨-, rfl, rfl⟩)
        · exact .inr (.inl hg)
        · exact .inr (.inr hg)
        · rw [hg.1, hc] at he; simp at he
        · exact absurd he (hne _ hg)
        · exact .inl ⟨rfl, rfl⟩
    | eq =>
      have hne := hlater (by simp [hc])
      simp only [List.mem_cons, Prod.mk.injEq]
      constructor
      · rintro (⟨rfl, rfl⟩ | hg)
        · exact .inr (.inl ⟨ys, .inl ⟨rfl, rfl⟩, hc, rfl⟩)
        · exact .inl ⟨.inr hg, hne _ hg⟩
      · rintro (⟨⟨rfl, rfl⟩ | hg, he⟩ | ⟨zs, ⟨rfl, rfl⟩ | hg, he, rfl⟩ | ⟨hall, -⟩)
        · exact absurd hc he
        · exact .inr hg
        · exact .inl ⟨rfl, rfl⟩
        · exact absurd he (hne _ hg)
        · exact absurd hc (hall (k, ys) (.inl rfl))
    | gt =>
      have ih' := ih h.tail
      simp only [List.mem_cons, Prod.mk.injEq, ih']
      constructor
      · rintro (⟨rfl, rfl⟩ | ⟨hg, he⟩ | ⟨zs, hg, he, rfl⟩ | ⟨hall, rfl, rfl⟩)
        · exact .inl ⟨.inl ⟨rfl, rfl⟩, by simp [hc]⟩
        · exact .inl ⟨.inr hg, he⟩
        · exact .inr (.inl ⟨zs, .inr hg, he, rfl⟩)
        · refine .inr (.inr ⟨?_, rfl, rfl⟩)
          rintro g' (rfl | hg')
          · simp [hc]
          · exact hall g' hg'
      · rintro (⟨hg | hg, he⟩ | ⟨zs, hg | hg, he, rfl⟩ | ⟨hall, rfl, rfl⟩)
        · exact .inl hg
        · exact .inr (.inl ⟨hg, he⟩)
        · rw [hg.1, hc] at he; simp at he
        · exact .inr (.inr (.inl ⟨zs, hg, he, rfl⟩))
        · exact .inr (.inr (.inr ⟨fun g' hg' => hall g' (.inr hg'), rfl, rfl⟩))

theorem filter_concat_key (xs : List α) (x : α) (k : κ) :
    ((xs ++ [x]).filter fun y => cmp (key y) k == .eq) =
      (xs.filter fun y => cmp (key y) k == .eq) ++ if cmp (key x) k = .eq then [x] else [] := by
  rw [List.filter_append]
  by_cases h : cmp (key x) k = .eq <;> simp [h]

theorem IsGroup.exists_mem (h : IsGroup cmp key xs g) : ∃ x ∈ xs, key x = g.1 := by
  obtain ⟨x, hx, he⟩ := Option.map_eq_some_iff.mp h.first
  have hmem := List.mem_of_mem_head? hx
  rw [h.elements] at hmem
  exact ⟨x, List.mem_of_mem_filter hmem, he⟩

theorem push_append {done : List (κ × List α)} (h : ∀ g ∈ done, cmp (key x) g.1 = .gt) :
    push cmp key (done ++ gs) x = done ++ push cmp key gs x := by
  induction done with
  | nil => rfl
  | cons g done ih =>
    obtain ⟨k, ys⟩ := g
    have hk : cmp (key x) k = .gt := h (k, ys) (by simp)
    rw [List.cons_append, push, hk, ih fun g hg => h g (by simp [hg])]
    rfl

theorem groups_concat (xs : List α) (x : α) :
    groups cmp key (xs ++ [x]) = push cmp key (groups cmp key xs) x := by
  simp [groups]

theorem groups_sorted (ht : TotalOn cmp l) (hxs : ∀ x ∈ xs, key x ∈ l) :
    Sorted cmp l (groups cmp key xs) := by
  induction xs using List.reverseRecOn with
  | nil => exact ⟨by simp [groups], by simp [groups]⟩
  | append_singleton xs x ih =>
    rw [groups_concat]
    exact (ih fun y hy => hxs y (by simp [hy])).push ht (hxs x (by simp))

theorem exists_isGroup (ht : TotalOn cmp l) (hxs : ∀ x ∈ xs, key x ∈ l) (hx : x ∈ xs) :
    ∃ g, IsGroup cmp key xs g ∧ g.1 ∈ l ∧ cmp (key x) g.1 = .eq := by
  have hmem : x ∈ xs.filter fun y => cmp (key y) (key x) == .eq :=
    List.mem_filter.mpr ⟨hx, by simp [ht.refl (hxs x hx)]⟩
  obtain ⟨z, zs, hz⟩ := List.exists_cons_of_ne_nil (List.ne_nil_of_mem hmem)
  obtain ⟨hzxs, hzx⟩ := List.mem_filter.mp (hz ▸ List.mem_cons_self : z ∈ xs.filter _)
  have hzx' : cmp (key z) (key x) = .eq := by simpa using hzx
  refine ⟨(key z, z :: zs), ⟨?_, rfl⟩, hxs z hzxs, (ht.eq_comm (hxs z hzxs) (hxs x hx)).mp hzx'⟩
  rw [← hz]
  refine List.filter_congr fun w hw => ?_
  rw [ht.cmp_congr (hxs z hzxs) (hxs x hx) (hxs w hw) hzx']

/-- Groups are the classes of equal keys, in the order of the input. -/
theorem mem_groups (ht : TotalOn cmp l) (hxs : ∀ x ∈ xs, key x ∈ l) (hg : g.1 ∈ l) :
    g ∈ groups cmp key xs ↔ IsGroup cmp key xs g := by
  induction xs using List.reverseRecOn generalizing g with
  | nil =>
    refine ⟨fun h => by simp [groups] at h, fun h => ?_⟩
    obtain ⟨x, hx, -⟩ := h.exists_mem
    simp at hx
  | append_singleton xs x ih =>
    have hxs' : ∀ y ∈ xs, key y ∈ l := fun y hy => hxs y (by simp [hy])
    have hx : key x ∈ l := hxs x (by simp)
    obtain ⟨gk, gys⟩ := g
    rw [groups_concat, (groups_sorted ht hxs').mem_push ht hx]
    constructor
    · rintro (⟨hmem, hne⟩ | ⟨ys, hmem, he, hys⟩ | ⟨hnone, hnew⟩)
      · obtain ⟨hel, hfirst⟩ := (ih hxs' hg).mp hmem
        exact ⟨by rw [filter_concat_key, if_neg hne, List.append_nil]; exact hel, hfirst⟩
      · obtain ⟨hel, hfirst⟩ := (ih hxs' (g := (gk, ys)) hg).mp hmem
        refine ⟨by rw [filter_concat_key, if_pos he, hys]; exact congrArg (· ++ [x]) hel, ?_⟩
        obtain ⟨y, hy, hk⟩ := Option.map_eq_some_iff.mp hfirst
        rw [hys, List.head?_append, show ys.head? = some y from hy]
        simp [hk]
      · obtain ⟨rfl, rfl⟩ := Prod.mk.inj hnew
        refine ⟨?_, rfl⟩
        rw [filter_concat_key, if_pos (ht.refl hx), List.filter_eq_nil_iff.mpr, List.nil_append]
        intro y hy he
        -- the group of an equal earlier key would have been there
        obtain ⟨g', hg', hk', hyg⟩ := exists_isGroup ht hxs' hy
        refine hnone g' ((ih hxs' hk').mpr hg') ?_
        have hyx : cmp (key y) (key x) = .eq := by simpa using he
        rw [ht.eq_comm hx hk', ← ht.cmp_congr (hxs' y hy) hx hk' hyx]
        exact (ht.eq_comm (hxs' y hy) hk').mp hyg
    · rintro ⟨hel, hfirst⟩
      simp only [filter_concat_key] at hel
      by_cases he : cmp (key x) gk = .eq
      · rw [if_pos he] at hel
        cases hf : xs.filter fun y => cmp (key y) gk == .eq with
        | nil =>
          -- the element starts its group
          rw [hf, List.nil_append] at hel
          subst hel
          obtain rfl : key x = gk := by simpa using hfirst
          refine .inr (.inr ⟨fun g' hg' he' => ?_, rfl⟩)
          have hk' := (groups_sorted ht hxs').keys g' hg'
          obtain ⟨y, hy, hyk⟩ := ((ih hxs' hk').mp hg').exists_mem
          have hmem : y ∈ xs.filter fun y => cmp (key y) (key x) == .eq :=
            List.mem_filter.mpr ⟨hy, by rw [hyk]; simpa using (ht.eq_comm hx hk').mp he'⟩
          rw [hf] at hmem
          simp at hmem
        | cons y ys =>
          rw [hf] at hel
          subst hel
          exact .inr (.inl ⟨y :: ys, (ih hxs' (g := (gk, y :: ys)) hg).mpr
            ⟨hf.symm, by simpa using hfirst⟩, he, rfl⟩)
      · rw [if_neg he, List.append_nil] at hel
        exact .inl ⟨(ih hxs' hg).mpr ⟨hel, hfirst⟩, he⟩

/-! ### Grouping a sorted sequence as it goes by -/

/-- Grow the current group while the key stays the same, and start the next one when it changes. -/
def adjacent (same : κ → κ → Bool) (key : α → κ) : Option (κ × List α) → List α → List (κ × List α)
  | cur, [] => cur.toList
  | none, x :: xs => adjacent same key (some (key x, [x])) xs
  | some (k, ys), x :: xs =>
    if same k (key x) then adjacent same key (some (k, ys ++ [x])) xs
    else (k, ys) :: adjacent same key (some (key x, [x])) xs

theorem adjacent_flatMap (same : κ → κ → Bool) (cur : Option (κ × List α)) (xs : List α) :
    (adjacent same key cur xs).flatMap (·.2) = cur.toList.flatMap (·.2) ++ xs := by
  induction xs generalizing cur with
  | nil => cases cur <;> simp [adjacent]
  | cons x xs ih =>
    cases cur with
    | none => simp [adjacent, ih]
    | some g =>
      obtain ⟨k, ys⟩ := g
      rw [adjacent]
      split <;> simp [ih]

/-- A group as it is built: under the key of its first element, which all its elements have. -/
def Uniform (cmp : κ → κ → Ordering) (key : α → κ) (g : κ × List α) : Prop :=
  g.2.head?.map key = some g.1 ∧ ∀ y ∈ g.2, cmp (key y) g.1 = .eq

section

variable (ht : TotalOn cmp l) (hsame : ∀ a ∈ l, ∀ b ∈ l, same a b = (cmp a b == .eq))

include ht hsame

theorem adjacent_spec {k : κ} {ys : List α} (hk : k ∈ l) (hys : Uniform cmp key (k, ys))
    (hxs : ∀ x ∈ xs, key x ∈ l) (hfirst : ∀ x ∈ xs, cmp k (key x) ≠ .gt)
    (hsorted : xs.Pairwise fun a b => cmp (key a) (key b) ≠ .gt) :
    (∀ g ∈ adjacent same key (some (k, ys)) xs,
        g.1 ∈ l ∧ Uniform cmp key g ∧ cmp k g.1 ≠ .gt) ∧
      (adjacent same key (some (k, ys)) xs).Pairwise fun g h => cmp g.1 h.1 = .lt := by
  induction xs generalizing k ys with
  | nil =>
    simp only [adjacent, Option.toList_some, List.mem_singleton, forall_eq]
    exact ⟨⟨hk, hys, by simp [ht.refl hk]⟩, List.pairwise_singleton _ _⟩
  | cons x xs ih =>
    obtain ⟨hx, hrest⟩ := List.pairwise_cons.mp hsorted
    have hxl : key x ∈ l := hxs x (by simp)
    have hxs' : ∀ y ∈ xs, key y ∈ l := fun y hy => hxs y (by simp [hy])
    rw [adjacent, hsame k hk (key x) hxl]
    by_cases heq : cmp k (key x) = .eq
    · rw [if_pos (by simp [heq])]
      refine ih hk ⟨?_, fun y hy => ?_⟩ hxs' (fun y hy => hfirst y (by simp [hy])) hrest
      · obtain ⟨y, hy, hyk⟩ := Option.map_eq_some_iff.mp hys.1
        rw [List.head?_append, show ys.head? = some y from hy]
        simpa using hyk
      · rcases List.mem_append.mp hy with hy | hy
        · exact hys.2 y hy
        · rw [List.mem_singleton.mp hy]
          exact (ht.eq_comm hk hxl).mp heq
    · rw [if_neg (by simpa using heq)]
      have hlt : cmp k (key x) = .lt := by
        cases hc : cmp k (key x) with
        | lt => rfl
        | eq => exact absurd hc heq
        | gt => exact absurd hc (hfirst x (by simp))
      have hstart : Uniform cmp key (key x, [x]) := ⟨rfl, by simp [ht.refl hxl]⟩
      obtain ⟨hall, hpair⟩ := ih hxl hstart hxs' hx hrest
      refine ⟨fun g hg => ?_, List.pairwise_cons.mpr ⟨fun g hg => ?_, hpair⟩⟩
      · rcases List.mem_cons.mp hg with rfl | hg
        · exact ⟨hk, hys, by simp [ht.refl hk]⟩
        · obtain ⟨hgl, hgu, hge⟩ := hall g hg
          exact ⟨hgl, hgu, by rw [ht.lt_of_lt_of_le hk hxl hgl hlt hge]; simp⟩
      · obtain ⟨hgl, -, hge⟩ := hall g hg
        exact ht.lt_of_lt_of_le hk hxl hgl hlt hge

/-- The groups of a sorted sequence: each under the key its elements have, keys increasing. -/
theorem adjacent_sorted (hxs : ∀ x ∈ xs, key x ∈ l)
    (hsorted : xs.Pairwise fun a b => cmp (key a) (key b) ≠ .gt) :
    Sorted cmp l (adjacent same key none xs) ∧
      ∀ g ∈ adjacent same key none xs, Uniform cmp key g := by
  cases xs with
  | nil => exact ⟨⟨by simp [adjacent], by simp [adjacent]⟩, by simp [adjacent]⟩
  | cons x xs =>
    obtain ⟨hx, hrest⟩ := List.pairwise_cons.mp hsorted
    have hxl : key x ∈ l := hxs x (by simp)
    have hstart : Uniform cmp key (key x, [x]) := ⟨rfl, by simp [ht.refl hxl]⟩
    obtain ⟨hall, hpair⟩ := adjacent_spec ht hsame hxl hstart (fun y hy => hxs y (by simp [hy])) hx hrest
    rw [adjacent]
    exact ⟨⟨fun g hg => (hall g hg).1, hpair⟩, fun g hg => (hall g hg).2.1⟩

/-- In a sorted sequence the groups in passing are the groups of the whole. -/
theorem mem_adjacent (hxs : ∀ x ∈ xs, key x ∈ l)
    (hsorted : xs.Pairwise fun a b => cmp (key a) (key b) ≠ .gt) :
    g ∈ adjacent same key none xs ↔ g.1 ∈ l ∧ IsGroup cmp key xs g := by
  obtain ⟨hs, hu⟩ := adjacent_sorted ht hsame hxs hsorted
  have hflat : (adjacent same key none xs).flatMap (·.2) = xs := by
    rw [adjacent_flatMap]
    rfl
  generalize adjacent same key none xs = gs at hs hu hflat
  have hgroup : ∀ g ∈ gs, IsGroup cmp key xs g := by
    intro g hg
    refine ⟨?_, (hu g hg).1⟩
    obtain ⟨before, after, rfl⟩ := List.append_of_mem hg
    obtain ⟨-, hga, hbefore⟩ := List.pairwise_append.mp hs.increasing
    have hafter := (List.pairwise_cons.mp hga).1
    -- elements of the other groups have other keys
    have hother : ∀ h ∈ before ++ g :: after, cmp h.1 g.1 ≠ .eq →
        ∀ y ∈ h.2, (cmp (key y) g.1 == .eq) = false := by
      intro h hh hne y hy
      have hyh := (hu h hh).2 y hy
      have hyl : key y ∈ l := hxs y (by rw [← hflat]; exact List.mem_flatMap.mpr ⟨h, hh, hy⟩)
      have hcongr := ht.cmp_congr hyl (hs.keys h hh) (hs.keys g hg) hyh
      rw [beq_eq_false_iff_ne, ne_eq, ht.eq_comm hyl (hs.keys g hg), hcongr,
        ht.eq_comm (hs.keys g hg) (hs.keys h hh)]
      exact hne
    have hnone : ∀ hs' : List (κ × List α), (∀ h ∈ hs', h ∈ before ++ g :: after ∧ cmp h.1 g.1 ≠ .eq) →
        (hs'.flatMap (·.2)).filter (fun x => cmp (key x) g.1 == .eq) = [] := by
      intro hs' hmem
      rw [List.filter_eq_nil_iff]
      intro y hy
      obtain ⟨h, hh, hyh⟩ := List.mem_flatMap.mp hy
      rw [hother h (hmem h hh).1 (hmem h hh).2 y hyh]
      simp
    rw [← hflat, List.flatMap_append, List.flatMap_cons, List.filter_append, List.filter_append,
      hnone before fun h hh => ⟨by simp [hh], by simp [hbefore h hh g (by simp)]⟩,
      hnone after fun h hh => ⟨by simp [hh], fun heq => ?_⟩, List.nil_append, List.append_nil,
      List.filter_eq_self.mpr fun y hy => by simp [(hu g hg).2 y hy]]
    have hlt := hafter h hh
    rw [(ht.eq_comm (hs.keys h (by simp [hh])) (hs.keys g hg)).mp heq] at hlt
    cases hlt
  constructor
  · exact fun hg => ⟨hs.keys g hg, hgroup g hg⟩
  · rintro ⟨hgl, hg⟩
    obtain ⟨x, hx, hxk⟩ := hg.exists_mem
    rw [← hflat] at hx
    obtain ⟨h, hh, hxh⟩ := List.mem_flatMap.mp hx
    -- both groups hold the elements of one class, so they are the same
    have heq : cmp g.1 h.1 = .eq := hxk ▸ (hu h hh).2 x hxh
    have hel : g.2 = h.2 := by
      rw [hg.elements, (hgroup h hh).elements]
      refine List.filter_congr fun y hy => ?_
      rw [ht.cmp_congr hgl (hs.keys h hh) (hxs y hy) heq]
    have hkey : g.1 = h.1 := by
      have hfg := hg.first
      rw [hel, (hu h hh).1] at hfg
      exact (Option.some.inj hfg).symm
    obtain ⟨gk, gy⟩ := g
    obtain ⟨hk, hy⟩ := h
    simp only at hel hkey
    rw [hel, hkey]
    exact hh

end

end Grouping
