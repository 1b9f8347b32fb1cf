import Cqlite.Lib.Rank

/-! Sorting with a comparison that need not be an order.

    A library sort promises a stable sort where the comparison is a total preorder on the elements,
    and some arrangement of them otherwise. On a strict order the result does not depend on the
    arrival order; on anything else it does, for some implementation. -/

/-- A stable sort by a comparison, as its documentation describes it. -/
structure StableSort where
  run : {α : Type} → (α → α → Ordering) → List α → List α
  perm : ∀ {α : Type} (cmp : α → α → Ordering) (l : List α), (run cmp l).Perm l
  sorts : ∀ {α : Type} {cmp : α → α → Ordering} {l : List α}, Rank.TotalOn cmp l →
    run cmp l = l.mergeSort fun a b => cmp a b != .gt

namespace StableSort

/-- `cmp` is a total order on the elements of `l`, and no two of them are equal for it. -/
structure StrictOn {α : Type} (cmp : α → α → Ordering) (l : List α) : Prop where
  total : Rank.TotalOn cmp l
  distinct : l.Pairwise fun a b => cmp a b ≠ .eq

variable {α β : Type} {cmp : α → α → Ordering} {l : List α}

/-! ### Strict orders -/

theorem StrictOn.perm {l' : List α} (h : StrictOn cmp l) (hperm : l'.Perm l) : StrictOn cmp l' where
  total := h.total.mono fun _ ha => hperm.subset ha
  distinct := by
    have hboth : l.Pairwise fun a b => cmp a b ≠ .eq ∧ cmp b a ≠ .eq :=
      h.distinct.imp_of_mem fun {a b} ha hb hab => ⟨hab, mt (h.total.eq_comm ha hb).2 hab⟩
    exact ((hperm.pairwise_iff And.symm).2 hboth).imp And.left

theorem StrictOn.pairwise_mergeSort (h : StrictOn cmp l) :
    (l.mergeSort fun a b => cmp a b != .gt).Pairwise fun a b => cmp a b = .lt := by
  have hdistinct := (h.perm (List.mergeSort_perm l fun a b => cmp a b != .gt)).distinct
  refine (h.total.pairwise_mergeSort.and hdistinct).imp fun {a b} hab => ?_
  cases hc : cmp a b with
  | lt => rfl
  | eq => exact absurd hc hab.2
  | gt => exact absurd hc hab.1

theorem StrictOn.eq_of_pairwise {xs ys : List α} (h : StrictOn cmp l) (hxs : xs.Perm l)
    (hys : ys.Perm l) (hx : xs.Pairwise fun a b => cmp a b = .lt)
    (hy : ys.Pairwise fun a b => cmp a b = .lt) : xs = ys := by
  refine List.Perm.eq_of_pairwise (fun a b ha hb hab hba => ?_) hx hy (hxs.trans hys.symm)
  rw [h.total.lt_iff_gt (hxs.subset ha) (hys.subset hb), hba] at hab
  cases hab

theorem StrictOn.of_map {f : α → β} {cmp : β → β → Ordering} (h : StrictOn cmp (l.map f)) :
    StrictOn (fun a b => cmp (f a) (f b)) l where
  total := h.total.comap
  distinct := List.pairwise_map.1 h.distinct

theorem StrictOn.map {f : α → β} {cmp : β → β → Ordering}
    (h : StrictOn (fun a b => cmp (f a) (f b)) l) : StrictOn cmp (l.map f) where
  total := by
    constructor
    · simpa only [List.forall_mem_map] using h.total.swap
    · simpa only [List.forall_mem_map] using h.total.trans
  distinct := List.pairwise_map.2 h.distinct

theorem StrictOn.congr {cmp' : α → α → Ordering} (h : StrictOn cmp l)
    (heq : ∀ a ∈ l, ∀ b ∈ l, cmp' a b = cmp a b) : StrictOn cmp' l where
  total := h.total.congr heq
  distinct := h.distinct.imp_of_mem fun {a b} ha hb hab => by rwa [heq a ha b hb]

/-! ### Runs of a sort -/

variable (sort : StableSort)

theorem mem_run {a : α} : a ∈ sort.run cmp l ↔ a ∈ l := (sort.perm cmp l).mem_iff

theorem run_pairwise (h : StrictOn cmp l) :
    (sort.run cmp l).Pairwise fun a b => cmp a b = .lt := by
  rw [sort.sorts h.total]
  exact h.pairwise_mergeSort

theorem run_of_perm {l' : List α} (h : StrictOn cmp l) (hperm : l'.Perm l) :
    sort.run cmp l' = sort.run cmp l :=
  h.eq_of_pairwise ((sort.perm cmp l').trans hperm) (sort.perm cmp l)
    (sort.run_pairwise (h.perm hperm)) (sort.run_pairwise h)

/-! ### Anything else -/

/-- The merge sort, whatever the comparison. -/
def merge : StableSort where
  run cmp l := l.mergeSort fun a b => cmp a b != .gt
  perm _ _ := List.mergeSort_perm ..
  sorts _ := rfl

theorem reverse_ne {a b : α} {l : List α} (h : (a :: b :: l).Nodup) :
    (a :: b :: l).reverse ≠ a :: b :: l := by
  intro heq
  have hlast : (a :: b :: l).getLast (by simp) = a := by
    have := congrArg List.head? heq
    rw [List.head?_reverse, List.getLast?_eq_getLast_of_ne_nil (by simp)] at this
    exact Option.some.inj this
  rw [List.getLast_cons (by simp)] at hlast
  exact (List.nodup_cons.1 h).1 (hlast ▸ List.getLast_mem _)

open Classical in
/-- The sort that leaves alone what its comparison does not order. -/
noncomputable def lazy : StableSort where
  run cmp l := if Rank.TotalOn cmp l then l.mergeSort fun a b => cmp a b != .gt else l
  perm cmp l := by
    split
    · exact List.mergeSort_perm ..
    · exact List.Perm.refl _
  sorts h := if_pos h

theorem lazy_of_not_total (h : ¬ Rank.TotalOn cmp l) : lazy.run cmp l = l := if_neg h

/-- Where the comparison is no strict order, the arrival order shows. -/
theorem lazy_reverse_ne (hnodup : l.Nodup) (hreads : ∀ a ∈ l, cmp a a = .eq)
    (h : ¬ StrictOn cmp l) : lazy.run cmp l.reverse ≠ lazy.run cmp l := by
  by_cases htotal : Rank.TotalOn cmp l
  · have htotal' : Rank.TotalOn cmp l.reverse := htotal.mono fun _ ha => List.mem_reverse.1 ha
    rw [lazy.sorts htotal, lazy.sorts htotal']
    intro heq
    -- two equal elements keep the order they came in
    obtain ⟨a, b, hsub, htie⟩ : ∃ a b, [a, b].Sublist l ∧ cmp a b = .eq := by
      by_contra hno
      refine h ⟨htotal, List.pairwise_iff_forall_sublist.2 fun {a b} hsub htie => ?_⟩
      exact hno ⟨a, b, hsub, htie⟩
    have ha : a ∈ l := hsub.subset (by simp)
    have hclass := htotal.filter_mergeSort_class ha
    rw [← heq, htotal'.filter_mergeSort_class (List.mem_reverse.2 ha), List.filter_reverse] at hclass
    have hpair : [a, b].Sublist (l.filter fun x => cmp a x == .eq) := by
      have := hsub.filter fun x => cmp a x == .eq
      rwa [List.filter_cons, List.filter_cons, hreads a ha, htie] at this
    obtain ⟨x, y, rest, hfilter⟩ : ∃ x y rest, (l.filter fun x => cmp a x == .eq) = x :: y :: rest := by
      match l.filter fun x => cmp a x == .eq, hpair.length_le with
      | x :: y :: rest, _ => exact ⟨x, y, rest, rfl⟩
    rw [hfilter] at hclass
    exact reverse_ne (hfilter ▸ hnodup.filter _) hclass
  · have htotal' : ¬ Rank.TotalOn cmp l.reverse := fun ht =>
      htotal (ht.mono fun _ ha => List.mem_reverse.2 ha)
    rw [lazy_of_not_total htotal, lazy_of_not_total htotal']
    match l, hnodup with
    | [], _ => exact absurd ⟨by simp, by simp⟩ htotal
    | [a], _ =>
      refine absurd ⟨?_, ?_⟩ htotal
      all_goals simp [hreads a List.mem_cons_self]
    | a :: b :: l, hnodup => exact reverse_ne hnodup

end StableSort
