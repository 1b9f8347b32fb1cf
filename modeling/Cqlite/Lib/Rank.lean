import Mathlib.Algebra.Order.Ring.Int
import Mathlib.Data.List.Pairwise
import Mathlib.Data.List.Sort
import Mathlib.Order.Compare

/-! Comparators that order the values at hand.

    A `cmp` taken from running code is rarely a lawful order on its whole type, only on the values
    that occur together. `TotalOn` states that much, and `rank` then turns the comparison into one
    of natural numbers: the number of occurring values that come strictly before. -/

namespace Rank

variable {α : Type*}

/-- `cmp` is a total preorder on the elements of `l`. -/
@[mk_iff]
structure TotalOn (cmp : α → α → Ordering) (l : List α) : Prop where
  swap : ∀ a ∈ l, ∀ b ∈ l, cmp b a = (cmp a b).swap
  trans : ∀ a ∈ l, ∀ b ∈ l, ∀ c ∈ l, cmp a b ≠ .gt → cmp b c ≠ .gt → cmp a c ≠ .gt

/-- The number of elements of `l` strictly before `a`. -/
def rank (cmp : α → α → Ordering) (l : List α) (a : α) : Nat :=
  l.countP fun b => cmp b a == .lt

variable {cmp : α → α → Ordering} {l : List α}

instance : Decidable (TotalOn cmp l) := decidable_of_iff _ (totalOn_iff cmp l).symm

namespace TotalOn

theorem mono {l' : List α} (h : TotalOn cmp l) (hsub : ∀ a ∈ l', a ∈ l) : TotalOn cmp l' where
  swap a ha b hb := h.swap a (hsub a ha) b (hsub b hb)
  trans a ha b hb c hc := h.trans a (hsub a ha) b (hsub b hb) c (hsub c hc)

variable {a b c : α}

section

variable (h : TotalOn cmp l)

include h

theorem refl (ha : a ∈ l) : cmp a a = .eq := by
  have hs := h.swap a ha a ha
  cases hc : cmp a a with
  | eq => rfl
  | lt => rw [hc] at hs; exact absurd hs (by decide)
  | gt => rw [hc] at hs; exact absurd hs (by decide)

theorem eq_comm (ha : a ∈ l) (hb : b ∈ l) : cmp a b = .eq ↔ cmp b a = .eq := by
  rw [h.swap a ha b hb]
  cases cmp a b <;> simp

theorem lt_iff_gt (ha : a ∈ l) (hb : b ∈ l) : cmp a b = .lt ↔ cmp b a = .gt := by
  rw [h.swap a ha b hb]
  cases cmp a b <;> simp

theorem lt_of_lt_of_le (ha : a ∈ l) (hb : b ∈ l) (hc : c ∈ l) (hab : cmp a b = .lt)
    (hbc : cmp b c ≠ .gt) : cmp a c = .lt := by
  rw [h.lt_iff_gt ha hc]
  by_contra hca
  have := h.trans b hb c hc a ha hbc hca
  exact this ((h.lt_iff_gt ha hb).mp hab)

theorem lt_of_le_of_lt (ha : a ∈ l) (hb : b ∈ l) (hc : c ∈ l) (hab : cmp a b ≠ .gt)
    (hbc : cmp b c = .lt) : cmp a c = .lt := by
  rw [h.lt_iff_gt ha hc]
  by_contra hca
  have := h.trans c hc a ha b hb hca hab
  exact this ((h.lt_iff_gt hb hc).mp hbc)

theorem rank_mono (ha : a ∈ l) (hb : b ∈ l) (hab : cmp a b ≠ .gt) :
    rank cmp l a ≤ rank cmp l b := by
  refine List.countP_mono_left fun c hc hca => ?_
  have hca' : cmp c a = .lt := by simpa using hca
  simpa using h.lt_of_lt_of_le hc ha hb hca' hab

theorem rank_lt (ha : a ∈ l) (hb : b ∈ l) (hab : cmp a b = .lt) : rank cmp l a < rank cmp l b := by
  -- everything before `a` is before `b`, and `a` itself is one more
  have hsub : ∀ c ∈ l, (cmp c a == .lt) = true → (cmp c b == .lt) = true := fun c hc hca => by
    have hca' : cmp c a = .lt := by simpa using hca
    simpa using h.lt_of_lt_of_le hc ha hb hca' (by simp [hab])
  unfold rank
  rw [List.countP_eq_length_filter, List.countP_eq_length_filter]
  have hsubl : (l.filter fun c => cmp c a == .lt).Sublist (l.filter fun c => cmp c b == .lt) := by
    have : (l.filter fun c => cmp c a == .lt) =
        (l.filter fun c => cmp c b == .lt).filter fun c => cmp c a == .lt := by
      rw [List.filter_filter]
      refine List.filter_congr fun c hc => ?_
      cases hca : cmp c a == .lt with
      | false => simp
      | true => simp [hsub c hc hca]
    rw [this]
    exact List.filter_sublist
  refine lt_of_le_of_ne hsubl.length_le fun hlen => ?_
  have heq := hsubl.eq_of_length hlen
  have hmem : a ∈ l.filter fun c => cmp c b == .lt := List.mem_filter.mpr ⟨ha, by simp [hab]⟩
  rw [← heq, List.mem_filter] at hmem
  simp [h.refl ha] at hmem

/-- On the elements of `l` the comparison is the comparison of ranks. -/
theorem compare_rank (ha : a ∈ l) (hb : b ∈ l) :
    compare (rank cmp l a) (rank cmp l b) = cmp a b := by
  cases hab : cmp a b with
  | lt => exact compare_lt_iff_lt.mpr (h.rank_lt ha hb hab)
  | gt => exact compare_gt_iff_gt.mpr (h.rank_lt hb ha ((h.lt_iff_gt hb ha).mpr hab))
  | eq =>
    refine compare_eq_iff_eq.mpr (le_antisymm ?_ ?_)
    · exact h.rank_mono ha hb (by simp [hab])
    · exact h.rank_mono hb ha (by simp [(h.eq_comm ha hb).mp hab])

/-- Equal elements compare alike with everything. -/
theorem cmp_congr (ha : a ∈ l) (hb : b ∈ l) (hc : c ∈ l) (hab : cmp a b = .eq) :
    cmp c a = cmp c b := by
  rw [← h.compare_rank ha hb, compare_eq_iff_eq] at hab
  rw [← h.compare_rank hc ha, ← h.compare_rank hc hb, hab]

/-- On ranks the comparison is `≤`, which is total and transitive everywhere. -/
theorem le_eq_rank : ∀ a ∈ l, ∀ b ∈ l, (cmp a b != .gt) = decide (rank cmp l a ≤ rank cmp l b) := by
  intro a ha b hb
  rw [← h.compare_rank ha hb, Bool.eq_iff_iff, bne_iff_ne, ne_eq, compare_gt_iff_gt,
    decide_eq_true_eq, not_lt]

theorem pairwise_mergeSort :
    (l.mergeSort fun a b => cmp a b != .gt).Pairwise fun a b => cmp a b ≠ .gt := by
  have hle := h.le_eq_rank
  have hsorted : ((l.map (rank cmp l)).mergeSort fun a b => decide (a ≤ b)).Pairwise
      fun a b => decide (a ≤ b) = true :=
    List.pairwise_mergeSort (by simpa using fun a b c => le_trans) (by simpa using le_total) _
  rw [← List.map_mergeSort (r := fun a b => cmp a b != .gt) hle, List.pairwise_map] at hsorted
  refine hsorted.imp_of_mem fun {a b} ha hb hab => ?_
  have := hle a (List.mem_mergeSort.mp ha) b (List.mem_mergeSort.mp hb)
  rw [hab] at this
  simpa using this

theorem filter_mergeSort_class (ha : a ∈ l) :
    (l.mergeSort fun a b => cmp a b != .gt).filter (fun b => cmp a b == .eq) =
      l.filter fun b => cmp a b == .eq := by
  have hle := h.le_eq_rank
  have hsort : l.mergeSort (fun a b => cmp a b != .gt) =
      l.mergeSort fun a b => decide (rank cmp l a ≤ rank cmp l b) := by
    have := @List.map_mergeSort _ _ (fun a b => cmp a b != .gt)
      (fun a b => decide (rank cmp l a ≤ rank cmp l b)) id l hle
    simpa using this
  have hclass : ((l.filter fun b => cmp a b == .eq).Pairwise fun b c =>
      decide (rank cmp l b ≤ rank cmp l c) = true) := by
    refine List.Pairwise.imp_of_mem ?_ (List.pairwise_of_forall (R := fun _ _ => True) fun _ _ => trivial)
    intro b c hb hc _
    have hab : cmp a b = .eq := by simpa using (List.mem_filter.mp hb).2
    have hac : cmp a c = .eq := by simpa using (List.mem_filter.mp hc).2
    rw [← h.compare_rank ha (List.mem_filter.mp hb).1, compare_eq_iff_eq] at hab
    rw [← h.compare_rank ha (List.mem_filter.mp hc).1, compare_eq_iff_eq] at hac
    exact decide_eq_true (by omega)
  have htrans : ∀ a b c, decide (rank cmp l a ≤ rank cmp l b) = true →
      decide (rank cmp l b ≤ rank cmp l c) = true → decide (rank cmp l a ≤ rank cmp l c) = true := by
    simp only [decide_eq_true_eq]
    exact fun _ _ _ => le_trans
  have htotal : ∀ a b, (decide (rank cmp l a ≤ rank cmp l b) ||
      decide (rank cmp l b ≤ rank cmp l a)) = true := by
    simp only [Bool.or_eq_true, decide_eq_true_eq]
    exact fun _ _ => le_total ..
  have hsub := List.sublist_mergeSort htrans htotal hclass List.filter_sublist
  rw [hsort]
  have hlen : (l.filter fun b => cmp a b == .eq).length =
      ((l.mergeSort fun a b => decide (rank cmp l a ≤ rank cmp l b)).filter
        fun b => cmp a b == .eq).length :=
    ((List.mergeSort_perm l _).filter _).length_eq.symm
  have hsub' := hsub.filter fun b => cmp a b == .eq
  rw [List.filter_filter] at hsub'
  simp only [Bool.and_self] at hsub'
  exact (hsub'.eq_of_length hlen).symm

/-- What sorting leaves of a part of the elements, when that part has a strict order. -/
theorem filter_mergeSort_eq {p : α → Bool} {sorted : List α} (hperm : sorted.Perm (l.filter p))
    (hsorted : sorted.Pairwise fun a b => cmp a b = .lt) :
    (l.mergeSort fun a b => cmp a b != .gt).filter p = sorted := by
  have hperm' : ((l.mergeSort fun a b => cmp a b != .gt).filter p).Perm sorted :=
    ((List.mergeSort_perm l _).filter p).trans hperm.symm
  have hmem : ∀ a ∈ sorted, a ∈ l := fun a ha => List.mem_of_mem_filter (hperm.subset ha)
  refine List.Perm.eq_of_pairwise (fun a b ha hb hab hba => ?_) (h.pairwise_mergeSort.filter p)
    (hsorted.imp fun hlt => by simp [hlt]) hperm'
  by_contra hne
  -- two different elements of a strict order compare strictly, one way or the other
  have hsymm : Std.Symm fun a b : α => cmp a b = .lt ∨ cmp b a = .lt := ⟨fun _ _ => Or.symm⟩
  have hstrict : sorted.Pairwise fun a b => cmp a b = .lt ∨ cmp b a = .lt := hsorted.imp Or.inl
  rcases hstrict.forall (hperm'.subset ha) hb hne with hlt | hlt
  · exact hba ((h.lt_iff_gt (hmem a (hperm'.subset ha)) (hmem b hb)).mp hlt)
  · exact hab ((h.lt_iff_gt (hmem b hb) (hmem a (hperm'.subset ha))).mp hlt)

theorem eq_of_classes {xs ys : List α} (hxs : ∀ x ∈ xs, x ∈ l) (hys : ∀ y ∈ ys, y ∈ l)
    (hx : xs.Pairwise fun a b => cmp a b ≠ .gt) (hy : ys.Pairwise fun a b => cmp a b ≠ .gt)
    (hclass : ∀ a ∈ l, xs.filter (fun b => cmp a b == .eq) = ys.filter fun b => cmp a b == .eq) :
    xs = ys := by
  induction xs generalizing ys with
  | nil =>
    obtain _ | ⟨y, ys⟩ := ys
    · rfl
    · have hnil := hclass y (hys y List.mem_cons_self)
      rw [List.filter_cons, h.refl (hys y List.mem_cons_self)] at hnil
      cases hnil
  | cons x xs ih =>
    have hxl := hxs x List.mem_cons_self
    obtain _ | ⟨y, ys⟩ := ys
    · have hnil := hclass x hxl
      rw [List.filter_cons, h.refl hxl] at hnil
      cases hnil
    have hyl := hys y List.mem_cons_self
    obtain ⟨hxmin, hxrest⟩ := List.pairwise_cons.mp hx
    obtain ⟨hymin, hyrest⟩ := List.pairwise_cons.mp hy
    -- the first elements are equal: each occurs in the other list
    have hfirst : ∀ {u v : α} {us vs : List α}, u ∈ l → v ∈ l → (∀ w ∈ us, w ∈ l) →
        (∀ w ∈ us, cmp u w ≠ .gt) →
        (u :: us).filter (fun b => cmp v b == .eq) = (v :: vs).filter (fun b => cmp v b == .eq) →
        cmp u v ≠ .gt := by
      intro u v us vs hu hv hus hmin heq hgt
      have hmem : v ∈ (u :: us).filter fun b => cmp v b == .eq := by
        rw [heq]
        exact List.mem_filter.mpr ⟨List.mem_cons_self, by simp [h.refl hv]⟩
      rcases List.mem_cons.mp (List.mem_filter.mp hmem).1 with rfl | hmem
      · rw [h.refl hv] at hgt
        cases hgt
      · exact hmin v hmem hgt
    have hxy : cmp x y ≠ .gt := hfirst hxl hyl (fun w hw => hxs w (List.mem_cons_of_mem _ hw)) hxmin
      (hclass y hyl)
    have hyx : cmp y x ≠ .gt := hfirst hyl hxl (fun w hw => hys w (List.mem_cons_of_mem _ hw)) hymin
      (hclass x hxl).symm
    have heq : cmp x y = .eq := by
      cases hc : cmp x y with
      | eq => rfl
      | lt => exact absurd ((h.lt_iff_gt hxl hyl).mp hc) hyx
      | gt => exact absurd hc hxy
    have hhead := hclass x hxl
    rw [List.filter_cons, List.filter_cons, h.refl hxl, heq] at hhead
    obtain ⟨rfl, -⟩ := List.cons.inj hhead
    refine congrArg _ (ih (fun w hw => hxs w (List.mem_cons_of_mem _ hw))
      (fun w hw => hys w (List.mem_cons_of_mem _ hw)) hxrest hyrest fun a ha => ?_)
    have hrest := hclass a ha
    rw [List.filter_cons, List.filter_cons] at hrest
    split at hrest
    · exact (List.cons.inj hrest).2
    · exact hrest

/-- Only the comparisons within the list count. -/
theorem congr {cmp₂ : α → α → Ordering} (heq : ∀ a ∈ l, ∀ b ∈ l, cmp₂ a b = cmp a b) :
    TotalOn cmp₂ l where
  swap a ha b hb := by rw [heq a ha b hb, heq b hb a ha, h.swap a ha b hb]
  trans a ha b hb c hc hab hbc := by
    rw [heq a ha b hb] at hab
    rw [heq b hb c hc] at hbc
    rw [heq a ha c hc]
    exact h.trans a ha b hb c hc hab hbc

end

/-- A comparison of images. -/
theorem comap {β : Type*} {f : β → α} {xs : List β} (h : TotalOn cmp (xs.map f)) :
    TotalOn (fun a b => cmp (f a) (f b)) xs where
  swap _ ha _ hb := h.swap _ (List.mem_map_of_mem ha) _ (List.mem_map_of_mem hb)
  trans _ ha _ hb _ hc :=
    h.trans _ (List.mem_map_of_mem ha) _ (List.mem_map_of_mem hb) _ (List.mem_map_of_mem hc)

/-- Comparing by `cmp` and then by a comparison that is total within each class of equals. -/
theorem lex {cmp₂ : α → α → Ordering} (h : TotalOn cmp l)
    (h₂ : ∀ a ∈ l, TotalOn cmp₂ (l.filter fun b => cmp a b == .eq)) :
    TotalOn (fun a b => (cmp a b).then (cmp₂ a b)) l := by
  have hclass : ∀ {a b : α}, b ∈ l → cmp a b = .eq → b ∈ l.filter fun b => cmp a b == .eq :=
    fun hb hab => List.mem_filter.mpr ⟨hb, by simp [hab]⟩
  refine ⟨fun a ha b hb => ?_, fun a ha b hb c hc hab hbc => ?_⟩
  · simp only [h.swap a ha b hb]
    cases hab : cmp a b with
    | lt => rfl
    | gt => rfl
    | eq => exact (h₂ a ha).swap a (hclass ha (h.refl ha)) b (hclass hb hab)
  · have hab₁ : cmp a b ≠ .gt := fun hgt => hab (by simp [hgt])
    have hbc₁ : cmp b c ≠ .gt := fun hgt => hbc (by simp [hgt])
    cases hab' : cmp a b with
    | gt => exact absurd hab' hab₁
    | lt => simp [h.lt_of_lt_of_le ha hb hc hab' hbc₁]
    | eq =>
      cases hbc' : cmp b c with
      | gt => exact absurd hbc' hbc₁
      | lt => simp [h.lt_of_le_of_lt ha hb hc hab₁ hbc']
      | eq =>
        have hac : cmp a c = .eq := by rw [← h.cmp_congr hb hc ha hbc', hab']
        simp only [hab', hbc', hac, Ordering.eq_then] at hab hbc ⊢
        exact (h₂ a ha).trans a (hclass ha (h.refl ha)) b (hclass hb hab') c (hclass hc hac) hab hbc

end TotalOn

theorem totalOn_of_transCmp [Std.TransCmp cmp] : TotalOn cmp l where
  swap _ _ _ _ := Std.OrientedCmp.eq_swap
  trans _ _ _ _ _ _ hab hbc := by
    rw [Ne, ← Ordering.isLE_iff_ne_gt] at hab hbc ⊢
    exact Std.TransCmp.isLE_trans hab hbc

/-! ### Sorting by a key -/

section SortBy

variable {κ : Type*} [LinearOrder κ] (key : α → κ)

theorem sortBy_sorted (l : List α) :
    (l.insertionSort fun a b => key a ≤ key b).Pairwise fun a b => key a ≤ key b := by
  have : Std.Total fun a b : α => key a ≤ key b := ⟨fun _ _ => le_total _ _⟩
  have : IsTrans α fun a b => key a ≤ key b := ⟨fun _ _ _ => le_trans⟩
  exact List.pairwise_insertionSort _ _

/-- Where the keys are distinct, the order of the input does not matter. -/
theorem sortBy_eq_of_perm {l l' : List α} (h : l.Perm l')
    (hinj : ∀ a ∈ l, ∀ b ∈ l, key a = key b → a = b) :
    (l.insertionSort fun a b => key a ≤ key b) = l'.insertionSort fun a b => key a ≤ key b := by
  refine List.Perm.eq_of_pairwise ?_ (sortBy_sorted key l) (sortBy_sorted key l')
    ((List.perm_insertionSort _ _).trans (h.trans (List.perm_insertionSort _ _).symm))
  intro a b ha hb hab hba
  rw [List.mem_insertionSort] at ha hb
  exact hinj a ha b (h.mem_iff.2 hb) (le_antisymm hab hba)

end SortBy

end Rank
