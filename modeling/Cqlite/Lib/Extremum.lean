import Cqlite.Lib.Rank

/-! A running extremum.

    A fold that keeps an element until a later one beats it ends at the first of the best: it beats
    what comes before it, and nothing behind it beats it. `beats` is a strict comparison of ranks on
    the elements at hand. -/

namespace Extremum

variable {α : Type*} (beats : α → α → Bool)

/-- The element so far, or the next one where it beats it. -/
def better (best x : α) : α := if beats x best then x else best

/-- The element at a place where it beats all before it and is beaten by none behind it. -/
structure FirstBest (l : List α) (m : α) (before after : List α) : Prop where
  split : l = before ++ m :: after
  before : ∀ x ∈ before, beats m x = true
  after : ∀ x ∈ after, beats x m = false

/-- A strict comparison of ranks. -/
def Ranked (l : List α) : Prop :=
  ∃ rank : α → Int, ∀ a ∈ l, ∀ b ∈ l, beats a b = true ↔ rank a < rank b

variable {beats} {l : List α}

theorem Ranked.mono {l' : List α} (h : Ranked beats l) (hsub : ∀ a ∈ l', a ∈ l) : Ranked beats l' := by
  obtain ⟨rank, hrank⟩ := h
  exact ⟨rank, fun a ha b hb => hrank a (hsub a ha) b (hsub b hb)⟩

theorem ranked_isLT {cmp : α → α → Ordering} (h : Rank.TotalOn cmp l) :
    Ranked (fun a b => (cmp a b).isLT) l := by
  refine ⟨fun a => Rank.rank cmp l a, fun a ha b hb => ?_⟩
  dsimp only
  rw [← h.compare_rank ha hb, Ordering.isLT_iff_eq_lt, compare_lt_iff_lt, Int.ofNat_lt]

theorem ranked_isGT {cmp : α → α → Ordering} (h : Rank.TotalOn cmp l) :
    Ranked (fun a b => (cmp a b).isGT) l := by
  refine ⟨fun a => -Rank.rank cmp l a, fun a ha b hb => ?_⟩
  dsimp only
  rw [← h.compare_rank ha hb, Ordering.isGT_iff_eq_gt, compare_gt_iff_gt]
  omega

/-- The fold keeps the first of the best. -/
theorem foldl_better {a : α} (h : Ranked beats (a :: l)) :
    ∃ before after, FirstBest beats (a :: l) (l.foldl (better beats) a) before after := by
  induction l generalizing a with
  | nil => exact ⟨[], [], rfl, by simp, by simp⟩
  | cons x l ih =>
    obtain ⟨rank, hrank⟩ := h
    have hsub : ∀ b, b = a ∨ b = x → ∀ c ∈ b :: l, c ∈ a :: x :: l := by
      rintro b (rfl | rfl) c hc
      · rcases List.mem_cons.1 hc with rfl | hc <;> simp_all
      · exact List.mem_cons_of_mem _ hc
    rw [List.foldl_cons, better]
    cases hx : beats x a with
    | true =>
      simp only [if_true]
      obtain ⟨before, after, hsplit, hbefore, hafter⟩ :=
        ih (Ranked.mono ⟨rank, hrank⟩ (hsub x (.inr rfl)))
      have hm : l.foldl (better beats) x ∈ x :: l := by rw [hsplit]; simp
      refine ⟨a :: before, after, by rw [hsplit, List.cons_append], ?_, hafter⟩
      refine List.forall_mem_cons.2 ⟨?_, hbefore⟩
      have hxa := (hrank x (by simp) a (by simp)).1 hx
      refine (hrank _ (hsub x (.inr rfl) _ hm) a (by simp)).2 ?_
      obtain _ | ⟨b, before⟩ := before
      · obtain ⟨hhead, -⟩ := List.cons.inj hsplit
        rw [← hhead]
        exact hxa
      · obtain ⟨rfl, -⟩ := List.cons.inj hsplit
        exact ((hrank _ (hsub x (.inr rfl) _ hm) x (by simp)).1 (hbefore x (by simp))).trans hxa
    | false =>
      simp only [Bool.false_eq_true, if_false]
      obtain ⟨before, after, hsplit, hbefore, hafter⟩ :=
        ih (Ranked.mono ⟨rank, hrank⟩ (hsub a (.inl rfl)))
      have hm : l.foldl (better beats) a ∈ a :: l := by rw [hsplit]; simp
      obtain _ | ⟨b, before⟩ := before
      · obtain ⟨hhead, htail⟩ := List.cons.inj hsplit
        refine ⟨[], x :: after, by rw [← hhead, ← htail, List.nil_append], by simp, ?_⟩
        refine List.forall_mem_cons.2 ⟨?_, hafter⟩
        rw [← hhead]
        exact hx
      · obtain ⟨rfl, htail⟩ := List.cons.inj hsplit
        refine ⟨a :: x :: before, after, ?_, ?_, hafter⟩
        · exact congrArg (fun tail => a :: x :: tail) htail
        · -- what beats the first beats what does not beat it
          have hma := hbefore a (by simp)
          refine List.forall_mem_cons.2 ⟨hma, List.forall_mem_cons.2 ⟨?_, fun y hy =>
            hbefore y (List.mem_cons_of_mem _ hy)⟩⟩
          have hma' := (hrank _ (hsub a (.inl rfl) _ hm) a (by simp)).1 hma
          refine (hrank _ (hsub a (.inl rfl) _ hm) x (by simp)).2 (hma'.trans_le ?_)
          rw [← not_lt, ← hrank x (by simp) a (by simp), hx]
          simp

theorem FirstBest.unique {m m' : α} {before before' after after' : List α}
    (h : FirstBest beats l m before after) (h' : FirstBest beats l m' before' after') : m = m' := by
  rcases List.append_eq_append_iff.1 (h.split.symm.trans h'.split) with
    ⟨mid, hbefore, hafter⟩ | ⟨mid, hbefore, hafter⟩
  · obtain _ | ⟨b, mid⟩ := mid
    · exact (List.cons.inj hafter).1
    · obtain ⟨rfl, htail⟩ := List.cons.inj hafter
      have hbeats := h'.before m (by rw [hbefore]; simp)
      rw [h.after m' (htail ▸ List.mem_append_right _ List.mem_cons_self)] at hbeats
      cases hbeats
  · obtain _ | ⟨b, mid⟩ := mid
    · exact (List.cons.inj hafter).1.symm
    · obtain ⟨rfl, htail⟩ := List.cons.inj hafter
      have hbeats := h.before m' (by rw [hbefore]; simp)
      rw [h'.after m (htail ▸ List.mem_append_right _ List.mem_cons_self)] at hbeats
      cases hbeats

/-- The fold ends at an element of a kind just where the first of the best is one. -/
theorem foldl_better_iff {a : α} (h : Ranked beats (a :: l)) (p : α → Prop) :
    p (l.foldl (better beats) a) ↔
      ∃ m before after, FirstBest beats (a :: l) m before after ∧ p m := by
  obtain ⟨before, after, hfirst⟩ := foldl_better h
  constructor
  · exact fun hp => ⟨_, before, after, hfirst, hp⟩
  · rintro ⟨m, _, _, hm, hp⟩
    rwa [hfirst.unique hm]

end Extremum
