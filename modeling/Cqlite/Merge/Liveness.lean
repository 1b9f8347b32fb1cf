import Mathlib.Data.Int.ConditionallyCompleteOrder
import Mathlib.Order.ConditionallyCompleteLattice.Indexed
import Mathlib.Order.WithBot
import Cqlite.Merge.ReconcileSpec

/-! The algebra of row markers.

    `RowLiveness::merge` is the maximum of the order (timestamp, expiry with "never" on top), absent
    markers below everything: folding it over a group is independent of order and grouping. -/

namespace Cqlite

variable {ts : Int}

namespace RowLiveness

/-- Expiry order: a marker without expiry outlives every other. -/
def expiryRank (l : RowLiveness) : WithTop Int :=
  match l.expiresAtSeconds with
  | none => ⊤
  | some s => (s : WithTop Int)

/-- The order behind `merge`; `⊥` when there is no marker. -/
def rank (l : RowLiveness) : WithBot (Int ×ₗ WithTop Int) :=
  match l.markerTimestamp with
  | none => ⊥
  | some ts => ((toLex (ts, l.expiryRank) : Int ×ₗ WithTop Int) : WithBot _)

/-- A liveness as `merge` produces it: the empty one, or one with a marker. -/
def Normal (l : RowLiveness) : Prop := l.hasMarker = false → l = empty

theorem normal_empty : empty.Normal := fun _ => rfl

theorem merge_normal (a b : RowLiveness) : (a.merge b).Normal := by
  unfold merge Normal
  intro h
  cases ha : a.hasMarker <;> cases hb : b.hasMarker <;> simp_all
  split at h <;> simp_all

variable {l a b : RowLiveness}

theorem rank_eq_bot (h : l.hasMarker = false) : l.rank = ⊥ := by
  simp [rank, markerTimestamp_eq_none h]

theorem rank_of_marker (h : l.markerTimestamp = some ts) :
    l.rank = ((toLex (ts, l.expiryRank) : Int ×ₗ WithTop Int) : WithBot _) := by
  simp [rank, h]

/-- The rank tells normal liveness apart. -/
theorem Normal.ext (ha : a.Normal) (hb : b.Normal) (h : a.rank = b.rank) : a = b := by
  cases hma : a.hasMarker with
  | false =>
    cases hmb : b.hasMarker with
    | false => rw [ha hma, hb hmb]
    | true =>
      obtain ⟨ts, hts⟩ := exists_markerTimestamp hmb
      rw [rank_eq_bot hma, rank_of_marker hts] at h
      simp at h
  | true =>
    obtain ⟨x, hx⟩ := exists_markerTimestamp hma
    cases hmb : b.hasMarker with
    | false =>
      rw [rank_eq_bot hmb, rank_of_marker hx] at h
      simp at h
    | true =>
      obtain ⟨y, hy⟩ := exists_markerTimestamp hmb
      rw [rank_of_marker hx, rank_of_marker hy, WithBot.coe_inj, toLex_inj, Prod.mk.injEq] at h
      obtain ⟨hts, hexp⟩ := h
      have hexp' : a.expiresAtSeconds = b.expiresAtSeconds := by
        unfold expiryRank at hexp
        cases hea : a.expiresAtSeconds <;> cases heb : b.expiresAtSeconds <;>
          simp_all
      have hts' : a.markerTimestamp = b.markerTimestamp := by rw [hx, hy, hts]
      cases a
      cases b
      simp_all

/-- The left marker wins exactly when it is not below the right one. -/
theorem selfWins_iff {x y : Int} (ha : a.markerTimestamp = some x) (hb : b.markerTimestamp = some y) :
    selfWins a b = true ↔ b.rank ≤ a.rank := by
  rw [rank_of_marker ha, rank_of_marker hb, WithBot.coe_le_coe, Prod.Lex.toLex_le_toLex]
  unfold selfWins expiryRank
  simp only [ha, hb]
  by_cases hxy : x = y
  · subst hxy
    cases a.expiresAtSeconds <;> cases b.expiresAtSeconds <;> simp
  · have hyx : y ≠ x := fun h => hxy h.symm
    simp [hxy, hyx]

theorem rank_merge (a b : RowLiveness) : (a.merge b).rank = max a.rank b.rank := by
  unfold merge
  cases ha : a.hasMarker with
  | false =>
    cases hb : b.hasMarker with
    | false => simp [rank_eq_bot ha, rank_eq_bot hb, rank_eq_bot (l := empty) rfl]
    | true => simp [rank_eq_bot ha]
  | true =>
    cases hb : b.hasMarker with
    | false => simp [rank_eq_bot hb]
    | true =>
      obtain ⟨x, hx⟩ := exists_markerTimestamp ha
      obtain ⟨y, hy⟩ := exists_markerTimestamp hb
      by_cases hw : selfWins a b = true
      · simp [hw, max_eq_left ((selfWins_iff hx hy).mp hw)]
      · have hle := le_of_not_ge (mt (selfWins_iff hx hy).mpr hw)
        simp [hw, max_eq_right hle]

theorem merge_right_comm (l a b : RowLiveness) : (l.merge a).merge b = (l.merge b).merge a := by
  refine Normal.ext (merge_normal _ _) (merge_normal _ _) ?_
  simp only [rank_merge, max_right_comm]

/-- The newer of two markers. -/
theorem markerTimestamp_merge :
    (a.merge b).markerTimestamp = some ts ↔
      (a.markerTimestamp = some ts ∧ ∀ y ∈ b.markerTimestamp, y ≤ ts) ∨
      (b.markerTimestamp = some ts ∧ ∀ x ∈ a.markerTimestamp, x ≤ ts) := by
  unfold merge
  cases ha : a.hasMarker with
  | false =>
    have hx := markerTimestamp_eq_none ha
    cases hb : b.hasMarker with
    | false => simp [hx, markerTimestamp_eq_none hb, empty]
    | true => simp [hx]
  | true =>
    obtain ⟨x, hx⟩ := exists_markerTimestamp ha
    cases hb : b.hasMarker with
    | false => simp [markerTimestamp_eq_none hb]
    | true =>
      obtain ⟨y, hy⟩ := exists_markerTimestamp hb
      -- whoever wins, its timestamp is not smaller
      have hwin : selfWins a b = true → y ≤ x := by
        simp only [selfWins, hx, hy]
        split
        · simpa using fun h : y < x => h.le
        · simp_all
      have hlose : ¬ selfWins a b = true → x ≤ y := by
        simp only [selfWins, hx, hy]
        split <;> simp_all
      by_cases hw : selfWins a b = true
      · have := hwin hw
        simp only [hw, if_true, hx, hy, Option.some.injEq, Option.mem_def, forall_eq']
        omega
      · have := hlose hw
        simp only [hw, Bool.false_eq_true, if_false, hx, hy, Option.some.injEq, Option.mem_def,
          forall_eq']
        omega

theorem empty_merge (h : l.Normal) : empty.merge l = l := by
  refine Normal.ext (merge_normal _ _) h ?_
  rw [rank_merge, rank_eq_bot rfl, max_eq_right bot_le]

end RowLiveness

/-! ### The marker of a group -/

theorem groupLiveness_normal (rows : List MergeEntry) : (groupLiveness rows).Normal := by
  induction rows using List.reverseRecOn with
  | nil => exact RowLiveness.normal_empty
  | append_singleton rows e _ =>
    simp only [groupLiveness, List.foldl_append, List.foldl_cons, List.foldl_nil]
    exact RowLiveness.merge_normal _ _

variable {rows : List MergeEntry}

theorem rank_le_groupLiveness {e : MergeEntry} (he : e ∈ rows) :
    e.rowLiveness.rank ≤ (groupLiveness rows).rank := by
  induction rows using List.reverseRecOn with
  | nil => simp at he
  | append_singleton rows e' ih =>
    simp only [groupLiveness, List.foldl_append, List.foldl_cons, List.foldl_nil,
      RowLiveness.rank_merge]
    rcases List.mem_append.mp he with h | h
    · exact le_max_of_le_left (ih h)
    · rw [List.mem_singleton.mp h]; exact le_max_right _ _

theorem groupLiveness_perm {rows rows' : List MergeEntry} (h : rows.Perm rows') :
    groupLiveness rows = groupLiveness rows' :=
  h.foldl_eq' (fun a _ b _ l => RowLiveness.merge_right_comm l a.rowLiveness b.rowLiveness) _

/-- A group continues the fold from the merged marker of its first block. -/
theorem groupLiveness_append (A B : List MergeEntry) :
    groupLiveness (A ++ B) = B.foldl (fun l e => l.merge e.rowLiveness) (groupLiveness A) := by
  simp [groupLiveness]

/-- The timestamp-winning marker across the entries. -/
def WinningMarker (rows : List MergeEntry) (ts : Int) : Prop :=
  (∃ e ∈ rows, e.rowLiveness.markerTimestamp = some ts) ∧
    ∀ e ∈ rows, ∀ ts' ∈ e.rowLiveness.markerTimestamp, ts' ≤ ts

theorem WinningMarker.unique {x y : Int} (hx : WinningMarker rows x) (hy : WinningMarker rows y) :
    x = y := by
  obtain ⟨⟨a, ha, hax⟩, hxmax⟩ := hx
  obtain ⟨⟨b, hb, hby⟩, hymax⟩ := hy
  exact le_antisymm (hymax a ha x hax) (hxmax b hb y hby)

/-- The marker of a group is its newest one. -/
theorem groupLiveness_markerTimestamp :
    (groupLiveness rows).markerTimestamp = some ts ↔ WinningMarker rows ts := by
  induction rows using List.reverseRecOn generalizing ts with
  | nil => simp [groupLiveness, RowLiveness.empty, WinningMarker]
  | append_singleton rows e ih =>
    have hstep : groupLiveness (rows ++ [e]) = (groupLiveness rows).merge e.rowLiveness := by
      simp [groupLiveness]
    have hbound : (∀ x ∈ (groupLiveness rows).markerTimestamp, x ≤ ts) ↔
        ∀ e' ∈ rows, ∀ ts' ∈ e'.rowLiveness.markerTimestamp, ts' ≤ ts := by
      constructor
      · intro h e' he' ts' hts'
        cases hm : (groupLiveness rows).markerTimestamp with
        | some x => exact ((ih.mp hm).2 e' he' ts' hts').trans (h x hm)
        | none =>
          -- a group with a marker has a winning one
          have hrank : e'.rowLiveness.rank ≤ (groupLiveness rows).rank :=
            rank_le_groupLiveness he'
          rw [RowLiveness.rank_of_marker hts', RowLiveness.rank, hm] at hrank
          simp at hrank
      · intro h x hx
        obtain ⟨⟨e', he', hx'⟩, -⟩ := ih.mp hx
        exact h e' he' x hx'
    rw [hstep, RowLiveness.markerTimestamp_merge, hbound, ih]
    constructor
    · rintro (⟨⟨⟨e', he', hm⟩, hall⟩, hlast⟩ | ⟨hm, hall⟩)
      · refine ⟨⟨e', by simp [he'], hm⟩, fun e'' he'' => ?_⟩
        rcases List.mem_append.mp he'' with h | h
        · exact hall e'' h
        · rw [List.mem_singleton.mp h]; exact hlast
      · refine ⟨⟨e, by simp, hm⟩, fun e'' he'' => ?_⟩
        rcases List.mem_append.mp he'' with h | h
        · exact hall e'' h
        · rw [List.mem_singleton.mp h, hm]; simp
    · rintro ⟨⟨e', he', hm⟩, hall⟩
      rcases List.mem_append.mp he' with h | h
      · exact .inl ⟨⟨⟨e', h, hm⟩, fun e'' he'' => hall e'' (by simp [he''])⟩, hall e (by simp)⟩
      · rw [List.mem_singleton.mp h] at hm
        exact .inr ⟨hm, fun e'' he'' => hall e'' (by simp [he''])⟩

end Cqlite
