import Mathlib.Algebra.Order.Ring.Int
import Mathlib.Data.List.Induction
import Mathlib.Data.List.Nodup
import Mathlib.Data.List.Pairwise
import Mathlib.Order.Defs.LinearOrder
import Mathlib.Order.Basic

/-! Last-write-wins registers and keyed registers.

    A register keeps one write; a later write replaces it only when it `wins` strictly. When `wins`
    is the strict order of some `rank`, the write that is kept is the FIRST one of maximal rank, and
    everything below is phrased through that characterization (`IsWinner`): it splits over
    concatenation, so it composes, and it does not depend on the order once no two writes tie. -/

namespace Lww

/-! ### One register -/

section Register

variable {α ρ : Type*} (wins : α → α → Bool)

/-- One write against the current content of the register. -/
def join : Option α → α → Option α
  | none, a => some a
  | some w, a => if wins a w then some a else some w

/-- The register after all writes of `xs`. -/
def latest (xs : List α) : Option α := xs.foldl (join wins) none

@[simp] theorem latest_nil : latest wins ([] : List α) = none := rfl

@[simp] theorem latest_concat (xs : List α) (a : α) :
    latest wins (xs ++ [a]) = join wins (latest wins xs) a := by
  simp [latest]

theorem latest_eq_none {xs : List α} : latest wins xs = none ↔ xs = [] := by
  induction xs using List.reverseRecOn with
  | nil => simp
  | append_singleton xs a _ =>
    rw [latest_concat]
    cases latest wins xs with
    | none => simp [join]
    | some w => simp only [join]; split <;> simp

variable [LinearOrder ρ] (rank : α → ρ)

/-- `w` is the first write of maximal rank in `xs`. -/
def IsFirstMax (xs : List α) (w : α) : Prop :=
  ∃ pre post, xs = pre ++ w :: post ∧ (∀ a ∈ pre, rank a < rank w) ∧ ∀ a ∈ post, rank a ≤ rank w

variable {wins rank} {xs ys : List α} {v w a : α}

theorem IsFirstMax.mem (h : IsFirstMax rank xs w) : w ∈ xs := by
  obtain ⟨pre, post, rfl, -, -⟩ := h
  simp

theorem IsFirstMax.le (h : IsFirstMax rank xs w) (ha : a ∈ xs) :
    rank a ≤ rank w := by
  obtain ⟨pre, post, rfl, hpre, hpost⟩ := h
  rcases List.mem_append.mp ha with ha | ha
  · exact (hpre a ha).le
  · rcases List.mem_cons.mp ha with rfl | ha
    · exact le_rfl
    · exact hpost a ha

/-- First maxima split over concatenation: the left block wins ties. -/
theorem isFirstMax_append :
    IsFirstMax rank (xs ++ ys) w ↔
      (IsFirstMax rank xs w ∧ ∀ b ∈ ys, rank b ≤ rank w) ∨
      (IsFirstMax rank ys w ∧ ∀ a ∈ xs, rank a < rank w) := by
  constructor
  · rintro ⟨pre, post, heq, hpre, hpost⟩
    rcases List.append_eq_append_iff.mp heq with ⟨as, rfl, hys⟩ | ⟨bs, rfl, hbs⟩
    · -- `w` lies in the right block
      exact .inr ⟨⟨as, post, hys, fun a ha => hpre a (by simp [ha]), hpost⟩,
        fun a ha => hpre a (by simp [ha])⟩
    · -- `w` starts the tail of the left block, or the right block when that tail is empty
      cases bs with
      | nil =>
        have hys : ys = w :: post := by simpa using hbs.symm
        exact .inr ⟨⟨[], post, by simp [hys], by simp, hpost⟩,
          fun a ha => hpre a (by simpa using ha)⟩
      | cons b bs =>
        obtain ⟨rfl, rfl⟩ : w = b ∧ post = bs ++ ys := by simpa using hbs
        exact .inl ⟨⟨pre, bs, rfl, hpre, fun a ha => hpost a (by simp [ha])⟩,
          fun b hb => hpost b (by simp [hb])⟩
  · rintro (⟨⟨pre, post, rfl, hpre, hpost⟩, hys⟩ | ⟨⟨pre, post, rfl, hpre, hpost⟩, hxs⟩)
    · refine ⟨pre, post ++ ys, by simp, hpre, fun a ha => ?_⟩
      exact (List.mem_append.mp ha).elim (hpost a) (hys a)
    · refine ⟨xs ++ pre, post, by simp, fun a ha => ?_, hpost⟩
      exact (List.mem_append.mp ha).elim (hxs a) (hpre a)

theorem isFirstMax_singleton : IsFirstMax rank [a] w ↔ w = a := by
  constructor
  · intro h; simpa using h.mem
  · rintro rfl; exact ⟨[], [], by simp, by simp, by simp⟩

theorem IsFirstMax.unique (hv : IsFirstMax rank xs v)
    (hw : IsFirstMax rank xs w) : v = w := by
  induction xs using List.reverseRecOn with
  | nil => simpa using hv.mem
  | append_singleton xs a ih =>
    rw [isFirstMax_append, isFirstMax_singleton] at hv hw
    rcases hv with ⟨hv, hva⟩ | ⟨rfl, hv⟩ <;> rcases hw with ⟨hw, hwa⟩ | ⟨rfl, hw⟩
    · exact ih hv hw
    · exact absurd (hw v hv.mem) (not_lt.mpr (hva w (by simp)))
    · exact absurd (hv w hw.mem) (not_lt.mpr (hwa v (by simp)))
    · rfl

variable (hwins : ∀ a b, wins a b = true ↔ rank b < rank a)

include hwins

/-- The register keeps the first write of highest rank. -/
theorem latest_eq_some :
    latest wins xs = some w ↔ IsFirstMax rank xs w := by
  induction xs using List.reverseRecOn generalizing w with
  | nil => simpa using fun h : IsFirstMax rank [] w => by simpa using h.mem
  | append_singleton xs a ih =>
    rw [latest_concat, isFirstMax_append, isFirstMax_singleton]
    cases hl : latest wins xs with
    | none =>
      have hxs : xs = [] := (latest_eq_none wins).mp hl
      subst hxs
      simp only [join, Option.some.injEq, List.not_mem_nil, false_implies, implies_true, and_true]
      constructor
      · rintro rfl; exact .inr rfl
      · rintro (⟨h, -⟩ | rfl)
        · exact absurd h.mem (by simp)
        · rfl
    | some v =>
      have hv : IsFirstMax rank xs v := ih.mp hl
      by_cases hav : rank v < rank a
      · have : join wins (some v) a = some a := by simp [join, (hwins a v).mpr hav]
        rw [this, Option.some.injEq]
        constructor
        · rintro rfl; exact .inr ⟨rfl, fun b hb => lt_of_le_of_lt (hv.le hb) hav⟩
        · rintro (⟨h, ha⟩ | ⟨rfl, -⟩)
          · obtain rfl := hv.unique h
            exact absurd hav (not_lt.mpr (ha a (by simp)))
          · rfl
      · have : join wins (some v) a = some v := by
          have : wins a v ≠ true := fun h => hav ((hwins a v).mp h)
          simp [join, this]
        rw [this, Option.some.injEq]
        constructor
        · rintro rfl
          exact .inl ⟨hv, fun b hb => by rw [List.mem_singleton.mp hb]; exact not_lt.mp hav⟩
        · rintro (⟨h, -⟩ | ⟨rfl, h⟩)
          · exact hv.unique h
          · exact absurd (h v hv.mem) hav

theorem latest_mem (h : latest wins xs = some w) : w ∈ xs :=
  ((latest_eq_some hwins).mp h).mem

theorem le_latest (h : latest wins xs = some w) (ha : a ∈ xs) :
    rank a ≤ rank w :=
  ((latest_eq_some hwins).mp h).le ha

omit hwins in
/-- Replacing a block by the write it leaves in the register changes nothing. -/
theorem latest_toList_append (xs ys : List α) :
    latest wins ((latest wins xs).toList ++ ys) = latest wins (xs ++ ys) := by
  simp only [latest, List.foldl_append]
  congr 1
  cases h : xs.foldl (join wins) none <;> rfl

omit hwins in
/-- A register of images, when the comparison looks through the map. -/
theorem latest_map {β : Type*} {wins' : β → β → Bool} {f : α → β}
    (hf : ∀ a b, wins' (f a) (f b) = wins a b) (xs : List α) :
    latest wins' (xs.map f) = (latest wins xs).map f := by
  induction xs using List.reverseRecOn with
  | nil => rfl
  | append_singleton xs a ih =>
    rw [List.map_append, List.map_singleton, latest_concat, latest_concat, ih]
    cases latest wins xs with
    | none => rfl
    | some w =>
      simp only [Option.map_some, join, hf]
      split <;> rfl

/-- Without ties the register does not depend on the order of the writes. -/
theorem latest_eq_some_of_noTies
    (hties : ∀ a ∈ xs, ∀ b ∈ xs, rank a = rank b → a = b) :
    latest wins xs = some w ↔ w ∈ xs ∧ ∀ a ∈ xs, rank a ≤ rank w := by
  rw [latest_eq_some hwins]
  constructor
  · exact fun h => ⟨h.mem, fun a ha => h.le ha⟩
  · rintro ⟨hw, hle⟩
    cases hl : latest wins xs with
    | none => rw [(latest_eq_none wins).mp hl] at hw; simp at hw
    | some v =>
      have hv := (latest_eq_some hwins).mp hl
      rwa [← hties v hv.mem w hw (le_antisymm (hle v hv.mem) (hv.le hw))]

/-- Without ties, permuting the writes leaves the register as it is. -/
theorem latest_perm (h : xs.Perm ys)
    (hties : ∀ a ∈ ys, ∀ b ∈ ys, rank a = rank b → a = b) : latest wins xs = latest wins ys := by
  refine Option.ext fun w => ?_
  rw [latest_eq_some_of_noTies hwins hties, latest_eq_some_of_noTies hwins
    fun a ha b hb => hties a (h.mem_iff.mp ha) b (h.mem_iff.mp hb)]
  simp only [h.mem_iff]

end Register

/-! ### Registers that prefer the later of two equal writes -/

section Later

variable {α ρ : Type*} {wins : α → α → Bool} [LinearOrder ρ] {rank : α → ρ}
  {xs : List α} {v w a : α}

/-- `w` is the last write of maximal rank in `xs`. -/
def IsLastMax (rank : α → ρ) (xs : List α) (w : α) : Prop :=
  ∃ pre post, xs = pre ++ w :: post ∧ (∀ a ∈ pre, rank a ≤ rank w) ∧ ∀ a ∈ post, rank a < rank w

theorem IsLastMax.mem (h : IsLastMax rank xs w) : w ∈ xs := by
  obtain ⟨pre, post, rfl, -, -⟩ := h
  simp

theorem IsLastMax.le (h : IsLastMax rank xs w) (ha : a ∈ xs) :
    rank a ≤ rank w := by
  obtain ⟨pre, post, rfl, hpre, hpost⟩ := h
  rcases List.mem_append.mp ha with ha | ha
  · exact hpre a ha
  · rcases List.mem_cons.mp ha with rfl | ha
    · exact le_rfl
    · exact (hpost a ha).le

/-- A new write is the last maximum exactly when nothing is above it. -/
theorem isLastMax_concat :
    IsLastMax rank (xs ++ [a]) w ↔
      (w = a ∧ ∀ b ∈ xs, rank b ≤ rank a) ∨ (IsLastMax rank xs w ∧ rank a < rank w) := by
  constructor
  · rintro ⟨pre, post, heq, hpre, hpost⟩
    rcases List.eq_nil_or_concat post with rfl | ⟨post, b, rfl⟩
    · obtain ⟨rfl, rfl⟩ : xs = pre ∧ a = w := by simpa using heq
      exact .inl ⟨rfl, hpre⟩
    · have hsplit : xs = pre ++ w :: post ∧ a = b := by
        rw [List.concat_eq_append, ← List.cons_append, ← List.append_assoc] at heq
        simpa using List.append_inj' heq rfl
      obtain ⟨rfl, rfl⟩ := hsplit
      exact .inr ⟨⟨pre, post, rfl, hpre, fun c hc => hpost c (by simp [hc])⟩, hpost a (by simp)⟩
  · rintro (⟨rfl, hxs⟩ | ⟨⟨pre, post, rfl, hpre, hpost⟩, ha⟩)
    · exact ⟨xs, [], rfl, hxs, by simp⟩
    · refine ⟨pre, post ++ [a], by simp, hpre, fun c hc => ?_⟩
      rcases List.mem_append.mp hc with hc | hc
      · exact hpost c hc
      · rwa [List.mem_singleton.mp hc]

variable (hwins : ∀ a b, wins a b = true ↔ rank b ≤ rank a)

include hwins

theorem latest_eq_some_last :
    latest wins xs = some w ↔ IsLastMax rank xs w := by
  induction xs using List.reverseRecOn generalizing w with
  | nil => simpa using fun h : IsLastMax rank [] w => by simpa using h.mem
  | append_singleton xs a ih =>
    rw [latest_concat, isLastMax_concat]
    cases hl : latest wins xs with
    | none =>
      obtain rfl : xs = [] := (latest_eq_none wins).mp hl
      simp only [join, Option.some.injEq, List.not_mem_nil, false_implies, implies_true, and_true]
      constructor
      · rintro rfl
        exact .inl rfl
      · rintro (rfl | ⟨h, -⟩)
        · rfl
        · exact absurd h.mem (by simp)
    | some v =>
      have hv : IsLastMax rank xs v := ih.mp hl
      by_cases hav : rank v ≤ rank a
      · simp only [join, (hwins a v).mpr hav, if_true, Option.some.injEq]
        constructor
        · rintro rfl
          exact .inl ⟨rfl, fun b hb => (hv.le hb).trans hav⟩
        · rintro (⟨rfl, -⟩ | ⟨h, hlt⟩)
          · rfl
          · exact absurd (lt_of_le_of_lt hav hlt) (not_lt.mpr (hv.le h.mem))
      · have hnot : wins a v = false := by
          rw [← Bool.not_eq_true, hwins]
          exact hav
        simp only [join, hnot, Bool.false_eq_true, if_false, Option.some.injEq]
        constructor
        · rintro rfl
          exact .inr ⟨hv, not_le.mp hav⟩
        · rintro (⟨rfl, hle⟩ | ⟨h, -⟩)
          · exact absurd (hle v hv.mem) hav
          · exact Option.some.inj ((ih.mpr hv).symm.trans (ih.mpr h))

omit hwins in
theorem IsLastMax.unique (hv : IsLastMax rank xs v)
    (hw : IsLastMax rank xs w) : v = w := by
  have hge : ∀ a b : α, decide (rank b ≤ rank a) = true ↔ rank b ≤ rank a := fun a b =>
    decide_eq_true_iff
  exact Option.some.inj (((latest_eq_some_last hge).mpr hv).symm.trans
    ((latest_eq_some_last hge).mpr hw))

end Later

/-! ### A register per key -/

section Keyed

variable {α κ ρ : Type*} [DecidableEq κ] (key : α → κ) (wins : α → α → Bool)

/-- One write against the registers, which keep the order in which their keys were first seen. -/
def upsert : List α → α → List α
  | [], a => [a]
  | w :: ws, a =>
    if key w = key a then (if wins a w then a else w) :: ws else w :: upsert ws a

/-- The registers after all writes of `xs`. -/
def winners (xs : List α) : List α := xs.foldl (upsert key wins) []

@[simp] theorem winners_nil : winners key wins ([] : List α) = [] := rfl

@[simp] theorem winners_concat (xs : List α) (a : α) :
    winners key wins (xs ++ [a]) = upsert key wins (winners key wins xs) a := by
  simp [winners]

variable {key wins} {xs ws : List α} {w a : α}

theorem upsert_subset (h : w ∈ upsert key wins ws a) : w ∈ ws ∨ w = a := by
  induction ws with
  | nil => exact .inr (by simpa [upsert] using h)
  | cons v ws ih =>
    rw [upsert] at h
    split at h
    · rcases List.mem_cons.mp h with rfl | h
      · split
        · exact .inr rfl
        · exact .inl (by simp)
      · exact .inl (by simp [h])
    · rcases List.mem_cons.mp h with rfl | h
      · exact .inl (by simp)
      · exact (ih h).imp (fun h => by simp [h]) id

theorem upsert_pairwise (h : ws.Pairwise (fun v w => key v ≠ key w)) (a : α) :
    (upsert key wins ws a).Pairwise (fun v w => key v ≠ key w) := by
  induction ws with
  | nil => simp [upsert]
  | cons v ws ih =>
    obtain ⟨hv, hws⟩ := List.pairwise_cons.mp h
    rw [upsert]
    split
    · rename_i hva
      refine List.pairwise_cons.mpr ⟨fun w hw => ?_, hws⟩
      split
      · rw [← hva]; exact hv w hw
      · exact hv w hw
    · rename_i hva
      refine List.pairwise_cons.mpr ⟨fun w hw => ?_, ih hws⟩
      rcases upsert_subset hw with hw | rfl
      · exact hv w hw
      · exact hva

theorem winners_pairwise (xs : List α) :
    (winners key wins xs).Pairwise (fun v w => key v ≠ key w) := by
  induction xs using List.reverseRecOn with
  | nil => simp
  | append_singleton xs a ih => rw [winners_concat]; exact upsert_pairwise ih a

theorem mem_of_mem_winners (h : w ∈ winners key wins xs) : w ∈ xs := by
  induction xs using List.reverseRecOn with
  | nil => exact h
  | append_singleton xs a ih =>
    rw [winners_concat] at h
    rcases upsert_subset h with h | rfl
    · exact List.mem_append_left _ (ih h)
    · simp

/-- The registers after one more write. -/
theorem mem_upsert (h : ws.Pairwise (fun v w => key v ≠ key w)) :
    w ∈ upsert key wins ws a ↔
      (w ∈ ws ∧ (key w = key a → wins a w = false)) ∨
      (w = a ∧ ∀ v ∈ ws, key v = key a → wins a v = true) := by
  induction ws with
  | nil => simp [upsert]
  | cons v ws ih =>
    obtain ⟨hv, hws⟩ := List.pairwise_cons.mp h
    rw [upsert]
    by_cases hva : key v = key a
    · -- the register of `a`'s key is `v`; no other register has that key
      have hrest : ∀ u ∈ ws, key u ≠ key a := fun u hu he => hv u hu (hva.trans he.symm)
      rw [if_pos hva]
      cases hwin : wins a v with
      | true =>
        rw [if_pos rfl]
        constructor
        · rintro hw
          rcases List.mem_cons.mp hw with rfl | hw
          · refine .inr ⟨rfl, fun u hu he => ?_⟩
            rcases List.mem_cons.mp hu with rfl | hu
            · exact hwin
            · exact absurd he (hrest u hu)
          · exact .inl ⟨by simp [hw], fun he => absurd he (hrest w hw)⟩
        · rintro (⟨hw, hl⟩ | ⟨rfl, -⟩)
          · rcases List.mem_cons.mp hw with rfl | hw
            · rw [hl hva] at hwin; simp at hwin
            · simp [hw]
          · simp
      | false =>
        rw [if_neg (by simp)]
        constructor
        · intro hw
          refine .inl ⟨hw, fun he => ?_⟩
          rcases List.mem_cons.mp hw with rfl | hw
          · exact hwin
          · exact absurd he (hrest w hw)
        · rintro (⟨hw, -⟩ | ⟨rfl, hl⟩)
          · exact hw
          · rw [hl v (by simp) hva] at hwin; simp at hwin
    · rw [if_neg hva, List.mem_cons, ih hws]
      constructor
      · rintro (rfl | ⟨hw, hl⟩ | ⟨rfl, hl⟩)
        · exact .inl ⟨by simp, fun he => absurd he hva⟩
        · exact .inl ⟨by simp [hw], hl⟩
        · refine .inr ⟨rfl, fun u hu he => ?_⟩
          rcases List.mem_cons.mp hu with rfl | hu
          · exact absurd he hva
          · exact hl u hu he
      · rintro (⟨hw, hl⟩ | ⟨rfl, hl⟩)
        · rcases List.mem_cons.mp hw with rfl | hw
          · exact .inl rfl
          · exact .inr (.inl ⟨hw, hl⟩)
        · exact .inr (.inr ⟨rfl, fun u hu => hl u (by simp [hu])⟩)

/-- A write that loses to the register of its key changes nothing. -/
theorem upsert_of_loses (h : ws.Pairwise (fun v w => key v ≠ key w))
    (hw : w ∈ ws) (hk : key w = key a) (hl : wins a w = false) : upsert key wins ws a = ws := by
  induction ws with
  | nil => simp at hw
  | cons v ws ih =>
    obtain ⟨hv, hws⟩ := List.pairwise_cons.mp h
    rw [upsert]
    rcases List.mem_cons.mp hw with rfl | hw
    · rw [if_pos hk, hl, if_neg (by simp)]
    · rw [if_neg (fun he => hv w hw (he.trans hk.symm)), ih hws hw]

theorem upsert_of_new (h : ∀ w ∈ ws, key w ≠ key a) :
    upsert key wins ws a = ws ++ [a] := by
  induction ws with
  | nil => rfl
  | cons v ws ih =>
    rw [upsert, if_neg (h v (by simp)), ih fun w hw => h w (by simp [hw])]
    rfl

theorem winners_eq_self (h : xs.Pairwise (fun v w => key v ≠ key w)) :
    winners key wins xs = xs := by
  induction xs using List.reverseRecOn with
  | nil => rfl
  | append_singleton xs a ih =>
    obtain ⟨hxs, -, hxa⟩ := List.pairwise_append.mp h
    rw [winners_concat, ih hxs, upsert_of_new fun w hw => hxa w hw a (by simp)]

/-- One write against the register of a key: its own register takes it, the others do not see it. -/
theorem upsert_filter_key (h : ws.Pairwise (fun v w => key v ≠ key w)) (a : α) (k : κ)
    (o : Option α) (ho : ws.filter (fun w => key w = k) = o.toList) :
    (upsert key wins ws a).filter (fun w => key w = k) =
      (if key a = k then join wins o a else o).toList := by
  induction ws generalizing o with
  | nil =>
    obtain rfl : o = none := by cases o <;> simp_all
    by_cases hk : key a = k <;> simp [upsert, join, hk]
  | cons v ws ih =>
    obtain ⟨hv, hws⟩ := List.pairwise_cons.mp h
    rw [upsert]
    by_cases hva : key v = key a
    · -- the register of `a` is `v`
      rw [if_pos hva]
      by_cases hk : key a = k
      · have hrest : ws.filter (fun w => key w = k) = [] :=
          List.filter_eq_nil_iff.mpr fun w hw => by
            simpa using fun he => hv w hw (hva.trans (hk.trans he.symm))
        have hvk : key v = k := hva.trans hk
        rw [List.filter_cons_of_pos (by simpa using hvk), hrest] at ho
        obtain rfl : o = some v := by cases o <;> simp_all
        rw [if_pos hk, join]
        split <;> simp [hk, hvk, hrest]
      · have hvk : key v ≠ k := fun he => hk (hva.symm.trans he)
        rw [List.filter_cons_of_neg (by simpa using hvk)] at ho
        rw [if_neg hk, ← ho]
        split <;> simp [hk, hvk]
    · rw [if_neg hva]
      by_cases hvk : key v = k
      · -- `a` belongs to another register further on
        have hak : key a ≠ k := fun he => hva (hvk.trans he.symm)
        have hrest : ws.filter (fun w => key w = k) = [] :=
          List.filter_eq_nil_iff.mpr fun w hw => by
            simpa using fun he => hv w hw (hvk.trans he.symm)
        have hup := ih hws none (by simpa using hrest)
        rw [if_neg hak] at hup ⊢
        rw [List.filter_cons_of_pos (by simpa using hvk), hup, ← ho,
          List.filter_cons_of_pos (by simpa using hvk), hrest]
        rfl
      · rw [List.filter_cons_of_neg (by simpa using hvk)] at ho ⊢
        exact ih hws o ho

theorem winners_filter_key (xs : List α) (k : κ) :
    (winners key wins xs).filter (fun w => key w = k) =
      (latest wins (xs.filter fun a => key a = k)).toList := by
  induction xs using List.reverseRecOn with
  | nil => rfl
  | append_singleton xs a ih =>
    rw [winners_concat, upsert_filter_key (winners_pairwise xs) a k _ ih, List.filter_append]
    by_cases hk : key a = k
    · simp [hk]
    · simp [hk]

variable [LinearOrder ρ] (key) (rank : α → ρ)

/-- `w` is the first write of maximal rank among the writes of its key. -/
def IsWinner (xs : List α) (w : α) : Prop :=
  IsFirstMax rank (xs.filter (fun a => key a = key w)) w

variable {key rank}

theorem IsWinner.mem (h : IsWinner key rank xs w) : w ∈ xs :=
  (List.mem_filter.mp (IsFirstMax.mem h)).1

theorem IsWinner.le (h : IsWinner key rank xs w) (ha : a ∈ xs)
    (hk : key a = key w) : rank a ≤ rank w :=
  IsFirstMax.le h (List.mem_filter.mpr ⟨ha, by simpa using hk⟩)

variable {ys : List α}

theorem IsWinner.unique {v : α} (hv : IsWinner key rank xs v) (hw : IsWinner key rank xs w)
    (hk : key v = key w) : v = w := by
  unfold IsWinner at hv
  rw [hk] at hv
  exact IsFirstMax.unique hv hw

theorem isWinner_append :
    IsWinner key rank (xs ++ ys) w ↔
      (IsWinner key rank xs w ∧ ∀ b ∈ ys, key b = key w → rank b ≤ rank w) ∨
      (IsWinner key rank ys w ∧ ∀ a ∈ xs, key a = key w → rank a < rank w) := by
  simp only [IsWinner, List.filter_append, isFirstMax_append, List.mem_filter, decide_eq_true_eq,
    and_imp]

theorem isWinner_singleton : IsWinner key rank [a] w ↔ w = a := by
  constructor
  · intro h; simpa using h.mem
  · rintro rfl
    simp [IsWinner, isFirstMax_singleton]

/-- Winners of a list of blocks: the first block with a winner of maximal rank. -/
theorem isWinner_flatMap {β : Type*} {f : β → List α} {bs : List β} :
    IsWinner key rank (bs.flatMap f) w ↔
      ∃ pre b post, bs = pre ++ b :: post ∧ IsWinner key rank (f b) w ∧
        (∀ p ∈ pre, ∀ a ∈ f p, key a = key w → rank a < rank w) ∧
        ∀ p ∈ post, ∀ a ∈ f p, key a = key w → rank a ≤ rank w := by
  induction bs with
  | nil =>
    refine iff_of_false (fun h => by simpa using h.mem) ?_
    rintro ⟨pre, b, post, heq, -⟩
    simp at heq
  | cons b bs ih =>
    rw [List.flatMap_cons, isWinner_append, ih]
    constructor
    · rintro (⟨hw, hle⟩ | ⟨⟨pre, c, post, rfl, hw, hpre, hpost⟩, hlt⟩)
      · exact ⟨[], b, bs, rfl, hw, by simp,
          fun p hp a ha => hle a (List.mem_flatMap.mpr ⟨p, hp, ha⟩)⟩
      · refine ⟨b :: pre, c, post, rfl, hw, fun p hp => ?_, hpost⟩
        rcases List.mem_cons.mp hp with rfl | hp
        · exact hlt
        · exact hpre p hp
    · rintro ⟨pre, c, post, heq, hw, hpre, hpost⟩
      cases pre with
      | nil =>
        obtain ⟨rfl, rfl⟩ : b = c ∧ bs = post := by simpa using heq
        refine .inl ⟨hw, fun a ha => ?_⟩
        obtain ⟨p, hp, ha⟩ := List.mem_flatMap.mp ha
        exact hpost p hp a ha
      | cons p pre =>
        obtain ⟨rfl, rfl⟩ : b = p ∧ bs = pre ++ c :: post := by simpa using heq
        exact .inr ⟨⟨pre, c, post, rfl, hw, fun q hq => hpre q (by simp [hq]), hpost⟩,
          hpre b (by simp)⟩

theorem isWinner_of_forall_eq (hw : w ∈ xs) (h : ∀ a ∈ xs, key a = key w → a = w) :
    IsWinner key rank xs w := by
  have hmem : w ∈ xs.filter fun a => key a = key w := List.mem_filter.mpr ⟨hw, by simp⟩
  have hall : ∀ a ∈ xs.filter (fun a => key a = key w), a = w := fun a ha =>
    h a (List.mem_of_mem_filter ha) (by simpa using (List.mem_filter.mp ha).2)
  unfold IsWinner
  generalize xs.filter (fun a => key a = key w) = ys at hmem hall
  cases ys with
  | nil => cases hmem
  | cons b ys =>
    obtain rfl : b = w := hall b (by simp)
    exact ⟨[], ys, rfl, by simp, fun a ha => by rw [hall a (by simp [ha])]⟩

/-- Without ties a winner is a write of maximal rank, wherever it stands. -/
theorem isWinner_of_noTies (hties : ∀ a ∈ xs, ∀ b ∈ xs, key a = key b → rank a = rank b → a = b) :
    IsWinner key rank xs w ↔ w ∈ xs ∧ ∀ a ∈ xs, key a = key w → rank a ≤ rank w := by
  constructor
  · exact fun h => ⟨h.mem, fun a ha => h.le ha⟩
  · rintro ⟨hw, hle⟩
    induction xs using List.reverseRecOn with
    | nil => simp at hw
    | append_singleton xs a ih =>
      rw [isWinner_append, isWinner_singleton]
      by_cases hwx : w ∈ xs
      · exact .inl ⟨ih (fun a ha b hb => hties a (by simp [ha]) b (by simp [hb])) hwx
          (fun b hb => hle b (by simp [hb])), fun b hb hk => hle b (by simp_all) hk⟩
      · obtain rfl : w = a := by simpa [hwx] using hw
        refine .inr ⟨rfl, fun b hb hk => lt_of_le_of_ne (hle b (by simp [hb]) hk) fun he => hwx ?_⟩
        rwa [← hties b (by simp [hb]) w (by simp) hk he]

theorem isWinner_perm (h : xs.Perm ys)
    (hties : ∀ a ∈ ys, ∀ b ∈ ys, key a = key b → rank a = rank b → a = b) :
    IsWinner key rank xs w ↔ IsWinner key rank ys w := by
  rw [isWinner_of_noTies hties, isWinner_of_noTies
    fun a ha b hb => hties a (h.mem_iff.mp ha) b (h.mem_iff.mp hb)]
  simp only [h.mem_iff]

theorem isWinner_of_pairwise (h : xs.Pairwise (fun v w => key v ≠ key w)) :
    IsWinner key rank xs w ↔ w ∈ xs := by
  have hsymm : Std.Symm (fun v w : α => key v ≠ key w) := ⟨fun _ _ hk he => hk he.symm⟩
  have hkey : ∀ a ∈ xs, ∀ b ∈ xs, key a = key b → a = b := fun a ha b hb hk => by
    by_contra hne
    exact h.forall ha hb hne hk
  rw [isWinner_of_noTies fun a ha b hb hk _ => hkey a ha b hb hk]
  exact ⟨fun h => h.1, fun hw => ⟨hw, fun a ha hk => by rw [hkey a ha w hw hk]⟩⟩

variable (hwins : ∀ a b, wins a b = true ↔ rank b < rank a)

include hwins

theorem exists_winner (ha : a ∈ xs) :
    ∃ w, IsWinner key rank xs w ∧ key w = key a ∧ rank a ≤ rank w := by
  have hmem : a ∈ xs.filter (fun c => key c = key a) := List.mem_filter.mpr ⟨ha, by simp⟩
  cases hl : latest wins (xs.filter (fun c => key c = key a)) with
  | none => rw [(latest_eq_none wins).mp hl] at hmem; simp at hmem
  | some w =>
    have hw := (latest_eq_some hwins).mp hl
    have hk : key w = key a := by simpa using (List.mem_filter.mp hw.mem).2
    exact ⟨w, by unfold IsWinner; rwa [hk], hk, hw.le hmem⟩

theorem mem_winners : w ∈ winners key wins xs ↔ IsWinner key rank xs w := by
  have hfalse : ∀ a b, wins a b = false ↔ rank a ≤ rank b := fun a b => by
    rw [← not_lt, ← hwins, Bool.not_eq_true]
  induction xs using List.reverseRecOn generalizing w with
  | nil => simpa using fun h : IsWinner key rank [] w => by simpa using h.mem
  | append_singleton xs a ih =>
    rw [winners_concat, mem_upsert (winners_pairwise xs), isWinner_append, isWinner_singleton]
    refine or_congr (and_congr ih ?_) (and_congr_right ?_)
    · simp only [hfalse, List.mem_singleton, forall_eq]
      exact ⟨fun h hk => h hk.symm, fun h hk => h hk.symm⟩
    · rintro rfl
      constructor
      · -- a register that `w` beats dominates every earlier write of the key
        intro h b hb hk
        obtain ⟨v, hv, hkv, hbv⟩ : ∃ v, IsWinner key rank xs v ∧ key v = key b ∧ rank b ≤ rank v :=
          exists_winner hwins hb
        have hlt := (hwins w v).mp (h v (ih.mpr hv) (hkv.trans hk))
        exact lt_of_le_of_lt hbv hlt
      · intro h v hv hk
        exact (hwins w v).mpr (h v (ih.mp hv).mem hk)

/-- Replacing a block by a part of its winners keeps every winner `w` that beats what was left
    out. -/
theorem isWinner_append_of_subset {zs : List α} (hzs : ∀ z, z ∈ zs → IsWinner key rank xs z)
    (hout : ∀ v, IsWinner key rank xs v → v ∉ zs → key v = key w → rank v < rank w)
    (hp : zs.Pairwise (fun v w => key v ≠ key w)) :
    IsWinner key rank (zs ++ ys) w ↔ IsWinner key rank (xs ++ ys) w := by
  rw [isWinner_append, isWinner_append, isWinner_of_pairwise hp]
  refine or_congr (and_congr_left fun _ => ⟨hzs w, fun h => ?_⟩) (and_congr_right fun _ => ?_)
  · by_contra hw
    exact lt_irrefl _ (hout w h hw rfl)
  · constructor
    · intro h a ha hk
      obtain ⟨v, hv, hkv, hle⟩ : ∃ v, IsWinner key rank xs v ∧ key v = key a ∧ rank a ≤ rank v :=
        exists_winner hwins ha
      refine lt_of_le_of_lt hle ?_
      by_cases hvz : v ∈ zs
      · exact h v hvz (hkv.trans hk)
      · exact hout v hv hvz (hkv.trans hk)
    · exact fun h z hz hk => h z (hzs z hz).mem hk

theorem isWinner_winners_append :
    IsWinner key rank (winners key wins xs ++ ys) w ↔ IsWinner key rank (xs ++ ys) w :=
  isWinner_append_of_subset hwins (fun _ hz => (mem_winners hwins).mp hz)
    (fun _ hv hnot _ => absurd ((mem_winners hwins).mpr hv) hnot) (winners_pairwise xs)

theorem winners_concat_of_mem (ha : a ∈ xs) :
    winners key wins (xs ++ [a]) = winners key wins xs := by
  obtain ⟨w, hw, hk, hle⟩ : ∃ w, IsWinner key rank xs w ∧ key w = key a ∧ rank a ≤ rank w :=
    exists_winner hwins ha
  have hl : wins a w = false := by
    rw [← Bool.not_eq_true, hwins]
    exact not_lt.mpr hle
  rw [winners_concat, upsert_of_loses (winners_pairwise xs) ((mem_winners hwins).mpr hw) hk hl]

end Keyed

end Lww
