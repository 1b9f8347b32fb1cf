import Mathlib.Data.List.MinMax
import Mathlib.Data.List.Sort
import Cqlite.Lib.Lww

/-! Coalescing weighted intervals into a disjoint sequence.

    An interval is a pair of cut positions with a weight. The axis is divided at every cut that
    occurs, each elementary gap gets the best weight among the intervals that contain it, and
    neighbouring gaps of one weight are joined again. The cuts are compared by a `cmp` that is only
    assumed to be an order on the cuts that occur. -/

namespace Coverage

variable {γ ν : Type*}

/-- An interval between two cuts, with its weight. -/
structure Seg (γ ν : Type*) where
  lo : γ
  hi : γ
  weight : ν

section Algorithm

variable (cmp : γ → γ → Ordering) (better : ν → ν → Bool) [DecidableEq ν]

/-- `a ≤ b` as the code asks it: `cmp(a, b) != Greater`. -/
def le (a b : γ) : Bool := cmp a b != .gt

/-- Drop every element that compares equal to the one kept before it (`dedup_by`). -/
def dedupFrom (prev : γ) : List γ → List γ
  | [] => []
  | c :: cs => if cmp c prev == .eq then dedupFrom prev cs else c :: dedupFrom c cs

def dedup : List γ → List γ
  | [] => []
  | c :: cs => c :: dedupFrom cmp c cs

abbrev boundaries (items : List (Seg γ ν)) : List γ := items.flatMap fun i => [i.lo, i.hi]

/-- Every boundary that occurs, sorted and without repetitions. -/
def cuts (items : List (Seg γ ν)) : List γ := dedup cmp ((boundaries items).mergeSort (le cmp))

/-- The interval contains the gap between `lo` and `hi`. -/
def containsGap (lo hi : γ) (i : Seg γ ν) : Bool := le cmp i.lo lo && le cmp hi i.hi

/-- The best weight over a gap: the current one is kept unless the candidate beats it. -/
def gapWeight (items : List (Seg γ ν)) (lo hi : γ) : Option ν :=
  Lww.latest (fun cand best => !better best cand)
    ((items.filter (containsGap cmp lo hi)).map (·.weight))

/-- The covered gaps between neighbouring cuts. -/
def gapsFrom (items : List (Seg γ ν)) (lo : γ) : List γ → List (Seg γ ν)
  | [] => []
  | hi :: cs =>
    match gapWeight cmp better items lo hi with
    | some w => ⟨lo, hi, w⟩ :: gapsFrom items hi cs
    | none => gapsFrom items hi cs

def gaps (items : List (Seg γ ν)) : List (Seg γ ν) :=
  match cuts cmp items with
  | [] => []
  | c :: cs => gapsFrom cmp better items c cs

/-- Join a run of segments that share boundaries and weight. -/
def joinFrom (last : Seg γ ν) : List (Seg γ ν) → List (Seg γ ν)
  | [] => [last]
  | seg :: segs =>
    if last.weight = seg.weight ∧ cmp last.hi seg.lo = .eq then
      joinFrom { last with hi := seg.hi } segs
    else last :: joinFrom seg segs

def joinAdjacent : List (Seg γ ν) → List (Seg γ ν)
  | [] => []
  | seg :: segs => joinFrom cmp seg segs

def coalesce (items : List (Seg γ ν)) : List (Seg γ ν) :=
  joinAdjacent cmp (gaps cmp better items)

end Algorithm

/-! ### Over a linear order -/

section Theory

variable {L ω : Type*} [LinearOrder L] [LinearOrder ω] {better : ν → ν → Bool} {value : ν → ω}

/-- The half-open interval contains the point. -/
def Covers (x : L) (i : Seg L ν) : Prop := i.lo ≤ x ∧ x < i.hi

/-- The weight in force at a point: the best over the intervals that contain it. -/
def WeightAt (value : ν → ω) (items : List (Seg L ν)) (x : L) (w : ν) : Prop :=
  ∃ i ∈ items, Covers x i ∧ i.weight = w ∧ ∀ j ∈ items, Covers x j → value j.weight ≤ value w

/-- Every interval ends before the next one starts. -/
def InOrder (segs : List (Seg L ν)) : Prop := segs.Pairwise fun s t => s.hi ≤ t.lo

@[simp] theorem inOrder_nil : InOrder ([] : List (Seg L ν)) := List.Pairwise.nil

@[simp] theorem inOrder_singleton (seg : Seg L ν) : InOrder [seg] := List.pairwise_singleton _ _

/-- A disjoint sequence of non-empty intervals in axis order. -/
structure Disjoint (segs : List (Seg L ν)) : Prop where
  nonempty : ∀ s ∈ segs, s.lo < s.hi
  ordered : InOrder segs

theorem le_compare (a b : L) : le compare a b = decide (a ≤ b) := by
  rw [le, Bool.eq_iff_iff, bne_iff_ne, ne_eq, compare_gt_iff_gt, decide_eq_true_eq, not_lt]

/-! ### The cuts -/

theorem dedupFrom_mem {prev : L} {cs : List L} {c : L} :
    c ∈ dedupFrom compare prev cs ∨ c = prev ↔ c ∈ cs ∨ c = prev := by
  induction cs generalizing prev with
  | nil => simp [dedupFrom]
  | cons d cs ih =>
    rw [dedupFrom]
    by_cases hd : d = prev
    · subst hd
      simp only [compare_eq_iff_eq.mpr rfl, beq_self_eq_true, if_true, List.mem_cons]
      rw [ih]
      tauto
    · have hne : (compare d prev == Ordering.eq) = false := by
        simpa using hd
      simp only [hne, Bool.false_eq_true, if_false, List.mem_cons]
      have := @ih d
      tauto

theorem dedupFrom_sorted {prev : L} {cs : List L} (h : (prev :: cs).Pairwise (· ≤ ·)) :
    (prev :: dedupFrom compare prev cs).Pairwise (· < ·) := by
  induction cs generalizing prev with
  | nil => simp [dedupFrom]
  | cons d cs ih =>
    obtain ⟨hprev, hcs⟩ := List.pairwise_cons.mp h
    rw [dedupFrom]
    by_cases hd : d = prev
    · subst hd
      simp only [compare_eq_iff_eq.mpr rfl, beq_self_eq_true, if_true]
      exact ih hcs
    · have hne : (compare d prev == Ordering.eq) = false := by simpa using hd
      simp only [hne, Bool.false_eq_true, if_false]
      have hlt : prev < d := lt_of_le_of_ne (hprev d (by simp)) (Ne.symm hd)
      have htail := ih hcs
      refine List.pairwise_cons.mpr ⟨fun c hc => ?_, htail⟩
      rcases List.mem_cons.mp hc with rfl | hc
      · exact hlt
      · exact hlt.trans ((List.pairwise_cons.mp htail).1 c hc)

variable {items : List (Seg L ν)}

/-- The cuts are the boundaries that occur. -/
theorem mem_cuts {c : L} :
    c ∈ cuts compare items ↔ ∃ i ∈ items, c = i.lo ∨ c = i.hi := by
  have hsort : c ∈ (boundaries items).mergeSort (le compare) ↔
      ∃ i ∈ items, c = i.lo ∨ c = i.hi := by
    rw [List.mem_mergeSort]
    simp
  rw [← hsort, cuts]
  cases (boundaries items).mergeSort (le compare) with
  | nil => simp [dedup]
  | cons d cs =>
    simp only [dedup, List.mem_cons]
    have := @dedupFrom_mem _ _ d cs c
    tauto

theorem cuts_sorted (items : List (Seg L ν)) : (cuts compare items).Pairwise (· < ·) := by
  have hsort : ((boundaries items).mergeSort (le compare)).Pairwise (· ≤ ·) := by
    have hle : ((boundaries items).mergeSort (le compare)).Pairwise
        (fun a b => le compare a b = true) :=
      List.pairwise_mergeSort
        (fun a b c => by simp only [le_compare, decide_eq_true_eq]; exact le_trans)
        (fun a b => by
          simp only [le_compare, Bool.or_eq_true, decide_eq_true_eq]
          exact le_total a b) _
    exact hle.imp (by simp [le_compare])
  unfold cuts
  generalize (boundaries items).mergeSort (le compare) = l at hsort
  cases l with
  | nil => simp [dedup]
  | cons d cs => exact dedupFrom_sorted hsort

/-! ### The gaps -/

theorem containsGap_compare (lo hi : L) (i : Seg L ν) :
    containsGap compare lo hi i = true ↔ i.lo ≤ lo ∧ hi ≤ i.hi := by
  simp [containsGap, le_compare]

/-- No boundary of an item lies strictly inside `(lo, hi)`. -/
def IsGap (items : List (Seg L ν)) (lo hi : L) : Prop :=
  lo < hi ∧ ∀ i ∈ items, (i.lo ≤ lo ∨ hi ≤ i.lo) ∧ (i.hi ≤ lo ∨ hi ≤ i.hi)

variable {x : L} {w : ν} {seg : Seg L ν} {segs : List (Seg L ν)}

theorem IsGap.covers_iff {lo hi : L} (h : IsGap items lo hi) (hlo : lo ≤ x) (hhi : x < hi)
    {i : Seg L ν} (hi' : i ∈ items) : Covers x i ↔ i.lo ≤ lo ∧ hi ≤ i.hi := by
  obtain ⟨h₁, h₂⟩ := h.2 i hi'
  constructor
  · rintro ⟨hl, hr⟩
    refine ⟨h₁.resolve_right fun hle => ?_, h₂.resolve_left fun hle => ?_⟩
    · exact absurd (hle.trans hl) (not_le.mpr hhi)
    · exact absurd hr (not_lt.mpr (hle.trans hlo))
  · rintro ⟨hl, hr⟩
    exact ⟨hl.trans hlo, lt_of_lt_of_le hhi hr⟩

variable (hbetter : ∀ b w, better b w = true ↔ value w ≤ value b)
  (hvalue : Function.Injective value)

include hbetter hvalue

/-- The weight of a gap is the weight in force at each of its points. -/
theorem gapWeight_eq_some {lo hi : L} (h : IsGap items lo hi) (hlo : lo ≤ x) (hhi : x < hi) :
    gapWeight compare better items lo hi = some w ↔ WeightAt value items x w := by
  have hwins : ∀ a b, (!better b a) = true ↔ value b < value a := fun a b => by
    rw [Bool.not_eq_true', ← Bool.not_eq_true, hbetter, not_le]
  unfold gapWeight WeightAt
  rw [Lww.latest_eq_some_of_noTies hwins fun a _ b _ he => hvalue he]
  simp only [List.mem_map, List.mem_filter, containsGap_compare]
  constructor
  · rintro ⟨⟨i, ⟨hi', hc⟩, rfl⟩, hmax⟩
    refine ⟨i, hi', (h.covers_iff hlo hhi hi').mpr hc, rfl, fun j hj hjc => ?_⟩
    exact hmax _ ⟨j, ⟨hj, (h.covers_iff hlo hhi hj).mp hjc⟩, rfl⟩
  · rintro ⟨i, hi', hc, rfl, hmax⟩
    refine ⟨⟨i, ⟨hi', (h.covers_iff hlo hhi hi').mp hc⟩, rfl⟩, ?_⟩
    rintro _ ⟨j, ⟨hj, hjc⟩, rfl⟩
    exact hmax j hj ((h.covers_iff hlo hhi hj).mpr hjc)

/-- The gaps from `c` on: each covered one carries the weight in force there. -/
theorem gapsFrom_covers {cs : List L} {c : L} (hsorted : (c :: cs).Pairwise (· < ·))
    (hcuts : ∀ i ∈ items, (i.lo ≤ c ∨ i.lo ∈ cs) ∧ (i.hi ≤ c ∨ i.hi ∈ cs)) :
    (∃ seg ∈ gapsFrom compare better items c cs, Covers x seg ∧ seg.weight = w) ↔
      c ≤ x ∧ (∃ c' ∈ cs, x < c') ∧ WeightAt value items x w := by
  induction cs generalizing c with
  | nil => simp [gapsFrom]
  | cons hi cs ih =>
    obtain ⟨hc, hcs⟩ := List.pairwise_cons.mp hsorted
    have hchi : c < hi := hc hi (by simp)
    have hhi : ∀ d ∈ cs, hi < d := (List.pairwise_cons.mp hcs).1
    -- the boundaries at or below `c` are below `hi`, the others are at or above it
    have hcuts' : ∀ i ∈ items, (i.lo ≤ hi ∨ i.lo ∈ cs) ∧ (i.hi ≤ hi ∨ i.hi ∈ cs) := by
      intro i hi'
      obtain ⟨h₁, h₂⟩ := hcuts i hi'
      constructor
      · rcases h₁ with h | h
        · exact .inl (h.trans hchi.le)
        · rcases List.mem_cons.mp h with h | h
          · exact .inl h.le
          · exact .inr h
      · rcases h₂ with h | h
        · exact .inl (h.trans hchi.le)
        · rcases List.mem_cons.mp h with h | h
          · exact .inl h.le
          · exact .inr h
    have hge : ∀ d, d ≤ c ∨ d ∈ hi :: cs → d ≤ c ∨ hi ≤ d := by
      rintro d (h | h)
      · exact .inl h
      · rcases List.mem_cons.mp h with rfl | h
        · exact .inr le_rfl
        · exact .inr (hhi d h).le
    have hgap : IsGap items c hi :=
      ⟨hchi, fun i hi' => ⟨hge _ (hcuts i hi').1, hge _ (hcuts i hi').2⟩⟩
    have hrest := ih hcs hcuts'
    -- inside the first gap, or further right
    by_cases hx : x < hi
    · have hnot : ¬ ∃ seg ∈ gapsFrom compare better items hi cs, Covers x seg ∧ seg.weight = w :=
        fun h => absurd (hrest.mp h).1 (not_le.mpr hx)
      have hhere : c ≤ x → (gapWeight compare better items c hi = some w ↔
          WeightAt value items x w) := fun hcx => gapWeight_eq_some hbetter hvalue hgap hcx hx
      have hex : ∃ c' ∈ hi :: cs, x < c' := ⟨hi, by simp, hx⟩
      simp only [hex, true_and]
      rw [gapsFrom]
      cases hw : gapWeight compare better items c hi with
      | none =>
        simp only [hnot, false_iff]
        rintro ⟨hcx, hwt⟩
        rw [(hhere hcx).mpr hwt] at hw
        simp at hw
      | some w' =>
        simp only [List.mem_cons, exists_eq_or_imp, hnot, or_false]
        simp only [Covers, hx, and_true]
        constructor
        · rintro ⟨hcx, rfl⟩
          exact ⟨hcx, (hhere hcx).mp hw⟩
        · rintro ⟨hcx, hwt⟩
          have := (hhere hcx).mpr hwt
          rw [hw] at this
          exact ⟨hcx, by simpa using this⟩
    · have hx' := not_lt.mp hx
      have hex : (∃ c' ∈ hi :: cs, x < c') ↔ ∃ c' ∈ cs, x < c' := by
        simp [hx]
      rw [hex]
      have hcx : c ≤ x := hchi.le.trans hx'
      simp only [hcx, true_and]
      rw [gapsFrom]
      cases gapWeight compare better items c hi with
      | none => simp only [hrest, hx', true_and]
      | some w' =>
        have hfirst : ¬ Covers x (⟨c, hi, w'⟩ : Seg L ν) := fun h => hx h.2
        simp only [List.mem_cons, exists_eq_or_imp, hfirst, false_and, false_or]
        exact hrest.trans (by simp [hx'])

omit hbetter hvalue in
theorem gapsFrom_disjoint {cs : List L} {c : L} (hsorted : (c :: cs).Pairwise (· < ·)) :
    Disjoint (gapsFrom compare better items c cs) ∧
      ∀ seg ∈ gapsFrom compare better items c cs, c ≤ seg.lo := by
  induction cs generalizing c with
  | nil => exact ⟨⟨by simp [gapsFrom], by simp [gapsFrom]⟩, by simp [gapsFrom]⟩
  | cons hi cs ih =>
    obtain ⟨hc, hcs⟩ := List.pairwise_cons.mp hsorted
    have hchi : c < hi := hc hi (by simp)
    obtain ⟨hdis, hlo⟩ := ih hcs
    rw [gapsFrom]
    split
    · refine ⟨⟨fun seg hseg => ?_, List.pairwise_cons.mpr ⟨hlo, hdis.ordered⟩⟩, fun seg hseg => ?_⟩
      · rcases List.mem_cons.mp hseg with rfl | hseg
        · exact hchi
        · exact hdis.nonempty seg hseg
      · rcases List.mem_cons.mp hseg with rfl | hseg
        · exact le_rfl
        · exact hchi.le.trans (hlo seg hseg)
    · exact ⟨hdis, fun seg hseg => hchi.le.trans (hlo seg hseg)⟩

omit hbetter hvalue in
theorem gaps_disjoint (items : List (Seg L ν)) : Disjoint (gaps compare better items) := by
  unfold gaps
  have hsorted := cuts_sorted items
  cases hc : cuts compare items with
  | nil => exact ⟨by simp, by simp⟩
  | cons c cs =>
    rw [hc] at hsorted
    exact (gapsFrom_disjoint hsorted).1

/-- Between the cuts the weight is that of the best interval. -/
theorem gaps_covers :
    (∃ seg ∈ gaps compare better items, Covers x seg ∧ seg.weight = w) ↔
      WeightAt value items x w := by
  have hsorted := cuts_sorted items
  unfold gaps
  cases hcuts : cuts compare items with
  | nil =>
    have hno : ¬ WeightAt value items x w := by
      rintro ⟨i, hi', -⟩
      have := mem_cuts.mpr ⟨i, hi', .inl rfl⟩
      rw [hcuts] at this
      simp at this
    simp [hno]
  | cons c cs =>
    rw [hcuts] at hsorted
    have hin : ∀ d, d ∈ cuts compare items → d ≤ c ∨ d ∈ cs := fun d hd => by
      rw [hcuts] at hd
      exact (List.mem_cons.mp hd).imp le_of_eq id
    rw [gapsFrom_covers hbetter hvalue hsorted fun i hi' =>
      ⟨hin _ (mem_cuts.mpr ⟨i, hi', .inl rfl⟩), hin _ (mem_cuts.mpr ⟨i, hi', .inr rfl⟩)⟩]
    constructor
    · exact fun h => h.2.2
    · -- a covered point lies between the first and the last cut
      intro h
      obtain ⟨i, hi', ⟨hlo, hhi⟩, -⟩ := id h
      have hc : c ≤ x := by
        have hmem : i.lo ∈ c :: cs := by rw [← hcuts]; exact mem_cuts.mpr ⟨i, hi', .inl rfl⟩
        rcases List.mem_cons.mp hmem with h | h
        · rwa [← h]
        · exact ((List.pairwise_cons.mp hsorted).1 _ h).le.trans hlo
      refine ⟨hc, ⟨i.hi, ?_, hhi⟩, h⟩
      have hmem : i.hi ∈ c :: cs := by rw [← hcuts]; exact mem_cuts.mpr ⟨i, hi', .inr rfl⟩
      rcases List.mem_cons.mp hmem with h | h
      · rw [h] at hhi; exact absurd hhi (not_lt.mpr hc)
      · exact h

/-! ### Joining neighbours -/

omit hbetter hvalue

theorem Disjoint.tail (h : Disjoint (seg :: segs)) : Disjoint segs :=
  ⟨fun s hs => h.nonempty s (by simp [hs]), (List.pairwise_cons.mp h.ordered).2⟩

/-- An interval takes in the one that starts where it ends. -/
theorem Disjoint.join {last : Seg L ν} (h : Disjoint (last :: seg :: segs))
    (hhi : last.hi = seg.lo) : Disjoint ({ last with hi := seg.hi } :: segs) := by
  have hrest := List.pairwise_cons.mp (List.pairwise_cons.mp h.ordered).2
  refine ⟨fun s hs => ?_, List.pairwise_cons.mpr hrest⟩
  rcases List.mem_cons.mp hs with rfl | hs
  · exact (h.nonempty last (by simp)).trans (hhi ▸ h.nonempty seg (by simp))
  · exact h.nonempty s (by simp [hs])

theorem InOrder.covers_unique (h : InOrder segs) {s t : Seg L ν} (hs : s ∈ segs) (ht : t ∈ segs)
    (hcs : Covers x s) (hct : Covers x t) : s = t := by
  induction segs with
  | nil => simp at hs
  | cons u segs ih =>
    obtain ⟨hu, htail⟩ := List.pairwise_cons.mp h
    have hlater : ∀ v ∈ segs, Covers x u → ¬ Covers x v := fun v hv hcu hcv =>
      absurd (lt_of_lt_of_le hcu.2 (hu v hv)) (not_lt.mpr hcv.1)
    rcases List.mem_cons.mp hs with rfl | hs' <;> rcases List.mem_cons.mp ht with rfl | ht'
    · rfl
    · exact absurd hct (hlater t ht' hcs)
    · exact absurd hcs (hlater s hs' hct)
    · exact ih htail hs' ht'

/-- In an ordered sequence the weight in force is the weight of the covering interval. -/
theorem InOrder.weightAt_iff (h : InOrder segs) :
    WeightAt value segs x w ↔ ∃ seg ∈ segs, Covers x seg ∧ seg.weight = w := by
  constructor
  · rintro ⟨s, hs, hc, hw, -⟩
    exact ⟨s, hs, hc, hw⟩
  · rintro ⟨s, hs, hc, hw⟩
    refine ⟨s, hs, hc, hw, fun t ht hct => ?_⟩
    rw [← h.covers_unique hs ht hc hct, hw]

theorem InOrder.hi_le (h : InOrder (seg :: segs)) {t : Seg L ν} (ht : t ∈ segs) (hc : Covers x t) :
    seg.hi ≤ x :=
  ((List.pairwise_cons.mp h).1 t ht).trans hc.1

/-- A disjoint sequence in which neighbours that touch differ in weight. -/
structure Canonical (segs : List (Seg L ν)) : Prop extends Disjoint segs where
  separated : segs.Pairwise (fun s t => s.weight = t.weight → s.hi ≠ t.lo)

variable [DecidableEq ν]

/-- Joining starts with an interval of the first one's start and weight. -/
theorem joinFrom_head (last : Seg L ν) (segs : List (Seg L ν)) :
    ∃ hi rest, joinFrom compare last segs = ⟨last.lo, hi, last.weight⟩ :: rest := by
  induction segs generalizing last with
  | nil => exact ⟨last.hi, [], rfl⟩
  | cons seg segs ih =>
    rw [joinFrom]
    split
    · exact ih _
    · exact ⟨last.hi, _, rfl⟩

theorem joinFrom_covers {last : Seg L ν} (h : Disjoint (last :: segs)) :
    (∃ seg ∈ joinFrom compare last segs, Covers x seg ∧ seg.weight = w) ↔
      ∃ seg ∈ last :: segs, Covers x seg ∧ seg.weight = w := by
  induction segs generalizing last with
  | nil => simp [joinFrom]
  | cons seg segs ih =>
    have hne : last.lo < last.hi := h.nonempty last (by simp)
    have hneseg : seg.lo < seg.hi := h.nonempty seg (by simp)
    rw [joinFrom]
    split
    · rename_i hjoin
      obtain ⟨hw, hhi⟩ := hjoin
      rw [compare_eq_iff_eq] at hhi
      rw [ih (h.join hhi)]
      simp only [List.mem_cons, exists_eq_or_imp]
      -- the joined interval is the union of its two parts
      have hunion : Covers x { last with hi := seg.hi } ↔ Covers x last ∨ Covers x seg := by
        simp only [Covers]
        constructor
        · rintro ⟨h₁, h₂⟩
          by_cases hx : x < last.hi
          · exact .inl ⟨h₁, hx⟩
          · exact .inr ⟨hhi ▸ not_lt.mp hx, h₂⟩
        · rintro (⟨h₁, h₂⟩ | ⟨h₁, h₂⟩)
          · exact ⟨h₁, h₂.trans (hhi ▸ hneseg)⟩
          · exact ⟨hne.le.trans (hhi ▸ h₁), h₂⟩
      rw [hunion, ← hw]
      tauto
    · simp only [List.mem_cons, exists_eq_or_imp]
      rw [ih h.tail]
      simp only [List.mem_cons, exists_eq_or_imp]

/-- Joining neighbours makes a disjoint list canonical. -/
theorem joinFrom_canonical {last : Seg L ν} (h : Disjoint (last :: segs)) :
    Canonical (joinFrom compare last segs) ∧
      ∀ lo, lo ≤ last.lo → ∀ seg ∈ joinFrom compare last segs, lo ≤ seg.lo := by
  induction segs generalizing last with
  | nil =>
    refine ⟨⟨⟨?_, by simp [joinFrom]⟩, by simp [joinFrom]⟩, ?_⟩
    · intro s hs
      rw [joinFrom, List.mem_singleton] at hs
      rw [hs]
      exact h.nonempty last (by simp)
    · intro lo hlo s hs
      rw [joinFrom, List.mem_singleton] at hs
      rwa [hs]
  | cons seg segs ih =>
    have hlast := (List.pairwise_cons.mp h.ordered).1
    rw [joinFrom]
    split
    · rename_i hjoin
      exact ih (h.join (compare_eq_iff_eq.1 hjoin.2))
    · rename_i hjoin
      have htouch : last.weight = seg.weight → last.hi ≠ seg.lo := fun hw he =>
        hjoin ⟨hw, compare_eq_iff_eq.mpr he⟩
      obtain ⟨hcan, hlo⟩ := ih h.tail
      obtain ⟨hi, rest, hhead⟩ := joinFrom_head seg segs
      have hfrom := hlo last.hi (hlast seg (by simp))
      refine ⟨⟨⟨fun s hs => ?_, List.pairwise_cons.mpr ⟨hfrom, hcan.ordered⟩⟩,
        List.pairwise_cons.mpr ⟨fun t ht => ?_, hcan.separated⟩⟩, fun lo hl s hs => ?_⟩
      · rcases List.mem_cons.mp hs with rfl | hs
        · exact h.nonempty _ (by simp)
        · exact hcan.nonempty s hs
      · -- only the first of the later intervals can touch, and it has `seg`'s start and weight
        rw [hhead] at ht hcan
        rcases List.mem_cons.mp ht with rfl | ht
        · exact htouch
        · intro _ he
          have h₁ := (List.pairwise_cons.mp hcan.ordered).1 t ht
          have h₂ : seg.lo < hi := hcan.nonempty ⟨seg.lo, hi, seg.weight⟩ (by simp)
          have h₃ := hlast seg (by simp)
          exact absurd (lt_of_le_of_lt h₃ (lt_of_lt_of_le h₂ h₁)) (by rw [he]; exact lt_irrefl _)
      · rcases List.mem_cons.mp hs with rfl | hs
        · exact hl
        · exact hl.trans ((h.nonempty last (by simp)).le.trans (hfrom s hs))

/-! ### Coalescing -/

theorem coalesce_canonical (items : List (Seg L ν)) :
    Canonical (coalesce compare better items) := by
  have hgaps : Disjoint (gaps compare better items) := gaps_disjoint items
  unfold coalesce
  cases hg : gaps compare better items with
  | nil => exact ⟨⟨by simp [joinAdjacent], by simp [joinAdjacent]⟩, by simp [joinAdjacent]⟩
  | cons seg segs =>
    rw [hg] at hgaps
    exact (joinFrom_canonical hgaps).1

include hbetter hvalue

theorem weightAt_coalesce :
    WeightAt value (coalesce compare better items) x w ↔ WeightAt value items x w := by
  rw [(coalesce_canonical items).ordered.weightAt_iff, ← gaps_covers hbetter hvalue]
  have hgaps : Disjoint (gaps compare better items) := gaps_disjoint items
  unfold coalesce
  cases hg : gaps compare better items with
  | nil => simp [joinAdjacent]
  | cons seg segs =>
    rw [hg] at hgaps
    exact joinFrom_covers hgaps

omit [DecidableEq ν] hbetter hvalue

/-! ### Lists that put the same weight everywhere -/

/-- Both lists have the same weight in force at every point. -/
def SameWeight (value : ν → ω) (s t : List (Seg L ν)) : Prop :=
  ∀ x w, WeightAt value s x w ↔ WeightAt value t x w

variable {s t : List (Seg L ν)}

theorem SameWeight.trans {u : List (Seg L ν)} (hst : SameWeight value s t)
    (htu : SameWeight value t u) : SameWeight value s u := fun x w => (hst x w).trans (htu x w)

theorem SameWeight.symm (h : SameWeight value s t) : SameWeight value t s :=
  fun x w => (h x w).symm

/-- A covered point has a weight in force, at least that of the covering interval. -/
theorem exists_weightAt {i : Seg L ν} (hi : i ∈ items) (hc : Covers x i) :
    ∃ w, WeightAt value items x w ∧ value i.weight ≤ value w := by
  classical
  have hmem : i ∈ items.filter fun j => Covers x j := List.mem_filter.mpr ⟨hi, by simpa using hc⟩
  obtain ⟨m, hm⟩ : ∃ m, m ∈ List.argmax (fun j => value j.weight) (items.filter fun j => Covers x j) := by
    cases harg : List.argmax (fun j => value j.weight) (items.filter fun j => Covers x j) with
    | none => rw [List.argmax_eq_none.mp harg] at hmem; simp at hmem
    | some m => exact ⟨m, rfl⟩
  obtain ⟨hm', hcov⟩ := List.mem_filter.mp (List.argmax_mem hm)
  have hle : ∀ j ∈ items.filter (fun j => Covers x j), value j.weight ≤ value m.weight :=
    fun j hj => List.le_of_mem_argmax (f := fun j : Seg L ν => value j.weight) hj hm
  refine ⟨m.weight, ⟨m, hm', by simpa using hcov, rfl, fun j hj hcj => ?_⟩, hle i hmem⟩
  exact hle j (List.mem_filter.mpr ⟨hj, by simpa using hcj⟩)

theorem weightAt_append :
    WeightAt value (s ++ t) x w ↔
      (WeightAt value s x w ∧ ∀ w', WeightAt value t x w' → value w' ≤ value w) ∨
      (WeightAt value t x w ∧ ∀ w', WeightAt value s x w' → value w' ≤ value w) := by
  have hbound : ∀ {u : List (Seg L ν)}, (∀ w', WeightAt value u x w' → value w' ≤ value w) →
      ∀ j ∈ u, Covers x j → value j.weight ≤ value w := fun h j hj hc => by
    obtain ⟨w', hw', hle⟩ : ∃ w', WeightAt value _ x w' ∧ value j.weight ≤ value w' :=
      exists_weightAt hj hc
    exact hle.trans (h w' hw')
  constructor
  · rintro ⟨i, hi, hc, rfl, hmax⟩
    rcases List.mem_append.mp hi with hi | hi
    · refine .inl ⟨⟨i, hi, hc, rfl, fun j hj => hmax j (by simp [hj])⟩, ?_⟩
      rintro w' ⟨j, hj, hcj, rfl, -⟩
      exact hmax j (by simp [hj]) hcj
    · refine .inr ⟨⟨i, hi, hc, rfl, fun j hj => hmax j (by simp [hj])⟩, ?_⟩
      rintro w' ⟨j, hj, hcj, rfl, -⟩
      exact hmax j (by simp [hj]) hcj
  · rintro (⟨⟨i, hi, hc, hw, hmax⟩, hother⟩ | ⟨⟨i, hi, hc, hw, hmax⟩, hother⟩)
    · refine ⟨i, by simp [hi], hc, hw, fun j hj hcj => ?_⟩
      rcases List.mem_append.mp hj with hj | hj
      · exact hmax j hj hcj
      · exact hbound hother j hj hcj
    · refine ⟨i, by simp [hi], hc, hw, fun j hj hcj => ?_⟩
      rcases List.mem_append.mp hj with hj | hj
      · exact hbound hother j hj hcj
      · exact hmax j hj hcj

theorem SameWeight.append (h : SameWeight value s t) (u : List (Seg L ν)) :
    SameWeight value (s ++ u) (t ++ u) := fun x w => by
  simp only [weightAt_append, h x]

/-! ### Canonical sequences are determined by their weights -/

theorem Canonical.tail (h : Canonical (seg :: segs)) : Canonical segs :=
  ⟨h.toDisjoint.tail, (List.pairwise_cons.mp h.separated).2⟩

theorem Disjoint.lo_le (h : Disjoint (seg :: segs)) {t : Seg L ν} (ht : t ∈ seg :: segs)
    (hc : Covers x t) : seg.lo ≤ x := by
  rcases List.mem_cons.mp ht with rfl | ht
  · exact hc.1
  · exact (h.nonempty seg (by simp)).le.trans (h.ordered.hi_le ht hc)

theorem Disjoint.covers_lo (h : Disjoint (seg :: segs)) : Covers seg.lo seg := ⟨le_rfl, h.nonempty seg (by simp)⟩

/-- The first interval of one sequence ends no later than the first one of another sequence with
    the same weights: past its end the weight changes. -/
theorem Canonical.head_hi_le {a b : Seg L ν} (hs : Canonical (a :: s)) (ht : Canonical (b :: t))
    (h : SameWeight value (a :: s) (b :: t)) (hlo : a.lo = b.lo) (hw : a.weight = b.weight) :
    b.hi ≤ a.hi := by
  by_contra hlt
  have hab : a.hi < b.hi := not_le.mp hlt
  have hcov : Covers a.hi b := ⟨hlo ▸ (hs.nonempty a (by simp)).le, hab⟩
  obtain ⟨c, hc, hcc, hcw⟩ := hs.ordered.weightAt_iff.mp
    ((h a.hi b.weight).mpr (ht.ordered.weightAt_iff.mpr ⟨b, by simp, hcov, rfl⟩))
  rcases List.mem_cons.mp hc with rfl | hc
  · exact lt_irrefl _ hcc.2
  · have hle := (List.pairwise_cons.mp hs.ordered).1 c hc
    exact (List.pairwise_cons.mp hs.separated).1 c hc (hw.trans hcw.symm) (le_antisymm hle hcc.1)

/-- A canonical form is determined by the weights. -/
theorem Canonical.eq_of_sameWeight (hs : Canonical s) (ht : Canonical t) (h : SameWeight value s t) :
    s = t := by
  -- the first interval is fixed by the first covered point and its weight, then the tails agree
  induction s generalizing t with
  | nil =>
    cases t with
    | nil => rfl
    | cons b t =>
      obtain ⟨c, hc, -⟩ := (h b.lo b.weight).mpr
        (ht.ordered.weightAt_iff.mpr ⟨b, by simp, ht.toDisjoint.covers_lo, rfl⟩)
      simp at hc
  | cons a s ih =>
    cases t with
    | nil =>
      obtain ⟨c, hc, -⟩ := (h a.lo a.weight).mp
        (hs.ordered.weightAt_iff.mpr ⟨a, by simp, hs.toDisjoint.covers_lo, rfl⟩)
      simp at hc
    | cons b t =>
      obtain ⟨c, hc, hcc, hcw⟩ := ht.ordered.weightAt_iff.mp ((h a.lo a.weight).mp
        (hs.ordered.weightAt_iff.mpr ⟨a, by simp, hs.toDisjoint.covers_lo, rfl⟩))
      obtain ⟨d, hd, hdc, -⟩ := hs.ordered.weightAt_iff.mp ((h b.lo b.weight).mpr
        (ht.ordered.weightAt_iff.mpr ⟨b, by simp, ht.toDisjoint.covers_lo, rfl⟩))
      have hlo : a.lo = b.lo :=
        le_antisymm (hs.toDisjoint.lo_le hd hdc) (ht.toDisjoint.lo_le hc hcc)
      have hcb : c = b := ht.ordered.covers_unique hc (by simp) hcc
        (hlo ▸ ht.toDisjoint.covers_lo)
      have hw : a.weight = b.weight := by rw [← hcw, hcb]
      have hhi : a.hi = b.hi := le_antisymm (ht.head_hi_le hs h.symm hlo.symm hw.symm)
        (hs.head_hi_le ht h hlo hw)
      have hab : a = b := by
        cases a; cases b
        simp_all
      subst hab
      refine congrArg _ (ih hs.tail ht.tail fun x w => ?_)
      have hrest : ∀ {u : List (Seg L ν)}, Disjoint (a :: u) →
          (WeightAt value u x w ↔ a.hi ≤ x ∧ WeightAt value (a :: u) x w) := fun {u} hu => by
        rw [hu.ordered.weightAt_iff, hu.tail.ordered.weightAt_iff]
        constructor
        · rintro ⟨e, he, hec, hew⟩
          exact ⟨hu.ordered.hi_le he hec, e, by simp [he], hec, hew⟩
        · rintro ⟨hx, e, he, hec, hew⟩
          rcases List.mem_cons.mp he with rfl | he
          · exact absurd hec.2 (not_lt.mpr hx)
          · exact ⟨e, he, hec, hew⟩
      rw [hrest hs.toDisjoint, hrest ht.toDisjoint, h x w]

theorem canonical_singleton (h : seg.lo < seg.hi) : Canonical [seg] :=
  ⟨⟨by simpa using h, by simp⟩, by simp⟩

/-! ### Looking up a point -/

/-- Skipping the intervals that end at or before `x` finds the interval that contains it. -/
theorem InOrder.head?_dropWhile (h : InOrder segs) {p : Seg L ν → Bool}
    (hp : ∀ s ∈ segs, p s = true ↔ s.hi ≤ x) :
    ((segs.dropWhile p).head? = some seg ∧ Covers x seg) ↔ seg ∈ segs ∧ Covers x seg := by
  induction segs with
  | nil => simp
  | cons a segs ih =>
    have ih' := ih (List.pairwise_cons.mp h).2 fun s hs => hp s (by simp [hs])
    by_cases ha : a.hi ≤ x
    · rw [List.dropWhile_cons_of_pos ((hp a (by simp)).mpr ha), ih', List.mem_cons]
      constructor
      · rintro ⟨hs, hc⟩
        exact ⟨.inr hs, hc⟩
      · rintro ⟨rfl | hs, hc⟩
        · exact absurd hc.2 (not_lt.mpr ha)
        · exact ⟨hs, hc⟩
    · rw [List.dropWhile_cons_of_neg (mt (hp a (by simp)).mp ha), List.head?_cons, List.mem_cons]
      constructor
      · rintro ⟨hs, hc⟩
        exact ⟨.inl (Option.some.inj hs).symm, hc⟩
      · rintro ⟨rfl | hs, hc⟩
        · exact ⟨rfl, hc⟩
        · exact absurd (h.hi_le hs hc) ha

end Theory

/-! ### Renaming the cuts -/

variable {items : List (Seg γ ν)}

section Transfer

variable {δ : Type*}

/-- The same interval between renamed cuts. -/
def Seg.map (f : γ → δ) (seg : Seg γ ν) : Seg δ ν := ⟨f seg.lo, f seg.hi, seg.weight⟩

@[simp] theorem Seg.map_lo (f : γ → δ) (seg : Seg γ ν) : (seg.map f).lo = f seg.lo := rfl

@[simp] theorem Seg.map_hi (f : γ → δ) (seg : Seg γ ν) : (seg.map f).hi = f seg.hi := rfl

@[simp] theorem Seg.map_weight (f : γ → δ) (seg : Seg γ ν) : (seg.map f).weight = seg.weight := rfl

/-- Both boundaries of every interval satisfy `S`. -/
def CutsIn (S : γ → Prop) (segs : List (Seg γ ν)) : Prop := ∀ seg ∈ segs, S seg.lo ∧ S seg.hi

variable {cmp : γ → γ → Ordering} {cmp' : δ → δ → Ordering} {better : ν → ν → Bool} {f : γ → δ}
  {S : γ → Prop}

variable {c : γ} {cs : List γ} {segs : List (Seg γ ν)}

theorem dedupFrom_subset {prev : γ} (h : c ∈ dedupFrom cmp prev cs) : c ∈ cs := by
  induction cs generalizing prev with
  | nil => simp [dedupFrom] at h
  | cons d cs ih =>
    rw [dedupFrom] at h
    split at h
    · exact List.mem_cons_of_mem _ (ih h)
    · rcases List.mem_cons.mp h with rfl | h
      · simp
      · exact List.mem_cons_of_mem _ (ih h)

theorem boundaries_in (h : CutsIn S items) : ∀ c ∈ boundaries items, S c := by
  intro c hc
  obtain ⟨i, hi, hc⟩ := List.mem_flatMap.mp hc
  rcases List.mem_cons.mp hc with rfl | hc
  · exact (h i hi).1
  · rw [List.mem_singleton] at hc
    exact hc ▸ (h i hi).2

theorem cuts_in (h : CutsIn S items) (hc : c ∈ cuts cmp items) : S c := by
  have hsort : ∀ d ∈ (boundaries items).mergeSort (le cmp), S d := fun d hd =>
    boundaries_in h d (List.mem_mergeSort.mp hd)
  unfold cuts at hc
  generalize (boundaries items).mergeSort (le cmp) = l at hsort hc
  cases l with
  | nil => simp [dedup] at hc
  | cons d cs =>
    rcases List.mem_cons.mp hc with rfl | hc
    · exact hsort _ (by simp)
    · exact hsort c (List.mem_cons_of_mem _ (dedupFrom_subset hc))

theorem gapsFrom_in (h : ∀ d ∈ c :: cs, S d) : CutsIn S (gapsFrom cmp better items c cs) := by
  induction cs generalizing c with
  | nil => simp [gapsFrom, CutsIn]
  | cons hi cs ih =>
    have ih' := ih (c := hi) fun d hd => h d (List.mem_cons_of_mem _ hd)
    rw [gapsFrom]
    split
    · intro seg hseg
      rcases List.mem_cons.mp hseg with rfl | hseg
      · exact ⟨h c (by simp), h hi (by simp)⟩
      · exact ih' seg hseg
    · exact ih'

theorem gaps_in_cuts (items : List (Seg γ ν)) :
    CutsIn (· ∈ cuts cmp items) (gaps cmp better items) := by
  unfold gaps
  cases hc : cuts cmp items with
  | nil => simp [CutsIn]
  | cons c cs => exact gapsFrom_in fun d hd => hd

theorem gaps_in (h : CutsIn S items) : CutsIn S (gaps cmp better items) :=
  fun seg hseg => (gaps_in_cuts items seg hseg).imp (cuts_in h) (cuts_in h)

theorem CutsIn.join {last seg : Seg γ ν} (h : CutsIn S (last :: seg :: segs)) :
    CutsIn S ({ last with hi := seg.hi } :: segs) := by
  obtain ⟨hlast, h⟩ := List.forall_mem_cons.1 h
  obtain ⟨hseg, h⟩ := List.forall_mem_cons.1 h
  exact List.forall_mem_cons.2 ⟨⟨hlast.1, hseg.2⟩, h⟩

variable [DecidableEq ν]

theorem joinFrom_in {last : Seg γ ν} (h : CutsIn S (last :: segs)) :
    CutsIn S (joinFrom cmp last segs) := by
  induction segs generalizing last with
  | nil => simpa [joinFrom] using h
  | cons seg segs ih =>
    obtain ⟨hlast, hrest⟩ := List.forall_mem_cons.1 h
    rw [joinFrom]
    split
    · exact ih h.join
    · exact List.forall_mem_cons.2 ⟨hlast, ih hrest⟩

theorem coalesce_in_cuts (items : List (Seg γ ν)) :
    CutsIn (· ∈ cuts cmp items) (coalesce cmp better items) := by
  have hgaps : CutsIn (· ∈ cuts cmp items) (gaps cmp better items) := gaps_in_cuts items
  unfold coalesce
  cases hg : gaps cmp better items with
  | nil => simp [joinAdjacent, CutsIn]
  | cons seg segs => exact joinFrom_in (hg ▸ hgaps)

theorem coalesce_in (h : CutsIn S items) : CutsIn S (coalesce cmp better items) :=
  fun seg hseg => (coalesce_in_cuts items seg hseg).imp (cuts_in h) (cuts_in h)

variable (hf : ∀ a, S a → ∀ b, S b → cmp' (f a) (f b) = cmp a b)

include hf

omit [DecidableEq ν]

theorem le_map {a b : γ} (ha : S a) (hb : S b) : le cmp' (f a) (f b) = le cmp a b := by
  rw [le, le, hf a ha b hb]

theorem dedupFrom_map {prev : γ} (h : ∀ c ∈ prev :: cs, S c) :
    (dedupFrom cmp prev cs).map f = dedupFrom cmp' (f prev) (cs.map f) := by
  induction cs generalizing prev with
  | nil => rfl
  | cons d cs ih =>
    have hd : S d := h d (by simp)
    simp only [List.map_cons, dedupFrom, hf d hd prev (h prev (by simp))]
    split
    · exact ih fun c hc => h c (by
        rcases List.mem_cons.mp hc with rfl | hc
        · simp
        · simp [hc])
    · rw [List.map_cons, ih fun c hc => h c (by simp [List.mem_cons.mp hc])]

theorem cuts_map (h : CutsIn S items) :
    (cuts cmp items).map f = cuts cmp' (items.map (Seg.map f)) := by
  have hin := boundaries_in h
  have hsort : ((boundaries items).mergeSort (le cmp)).map f =
      (boundaries (items.map (Seg.map f))).mergeSort (le cmp') := by
    rw [List.map_mergeSort fun a ha b hb => (le_map hf (hin a ha) (hin b hb)).symm]
    congr 1
    induction items with
    | nil => rfl
    | cons i items ih => simp_all [Seg.map, CutsIn]
  unfold cuts
  rw [← hsort]
  have hin' : ∀ c ∈ (boundaries items).mergeSort (le cmp), S c := fun c hc =>
    hin c (List.mem_mergeSort.mp hc)
  generalize (boundaries items).mergeSort (le cmp) = l at hin'
  cases l with
  | nil => rfl
  | cons c cs => simp only [dedup, List.map_cons, dedupFrom_map hf hin']

theorem gapWeight_map (h : CutsIn S items) {lo hi : γ} (hlo : S lo) (hhi : S hi) :
    gapWeight cmp' better (items.map (Seg.map f)) (f lo) (f hi) = gapWeight cmp better items lo hi := by
  have hgap : ∀ i ∈ items, containsGap cmp' (f lo) (f hi) (i.map f) = containsGap cmp lo hi i :=
    fun i hi' => by
      simp only [containsGap, Seg.map_lo, Seg.map_hi, le_map hf (h i hi').1 hlo,
        le_map hf hhi (h i hi').2]
  unfold gapWeight
  rw [List.filter_map, List.map_map, List.filter_congr (p := containsGap cmp' (f lo) (f hi) ∘ Seg.map f)
    (q := containsGap cmp lo hi) fun i hi' => hgap i hi']
  rfl

theorem gapsFrom_map (h : CutsIn S items) (hcs : ∀ d ∈ c :: cs, S d) :
    (gapsFrom cmp better items c cs).map (Seg.map f) =
      gapsFrom cmp' better (items.map (Seg.map f)) (f c) (cs.map f) := by
  induction cs generalizing c with
  | nil => rfl
  | cons hi cs ih =>
    have ih' := ih (c := hi) fun d hd => hcs d (List.mem_cons_of_mem _ hd)
    simp only [List.map_cons, gapsFrom, gapWeight_map hf h (hcs c (by simp)) (hcs hi (by simp))]
    split
    · rw [List.map_cons, ih']
      rfl
    · exact ih'

theorem gaps_map (h : CutsIn S items) :
    (gaps cmp better items).map (Seg.map f) = gaps cmp' better (items.map (Seg.map f)) := by
  have hcuts := cuts_map hf h
  unfold gaps
  rw [← hcuts]
  cases hc : cuts cmp items with
  | nil => rfl
  | cons c cs => exact gapsFrom_map hf h fun d hd => cuts_in h (hc ▸ hd)

variable [DecidableEq ν]

theorem joinFrom_map {last : Seg γ ν} {segs : List (Seg γ ν)} (h : CutsIn S (last :: segs)) :
    (joinFrom cmp last segs).map (Seg.map f) =
      joinFrom cmp' (last.map f) (segs.map (Seg.map f)) := by
  induction segs generalizing last with
  | nil => rfl
  | cons seg segs ih =>
    obtain ⟨hlast, hrest⟩ := List.forall_mem_cons.1 h
    simp only [List.map_cons, joinFrom, Seg.map_weight, Seg.map_hi, Seg.map_lo,
      hf _ hlast.2 _ (hrest seg (by simp)).1]
    split
    · exact ih h.join
    · rw [List.map_cons, ih hrest]

/-- Coalescing commutes with a renaming that keeps the order of the occurring cuts. -/
theorem coalesce_map (h : CutsIn S items) :
    (coalesce cmp better items).map (Seg.map f) = coalesce cmp' better (items.map (Seg.map f)) := by
  have hgaps : (gaps cmp better items).map (Seg.map f) = gaps cmp' better (items.map (Seg.map f)) :=
    gaps_map hf h
  have hin : CutsIn S (gaps cmp better items) := gaps_in h
  unfold coalesce
  rw [← hgaps]
  cases hg : gaps cmp better items with
  | nil => rfl
  | cons seg segs => exact joinFrom_map hf (hg ▸ hin)

end Transfer

/-! ### Coalescing twice -/

section Twice

variable {L ω : Type*} [LinearOrder L] [LinearOrder ω] [DecidableEq ν] {cmp : γ → γ → Ordering}
  {better : ν → ν → Bool} {value : ν → ω} {f : γ → L} {S : γ → Prop}

omit [LinearOrder L] [DecidableEq ν] in
/-- Intervals between cuts that `f` keeps apart are determined by their images. -/
theorem map_injOn {T : γ → Prop} (hinj : ∀ a, T a → ∀ b, T b → f a = f b → a = b)
    {s t : List (Seg γ ν)} (hs : CutsIn T s) (ht : CutsIn T t)
    (h : s.map (Seg.map f) = t.map (Seg.map f)) : s = t := by
  induction s generalizing t with
  | nil => simpa using h.symm
  | cons a s ih =>
    cases t with
    | nil => simp at h
    | cons b t =>
      obtain ⟨hab, hrest⟩ := List.cons.inj h
      have hlo : a.lo = b.lo := hinj _ (hs a (by simp)).1 _ (ht b (by simp)).1
        (congrArg Seg.lo hab)
      have hhi : a.hi = b.hi := hinj _ (hs a (by simp)).2 _ (ht b (by simp)).2
        (congrArg Seg.hi hab)
      have hw : (a.map f).weight = (b.map f).weight := congrArg Seg.weight hab
      have htail := ih (fun seg hseg => hs seg (by simp [hseg])) (fun seg hseg => ht seg (by simp [hseg]))
        hrest
      cases a
      cases b
      simp_all

/-- What is coalesced stays as it is when coalesced again, boundaries included. -/
theorem coalesce_coalesce (hbetter : ∀ b w, better b w = true ↔ value w ≤ value b)
    (hvalue : Function.Injective value) (hf : ∀ a, S a → ∀ b, S b → compare (f a) (f b) = cmp a b)
    (h : CutsIn S items) :
    coalesce cmp better (coalesce cmp better items) = coalesce cmp better items := by
  have hone : CutsIn (· ∈ cuts cmp items) (coalesce cmp better items) := coalesce_in_cuts items
  have htwo : CutsIn (· ∈ cuts cmp items) (coalesce cmp better (coalesce cmp better items)) :=
    coalesce_in hone
  -- the sorted cuts have distinct images
  have hnodup : ((cuts cmp items).map f).Nodup := by
    rw [cuts_map hf h]
    exact (cuts_sorted _).imp fun hlt => hlt.ne
  have hinj : ∀ a, a ∈ cuts cmp items → ∀ b, b ∈ cuts cmp items → f a = f b → a = b :=
    fun a ha b hb hab => List.inj_on_of_nodup_map hnodup ha hb hab
  refine map_injOn hinj htwo hone ?_
  rw [coalesce_map hf (coalesce_in h), coalesce_map hf h]
  exact (coalesce_canonical _).eq_of_sameWeight (coalesce_canonical _)
    fun x w => weightAt_coalesce hbetter hvalue

end Twice

end Coverage
