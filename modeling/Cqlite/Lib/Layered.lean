import Mathlib.Tactic.Common
import Cqlite.Lib.Rank

/-! Comparators that leave some pairs undecided.

    A comparison of typed values answers `none` where it has no order for the type. Such a comparator
    is usable when the undecided pairs sit inside layers: undecided values count as equal, and a
    value that is undecided against one value is equal to none. Comparing by several of them in turn
    keeps that shape, and a fallback order inside the undecided layers makes a total one. -/

namespace Layered

open Rank

variable {α β : Type*}

/-- `c` orders the values of `S` in layers, each of which it either identifies or leaves undecided. -/
structure On (c : α → α → Option Ordering) (S : α → Prop) : Prop where
  swap : ∀ a, S a → ∀ b, S b → c b a = (c a b).map Ordering.swap
  trans : ∀ a, S a → ∀ b, S b → ∀ d, S d →
    (c a b).getD .eq ≠ .gt → (c b d).getD .eq ≠ .gt → (c a d).getD .eq ≠ .gt
  blind : ∀ a, S a → ∀ b, S b → ∀ d, S d → c a b = none → c a d ≠ some .eq

variable {c : α → α → Option Ordering} {S : α → Prop}

/-! ### Layers -/

variable {a b d : α} {l : List α} {c₁ c₂ : α → α → Option Ordering}

namespace On

theorem mono {T : α → Prop} (h : On c S) (hsub : ∀ a, T a → S a) : On c T where
  swap a ha b hb := h.swap a (hsub a ha) b (hsub b hb)
  trans a ha b hb d hd := h.trans a (hsub a ha) b (hsub b hb) d (hsub d hd)
  blind a ha b hb d hd := h.blind a (hsub a ha) b (hsub b hb) d (hsub d hd)

variable {T : β → Prop} {c' : β → β → Option Ordering}

/-- A comparator that compares images. -/
theorem of_image (h : On c' T) (f : α → β) (hf : ∀ a, S a → T (f a))
    (heq : ∀ a, S a → ∀ b, S b → c a b = c' (f a) (f b)) : On c S where
  swap a ha b hb := by
    rw [heq a ha b hb, heq b hb a ha]
    exact h.swap _ (hf a ha) _ (hf b hb)
  trans a ha b hb d hd := by
    rw [heq a ha b hb, heq b hb d hd, heq a ha d hd]
    exact h.trans _ (hf a ha) _ (hf b hb) _ (hf d hd)
  blind a ha b hb d hd := by
    rw [heq a ha b hb, heq a ha d hd]
    exact h.blind _ (hf a ha) _ (hf b hb) _ (hf d hd)

/-- A comparator that decides nothing has one undecided layer. -/
theorem of_none (h : ∀ a, S a → ∀ b, S b → c a b = none) : On c S where
  swap a ha b hb := by rw [h a ha b hb, h b hb a ha, Option.map_none]
  trans a ha b hb d hd := by simp [h a ha d hd]
  blind a ha b hb d hd _ := by simp [h a ha d hd]

/-- A total comparator leaves nothing undecided. -/
theorem of_total {cmp : α → α → Ordering} (hswap : ∀ a, S a → ∀ b, S b → cmp b a = (cmp a b).swap)
    (htrans : ∀ a, S a → ∀ b, S b → ∀ d, S d → cmp a b ≠ .gt → cmp b d ≠ .gt → cmp a d ≠ .gt) :
    On (fun a b => some (cmp a b)) S where
  swap a ha b hb := by simp [hswap a ha b hb]
  trans a ha b hb d hd := htrans a ha b hb d hd
  blind a ha b hb d hd h := by simp at h

theorem of_wrapped {mk : β → α} (h : On c' T) (hform : ∀ a, S a → ∃ x, T x ∧ a = mk x)
    (heq : ∀ x y, c (mk x) (mk y) = c' x y) : On c S where
  swap a ha b hb := by
    obtain ⟨x, hx, rfl⟩ := hform a ha
    obtain ⟨y, hy, rfl⟩ := hform b hb
    rw [heq, heq]
    exact h.swap x hx y hy
  trans a ha b hb d hd := by
    obtain ⟨x, hx, rfl⟩ := hform a ha
    obtain ⟨y, hy, rfl⟩ := hform b hb
    obtain ⟨z, hz, rfl⟩ := hform d hd
    rw [heq, heq, heq]
    exact h.trans x hx y hy z hz
  blind a ha b hb d hd := by
    obtain ⟨x, hx, rfl⟩ := hform a ha
    obtain ⟨y, hy, rfl⟩ := hform b hb
    obtain ⟨z, hz, rfl⟩ := hform d hd
    rw [heq, heq]
    exact h.blind x hx y hy z hz

theorem of_transCmp {cmp : α → α → Ordering} [Std.TransCmp cmp] :
    On (fun a b => some (cmp a b)) S :=
  of_total (fun _ _ _ _ => Std.OrientedCmp.eq_swap) fun a _ b _ d _ hab hbd => by
    rw [ne_eq, ← Ordering.isLE_iff_ne_gt] at hab hbd ⊢
    exact Std.TransCmp.isLE_trans hab hbd

/-- Undecided or equal values form one layer: the comparison with equality for `none` is total. -/
theorem totalOn (h : On c S) (hl : ∀ a ∈ l, S a) :
    TotalOn (fun a b => (c a b).getD .eq) l where
  swap a ha b hb := by
    rw [h.swap a (hl a ha) b (hl b hb)]
    cases c a b <;> rfl
  trans a ha b hb d hd := h.trans a (hl a ha) b (hl b hb) d (hl d hd)

theorem eq_none_of_swap (h : On c S) (ha : S a) (hb : S b) (hab : c a b = none) : c b a = none := by rw [h.swap a ha b hb, hab, Option.map_none]

/-- A value equal to another is undecided against nothing. -/
theorem decided (h : On c S) (ha : S a) (hb : S b) (hd : S d) (hab : c a b = some .eq) :
    c a d ≠ none := fun hn => h.blind a ha d hd b hb hn hab

/-- Reversing a comparator. -/
theorem rev (h : On c S) : On (fun a b => (c a b).map Ordering.swap) S where
  swap a ha b hb := by rw [h.swap a ha b hb]
  trans a ha b hb d hd hab hbd := by
    have hflip : ∀ x, S x → ∀ y, S y → ((c x y).map Ordering.swap).getD .eq = (c y x).getD .eq :=
      fun x hx y hy => by rw [← h.swap x hx y hy]
    rw [hflip a ha b hb] at hab
    rw [hflip b hb d hd] at hbd
    rw [hflip a ha d hd]
    exact h.trans d hd b hb a ha hbd hab
  blind a ha b hb d hd hab := by
    have hab' : c a b = none := Option.map_eq_none_iff.mp hab
    intro had
    obtain ⟨o, ho, hs⟩ := Option.map_eq_some_iff.mp had
    refine h.blind a ha b hb d hd hab' ?_
    cases o <;> simp_all

theorem of_totalOn {cmp : α → α → Ordering} (h : ∀ l : List α, (∀ a ∈ l, S a) → TotalOn cmp l) :
    On (fun a b => some (cmp a b)) S := by
  refine of_total (fun a ha b hb => ?_) fun a ha b hb d hd => ?_
  · exact (h [a, b] (by simp [ha, hb])).swap a (by simp) b (by simp)
  · exact (h [a, b, d] (by simp [ha, hb, hd])).trans a (by simp) b (by simp) d (by simp)

end On

/-! ### One comparator after another -/

/-- Compare by `c₁`, and where it finds equality by `c₂`. -/
def lexi (c₁ c₂ : α → α → Option Ordering) (a b : α) : Option Ordering :=
  match c₁ a b with
  | some .eq => c₂ a b
  | other => other

theorem lexi_of_eq (h : c₁ a b = some .eq) : lexi c₁ c₂ a b = c₂ a b := by simp [lexi, h]

theorem lexi_of_ne (h : c₁ a b ≠ some .eq) : lexi c₁ c₂ a b = c₁ a b := by
  unfold lexi
  split
  · contradiction
  · rfl

theorem On.eq_trans (h : On c₁ S) (ha : S a) (hb : S b) (hd : S d) (hab : c₁ a b = some .eq) :
    c₁ a d = c₁ b d := by
  have hl : ∀ x ∈ [a, b, d], S x := by simp [ha, hb, hd]
  have hba : c₁ b a = some .eq := by rw [h.swap a ha b hb, hab]; rfl
  have hcongr := (h.totalOn hl).cmp_congr (a := a) (b := b) (c := d) (by simp) (by simp) (by simp)
    (by simp [hab])
  obtain ⟨o, ho⟩ := Option.ne_none_iff_exists'.mp (h.decided ha hb hd hab)
  obtain ⟨o', ho'⟩ := Option.ne_none_iff_exists'.mp (h.decided hb ha hd hba)
  rw [h.swap a ha d hd, h.swap b hb d hd, ho, ho'] at hcongr
  rw [ho, ho']
  cases o <;> cases o' <;> simp_all

theorem On.lexi {c₁ c₂ : α → α → Option Ordering} (h₁ : On c₁ S) (h₂ : On c₂ S) :
    On (lexi c₁ c₂) S where
  swap a ha b hb := by
    by_cases hab : c₁ a b = some .eq
    · have hba : c₁ b a = some .eq := by rw [h₁.swap a ha b hb, hab]; rfl
      rw [lexi_of_eq hab, lexi_of_eq hba]
      exact h₂.swap a ha b hb
    · have hba : c₁ b a ≠ some .eq := fun hba => hab (by rw [h₁.swap b hb a ha, hba]; rfl)
      rw [lexi_of_ne hab, lexi_of_ne hba]
      exact h₁.swap a ha b hb
  trans a ha b hb d hd hab hbd := by
    by_cases h : c₁ a b = some .eq
    · rw [lexi_of_eq h] at hab
      have hd₁ := h₁.eq_trans ha hb hd h
      by_cases h' : c₁ b d = some .eq
      · rw [lexi_of_eq h'] at hbd
        rw [lexi_of_eq (hd₁.trans h')]
        exact h₂.trans a ha b hb d hd hab hbd
      · rw [lexi_of_ne h'] at hbd
        rw [lexi_of_ne (hd₁ ▸ h'), hd₁]
        exact hbd
    · rw [lexi_of_ne h] at hab
      by_cases h' : c₁ b d = some .eq
      · have hdb : c₁ d b = some .eq := by rw [h₁.swap b hb d hd, h']; rfl
        have hda : c₁ a d = c₁ a b := by
          rw [h₁.swap d hd a ha, h₁.eq_trans hd hb ha hdb, ← h₁.swap b hb a ha]
        rw [lexi_of_ne (hda ▸ h), hda]
        exact hab
      · rw [lexi_of_ne h'] at hbd
        have had := h₁.trans a ha b hb d hd hab hbd
        by_cases heq : c₁ a d = some .eq
        · -- `b` would lie both before and after the layer of `a` and `d`
          have hbd' : c₁ a b = c₁ d b := h₁.eq_trans ha hd hb heq
          rw [hbd', h₁.swap b hb d hd] at hab
          have hnone : c₁ b d = none := by
            cases hc : c₁ b d with
            | none => rfl
            | some o =>
              rw [hc] at hab hbd h'
              cases o <;> simp_all
          exact absurd (h₁.eq_none_of_swap hb hd hnone) (h₁.decided hd ha hb (by
            rw [h₁.swap a ha d hd, heq]; rfl))
        · rw [lexi_of_ne heq]
          exact had
  blind a ha b hb d hd hab := by
    by_cases h : c₁ a b = some .eq
    · rw [lexi_of_eq h] at hab
      by_cases h' : c₁ a d = some .eq
      · rw [lexi_of_eq h']
        exact h₂.blind a ha b hb d hd hab
      · rw [lexi_of_ne h']
        exact h'
    · rw [lexi_of_ne h] at hab
      have hne := h₁.blind a ha b hb d hd hab
      rw [lexi_of_ne hne]
      exact hne

/-! ### Missing values first -/

/-- Null values sort first and are equal to each other. -/
def nullFirst (isNull : α → Bool) (c : α → α → Option Ordering) (a b : α) : Option Ordering :=
  match isNull a, isNull b with
  | true, true => some .eq
  | true, false => some .lt
  | false, true => some .gt
  | false, false => c a b

theorem On.nullFirst {isNull : α → Bool} (h : On c fun a => S a ∧ isNull a = false) :
    On (nullFirst isNull c) S where
  swap a ha b hb := by
    unfold Layered.nullFirst
    cases hna : isNull a <;> cases hnb : isNull b <;> try rfl
    exact h.swap a ⟨ha, hna⟩ b ⟨hb, hnb⟩
  trans a ha b hb d hd := by
    unfold Layered.nullFirst
    cases hna : isNull a <;> cases hnb : isNull b <;> cases hnd : isNull d <;> try simp
    exact h.trans a ⟨ha, hna⟩ b ⟨hb, hnb⟩ d ⟨hd, hnd⟩
  blind a ha b hb d hd := by
    unfold Layered.nullFirst
    cases hna : isNull a <;> cases hnb : isNull b <;> cases hnd : isNull d <;> try simp
    exact h.blind a ⟨ha, hna⟩ b ⟨hb, hnb⟩ d ⟨hd, hnd⟩

/-! ### Sequences -/

/-- Element by element, a missing tail first. -/
def elements (c : α → α → Option Ordering) : List α → List α → Option Ordering
  | [], [] => some .eq
  | [], _ :: _ => some .lt
  | _ :: _, [] => some .gt
  | a :: as, b :: bs =>
    match c a b with
    | some .eq => elements c as bs
    | other => other

/-- Sequences whose `i`-th element satisfies `S i`. -/
def Each (S : Nat → α → Prop) (l : List α) : Prop := ∀ i x, l[i]? = some x → S i x

theorem Each.tail {S : Nat → α → Prop} (h : Each S l) : Each (fun i => S (i + 1)) l.tail :=
  fun i x hx => h (i + 1) x (by simpa using hx)

theorem Each.head {S : Nat → α → Prop} (h : Each S (a :: l)) : S 0 a :=
  h 0 a rfl

theorem elements_eq_lexi (as bs : List α) :
    elements c as bs = lexi (nullFirst List.isEmpty fun as bs =>
      match as, bs with
      | a :: _, b :: _ => c a b
      | _, _ => none) (fun as bs => elements c as.tail bs.tail) as bs := by
  cases as with
  | nil => cases bs <;> rfl
  | cons a as =>
    cases bs with
    | nil => rfl
    | cons b bs => simp only [elements, lexi, nullFirst, List.isEmpty_cons, List.tail_cons]

/-- Sequences of at most `n` elements are ordered in layers when the elements are at each position. -/
theorem elements_of_length {S : Nat → α → Prop} (h : ∀ i, On c (S i)) (n : Nat) :
    On (elements c) fun l => l.length ≤ n ∧ Each S l := by
  induction n generalizing S with
  | zero =>
    have hunit : On (fun _ _ : Unit => some .eq) fun _ => True :=
      On.of_total (fun _ _ _ _ => rfl) fun _ _ _ _ _ _ h _ => h
    refine hunit.of_image (fun _ => ()) (fun _ _ => trivial) ?_
    rintro a ⟨ha, -⟩ b ⟨hb, -⟩
    rw [List.length_eq_zero_iff.mp (Nat.le_zero.mp ha), List.length_eq_zero_iff.mp (Nat.le_zero.mp hb)]
    rfl
  | succ n ih =>
    have hlexi := @On.lexi _ (fun l : List α => l.length ≤ n + 1 ∧ Each S l)
    refine (hlexi (On.nullFirst ?_) ?_).of_image id (fun _ h => h) fun a _ b _ => elements_eq_lexi a b
    · refine ⟨?_, ?_, ?_⟩
      · rintro (_ | ⟨a, as⟩) ⟨⟨-, ha⟩, hna⟩ (_ | ⟨b, bs⟩) ⟨⟨-, hb⟩, hnb⟩ <;> try contradiction
        exact (h 0).swap a ha.head b hb.head
      · rintro (_ | ⟨a, as⟩) ⟨⟨-, ha⟩, hna⟩ (_ | ⟨b, bs⟩) ⟨⟨-, hb⟩, hnb⟩ (_ | ⟨d, ds⟩)
          ⟨⟨-, hd⟩, hnd⟩ <;> try contradiction
        exact (h 0).trans a ha.head b hb.head d hd.head
      · rintro (_ | ⟨a, as⟩) ⟨⟨-, ha⟩, hna⟩ (_ | ⟨b, bs⟩) ⟨⟨-, hb⟩, hnb⟩ (_ | ⟨d, ds⟩)
          ⟨⟨-, hd⟩, hnd⟩ <;> try contradiction
        exact (h 0).blind a ha.head b hb.head d hd.head
    · refine On.of_image (ih fun i => h (i + 1)) List.tail (fun l hl => ⟨?_, hl.2.tail⟩)
        fun _ _ _ _ => rfl
      rw [List.length_tail]
      omega

theorem On.elements {S : Nat → α → Prop} (h : ∀ i, On c (S i)) : On (elements c) (Each S) where
  swap a ha b hb := (elements_of_length h (max a.length b.length)).swap a ⟨le_max_left _ _, ha⟩ b
    ⟨le_max_right _ _, hb⟩
  trans a ha b hb d hd := by
    have hall := elements_of_length h (a.length + b.length + d.length)
    exact hall.trans a ⟨by omega, ha⟩ b ⟨by omega, hb⟩ d ⟨by omega, hd⟩
  blind a ha b hb d hd := by
    have hall := elements_of_length h (a.length + b.length + d.length)
    exact hall.blind a ⟨by omega, ha⟩ b ⟨by omega, hb⟩ d ⟨by omega, hd⟩

/-! ### A fallback for the undecided pairs -/

/-- Deciding the undecided pairs by a total order gives a total order. -/
theorem On.totalOn_getD (h : On c S) {fallback : α → α → Ordering} (hl : ∀ a ∈ l, S a)
    (hf : TotalOn fallback l) : TotalOn (fun a b => (c a b).getD (fallback a b)) l := by
  have hlex : TotalOn (fun a b => ((c a b).getD .eq).then
      (if c a b = none then fallback a b else .eq)) l := by
    refine (h.totalOn hl).lex fun a ha => ?_
    -- a layer is undecided throughout or identified throughout
    by_cases hblind : c a a = none
    · refine (hf.mono fun b hb => List.mem_of_mem_filter hb).congr fun x hx y hy => ?_
      have hlayer : ∀ z ∈ l.filter fun b => (c a b).getD .eq == .eq, c a z = none := fun z hz => by
        obtain ⟨hz, hc⟩ := List.mem_filter.mp hz
        have hne := h.blind a (hl a ha) a (hl a ha) z (hl z hz) hblind
        cases hcz : c a z with
        | none => rfl
        | some o =>
          rw [hcz] at hc hne
          cases o <;> simp_all
      have hxl := hl x (List.mem_of_mem_filter hx)
      have hyl := hl y (List.mem_of_mem_filter hy)
      have hxa := h.eq_none_of_swap (hl a ha) hxl (hlayer x hx)
      have hxy : c x y = none := by
        have hne := h.blind x hxl a (hl a ha) y hyl hxa
        have htot := h.totalOn (l := [x, a, y]) (by simp [hxl, hyl, hl a ha])
        have heq := htot.cmp_congr (a := a) (b := y) (c := x) (by simp) (by simp) (by simp)
          (by simp [hlayer y hy])
        rw [hxa] at heq
        cases hc : c x y with
        | none => rfl
        | some o =>
          rw [hc] at heq hne
          cases o <;> simp_all
      simp [hxy]
    · have hlayer : ∀ x ∈ l.filter fun b => (c a b).getD .eq == .eq, ∀ y ∈ l, c x y ≠ none :=
        fun x hx y hy => by
          obtain ⟨hx, hc⟩ := List.mem_filter.mp hx
          have hax : c a x = some .eq := by
            cases hcx : c a x with
            | none =>
              have hself := h.blind a (hl a ha) x (hl x hx) a (hl a ha) hcx
              have hsw := h.swap a (hl a ha) a (hl a ha)
              cases hca : c a a with
              | none => exact absurd hca hblind
              | some o =>
                rw [hca] at hself hsw
                cases o with
                | eq => exact absurd rfl hself
                | lt => cases hsw
                | gt => cases hsw
            | some o => rw [hcx] at hc; cases o <;> simp_all
          exact h.decided (hl x hx) (hl a ha) (hl y hy) (by
            rw [h.swap a (hl a ha) x (hl x hx), hax]; rfl)
      refine ⟨fun x hx y hy => ?_, fun x hx y hy z hz _ _ => ?_⟩
      · rw [if_neg (hlayer x hx y (List.mem_of_mem_filter hy)),
          if_neg (hlayer y hy x (List.mem_of_mem_filter hx))]
        rfl
      · rw [if_neg (hlayer x hx z (List.mem_of_mem_filter hz))]
        simp
  refine hlex.congr fun a ha b hb => ?_
  cases hab : c a b with
  | none => simp
  | some o => cases o <;> simp

end Layered
