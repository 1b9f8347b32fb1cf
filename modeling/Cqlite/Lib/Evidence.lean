import Mathlib.Data.Set.Lattice
import Mathlib.Order.Defs.LinearOrder

/-! What a set of writes and deletions makes visible, and when a summary of them may replace them.

    A write is visible when it has the highest precedence of its key, carries a value, and every
    deletion of its key is older. A summary keeps the visible writes and enough of the rest to go on
    hiding what it hid; whatever it forgets (`lost`) is harmless exactly as long as the other writes
    it is read with are newer. Nothing here depends on an order of the writes. -/

/-- A set of writes and, for every key, the times it was deleted at. -/
@[ext]
structure Evidence (α κ τ : Type*) where
  writes : Set α
  deletes : κ → Set τ

namespace Evidence

variable {α κ τ ρ : Type*}

/-- How writes are read: their key, time and precedence, and which of them carry no value. Precedence
    refines time, and among writes of one time those with a value come last. -/
structure Reading (α κ τ ρ : Type*) [LinearOrder τ] [LinearOrder ρ] where
  key : α → κ
  time : α → τ
  rank : α → ρ
  Dead : α → Prop
  time_le : ∀ a b, rank a ≤ rank b → time a ≤ time b
  rank_le : ∀ a b, ¬ Dead a → time a ≤ time b → rank a ≤ rank b

instance : Union (Evidence α κ τ) :=
  ⟨fun E F => ⟨E.writes ∪ F.writes, fun k => E.deletes k ∪ F.deletes k⟩⟩

@[simp] theorem mem_writes_union {E F : Evidence α κ τ} {a : α} :
    a ∈ (E ∪ F).writes ↔ a ∈ E.writes ∨ a ∈ F.writes := Iff.rfl

@[simp] theorem mem_deletes_union {E F : Evidence α κ τ} {k : κ} {t : τ} :
    t ∈ (E ∪ F).deletes k ↔ t ∈ E.deletes k ∨ t ∈ F.deletes k := Iff.rfl

theorem union_assoc (E F G : Evidence α κ τ) : E ∪ F ∪ G = E ∪ (F ∪ G) :=
  Evidence.ext (Set.union_assoc _ _ _) (funext fun _ => Set.union_assoc _ _ _)

variable [LinearOrder τ] [LinearOrder ρ] (R : Reading α κ τ ρ)

/-- No write of the same key takes precedence. -/
def Maximal (E : Evidence α κ τ) (a : α) : Prop :=
  ∀ b ∈ E.writes, R.key b = R.key a → R.rank b ≤ R.rank a

/-- Newer than every deletion of its key. -/
def Undeleted (E : Evidence α κ τ) (a : α) : Prop := ∀ t ∈ E.deletes (R.key a), t < R.time a

/-- A visible write. -/
structure Visible (E : Evidence α κ τ) (a : α) : Prop where
  mem : a ∈ E.writes
  alive : ¬ R.Dead a
  maximal : E.Maximal R a
  undeleted : E.Undeleted R a

/-- A write with a value shares its key and precedence with no other write. -/
def NoTies (E : Evidence α κ τ) : Prop :=
  ∀ a ∈ E.writes, ∀ b ∈ E.writes, R.key b = R.key a → R.rank b = R.rank a → ¬ R.Dead a → b = a

/-- Every write is dominated by a maximal one of its key. -/
def Bounded (E : Evidence α κ τ) : Prop :=
  ∀ a ∈ E.writes, ∃ m ∈ E.writes, R.key m = R.key a ∧ R.rank a ≤ R.rank m ∧ E.Maximal R m

/-- A write that is newer than the deletions of `E` and loses to none of its writes. -/
structure Outlasts (E : Evidence α κ τ) (a : α) : Prop where
  maximal : E.Maximal R a
  undeleted : E.Undeleted R a

variable {R}

variable {E F : Evidence α κ τ} {a : α}

theorem maximal_union : (E ∪ F).Maximal R a ↔ E.Maximal R a ∧ F.Maximal R a := by
  simp only [Maximal, mem_writes_union, or_imp, forall_and]

theorem undeleted_union : (E ∪ F).Undeleted R a ↔ E.Undeleted R a ∧ F.Undeleted R a := by
  simp only [Undeleted, mem_deletes_union, or_imp, forall_and]

theorem outlasts_union : (E ∪ F).Outlasts R a ↔ E.Outlasts R a ∧ F.Outlasts R a := by
  constructor
  · rintro ⟨hm, hu⟩
    rw [maximal_union] at hm
    rw [undeleted_union] at hu
    exact ⟨⟨hm.1, hu.1⟩, ⟨hm.2, hu.2⟩⟩
  · rintro ⟨⟨hm, hu⟩, ⟨hm', hu'⟩⟩
    exact ⟨maximal_union.mpr ⟨hm, hm'⟩, undeleted_union.mpr ⟨hu, hu'⟩⟩

theorem visible_iff : E.Visible R a ↔ a ∈ E.writes ∧ ¬ R.Dead a ∧ E.Outlasts R a := by
  constructor
  · rintro ⟨h₁, h₂, h₃, h₄⟩
    exact ⟨h₁, h₂, h₃, h₄⟩
  · rintro ⟨h₁, h₂, h₃, h₄⟩
    exact ⟨h₁, h₂, h₃, h₄⟩

theorem Reading.rank_lt {b : α} (h : R.time a < R.time b) : R.rank a < R.rank b := by
  rw [← not_le]
  intro hle
  exact absurd (R.time_le b a hle) (not_le.mpr h)

/-- A dead write that does not take precedence over a live one is older. -/
theorem NoTies.time_lt (hties : E.NoTies R) {b : α} (ha : a ∈ E.writes) (hb : b ∈ E.writes)
    (hk : R.key b = R.key a) (halive : ¬ R.Dead a) (hdead : R.Dead b) (hle : R.rank b ≤ R.rank a) :
    R.time b < R.time a := by
  rw [← not_le]
  intro hge
  have heq : b = a := hties a ha b hb hk (le_antisymm hle (R.rank_le a b halive hge)) halive
  exact halive (heq ▸ hdead)

/-! ### Summaries -/

/-- `A` may stand for `I` as far as `lost` goes: its writes are writes of `I` (a dead one may be
    rewritten, with more precedence), every maximal write that `I` does not delete is among them, its
    deletions are bounded by those of `I`, and what it leaves out is in `lost`. -/
structure Summarizes (R : Reading α κ τ ρ) (A I lost : Evidence α κ τ) : Prop where
  source : ∀ a ∈ A.writes, ∃ c ∈ I.writes, R.key c = R.key a ∧ R.time c = R.time a ∧
    R.rank c ≤ R.rank a ∧ (R.Dead a → R.Dead c) ∧ (¬ R.Dead a → a = c)
  kept : ∀ c ∈ I.writes, I.Outlasts R c →
    (∃ a ∈ A.writes, R.key a = R.key c ∧ R.rank c ≤ R.rank a ∧ (¬ R.Dead c → a = c)) ∨
    (R.Dead c ∧ c ∈ lost.writes)
  deletesDown : ∀ k, ∀ t ∈ A.deletes k, ∃ u ∈ I.deletes k, t ≤ u
  deletesUp : ∀ k, ∀ t ∈ I.deletes k, (∃ u ∈ A.deletes k, t ≤ u) ∨ t ∈ lost.deletes k
  lostWrites : lost.writes ⊆ I.writes
  lostDeletes : ∀ k, lost.deletes k ⊆ I.deletes k

namespace Summarizes

variable {A I X lost : Evidence α κ τ}

/-- A write newer than the deletions of `I` is newer than those of the summary. -/
theorem undeleted (h : Summarizes R A I lost) (ha : I.Undeleted R a) : A.Undeleted R a := by
  intro t ht
  obtain ⟨u, hu, hle⟩ := h.deletesDown _ t ht
  exact lt_of_le_of_lt hle (ha u hu)

/-- A live write that no write of `I` beats is beaten by no write of the summary. -/
theorem maximal (h : Summarizes R A I lost) (hties : (I ∪ X).NoTies R) (ha : a ∈ (I ∪ X).writes)
    (halive : ¬ R.Dead a) (hmax : I.Maximal R a) : A.Maximal R a := by
  intro b hb hk
  obtain ⟨c, hc, hkc, htime, -, hdead, hlive⟩ := h.source b hb
  have hle : R.rank c ≤ R.rank a := hmax c hc (hkc.trans hk)
  by_cases hbd : R.Dead b
  · -- a rewritten dead write is strictly older, so more precedence does not help it
    have hlt : R.time c < R.time a :=
      hties.time_lt ha (.inl hc) (hkc.trans hk) halive (hdead hbd) hle
    exact (Reading.rank_lt (htime ▸ hlt)).le
  · rw [hlive hbd]
    exact hle

theorem visible_of_visible (h : Summarizes R A I lost) (hties : (I ∪ X).NoTies R)
    (ha : (I ∪ X).Visible R a) : (A ∪ X).Visible R a := by
  obtain ⟨hmem, halive, hmax, hund⟩ := ha
  rw [maximal_union] at hmax
  rw [undeleted_union] at hund
  refine ⟨?_, halive, maximal_union.mpr ⟨h.maximal hties hmem halive hmax.1, hmax.2⟩,
    undeleted_union.mpr ⟨h.undeleted hund.1, hund.2⟩⟩
  rcases hmem with hmem | hmem
  · rcases h.kept a hmem ⟨hmax.1, hund.1⟩ with ⟨b, hb, -, -, heq⟩ | ⟨hdead, -⟩
    · rw [heq halive] at hb
      exact .inl hb
    · exact absurd hdead halive
  · exact .inr hmem

/-- A write that outlasts the summary and what it lost outlasts the summarized evidence. -/
theorem outlasts (h : Summarizes R A I lost) (hbd : I.Bounded R) (hA : A.Outlasts R a)
    (hlost : lost.Outlasts R a) : I.Outlasts R a := by
  have hund : I.Undeleted R a := by
    intro t ht
    rcases h.deletesUp _ t ht with ⟨u, hu, hle⟩ | ht
    · exact lt_of_le_of_lt hle (hA.undeleted u hu)
    · exact hlost.undeleted t ht
  refine ⟨?_, hund⟩
  intro b hb hk
  obtain ⟨m, hm, hkm, hle, hmax⟩ := hbd b hb
  refine hle.trans ?_
  by_cases hmu : I.Undeleted R m
  · rcases h.kept m hm ⟨hmax, hmu⟩ with ⟨c, hc, hkc, hmc, -⟩ | ⟨-, hml⟩
    · exact hmc.trans (hA.maximal c hc (hkc.trans (hkm.trans hk)))
    · exact hlost.maximal m hml (hkm.trans hk)
  · -- the maximal write is deleted, and `a` is newer than that deletion
    simp only [Undeleted, not_forall, not_lt] at hmu
    obtain ⟨t, ht, hmt⟩ := hmu
    rw [hkm.trans hk] at ht
    exact (Reading.rank_lt (lt_of_le_of_lt hmt (hund t ht))).le

/-- What is visible with `I` outlasts everything the summary lost. -/
theorem lost_outlasts (h : Summarizes R A I lost) (ha : (I ∪ X).Visible R a) :
    lost.Outlasts R a where
  maximal b hb hk := ha.maximal b (.inl (h.lostWrites hb)) hk
  undeleted t ht := ha.undeleted t (.inl (h.lostDeletes _ ht))

/-- What is visible next to the summary and outlasts what was lost is visible next to `I`. -/
theorem visible_iff (h : Summarizes R A I lost) (hties : (I ∪ X).NoTies R) (hbd : I.Bounded R) :
    (I ∪ X).Visible R a ↔ (A ∪ X).Visible R a ∧ lost.Outlasts R a := by
  constructor
  · exact fun ha => ⟨h.visible_of_visible hties ha, h.lost_outlasts ha⟩
  · rintro ⟨⟨hmem, halive, hmax, hund⟩, hlost⟩
    rw [maximal_union] at hmax
    rw [undeleted_union] at hund
    have hI : I.Outlasts R a := h.outlasts hbd ⟨hmax.1, hund.1⟩ hlost
    refine ⟨?_, halive, maximal_union.mpr ⟨hI.maximal, hmax.2⟩,
      undeleted_union.mpr ⟨hI.undeleted, hund.2⟩⟩
    rcases hmem with hmem | hmem
    · obtain ⟨c, hc, -, -, -, -, heq⟩ := h.source a hmem
      rw [heq halive]
      exact .inl hc
    · exact .inr hmem

/-- Seen through a view that shows key and time, the summary shows the same as `I` exactly when
    everything it shows outlasts what was lost. -/
theorem view_eq_iff {ν : Type*} {view : α → ν}
    (hview : ∀ a b, view a = view b → R.key a = R.key b ∧ R.time a = R.time b)
    (h : Summarizes R A I lost) (hties : (I ∪ X).NoTies R) (hbd : I.Bounded R) :
    (∀ v, (∃ a, (A ∪ X).Visible R a ∧ view a = v) ↔ ∃ a, (I ∪ X).Visible R a ∧ view a = v) ↔
      ∀ a, (A ∪ X).Visible R a → lost.Outlasts R a := by
  constructor
  · intro heq a hvis
    obtain ⟨b, hb, hba⟩ := (heq (view a)).mp ⟨a, hvis, rfl⟩
    obtain ⟨hk, ht⟩ := hview b a hba
    -- both carry a value at one time, so they have the same precedence
    have hr : R.rank b ≤ R.rank a := R.rank_le b a hb.alive ht.le
    obtain ⟨hmax, hund⟩ := h.lost_outlasts hb
    refine ⟨fun c hc hkc => (hmax c hc (hkc.trans hk.symm)).trans hr, fun t hdel => ?_⟩
    rw [← hk] at hdel
    rw [← ht]
    exact hund t hdel
  · intro hout v
    constructor
    · rintro ⟨a, ha, rfl⟩
      exact ⟨a, (h.visible_iff hties hbd).mpr ⟨ha, hout a ha⟩, rfl⟩
    · rintro ⟨a, ha, rfl⟩
      exact ⟨a, h.visible_of_visible hties ha, rfl⟩

/-- A summary introduces no ties. -/
theorem noTies (h : Summarizes R A I lost) (hties : (I ∪ X).NoTies R) : (A ∪ X).NoTies R := by
  -- a live write of the summary is one of `I`
  have hin : ∀ a ∈ (A ∪ X).writes, ¬ R.Dead a → a ∈ (I ∪ X).writes := by
    rintro a (ha | ha) halive
    · obtain ⟨c, hc, -, -, -, -, heq⟩ := h.source a ha
      rw [heq halive]
      exact .inl hc
    · exact .inr ha
  intro a ha b hb hk hr halive
  have haI := hin a ha halive
  rcases hb with hb | hb
  · obtain ⟨c, hc, hkc, htime, hle, hdead, heq⟩ := h.source b hb
    by_cases hbd : R.Dead b
    · have hrc : R.rank c ≤ R.rank a := hle.trans hr.le
      have hlt : R.time c < R.time a :=
        hties.time_lt haI (.inl hc) (hkc.trans hk) halive (hdead hbd) hrc
      have := R.time_le a b hr.ge
      rw [← htime] at this
      exact absurd hlt (not_lt.mpr this)
    · exact hties a haI b (heq hbd ▸ .inl hc) hk hr halive
  · exact hties a haI b (.inr hb) hk hr halive

end Summarizes

/-! ### In context -/

/-- Dead writes and deletions that everything visible outlasts may come and go. -/
theorem visible_union_outlasted {Y D : Evidence α κ τ} (hdead : ∀ d ∈ D.writes, R.Dead d)
    (hout : ∀ a, Y.Visible R a → D.Outlasts R a) : (Y ∪ D).Visible R a ↔ Y.Visible R a := by
  constructor
  · rintro ⟨hmem, halive, hmax, hund⟩
    rw [maximal_union] at hmax
    rw [undeleted_union] at hund
    exact ⟨hmem.resolve_right fun hD => halive (hdead a hD), halive, hmax.1, hund.1⟩
  · intro ha
    obtain ⟨hmax, hund⟩ := hout a ha
    exact ⟨.inl ha.mem, ha.alive, maximal_union.mpr ⟨ha.maximal, hmax⟩,
      undeleted_union.mpr ⟨ha.undeleted, hund⟩⟩

/-- Every write of `A` is one of `I`, or ranks with no write that carries a value. -/
def Drawn (R : Reading α κ τ ρ) (A I : Evidence α κ τ) : Prop :=
  ∀ b ∈ A.writes, b ∈ I.writes ∨ ∀ a, ¬ R.Dead a → R.rank a ≠ R.rank b

section Clock

variable {S : Reading α κ τ ρ}

/-- The same reading at a later time, when more writes have died. -/
structure Ages (R S : Reading α κ τ ρ) : Prop where
  key : S.key = R.key
  time : S.time = R.time
  rank : S.rank = R.rank
  dead : ∀ a, R.Dead a → S.Dead a

theorem Ages.outlasts_iff (hage : Ages R S) : E.Outlasts S a ↔ E.Outlasts R a := by
  constructor
  · rintro ⟨hmax, hund⟩
    exact ⟨by simpa [Maximal, hage.key, hage.rank] using hmax,
      by simpa [Undeleted, hage.key, hage.time] using hund⟩
  · rintro ⟨hmax, hund⟩
    exact ⟨by simpa [Maximal, hage.key, hage.rank] using hmax,
      by simpa [Undeleted, hage.key, hage.time] using hund⟩

theorem Summarizes.aged {A I lost : Evidence α κ τ} (hage : Ages R S) (h : Summarizes R A I lost) :
    Summarizes S A I lost := by
  refine ⟨?_, ?_, h.deletesDown, h.deletesUp, h.lostWrites, h.lostDeletes⟩
  · intro a ha
    obtain ⟨c, hc, hk, ht, hr, hdead, halive⟩ := h.source a ha
    rw [← hage.key] at hk
    rw [← hage.time] at ht
    rw [← hage.rank] at hr
    refine ⟨c, hc, hk, ht, hr, ?_, ?_⟩
    · intro hd
      by_cases hR : R.Dead a
      · exact hage.dead c (hdead hR)
      · rw [← halive hR]
        exact hd
    · exact fun hd => halive fun hR => hd (hage.dead a hR)
  · intro c hc ho
    rcases h.kept c hc (hage.outlasts_iff.mp ho) with ⟨a, ha, hk, hr, heq⟩ | ⟨hd, hl⟩
    · rw [← hage.key] at hk
      rw [← hage.rank] at hr
      exact .inl ⟨a, ha, hk, hr, fun hS => heq fun hR => hS (hage.dead c hR)⟩
    · exact .inr ⟨hage.dead c hd, hl⟩

theorem Drawn.aged {A I : Evidence α κ τ} (hage : Ages R S) (h : Drawn R A I) : Drawn S A I := by
  intro b hb
  refine (h b hb).imp id fun hno a halive => ?_
  rw [hage.rank]
  exact hno a fun hR => halive (hage.dead a hR)

theorem NoTies.aged (hage : Ages R S) (h : E.NoTies R) : E.NoTies S := by
  intro a ha b hb hk hr halive
  rw [hage.key] at hk
  rw [hage.rank] at hr
  exact h a ha b hb hk hr fun hR => halive (hage.dead a hR)

end Clock

/-! ### Agreement in context -/

/-- `A` and `I` show the same next to anything that outlasts `L`. -/
def AgreeBeyond (R : Reading α κ τ ρ) (L A I : Evidence α κ τ) : Prop :=
  ∀ X : Evidence α κ τ, (∀ a ∈ X.writes, L.Outlasts R a) → (I ∪ X).NoTies R →
    ∀ a, (A ∪ X).Visible R a ↔ (I ∪ X).Visible R a

section Agreement

variable {A I J L M N O S X : Evidence α κ τ}

theorem Drawn.refl (A : Evidence α κ τ) : Drawn R A A := fun _ hb => .inl hb

theorem Drawn.trans (h : Drawn R A I) (h' : Drawn R I J) : Drawn R A J := by
  intro b hb
  rcases h b hb with hI | hno
  · exact h' b hI
  · exact .inr hno

theorem Drawn.union (h : Drawn R A I) (h' : Drawn R O J) : Drawn R (A ∪ O) (I ∪ J) := by
  rintro b (hb | hb)
  · exact (h b hb).imp .inl id
  · exact (h' b hb).imp .inr id

theorem Drawn.noTies (h : Drawn R A I) (hties : I.NoTies R) : A.NoTies R := by
  intro a ha b hb hk hr halive
  rcases h b hb with hbI | hno
  · rcases h a ha with haI | hno
    · exact hties a haI b hbI hk hr halive
    · exact absurd rfl (hno a halive)
  · exact absurd hr.symm (hno a halive)

theorem AgreeBeyond.refl (L A : Evidence α κ τ) : AgreeBeyond R L A A := fun _ _ _ _ => Iff.rfl

theorem AgreeBeyond.add (h : AgreeBeyond R L A I) (hX : ∀ a ∈ X.writes, L.Outlasts R a) :
    AgreeBeyond R L (A ∪ X) (I ∪ X) := by
  intro Y hY hties a
  rw [union_assoc] at hties
  rw [union_assoc, union_assoc]
  refine h (X ∪ Y) ?_ hties a
  rintro a (ha | ha)
  · exact hX a ha
  · exact hY a ha

theorem AgreeBeyond.replace (h : AgreeBeyond R L (S ∪ O) I) (hM : AgreeBeyond R N M S)
    (hdrawn : Drawn R (S ∪ O) I) (hO : ∀ a ∈ O.writes, N.Outlasts R a) :
    AgreeBeyond R (N ∪ L) (M ∪ O) I := by
  intro X hX hties a
  have hties' : (S ∪ (O ∪ X)).NoTies R := by
    rw [← union_assoc]
    exact (hdrawn.union (Drawn.refl X)).noTies hties
  have hOX : ∀ a ∈ (O ∪ X).writes, N.Outlasts R a := by
    rintro a (ha | ha)
    · exact hO a ha
    · exact (outlasts_union.mp (hX a ha)).1
  rw [union_assoc, hM (O ∪ X) hOX hties' a, ← union_assoc]
  exact h X (fun a ha => (outlasts_union.mp (hX a ha)).2) hties a

/-- The writes of `D`, and its deletions less those of `B`. -/
def beyond (D B : Evidence α κ τ) : Evidence α κ τ := ⟨D.writes, fun k => D.deletes k \ B.deletes k⟩

/-- A summary of `I`, read later, in place of `I` and of some dead writes and deletions `D` that what
    `I` shows outlasts. What it lost of `I` is gone, and so is `D`. -/
theorem Summarizes.agreeBeyond {R₀ : Reading α κ τ ρ} {D B : Evidence α κ τ} (hage : Ages R₀ R)
    (h : Summarizes R₀ M I L) (hbd : I.Bounded R)
    (hM : ∀ a ∈ M.writes, ¬ R.Dead a → L.Outlasts R a) (hdead : ∀ d ∈ D.writes, R.Dead d)
    (hout : ∀ a ∈ I.writes, ¬ R.Dead a → I.Undeleted R a → D.Outlasts R a)
    (hB : ∀ k, B.deletes k ⊆ M.deletes k) : AgreeBeyond R (L ∪ D.beyond B) M (I ∪ D) := by
  intro Y hY hties a
  have hparts : I ∪ D ∪ Y = I ∪ Y ∪ D := by
    refine Evidence.ext (Set.union_right_comm _ _ _) (funext fun _ => Set.union_right_comm _ _ _)
  have hties' : (I ∪ Y).NoTies R := by
    rw [hparts] at hties
    exact fun a ha b hb => hties a (.inl ha) b (.inl hb)
  have hnext : ∀ a, (M ∪ Y).Visible R a ↔ (I ∪ Y).Visible R a := by
    intro a
    rw [(h.aged hage).visible_iff hties' hbd]
    refine ⟨fun hvis => ⟨hvis, ?_⟩, fun hboth => hboth.1⟩
    rcases hvis.mem with hmem | haY
    · exact hM a hmem hvis.alive
    · exact (outlasts_union.mp (hY a haY)).1
  rw [hnext, hparts]
  refine (visible_union_outlasted hdead ?_).symm
  intro a ha
  by_cases haY : a ∈ Y.writes
  · have hvis := (hnext a).mpr ha
    have hlast := (outlasts_union.mp (hY a haY)).2
    refine ⟨hlast.maximal, ?_⟩
    intro t ht
    by_cases hb : t ∈ B.deletes (R.key a)
    · exact hvis.undeleted t (.inl (hB _ hb))
    · exact hlast.undeleted t ⟨ht, hb⟩
  · exact hout a (ha.mem.resolve_right haY) ha.alive (undeleted_union.mp ha.undeleted).1

end Agreement

/-! ### Two readings of one story -/

/-- What only `F` has is not shown by it, and neither takes precedence over nor deletes what `E`
    shows. -/
structure Absorbs (R : Reading α κ τ ρ) (E F : Evidence α κ τ) : Prop where
  hidden : ∀ b ∈ F.writes, b ∉ E.writes → ¬ F.Visible R b
  writes : ∀ b ∈ F.writes, b ∉ E.writes → ∀ a, E.Visible R a → R.key b = R.key a →
    R.rank b ≤ R.rank a
  deletes : ∀ k, ∀ t ∈ F.deletes k, t ∉ E.deletes k → ∀ a, E.Visible R a → R.key a = k →
    t < R.time a

theorem Absorbs.visible (h : E.Absorbs R F) (h' : F.Absorbs R E) (ha : E.Visible R a) :
    F.Visible R a := by
  refine ⟨?_, ha.alive, fun b hb hk => ?_, fun t ht => ?_⟩
  · by_contra hnot
    exact h'.hidden a ha.mem hnot ha
  · by_cases hE : b ∈ E.writes
    · exact ha.maximal b hE hk
    · exact h.writes b hb hE a ha hk
  · by_cases hE : t ∈ E.deletes (R.key a)
    · exact ha.undeleted t hE
    · exact h.deletes _ t ht hE a ha rfl

theorem absorbs_of_visible (h : ∀ a, E.Visible R a ↔ F.Visible R a) :
    E.Absorbs R F where
  hidden b _ hnot hb := hnot ((h b).mpr hb).mem
  writes b hb _ a ha hk := ((h a).mp ha).maximal b hb hk
  deletes _ t ht _ a ha hk := ((h a).mp ha).undeleted t (hk ▸ ht)

/-- Two sets of evidence show the same exactly when each absorbs what only the other has. -/
theorem visible_iff_visible :
    (∀ a, E.Visible R a ↔ F.Visible R a) ↔ E.Absorbs R F ∧ F.Absorbs R E :=
  ⟨fun h => ⟨absorbs_of_visible h, absorbs_of_visible fun a => (h a).symm⟩,
    fun h _ => ⟨h.1.visible h.2, h.2.visible h.1⟩⟩

/-! ### Reductions -/

/-- `A` leaves out only writes of `I` that it goes on hiding itself, and its deletions reach as far. It
    may replace `I` whatever both are read with. -/
structure Reduces (R : Reading α κ τ ρ) (A I : Evidence α κ τ) : Prop where
  writes : A.writes ⊆ I.writes
  hidden : ∀ c ∈ I.writes, c ∈ A.writes ∨ (∃ a ∈ A.writes, R.key a = R.key c ∧ R.rank c < R.rank a) ∨
    ∃ t ∈ A.deletes (R.key c), R.time c ≤ t
  deletesDown : ∀ k, ∀ t ∈ A.deletes k, ∃ u ∈ I.deletes k, t ≤ u
  deletesUp : ∀ k, ∀ t ∈ I.deletes k, ∃ u ∈ A.deletes k, t ≤ u

namespace Reduces

variable {A B I J : Evidence α κ τ}

theorem refl (A : Evidence α κ τ) : Reduces R A A where
  writes _ h := h
  hidden _ h := .inl h
  deletesDown _ t h := ⟨t, h, le_rfl⟩
  deletesUp _ t h := ⟨t, h, le_rfl⟩

theorem trans (h : Reduces R A B) (h' : Reduces R B I) : Reduces R A I where
  writes := h.writes.trans h'.writes
  hidden := by
    intro c hc
    rcases h'.hidden c hc with hB | ⟨b, hb, hk, hlt⟩ | ⟨t, ht, hle⟩
    · exact h.hidden c hB
    · rcases h.hidden b hb with hA | ⟨a, ha, hka, hlta⟩ | ⟨t, ht, hle⟩
      · exact .inr (.inl ⟨b, hA, hk, hlt⟩)
      · exact .inr (.inl ⟨a, ha, hka.trans hk, hlt.trans hlta⟩)
      · rw [hk] at ht
        exact .inr (.inr ⟨t, ht, (R.time_le c b hlt.le).trans hle⟩)
    · obtain ⟨u, hu, hle'⟩ := h.deletesUp _ t ht
      exact .inr (.inr ⟨u, hu, hle.trans hle'⟩)
  deletesDown := by
    intro k t ht
    obtain ⟨u, hu, hle⟩ := h.deletesDown k t ht
    obtain ⟨w, hw, hle'⟩ := h'.deletesDown k u hu
    exact ⟨w, hw, hle.trans hle'⟩
  deletesUp := by
    intro k t ht
    obtain ⟨u, hu, hle⟩ := h'.deletesUp k t ht
    obtain ⟨w, hw, hle'⟩ := h.deletesUp k u hu
    exact ⟨w, hw, hle.trans hle'⟩

theorem union (h : Reduces R A I) (h' : Reduces R B J) : Reduces R (A ∪ B) (I ∪ J) where
  writes := Set.union_subset_union h.writes h'.writes
  hidden := by
    rintro c (hc | hc)
    · rcases h.hidden c hc with hA | ⟨a, ha, hk⟩ | ⟨t, ht, hle⟩
      · exact .inl (.inl hA)
      · exact .inr (.inl ⟨a, .inl ha, hk⟩)
      · exact .inr (.inr ⟨t, .inl ht, hle⟩)
    · rcases h'.hidden c hc with hB | ⟨b, hb, hk⟩ | ⟨t, ht, hle⟩
      · exact .inl (.inr hB)
      · exact .inr (.inl ⟨b, .inr hb, hk⟩)
      · exact .inr (.inr ⟨t, .inr ht, hle⟩)
  deletesDown := by
    rintro k t (ht | ht)
    · obtain ⟨u, hu, hle⟩ := h.deletesDown k t ht
      exact ⟨u, .inl hu, hle⟩
    · obtain ⟨u, hu, hle⟩ := h'.deletesDown k t ht
      exact ⟨u, .inr hu, hle⟩
  deletesUp := by
    rintro k t (ht | ht)
    · obtain ⟨u, hu, hle⟩ := h.deletesUp k t ht
      exact ⟨u, .inl hu, hle⟩
    · obtain ⟨u, hu, hle⟩ := h'.deletesUp k t ht
      exact ⟨u, .inr hu, hle⟩

theorem visible_iff (h : Reduces R A I) : A.Visible R a ↔ I.Visible R a := by
  constructor
  · rintro ⟨hmem, halive, hmax, hund⟩
    refine ⟨h.writes hmem, halive, fun b hb hk => ?_, fun t ht => ?_⟩
    · rcases h.hidden b hb with hA | ⟨b', hb', hk', hlt⟩ | ⟨t, ht, hle⟩
      · exact hmax b hA hk
      · exact hlt.le.trans (hmax b' hb' (hk'.trans hk))
      · rw [hk] at ht
        exact (Reading.rank_lt (lt_of_le_of_lt hle (hund t ht))).le
    · obtain ⟨u, hu, hle⟩ := h.deletesUp _ t ht
      exact lt_of_le_of_lt hle (hund u hu)
  · rintro ⟨hmem, halive, hmax, hund⟩
    have hundA : A.Undeleted R a := by
      intro t ht
      obtain ⟨u, hu, hle⟩ := h.deletesDown _ t ht
      exact lt_of_le_of_lt hle (hund u hu)
    refine ⟨?_, halive, fun b hb hk => hmax b (h.writes hb) hk, hundA⟩
    rcases h.hidden a hmem with hA | ⟨b, hb, hk, hlt⟩ | ⟨t, ht, hle⟩
    · exact hA
    · exact absurd (hmax b (h.writes hb) hk) (not_le.mpr hlt)
    · exact absurd (hundA t ht) (not_lt.mpr hle)

end Reduces

end Evidence
