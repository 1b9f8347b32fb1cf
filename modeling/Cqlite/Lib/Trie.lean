import Mathlib.Algebra.Order.Ring.Int
import Mathlib.Data.List.Lex
import Mathlib.Data.List.Pairwise
import Mathlib.Order.Basic

/-! Ordered tries.

    A forest is a list of labelled nodes, each with a payload and a forest of its own. Its entries are
    the paths to the payloads, in depth-first order: a payload comes before those below it. Where the
    labels ascend the paths do, and a path's neighbours are found by walking down along it. -/

namespace Trie

/-- The children of a node, each with its label and payload. -/
inductive Forest (κ α : Type)
  | nil
  | cons (edge : κ) (payload : Option α) (children rest : Forest κ α)

namespace Forest

variable {κ α : Type}

/-- The payload of a node, under the empty path. -/
def own (payload : Option α) : List (List κ × α) := payload.toList.map ([], ·)

/-- Prefixes a label. -/
def under (edge : κ) (entries : List (List κ × α)) : List (List κ × α) :=
  entries.map fun e => (edge :: e.1, e.2)

def entries : Forest κ α → List (List κ × α)
  | nil => []
  | cons edge payload children rest => under edge (own payload ++ entries children) ++ entries rest

/-- The entries of a node. -/
def nodeEntries (payload : Option α) (children : Forest κ α) : List (List κ × α) :=
  own payload ++ children.entries

def edges : Forest κ α → List κ
  | nil => []
  | cons edge _ _ rest => edge :: rest.edges

/-- The number of labels on the longest path. -/
def height : Forest κ α → Nat
  | nil => 0
  | cons _ _ children rest => max (children.height + 1) rest.height

/-- A node that leads to a payload. -/
def Fruitful (payload : Option α) (children : Forest κ α) : Prop :=
  payload ≠ none ∨ children ≠ nil

/-- Every node leads to a payload. -/
def Productive : Forest κ α → Prop
  | nil => True
  | cons _ payload children rest =>
    Fruitful payload children ∧ children.Productive ∧ rest.Productive

theorem entries_cons (edge : κ) (payload : Option α) (children rest : Forest κ α) :
    (cons edge payload children rest).entries = under edge (nodeEntries payload children) ++ rest.entries :=
  rfl

variable {e : List κ × α} {f : Forest κ α}

theorem mem_under {edge : κ} {entries : List (List κ × α)} :
    e ∈ under edge entries ↔ ∃ path, e.1 = edge :: path ∧ (path, e.2) ∈ entries := by
  constructor
  · intro h
    obtain ⟨f, hf, rfl⟩ := List.mem_map.1 h
    exact ⟨f.1, rfl, hf⟩
  · rintro ⟨path, hpath, h⟩
    exact List.mem_map.2 ⟨(path, e.2), h, by rw [← hpath]⟩

theorem mem_own {payload : Option α} : e ∈ own payload ↔ e.1 = [] ∧ payload = some e.2 := by
  cases payload with
  | none => simp [own]
  | some v =>
    obtain ⟨path, w⟩ := e
    simp only [own, Option.toList_some, List.map_cons, List.map_nil, List.mem_singleton, Prod.mk.injEq,
      Option.some.injEq]
    exact and_congr_right fun _ => eq_comm

theorem mem_entries_head (h : e ∈ f.entries) : ∃ edge ∈ f.edges, ∃ path, e.1 = edge :: path := by
  induction f with
  | nil => cases h
  | cons edge payload children rest _ ih =>
    rcases List.mem_append.1 h with h | h
    · obtain ⟨path, hpath, -⟩ := mem_under.1 h
      exact ⟨edge, List.mem_cons_self, path, hpath⟩
    · obtain ⟨b, hb, path, hpath⟩ := ih h
      exact ⟨b, List.mem_cons_of_mem _ hb, path, hpath⟩

theorem Productive.nodeEntries_ne_nil {payload : Option α} {children : Forest κ α}
    (h : Fruitful payload children) (hp : children.Productive) : nodeEntries payload children ≠ [] := by
  induction children generalizing payload with
  | nil =>
    rcases h with h | h
    · obtain ⟨v, rfl⟩ := Option.ne_none_iff_exists'.1 h
      simp [nodeEntries, own]
    · exact absurd rfl h
  | cons edge q sub rest ih _ =>
    have hsub : nodeEntries q sub ≠ [] := ih hp.1 hp.2.1
    intro h
    rw [nodeEntries, entries_cons] at h
    simp only [List.append_eq_nil_iff, under, List.map_eq_nil_iff] at h
    exact hsub h.2.1

theorem Productive.entries_ne_nil (hf : f ≠ nil) (hp : f.Productive) : f.entries ≠ [] :=
  @Productive.nodeEntries_ne_nil κ α none f (.inr hf) hp

/-! ### Joining forests -/

/-- The trees of one forest, then those of the other. -/
def append : Forest κ α → Forest κ α → Forest κ α
  | nil, g => g
  | cons edge payload children rest, g => cons edge payload children (rest.append g)

theorem edges_append (f g : Forest κ α) : (f.append g).edges = f.edges ++ g.edges := by
  induction f with
  | nil => rfl
  | cons edge payload children rest _ ih => rw [append, edges, edges, ih, List.cons_append]

theorem entries_append (f g : Forest κ α) : (f.append g).entries = f.entries ++ g.entries := by
  induction f with
  | nil => rfl
  | cons edge payload children rest _ ih =>
    rw [append, entries_cons, entries_cons, ih, List.append_assoc]

/-! ### Order -/

variable [LinearOrder κ]

/-- The labels of every forest ascend. -/
def Ascending : Forest κ α → Prop
  | nil => True
  | cons edge _ children rest =>
    (∀ b ∈ rest.edges, edge < b) ∧ children.Ascending ∧ rest.Ascending

theorem Ascending.append {g : Forest κ α} (hf : f.Ascending) (hg : g.Ascending)
    (h : ∀ a ∈ f.edges, ∀ b ∈ g.edges, a < b) : (f.append g).Ascending := by
  induction f with
  | nil => exact hg
  | cons edge payload children rest _ ih =>
    refine ⟨fun b hb => ?_, hf.2.1, ih hf.2.2 fun a ha => h a (List.mem_cons_of_mem _ ha)⟩
    rw [edges_append] at hb
    rcases List.mem_append.1 hb with hb | hb
    · exact hf.1 b hb
    · exact h edge List.mem_cons_self b hb

theorem Ascending.edges_sorted (h : f.Ascending) : f.edges.Pairwise (· < ·) := by
  induction f with
  | nil => exact .nil
  | cons edge payload children rest _ ih => exact .cons h.1 (ih h.2.2)

/-- The entries come in key order. -/
theorem Ascending.nodeEntries_sorted {payload : Option α} {children : Forest κ α}
    (h : children.Ascending) : (nodeEntries payload children).Pairwise fun a b => a.1 < b.1 := by
  induction children generalizing payload with
  | nil =>
    cases payload <;> simp [nodeEntries, own, entries]
  | cons edge q sub rest ih ihrest =>
    obtain ⟨hedge, hsub, hrest⟩ := h
    rw [nodeEntries, List.pairwise_append]
    refine ⟨by cases payload <;> simp [own], ?_, ?_⟩
    · rw [entries_cons, List.pairwise_append]
      refine ⟨?_, ?_, ?_⟩
      · rw [under, List.pairwise_map]
        refine (ih hsub).imp fun hab => ?_
        exact List.cons_lt_cons_iff.2 (.inr ⟨rfl, hab⟩)
      · have hnil : (nodeEntries none rest).Pairwise fun a b => a.1 < b.1 := ihrest hrest
        exact hnil
      · intro a ha b hb
        obtain ⟨path, hpath, -⟩ := mem_under.1 ha
        obtain ⟨c, hc, path', hpath'⟩ := mem_entries_head hb
        rw [hpath, hpath']
        exact List.cons_lt_cons_iff.2 (.inl (hedge c hc))
    · intro a ha b hb
      obtain ⟨c, -, path, hpath⟩ := mem_entries_head hb
      rw [(mem_own.1 ha).1, hpath]
      exact List.nil_lt_cons _ _

/-! ### The entry of a path -/

def lookup (entries : List (List κ × α)) (path : List κ) : Option α :=
  (entries.find? fun e => e.1 == path).map (·.2)

theorem lookup_append (l l' : List (List κ × α)) (path : List κ) :
    lookup (l ++ l') path = (lookup l path).or (lookup l' path) := by
  rw [lookup, List.find?_append]
  cases h : l.find? fun e => e.1 == path <;> simp [lookup, h]

theorem lookup_under_self (b : κ) (l : List (List κ × α)) (path : List κ) :
    lookup (under b l) (b :: path) = lookup l path := by
  simp [lookup, under, List.find?_map, Function.comp_def]

variable {l : List (List κ × α)} {path : List κ} {b : κ}

theorem lookup_eq_none (h : ∀ e ∈ l, e.1 ≠ path) : lookup l path = none := by
  rw [lookup, List.find?_eq_none.2 fun e he => by simpa using h e he]
  rfl

theorem lookup_under_ne {c : κ} (h : b ≠ c) (l : List (List κ × α)) (path : List κ) :
    lookup (under b l) (c :: path) = none := by
  refine lookup_eq_none fun e he heq => ?_
  obtain ⟨p, hp, -⟩ := mem_under.1 he
  rw [heq] at hp
  exact h (List.cons.inj hp).1.symm

theorem lookup_entries_not_mem (h : b ∉ f.edges) (path : List κ) :
    lookup f.entries (b :: path) = none := by
  refine lookup_eq_none fun e he heq => ?_
  obtain ⟨c, hc, p, hp⟩ := mem_entries_head he
  rw [heq] at hp
  exact h ((List.cons.inj hp).1 ▸ hc)

theorem lookup_eq_some (h : l.Pairwise fun a b => a.1 < b.1) (he : e ∈ l) :
    lookup l e.1 = some e.2 := by
  induction l with
  | nil => cases he
  | cons a l ih =>
    rcases List.mem_cons.1 he with rfl | he
    · simp [lookup]
    · have hne : a.1 ≠ e.1 := (List.rel_of_pairwise_cons h he).ne
      have hrest := ih h.of_cons he
      rw [lookup] at hrest ⊢
      rwa [List.find?_cons_of_neg (by simpa using hne)]

/-! ### Neighbours of a path -/

/-- The payload of the last entry. -/
def last (entries : List (List κ × α)) : Option α := entries.getLast?.map (·.2)

def first (entries : List (List κ × α)) : Option α := entries.head?.map (·.2)

/-- The payload of the last entry that is not after the path. -/
def lastUpTo (entries : List (List κ × α)) (path : List κ) : Option α :=
  last (entries.filter fun e => ¬ path < e.1)

/-- The payload of the first entry after the path. -/
def firstAfter (entries : List (List κ × α)) (path : List κ) : Option α :=
  first (entries.filter fun e => path < e.1)

/-- The node with this label. -/
def child (b : κ) : Forest κ α → Option (Option α × Forest κ α)
  | nil => none
  | cons edge payload children rest => if edge = b then some (payload, children) else rest.child b

/-- The last node with a lesser label. -/
def lower (b : κ) : Forest κ α → Option (Option α × Forest κ α)
  | nil => none
  | cons edge payload children rest =>
    if edge < b then (rest.lower b).or (some (payload, children)) else none

/-- The first node with a greater label. -/
def upper (b : κ) : Forest κ α → Option (Option α × Forest κ α)
  | nil => none
  | cons edge payload children rest => if b < edge then some (payload, children) else rest.upper b

def firstChild : Forest κ α → Option (Option α × Forest κ α)
  | nil => none
  | cons _ payload children _ => some (payload, children)

def lastChild : Forest κ α → Option (Option α × Forest κ α)
  | nil => none
  | cons _ payload children rest => rest.lastChild.or (some (payload, children))

/-- The entries of a node, of its payload and its forest together. -/
def entriesOf (node : Option α × Forest κ α) : List (List κ × α) := nodeEntries node.1 node.2

section

omit [LinearOrder κ]

theorem last_append (l l' : List (List κ × α)) : last (l ++ l') = (last l').or (last l) := by
  rw [last, List.getLast?_append]
  cases h : l'.getLast? <;> simp [last, h]

theorem first_append (l l' : List (List κ × α)) : first (l ++ l') = (first l).or (first l') := by
  cases l <;> simp [first]

theorem last_under (edge : κ) (l : List (List κ × α)) : last (under edge l) = last l := by
  simp [last, under, List.getLast?_map, Function.comp_def]

theorem first_under (edge : κ) (l : List (List κ × α)) : first (under edge l) = first l := by
  simp [first, under, Function.comp_def]

theorem last_ne_none (h : l ≠ []) : last l ≠ none := by
  simpa [last] using h

theorem first_ne_none (h : l ≠ []) : first l ≠ none := by
  simpa [first] using h

end

theorem lastUpTo_append (l l' : List (List κ × α)) (path : List κ) :
    lastUpTo (l ++ l') path = (lastUpTo l' path).or (lastUpTo l path) := by
  rw [lastUpTo, List.filter_append, last_append]
  rfl

theorem firstAfter_append (l l' : List (List κ × α)) (path : List κ) :
    firstAfter (l ++ l') path = (firstAfter l path).or (firstAfter l' path) := by
  rw [firstAfter, List.filter_append, first_append]
  rfl

theorem lastUpTo_eq_none (h : ∀ e ∈ l, path < e.1) : lastUpTo l path = none := by
  rw [lastUpTo, List.filter_eq_nil_iff.2 fun e he => by simpa using h e he]
  rfl

theorem lastUpTo_eq_last (h : ∀ e ∈ l, ¬ path < e.1) : lastUpTo l path = last l := by
  rw [lastUpTo, List.filter_eq_self.2 fun e he => by simpa using h e he]

theorem firstAfter_eq_none (h : ∀ e ∈ l, ¬ path < e.1) : firstAfter l path = none := by
  rw [firstAfter, List.filter_eq_nil_iff.2 fun e he => by simpa using h e he]
  rfl

theorem firstAfter_eq_first (h : ∀ e ∈ l, path < e.1) : firstAfter l path = first l := by
  rw [firstAfter, List.filter_eq_self.2 fun e he => by simpa using h e he]

theorem lastUpTo_own (payload : Option α) (path : List κ) : lastUpTo (own payload) path = payload := by
  rw [lastUpTo_eq_last fun e he => by rw [(mem_own.1 he).1]; exact List.not_lt_nil path]
  cases payload <;> rfl

theorem firstAfter_own (payload : Option α) (path : List κ) : firstAfter (own payload) path = none :=
  firstAfter_eq_none fun e he => by rw [(mem_own.1 he).1]; exact List.not_lt_nil path

omit [LinearOrder κ] in
theorem filter_under (edge : κ) (l : List (List κ × α)) (p q : List κ → Bool)
    (h : ∀ path, p (edge :: path) = q path) :
    (under edge l).filter (fun e => p e.1) = under edge (l.filter fun e => q e.1) := by
  induction l with
  | nil => rfl
  | cons e l ih =>
    have ih' : (List.map (fun e => (edge :: e.1, e.2)) l).filter (fun e => p e.1) =
        (l.filter fun e => q e.1).map fun e => (edge :: e.1, e.2) := ih
    simp only [under, List.map_cons, List.filter_cons, h, ih']
    split <;> rfl

theorem lastUpTo_under_self (b : κ) (l : List (List κ × α)) (path : List κ) :
    lastUpTo (under b l) (b :: path) = lastUpTo l path := by
  rw [lastUpTo, filter_under b l (fun p => ¬ b :: path < p) (fun p => ¬ path < p) (by simp),
    last_under]
  rfl

theorem firstAfter_under_self (b : κ) (l : List (List κ × α)) (path : List κ) :
    firstAfter (under b l) (b :: path) = firstAfter l path := by
  rw [firstAfter, filter_under b l (fun p => b :: path < p) (fun p => path < p) (by simp),
    first_under]
  rfl

section

omit [LinearOrder κ]

/-- The last entry is below the last child. -/
theorem last_nodeEntries (payload : Option α) (f : Forest κ α) (hp : f.Productive) :
    last (nodeEntries payload f) =
      match f.lastChild with
      | none => payload
      | some node => last (entriesOf node) := by
  induction f generalizing payload with
  | nil => cases payload <;> rfl
  | cons edge q sub rest _ ih =>
    have hrest := ih none hp.2.2
    have hne : last (nodeEntries q sub) ≠ none :=
      last_ne_none (Productive.nodeEntries_ne_nil hp.1 hp.2.1)
    obtain ⟨v, hv⟩ := Option.ne_none_iff_exists'.1 hne
    have hnil : nodeEntries none rest = rest.entries := rfl
    rw [nodeEntries, entries_cons, last_append, last_append, last_under, hv]
    rw [hnil] at hrest
    rw [hrest, lastChild]
    cases hl : rest.lastChild with
    | none => simp [entriesOf, hv]
    | some node =>
      have hrne : rest ≠ nil := by
        rintro rfl
        cases hl
      obtain ⟨w, hw⟩ := Option.ne_none_iff_exists'.1
        (last_ne_none (Productive.entries_ne_nil hrne hp.2.2))
      rw [hl] at hrest
      rw [hrest] at hw
      simp [hw]

theorem lastChild_eq_none : f.lastChild = none ↔ f = nil := by
  cases f <;> simp [lastChild]

theorem first_nodeEntries (payload : Option α) (f : Forest κ α) :
    first (nodeEntries payload f) = payload.or (first f.entries) := by
  rw [nodeEntries, first_append]
  cases payload <;> rfl

theorem first_entries (hp : f.Productive) :
    first f.entries = f.firstChild.bind fun node => first (entriesOf node) := by
  cases f with
  | nil => rfl
  | cons edge q sub rest =>
    have hne : first (nodeEntries q sub) ≠ none :=
      first_ne_none (Productive.nodeEntries_ne_nil hp.1 hp.2.1)
    obtain ⟨v, hv⟩ := Option.ne_none_iff_exists'.1 hne
    rw [entries_cons, first_append, first_under, hv]
    simp [firstChild, entriesOf, hv]

end

/-- What lies under a label compares with a path as the label compares with its head. -/
theorem lastUpTo_entries_lt (h : ∀ e ∈ f.edges, b < e) (path : List κ) :
    lastUpTo f.entries (b :: path) = none := by
  refine lastUpTo_eq_none fun e he => ?_
  obtain ⟨c, hc, p, hp⟩ := mem_entries_head he
  rw [hp]
  exact List.cons_lt_cons_iff.2 (.inl (h c hc))

theorem firstAfter_entries_lt (h : ∀ e ∈ f.edges, b < e) (path : List κ) :
    firstAfter f.entries (b :: path) = first f.entries := by
  refine firstAfter_eq_first fun e he => ?_
  obtain ⟨c, hc, p, hp⟩ := mem_entries_head he
  rw [hp]
  exact List.cons_lt_cons_iff.2 (.inl (h c hc))

theorem not_cons_lt_under {edge : κ} (h : edge < b) : ∀ e ∈ under edge l, ¬ b :: path < e.1 := by
  intro e he hlt
  obtain ⟨p, hp, -⟩ := mem_under.1 he
  rw [hp, List.cons_lt_cons_iff] at hlt
  rcases hlt with hlt | ⟨rfl, -⟩
  · exact lt_asymm h hlt
  · exact lt_irrefl _ h

theorem child_eq_none (h : ∀ e ∈ f.edges, b < e) : f.child b = none := by
  induction f with
  | nil => rfl
  | cons edge q sub rest _ ih =>
    have hb := h edge List.mem_cons_self
    rw [child, if_neg hb.ne']
    exact ih fun e he => h e (List.mem_cons_of_mem _ he)

theorem lower_productive (hp : f.Productive) {node : Option α × Forest κ α}
    (h : f.lower b = some node) : Fruitful node.1 node.2 ∧ node.2.Productive := by
  induction f with
  | nil => cases h
  | cons edge q sub rest _ ih =>
    rw [lower] at h
    split at h
    · cases hl : rest.lower b with
      | none =>
        rw [hl] at h
        obtain rfl := Option.some.inj h
        exact ⟨hp.1, hp.2.1⟩
      | some m =>
        rw [hl] at h
        obtain rfl := Option.some.inj h
        exact ih hp.2.2 hl
    · cases h

/-- The last entry up to a path: under the node with its head, or else the last one under a lesser
    label, or else the node's own. -/
theorem lastUpTo_cons (ha : f.Ascending) (hp : f.Productive) (payload : Option α) (b : κ)
    (path : List κ) :
    lastUpTo (nodeEntries payload f) (b :: path) =
      ((f.child b).bind fun node => lastUpTo (entriesOf node) path).or
        (((f.lower b).bind fun node => last (entriesOf node)).or payload) := by
  rw [nodeEntries, lastUpTo_append, lastUpTo_own]
  rw [← Option.or_assoc]
  congr 1
  induction f with
  | nil => rfl
  | cons edge q sub rest _ ih =>
    obtain ⟨hedge, hsub, hrest⟩ := ha
    obtain ⟨hq, hpsub, hprest⟩ := hp
    rw [entries_cons, lastUpTo_append]
    rcases lt_trichotomy edge b with hlt | rfl | hgt
    · have hne : last (nodeEntries q sub) ≠ none :=
        last_ne_none (Productive.nodeEntries_ne_nil hq hpsub)
      rw [ih hrest hprest, lastUpTo_eq_last (not_cons_lt_under hlt), last_under, child, lower,
        if_neg hlt.ne, if_pos hlt, Option.or_assoc]
      congr 1
      cases hl : rest.lower b with
      | none => rfl
      | some node =>
        obtain ⟨hf, hpn⟩ := lower_productive hprest hl
        obtain ⟨v, hv⟩ := Option.ne_none_iff_exists'.1
          (last_ne_none (Productive.nodeEntries_ne_nil hf hpn))
        simp [entriesOf, hv]
    · rw [lastUpTo_entries_lt hedge, lastUpTo_under_self, child, lower, if_pos rfl, if_neg (lt_irrefl _)]
      simp [entriesOf]
    · have hall : ∀ e ∈ (cons edge q sub rest).edges, b < e := by
        intro e he
        rcases List.mem_cons.1 he with rfl | he
        · exact hgt
        · exact hgt.trans (hedge e he)
      rw [← lastUpTo_append, ← entries_cons, lastUpTo_entries_lt hall, child_eq_none hall, lower,
        if_neg hgt.not_gt]
      rfl

/-- The first entry after a path: under the node with its head, or else under the next label. -/
theorem firstAfter_cons (ha : f.Ascending) (hp : f.Productive) (payload : Option α) (b : κ)
    (path : List κ) :
    firstAfter (nodeEntries payload f) (b :: path) =
      ((f.child b).bind fun node => firstAfter (entriesOf node) path).or
        ((f.upper b).bind fun node => first (entriesOf node)) := by
  rw [nodeEntries, firstAfter_append, firstAfter_own, Option.none_or]
  induction f with
  | nil => rfl
  | cons edge q sub rest _ ih =>
    obtain ⟨hedge, hsub, hrest⟩ := ha
    obtain ⟨hq, hpsub, hprest⟩ := hp
    rw [entries_cons, firstAfter_append]
    rcases lt_trichotomy edge b with hlt | rfl | hgt
    · rw [ih hrest hprest, firstAfter_eq_none (not_cons_lt_under hlt), Option.none_or, child, upper,
        if_neg hlt.ne, if_neg hlt.not_gt]
    · have hup : rest.upper edge = rest.firstChild := by
        cases rest with
        | nil => rfl
        | cons e q' sub' rest' => rw [upper, if_pos (hedge e List.mem_cons_self)]; rfl
      rw [firstAfter_entries_lt hedge, firstAfter_under_self, child, upper, if_pos rfl,
        if_neg (lt_irrefl _), hup, first_entries hprest]
      rfl
    · have hall : ∀ e ∈ (cons edge q sub rest).edges, b < e := by
        intro e he
        rcases List.mem_cons.1 he with rfl | he
        · exact hgt
        · exact hgt.trans (hedge e he)
      rw [← firstAfter_append, ← entries_cons, firstAfter_entries_lt hall, child_eq_none hall, upper,
        if_pos hgt, first_entries (show (cons edge q sub rest).Productive from ⟨hq, hpsub, hprest⟩)]
      rfl

/-- Nothing but a node's own payload is at or before the empty path. -/
theorem lastUpTo_nil (payload : Option α) (f : Forest κ α) :
    lastUpTo (nodeEntries payload f) [] = payload := by
  have hnone : lastUpTo f.entries [] = none := by
    refine lastUpTo_eq_none fun e he => ?_
    obtain ⟨c, -, p, hp⟩ := mem_entries_head he
    rw [hp]
    exact List.nil_lt_cons _ _
  rw [nodeEntries, lastUpTo_append, hnone, lastUpTo_own, Option.none_or]

theorem firstAfter_nil (payload : Option α) (f : Forest κ α) :
    firstAfter (nodeEntries payload f) [] = first f.entries := by
  have hall : firstAfter f.entries [] = first f.entries := by
    refine firstAfter_eq_first fun e he => ?_
    obtain ⟨c, -, p, hp⟩ := mem_entries_head he
    rw [hp]
    exact List.nil_lt_cons _ _
  rw [nodeEntries, firstAfter_append, firstAfter_own, Option.none_or, hall]

/-- In ascending entries, the first one after an entry is the next one. -/
theorem firstAfter_of_append {l' : List (List κ × α)}
    (h : (l ++ e :: l').Pairwise fun a b => a.1 < b.1) :
    firstAfter (l ++ e :: l') e.1 = first l' := by
  obtain ⟨-, hrest, hcross⟩ := List.pairwise_append.1 h
  rw [List.pairwise_cons] at hrest
  rw [firstAfter_append, firstAfter_eq_none fun a ha => (hcross a ha e List.mem_cons_self).not_gt,
    Option.none_or, show e :: l' = [e] ++ l' from rfl, firstAfter_append, firstAfter_eq_none (by simp),
    Option.none_or, firstAfter_eq_first hrest.1]

/-- In ascending entries, the last one up to a path is the greatest. -/
theorem lastUpTo_spec (h : l.Pairwise fun a b => a.1 < b.1) (path : List κ) :
    match lastUpTo l path with
    | none => ∀ e ∈ l, path < e.1
    | some v => ∃ p, (p, v) ∈ l ∧ ¬ path < p ∧ ∀ e ∈ l, ¬ path < e.1 → ¬ p < e.1 := by
  cases hlast : (l.filter fun e => ¬ path < e.1).getLast? with
  | none =>
    rw [lastUpTo, last, hlast]
    simp only [Option.map_none]
    intro e he
    have := List.filter_eq_nil_iff.1 (List.getLast?_eq_none_iff.1 hlast) e he
    simpa using this
  | some a =>
    rw [lastUpTo, last, hlast]
    obtain ⟨init, hinit⟩ := List.getLast?_eq_some_iff.1 hlast
    have hmem : a ∈ l.filter fun e => ¬ path < e.1 := by rw [hinit]; simp
    obtain ⟨hal, hapath⟩ := List.mem_filter.1 hmem
    refine ⟨a.1, hal, by simpa using hapath, ?_⟩
    intro e he hpath hlt
    have hein : e ∈ l.filter fun e => ¬ path < e.1 := List.mem_filter.2 ⟨he, by simpa using hpath⟩
    have hsorted := h.sublist (List.filter_sublist (p := fun e => ¬ path < e.1))
    rw [hinit] at hein hsorted
    rcases List.mem_append.1 hein with hein | hein
    · exact lt_asymm hlt ((List.pairwise_append.1 hsorted).2.2 e hein a (by simp))
    · rw [List.mem_singleton.1 hein] at hlt
      exact lt_irrefl _ hlt

/-- In ascending entries, the first one after a path is the least. -/
theorem firstAfter_spec (h : l.Pairwise fun a b => a.1 < b.1) (path : List κ) :
    match firstAfter l path with
    | none => ∀ e ∈ l, ¬ path < e.1
    | some v => ∃ p, (p, v) ∈ l ∧ path < p ∧ ∀ e ∈ l, path < e.1 → ¬ e.1 < p := by
  cases hfirst : (l.filter fun e => path < e.1) with
  | nil =>
    rw [firstAfter, hfirst]
    intro e he
    simpa using List.filter_eq_nil_iff.1 hfirst e he
  | cons a rest =>
    rw [firstAfter, hfirst]
    have hmem : a ∈ l.filter fun e => path < e.1 := by rw [hfirst]; exact List.mem_cons_self
    obtain ⟨hal, hapath⟩ := List.mem_filter.1 hmem
    refine ⟨a.1, hal, by simpa using hapath, ?_⟩
    intro e he hpath hlt
    have hein : e ∈ l.filter fun e => path < e.1 := List.mem_filter.2 ⟨he, by simpa using hpath⟩
    have hsorted := h.sublist (List.filter_sublist (p := fun e => path < e.1))
    rw [hfirst] at hein hsorted
    rcases List.mem_cons.1 hein with rfl | hein
    · exact lt_irrefl _ hlt
    · exact lt_asymm hlt (List.rel_of_pairwise_cons hsorted hein)

end Forest

end Trie
