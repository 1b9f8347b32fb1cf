import Mathlib.Data.List.Induction
import Mathlib.Logic.Function.Basic

/-! Grouping through a hash index.

    The groups stand in the order in which their keys came; the index maps a hash to the groups whose
    key has it, and a candidate is confirmed by an equality of keys. When equal keys have equal hashes
    the index finds what a search through all groups finds, whatever collides. When the equality is an
    equivalence, the groups are its classes. -/

namespace HashIndex

variable {α κ σ : Type*}

/-! ### The table -/

structure Table (κ σ : Type*) where
  groups : List (κ × σ)
  index : Nat → List Nat

def Table.empty : Table κ σ := ⟨[], fun _ => []⟩

section

variable (hash : κ → Nat) (same : κ → κ → Bool)

/-- Whether the group is the one of the key. -/
def matchesAt (t : Table κ σ) (k : κ) (i : Nat) : Bool := t.groups[i]?.any fun g => same g.1 k

/-- The position of the key's group, which is put behind the others if there is none. -/
def findOrInit (init : σ) (t : Table κ σ) (k : κ) : Nat × Table κ σ :=
  match (t.index (hash k)).find? (matchesAt same t k) with
  | some i => (i, t)
  | none => (t.groups.length,
      ⟨t.groups ++ [(k, init)],
        Function.update t.index (hash k) (t.index (hash k) ++ [t.groups.length])⟩)

def Table.modify (t : Table κ σ) (i : Nat) (f : σ → σ) : Table κ σ :=
  { t with groups := t.groups.modify i fun g => (g.1, f g.2) }

/-- One element joins the group of its key. -/
def insert (init : σ) (update : σ → α → σ) (key : α → κ) (t : Table κ σ) (x : α) : Table κ σ :=
  let found := findOrInit hash same init t (key x)
  found.2.modify found.1 fun s => update s x

/-- The index lists, for each hash, the positions of the keys that have it. -/
def Table.Indexed (t : Table κ σ) : Prop :=
  ∀ h, t.index h = (List.range t.groups.length).filter fun i =>
    t.groups[i]?.any fun g => hash g.1 == h

end

/-! ### Searching all groups -/

/-- The element joins the first group with its key, or opens one behind the others. -/
def push (same : κ → κ → Bool) (init : σ) (update : σ → α → σ) (key : α → κ) :
    List (κ × σ) → α → List (κ × σ)
  | [], x => [(key x, update init x)]
  | (k, s) :: groups, x =>
    if same k (key x) then (k, update s x) :: groups
    else (k, s) :: push same init update key groups x

variable {hash : κ → Nat} {same : κ → κ → Bool} {init : σ} {update : σ → α → σ} {key : α → κ}

theorem indexed_empty : (Table.empty : Table κ σ).Indexed hash := fun _ => rfl

variable {t : Table κ σ} {k : κ} {xs : List α}

theorem Table.Indexed.modify (h : t.Indexed hash) (i : Nat) (f : σ → σ) :
    (t.modify i f).Indexed hash := by
  intro k
  rw [Table.modify, h k]
  simp only [List.length_modify]
  refine List.filter_congr fun j _ => ?_
  rw [List.getElem?_modify]
  cases t.groups[j]? with
  | none => split <;> rfl
  | some g => split <;> rfl

theorem Table.Indexed.findOrInit (h : t.Indexed hash) (k : κ) :
    (findOrInit hash same init t k).2.Indexed hash := by
  unfold HashIndex.findOrInit
  split
  · exact h
  · intro c
    have hold : (List.range t.groups.length).filter (fun i =>
        (t.groups ++ [(k, init)])[i]?.any fun g => hash g.1 == c) = t.index c := by
      rw [h c]
      refine List.filter_congr fun i hi => ?_
      rw [List.getElem?_append_left (List.mem_range.1 hi)]
    simp only [List.length_append, List.length_cons, List.length_nil, List.range_succ,
      List.filter_append, hold, Nat.zero_add, List.filter_cons, List.filter_nil]
    rw [List.getElem?_append_right (Nat.le_refl _), Nat.sub_self]
    by_cases hc : c = hash k
    · subst hc
      simp
    · rw [Function.update_of_ne hc]
      simp [Ne.symm hc]

theorem find?_index (h : t.Indexed hash) (hhash : ∀ a b, same a b = true → hash a = hash b) (k : κ) :
    (t.index (hash k)).find? (matchesAt same t k) =
      (List.range t.groups.length).find? (matchesAt same t k) := by
  rw [h, List.find?_filter]
  congr 1
  funext i
  unfold matchesAt
  cases t.groups[i]? with
  | none => rfl
  | some g =>
    by_cases hsame : same g.1 k = true
    · simp [hsame, hhash g.1 k hsame]
    · simp [hsame]

theorem find?_range_cons {g : κ × σ} {gs : List (κ × σ)} {ix : Nat → List Nat} :
    (List.range (g :: gs).length).find? (matchesAt same ⟨g :: gs, ix⟩ k) =
      if same g.1 k then some 0
      else ((List.range gs.length).find? (matchesAt same ⟨gs, ix⟩ k)).map (· + 1) := by
  rw [List.length_cons, List.range_succ_eq_map, List.find?_cons]
  cases hsame : same g.1 k with
  | true => simp [matchesAt, hsame]
  | false =>
    simp only [matchesAt, List.getElem?_cons_zero, Option.any_some, hsame, List.find?_map,
      Bool.false_eq_true, if_false]
    rfl

/-- The index changes nothing in the groups. -/
theorem insert_groups (h : t.Indexed hash) (hhash : ∀ a b, same a b = true → hash a = hash b)
    (x : α) :
    (insert hash same init update key t x).groups = push same init update key t.groups x := by
  unfold insert findOrInit
  rw [find?_index h hhash]
  obtain ⟨groups, ix⟩ := t
  -- the position is that of the groups alone
  suffices hgroups : ∀ groups : List (κ × σ),
      (match (List.range groups.length).find? (matchesAt same ⟨groups, ix⟩ (key x)) with
        | some i => groups.modify i fun g => (g.1, update g.2 x)
        | none => (groups ++ [(key x, init)]).modify groups.length fun g => (g.1, update g.2 x)) =
      push same init update key groups x by
    rw [← hgroups groups]
    dsimp only
    cases (List.range groups.length).find? (matchesAt same ⟨groups, ix⟩ (key x)) <;> rfl
  intro groups
  induction groups with
  | nil => rfl
  | cons g gs ih =>
    obtain ⟨k, s⟩ := g
    rw [find?_range_cons, push, ← ih]
    cases hsame : same k (key x) with
    | true => rfl
    | false =>
      simp only [Bool.false_eq_true, if_false]
      cases (List.range gs.length).find? (matchesAt same ⟨gs, ix⟩ (key x)) <;> rfl

theorem indexed_insert (h : t.Indexed hash) (x : α) :
    (insert hash same init update key t x).Indexed hash := (h.findOrInit (key x)).modify _ _

/-- The run: the table holds what searching all groups each time makes. -/
theorem foldl_insert (h : t.Indexed hash) (hhash : ∀ a b, same a b = true → hash a = hash b) :
    (xs.foldl (insert hash same init update key) t).groups =
      xs.foldl (push same init update key) t.groups := by
  induction xs generalizing t with
  | nil => rfl
  | cons x xs ih =>
    rw [List.foldl_cons, List.foldl_cons, ih (indexed_insert h x), insert_groups h hhash]

/-- Groups that keep their elements: folding these afterwards is folding them as they come. -/
theorem map_push_members (groups : List (κ × List α)) (x : α) :
    (push same [] (fun members x => members ++ [x]) key groups x).map
        (fun g => (g.1, g.2.foldl update init)) =
      push same init update key (groups.map fun g => (g.1, g.2.foldl update init)) x := by
  induction groups with
  | nil => rfl
  | cons g groups ih =>
    obtain ⟨k, members⟩ := g
    rw [push, List.map_cons, push]
    split
    · rw [List.map_cons, List.foldl_append]
      rfl
    · rw [List.map_cons, ih]

theorem foldl_push_members (xs : List α) (groups : List (κ × List α)) :
    (xs.foldl (push same [] (fun members x => members ++ [x]) key) groups).map
        (fun g => (g.1, g.2.foldl update init)) =
      xs.foldl (push same init update key) (groups.map fun g => (g.1, g.2.foldl update init)) := by
  induction xs generalizing groups with
  | nil => rfl
  | cons x xs ih => rw [List.foldl_cons, List.foldl_cons, ih, map_push_members]

theorem foldl_push_const (hk : same k k = true) (xs : List α) (s : σ) :
    xs.foldl (push same init update fun _ => k) [(k, s)] = [(k, xs.foldl update s)] := by
  induction xs generalizing s with
  | nil => rfl
  | cons x xs ih =>
    rw [List.foldl_cons, List.foldl_cons, push, if_pos hk, ih]

/-! ### Classes -/

/-- The keys no earlier key is the same as. -/
def firstKeys (same : κ → κ → Bool) (seen : List κ) : List κ → List κ
  | [] => []
  | k :: ks =>
    if seen.any (same · k) then firstKeys same seen ks else k :: firstKeys same (seen ++ [k]) ks

/-- The elements whose key is the given one. -/
def members (same : κ → κ → Bool) (key : α → κ) (xs : List α) (k : κ) : List α :=
  xs.filter fun x => same k (key x)

/-- One class for each key, in the order in which the keys first come. -/
def classes (same : κ → κ → Bool) (key : α → κ) (xs : List α) : List (κ × List α) :=
  (firstKeys same [] (xs.map key)).map fun k => (k, members same key xs k)

theorem firstKeys_concat (seen ks : List κ) (k : κ) :
    firstKeys same seen (ks ++ [k]) = firstKeys same seen ks ++
      if (seen ++ firstKeys same seen ks).any (same · k) then [] else [k] := by
  induction ks generalizing seen with
  | nil =>
    simp only [List.nil_append, firstKeys, List.append_nil]
  | cons a ks ih =>
    rw [List.cons_append, firstKeys, firstKeys]
    split
    · exact ih seen
    · rw [ih (seen ++ [a]), List.cons_append, List.append_assoc]
      rfl

theorem exists_firstKey {ks : List κ} (hrefl : ∀ k ∈ ks, same k k = true) (hk : k ∈ ks) :
    ∃ f ∈ firstKeys same [] ks, same f k = true := by
  induction ks using List.reverseRecOn with
  | nil => cases hk
  | append_singleton ks a ih =>
    rw [firstKeys_concat, List.nil_append]
    rcases List.mem_append.1 hk with hk | hk
    · obtain ⟨f, hf, hsame⟩ := ih (fun k hk => hrefl k (List.mem_append_left _ hk)) hk
      exact ⟨f, List.mem_append_left _ hf, hsame⟩
    · obtain rfl := List.mem_singleton.1 hk
      split
      · rename_i hany
        obtain ⟨f, hf, hsame⟩ := List.any_eq_true.1 hany
        exact ⟨f, List.mem_append_left _ hf, hsame⟩
      · exact ⟨k, by simp, hrefl k (by simp)⟩

theorem pairwise_firstKeys (ks : List κ) :
    (firstKeys same [] ks).Pairwise fun a b => same a b = false := by
  induction ks using List.reverseRecOn with
  | nil => exact List.Pairwise.nil
  | append_singleton ks a ih =>
    rw [firstKeys_concat, List.nil_append]
    split
    · rwa [List.append_nil]
    · rename_i hany
      refine List.pairwise_append.2 ⟨ih, List.pairwise_singleton _ _, fun f hf b hb => ?_⟩
      obtain rfl := List.mem_singleton.1 hb
      simpa using fun hsame => hany (List.any_eq_true.2 ⟨f, hf, hsame⟩)

theorem mem_of_mem_firstKeys {seen ks : List κ} (h : k ∈ firstKeys same seen ks) : k ∈ ks := by
  induction ks generalizing seen with
  | nil => cases h
  | cons a ks ih =>
    rw [firstKeys] at h
    split at h
    · exact List.mem_cons_of_mem _ (ih h)
    · rcases List.mem_cons.1 h with rfl | h
      · exact List.mem_cons_self
      · exact List.mem_cons_of_mem _ (ih h)

theorem ne_nil_of_mem_classes {g : κ × List α} (hrefl : ∀ x ∈ xs, same (key x) (key x) = true)
    (h : g ∈ classes same key xs) : g.2 ≠ [] := by
  obtain ⟨k, hk, rfl⟩ := List.mem_map.1 h
  obtain ⟨x, hx, rfl⟩ := List.mem_map.1 (mem_of_mem_firstKeys hk)
  exact List.ne_nil_of_mem (List.mem_filter.2 ⟨hx, hrefl x hx⟩)

theorem classes_const (hk : same k k = true) (hne : xs ≠ []) :
    classes same (fun _ => k) xs = [(k, xs)] := by
  have hfirst : ∀ ks : List κ, (∀ a ∈ ks, a = k) → firstKeys same [k] ks = [] := by
    intro ks hks
    induction ks with
    | nil => rfl
    | cons a ks ih =>
      obtain ⟨rfl, hks⟩ := List.forall_mem_cons.1 hks
      rw [firstKeys, if_pos (by simpa using hk)]
      exact ih hks
  obtain _ | ⟨x, xs⟩ := xs
  · exact absurd rfl hne
  · have hmembers : members same (fun _ => k) (x :: xs) k = x :: xs :=
      List.filter_eq_self.2 fun _ _ => hk
    rw [classes, List.map_cons, firstKeys, if_neg (by simp), List.nil_append,
      hfirst _ (by simp), List.map_cons, hmembers]
    rfl

/-- An element behind the others: it joins one group, or opens one. -/
theorem push_map (ks : List κ) (f : κ → σ) (x : α)
    (hone : ks.Pairwise fun a b => same a (key x) = true → same b (key x) = false) :
    push same init update key (ks.map fun k => (k, f k)) x =
      (ks.map fun k => (k, if same k (key x) then update (f k) x else f k)) ++
        if ks.any (same · (key x)) then [] else [(key x, update init x)] := by
  induction ks with
  | nil => rfl
  | cons k ks ih =>
    obtain ⟨hhead, htail⟩ := List.pairwise_cons.1 hone
    rw [List.map_cons, push, List.map_cons, List.any_cons]
    cases hsame : same k (key x) with
    | true =>
      simp only [if_true, Bool.true_or, List.append_nil]
      congr 1
      refine List.map_congr_left fun b hb => ?_
      rw [hhead b hb hsame]
      rfl
    | false =>
      simp only [Bool.false_eq_true, if_false, Bool.false_or, ih htail]
      rfl

/-- The equality is symmetric and transitive. -/
structure Partial (same : κ → κ → Bool) : Prop where
  symm : ∀ a b, same a b = true → same b a = true
  trans : ∀ a b c, same a b = true → same b c = true → same a c = true

/-- Searching all groups makes the classes, each with the fold of its elements. -/
theorem foldl_push (hsame : Partial same) (hrefl : ∀ x ∈ xs, same (key x) (key x) = true) :
    xs.foldl (push same init update key) [] =
      (classes same key xs).map fun g => (g.1, g.2.foldl update init) := by
  induction xs using List.reverseRecOn with
  | nil => rfl
  | append_singleton xs x ih =>
    have hrefl' : ∀ y ∈ xs, same (key y) (key y) = true :=
      fun y hy => hrefl y (List.mem_append_left _ hy)
    have hkeys : ∀ k ∈ xs.map key, same k k = true := by
      intro k hk
      obtain ⟨y, hy, rfl⟩ := List.mem_map.1 hk
      exact hrefl' y hy
    have hone : (firstKeys same [] (xs.map key)).Pairwise
        fun a b => same a (key x) = true → same b (key x) = false := by
      refine (pairwise_firstKeys (xs.map key)).imp fun {a b} hab ha => ?_
      by_contra hb
      rw [hsame.trans a (key x) b ha (hsame.symm _ _ (by simpa using hb))] at hab
      cases hab
    rw [List.foldl_append, ih hrefl', List.foldl_cons, List.foldl_nil, classes, List.map_map]
    have hpush := @push_map _ _ _ same init update key (firstKeys same [] (xs.map key))
      (fun k => (members same key xs k).foldl update init) x hone
    refine hpush.trans ?_
    rw [classes, List.map_append, List.map_cons, List.map_nil, firstKeys_concat, List.nil_append,
      List.map_append, List.map_append, List.map_map]
    congr 1
    · refine List.map_congr_left fun k _ => ?_
      simp only [Function.comp_apply, members, List.filter_append, List.filter_cons, List.filter_nil,
        List.foldl_append]
      split <;> rfl
    · split
      · rfl
      · rename_i hany
        -- no earlier element has the key, or its first key would
        have hnone : members same key xs (key x) = [] := by
          refine List.filter_eq_nil_iff.2 fun y hy hxy => hany ?_
          obtain ⟨f, hf, hfy⟩ := exists_firstKey hkeys (List.mem_map_of_mem hy)
          exact List.any_eq_true.2 ⟨f, hf, hsame.trans f (key y) (key x) hfy (hsame.symm _ _ hxy)⟩
        have hself : same (key x) (key x) = true := hrefl x (by simp)
        simp only [List.map_cons, List.map_nil, members] at hnone ⊢
        rw [List.filter_append, hnone, List.nil_append, List.filter_cons, hself]
        rfl

/-- Through the index: the classes, each with the fold of its elements. -/
theorem foldl_insert_empty (hsame : Partial same)
    (hhash : ∀ a b, same a b = true → hash a = hash b) {xs : List α}
    (hrefl : ∀ x ∈ xs, same (key x) (key x) = true) :
    (xs.foldl (insert hash same init update key) Table.empty).groups =
      (classes same key xs).map fun g => (g.1, g.2.foldl update init) := by
  rw [foldl_insert indexed_empty hhash]
  exact foldl_push hsame hrefl

/-! ### How many classes -/

theorem length_firstKeys_le (seen ks : List κ) : (firstKeys same seen ks).length ≤ ks.length := by
  induction ks generalizing seen with
  | nil => exact Nat.le_refl _
  | cons k ks ih =>
    rw [firstKeys]
    split
    · exact Nat.le_trans (ih seen) (Nat.le_succ _)
    · exact Nat.succ_le_succ (ih _)

/-- No key is dropped just where all differ. -/
theorem length_firstKeys_eq_iff (seen ks : List κ) :
    (firstKeys same seen ks).length = ks.length ↔
      (∀ s ∈ seen, ∀ k ∈ ks, same s k = false) ∧ ks.Pairwise fun a b => same a b = false := by
  induction ks generalizing seen with
  | nil => simp [firstKeys]
  | cons k ks ih =>
    rw [firstKeys]
    split
    · rename_i hany
      obtain ⟨s, hs, hsame⟩ := List.any_eq_true.1 hany
      have hle := @length_firstKeys_le _ same seen ks
      refine ⟨fun h => ?_, fun h => ?_⟩
      · rw [List.length_cons] at h
        omega
      · rw [h.1 s hs k List.mem_cons_self] at hsame
        cases hsame
    · rename_i hany
      have hfresh : ∀ s ∈ seen, same s k = false := fun s hs => by
        simpa using fun hsame => hany (List.any_eq_true.2 ⟨s, hs, hsame⟩)
      rw [List.length_cons, List.length_cons, Nat.succ_inj, ih, List.pairwise_cons]
      constructor
      · rintro ⟨hseen, hpair⟩
        refine ⟨fun s hs b hb => ?_, fun b hb => hseen k (by simp) b hb, hpair⟩
        rcases List.mem_cons.1 hb with rfl | hb
        · exact hfresh s hs
        · exact hseen s (List.mem_append_left _ hs) b hb
      · rintro ⟨hseen, hk, hpair⟩
        refine ⟨fun s hs b hb => ?_, hpair⟩
        rcases List.mem_append.1 hs with hs | hs
        · exact hseen s hs b (List.mem_cons_of_mem _ hb)
        · rw [List.mem_singleton.1 hs]
          exact hk b hb

end HashIndex
