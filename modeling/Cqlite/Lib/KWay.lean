import Cqlite.Lib.Rank

/-! Merging several runs through a heap that holds one entry of each.

    The least entry of the heap is taken out and replaced by the next entry of its run. `pops` is the
    order in which the entries come out. Runs need not be sorted by the comparison; what a run must
    satisfy for a relation to hold along the output is stated in `pops_pairwise`. -/

namespace KWay

open Rank

variable {α : Type*}

section Algorithm

variable (cmp : α → α → Ordering) (index : α → Nat)

/-- The least element and the rest. -/
def popMin : List α → Option (α × List α)
  | [] => none
  | e :: heap =>
    match popMin heap with
    | none => some (e, [])
    | some (least, rest) => if cmp e least = .gt then some (least, e :: rest) else some (e, heap)

/-- The heap and what is left of every run. -/
structure Feed (α : Type*) where
  heap : List α
  tails : List (List α)

/-- One entry of the run moves to the heap. -/
def Feed.refill (s : Feed α) (i : Nat) : Feed α :=
  match s.tails[i]? with
  | some (e :: tail) => ⟨s.heap ++ [e], s.tails.set i tail⟩
  | _ => s

def Feed.pull (s : Feed α) : Option (α × Feed α) :=
  match popMin cmp s.heap with
  | none => none
  | some (e, rest) => some (e, (Feed.mk rest s.tails).refill (index e))

/-- The entries still to come. -/
def Feed.size (s : Feed α) : Nat := s.heap.length + (s.tails.map List.length).sum

def popN : Nat → Feed α → List α
  | 0, _ => []
  | n + 1, s =>
    match s.pull cmp index with
    | none => []
    | some (e, s') => e :: popN n s'

def Feed.pops (s : Feed α) : List α := popN cmp index s.size s

/-- Every run's first entry in the heap. -/
def Feed.start (runs : List (List α)) : Feed α := ⟨runs.filterMap List.head?, runs.map List.tail⟩

/-- The order in which the entries of the runs come out. -/
def popOrder (runs : List (List α)) : List α := (Feed.start runs).pops cmp index

end Algorithm

variable {cmp : α → α → Ordering} {index : α → Nat}

/-! ### The minimum -/

variable {heap rest l : List α} {e x : α} {i k : Nat} {s s' : Feed α}

theorem popMin_eq_none : popMin cmp heap = none ↔ heap = [] := by
  cases heap with
  | nil => simp [popMin]
  | cons a heap =>
    rw [popMin]
    split
    · simp
    · split <;> simp

theorem popMin_perm (h : popMin cmp heap = some (e, rest)) : (e :: rest).Perm heap := by
  induction heap generalizing e rest with
  | nil => cases h
  | cons a heap ih =>
    rw [popMin] at h
    cases hp : popMin cmp heap with
    | none =>
      rw [hp] at h
      cases h
      rw [popMin_eq_none.mp hp]
    | some q =>
      obtain ⟨least, rest'⟩ := q
      rw [hp] at h
      simp only at h
      split at h
      · cases h
        exact (List.Perm.swap a _ _).trans ((ih hp).cons a)
      · cases h
        exact List.Perm.refl _

/-- Over entries that the comparison orders, the popped one is least. -/
theorem popMin_le (ht : TotalOn cmp l) (hl : ∀ a ∈ heap, a ∈ l)
    (h : popMin cmp heap = some (e, rest)) : ∀ a ∈ heap, cmp e a ≠ .gt := by
  induction heap generalizing e rest with
  | nil => cases h
  | cons b heap ih =>
    have hb : b ∈ l := hl b (by simp)
    have hl' : ∀ a ∈ heap, a ∈ l := fun a ha => hl a (by simp [ha])
    rw [popMin] at h
    cases hp : popMin cmp heap with
    | none =>
      rw [hp] at h
      cases h
      rw [popMin_eq_none.mp hp]
      simp [ht.refl hb]
    | some q =>
      obtain ⟨least, rest'⟩ := q
      have hleast : least ∈ heap := (popMin_perm hp).subset (by simp)
      have hmin := ih hl' hp
      rw [hp] at h
      simp only at h
      intro a ha
      split at h
      · rename_i hgt
        cases h
        rcases List.mem_cons.mp ha with rfl | ha
        · rw [(ht.lt_iff_gt (hl' _ hleast) hb).mpr hgt]
          simp
        · exact hmin a ha
      · rename_i hle
        cases h
        rcases List.mem_cons.mp ha with rfl | ha
        · simp [ht.refl hb]
        · exact ht.trans _ hb _ (hl' _ hleast) _ (hl' a ha) hle (hmin a ha)

/-! ### Pulling -/

theorem sum_length_set {tails : List (List α)} {t : List α} (h : tails[i]? = some t) (t' : List α) :
    ((tails.set i t').map List.length).sum + t.length =
      (tails.map List.length).sum + t'.length := by
  induction tails generalizing i with
  | nil => simp at h
  | cons a tails ih =>
    cases i with
    | zero =>
      obtain rfl : a = t := by simpa using h
      simp
      omega
    | succ i =>
      have := ih (i := i) (by simpa using h)
      simp only [List.set_cons_succ, List.map_cons, List.sum_cons]
      omega

theorem Feed.refill_size (s : Feed α) (i : Nat) : (s.refill i).size = s.size := by
  unfold Feed.refill
  split
  · rename_i e tail h
    have := sum_length_set h tail
    simp only [Feed.size, List.length_append, List.length_cons, List.length_nil] at *
    omega
  · rfl

theorem Feed.pull_of_popMin (h : popMin cmp s.heap = some (e, rest)) :
    s.pull cmp index = some (e, (Feed.mk rest s.tails).refill (index e)) := by
  rw [Feed.pull, h]

theorem Feed.pull_eq_some (h : s.pull cmp index = some (e, s')) :
    ∃ rest, popMin cmp s.heap = some (e, rest) ∧ s' = (Feed.mk rest s.tails).refill (index e) := by
  cases hp : popMin cmp s.heap with
  | none =>
    rw [Feed.pull, hp] at h
    cases h
  | some q =>
    rw [Feed.pull_of_popMin hp] at h
    cases h
    exact ⟨q.2, rfl, rfl⟩

theorem Feed.pull_size (h : s.pull cmp index = some (e, s')) : s'.size + 1 = s.size := by
  obtain ⟨rest, hp, rfl⟩ := Feed.pull_eq_some h
  have hlen := (popMin_perm hp).length_eq
  rw [Feed.refill_size]
  simp only [Feed.size, List.length_cons] at *
  omega

/-- The output is the pulled entry followed by the output of what is left. -/
theorem Feed.pops_eq (s : Feed α) :
    s.pops cmp index =
      match s.pull cmp index with
      | none => []
      | some (e, s') => e :: s'.pops cmp index := by
  cases h : s.pull cmp index with
  | none =>
    unfold Feed.pops
    cases s.size with
    | zero => rfl
    | succ n => simp [popN, h]
  | some q =>
    obtain ⟨e, s'⟩ := q
    have hsize := Feed.pull_size h
    unfold Feed.pops
    rw [← hsize, popN, h]

theorem Feed.pops_eq_cons (h : s.pops cmp index = e :: l) :
    ∃ rest, popMin cmp s.heap = some (e, rest) ∧
      ((Feed.mk rest s.tails).refill (index e)).pops cmp index = l := by
  rw [Feed.pops_eq] at h
  cases hp : s.pull cmp index with
  | none =>
    rw [hp] at h
    cases h
  | some q =>
    obtain ⟨rest, hpop, hq⟩ := Feed.pull_eq_some hp
    rw [hp] at h
    obtain ⟨rfl, rfl⟩ := List.cons.inj h
    exact ⟨rest, hpop, by rw [hq]⟩

theorem Feed.heap_of_pops_nil (h : s.pops cmp index = []) : s.heap = [] := by
  cases hpop : popMin cmp s.heap with
  | none => exact popMin_eq_none.mp hpop
  | some q =>
    rw [Feed.pops_eq, Feed.pull_of_popMin hpop] at h
    cases h

/-- Induction along the output: a feed with an empty heap, and a step behind the least entry. -/
theorem Feed.pops_induction {I : Feed α → Prop} {P : Feed α → List α → Prop}
    (hpull : ∀ {s s' e}, I s → s.pull cmp index = some (e, s') → I s')
    (hend : ∀ {s}, I s → s.heap = [] → P s [])
    (hstep : ∀ {s e rest}, I s → popMin cmp s.heap = some (e, rest) →
      P ((Feed.mk rest s.tails).refill (index e))
        (((Feed.mk rest s.tails).refill (index e)).pops cmp index) →
      P s (e :: ((Feed.mk rest s.tails).refill (index e)).pops cmp index)) (hs : I s) :
    P s (s.pops cmp index) := by
  induction hn : s.size using Nat.strong_induction_on generalizing s with
  | _ n ih =>
    rw [Feed.pops_eq]
    cases hpop : popMin cmp s.heap with
    | none =>
      simp only [Feed.pull, hpop]
      exact hend hs (popMin_eq_none.mp hpop)
    | some q =>
      have hp : s.pull cmp index = some (q.1, (Feed.mk q.2 s.tails).refill (index q.1)) :=
        Feed.pull_of_popMin hpop
      have hsize := Feed.pull_size hp
      rw [hp]
      exact hstep hs hpop (ih _ (by omega) (hpull hs hp) rfl)

/-! ### What is left -/

/-- The entry is still to come. -/
def Feed.Mem (s : Feed α) (x : α) : Prop := x ∈ s.heap ∨ ∃ t ∈ s.tails, x ∈ t

theorem Feed.refill_mem (h : (s.refill i).Mem x) : s.Mem x := by
  unfold Feed.refill at h
  split at h
  · rename_i e tail ht
    have hmem := List.mem_of_getElem? ht
    rcases h with h | ⟨t, ht', hx⟩
    · rcases List.mem_append.mp h with h | h
      · exact .inl h
      · exact .inr ⟨_, hmem, by simp [List.mem_singleton.mp h]⟩
    · rcases List.mem_or_eq_of_mem_set ht' with ht' | rfl
      · exact .inr ⟨t, ht', hx⟩
      · exact .inr ⟨_, hmem, List.mem_cons_of_mem _ hx⟩
  · exact h

theorem Feed.pull_mem (h : popMin cmp s.heap = some (e, rest))
    (hx : ((Feed.mk rest s.tails).refill (index e)).Mem x) : s.Mem x :=
  (Feed.refill_mem hx).imp_left fun hx => (popMin_perm h).subset (List.mem_cons_of_mem _ hx)

theorem Feed.mem_of_mem_pops (h : x ∈ s.pops cmp index) : s.Mem x := by
  have hall : ∀ x ∈ s.pops cmp index, s.Mem x := by
    refine Feed.pops_induction (I := fun _ => True) (P := fun s l => ∀ x ∈ l, s.Mem x)
      (fun _ _ => trivial) (fun _ _ x hx => (nomatch hx)) (fun {s e rest} _ hpop ih x hx => ?_) trivial
    rcases List.mem_cons.mp hx with rfl | hx
    · exact .inl ((popMin_perm hpop).subset List.mem_cons_self)
    · exact Feed.pull_mem hpop (ih x hx)
  exact hall x h

/-! ### Heap and runs -/

/-- The heap holds the next entry of every run that has not ended. -/
structure Inv (index : α → Nat) (runs : List (List α)) (s : Feed α) : Prop where
  suffix : ∀ e ∈ s.heap, ∃ t run, s.tails[index e]? = some t ∧ runs[index e]? = some run ∧
    (e :: t) <:+ run
  distinct : s.heap.Pairwise fun a b => index a ≠ index b
  cover : ∀ i e t, s.tails[i]? = some (e :: t) → ∃ h ∈ s.heap, index h = i

/-- Entries carry the index of their run. -/
def Indexed (index : α → Nat) (runs : List (List α)) : Prop :=
  ∀ i run, runs[i]? = some run → ∀ e ∈ run, index e = i

variable {runs : List (List α)}

theorem Indexed.offset (hidx : Indexed index runs) :
    ∀ i run, runs[i]? = some run → ∀ e ∈ run, index e = 0 + i := fun i r hr e he => by
  rw [hidx i r hr e he, Nat.zero_add]

/-- The step lemma of the heap. -/
theorem Inv.pull (hidx : Indexed index runs) (h : Inv index runs s)
    (hp : s.pull cmp index = some (e, s')) : Inv index runs s' := by
  obtain ⟨rest, hpop, rfl⟩ := Feed.pull_eq_some hp
  have hperm := popMin_perm hpop
  have hmem : ∀ a ∈ rest, a ∈ s.heap := fun a ha => hperm.subset (by simp [ha])
  obtain ⟨hne, hdist⟩ := List.pairwise_cons.mp
    ((hperm.pairwise_iff fun {a b} hab => Ne.symm hab).mpr h.distinct)
  obtain ⟨t, run, ht, hrun, hsuf⟩ := h.suffix e (hperm.subset (by simp))
  -- another run keeps its head
  have hcover : ∀ i a u, i ≠ index e → s.tails[i]? = some (a :: u) → ∃ b ∈ rest, index b = i :=
    fun i a u hi hu => by
      obtain ⟨b, hb, rfl⟩ := h.cover i a u hu
      rcases List.mem_cons.mp (hperm.symm.subset hb) with rfl | hb
      · exact absurd rfl hi
      · exact ⟨b, hb, rfl⟩
  cases t with
  | nil =>
    have hrefill : (Feed.mk rest s.tails).refill (index e) = ⟨rest, s.tails⟩ := by
      simp [Feed.refill, ht]
    rw [hrefill]
    refine ⟨fun a ha => h.suffix a (hmem a ha), hdist, fun i a u hu => ?_⟩
    refine hcover i a u (fun hi => ?_) hu
    simp only [hi, ht, Option.some.injEq] at hu
    cases hu
  | cons b t =>
    have hb : index b = index e :=
      hidx _ run hrun b (hsuf.subset (by simp))
    have hlt : index e < s.tails.length := (List.getElem?_eq_some_iff.mp ht).1
    have hrefill : (Feed.mk rest s.tails).refill (index e) =
        ⟨rest ++ [b], s.tails.set (index e) t⟩ := by
      simp [Feed.refill, ht]
    rw [hrefill]
    refine ⟨fun a ha => ?_, ?_, fun i a u hu => ?_⟩
    · rcases List.mem_append.mp ha with ha | ha
      · rw [List.getElem?_set_ne (hne a ha)]
        exact h.suffix a (hmem a ha)
      · obtain rfl := List.mem_singleton.mp ha
        rw [hb]
        exact ⟨t, run, List.getElem?_set_self hlt, hrun, (List.suffix_cons e _).trans hsuf⟩
    · refine List.pairwise_append.mpr ⟨hdist, List.pairwise_singleton _ _, fun a ha c hc => ?_⟩
      rw [List.mem_singleton.mp hc, hb]
      exact (hne a ha).symm
    · by_cases hi : i = index e
      · exact ⟨b, by simp, hb.trans hi.symm⟩
      · rw [List.getElem?_set_ne (Ne.symm hi)] at hu
        obtain ⟨c, hc, hci⟩ := hcover i a u hi hu
        exact ⟨c, by simp [hc], hci⟩

theorem Inv.exists_head (h : Inv index runs s) (hx : s.Mem x) :
    ∃ e ∈ s.heap, ∃ t run, run ∈ runs ∧ (e :: t) <:+ run ∧ x ∈ e :: t := by
  rcases hx with hx | ⟨t, ht, hx⟩
  · obtain ⟨t, run, -, hrun, hsuf⟩ := h.suffix x hx
    exact ⟨x, hx, t, run, List.mem_of_getElem? hrun, hsuf, by simp⟩
  · obtain ⟨i, hi⟩ := List.getElem?_of_mem ht
    cases t with
    | nil => cases hx
    | cons a u =>
      obtain ⟨e, he, hie⟩ := h.cover i a u hi
      obtain ⟨t', run, ht', hrun, hsuf⟩ := h.suffix e he
      rw [hie, hi] at ht'
      cases ht'
      exact ⟨e, he, _, run, List.mem_of_getElem? hrun, hsuf, List.mem_cons_of_mem _ hx⟩

/-- A relation holds along the output when every entry at or below the head of a run is related to
    everything from that head on. -/
theorem pops_pairwise (ht : TotalOn cmp l) (hl : ∀ run ∈ runs, ∀ x ∈ run, x ∈ l)
    (hidx : Indexed index runs) {p : α → Prop} {R : α → α → Prop}
    (hR : ∀ run ∈ runs, ∀ e t, (e :: t) <:+ run → ∀ x ∈ l, p x → cmp x e ≠ .gt →
      ∀ y ∈ e :: t, p y → R x y) (hs : Inv index runs s) :
    (s.pops cmp index).Pairwise fun x y => p x → p y → R x y := by
  refine Feed.pops_induction (P := fun _ l => l.Pairwise fun x y => p x → p y → R x y)
    (fun hs hp => hs.pull hidx hp) (fun _ _ => .nil) (fun {s e rest} hs hpop ih => ?_) hs
  have hheap : ∀ a ∈ s.heap, a ∈ l := fun a ha => by
    obtain ⟨t, run, -, hrun, hsuf⟩ := hs.suffix a ha
    exact hl run (List.mem_of_getElem? hrun) a (hsuf.subset (by simp))
  refine List.pairwise_cons.mpr ⟨fun y hy hpe hpy => ?_, ih⟩
  obtain ⟨h, hh, t, run, hrun, hsuf, hyt⟩ :=
    hs.exists_head (Feed.pull_mem hpop (Feed.mem_of_mem_pops hy))
  exact hR run hrun h t hsuf e (hheap e ((popMin_perm hpop).subset List.mem_cons_self)) hpe
    (popMin_le ht hheap hpop h hh) y hyt hpy

/-! ### The start -/

/-- Refilling from every run in turn puts the first entries into the heap. -/
theorem foldl_refill (runs : List (List α)) :
    (List.range runs.length).foldl Feed.refill ⟨[], runs⟩ = Feed.start runs := by
  have hk : ∀ k ≤ runs.length, (List.range k).foldl Feed.refill ⟨[], runs⟩ =
      ⟨(runs.take k).filterMap List.head?, (runs.take k).map List.tail ++ runs.drop k⟩ := by
    intro k hk
    induction k with
    | zero => simp
    | succ k ih =>
      obtain ⟨run, hrun⟩ : ∃ run, runs[k]? = some run := ⟨_, List.getElem?_eq_getElem hk⟩
      have hlen : ((runs.take k).map List.tail).length = k := by simp; omega
      have hdrop : runs.drop k = run :: runs.drop (k + 1) := by
        have hget : runs[k] = run := by simpa [List.getElem?_eq_getElem hk] using hrun
        rw [List.drop_eq_getElem_cons hk, hget]
      have htake : runs.take (k + 1) = runs.take k ++ [run] := by
        rw [List.take_add_one, hrun]; rfl
      rw [List.range_succ, List.foldl_append, ih (Nat.le_of_succ_le hk), htake]
      simp only [List.foldl_cons, List.foldl_nil, hdrop, Feed.refill]
      rw [List.getElem?_append_right hlen.le, hlen, Nat.sub_self, List.getElem?_cons_zero]
      cases run with
      | nil => simp
      | cons a run =>
        simp only [List.filterMap_append, List.map_append]
        rw [List.set_append_right _ _ hlen.le, hlen, Nat.sub_self, List.set_cons_zero]
        simp
  rw [hk _ le_rfl]
  simp [Feed.start]

theorem foldl_refill_of_ended (h : ∀ t ∈ s.tails, t = []) (is : List Nat) :
    is.foldl Feed.refill s = s := by
  induction is with
  | nil => rfl
  | cons i is ih =>
    have hi : s.refill i = s := by
      unfold Feed.refill
      split
      · rename_i e t ht
        cases h _ (List.mem_of_getElem? ht)
      · rfl
    rw [List.foldl_cons, hi, ih]

theorem Inv.ended (h : Inv index runs s) (hheap : s.heap = []) :
    ∀ t ∈ s.tails, t = [] := by
  intro t ht
  obtain ⟨i, hi⟩ := List.getElem?_of_mem ht
  cases t with
  | nil => rfl
  | cons e t =>
    obtain ⟨a, ha, -⟩ := h.cover i e t hi
    rw [hheap] at ha
    cases ha

theorem Feed.start_mem (h : (Feed.start runs).Mem x) :
    ∃ run ∈ runs, x ∈ run := by
  rcases h with h | ⟨t, ht, hx⟩
  · obtain ⟨run, hrun, hx⟩ := List.mem_filterMap.mp h
    exact ⟨run, hrun, List.mem_of_mem_head? hx⟩
  · obtain ⟨run, hrun, rfl⟩ := List.mem_map.mp ht
    exact ⟨run, hrun, List.mem_of_mem_tail hx⟩

theorem heads_distinct (hidx : ∀ i run, runs[i]? = some run → ∀ e ∈ run, index e = k + i) :
    (∀ e ∈ runs.filterMap List.head?, k ≤ index e) ∧
      (runs.filterMap List.head?).Pairwise fun a b => index a ≠ index b := by
  induction runs generalizing k with
  | nil => simp
  | cons run runs ih =>
    obtain ⟨hge, hdist⟩ := ih (k := k + 1) fun i r hr e he => by
      rw [hidx (i + 1) r (by simpa using hr) e he]
      omega
    cases run with
    | nil =>
      simp only [List.filterMap_cons, List.head?_nil]
      exact ⟨fun e he => Nat.le_of_succ_le (hge e he), hdist⟩
    | cons a run =>
      have ha : index a = k := hidx 0 (a :: run) rfl a (by simp)
      simp only [List.filterMap_cons, List.head?_cons]
      refine ⟨fun e he => ?_, List.pairwise_cons.mpr ⟨fun e he heq => ?_, hdist⟩⟩
      · rcases List.mem_cons.mp he with rfl | he
        · exact ha.ge
        · exact Nat.le_of_succ_le (hge e he)
      · have := hge e he
        omega

theorem inv_start (hidx : Indexed index runs) :
    Inv index runs (Feed.start runs) := by
  refine ⟨fun e he => ?_, (heads_distinct hidx.offset).2, fun i e t ht => ?_⟩
  · obtain ⟨run, hrun, hhead⟩ := List.mem_filterMap.mp he
    obtain ⟨i, hi⟩ := List.getElem?_of_mem hrun
    have he : index e = i := hidx i run hi e (List.mem_of_mem_head? hhead)
    refine ⟨run.tail, run, ?_, he ▸ hi, ?_⟩
    · simp [Feed.start, he, hi]
    · exact ⟨[], List.cons_head?_tail hhead⟩
  · simp only [Feed.start, List.getElem?_map, Option.map_eq_some_iff] at ht
    obtain ⟨run, hrun, htail⟩ := ht
    cases run with
    | nil => cases htail
    | cons a run =>
      exact ⟨a, List.mem_filterMap.mpr ⟨_, List.mem_of_getElem? hrun, rfl⟩,
        hidx i _ hrun a (by simp)⟩

/-! ### Everything comes out once, in order -/

theorem flatten_set_perm {tails : List (List α)} {t : List α} (h : tails[i]? = some (e :: t)) :
    (e :: (tails.set i t).flatten).Perm tails.flatten := by
  induction tails generalizing i with
  | nil => simp at h
  | cons a tails ih =>
    cases i with
    | zero =>
      obtain rfl : a = e :: t := by simpa using h
      exact List.Perm.refl _
    | succ i =>
      rw [List.set_cons_succ, List.flatten_cons, List.flatten_cons]
      exact List.perm_middle.symm.trans ((ih (by simpa using h)).append_left a)

theorem Feed.refill_perm (s : Feed α) (i : Nat) :
    ((s.refill i).heap ++ (s.refill i).tails.flatten).Perm (s.heap ++ s.tails.flatten) := by
  unfold Feed.refill
  split
  · rename_i e t ht
    rw [List.append_assoc]
    exact (flatten_set_perm ht).append_left s.heap
  · exact List.Perm.refl _

/-- The output holds every entry of the runs exactly as often as the runs do. -/
theorem Inv.pops_perm (hidx : Indexed index runs) (hs : Inv index runs s) :
    (s.pops cmp index).Perm (s.heap ++ s.tails.flatten) := by
  refine Feed.pops_induction (P := fun s l => l.Perm (s.heap ++ s.tails.flatten))
    (fun hs hp => hs.pull hidx hp) (fun {s} hs hheap => ?_) (fun {s e rest} _ hpop ih => ?_) hs
  · rw [hheap, List.flatten_eq_nil_iff.mpr (hs.ended hheap)]
    exact List.Perm.refl _
  · refine (ih.cons e).trans (((Feed.refill_perm ⟨rest, s.tails⟩ (index e)).cons e).trans ?_)
    exact (popMin_perm hpop).append_right _

theorem start_perm (runs : List (List α)) :
    ((Feed.start runs).heap ++ (Feed.start runs).tails.flatten).Perm runs.flatten := by
  unfold Feed.start
  induction runs with
  | nil => exact List.Perm.refl _
  | cons run runs ih =>
    cases run with
    | nil => simpa [List.filterMap_cons] using ih
    | cons e run =>
      simp only [List.filterMap_cons, List.head?_cons, List.map_cons, List.tail_cons,
        List.flatten_cons, List.cons_append] at ih ⊢
      refine List.Perm.cons e ((List.perm_append_comm_assoc _ _ _).trans ?_)
      exact ih.append_left run

theorem pops_sorted (ht : TotalOn cmp l) (hl : ∀ run ∈ runs, ∀ x ∈ run, x ∈ l)
    (hidx : Indexed index runs) (hsorted : ∀ run ∈ runs, run.Pairwise fun a b => cmp a b ≠ .gt)
    (hs : Inv index runs s) :
    (s.pops cmp index).Pairwise fun a b => cmp a b ≠ .gt := by
  have hall := pops_pairwise ht hl hidx (p := fun _ => True) (R := fun a b => cmp a b ≠ .gt)
    (fun run hrun e t hsuf x hx _ hxe y hy _ => ?_) hs
  · exact hall.imp fun h => h trivial trivial
  · have hin : ∀ z ∈ e :: t, z ∈ l := fun z hz => hl run hrun z (hsuf.subset hz)
    rcases List.mem_cons.mp hy with rfl | hyt
    · exact hxe
    · have hey := (List.pairwise_cons.mp ((hsorted run hrun).sublist hsuf.sublist)).1 y hyt
      exact ht.trans x hx e (hin e (by simp)) y (hin y hy) hxe hey

/-! ### One run in the output -/

/-- Entries of different runs are told apart by their index alone. -/
theorem filter_eq_of_perm {l' : List α} (h : l.Pairwise fun a b => index a ≠ index b)
    (hperm : l'.Perm l) (i : Nat) :
    l'.filter (fun e => index e == i) = l.filter fun e => index e == i := by
  have h' : l'.Pairwise fun a b => index a ≠ index b := (hperm.pairwise_iff Ne.symm).mpr h
  refine List.Perm.eq_of_pairwise (fun a b ha hb hab _ => ?_) (h'.filter _) (h.filter _)
    (hperm.filter _)
  have hai : index a = i := beq_iff_eq.mp (List.mem_filter.mp ha).2
  have hbi : index b = i := beq_iff_eq.mp (List.mem_filter.mp hb).2
  exact absurd (hai.trans hbi.symm) hab

theorem Feed.refill_filter {j : Nat} (h : ∀ t, s.tails[j]? = some t → ∀ e ∈ t, index e = j)
    (i : Nat) :
    (s.refill j).heap.filter (fun e => index e == i) ++ ((s.refill j).tails[i]?).getD [] =
      s.heap.filter (fun e => index e == i) ++ (s.tails[i]?).getD [] := by
  unfold Feed.refill
  split
  · rename_i e t ht
    have he : index e = j := h _ ht e (by simp)
    have hlt : j < s.tails.length := (List.getElem?_eq_some_iff.mp ht).1
    rw [List.filter_append]
    by_cases hij : j = i
    · subst hij
      rw [List.getElem?_set_self hlt, ht]
      simp [he]
    · rw [List.getElem?_set_ne hij]
      simp [he, hij]
  · rfl

theorem Inv.pops_filter (hidx : Indexed index runs) (hs : Inv index runs s) (i : Nat) :
    (s.pops cmp index).filter (fun e => index e == i) =
      s.heap.filter (fun e => index e == i) ++ (s.tails[i]?).getD [] := by
  refine Feed.pops_induction (P := fun s l => l.filter (fun e => index e == i) =
    s.heap.filter (fun e => index e == i) ++ (s.tails[i]?).getD [])
    (fun hs hp => hs.pull hidx hp) (fun {s} hs hheap => ?_) (fun {s e rest} hs hpop ih => ?_) hs
  · have htail : (s.tails[i]?).getD [] = [] := by
      cases ht : s.tails[i]? with
      | none => rfl
      | some t => exact hs.ended hheap t (List.mem_of_getElem? ht)
    rw [hheap, htail]
    rfl
  · have hperm := popMin_perm hpop
    obtain ⟨t, run, ht, hrun, hsuf⟩ := hs.suffix e (hperm.subset (by simp))
    have htail : ∀ u, (Feed.mk rest s.tails).tails[index e]? = some u →
        ∀ a ∈ u, index a = index e := fun u hu a ha => by
      obtain rfl : t = u := Option.some.inj (ht.symm.trans hu)
      exact hidx _ run hrun a (hsuf.subset (List.mem_cons_of_mem _ ha))
    rw [Feed.refill_filter htail] at ih
    rw [← filter_eq_of_perm hs.distinct hperm i]
    simp only [List.filter_cons, ih]
    split <;> rfl

theorem heads_filter (hidx : ∀ i run, runs[i]? = some run → ∀ e ∈ run, index e = k + i) (i : Nat) :
    (runs.filterMap List.head?).filter (fun e => index e == k + i) =
      ((runs[i]?).bind List.head?).toList := by
  induction runs generalizing k i with
  | nil => simp
  | cons run runs ih =>
    have hnext : ∀ i r, runs[i]? = some r → ∀ e ∈ r, index e = k + 1 + i := fun i r hr e he => by
      rw [hidx (i + 1) r (by simpa using hr) e he]
      omega
    have hge := (heads_distinct hnext).1
    have hlater : (runs.filterMap List.head?).filter (fun e => index e == k) = [] := by
      refine List.filter_eq_nil_iff.mpr fun e he => ?_
      have := hge e he
      simp only [beq_iff_eq]
      omega
    have hhead : ((run :: runs).filterMap List.head?) = run.head?.toList ++ runs.filterMap List.head? := by
      cases run <;> rfl
    rw [hhead, List.filter_append]
    cases i with
    | zero =>
      rw [Nat.add_zero, hlater]
      cases run with
      | nil => rfl
      | cons a run =>
        have ha : index a = k := hidx 0 (a :: run) rfl a (by simp)
        simp [ha]
    | succ i =>
      have hi := ih hnext i
      rw [show k + 1 + i = k + (i + 1) by omega] at hi
      rw [hi, List.getElem?_cons_succ]
      cases run with
      | nil => rfl
      | cons a run =>
        have ha : index a = k := hidx 0 (a :: run) rfl a (by simp)
        simp [ha]

theorem popOrder_filter (hidx : Indexed index runs) (i : Nat) :
    (popOrder cmp index runs).filter (fun e => index e == i) = (runs[i]?).getD [] := by
  have hheads := heads_filter hidx.offset i
  rw [Nat.zero_add] at hheads
  rw [popOrder, (inv_start hidx).pops_filter hidx i]
  simp only [Feed.start, hheads, List.getElem?_map]
  cases runs[i]? with
  | none => rfl
  | some run => cases run <;> rfl

/-! ### The stable sort -/

theorem popN_eq_take (n : Nat) (s : Feed α) : popN cmp index n s = (s.pops cmp index).take n := by
  induction n generalizing s with
  | zero => rfl
  | succ n ih =>
    rw [popN, Feed.pops_eq]
    cases s.pull cmp index with
    | none => rfl
    | some q => simp [ih]

theorem flatten_filter (hidx : ∀ i run, runs[i]? = some run → ∀ e ∈ run, index e = k + i)
    (i : Nat) :
    runs.flatten.filter (fun e => index e == k + i) = (runs[i]?).getD [] := by
  induction runs generalizing k i with
  | nil => rfl
  | cons run runs ih =>
    have hnext : ∀ i r, runs[i]? = some r → ∀ e ∈ r, index e = k + 1 + i := fun i r hr e he => by
      rw [hidx (i + 1) r (by simpa using hr) e he]
      omega
    have hrun : ∀ e ∈ run, index e = k := fun e he => hidx 0 run rfl e he
    rw [List.flatten_cons, List.filter_append]
    cases i with
    | zero =>
      have hown : run.filter (fun e => index e == k + 0) = run :=
        List.filter_eq_self.mpr fun e he => by simp [hrun e he]
      have hlater : runs.flatten.filter (fun e => index e == k + 0) = [] := by
        refine List.filter_eq_nil_iff.mpr fun e he => ?_
        obtain ⟨r, hr, he⟩ := List.mem_flatten.mp he
        obtain ⟨j, hj⟩ := List.getElem?_of_mem hr
        have := hnext j r hj e he
        simp only [beq_iff_eq]
        omega
      rw [hown, hlater, List.append_nil]
      rfl
    | succ i =>
      have hown : run.filter (fun e => index e == k + (i + 1)) = [] :=
        List.filter_eq_nil_iff.mpr fun e he => by simp [hrun e he]
      have hi := ih hnext i
      rw [show k + 1 + i = k + (i + 1) by omega] at hi
      rw [hown, hi]
      rfl

theorem flatten_ordered (hidx : ∀ i run, runs[i]? = some run → ∀ e ∈ run, index e = k + i) :
    (∀ e ∈ runs.flatten, k ≤ index e) ∧ runs.flatten.Pairwise fun a b => index a ≤ index b := by
  induction runs generalizing k with
  | nil => simp
  | cons run runs ih =>
    obtain ⟨hge, hpair⟩ := ih (k := k + 1) fun i r hr e he => by
      rw [hidx (i + 1) r (by simpa using hr) e he]
      omega
    have hrun : ∀ e ∈ run, index e = k := fun e he => hidx 0 run rfl e he
    rw [List.flatten_cons]
    refine ⟨fun e he => ?_, List.pairwise_append.mpr ⟨?_, hpair, fun a ha b hb => ?_⟩⟩
    · rcases List.mem_append.mp he with he | he
      · exact (hrun e he).ge
      · exact Nat.le_of_succ_le (hge e he)
    · exact List.Pairwise.imp_of_mem (fun {a b} ha hb _ => ((hrun a ha).trans (hrun b hb).symm).le)
        (List.pairwise_of_forall (R := fun _ _ => True) fun _ _ => trivial)
    · have := hge b hb
      rw [hrun a ha]
      omega

/-- Ties broken by the run, popping sorted runs is a stable sort of the runs one after the other. -/
theorem popOrder_eq_mergeSort {cmp₀ : α → α → Ordering} (ht : TotalOn cmp₀ runs.flatten)
    (hidx : Indexed index runs) (hsorted : ∀ run ∈ runs, run.Pairwise fun a b => cmp₀ a b ≠ .gt) :
    popOrder (fun a b => (cmp₀ a b).then (compare (index a) (index b))) index runs =
      runs.flatten.mergeSort fun a b => cmp₀ a b != .gt := by
  have hby : ∀ l : List α, TotalOn (fun a b => compare (index a) (index b)) l := fun l => by
    have h : TotalOn (compareOn index) l := totalOn_of_transCmp
    exact h
  have ht' : TotalOn (fun a b => (cmp₀ a b).then (compare (index a) (index b))) runs.flatten :=
    ht.lex fun a _ => hby _
  have hrun : ∀ run ∈ runs, run.Pairwise fun a b =>
      (cmp₀ a b).then (compare (index a) (index b)) ≠ .gt := fun run hr => by
    obtain ⟨i, hi⟩ := List.getElem?_of_mem hr
    refine (hsorted run hr).imp_of_mem fun {a b} ha hb hab => ?_
    rw [hidx i run hi a ha, hidx i run hi b hb]
    cases hc : cmp₀ a b <;> simp_all
  have hpops := pops_sorted ht' (fun _ hr _ hx => List.mem_flatten_of_mem hr hx) hidx hrun
    (inv_start hidx)
  have hperm : (popOrder (fun a b => (cmp₀ a b).then (compare (index a) (index b))) index runs).Perm
      runs.flatten := ((inv_start hidx).pops_perm hidx).trans (start_perm runs)
  refine ht.eq_of_classes (fun x hx => hperm.subset hx)
    (fun y hy => (List.mergeSort_perm _ _).subset hy) (hpops.imp fun {a b} hab hgt => hab (by simp [hgt]))
    ht.pairwise_mergeSort fun a ha => ?_
  rw [ht.filter_mergeSort_class ha]
  -- within a class both lists go by the index of the run
  refine (hby runs.flatten).eq_of_classes (fun x hx => hperm.subset (List.mem_of_mem_filter hx))
    (fun y hy => List.mem_of_mem_filter hy) ?_ ?_ fun b hb => ?_
  · refine (hpops.filter _).imp_of_mem fun {x y} hx hy hxy => ?_
    have hmem : ∀ z ∈ (popOrder (fun a b => (cmp₀ a b).then (compare (index a) (index b))) index
        runs).filter (fun b => cmp₀ a b == .eq), z ∈ runs.flatten ∧ cmp₀ a z = .eq := fun z hz =>
      ⟨hperm.subset (List.mem_of_mem_filter hz), by simpa using (List.mem_filter.mp hz).2⟩
    obtain ⟨hxl, hax⟩ := hmem x hx
    obtain ⟨hyl, hay⟩ := hmem y hy
    have heq : cmp₀ x y = .eq :=
      (ht.cmp_congr ha hyl hxl hay).symm.trans ((ht.eq_comm ha hxl).mp hax)
    simpa [heq] using hxy
  · refine ((flatten_ordered hidx.offset).2.filter _).imp fun {x y} hxy => ?_
    rw [ne_eq, compare_gt_iff_gt]
    omega
  · have hswap : ∀ l : List α, (l.filter fun b => cmp₀ a b == .eq).filter
        (fun x => compare (index b) (index x) == .eq) =
          (l.filter fun x => index x == index b).filter fun x => cmp₀ a x == .eq := fun l => by
      rw [List.filter_comm]
      congr 1
      refine List.filter_congr fun x _ => ?_
      rw [Bool.eq_iff_iff, beq_iff_eq, beq_iff_eq, compare_eq_iff_eq, eq_comm]
    have hflat := flatten_filter hidx.offset (index b)
    rw [Nat.zero_add] at hflat
    rw [hswap, hswap, popOrder_filter hidx, hflat]

end KWay
