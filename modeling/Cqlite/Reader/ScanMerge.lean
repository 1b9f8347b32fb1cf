import Cqlite.Lib.KWay
import Cqlite.Reader.IndexInterval

/-! The merge of the readers' rows in token order (`sstable/scan_merge.rs`).

    Every reader hands over its rows sorted by token and key; one heap holds the next row of each.
    Murmur3 is the parameter `token`, what a row carries besides its key the type `ρ`. -/

namespace Cqlite

namespace ScanMerge

section

variable {ρ : Type} (token : Bytes → Int)

structure Candidate where
  token : Int
  key : Bytes
  readerIdx : Nat
  deriving DecidableEq

structure HeapItem (ρ : Type) where
  cand : Candidate
  val : ρ
  deriving DecidableEq

def Candidate.cmp (a b : Candidate) : Ordering :=
  ((compare a.token b.token).then (compare a.key b.key)).then (compare a.readerIdx b.readerIdx)

def HeapItem.cmp (a b : HeapItem ρ) : Ordering := a.cand.cmp b.cand

/-- A row on its way into the heap. -/
def headItem (idx : Nat) (row : Bytes × ρ) : HeapItem ρ := ⟨⟨token row.1, row.1, idx⟩, row.2⟩

/-- What is left of every stream, and the heap over their heads. -/
structure MergeState (ρ : Type) where
  iters : List (List (Bytes × ρ))
  heap : List (HeapItem ρ)

/-- The next row of a stream, if it has one, moves to the heap. -/
def MergeState.advance (s : MergeState ρ) (idx : Nat) : MergeState ρ :=
  match s.iters[idx]? with
  | some (row :: it) => ⟨s.iters.set idx it, s.heap ++ [headItem token idx row]⟩
  | _ => s

/-- The heads of all streams in the heap. -/
def MergeState.start (perReader : List (List (Bytes × ρ))) : MergeState ρ :=
  (List.range perReader.length).foldl (MergeState.advance token) ⟨perReader, []⟩

/-- The `while let` loop: a round takes one row out, so as many rounds as there are rows. -/
def mergeLoop (cap : Nat) : Nat → MergeState ρ → List (Bytes × ρ) → List (Bytes × ρ)
  | 0, _, out => out
  | rounds + 1, s, out =>
    match KWay.popMin HeapItem.cmp s.heap with
    | none => out
    | some (item, rest) =>
      let out := out ++ [(item.cand.key, item.val)]
      if out.length = cap then out
      else mergeLoop cap rounds (MergeState.advance token ⟨s.iters, rest⟩ item.cand.readerIdx) out

/-- `Vec::truncate`, where there is a limit. -/
def truncate {α : Type} (limit : Option Nat) (rows : List α) : List α :=
  match limit with
  | some lim => rows.take lim
  | none => rows

def kwayMergeTokenOrder (perReader : List (List (Bytes × ρ))) (limit : Option Nat) :
    List (Bytes × ρ) :=
  let nonEmpty := (perReader.filter fun s => !s.isEmpty).length
  if nonEmpty ≤ 1 then truncate limit ((perReader.find? fun s => !s.isEmpty).getD [])
  else
    let total := (perReader.map List.length).sum
    let cap := limit.elim total fun l => min l total
    if cap = 0 then [] else mergeLoop token cap total (.start token perReader) []

/-- `sort_by_token_order`: every element with its token, a stable sort, the tokens dropped. -/
def sortByTokenOrder {ε : Type} (results : List ε) (limit : Option Nat) (keyOf : ε → Bytes) :
    List ε :=
  let tagged := results.map fun e => (token (keyOf e), e)
  let sorted := tagged.mergeSort fun a b =>
    (compare a.1 b.1).then (compare (keyOf a.2) (keyOf b.2)) != .gt
  truncate limit (sorted.map Prod.snd)

end

/-! ### The order -/

section

variable {ρ : Type} (token : Bytes → Int)

/-- Rows by token and then by key. -/
def tokenOrder (a b : Bytes × ρ) : Ordering :=
  (compare (token a.1) (token b.1)).then (compare a.1 b.1)

/-- What a reader hands over is in token order. -/
def Sorted (rows : List (Bytes × ρ)) : Prop := rows.Pairwise fun a b => tokenOrder token a b ≠ .gt

variable {token}

theorem tokenOrder_total (token : Bytes → Int) (rows : List (Bytes × ρ)) : Rank.TotalOn (tokenOrder token) rows := by
  have := transCmp_token_bytes token
  have hkeys : Rank.TotalOn (fun a b => (compare (token a) (token b)).then (compare a b))
      (rows.map Prod.fst) := Rank.totalOn_of_transCmp
  exact hkeys.comap

theorem key_eq_of_tokenOrder {a b : Bytes × ρ} (h : tokenOrder token a b = .eq) : a.1 = b.1 := by
  rw [tokenOrder, Ordering.then_eq_eq] at h
  exact Std.LawfulEqOrd.eq_of_compare h.2

theorem sortByTokenOrder_eq (rows : List (Bytes × ρ)) (limit : Option Nat) :
    sortByTokenOrder token rows limit Prod.fst =
      truncate limit (rows.mergeSort fun a b => tokenOrder token a b != .gt) := by
  rw [sortByTokenOrder, ← List.map_mergeSort (r := fun a b => tokenOrder token a b != .gt)
    (fun a _ b _ => rfl), List.map_map]
  congr 1
  exact List.map_id _

/-! ### The loop and the feed -/

/-- The rows of all readers as they enter the heap. -/
def itemRuns (token : Bytes → Int) (perReader : List (List (Bytes × ρ))) :
    List (List (HeapItem ρ)) :=
  perReader.mapIdx fun i rows => rows.map (headItem token i)

def HeapItem.row (item : HeapItem ρ) : Bytes × ρ := (item.cand.key, item.val)

def HeapItem.index (item : HeapItem ρ) : Nat := item.cand.readerIdx

def MergeState.feed (token : Bytes → Int) (s : MergeState ρ) : KWay.Feed (HeapItem ρ) :=
  ⟨s.heap, itemRuns token s.iters⟩

theorem feed_advance (token : Bytes → Int) (s : MergeState ρ) (idx : Nat) :
    (s.advance token idx).feed token = (s.feed token).refill idx := by
  unfold MergeState.advance KWay.Feed.refill
  simp only [MergeState.feed, itemRuns, List.getElem?_mapIdx]
  cases s.iters[idx]? with
  | none => rfl
  | some it =>
    cases it with
    | nil => rfl
    | cons row it => simp [List.mapIdx_set]

theorem feed_start (perReader : List (List (Bytes × ρ))) :
    (MergeState.start token perReader).feed token = .start (itemRuns token perReader) := by
  have hfold : ∀ (is : List Nat) (s : MergeState ρ),
      (is.foldl (MergeState.advance token) s).feed token = is.foldl KWay.Feed.refill (s.feed token) := by
    intro is
    induction is with
    | nil => exact fun _ => rfl
    | cons i is ih => exact fun s => by rw [List.foldl_cons, ih, feed_advance, List.foldl_cons]
  rw [MergeState.start, hfold, ← KWay.foldl_refill (itemRuns token perReader)]
  simp [MergeState.feed, itemRuns]

/-- The loop pops the heap until the cap. -/
theorem mergeLoop_eq {cap rounds : Nat} {s : MergeState ρ} {out : List (Bytes × ρ)}
    (hroom : out.length < cap) (hrounds : cap ≤ out.length + rounds) :
    mergeLoop token cap rounds s out =
      out ++ (KWay.popN HeapItem.cmp HeapItem.index (cap - out.length) (s.feed token)).map HeapItem.row := by
  induction rounds generalizing s out with
  | zero => omega
  | succ rounds ih =>
    obtain ⟨n, hn⟩ : ∃ n, cap - out.length = n + 1 := ⟨cap - out.length - 1, by omega⟩
    rw [hn, mergeLoop, KWay.popN, KWay.Feed.pull]
    simp only [MergeState.feed]
    cases hpop : KWay.popMin HeapItem.cmp s.heap with
    | none => simp
    | some q =>
      obtain ⟨item, rest⟩ := q
      have hlen : (out ++ [(item.cand.key, item.val)]).length = out.length + 1 := by simp
      simp only [hlen]
      split
      · rename_i hcap
        obtain rfl : n = 0 := by omega
        simp [KWay.popN, HeapItem.row]
      · rename_i hcap
        have hfeed := feed_advance token ⟨s.iters, rest⟩ item.cand.readerIdx
        rw [ih (by rw [hlen]; omega) (by rw [hlen]; omega), hfeed, hlen,
          show cap - (out.length + 1) = n by omega, List.append_assoc]
        rfl

/-! ### The runs -/

theorem itemRuns_indexed (perReader : List (List (Bytes × ρ))) :
    KWay.Indexed HeapItem.index (itemRuns token perReader) := by
  intro i run hrun e he
  rw [itemRuns, List.getElem?_mapIdx] at hrun
  obtain ⟨rows, -, rfl⟩ := Option.map_eq_some_iff.1 hrun
  obtain ⟨row, -, rfl⟩ := List.mem_map.1 he
  rfl

theorem itemRuns_rows (perReader : List (List (Bytes × ρ))) :
    (itemRuns token perReader).flatten.map HeapItem.row = perReader.flatten := by
  rw [List.map_flatten]
  refine congrArg List.flatten (List.ext_getElem? fun i => ?_)
  rw [List.getElem?_map, itemRuns, List.getElem?_mapIdx, Option.map_map]
  cases perReader[i]? with
  | none => rfl
  | some rows =>
    rw [Option.map_some, Function.comp_apply, List.map_map]
    exact congrArg some (List.map_id _)

/-- Token and key of an item. -/
def HeapItem.keyCmp (a b : HeapItem ρ) : Ordering :=
  (compare a.cand.token b.cand.token).then (compare a.cand.key b.cand.key)

variable {perReader : List (List (Bytes × ρ))}

theorem keyCmp_of_mem {a b : HeapItem ρ} (ha : a ∈ (itemRuns token perReader).flatten)
    (hb : b ∈ (itemRuns token perReader).flatten) :
    HeapItem.keyCmp a b = tokenOrder token a.row b.row := by
  have htoken : ∀ e ∈ (itemRuns token perReader).flatten, e.cand.token = token e.row.1 := by
    intro e he
    obtain ⟨run, hrun, he⟩ := List.mem_flatten.1 he
    obtain ⟨i, hi, rfl⟩ := List.mem_mapIdx.1 hrun
    obtain ⟨row, -, rfl⟩ := List.mem_map.1 he
    rfl
  rw [HeapItem.keyCmp, htoken a ha, htoken b hb]
  rfl

theorem popOrder_rows (h : ∀ rows ∈ perReader, Sorted token rows) :
    (KWay.popOrder HeapItem.cmp HeapItem.index (itemRuns token perReader)).map HeapItem.row =
      perReader.flatten.mergeSort fun a b => tokenOrder token a b != .gt := by
  have htotal : Rank.TotalOn HeapItem.keyCmp (itemRuns token perReader).flatten :=
    (tokenOrder_total token _).comap.congr fun a ha b hb => keyCmp_of_mem ha hb
  have hsorted : ∀ run ∈ itemRuns token perReader, run.Pairwise fun a b => HeapItem.keyCmp a b ≠ .gt := by
    intro run hrun
    obtain ⟨i, hi, rfl⟩ := List.mem_mapIdx.1 hrun
    exact List.pairwise_map.2 (h _ (List.getElem_mem hi))
  have hpops := KWay.popOrder_eq_mergeSort htotal (itemRuns_indexed perReader) hsorted
  have hrows := List.map_mergeSort (f := HeapItem.row) (r := fun a b => HeapItem.keyCmp a b != .gt)
    (s := fun a b => tokenOrder token a b != .gt) (l := (itemRuns token perReader).flatten)
    fun a ha b hb => by rw [keyCmp_of_mem ha hb]
  rw [itemRuns_rows] at hrows
  exact (congrArg (List.map HeapItem.row) hpops).trans hrows

/-! ### The whole merge -/

theorem flatten_of_single {α : Type} {runs : List (List α)}
    (h : (runs.filter fun s => !s.isEmpty).length ≤ 1) :
    runs.flatten = (runs.find? fun s => !s.isEmpty).getD [] := by
  induction runs with
  | nil => rfl
  | cons run runs ih =>
    cases run with
    | nil => exact ih h
    | cons a run =>
      have hrest : (runs.filter fun s => !s.isEmpty) = [] := by
        simpa [List.filter_cons] using h
      have hnil : runs.flatten = [] := List.flatten_eq_nil_iff.2 fun s hs => by
        simpa using List.filter_eq_nil_iff.1 hrest s hs
      simp [hnil]

/-- The merge of the readers is a stable sort. -/
theorem kwayMerge_eq (h : ∀ rows ∈ perReader, Sorted token rows) (limit : Option Nat) :
    kwayMergeTokenOrder token perReader limit =
      truncate limit (perReader.flatten.mergeSort fun a b => tokenOrder token a b != .gt) := by
  rw [kwayMergeTokenOrder]
  dsimp only
  split
  · -- one stream is what it is, sorted
    rename_i hone
    have hflat := flatten_of_single hone
    have hsorted : Sorted token perReader.flatten := by
      rw [hflat]
      cases hfind : perReader.find? fun s => !s.isEmpty with
      | none => exact List.Pairwise.nil
      | some rows => exact h rows (List.mem_of_find?_eq_some hfind)
    rw [List.mergeSort_of_pairwise (hsorted.imp fun hab => by simpa using hab), hflat]
  · generalize hcap : (limit.elim (perReader.map List.length).sum
      fun l => min l (perReader.map List.length).sum) = cap
    have hlen : perReader.flatten.length = (perReader.map List.length).sum := List.length_flatten
    have hle : cap ≤ (perReader.map List.length).sum := by
      cases limit with
      | none => exact hcap.ge
      | some l => exact hcap ▸ min_le_right _ _
    have hcut : truncate limit (perReader.flatten.mergeSort fun a b => tokenOrder token a b != .gt) =
        (perReader.flatten.mergeSort fun a b => tokenOrder token a b != .gt).take cap := by
      cases limit with
      | none =>
        refine (List.take_of_length_le (Eq.le ?_)).symm
        exact (List.length_mergeSort _).trans (hlen.trans hcap)
      | some l =>
        have hsort : (perReader.flatten.mergeSort fun a b => tokenOrder token a b != .gt).length =
            (perReader.map List.length).sum := (List.length_mergeSort _).trans hlen
        rw [← hcap, ← hsort]
        exact List.take_eq_take_min
    rw [hcut]
    split
    · rename_i hzero
      rw [hzero, List.take_zero]
    · rw [mergeLoop_eq (by simp; omega) (by simpa using hle), List.nil_append, List.length_nil,
        Nat.sub_zero, feed_start, KWay.popN_eq_take, List.map_take]
      exact congrArg (List.take cap) (popOrder_rows h)

/-- The merge is a stable sort of the readers' rows one after the other, cut off at the limit.
    Without a limit every row comes out once, the rows of one key stay together, and they keep the
    order they have among the readers and within each. -/
theorem kwayMerge_is_stable_sort (token : Bytes → Int) {perReader : List (List (Bytes × ρ))}
    (h : ∀ rows ∈ perReader, Sorted token rows) :
    (∀ limit, kwayMergeTokenOrder token perReader limit =
      sortByTokenOrder token perReader.flatten limit Prod.fst) ∧
    (∀ limit, kwayMergeTokenOrder token perReader limit =
      truncate limit (kwayMergeTokenOrder token perReader none)) ∧
    (kwayMergeTokenOrder token perReader none).Perm perReader.flatten ∧
    Sorted token (kwayMergeTokenOrder token perReader none) ∧
    (∀ a b c : Bytes × ρ, [a, b, c].Sublist (kwayMergeTokenOrder token perReader none) →
      a.1 = c.1 → b.1 = a.1) ∧
    ∀ key, (kwayMergeTokenOrder token perReader none).filter (fun row => row.1 == key) =
      perReader.flatMap fun rows => rows.filter fun row => row.1 == key := by
  have htotal := tokenOrder_total token perReader.flatten
  have hall := kwayMerge_eq h none
  have hperm : (kwayMergeTokenOrder token perReader none).Perm perReader.flatten :=
    hall ▸ List.mergeSort_perm _ _
  have hsorted : Sorted token (kwayMergeTokenOrder token perReader none) :=
    hall ▸ htotal.pairwise_mergeSort
  refine ⟨fun limit => ?_, fun limit => ?_, hperm, hsorted, fun a b c hsub hac => ?_, fun key => ?_⟩
  · rw [kwayMerge_eq h, sortByTokenOrder_eq]
  · rw [hall, kwayMerge_eq h]
    rfl
  · have hmem : ∀ x ∈ [a, b, c], x ∈ perReader.flatten := fun x hx => hperm.subset (hsub.subset hx)
    have hpair := hsorted.sublist hsub
    simp only [List.pairwise_cons, List.mem_cons, List.not_mem_nil, or_false, forall_eq_or_imp,
      forall_eq] at hpair
    obtain ⟨⟨hab, -⟩, hbc, -⟩ := hpair
    have hca : tokenOrder token c a = .eq := by simp [tokenOrder, hac, Std.ReflCmp.compare_self]
    have hba : tokenOrder token b a ≠ .gt :=
      htotal.trans b (hmem b (by simp)) c (hmem c (by simp)) a (hmem a (by simp)) hbc (by simp [hca])
    have heq : tokenOrder token a b = .eq := by
      rw [htotal.swap a (hmem a (by simp)) b (hmem b (by simp))] at hba
      cases hc : tokenOrder token a b with
      | eq => rfl
      | lt => simp [hc] at hba
      | gt => exact absurd hc hab
    exact (key_eq_of_tokenOrder heq).symm
  · have hflat : (perReader.flatMap fun rows => rows.filter fun row => row.1 == key) =
        perReader.flatten.filter fun row => row.1 == key := by
      rw [List.filter_flatten, List.flatMap_def]
    rw [hflat]
    by_cases hkey : ∃ a ∈ perReader.flatten, a.1 = key
    · obtain ⟨a, ha, rfl⟩ := hkey
      have hclass : ∀ b : Bytes × ρ, (b.1 == a.1) = (tokenOrder token a b == .eq) := fun b => by
        rw [Bool.eq_iff_iff, beq_iff_eq, beq_iff_eq]
        exact ⟨fun hb => by simp [tokenOrder, hb, Std.ReflCmp.compare_self],
          fun hab => (key_eq_of_tokenOrder hab).symm⟩
      simp only [hclass]
      rw [hall]
      exact htotal.filter_mergeSort_class ha
    · have hnone : ∀ b ∈ perReader.flatten, ¬(b.1 == key) = true := fun b hb hbk =>
        hkey ⟨b, hb, by simpa using hbk⟩
      rw [List.filter_eq_nil_iff.2 hnone, List.filter_eq_nil_iff.2 fun b hb => hnone b (hperm.subset hb)]

/-- Two readers with rows of one key, of which the first has a further one. -/
theorem kwayMerge_is_stable_sort_shared :
    kwayMergeTokenOrder (fun key => key.length) [[([7], 0), ([7], 1), ([7, 7], 2)], [([7], 3)]]
        none = [([7], 0), ([7], 1), ([7], 3), ([7, 7], 2)] ∧
      kwayMergeTokenOrder (fun key => key.length) [[([7], 0), ([7], 1), ([7, 7], 2)], [([7], 3)]]
        (some 3) = truncate (some 3) (kwayMergeTokenOrder (fun key => key.length)
          [[([7], 0), ([7], 1), ([7, 7], 2)], [([7], 3)]] none) := by
  have hsorted : ∀ rows ∈ [[([7], 0), ([7], 1), ([7, 7], 2)], [([7], 3)]],
      Sorted (fun key : Bytes => (key.length : Int)) rows := by
    unfold Sorted tokenOrder
    decide
  exact ⟨by decide, (kwayMerge_is_stable_sort _ hsorted).2.1 (some 3)⟩

end

end ScanMerge

end Cqlite
