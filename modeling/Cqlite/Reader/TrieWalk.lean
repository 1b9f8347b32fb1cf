import Mathlib.Data.List.Nodup
import Mathlib.Data.Finset.Card
import Cqlite.Lib.BinarySearch
import Cqlite.Lib.Trie
import Cqlite.Types

/-! Walking a trie in memory (`bti/parser/{traversal,rows_floor,partition_successor_walk}.rs`).

    The walks see a trie through two functions of an offset: the children of the node there, in
    ascending order of their bytes, and its payload. The depth-first traversal rejects every offset it
    meets twice, so what it accepts is a tree; the other walks count their steps against the size of
    the file. -/

namespace Cqlite

/-- `BtiResult`; a parse error is its message, without the values it prints. -/
abbrev BtiResult := Except String

instance linearOrderUInt8 : LinearOrder UInt8 where
  le_refl a := UInt8.le_refl a
  le_trans a b c := UInt8.le_trans
  lt_iff_le_not_ge a b := by simp only [UInt8.lt_iff_toNat_lt, UInt8.le_iff_toNat_le]; omega
  le_antisymm a b := UInt8.le_antisymm
  le_total a b := UInt8.le_total a b
  toDecidableLE := inferInstance

structure TrieStore (α : Type) where
  /-- `trie_data.len()`. -/
  size : Nat
  /-- The parsed node's `ordered_children`. -/
  children : Nat → BtiResult (List (UInt8 × Nat))
  payload : Nat → BtiResult (Option α)
  /-- The message of a walk that counts too many steps. -/
  workBound : String
  /-- The message of a walk that ends without a payload. -/
  minLeaf : String

namespace TrieStore

variable {α : Type} (s : TrieStore α)

/-! ### The traversal -/

inductive DfsOp
  | enter (nodeOffset : Nat) (transition : Option UInt8) (depth : Nat)
  | pop

/-- The children of a node, to be entered. -/
def enterAll (depth : Nat) (children : List (UInt8 × Nat)) : List DfsOp :=
  children.map fun c => .enter c.2 (some c.1) depth

/-- The loop of `dfs_visit_in_order`; the visitor collects. -/
def dfsLoop : List DfsOp → Bytes → Nat → List Nat → List (Bytes × α) → BtiResult (List (Bytes × α))
  | [], _, _, _, results => .ok results
  | .pop :: stack, path, n, visited, results => dfsLoop stack path.dropLast n visited results
  | .enter nodeOffset transition depth :: stack, path, n, visited, results =>
    let path := path ++ transition.toList
    let stack := if transition.isSome then .pop :: stack else stack
    if s.size < n + 1 then .error "BTI DFS exceeded total work bound"
    else if s.size < path.length then .error "BTI DFS key path exceeds trie size"
    else if s.size + 1 < depth then .error "BTI DFS exceeded node depth"
    else if s.size ≤ nodeOffset then .error "BTI DFS: node_offset out of bounds"
    else if nodeOffset ∈ visited then .error "BTI DFS revisited node offset"
    else match s.children nodeOffset with
      | .error e => .error e
      | .ok children =>
        match s.payload nodeOffset with
        | .error e => .error e
        | .ok payload =>
          dfsLoop (enterAll (depth + 1) children ++ stack) path (n + 1) (nodeOffset :: visited)
            (results ++ payload.toList.map (path, ·))
termination_by stack _ n => (s.size + 1 - n, stack.length)

/-- `dfs_collect_in_order`. -/
def dfsCollectInOrder (rootOffset : Nat) : BtiResult (List (Bytes × α)) :=
  s.dfsLoop [.enter rootOffset none 1] [] 0 [] []

/-! ### Floor and ceiling -/

structure ChildSearch where
  insertion : Nat
  exact : Option Nat

def searchChildren (children : List (UInt8 × Nat)) : Option UInt8 → ChildSearch
  | none => ⟨0, none⟩
  | some byte =>
    let insertion := BinarySearch.partitionPoint (fun c => c.1 < byte) children
    ⟨insertion, if children[insertion]?.any (·.1 == byte) then some insertion else none⟩

/-- The steps left are `size + 1` less those counted. -/
def goMaxPayload : Nat → Nat → BtiResult α
  | 0, _ => .error s.workBound
  | steps + 1, nodeOffset => do
    match (← s.children nodeOffset).getLast? with
    | some (_, child) => goMaxPayload steps child
    | none =>
      match ← s.payload nodeOffset with
      | some p => return p
      | none => .error "Rows.db floor: max leaf carries no row-index payload"

def goMinPayload : Nat → Nat → BtiResult α
  | 0, _ => .error s.workBound
  | steps + 1, nodeOffset => do
    match ← s.payload nodeOffset with
    | some p => return p
    | none =>
      match (← s.children nodeOffset).head? with
      | some (_, child) => goMinPayload steps child
      | none => .error s.minLeaf

/-- What a node adds to the floor: its payload where no lesser child is, else the lesser child. -/
def floorCandidate (nodeOffset : Nat) (children : List (UInt8 × Nat)) (insertion : Nat)
    (payload : Option α) (lesserBranch : Option Nat) : BtiResult (Option α × Option Nat) := do
  if insertion = 0 then
    match ← s.payload nodeOffset with
    | some p => return (some p, lesserBranch)
    | none => return (payload, lesserBranch)
  else return (none, children[insertion - 1]?.map (·.2))

/-- The descent of the floor: the closest payload on the path and the closest lesser branch. -/
def floorLoop : Nat → Nat → Bytes → Option α → Option Nat → BtiResult (Option α × Option Nat)
  | 0, _, _, _, _ => .error s.workBound
  | steps + 1, nodeOffset, key, payload, lesserBranch => do
    let children ← s.children nodeOffset
    let found := searchChildren children key.head?
    let (payload, lesserBranch) ←
      s.floorCandidate nodeOffset children found.insertion payload lesserBranch
    match found.exact.bind (children[·]?) with
    | some (_, child) => floorLoop steps child key.tail payload lesserBranch
    | none => return (payload, lesserBranch)

/-- `rows_floor_block`. -/
def floorBlock (rootOffset : Nat) (targetKey : Bytes) : BtiResult (Option α) := do
  match ← s.floorLoop (s.size + 1) rootOffset targetKey none none with
  | (some p, _) => return some p
  | (none, some lesserBranch) => return some (← s.goMaxPayload (s.size + 1) lesserBranch)
  | (none, none) => return none

/-- The descent of the ceiling: the closest greater branch. -/
def ceilingLoop : Nat → Nat → Bytes → Option Nat → BtiResult (Option Nat)
  | 0, _, _, _ => .error s.workBound
  | steps + 1, nodeOffset, key, greaterBranch => do
    let children ← s.children nodeOffset
    let found := searchChildren children key.head?
    let greaterIdx := match found.exact with
      | some i => i + 1
      | none => found.insertion
    let greaterBranch := (children[greaterIdx]?.map (·.2)).or greaterBranch
    match found.exact.bind (children[·]?) with
    | some (_, child) => ceilingLoop steps child key.tail greaterBranch
    | none => return greaterBranch

/-- `rows_strict_ceiling_block` and `partition_strict_ceiling_location`. -/
def strictCeilingBlock (rootOffset : Nat) (targetKey : Bytes) : BtiResult (Option α) := do
  match ← s.ceilingLoop (s.size + 1) rootOffset targetKey none with
  | some greaterBranch => return some (← s.goMinPayload (s.size + 1) greaterBranch)
  | none => return none

/-! ### The tree in the store -/

open Trie

variable {s}

/-- The nodes at these offsets, with all below them, are a forest; its offsets in depth-first order. -/
inductive Holds (s : TrieStore α) : List (UInt8 × Nat) → Forest UInt8 α → List Nat → Prop
  | nil : Holds s [] .nil []
  | cons {b : UInt8} {off : Nat} {below rest : List (UInt8 × Nat)} {payload : Option α}
      {children siblings : Forest UInt8 α} {offs offs' : List Nat} :
      off < s.size → s.children off = .ok below → s.payload off = .ok payload →
      Holds s below children offs → Holds s rest siblings offs' →
      Holds s ((b, off) :: rest) (.cons b payload children siblings) (off :: (offs ++ offs'))

/-- The paths of a forest, continued from a path. -/
def continued (path : Bytes) (entries : List (Bytes × α)) : List (Bytes × α) :=
  entries.map fun e => (path ++ e.1, e.2)

theorem continued_cons (path : Bytes) (b : UInt8) (payload : Option α)
    (children siblings : Forest UInt8 α) :
    continued path (Forest.cons b payload children siblings).entries =
      payload.toList.map (path ++ [b], ·) ++ continued (path ++ [b]) children.entries ++
        continued path siblings.entries := by
  simp [continued, Forest.entries, Forest.under, Forest.own, Function.comp_def]

variable {n depth off root : Nat} {cs : List (UInt8 × Nat)} {f : Forest UInt8 α} {offs : List Nat}
  {path : Bytes} {results r : List (Bytes × α)} {stack : List DfsOp}

theorem length_le_of_nodup {l : List Nat} (hnodup : l.Nodup) (h : ∀ x ∈ l, x < n) :
    l.length ≤ n := by
  have hsub : l.toFinset ⊆ Finset.range n := by
    intro x hx
    exact Finset.mem_range.2 (h x (List.mem_toFinset.1 hx))
  have hcard := Finset.card_le_card hsub
  rwa [List.toFinset_card_of_nodup hnodup, Finset.card_range] at hcard

theorem Holds.offsets_lt (h : Holds s cs f offs) : ∀ x ∈ offs, x < s.size := by
  induction h with
  | nil => simp
  | cons hoff _ _ _ _ ih ih' =>
    intro x hx
    rcases List.mem_cons.1 hx with rfl | hx
    · exact hoff
    · rcases List.mem_append.1 hx with hx | hx
      · exact ih x hx
      · exact ih' x hx

variable {visited : List Nat}

/-- A node that passes the checks: its payload is reported and its children come next. -/
theorem dfsLoop_enter {transition : Option UInt8} {below : List (UInt8 × Nat)} {payload : Option α}
    (hn : n + 1 ≤ s.size) (hpath : (path ++ transition.toList).length ≤ s.size)
    (hdepth : depth ≤ s.size + 1) (hoff : off < s.size) (hfresh : off ∉ visited)
    (hbelow : s.children off = .ok below) (hpayload : s.payload off = .ok payload) :
    s.dfsLoop (.enter off transition depth :: stack) path n visited results =
      s.dfsLoop (enterAll (depth + 1) below ++ if transition.isSome then .pop :: stack else stack)
        (path ++ transition.toList) (n + 1) (off :: visited)
        (results ++ payload.toList.map (path ++ transition.toList, ·)) := by
  rw [dfsLoop]
  simp only [if_neg (Nat.not_lt.2 hn), if_neg (Nat.not_lt.2 hpath), if_neg (Nat.not_lt.2 hdepth),
    if_neg (Nat.not_le.2 hoff), if_neg hfresh, hbelow, hpayload]

/-- Entering nodes that hold a forest visits it and goes on with what was below on the stack. -/
theorem dfsLoop_enterAll (h : Holds s cs f offs) (hn : visited.length = n)
    (hnodup : (offs ++ visited).Nodup) (hvisited : ∀ x ∈ visited, x < s.size)
    (hdepth : depth ≤ n + 1) (hpath : path.length < depth) :
    s.dfsLoop (enterAll depth cs ++ stack) path n visited results =
      s.dfsLoop stack path (n + offs.length) (offs.reverse ++ visited)
        (results ++ continued path f.entries) := by
  induction h generalizing depth n stack path visited results with
  | nil => simp [enterAll, continued, Forest.entries]
  | @cons b off below rest payload children siblings offs offs' hoff hbelow hpayload hsub hrest ih ih' =>
    have hperm : (offs' ++ (offs.reverse ++ off :: visited)).Perm (off :: (offs ++ offs') ++ visited) := by
      rw [List.perm_iff_count]
      intro a
      simp only [List.count_append, List.count_cons, List.count_reverse]
      omega
    have hnodup' := hperm.nodup_iff.2 hnodup
    have hnodupSub : (offs.reverse ++ off :: visited).Nodup := (List.nodup_append.1 hnodup').2.1
    have hnodupOff : (off :: visited).Nodup := (List.nodup_append.1 hnodupSub).2.1
    have hlt : ∀ x ∈ off :: visited, x < s.size := by
      intro x hx
      rcases List.mem_cons.1 hx with rfl | hx
      · exact hoff
      · exact hvisited x hx
    have hlen : n + 1 ≤ s.size := by simpa [hn] using length_le_of_nodup hnodupOff hlt
    have hltSub : ∀ x ∈ offs.reverse ++ off :: visited, x < s.size := by
      intro x hx
      rcases List.mem_append.1 hx with hx | hx
      · exact hsub.offsets_lt x (List.mem_reverse.1 hx)
      · exact hlt x hx
    have hsubNodup : (offs ++ off :: visited).Nodup :=
      ((List.reverse_perm offs).append_right _).nodup_iff.1 hnodupSub
    have henter : enterAll depth ((b, off) :: rest) ++ stack =
        .enter off (some b) depth :: (enterAll depth rest ++ stack) := rfl
    rw [henter, dfsLoop_enter hlen (by simp; omega) (by omega) hoff (List.nodup_cons.1 hnodupOff).1
      hbelow hpayload]
    simp only [Option.isSome_some, if_true, Option.toList_some]
    rw [ih (by simp [hn]) hsubNodup hlt (by omega) (by simp; omega), dfsLoop, List.dropLast_concat,
      ih' (by simp [hn]; omega) hnodup' hltSub (by omega) hpath, continued_cons]
    simp only [List.reverse_cons, List.reverse_append, List.append_assoc, List.length_cons,
      List.length_append, List.singleton_append]
    congr 1
    omega

/-- A traversal that enters a node and succeeds has passed its checks. -/
theorem dfsLoop_enter_ok {transition : Option UInt8}
    (h : s.dfsLoop (.enter off transition depth :: stack) path n visited results = .ok r) :
    n + 1 ≤ s.size ∧ off < s.size ∧ off ∉ visited ∧ ∃ below payload,
      s.children off = .ok below ∧ s.payload off = .ok payload ∧
        s.dfsLoop (enterAll (depth + 1) below ++ if transition.isSome then .pop :: stack else stack)
          (path ++ transition.toList) (n + 1) (off :: visited)
          (results ++ payload.toList.map (path ++ transition.toList, ·)) = .ok r := by
  rw [dfsLoop] at h
  split at h
  · cases h
  · split at h
    · cases h
    · split at h
      · cases h
      · split at h
        · cases h
        · split at h
          · cases h
          · next hn _ _ hoff hfresh =>
            cases hbelow : s.children off with
            | error e => rw [hbelow] at h; cases h
            | ok below =>
              cases hpayload : s.payload off with
              | error e => rw [hbelow, hpayload] at h; cases h
              | ok payload =>
                rw [hbelow, hpayload] at h
                exact ⟨by omega, by omega, hfresh, below, payload, rfl, rfl, h⟩

theorem holds_of_dfsLoop (h : s.dfsLoop (enterAll depth cs ++ stack) path n visited results = .ok r)
    (hvisited : visited.Nodup) :
    ∃ f offs, Holds s cs f offs ∧ (offs ++ visited).Nodup ∧
      s.dfsLoop stack path (n + offs.length) (offs.reverse ++ visited)
        (results ++ continued path f.entries) = .ok r := by
  induction hm : s.size + 1 - n using Nat.strong_induction_on generalizing depth n cs stack path visited results with
  | _ m ih =>
    cases cs with
    | nil => exact ⟨.nil, [], .nil, hvisited, by simpa [enterAll, continued, Forest.entries] using h⟩
    | cons c rest =>
      obtain ⟨b, off⟩ := c
      obtain ⟨hn, hoff, hfresh, below, payload, hbelow, hpayload, hsub⟩ := dfsLoop_enter_ok
        (show s.dfsLoop (.enter off (some b) depth :: (enterAll depth rest ++ stack)) path n visited
          results = .ok r from h)
      have hnodup : (off :: visited).Nodup := List.nodup_cons.2 ⟨hfresh, hvisited⟩
      obtain ⟨children, offs, hchildren, hnodupSub, hpop⟩ := ih _ (by omega) hsub hnodup rfl
      simp only [Option.isSome_some, if_true, Option.toList_some] at hpop
      rw [dfsLoop, List.dropLast_concat] at hpop
      have hnodup' : (offs.reverse ++ off :: visited).Nodup :=
        ((List.reverse_perm offs).append_right _).nodup_iff.2 hnodupSub
      obtain ⟨siblings, offs', hsiblings, hnodupRest, hrest⟩ := ih _ (by omega) hpop hnodup' rfl
      refine ⟨.cons b payload children siblings, off :: (offs ++ offs'),
        .cons hoff hbelow hpayload hchildren hsiblings, ?_, ?_⟩
      · refine (List.Perm.nodup_iff ?_).1 hnodupRest
        rw [List.perm_iff_count]
        intro a
        simp only [List.count_append, List.count_cons, List.count_reverse]
        omega
      · rw [← hrest, continued_cons]
        simp only [List.reverse_cons, List.reverse_append, List.append_assoc, List.length_cons,
          List.length_append, List.singleton_append]
        congr 1
        omega

/-- The node at an offset. -/
def NodeAt (s : TrieStore α) (off : Nat) (node : Option α × Forest UInt8 α) (offs : List Nat) : Prop :=
  off < s.size ∧ ∃ below, s.children off = .ok below ∧ s.payload off = .ok node.1 ∧
    Holds s below node.2 offs

/-- The traversal succeeds exactly on a tree, and then gives its entries. -/
theorem dfsCollectInOrder_iff :
    s.dfsCollectInOrder root = .ok r ↔
      ∃ node offs, NodeAt s root node offs ∧ (root :: offs).Nodup ∧ r = Forest.entriesOf node := by
  have hresults : ∀ (payload : Option α) (f : Forest UInt8 α),
      payload.toList.map (([] : Bytes), ·) ++ continued [] f.entries = Forest.entriesOf (payload, f) := by
    intro payload f
    simp [continued, Forest.entriesOf, Forest.nodeEntries, Forest.own]
  constructor
  · intro h
    obtain ⟨-, hoff, -, below, payload, hbelow, hpayload, hsub⟩ := dfsLoop_enter_ok h
    simp only [Option.isSome_none, Bool.false_eq_true, if_false, Option.toList_none, List.append_nil,
      List.nil_append] at hsub
    rw [← List.append_nil (enterAll _ _)] at hsub
    obtain ⟨f, offs, hf, hnodup, hend⟩ := holds_of_dfsLoop hsub (List.nodup_singleton root)
    rw [dfsLoop, hresults] at hend
    refine ⟨(payload, f), offs, ⟨hoff, below, hbelow, hpayload, hf⟩, ?_, (Except.ok.inj hend).symm⟩
    have hperm : (offs ++ [root]).Perm (root :: offs) := List.perm_append_comm
    exact hperm.nodup_iff.1 hnodup
  · rintro ⟨⟨payload, f⟩, offs, ⟨hoff, below, hbelow, hpayload, hf⟩, hnodup, rfl⟩
    rw [dfsCollectInOrder, dfsLoop_enter (by omega) (by simp) (by omega) hoff (by simp) hbelow hpayload]
    simp only [Option.isSome_none, Bool.false_eq_true, if_false, Option.toList_none, List.append_nil,
      List.nil_append]
    have hperm : (offs ++ [root]).Perm (root :: offs) := List.perm_append_comm
    have hrun : s.dfsLoop (enterAll (1 + 1) below ++ []) [] (0 + 1) [root]
        (payload.toList.map (([] : Bytes), ·)) = _ :=
      dfsLoop_enterAll hf rfl (hperm.nodup_iff.2 hnodup) (by simpa using hoff) (by omega) (by simp)
    rw [List.append_nil] at hrun
    rw [hrun, dfsLoop, hresults]

/-! ### Searching the children -/

/-- A node whose tree is ordered and has no dead end below it. -/
structure WellFormed (s : TrieStore α) (off : Nat) (node : Option α × Forest UInt8 α) : Prop where
  nodeAt : ∃ offs, NodeAt s off node offs
  ascending : node.2.Ascending
  productive : node.2.Productive

/-- A node that leads to an entry, lower than a height. -/
def Leads (s : TrieStore α) (n off : Nat) (node : Option α × Forest UInt8 α) : Prop :=
  WellFormed s off node ∧ Forest.Fruitful node.1 node.2 ∧ node.2.height < n

/-- A child of a forest, and what it holds. -/
def ChildAt (s : TrieStore α) (n : Nat) (c : UInt8 × Nat) (node : Option α × Forest UInt8 α) : Prop :=
  Leads s n c.2 node

theorem Holds.edges (h : Holds s cs f offs) : cs.map (·.1) = f.edges := by
  induction h with
  | nil => rfl
  | cons _ _ _ _ _ _ ih => rw [List.map_cons, Forest.edges, ih]

theorem Holds.height_le (h : Holds s cs f offs) : f.height ≤ offs.length := by
  induction h with
  | nil => exact Nat.le_refl 0
  | cons _ _ _ _ _ ih ih' =>
    rw [Forest.height, List.length_cons, List.length_append]
    omega

theorem Holds.cons_inv {c : UInt8 × Nat} (h : Holds s (c :: cs) f offs) (ha : f.Ascending)
    (hp : f.Productive) (hn : f.height ≤ n) :
    ∃ payload children siblings offs', f = .cons c.1 payload children siblings ∧
      ChildAt s n c (payload, children) ∧ Holds s cs siblings offs' ∧
      (∀ b ∈ siblings.edges, c.1 < b) ∧ siblings.Ascending ∧ siblings.Productive ∧
      siblings.height ≤ n := by
  cases h with
  | @cons b off below _ payload children siblings offs offs' hoff hbelow hpayload hsub hrest =>
    rw [Forest.height] at hn
    refine ⟨payload, children, siblings, offs', rfl, ⟨⟨⟨offs, hoff, below, hbelow, hpayload, hsub⟩,
      ha.2.1, hp.2.1⟩, hp.1, ?_⟩, hrest, ha.1, ha.2.2, hp.2.2, ?_⟩
    · show children.height < n
      omega
    · omega

/-- Related options are both empty, or hold related values. -/
theorem rel_cases {β γ : Type*} {R : β → γ → Prop} {x : Option β} {y : Option γ}
    (h : Option.Rel R x y) : x = none ∧ y = none ∨ ∃ b c, x = some b ∧ y = some c ∧ R b c := by
  cases h with
  | none => exact .inl ⟨rfl, rfl⟩
  | some h => exact .inr ⟨_, _, rfl, rfl, h⟩

section Search

variable {cs : List (UInt8 × Nat)} {f : Forest UInt8 α} {offs : List Nat} {n : Nat}

theorem Holds.head_rel (h : Holds s cs f offs) (ha : f.Ascending) (hp : f.Productive)
    (hn : f.height ≤ n) : Option.Rel (ChildAt s n) cs.head? f.firstChild := by
  cases cs with
  | nil =>
    cases h
    exact .none
  | cons c cs =>
    obtain ⟨payload, children, siblings, offs', rfl, hc, -⟩ := h.cons_inv ha hp hn
    exact .some hc

theorem Holds.getLast_rel (h : Holds s cs f offs) (ha : f.Ascending) (hp : f.Productive)
    (hn : f.height ≤ n) : Option.Rel (ChildAt s n) cs.getLast? f.lastChild := by
  induction cs generalizing f offs with
  | nil =>
    cases h
    exact .none
  | cons c cs ih =>
    obtain ⟨payload, children, siblings, offs', rfl, hc, hrest, -, ha', hp', hn'⟩ := h.cons_inv ha hp hn
    rw [Forest.lastChild, List.getLast?_cons]
    rcases rel_cases (ih hrest ha' hp' hn') with ⟨hlast, hl⟩ | ⟨d, node, hlast, hl, hd⟩
    · rw [hlast, hl]
      exact .some hc
    · rw [hlast, hl]
      exact .some hd

/-- The first child with a greater byte, where the first child has one. -/
theorem upper_of_ascending {b : UInt8} (h : ∀ e ∈ f.edges, b < e) : f.upper b = f.firstChild := by
  cases f with
  | nil => rfl
  | cons e _ _ _ => rw [Forest.upper, if_pos (h e List.mem_cons_self)]; rfl

/-- How many children have a lesser byte. -/
def lesserCount (cs : List (UInt8 × Nat)) (b : UInt8) : Nat := (cs.takeWhile (·.1 < b)).length

theorem Holds.lower_rel (h : Holds s cs f offs) (ha : f.Ascending) (hp : f.Productive)
    (hn : f.height ≤ n) (b : UInt8) :
    Option.Rel (ChildAt s n) (if lesserCount cs b = 0 then none else cs[lesserCount cs b - 1]?)
      (f.lower b) := by
  induction cs generalizing f offs with
  | nil =>
    cases h
    exact .none
  | cons c cs ih =>
    obtain ⟨payload, children, siblings, offs', rfl, hc, hrest, -, ha', hp', hn'⟩ := h.cons_inv ha hp hn
    rw [Forest.lower]
    by_cases hlt : c.1 < b
    · have hcount : lesserCount (c :: cs) b = lesserCount cs b + 1 := by
        rw [lesserCount, List.takeWhile_cons_of_pos (by simpa using hlt), List.length_cons, lesserCount]
      have hrel := ih hrest ha' hp' hn'
      rw [hcount, if_neg (Nat.succ_ne_zero _), Nat.add_sub_cancel, if_pos hlt]
      by_cases hzero : lesserCount cs b = 0
      · rw [if_pos hzero] at hrel
        rcases rel_cases hrel with ⟨-, hl⟩ | ⟨_, _, hget, -⟩
        · rw [hzero, hl]
          exact .some hc
        · cases hget
      · rw [if_neg hzero] at hrel
        obtain ⟨k, hk⟩ := Nat.exists_eq_succ_of_ne_zero hzero
        rw [hk, Nat.succ_eq_add_one, Nat.add_sub_cancel] at hrel
        rw [hk, List.getElem?_cons_succ]
        rcases rel_cases hrel with ⟨hget, -⟩ | ⟨d, node, hget, hl, hd⟩
        · have hlen : lesserCount cs b ≤ cs.length := (List.takeWhile_sublist _).length_le
          rw [List.getElem?_eq_none_iff] at hget
          omega
        · rw [hget, hl]
          exact .some hd
    · have hcount : lesserCount (c :: cs) b = 0 := by
        rw [lesserCount, List.takeWhile_cons_of_neg (by simpa using hlt), List.length_nil]
      rw [hcount, if_pos rfl, if_neg hlt]
      exact .none

theorem Holds.exact_rel (h : Holds s cs f offs) (ha : f.Ascending) (hp : f.Productive)
    (hn : f.height ≤ n) (b : UInt8) :
    Option.Rel (ChildAt s n) (cs[lesserCount cs b]?.filter (·.1 == b)) (f.child b) ∧
      Option.Rel (ChildAt s n)
        (if cs[lesserCount cs b]?.any (·.1 == b) then cs[lesserCount cs b + 1]?
          else cs[lesserCount cs b]?) (f.upper b) := by
  induction cs generalizing f offs with
  | nil =>
    cases h
    exact ⟨.none, .none⟩
  | cons c cs ih =>
    obtain ⟨payload, children, siblings, offs', rfl, hc, hrest, hedge, ha', hp', hn'⟩ :=
      h.cons_inv ha hp hn
    rw [Forest.child, Forest.upper]
    rcases lt_trichotomy c.1 b with hlt | rfl | hgt
    · have hcount : lesserCount (c :: cs) b = lesserCount cs b + 1 := by
        rw [lesserCount, List.takeWhile_cons_of_pos (by simpa using hlt), List.length_cons, lesserCount]
      rw [hcount, List.getElem?_cons_succ, List.getElem?_cons_succ, if_neg hlt.ne, if_neg hlt.not_gt]
      exact ih hrest ha' hp' hn'
    · have hcount : lesserCount (c :: cs) c.1 = 0 := by
        rw [lesserCount, List.takeWhile_cons_of_neg (by simp), List.length_nil]
      rw [hcount, List.getElem?_cons_zero, List.getElem?_cons_succ, if_pos rfl, if_neg (lt_irrefl _),
        upper_of_ascending hedge]
      refine ⟨?_, ?_⟩
      · rw [Option.filter_some, if_pos (beq_self_eq_true c.1)]
        exact .some hc
      · have hhead := hrest.head_rel ha' hp' hn'
        rw [List.head?_eq_getElem?] at hhead
        simpa using hhead
    · have hcount : lesserCount (c :: cs) b = 0 := by
        rw [lesserCount, List.takeWhile_cons_of_neg (by simpa using hgt.not_gt), List.length_nil]
      have hnone : siblings.child b = none := Forest.child_eq_none fun e he => hgt.trans (hedge e he)
      rw [hcount, List.getElem?_cons_zero, if_neg hgt.ne', if_pos hgt, hnone]
      have hbeq : (c.1 == b) = false := by simpa using hgt.ne'
      refine ⟨?_, ?_⟩
      · rw [Option.filter_some, if_neg (by simp [hbeq])]
        exact .none
      · simpa [hbeq] using Option.Rel.some hc

theorem Holds.insertion_eq (h : Holds s cs f offs) (ha : f.Ascending) (b : UInt8) :
    (searchChildren cs (some b)).insertion = lesserCount cs b := by
  refine BinarySearch.partitionPoint_eq ?_
  have hsorted : (cs.map (·.1)).Pairwise (· < ·) := by
    rw [h.edges]
    exact ha.edges_sorted
  refine (List.pairwise_map.1 hsorted).imp fun hab hb => ?_
  simp only [decide_eq_true_eq] at hb ⊢
  exact hab.trans hb

end Search

/-! ### The walks find the neighbours -/

variable {node : Option α × Forest UInt8 α}

theorem Leads.last_ne_none (h : Leads s n off node) : Forest.last (Forest.entriesOf node) ≠ none :=
  Forest.last_ne_none (Forest.Productive.nodeEntries_ne_nil h.2.1 h.1.productive)

theorem Leads.goMaxPayload {steps : Nat} (h : Leads s steps off node) :
    ∃ v, s.goMaxPayload steps off = .ok v ∧ Forest.last (Forest.entriesOf node) = some v := by
  induction steps generalizing off node with
  | zero => exact absurd h.2.2 (Nat.not_lt_zero _)
  | succ steps ih =>
    obtain ⟨⟨⟨offs, -, below, hbelow, hpayload, hsub⟩, ha, hp⟩, hfruit, hheight⟩ := h
    have hrel := hsub.getLast_rel ha hp (Nat.le_of_lt_succ hheight)
    rw [TrieStore.goMaxPayload, hbelow]
    rw [Forest.entriesOf, Forest.last_nodeEntries _ _ hp]
    rcases rel_cases hrel with ⟨hlast, hl⟩ | ⟨c, m, hlast, hl, hc⟩
    · rw [hl]
      rcases hfruit with hfruit | hfruit
      · obtain ⟨v, hv⟩ := Option.ne_none_iff_exists'.1 hfruit
        exact ⟨v, by simp [bind, Except.bind, hlast, hpayload, hv, pure, Except.pure], hv⟩
      · exact absurd (Forest.lastChild_eq_none.1 hl) hfruit
    · obtain ⟨v, hv, hm⟩ := ih hc
      rw [hl]
      exact ⟨v, by simpa [bind, Except.bind, hlast] using hv, hm⟩

theorem Leads.goMinPayload {steps : Nat} (h : Leads s steps off node) :
    ∃ v, s.goMinPayload steps off = .ok v ∧ Forest.first (Forest.entriesOf node) = some v := by
  induction steps generalizing off node with
  | zero => exact absurd h.2.2 (Nat.not_lt_zero _)
  | succ steps ih =>
    obtain ⟨⟨⟨offs, -, below, hbelow, hpayload, hsub⟩, ha, hp⟩, hfruit, hheight⟩ := h
    have hrel := hsub.head_rel ha hp (Nat.le_of_lt_succ hheight)
    rw [TrieStore.goMinPayload, hpayload]
    rw [Forest.entriesOf, Forest.first_nodeEntries, Forest.first_entries hp]
    cases hown : node.1 with
    | some v => exact ⟨v, rfl, rfl⟩
    | none =>
      rw [Option.none_or]
      rcases rel_cases hrel with ⟨-, hl⟩ | ⟨c, m, hhead, hl, hc⟩
      · rcases hfruit with hfruit | hfruit
        · exact absurd hown hfruit
        · cases hf : node.2 with
          | nil => exact absurd hf hfruit
          | cons _ _ _ _ => rw [hf] at hl; cases hl
      · obtain ⟨v, hv, hm⟩ := ih hc
        rw [hl]
        exact ⟨v, by simpa [bind, Except.bind, hbelow, hhead] using hv, hm⟩

theorem exact_bind (cs : List (UInt8 × Nat)) (b : UInt8) :
    (searchChildren cs (some b)).exact.bind (cs[·]?) =
      cs[(searchChildren cs (some b)).insertion]?.filter (·.1 == b) := by
  simp only [searchChildren]
  cases h : cs[BinarySearch.partitionPoint (fun c => decide (c.1 < b)) cs]? with
  | none => simp
  | some c =>
    by_cases hb : c.1 == b
    · simp [hb, h, Option.filter_some]
    · simp [hb, Option.filter_some]

/-- What the descent of the floor has found: a payload on the path, or else a lesser branch. -/
def FloorAt (s : TrieStore α) (n : Nat) : Option α × Option Nat → Option α → Prop
  | (some p, _), v => v = some p
  | (none, none), v => v = none
  | (none, some off), v => ∃ node, Leads s n off node ∧ v = Forest.last (Forest.entriesOf node)

theorem floorCandidate_spec {b : UInt8} {payload v : Option α} {lesser : Option Nat}
    {below : List (UInt8 × Nat)} (hpayload : s.payload off = .ok node.1)
    (hsub : Holds s below node.2 offs) (ha : node.2.Ascending) (hp : node.2.Productive)
    (hn : node.2.height ≤ n) (hfound : FloorAt s n (payload, lesser) v) :
    ∃ found, s.floorCandidate off below (searchChildren below (some b)).insertion payload lesser =
        .ok found ∧
      FloorAt s n found
        (((node.2.lower b).bind fun node => Forest.last (Forest.entriesOf node)).or (node.1.or v)) := by
  have hlower := hsub.lower_rel ha hp hn b
  rw [hsub.insertion_eq ha b, floorCandidate]
  split_ifs at hlower ⊢ with hzero
  · have hnone : node.2.lower b = none := by
      rcases rel_cases hlower with ⟨-, hl⟩ | ⟨_, _, hget, -⟩
      · exact hl
      · cases hget
    rw [hnone, hpayload]
    cases hown : node.1 with
    | some p => exact ⟨(some p, lesser), rfl, rfl⟩
    | none => exact ⟨(payload, lesser), rfl, hfound⟩
  · refine ⟨_, rfl, ?_⟩
    rcases rel_cases hlower with ⟨hget, -⟩ | ⟨c, m, hget, hl, hc⟩
    · have hlen : lesserCount below b ≤ below.length := (List.takeWhile_sublist _).length_le
      rw [List.getElem?_eq_none_iff] at hget
      omega
    · obtain ⟨w, hw⟩ := Option.ne_none_iff_exists'.1 (Leads.last_ne_none hc)
      rw [hget, hl]
      exact ⟨m, hc, by simp [hw]⟩

theorem floorLoop_spec {n steps off : Nat} {key : Bytes} {payload v : Option α} {lesser : Option Nat}
    {node : Option α × Forest UInt8 α} (hnode : WellFormed s off node) (hn : node.2.height ≤ n)
    (hsteps : node.2.height < steps) (hfound : FloorAt s n (payload, lesser) v) :
    ∃ found, s.floorLoop steps off key payload lesser = .ok found ∧
      FloorAt s n found ((Forest.lastUpTo (Forest.entriesOf node) key).or v) := by
  induction key generalizing steps off node payload lesser v with
  | nil =>
    obtain ⟨⟨offs, -, below, hbelow, hpayload, hsub⟩, ha, hp⟩ := hnode
    obtain ⟨steps, rfl⟩ := Nat.exists_eq_add_of_lt hsteps
    rw [floorLoop, hbelow, Forest.entriesOf, Forest.lastUpTo_nil]
    cases hown : node.1 with
    | some p =>
      refine ⟨(some p, lesser), ?_, rfl⟩
      simp [bind, Except.bind, searchChildren, floorCandidate, hpayload, hown, pure, Except.pure]
    | none =>
      refine ⟨(payload, lesser), ?_, hfound⟩
      simp [bind, Except.bind, searchChildren, floorCandidate, hpayload, hown, pure, Except.pure]
  | cons b key ih =>
    obtain ⟨⟨offs, -, below, hbelow, hpayload, hsub⟩, ha, hp⟩ := hnode
    obtain ⟨m, rfl⟩ := Nat.exists_eq_add_of_lt hsteps
    have hexact := (hsub.exact_rel ha hp (Nat.le_refl _) b).1
    rw [← hsub.insertion_eq ha b] at hexact
    rw [← exact_bind] at hexact
    rw [floorLoop, hbelow, Forest.entriesOf, Forest.lastUpTo_cons ha hp, Option.or_assoc, Option.or_assoc]
    obtain ⟨found', hrun, hfound'⟩ := floorCandidate_spec (b := b) hpayload hsub ha hp hn hfound
    simp only [List.head?_cons, List.tail_cons]
    rcases rel_cases hexact with ⟨hget, hl⟩ | ⟨c, child, hget, hl, hc⟩
    · rw [hl]
      refine ⟨found', ?_, by simpa using hfound'⟩
      simp only [bind, Except.bind, hrun, hget]
      rfl
    · obtain ⟨found, hrest, hat⟩ := ih hc.1 (by have := hc.2.2; omega)
        (show child.2.height < node.2.height + m by have := hc.2.2; omega) hfound'
      rw [hl]
      refine ⟨found, ?_, hat⟩
      simp only [bind, Except.bind, hrun, hget]
      exact hrest

/-- What the descent of the ceiling has found: the branch that holds the answer. -/
def CeilingAt (s : TrieStore α) (n : Nat) : Option Nat → Option α → Prop
  | none, v => v = none
  | some off, v => ∃ node, Leads s n off node ∧ v = Forest.first (Forest.entriesOf node)

theorem CeilingAt.or {c : Option (UInt8 × Nat)} {m : Option (Option α × Forest UInt8 α)}
    {greater : Option Nat} {v : Option α} (hrel : Option.Rel (ChildAt s n) c m)
    (hfound : CeilingAt s n greater v) :
    CeilingAt s n ((c.map (·.2)).or greater)
      ((m.bind fun node => Forest.first (Forest.entriesOf node)).or v) := by
  cases hrel with
  | none => exact hfound
  | @some c node hc =>
    have hne := Forest.first_ne_none (Forest.Productive.nodeEntries_ne_nil hc.2.1 hc.1.productive)
    obtain ⟨w, hw⟩ := Option.ne_none_iff_exists'.1 hne
    refine ⟨node, hc, ?_⟩
    simp [Forest.entriesOf, hw]

/-- The walk finds the least key that is not below. -/
theorem ceilingLoop_spec {n steps off : Nat} {key : Bytes} {v : Option α} {greater : Option Nat}
    {node : Option α × Forest UInt8 α} (hnode : WellFormed s off node) (hn : node.2.height ≤ n)
    (hsteps : node.2.height < steps) (hfound : CeilingAt s n greater v) :
    ∃ found, s.ceilingLoop steps off key greater = .ok found ∧
      CeilingAt s n found ((Forest.firstAfter (Forest.entriesOf node) key).or v) := by
  induction key generalizing steps off node greater v with
  | nil =>
    obtain ⟨⟨offs, -, below, hbelow, hpayload, hsub⟩, ha, hp⟩ := hnode
    obtain ⟨steps, rfl⟩ := Nat.exists_eq_add_of_lt hsteps
    have hhead := hsub.head_rel ha hp hn
    rw [List.head?_eq_getElem?] at hhead
    rw [ceilingLoop, hbelow, Forest.entriesOf, Forest.firstAfter_nil, Forest.first_entries hp]
    exact ⟨_, rfl, hfound.or hhead⟩
  | cons b key ih =>
    obtain ⟨⟨offs, -, below, hbelow, hpayload, hsub⟩, ha, hp⟩ := hnode
    obtain ⟨m, rfl⟩ := Nat.exists_eq_add_of_lt hsteps
    have hexact := (hsub.exact_rel ha hp (Nat.le_refl _) b).1
    have hupper := (hsub.exact_rel ha hp hn b).2
    rw [← hsub.insertion_eq ha b] at hexact
    rw [← exact_bind] at hexact
    rw [ceilingLoop, hbelow, Forest.entriesOf, Forest.firstAfter_cons ha hp, Option.or_assoc]
    have hfound' := hfound.or hupper
    have hidx : (if below[lesserCount below b]?.any (·.1 == b) then below[lesserCount below b + 1]?
          else below[lesserCount below b]?) =
        below[match (searchChildren below (some b)).exact with
          | some i => i + 1
          | none => (searchChildren below (some b)).insertion]? := by
      have hins := hsub.insertion_eq ha b
      simp only [searchChildren] at hins ⊢
      rw [hins]
      split_ifs <;> rfl
    rw [hidx] at hfound'
    simp only [List.head?_cons, List.tail_cons, bind, Except.bind]
    rcases rel_cases hexact with ⟨hget, hl⟩ | ⟨c, child, hget, hl, hc⟩
    · rw [hget, hl]
      exact ⟨_, rfl, hfound'⟩
    · rw [hget, hl]
      exact ih hc.1 (by have := hc.2.2; omega)
        (show child.2.height < node.2.height + m by have := hc.2.2; omega) hfound'

/-- A tree without repeated offsets is no higher than the trie is long. -/
theorem height_le_size (h : NodeAt s root node offs) (hnodup : (root :: offs).Nodup) :
    node.2.height < s.size := by
  obtain ⟨hroot, below, -, -, hsub⟩ := h
  have hlen : (root :: offs).length ≤ s.size := by
    refine length_le_of_nodup hnodup fun x hx => ?_
    rcases List.mem_cons.1 hx with rfl | hx
    · exact hroot
    · exact hsub.offsets_lt x hx
  have hheight := hsub.height_le
  rw [List.length_cons] at hlen
  omega

section Blocks

variable {root : Nat} {node : Option α × Forest UInt8 α} (hnode : WellFormed s root node)
  (hheight : node.2.height < s.size)

include hnode hheight

theorem floorBlock_eq (key : Bytes) :
    s.floorBlock root key = .ok (Forest.lastUpTo (Forest.entriesOf node) key) := by
  obtain ⟨found, hrun, hfound⟩ := @floorLoop_spec _ s node.2.height (s.size + 1) root key none none
    none node hnode (Nat.le_refl _) (by omega) rfl
  rw [Option.or_none] at hfound
  rw [floorBlock, hrun]
  obtain ⟨_ | p, _ | lesser⟩ := found
  · exact congrArg _ (show _ = none from hfound).symm
  · obtain ⟨child, ⟨hchild, hfruit, hlt⟩, hv⟩ := hfound
    have hleads : Leads s (s.size + 1) lesser child := ⟨hchild, hfruit, by omega⟩
    obtain ⟨v, hmax, hlast⟩ := hleads.goMaxPayload
    rw [hv, hlast]
    simp [bind, Except.bind, hmax, pure, Except.pure]
  · exact congrArg _ (show _ = some p from hfound).symm
  · exact congrArg _ (show _ = some p from hfound).symm

theorem strictCeilingBlock_eq (key : Bytes) :
    s.strictCeilingBlock root key = .ok (Forest.firstAfter (Forest.entriesOf node) key) := by
  obtain ⟨found, hrun, hfound⟩ := @ceilingLoop_spec _ s node.2.height (s.size + 1) root key none
    none node hnode (Nat.le_refl _) (by omega) rfl
  rw [Option.or_none] at hfound
  rw [strictCeilingBlock, hrun]
  cases found with
  | none => exact congrArg _ (show _ = none from hfound).symm
  | some greater =>
    obtain ⟨child, ⟨hchild, hfruit, hlt⟩, hv⟩ := hfound
    have hleads : Leads s (s.size + 1) greater child := ⟨hchild, hfruit, by omega⟩
    obtain ⟨v, hmin, hfirst⟩ := hleads.goMinPayload
    rw [hv, hfirst]
    simp [bind, Except.bind, hmin, pure, Except.pure]

end Blocks

/-! ### The condition on the store -/

/-- The offsets the walks can come to from a node, without the node itself. -/
inductive Below (s : TrieStore α) (root : Nat) : Nat → Prop
  | child {below : List (UInt8 × Nat)} {c : UInt8 × Nat} :
      s.children root = .ok below → c ∈ below → Below s root c.2
  | grandchild {off : Nat} {below : List (UInt8 × Nat)} {c : UInt8 × Nat} :
      Below s root off → s.children off = .ok below → c ∈ below → Below s root c.2

/-- The transition bytes at an offset ascend strictly. -/
def StrictAt (s : TrieStore α) (off : Nat) : Prop :=
  ∀ below, s.children off = .ok below → (below.map (·.1)).Pairwise (· < ·)

/-- A dead end at an offset has a payload. -/
def PaysAt (s : TrieStore α) (off : Nat) : Prop :=
  s.children off = .ok [] → s.payload off ≠ .ok none

theorem Holds.ascending (h : Holds s cs f offs) (hcs : (cs.map (·.1)).Pairwise (· < ·))
    {P : Nat → Prop} (hP : ∀ c ∈ cs, P c.2)
    (hstep : ∀ off below, P off → s.children off = .ok below → ∀ c ∈ below, P c.2)
    (hstrict : ∀ off, P off → StrictAt s off) : f.Ascending := by
  induction h with
  | nil => trivial
  | @cons b off below rest payload children siblings offs offs' hoff hbelow hpayload hsub hrest ih ih' =>
    have hoffP := hP (b, off) List.mem_cons_self
    rw [List.map_cons, List.pairwise_cons] at hcs
    refine ⟨?_, ih (hstrict off hoffP below hbelow) (hstep off below hoffP hbelow), ?_⟩
    · rw [← hrest.edges]
      exact hcs.1
    · exact ih' hcs.2 fun c hc => hP c (List.mem_cons_of_mem _ hc)

theorem Holds.productive (h : Holds s cs f offs) {P : Nat → Prop} (hP : ∀ c ∈ cs, P c.2)
    (hstep : ∀ off below, P off → s.children off = .ok below → ∀ c ∈ below, P c.2)
    (hpays : ∀ off, P off → PaysAt s off) : f.Productive := by
  induction h with
  | nil => trivial
  | @cons b off below rest payload children siblings offs offs' hoff hbelow hpayload hsub hrest ih ih' =>
    have hoffP := hP (b, off) List.mem_cons_self
    refine ⟨?_, ih (hstep off below hoffP hbelow), ih' fun c hc => hP c (List.mem_cons_of_mem _ hc)⟩
    cases hsub with
    | nil =>
      refine .inl fun hnone => ?_
      rw [hnone] at hpayload
      exact hpays off hoffP hbelow hpayload
    | cons => exact .inr (by simp)

/-- From the conditions at the offsets below it, a node is well formed. -/
theorem wellFormed_of_below (h : NodeAt s root node offs) (hroot : StrictAt s root)
    (hstrict : ∀ off, Below s root off → StrictAt s off)
    (hpays : ∀ off, Below s root off → PaysAt s off) : WellFormed s root node := by
  have hat := h
  obtain ⟨-, below, hbelow, -, hsub⟩ := hat
  have hP : ∀ c ∈ below, Below s root c.2 := fun c hc => .child hbelow hc
  have hstep : ∀ off cs, Below s root off → s.children off = .ok cs → ∀ c ∈ cs, Below s root c.2 :=
    fun _ _ hoff hcs _ hc => .grandchild hoff hcs hc
  exact ⟨⟨offs, h⟩, hsub.ascending (hroot below hbelow) hP hstep hstrict,
    hsub.productive hP hstep hpays⟩

end TrieStore

end Cqlite
