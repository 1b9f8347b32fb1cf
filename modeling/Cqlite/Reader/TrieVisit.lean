import Mathlib.Logic.Relation
import Cqlite.Lib.Rank
import Cqlite.Reader.TrieReads

/-! The depth-first traversal, step by step (`bti/parser/traversal.rs`: `dfs_visit_in_order`).

    A step takes one operation from the stack. Every access is checked, the one to the vector of
    visited bits included. -/

namespace Cqlite

open TrieStore Trie Reading

/-! ### The machine -/

/-- `visited` lists the offsets whose bit is set; the visitor collects. -/
structure DfsState (α : Type) where
  stack : List DfsOp
  path : Bytes
  nodesVisited : Nat
  visited : List Nat
  visits : List (Bytes × α)

section

variable {α : Type} (trieData : Bytes) (decodePayload : Nat → BtiNodeData → BtiResult (Option α))

/-- There is one bit per byte, in whole bytes. -/
def visitedBit (visited : List Nat) (nodeOffset : Nat) : Reading Bool :=
  ExceptT.mk (if nodeOffset / 8 < (trieData.length + 7) / 8 then
    some (.ok (nodeOffset ∈ visited)) else none)

/-- One turn of the loop. -/
def dfsStep (st : DfsState α) : Reading (DfsState α) :=
  match st.stack with
  | [] => return st
  | .pop :: stack => return { st with stack := stack, path := st.path.dropLast }
  | .enter nodeOffset transition depth :: stack => do
    let path := st.path ++ transition.toList
    let stack := if transition.isSome then .pop :: stack else stack
    let nodesVisited := st.nodesVisited + 1
    if trieData.length < nodesVisited then result (.error "BTI DFS exceeded total work bound")
    else if trieData.length < path.length then
      result (.error "BTI DFS key path exceeds trie size")
    else if trieData.length + 1 < depth then result (.error "BTI DFS exceeded node depth")
    else if trieData.length ≤ nodeOffset then
      result (.error "BTI DFS: node_offset out of bounds")
    else if ← visitedBit trieData st.visited nodeOffset then
      result (.error "BTI DFS revisited node offset")
    else
      let node ← parseBtiNodeForTraversalReading trieData nodeOffset
      let payload ← result (decodePayload nodeOffset node)
      return {
        stack := enterAll (depth + 1) (orderedChildren node) ++ stack
        path := path
        nodesVisited := nodesVisited
        visited := nodeOffset :: st.visited
        visits := st.visits ++ payload.toList.map (path, ·) }

def DfsState.start (rootOffset : Nat) : DfsState α := ⟨[.enter rootOffset none 1], [], 0, [], []⟩

/-- So many steps; none when a step panics, or when they are not enough. -/
def dfsRun : Nat → DfsState α → Reading (List (Bytes × α))
  | 0, _ => ExceptT.mk none
  | steps + 1, st =>
    match st.stack with
    | [] => return st.visits
    | _ :: _ => do dfsRun steps (← dfsStep trieData decodePayload st)

/-- The states on the way from the root. -/
def DfsReached (rootOffset : Nat) (st : DfsState α) : Prop :=
  Relation.ReflTransGen (fun a b => a.stack ≠ [] ∧ dfsStep trieData decodePayload a = result (.ok b))
    (DfsState.start rootOffset) st

/-- The trie as the traversal sees it. -/
def visitStore : TrieStore α where
  size := trieData.length
  children := trieChildren trieData
  payload off := do decodePayload off (← parseBtiNodeForTraversal trieData off)
  workBound := "BTI DFS exceeded total work bound"
  minLeaf := ""

/-- `dfs_visit_in_order`. -/
def dfsVisitInOrder (rootOffset : Nat) : BtiResult (List (Bytes × α)) :=
  (visitStore trieData decodePayload).dfsCollectInOrder rootOffset

end

/-! ### One step -/

theorem length_orderedChildren_le {trieData : Bytes} {nodeOffset : Nat} {node : BtiNodeData}
    (h : parseBtiNodeForTraversal trieData nodeOffset = .ok node) :
    (orderedChildren node).length ≤ 256 := by
  rw [parseBtiNodeForTraversal] at h
  split at h
  · cases h
  · rename_i hin
    obtain ⟨type, htype, h⟩ := bind_eq_ok.1 h
    rw [drop_eq_byteAt (Nat.not_le.1 hin)] at h
    cases type with
    | payloadOnly =>
      simp only at h
      split at h <;> cases h
      exact Nat.zero_le _
    | single =>
      simp only [parseBtiNode, htype, bind, Except.bind, parseSingleNode] at h
      split_ifs at h <;> cases h <;> exact Nat.one_le_ofNat
    | sparse =>
      simp only [parseBtiNode, htype, bind, Except.bind, parseSparseNode] at h
      split_ifs at h
      cases h
      simp only [orderedChildren, List.length_insertionSort, List.length_map, List.length_range]
      exact (UInt8.toNat_lt _).le
    | dense =>
      simp only [parseBtiNode, htype, bind, Except.bind, parseDenseNode] at h
      split_ifs at h
      cases h
      refine (List.length_filterMap_le _ _).trans ?_
      rw [List.length_range, List.length_map, List.length_range]
      exact UInt8.toNat_lt _

section

variable {α : Type} {trieData : Bytes} {decodePayload : Nat → BtiNodeData → BtiResult (Option α)}
  {rootOffset : Nat} {st st' : DfsState α}

/-- What is left to do: the nodes not entered yet, with all their children, and the stack. -/
def DfsState.work (trieData : Bytes) (st : DfsState α) : Nat :=
  258 * (trieData.length - st.nodesVisited) + st.stack.length

/-- The traversal from a state on. -/
def DfsState.loop (trieData : Bytes) (decodePayload : Nat → BtiNodeData → BtiResult (Option α))
    (st : DfsState α) : BtiResult (List (Bytes × α)) :=
  (visitStore trieData decodePayload).dfsLoop st.stack st.path st.nodesVisited st.visited st.visits

/-- Entering a node fails, or visits one not seen before. -/
theorem dfsStep_enter {nodeOffset depth : Nat} {transition : Option UInt8} {stack : List DfsOp}
    (hstack : st.stack = .enter nodeOffset transition depth :: stack) :
    (∃ e, dfsStep trieData decodePayload st = result (.error e) ∧
      st.loop trieData decodePayload = .error e) ∨
    ∃ node payload, parseBtiNodeForTraversal trieData nodeOffset = .ok node ∧
      decodePayload nodeOffset node = .ok payload ∧ st.nodesVisited + 1 ≤ trieData.length ∧
      nodeOffset < trieData.length ∧ nodeOffset ∉ st.visited ∧
      let st' : DfsState α := {
        stack := enterAll (depth + 1) (orderedChildren node) ++
          if transition.isSome then .pop :: stack else stack
        path := st.path ++ transition.toList
        nodesVisited := st.nodesVisited + 1
        visited := nodeOffset :: st.visited
        visits := st.visits ++ payload.toList.map (st.path ++ transition.toList, ·) }
      dfsStep trieData decodePayload st = result (.ok st') ∧
        st.loop trieData decodePayload = st'.loop trieData decodePayload := by
  have hloop : st.loop trieData decodePayload = (visitStore trieData decodePayload).dfsLoop
      (.enter nodeOffset transition depth :: stack) st.path st.nodesVisited st.visited st.visits := by
    rw [DfsState.loop, hstack]
  rw [dfsLoop] at hloop
  rw [hloop]
  simp only [dfsStep, hstack, visitStore]
  by_cases hwork : trieData.length < st.nodesVisited + 1
  · simp only [hwork, if_true]
    exact .inl ⟨_, rfl, rfl⟩
  simp only [hwork, if_false]
  by_cases hpath : trieData.length < (st.path ++ transition.toList).length
  · simp only [hpath, if_true]
    exact .inl ⟨_, rfl, rfl⟩
  simp only [hpath, if_false]
  by_cases hdepth : trieData.length + 1 < depth
  · simp only [hdepth, if_true]
    exact .inl ⟨_, rfl, rfl⟩
  simp only [hdepth, if_false]
  by_cases hout : trieData.length ≤ nodeOffset
  · simp only [hout, if_true]
    exact .inl ⟨_, rfl, rfl⟩
  -- the bit of an offset within the trie is within the vector
  have hbit : visitedBit trieData st.visited nodeOffset =
      result (.ok (decide (nodeOffset ∈ st.visited))) := by
    rw [visitedBit, if_pos (by omega)]
    rfl
  simp only [hout, if_false, hbit, result_ok_bind, parseBtiNodeForTraversalReading_eq]
  by_cases hseen : nodeOffset ∈ st.visited
  · simp only [hseen, decide_true, if_true]
    exact .inl ⟨_, rfl, rfl⟩
  simp only [hseen, decide_false, Bool.false_eq_true, if_false, trieChildren]
  cases hnode : parseBtiNodeForTraversal trieData nodeOffset with
  | error e => exact .inl ⟨e, rfl, rfl⟩
  | ok node =>
    cases hpayload : decodePayload nodeOffset node with
    | error e =>
      refine .inl ⟨e, ?_, ?_⟩
      · rw [result_ok_bind, hpayload, result_error_bind]
      · simp [bind, Except.bind, Except.map, hpayload]
    | ok payload =>
      refine .inr ⟨node, payload, rfl, hpayload, by omega, by omega, not_false, ?_, ?_⟩
      · rw [result_ok_bind, hpayload, result_ok_bind]
        rfl
      · simp [bind, Except.bind, Except.map, hpayload, DfsState.loop, visitStore]

/-- Every step is one of the traversal's own, or fails as it does, and leaves less to do. -/
theorem dfsStep_eq (hstack : st.stack ≠ []) :
    ∃ r, dfsStep trieData decodePayload st = result r ∧
      st.loop trieData decodePayload = r.bind (·.loop trieData decodePayload) ∧
      ∀ st', r = .ok st' → st'.work trieData < st.work trieData := by
  obtain ⟨op, stack, hop⟩ := List.exists_cons_of_ne_nil hstack
  cases op with
  | pop =>
    refine ⟨.ok { st with stack := stack, path := st.path.dropLast }, ?_, ?_, ?_⟩
    · simp only [dfsStep, hop]
      rfl
    · rw [DfsState.loop, hop, dfsLoop]
      rfl
    · rintro st' ⟨⟩
      simp [DfsState.work, hop]
  | enter nodeOffset transition depth =>
    rcases @dfsStep_enter _ trieData decodePayload _ _ _ _ _ hop with
      ⟨e, hstep, hloop⟩ | ⟨node, payload, hnode, -, hn, -, -, hstep, hloop⟩
    · exact ⟨.error e, hstep, hloop, fun st' h => by cases h⟩
    · refine ⟨.ok _, hstep, hloop, ?_⟩
      rintro st' ⟨⟩
      have hchildren := length_orderedChildren_le hnode
      have hpop : (if transition.isSome then DfsOp.pop :: stack else stack).length ≤
          stack.length + 1 := by split <;> simp
      simp only [DfsState.work, hop, List.length_append, enterAll, List.length_map, List.length_cons]
      omega

/-- With enough steps the machine ends, and says what the traversal says. -/
theorem dfsRun_eq {steps : Nat} (h : st.work trieData < steps) :
    dfsRun trieData decodePayload steps st = result (st.loop trieData decodePayload) := by
  induction steps generalizing st with
  | zero => omega
  | succ steps ih =>
    rw [dfsRun]
    split
    · rename_i hstack
      rw [DfsState.loop, hstack, dfsLoop]
      rfl
    · rename_i hstack
      obtain ⟨r, hstep, hloop, hless⟩ := @dfsStep_eq _ trieData decodePayload st
        (by rw [hstack]; simp)
      rw [hstep, hloop]
      cases r with
      | error e => rfl
      | ok st' =>
        have := hless st' rfl
        exact ih (by omega)

/-! ### The states on the way -/

/-- No node is entered twice, and all lie in the trie. -/
structure DfsInvariant (trieData : Bytes) (st : DfsState α) : Prop where
  nodup : st.visited.Nodup
  lt : ∀ off ∈ st.visited, off < trieData.length
  count : st.nodesVisited = st.visited.length

theorem DfsInvariant.step (h : DfsInvariant trieData st)
    (hstep : dfsStep trieData decodePayload st = result (.ok st')) : DfsInvariant trieData st' := by
  cases hop : st.stack with
  | nil =>
    simp only [dfsStep, hop] at hstep
    cases hstep
    exact h
  | cons op stack =>
    cases op with
    | pop =>
      simp only [dfsStep, hop] at hstep
      cases hstep
      exact ⟨h.nodup, h.lt, h.count⟩
    | enter nodeOffset transition depth =>
      rcases @dfsStep_enter _ trieData decodePayload _ _ _ _ _ hop with
        ⟨e, hstep', -⟩ | ⟨node, payload, -, -, -, hlt, hfresh, hstep', -⟩
      · rw [hstep'] at hstep
        cases hstep
      · rw [hstep'] at hstep
        cases hstep
        refine ⟨List.nodup_cons.2 ⟨hfresh, h.nodup⟩, ?_, ?_⟩
        · rintro off hoff
          rcases List.mem_cons.1 hoff with rfl | hoff
          · exact hlt
          · exact h.lt off hoff
        · simp [h.count]

theorem DfsInvariant.reached (h : DfsReached trieData decodePayload rootOffset st) :
    DfsInvariant trieData st := by
  induction h with
  | refl => exact ⟨List.nodup_nil, by simp [DfsState.start], rfl⟩
  | tail _ hstep ih => exact ih.step hstep.2

end

/-! ### Paths -/

variable {off : Nat} {path path' : List Nat}

namespace TrieStore

variable {α : Type} {s : TrieStore α}

/-- From these children, the choices of a path lead to a node. -/
inductive Descends (s : TrieStore α) : List (UInt8 × Nat) → List Nat → Nat → Prop
  | here {cs : List (UInt8 × Nat)} {i : Nat} {c : UInt8 × Nat} :
      cs[i]? = some c → Descends s cs [i] c.2
  | deeper {cs below : List (UInt8 × Nat)} {i off : Nat} {c : UInt8 × Nat} {path : List Nat} :
      cs[i]? = some c → s.children c.2 = .ok below → Descends s below path off →
      Descends s cs (i :: path) off

/-- A path from one node to another: which child is taken at each. -/
inductive LeadsTo (s : TrieStore α) (off : Nat) : List Nat → Nat → Prop
  | refl : LeadsTo s off [] off
  | down {below : List (UInt8 × Nat)} {path : List Nat} {off' : Nat} :
      s.children off = .ok below → Descends s below path off' → LeadsTo s off path off'

variable {cs : List (UInt8 × Nat)}

theorem Descends.trans {below : List (UInt8 × Nat)} {off' : Nat} (h : Descends s cs path off)
    (hbelow : s.children off = .ok below) (h' : Descends s below path' off') :
    Descends s cs (path ++ path') off' := by
  induction h with
  | here hc => exact .deeper hc hbelow h'
  | deeper hc hchildren _ ih => exact .deeper hc hchildren (ih hbelow)

theorem LeadsTo.trans {off' off'' : Nat} (h : LeadsTo s off path off')
    (h' : LeadsTo s off' path' off'') : LeadsTo s off (path ++ path') off'' := by
  cases h' with
  | refl => rwa [List.append_nil]
  | down hbelow hdown =>
    cases h with
    | refl => exact .down hbelow hdown
    | down hbelow' hdown' => exact .down hbelow' (hdown'.trans hbelow hdown)

theorem Descends.cons_inv {c : UInt8 × Nat} (h : Descends s (c :: cs) path off) :
    (∃ below path', path = 0 :: path' ∧ (path' = [] ∧ off = c.2 ∨
      s.children c.2 = .ok below ∧ Descends s below path' off)) ∨
    ∃ i path', path = (i + 1) :: path' ∧ Descends s cs (i :: path') off := by
  cases h with
  | @here _ i d hd =>
    cases i with
    | zero =>
      obtain rfl := Option.some.inj hd
      exact .inl ⟨[], [], rfl, .inl ⟨rfl, rfl⟩⟩
    | succ i => exact .inr ⟨i, [], rfl, .here hd⟩
  | @deeper _ below i _ d path' hd hbelow hdown =>
    cases i with
    | zero =>
      obtain rfl := Option.some.inj hd
      exact .inl ⟨below, path', rfl, .inr ⟨hbelow, hdown⟩⟩
    | succ i => exact .inr ⟨i, path', rfl, .deeper hd hbelow hdown⟩

theorem Holds.mem_of_descends {f : Forest UInt8 α} {offs : List Nat} (h : Holds s cs f offs)
    (hpath : Descends s cs path off) : off ∈ offs := by
  induction h generalizing path with
  | nil => cases hpath <;> simp at *
  | cons _ hchildren _ _ _ ih ih' =>
    rcases hpath.cons_inv with ⟨below, path', rfl, ⟨-, rfl⟩ | ⟨hbelow, hdown⟩⟩ | ⟨i, path', rfl, hrest⟩
    · exact List.mem_cons_self
    · obtain rfl := Except.ok.inj (hchildren.symm.trans hbelow)
      exact List.mem_cons_of_mem _ (List.mem_append_left _ (ih hdown))
    · exact List.mem_cons_of_mem _ (List.mem_append_right _ (ih' hrest))

theorem Holds.path_unique {f : Forest UInt8 α} {offs : List Nat} (h : Holds s cs f offs)
    (hnodup : offs.Nodup) (hpath : Descends s cs path off) (hpath' : Descends s cs path' off) :
    path = path' := by
  induction h generalizing path path' with
  | nil => cases hpath <;> simp at *
  | @cons b first below rest payload children siblings offs offs' _ hchildren _ hsub hrest ih ih' =>
    obtain ⟨hfresh, htail⟩ := List.nodup_cons.1 hnodup
    obtain ⟨hoffs, hoffs', hdisjoint⟩ := List.nodup_append.1 htail
    have hin : ∀ {p : List Nat} {below' : List (UInt8 × Nat)}, s.children first = .ok below' →
        Descends s below' p off → Descends s below p off := fun hbelow hdown => by
      rwa [Except.ok.inj (hchildren.symm.trans hbelow)]
    rcases hpath.cons_inv with ⟨_, p, rfl, ⟨rfl, rfl⟩ | ⟨hbelow, hdown⟩⟩ | ⟨i, p, rfl, hdown⟩ <;>
      rcases hpath'.cons_inv with
        ⟨_, p', rfl, ⟨rfl, hoff⟩ | ⟨hbelow', hdown'⟩⟩ | ⟨i', p', rfl, hdown'⟩
    · rfl
    · exact absurd (List.mem_append_left _ (hsub.mem_of_descends (hin hbelow' hdown'))) hfresh
    · exact absurd (List.mem_append_right _ (hrest.mem_of_descends hdown')) hfresh
    · rw [hoff] at hdown
      exact absurd (List.mem_append_left _ (hsub.mem_of_descends (by
        rw [hoff] at hin
        exact hin hbelow hdown))) hfresh
    · rw [ih hoffs (hin hbelow hdown) (hin hbelow' hdown')]
    · exact absurd rfl (hdisjoint _ (hsub.mem_of_descends (hin hbelow hdown)) _
        (hrest.mem_of_descends hdown'))
    · rw [hoff] at hdown
      exact absurd (List.mem_append_right _ (hrest.mem_of_descends hdown)) hfresh
    · exact absurd rfl (hdisjoint _ (hsub.mem_of_descends (hin hbelow' hdown')) _
        (hrest.mem_of_descends hdown))
    · obtain ⟨rfl, rfl⟩ := List.cons.inj (ih' hoffs' hdown hdown')
      rfl

theorem path_unique_of_dfs {root : Nat} {r : List (Bytes × α)}
    (h : s.dfsCollectInOrder root = .ok r) (hpath : LeadsTo s root path off)
    (hpath' : LeadsTo s root path' off) : path = path' := by
  obtain ⟨node, offs, ⟨-, below, hchildren, -, hholds⟩, hnodup, -⟩ := dfsCollectInOrder_iff.1 h
  obtain ⟨hfresh, hoffs⟩ := List.nodup_cons.1 hnodup
  have hin : ∀ {p : List Nat} {off : Nat} {below' : List (UInt8 × Nat)},
      s.children root = .ok below' → Descends s below' p off → Descends s below p off :=
    fun hbelow hdown => by rwa [Except.ok.inj (hchildren.symm.trans hbelow)]
  cases hpath with
  | refl =>
    cases hpath' with
    | refl => rfl
    | down hbelow hdown => exact absurd (hholds.mem_of_descends (hin hbelow hdown)) hfresh
  | down hbelow hdown =>
    cases hpath' with
    | refl => exact absurd (hholds.mem_of_descends (hin hbelow hdown)) hfresh
    | down hbelow' hdown' => exact hholds.path_unique hoffs (hin hbelow hdown) (hin hbelow' hdown')

end TrieStore

/-! ### Ascending keys -/

/-- A sparse node repeats no byte, and a dense one does not run past the last. -/
def DistinctTransitions (trieData : Bytes) (nodeOffset : Nat) : Prop :=
  ∀ node, parseBtiNodeForTraversal trieData nodeOffset = .ok node →
    match node with
    | .payloadOnly => True
    | .single _ => True
    | .sparse transitions => (transitions.map (·.1)).Nodup
    | .dense startByte children => startByte.toNat + children.length ≤ 256

theorem sparse_strict {transitions : List (UInt8 × Nat)} (h : (transitions.map (·.1)).Nodup) :
    ((orderedChildren (.sparse transitions)).map (·.1)).Pairwise (· < ·) := by
  have hsorted := Rank.sortBy_sorted (fun t : UInt8 × Nat => t.1) transitions
  have hnodup : ((orderedChildren (.sparse transitions)).map (·.1)).Nodup :=
    ((List.perm_insertionSort _ _).map _).nodup_iff.2 h
  refine (List.Pairwise.and (List.pairwise_map.2 hsorted) hnodup).imp fun hab => ?_
  exact lt_of_le_of_ne hab.1 hab.2

theorem dense_strict {startByte : UInt8} {children : List (Option Nat)}
    (h : startByte.toNat + children.length ≤ 256) :
    ((orderedChildren (.dense startByte children)).map (·.1)).Pairwise (· < ·) := by
  have hbyte : ∀ i < children.length, (startByte + UInt8.ofNat i).toNat = startByte.toNat + i := by
    intro i hi
    rw [UInt8.toNat_add, UInt8.toNat_ofNat', Nat.add_mod_mod]
    exact Nat.mod_eq_of_lt (by omega)
  rw [orderedChildren, List.pairwise_map, List.pairwise_filterMap]
  refine List.pairwise_lt_range.imp_of_mem fun {i j} hi hj hij a ha b hb => ?_
  obtain ⟨child, -, rfl⟩ := Option.map_eq_some_iff.1 ha
  obtain ⟨child', -, rfl⟩ := Option.map_eq_some_iff.1 hb
  rw [UInt8.lt_iff_toNat_lt, hbyte i (List.mem_range.1 hi), hbyte j (List.mem_range.1 hj)]
  omega

section

variable {α : Type} {trieData : Bytes} {decodePayload : Nat → BtiNodeData → BtiResult (Option α)}
  {rootOffset : Nat}

theorem strictAt_of_distinct (h : DistinctTransitions trieData off) :
    StrictAt (visitStore trieData decodePayload) off := by
  intro below hbelow
  obtain ⟨node, hnode, rfl⟩ := map_eq_ok.1 (hbelow : trieChildren trieData off = .ok below)
  have hdistinct := h node hnode
  cases node with
  | payloadOnly => exact .nil
  | single transition => exact List.pairwise_singleton _ _
  | sparse transitions => exact sparse_strict hdistinct
  | dense startByte children => exact dense_strict hdistinct

theorem dfsVisitInOrder_sorted {visits : List (Bytes × α)}
    (h : dfsVisitInOrder trieData decodePayload rootOffset = .ok visits)
    (hroot : DistinctTransitions trieData rootOffset)
    (hbelow : ∀ off, Below (visitStore trieData decodePayload) rootOffset off →
      DistinctTransitions trieData off) : visits.Pairwise fun a b => a.1 < b.1 := by
  obtain ⟨node, offs, ⟨-, below, hchildren, -, hholds⟩, -, rfl⟩ := dfsCollectInOrder_iff.1 h
  have hstep : ∀ off cs, Below (visitStore trieData decodePayload) rootOffset off →
      (visitStore trieData decodePayload).children off = .ok cs →
      ∀ c ∈ cs, Below (visitStore trieData decodePayload) rootOffset c.2 :=
    fun _ _ hoff hcs _ hc => .grandchild hoff hcs hc
  exact (hholds.ascending (strictAt_of_distinct hroot below hchildren)
    (fun _ hc => .child hchildren hc) hstep
    fun off hoff => strictAt_of_distinct (hbelow off hoff)).nodeEntries_sorted

/-- What the traversal does on any bytes. -/
structure TotalTraversal (trieData : Bytes)
    (decodePayload : Nat → BtiNodeData → BtiResult (Option α)) (rootOffset : Nat) : Prop where
  ends : dfsRun trieData decodePayload (258 * trieData.length + 2) (.start rootOffset) =
    result (dfsVisitInOrder trieData decodePayload rootOffset)
  entersOnce : ∀ st, DfsReached trieData decodePayload rootOffset st →
    st.visited.Nodup ∧ (∀ off ∈ st.visited, off < trieData.length) ∧
      st.nodesVisited = st.visited.length ∧ st.visited.length ≤ trieData.length
  ascends : ∀ visits, dfsVisitInOrder trieData decodePayload rootOffset = .ok visits →
    (∀ off, off = rootOffset ∨ Below (visitStore trieData decodePayload) rootOffset off →
      DistinctTransitions trieData off) → visits.Pairwise fun a b => a.1 < b.1
  rejectsSharing : ∀ path path' off, path ≠ path' →
    LeadsTo (visitStore trieData decodePayload) rootOffset path off →
    LeadsTo (visitStore trieData decodePayload) rootOffset path' off →
    ∃ e, dfsVisitInOrder trieData decodePayload rootOffset = .error e
  rejectsCycles : ∀ path cycle off, cycle ≠ [] →
    LeadsTo (visitStore trieData decodePayload) rootOffset path off →
    LeadsTo (visitStore trieData decodePayload) off cycle off →
    ∃ e, dfsVisitInOrder trieData decodePayload rootOffset = .error e

theorem rejects_of_paths (hne : path ≠ path')
    (hpath : LeadsTo (visitStore trieData decodePayload) rootOffset path off)
    (hpath' : LeadsTo (visitStore trieData decodePayload) rootOffset path' off) :
    ∃ e, dfsVisitInOrder trieData decodePayload rootOffset = .error e := by
  cases hvisits : dfsVisitInOrder trieData decodePayload rootOffset with
  | error e => exact ⟨e, rfl⟩
  | ok visits => exact absurd (path_unique_of_dfs hvisits hpath hpath') hne

end

/-- On any bytes and from any offset the traversal ends without a panic, enters no node twice, and
    rejects whatever is no tree; what it accepts it visits in order. Reading a partition's payload
    does not panic either. -/
theorem dfsVisitInOrder_total {α : Type} (trieData : Bytes)
    (decodePayload : Nat → BtiNodeData → BtiResult (Option α)) (rootOffset : Nat) :
    TotalTraversal trieData decodePayload rootOffset ∧
      ∀ nodeOffset node, ∃ r, readNodePayloadReading trieData nodeOffset node = result r := by
  refine ⟨⟨?_, ?_, ?_, ?_, ?_⟩, fun nodeOffset node => ⟨_, readNodePayloadReading_eq _ _ _⟩⟩
  · exact dfsRun_eq (by simp [DfsState.work, DfsState.start])
  · intro st hst
    have hinv := DfsInvariant.reached hst
    exact ⟨hinv.nodup, hinv.lt, hinv.count, length_le_of_nodup hinv.nodup hinv.lt⟩
  · intro visits hvisits hdistinct
    exact dfsVisitInOrder_sorted hvisits (hdistinct _ (.inl rfl)) fun off hoff => hdistinct off (.inr hoff)
  · intro path path' off hne hpath hpath'
    exact rejects_of_paths hne hpath hpath'
  · intro path cycle off hcycle hpath hloop
    refine rejects_of_paths (fun h => hcycle ?_) hpath (hpath.trans hloop)
    exact List.append_right_eq_self.1 h.symm

end Cqlite
