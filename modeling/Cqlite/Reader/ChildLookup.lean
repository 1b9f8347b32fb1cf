import Mathlib.Tactic.IntervalCases
import Cqlite.Reader.PartitionTrie

/-! The lookup's own decoding of a node against the full one (`bti/parser/slice_walk.rs`,
    `bti/node.rs`: `find_child`).

    Both check the same lengths, and read the same slot. -/

namespace Cqlite

open VInt

/-! ### The child in a parsed node -/

/-- `slice::binary_search_by_key`. -/
def binarySearchByKey {α β : Type} [LinearOrder β] (l : List α) (x : β) (key : α → β) : Option Nat :=
  if l.length = 0 then none
  else
    let base := BinarySearch.searchBase (fun i => l[i]?.any (key · ≤ x)) 0 l.length
    if l[base]?.map key = some x then some base else none

def BtiNodeData.findChild (node : BtiNodeData) (byte : UInt8) : Option Nat :=
  match node with
  | .payloadOnly => none
  | .single transition => if transition.1 = byte then some transition.2 else none
  | .sparse transitions =>
    (binarySearchByKey transitions byte (·.1)).bind fun idx => transitions[idx]?.map (·.2)
  | .dense startByte children =>
    if startByte ≤ byte ∧ byte.toNat < startByte.toNat + children.length then
      (children[byte.toNat - startByte.toNat]?).join
    else none

theorem binarySearchByKey_eq {α β : Type} [LinearOrder β] (l : List α) (x : β) (key : α → β) :
    binarySearchByKey l x key = BinarySearch.binarySearch (l.map key) x := by
  have hany : (fun i : Nat => ((l.map key)[i]?).any (· ≤ x)) =
      fun i : Nat => (l[i]?).any (key · ≤ x) := by
    funext i
    rw [List.getElem?_map, Option.any_map]
  rw [binarySearchByKey, BinarySearch.binarySearch, List.length_map, hany]
  simp only [List.getElem?_map]

/-! ### Layout by layout -/

/-- The width of the deltas of a layout. -/
def widthForOrdinal (ordinal : Nat) : PtrWidth :=
  if ordinal = 6 ∨ ordinal = 10 then .packed12 else .fixed (pointerBytesForOrdinal ordinal)

section

variable (ordinal : Nat) (data : Bytes) (off : Nat) (b : UInt8) (what : String)

theorem area_widthForOrdinal (count : Nat) :
    (widthForOrdinal ordinal).area count = pointerArea ordinal count := by
  unfold widthForOrdinal pointerArea
  split <;> rfl

theorem delta_widthForOrdinal (start i : Nat) :
    (widthForOrdinal ordinal).delta data start i = deltaAt ordinal data start i := by
  unfold widthForOrdinal deltaAt
  split <;> rfl

theorem requireLen_bind {α : Type} (needed : Nat) (next : BtiResult α) :
    (requireLen data needed what >>= fun _ => next).toOption =
      if data.length < needed then none else next.toOption := by
  unfold requireLen
  split <;> rfl

theorem single_found (t : UInt8) (child : Nat) :
    Except.toOption (if t ≠ b then (return none) else (return some child) : BtiResult (Option Nat)) =
      some (BtiNodeData.findChild (.single (t, child)) b) := by
  by_cases hb : t = b
  · rw [if_neg (not_not.2 hb), BtiNodeData.findChild, if_pos hb]
    rfl
  · rw [if_pos hb, BtiNodeData.findChild, if_neg hb]
    rfl

theorem singleChild_agrees (h1 : ordinal ≠ 1) (h3 : ordinal ≠ 3) (h6 : ordinal ≠ 6)
    (h10 : ordinal ≠ 10) :
    (SliceWalk.singleChild data off (pointerBytesForOrdinal ordinal) b what).toOption =
      (parseSingleNode data off ordinal (byteAt data 0)).toOption.map (·.findChild b) := by
  have hdelta : deltaAt ordinal data 2 0 =
      fromBe ((data.drop 2).take (pointerBytesForOrdinal ordinal)) := by
    simp [deltaAt, h6, h10]
  rw [SliceWalk.singleChild, requireLen_bind, parseSingleNode, if_neg h1, if_neg h3, hdelta]
  split
  · rfl
  · exact single_found b _ _

theorem sparse_bytes {count : Nat} (hlen : 2 + count ≤ data.length) (f : Nat → Nat) :
    ((List.range count).map fun i => (byteAt data (2 + i), f i)).map (·.1) =
      (data.drop 2).take count := by
  refine List.ext_getElem? fun i => ?_
  rw [List.map_map, List.getElem?_map, List.getElem?_take, List.getElem?_drop]
  by_cases hi : i < count
  · have hlt : 2 + i < data.length := by omega
    simp [hi, byteAt, List.getElem?_eq_getElem hlt, List.getD_eq_getElem?_getD]
  · simp [hi]

/-- Sparse nodes. -/
theorem sparseChild_agrees :
    (SliceWalk.sparseChild data off (widthForOrdinal ordinal) b what).toOption =
      (parseSparseNode data off ordinal).toOption.map (·.findChild b) := by
  rw [SliceWalk.sparseChild, requireLen_bind, parseSparseNode]
  split
  · rfl
  · simp only
    split
    · rfl
    · rw [requireLen_bind, area_widthForOrdinal]
      split
      · rfl
      · rename_i hlen
        have hbytes := sparse_bytes data (by omega : 2 + (byteAt data 1).toNat ≤ data.length)
          fun i => off - deltaAt ordinal data (2 + (byteAt data 1).toNat) i
        change _ = some (BtiNodeData.findChild (.sparse _) b)
        rw [BtiNodeData.findChild, binarySearchByKey_eq, hbytes]
        cases hfound : BinarySearch.binarySearch ((data.drop 2).take (byteAt data 1).toNat) b with
        | none => rfl
        | some idx =>
          have hidx := BinarySearch.lt_of_binarySearch hfound
          have hlt : idx < (byteAt data 1).toNat := by
            rw [List.length_take] at hidx
            omega
          simp [hlt, delta_widthForOrdinal, Except.toOption, pure, Except.pure]

/-- Dense nodes. -/
theorem denseChild_agrees :
    (SliceWalk.denseChild data off (widthForOrdinal ordinal) b what).toOption =
      (parseDenseNode data off ordinal).toOption.map (·.findChild b) := by
  rw [SliceWalk.denseChild, requireLen_bind, parseDenseNode]
  split
  · rfl
  · simp only
    rw [requireLen_bind, area_widthForOrdinal]
    split
    · rfl
    · change _ = some (BtiNodeData.findChild (.dense _ _) b)
      rw [BtiNodeData.findChild, List.length_map, List.length_range]
      by_cases hlow : b < byteAt data 1
      · rw [if_pos hlow, if_neg fun h => absurd h.1 (not_le.2 hlow)]
        rfl
      · have hle : (byteAt data 1).toNat ≤ b.toNat := UInt8.le_iff_toNat_le.1 (not_lt.1 hlow)
        rw [if_neg hlow]
        by_cases hhigh : (byteAt data 2).toNat + 1 ≤ b.toNat - (byteAt data 1).toNat
        · rw [if_pos hhigh, if_neg fun h => by omega]
          rfl
        · have hin : byteAt data 1 ≤ b ∧
              b.toNat < (byteAt data 1).toNat + ((byteAt data 2).toNat + 1) :=
            ⟨not_lt.1 hlow, by omega⟩
          have hidx : b.toNat - (byteAt data 1).toNat < (byteAt data 2).toNat + 1 := by omega
          rw [if_neg hhigh, if_pos hin, List.getElem?_map, List.getElem?_range hidx,
            delta_widthForOrdinal]
          simp only [Option.map_some, Option.join_some, denseChild]
          split <;> rfl

theorem singleNoPayload4_agrees (header : UInt8) :
    (requireLen data 2 "SingleNoPayload4" >>= fun _ =>
      if byteAt data 1 ≠ b then (return none) else
        (return some (off - payloadFlags header) : BtiResult (Option Nat))).toOption =
      (parseSingleNode data off 1 header).toOption.map (·.findChild b) := by
  rw [requireLen_bind, parseSingleNode, if_pos rfl]
  split
  · rfl
  · exact single_found b _ _

theorem singleNoPayload12_agrees (header : UInt8) :
    (requireLen data 3 "SingleNoPayload12" >>= fun _ =>
      if byteAt data 2 ≠ b then (return none) else
        (return some (off - (payloadFlags header * 256 + (byteAt data 1).toNat)) :
          BtiResult (Option Nat))).toOption =
      (parseSingleNode data off 3 header).toOption.map (·.findChild b) := by
  rw [requireLen_bind, parseSingleNode, if_neg (by decide : ¬ 3 = 1), if_pos rfl]
  split
  · rfl
  · exact single_found b _ _

end

/-! ### Any node -/

/-- Looking up a child is parsing the node and searching it. -/
theorem findChildOffset_toOption (trieData : Bytes) (nodeOffset : Nat) (b : UInt8)
    (hinner : nodeOffset < trieData.length → nodeOrdinal (byteAt trieData nodeOffset) ≠ 0) :
    (findChildOffset trieData nodeOffset b).toOption =
      (parseBtiNode (trieData.drop nodeOffset) nodeOffset).toOption.map (·.findChild b) := by
  rw [findChildOffset]
  split
  · rename_i hout
    rw [List.drop_eq_nil_of_le hout]
    rfl
  · rename_i hin
    have hdata := drop_eq_byteAt (Nat.not_le.1 hin)
    have hne := hinner (Nat.not_le.1 hin)
    generalize byteAt trieData nodeOffset = header at hdata hne
    generalize trieData.drop (nodeOffset + 1) = rest at hdata
    have hlt : nodeOrdinal header < 16 := by
      have := header.toNat_lt
      unfold nodeOrdinal
      omega
    have hzero : byteAt (header :: rest) 0 = header := rfl
    simp only [hdata, hzero, parseBtiNode]
    generalize header :: rest = data at hzero
    have hpos := Nat.pos_of_ne_zero hne
    -- one case per layout
    generalize nodeOrdinal header = ordinal at hpos hlt
    interval_cases ordinal
    · exact singleNoPayload4_agrees data nodeOffset b header
    · exact hzero ▸ singleChild_agrees 2 data nodeOffset b "Single8"
        (by decide) (by decide) (by decide) (by decide)
    · exact singleNoPayload12_agrees data nodeOffset b header
    · exact hzero ▸ singleChild_agrees 4 data nodeOffset b "Single16"
        (by decide) (by decide) (by decide) (by decide)
    · exact sparseChild_agrees 5 data nodeOffset b "Sparse8"
    · exact sparseChild_agrees 6 data nodeOffset b "Sparse12"
    · exact sparseChild_agrees 7 data nodeOffset b "Sparse16"
    · exact sparseChild_agrees 8 data nodeOffset b "Sparse24"
    · exact sparseChild_agrees 9 data nodeOffset b "Sparse40"
    · exact denseChild_agrees 10 data nodeOffset b "Dense12"
    · exact denseChild_agrees 11 data nodeOffset b "Dense16"
    · exact denseChild_agrees 12 data nodeOffset b "Dense24"
    · exact denseChild_agrees 13 data nodeOffset b "Dense32"
    · exact denseChild_agrees 14 data nodeOffset b "Dense40"
    · exact denseChild_agrees 15 data nodeOffset b "LongDense"

/-- Whether the node is a leaf; the lookup does not look at what it carries. -/
def isPayloadOnly (trieData : Bytes) (nodeOffset : Nat) : Bool :=
  nodeOffset < trieData.length ∧ nodeOrdinal (byteAt trieData nodeOffset) = 0

theorem findChild_of_payloadOnly {trieData : Bytes} {nodeOffset : Nat} {node : BtiNodeData}
    (h : isPayloadOnly trieData nodeOffset = true)
    (hparse : parseBtiNode (trieData.drop nodeOffset) nodeOffset = .ok node) (b : UInt8) :
    node.findChild b = none := by
  obtain ⟨hin, hordinal⟩ := of_decide_eq_true h
  have hdata := drop_eq_byteAt hin
  rw [hdata, parseBtiNode, hordinal] at hparse
  change parsePayloadOnlyNode _ _ = _ at hparse
  rw [parsePayloadOnlyNode] at hparse
  split_ifs at hparse
  cases hparse
  rfl

theorem findChildOffset_of_payloadOnly {trieData : Bytes} {nodeOffset : Nat}
    (h : isPayloadOnly trieData nodeOffset = true) (b : UInt8) :
    findChildOffset trieData nodeOffset b = .ok none := by
  obtain ⟨hin, hordinal⟩ := of_decide_eq_true h
  have hdata := drop_eq_byteAt hin
  have hzero : byteAt (trieData.drop nodeOffset) 0 = byteAt trieData nodeOffset := by
    rw [hdata]
    rfl
  rw [findChildOffset, if_neg (Nat.not_le.2 hin)]
  simp only [hzero, hordinal]

/-- The lookup follows the child that full decoding gives, and fails where it fails. -/
theorem findChildOffset_agrees (trieData : Bytes) (nodeOffset : Nat) (searchByte : UInt8) :
    if isPayloadOnly trieData nodeOffset then
      findChildOffset trieData nodeOffset searchByte = .ok none ∧
        ∀ node, parseBtiNode (trieData.drop nodeOffset) nodeOffset = .ok node →
          node.findChild searchByte = none
    else
      (∀ child, findChildOffset trieData nodeOffset searchByte = .ok child ↔
        ∃ node, parseBtiNode (trieData.drop nodeOffset) nodeOffset = .ok node ∧
          node.findChild searchByte = child) ∧
      ((∃ e, findChildOffset trieData nodeOffset searchByte = .error e) ↔
        ∃ e, parseBtiNode (trieData.drop nodeOffset) nodeOffset = .error e) := by
  split
  · rename_i hleaf
    exact ⟨findChildOffset_of_payloadOnly hleaf searchByte,
      fun node hparse => findChild_of_payloadOnly hleaf hparse searchByte⟩
  · rename_i hleaf
    have hagree := findChildOffset_toOption trieData nodeOffset searchByte fun hin hordinal =>
      hleaf (decide_eq_true ⟨hin, hordinal⟩)
    cases hfind : findChildOffset trieData nodeOffset searchByte <;>
      cases hparse : parseBtiNode (trieData.drop nodeOffset) nodeOffset <;>
      simp_all [Except.toOption]

end Cqlite
