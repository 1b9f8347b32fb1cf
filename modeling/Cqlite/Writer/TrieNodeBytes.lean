import Cqlite.Reader.TrieNode

/-! Writing trie nodes (`writer/partitions_writer.rs`: `write_sparse`, `write_dense`, `write_leaf`,
    `write_row_leaf`), and what the reader sees in them.

    A node is appended to the buffer, behind its children; a writer returns the node's offset and the
    buffer. -/

namespace Cqlite

open VInt

/-! ### Deltas -/

/-- The layout and the bytes per delta. -/
def sparseOrdinalForDelta (maxDelta : Nat) : Except Error (Nat × Nat) :=
  if maxDelta ≤ 0xFF then .ok (5, 1)
  else if maxDelta ≤ 0xFFFF then .ok (7, 2)
  else if maxDelta ≤ 0xFFFFFF then .ok (8, 3)
  else if maxDelta ≤ 0xFFFFFFFFFF then .ok (9, 5)
  else .error (.invalidInput "BTI Partitions.db trie too large: backward delta exceeds 40 bits")

def denseOrdinalForDelta (maxDelta : Nat) : Except Error (Nat × Nat) :=
  if maxDelta ≤ 0xFFFF then .ok (11, 2)
  else if maxDelta ≤ 0xFFFFFF then .ok (12, 3)
  else if maxDelta ≤ 0xFFFFFFFF then .ok (13, 4)
  else if maxDelta ≤ 0xFFFFFFFFFF then .ok (14, 5)
  else .ok (15, 8)

/-- `write_be_unsigned`. -/
def beUnsigned (value bytes : Nat) : Bytes := beBytes bytes value

/-- The deltas from a node back to its children. -/
def deltaBytes (nodeOffset ptrBytes : Nat) (childOffsets : List (UInt8 × Nat)) : Bytes :=
  childOffsets.flatMap fun c => beUnsigned (nodeOffset - c.2) ptrBytes

def maxDelta (nodeOffset : Nat) (childOffsets : List (UInt8 × Nat)) : Nat :=
  (childOffsets.map fun c => nodeOffset - c.2).foldr max 0

/-! ### Inner nodes -/

def sparseNode (ordinal nodeOffset ptrBytes : Nat) (childOffsets : List (UInt8 × Nat)) : Bytes :=
  UInt8.ofNat (ordinal * 16) :: UInt8.ofNat childOffsets.length ::
    (childOffsets.map (·.1) ++ deltaBytes nodeOffset ptrBytes childOffsets)

def denseNode (ordinal nodeOffset ptrBytes : Nat) (childOffsets : List (UInt8 × Nat)) : Bytes :=
  UInt8.ofNat (ordinal * 16) :: (childOffsets.map (·.1)).headD 0 ::
    UInt8.ofNat (childOffsets.length - 1) :: deltaBytes nodeOffset ptrBytes childOffsets

def writeSparse (childOffsets : List (UInt8 × Nat)) (buf : Bytes) : Except Error (Nat × Bytes) :=
  let count := childOffsets.length
  if count = 0 then .error (.invalidInput "internal BTI trie node has no children")
  else if 255 < count then
    .error (.invalidInput "BTI Sparse node fan-out exceeds 255; Dense node required")
  else do
    let nodeOffset := buf.length
    let (ordinal, ptrBytes) ← sparseOrdinalForDelta (maxDelta nodeOffset childOffsets)
    return (nodeOffset, buf ++ sparseNode ordinal nodeOffset ptrBytes childOffsets)

def writeDense (childOffsets : List (UInt8 × Nat)) (buf : Bytes) : Except Error (Nat × Bytes) :=
  if childOffsets.length ≠ 256 then
    .error (.invalidInput "write_dense requires a full 256-child node")
  else do
    let nodeOffset := buf.length
    let (ordinal, ptrBytes) ← denseOrdinalForDelta (maxDelta nodeOffset childOffsets)
    return (nodeOffset, buf ++ denseNode ordinal nodeOffset ptrBytes childOffsets)

/-- A full node is dense, any other sparse. -/
def emitInternal (childOffsets : List (UInt8 × Nat)) (buf : Bytes) : Except Error (Nat × Bytes) :=
  if childOffsets.length = 256 then writeDense childOffsets buf else writeSparse childOffsets buf

/-! ### Leaves -/

/-- The bytes of a signed value, with its sign bit: `SizedInts.nonZeroSize` without its count of
    leading zeros (`SizedInts.nonZeroSize_eq`). -/
def sizedIntsNonZeroSize (value : Int) : Nat :=
  let absValue := (if value < 0 then -value - 1 else value).toNat
  if absValue = 0 then 1 else max 1 (min 8 ((Nat.log2 absValue + 1 + 1 + 7) / 8))

/-- What `SizedInts.writeSizedIntBe` appends (`SizedInts.writeSizedIntBe_eq`). -/
def sizedIntBe (value : Int) (bytes : Nat) : Bytes := intBytes bytes value

inductive PartitionPayload
  | dataOffset (offset : Nat)
  | rowsOffset (offset : Nat)
  deriving DecidableEq, Repr

/-- The signed position: the complement of an offset into the data file, or an offset into the rows
    file. -/
def PartitionPayload.position : PartitionPayload → Except Error Int
  | .dataOffset offset =>
    if i64Max < offset then
      .error (.invalidInput "Data.db offset too large to encode as a signed BTI position")
    else .ok (-(offset : Int) - 1)
  | .rowsOffset offset =>
    if i64Max < offset then
      .error (.invalidInput "Rows.db offset too large to encode as a signed BTI position")
    else .ok offset

def writeLeaf (hashByte : UInt8) (payload : PartitionPayload) (buf : Bytes) :
    Except Error (Nat × Bytes) := do
  let position ← payload.position
  let positionBytes := sizedIntsNonZeroSize position
  let payloadBits := flagHasHashByte + (positionBytes - 1)
  return (buf.length,
    buf ++ UInt8.ofNat (payloadBits % 16) :: hashByte :: sizedIntBe position positionBytes)

/-- Local deletion time and marked-for-delete-at. -/
def daDeletionTimeBytes : Option (Int × Int) → Bytes
  | none => [0x80]
  | some (localDeletionTime, markedForDeleteAt) =>
    intBytes 8 markedForDeleteAt ++ intBytes 4 localDeletionTime

def writeRowLeaf (entry : BtiRowIndexEntry) (buf : Bytes) : Except Error (Nat × Bytes) :=
  if i64Max < entry.dataOffset then
    .error (.invalidInput "Rows.db block offset too large to encode as SizedInts")
  else
    let offsetBytes := sizedIntsNonZeroSize entry.dataOffset
    if offsetBytes = 0 ∨ 7 < offsetBytes then
      .error (.invalidInput "Rows.db block offset needs too many SizedInts bytes; expected 1..=7")
    else
      let payloadBits := if entry.openMarker.isSome then offsetBytes ||| flagOpenMarker else offsetBytes
      let marker := if entry.openMarker.isSome then daDeletionTimeBytes entry.openMarker else []
      .ok (buf.length,
        buf ++ UInt8.ofNat (payloadBits % 16) :: (sizedIntBe entry.dataOffset offsetBytes ++ marker))

/-! ### Reading the deltas -/

@[simp] theorem byteAt_append_length (front rest : Bytes) (i : Nat) :
    byteAt (front ++ rest) (front.length + i) = byteAt rest i := by
  simp [byteAt, List.getD_eq_getElem?_getD, List.getElem?_append_right]

variable {i nodeOffset ptrBytes ordinal : Nat} {childOffsets cs : List (UInt8 × Nat)} {buf : Bytes}

theorem byteAt_append_left {front : Bytes} (rest : Bytes) (h : i < front.length) :
    byteAt (front ++ rest) i = byteAt front i := by
  simp [byteAt, List.getD_eq_getElem?_getD, List.getElem?_append_left h]

theorem length_deltaBytes (nodeOffset ptrBytes : Nat) (childOffsets : List (UInt8 × Nat)) :
    (deltaBytes nodeOffset ptrBytes childOffsets).length = childOffsets.length * ptrBytes := by
  induction childOffsets with
  | nil => simp [deltaBytes]
  | cons c cs ih =>
    rw [deltaBytes, List.flatMap_cons, List.length_append, beUnsigned, length_beBytes,
      List.length_cons, Nat.succ_mul, Nat.add_comm]
    exact congrArg (· + ptrBytes) ih

theorem drop_deltaBytes (post : Bytes) (hi : i ≤ childOffsets.length) :
    (deltaBytes nodeOffset ptrBytes childOffsets ++ post).drop (i * ptrBytes) =
      deltaBytes nodeOffset ptrBytes (childOffsets.drop i) ++ post := by
  induction i generalizing childOffsets with
  | zero => simp
  | succ i ih =>
    cases childOffsets with
    | nil => simp at hi
    | cons c cs =>
      have hfront : deltaBytes nodeOffset ptrBytes (c :: cs) ++ post =
          beUnsigned (nodeOffset - c.2) ptrBytes ++ (deltaBytes nodeOffset ptrBytes cs ++ post) := by
        rw [deltaBytes, List.flatMap_cons, List.append_assoc]
        rfl
      rw [hfront, Nat.succ_mul, Nat.add_comm, ← List.drop_drop,
        List.drop_left' (show (beUnsigned _ _).length = ptrBytes from length_beBytes _ _),
        ih (by simpa using hi), List.drop_succ_cons]

theorem fromBe_deltaBytes (front post : Bytes)
    (hmax : ∀ c ∈ childOffsets, nodeOffset - c.2 < 256 ^ ptrBytes) (hi : i < childOffsets.length) :
    fromBe (((front ++ (deltaBytes nodeOffset ptrBytes childOffsets ++ post)).drop
        (front.length + i * ptrBytes)).take ptrBytes) = nodeOffset - childOffsets[i].2 := by
  rw [← List.drop_drop, List.drop_left, drop_deltaBytes post hi.le, List.drop_eq_getElem_cons hi,
    deltaBytes, List.flatMap_cons, List.append_assoc, beUnsigned, List.take_left' (length_beBytes _ _),
    fromBe_beBytes, Nat.mod_eq_of_lt (hmax _ (List.getElem_mem hi))]

/-- A sparse node: the number of its children, their bytes, then their distances. -/
theorem sparseNode_append (ordinal nodeOffset ptrBytes : Nat) (cs : List (UInt8 × Nat))
    (post : Bytes) : sparseNode ordinal nodeOffset ptrBytes cs ++ post =
      (UInt8.ofNat (ordinal * 16) :: UInt8.ofNat cs.length :: cs.map (·.1)) ++
        (deltaBytes nodeOffset ptrBytes cs ++ post) := by
  simp [sparseNode]

theorem fromBe_sparseNode (post : Bytes)
    (hmax : ∀ c ∈ childOffsets, nodeOffset - c.2 < 256 ^ ptrBytes) (hi : i < childOffsets.length) :
    fromBe (((sparseNode ordinal nodeOffset ptrBytes childOffsets ++ post).drop
        (2 + childOffsets.length + i * ptrBytes)).take ptrBytes) =
      nodeOffset - childOffsets[i].2 := by
  have hdelta := fromBe_deltaBytes (UInt8.ofNat (ordinal * 16) ::
    UInt8.ofNat childOffsets.length :: childOffsets.map (·.1)) post hmax hi
  simp only [List.length_cons, List.length_map] at hdelta
  rwa [sparseNode_append, Nat.add_comm 2]

theorem fromBe_denseNode (post : Bytes)
    (hmax : ∀ c ∈ childOffsets, nodeOffset - c.2 < 256 ^ ptrBytes) (hi : i < childOffsets.length) :
    fromBe (((denseNode ordinal nodeOffset ptrBytes childOffsets ++ post).drop
        (3 + i * ptrBytes)).take ptrBytes) = nodeOffset - childOffsets[i].2 :=
  fromBe_deltaBytes [UInt8.ofNat (ordinal * 16), _, _] post hmax hi

theorem length_sparseNode (ordinal nodeOffset ptrBytes : Nat) (cs : List (UInt8 × Nat)) :
    (sparseNode ordinal nodeOffset ptrBytes cs).length = 2 + cs.length + cs.length * ptrBytes := by
  simp [sparseNode, length_deltaBytes]
  omega

theorem length_denseNode (ordinal nodeOffset ptrBytes : Nat) (cs : List (UInt8 × Nat)) :
    (denseNode ordinal nodeOffset ptrBytes cs).length = 3 + cs.length * ptrBytes := by
  simp [denseNode, length_deltaBytes]
  omega

theorem le_maxDelta {c : UInt8 × Nat} (h : c ∈ childOffsets) :
    nodeOffset - c.2 ≤ maxDelta nodeOffset childOffsets := by
  induction childOffsets with
  | nil => cases h
  | cons d cs ih =>
    rw [maxDelta, List.map_cons, List.foldr_cons]
    rcases List.mem_cons.1 h with rfl | h
    · exact Nat.le_max_left _ _
    · exact (ih h).trans (Nat.le_max_right _ _)

theorem sparseOrdinal_spec {delta : Nat} (h : sparseOrdinalForDelta delta = .ok (ordinal, ptrBytes)) :
    5 ≤ ordinal ∧ ordinal ≤ 9 ∧ ¬ (ordinal = 6 ∨ ordinal = 10) ∧
      ptrBytes = pointerBytesForOrdinal ordinal ∧ delta < 256 ^ pointerBytesForOrdinal ordinal := by
  rw [sparseOrdinalForDelta] at h
  split_ifs at h
  all_goals
    obtain ⟨rfl, rfl⟩ := Prod.ext_iff.1 (Except.ok.inj h)
    refine ⟨by decide, by decide, by decide, rfl, ?_⟩
    simp only [pointerBytesForOrdinal]
    omega

theorem denseOrdinal_spec {delta : Nat} (hdelta : delta < 2 ^ 64)
    (h : denseOrdinalForDelta delta = .ok (ordinal, ptrBytes)) :
    11 ≤ ordinal ∧ ordinal ≤ 15 ∧ ¬ (ordinal = 6 ∨ ordinal = 10) ∧
      ptrBytes = pointerBytesForOrdinal ordinal ∧ delta < 256 ^ pointerBytesForOrdinal ordinal := by
  rw [denseOrdinalForDelta] at h
  split_ifs at h
  all_goals
    obtain ⟨rfl, rfl⟩ := Prod.ext_iff.1 (Except.ok.inj h)
    refine ⟨by decide, by decide, by decide, rfl, ?_⟩
    simp only [pointerBytesForOrdinal]
    omega

/-! ### Reading the nodes -/

theorem nodeOrdinal_header {ordinal : Nat} (h : ordinal < 16) :
    nodeOrdinal (UInt8.ofNat (ordinal * 16)) = ordinal := by
  rw [nodeOrdinal, UInt8.toNat_ofNat', Nat.mod_eq_of_lt (show ordinal * 16 < 2 ^ 8 by omega)]
  omega

theorem payloadFlags_header (h : ordinal < 16) : payloadFlags (UInt8.ofNat (ordinal * 16)) = 0 := by
  rw [payloadFlags, UInt8.toNat_ofNat', Nat.mod_eq_of_lt (show ordinal * 16 < 2 ^ 8 by omega)]
  omega

theorem denseNode_count (ordinal nodeOffset ptrBytes : Nat) {cs : List (UInt8 × Nat)}
    (post : Bytes) (hlen : cs.length = 256) :
    (byteAt (denseNode ordinal nodeOffset ptrBytes cs ++ post) 2).toNat + 1 = 256 := by
  rw [denseNode, hlen]
  rfl

theorem toNat_count {n : Nat} (h : n ≤ 255) : (UInt8.ofNat n).toNat = n := by
  rw [UInt8.toNat_ofNat', Nat.mod_eq_of_lt (show n < 2 ^ 8 by omega)]

/-- A sparse node reads back. -/
theorem parseSparseNode_sparse {ordinal nodeOffset : Nat} {post : Bytes} {cs : List (UInt8 × Nat)}
    (hpacked : ¬ (ordinal = 6 ∨ ordinal = 10)) (hne : cs ≠ []) (hcount : cs.length ≤ 255)
    (hoffs : ∀ c ∈ cs, c.2 ≤ nodeOffset)
    (hmax : ∀ c ∈ cs, nodeOffset - c.2 < 256 ^ pointerBytesForOrdinal ordinal) :
    parseSparseNode (sparseNode ordinal nodeOffset (pointerBytesForOrdinal ordinal) cs ++ post)
      nodeOffset ordinal = .ok (.sparse cs) := by
  obtain ⟨data, hdata⟩ : ∃ data, data =
    sparseNode ordinal nodeOffset (pointerBytesForOrdinal ordinal) cs ++ post := ⟨_, rfl⟩
  have hpos : 0 < cs.length := List.length_pos_iff.2 hne
  have harea : pointerArea ordinal cs.length = cs.length * pointerBytesForOrdinal ordinal := by
    rw [pointerArea, if_neg hpacked]
  have hsecond : (byteAt data 1).toNat = cs.length := by
    rw [hdata, ← toNat_count hcount]
    rfl
  have hlen : data.length = _ + post.length :=
    (congrArg List.length hdata).trans List.length_append
  rw [length_sparseNode] at hlen
  rw [← hdata]
  simp only [parseSparseNode, hsecond, harea]
  rw [if_neg (by omega), if_neg (by omega), if_neg (by omega)]
  refine congrArg _ (congrArg _ (List.ext_getElem (by simp) fun i hi hi' => ?_))
  have hbyte : byteAt data (2 + i) = cs[i].1 := by
    rw [hdata, sparseNode_append, byteAt_append_left _ (by simp; omega), Nat.add_comm]
    simp [byteAt, hi']
  have hdelta : deltaAt ordinal data (2 + cs.length) i = nodeOffset - cs[i].2 := by
    rw [deltaAt, if_neg hpacked, hdata]
    exact fromBe_sparseNode post hmax hi'
  have := hoffs cs[i] (List.getElem_mem hi')
  rw [List.getElem_map, List.getElem_range, hbyte, hdelta]
  exact Prod.ext rfl (show nodeOffset - (nodeOffset - cs[i].2) = cs[i].2 by omega)

/-- In an ascending list, the elements are as far apart as their places at least. -/
theorem add_le_getElem {l : List Nat} (h : l.Pairwise (· < ·)) {i k : Nat} (hk : i + k < l.length) :
    l[i] + k ≤ l[i + k] := by
  induction k with
  | zero => simp
  | succ k ih =>
    have hstep := List.pairwise_iff_getElem.1 h (i + k) (i + (k + 1)) (by omega) hk (by omega)
    have := ih (by omega)
    omega

theorem byte_of_full (hsorted : (cs.map (·.1)).Pairwise (· < ·)) (hlen : cs.length = 256)
    (hi : i < cs.length) : cs[i].1 = UInt8.ofNat i := by
  have hnats : (cs.map fun c => c.1.toNat).Pairwise (· < ·) := by
    rw [List.pairwise_map] at hsorted ⊢
    exact hsorted.imp UInt8.lt_iff_toNat_lt.1
  have hlow := @add_le_getElem _ hnats 0 i (by simpa using hi)
  have hhigh := @add_le_getElem _ hnats i (255 - i) (by simp; omega)
  have hidx : i + (255 - i) < cs.length := by omega
  have hlast : cs[i + (255 - i)].1.toNat < 256 := UInt8.toNat_lt _
  simp only [List.getElem_map, Nat.zero_add] at hlow hhigh
  rw [← UInt8.toNat_inj, UInt8.toNat_ofNat', Nat.mod_eq_of_lt (by omega)]
  omega

theorem parseDenseNode_dense {ordinal nodeOffset : Nat} {post : Bytes} {cs : List (UInt8 × Nat)}
    (hpacked : ¬ (ordinal = 6 ∨ ordinal = 10)) (hlen : cs.length = 256)
    (hoffs : ∀ c ∈ cs, c.2 < nodeOffset)
    (hmax : ∀ c ∈ cs, nodeOffset - c.2 < 256 ^ pointerBytesForOrdinal ordinal) :
    parseDenseNode (denseNode ordinal nodeOffset (pointerBytesForOrdinal ordinal) cs ++ post)
      nodeOffset ordinal = .ok (.dense ((cs.map (·.1)).headD 0) (cs.map fun c => some c.2)) := by
  have harea : pointerArea ordinal 256 = 256 * pointerBytesForOrdinal ordinal := by
    rw [pointerArea, if_neg hpacked]
  have hsecond : byteAt (denseNode ordinal nodeOffset (pointerBytesForOrdinal ordinal) cs ++ post) 1 =
      (cs.map (·.1)).headD 0 := rfl
  have hthird := denseNode_count ordinal nodeOffset (pointerBytesForOrdinal ordinal) post hlen
  have hsize := length_denseNode ordinal nodeOffset (pointerBytesForOrdinal ordinal) cs
  rw [hlen] at hsize
  simp only [parseDenseNode, hsecond, hthird, harea, List.length_append, hsize]
  rw [if_neg (by omega), if_neg (by omega)]
  refine congrArg _ (congrArg _ (List.ext_getElem (by simp [hlen]) fun i hi hi' => ?_))
  have hi'' : i < cs.length := by simpa using hi'
  have hchild := hoffs cs[i] (List.getElem_mem hi'')
  rw [List.getElem_map, List.getElem_range, List.getElem_map, deltaAt, if_neg hpacked]
  refine Eq.trans (congrArg (denseChild nodeOffset) (fromBe_denseNode post hmax hi'')) ?_
  rw [denseChild, if_neg (by omega)]
  exact congrArg some (by omega)

theorem orderedChildren_sparse (hsorted : (cs.map (·.1)).Pairwise (· < ·)) :
    orderedChildren (.sparse cs) = cs := by
  refine List.Pairwise.insertionSort_eq ?_
  exact (List.pairwise_map.1 hsorted).imp fun h => h.le

theorem orderedChildren_dense (hsorted : (cs.map (·.1)).Pairwise (· < ·)) (hlen : cs.length = 256) :
    orderedChildren (.dense ((cs.map (·.1)).headD 0) (cs.map fun c => some c.2)) = cs := by
  have hstart : (cs.map (·.1)).headD 0 = 0 := by
    cases cs with
    | nil => rfl
    | cons c cs => exact byte_of_full hsorted hlen (i := 0) (by simp)
  have hsome : ∀ i ∈ List.range (cs.map fun c => some c.2).length,
      ((cs.map fun c => some c.2).getD i none).map (fun child => ((0 : UInt8) + UInt8.ofNat i, child)) =
        some (cs.getD i (0, 0)) := by
    intro i hi
    have hi' : i < cs.length := by simpa using hi
    rw [List.getD_eq_getElem?_getD, List.getD_eq_getElem?_getD, List.getElem?_map,
      List.getElem?_eq_getElem hi']
    have hbyte : 0 + UInt8.ofNat i = cs[i].1 := by
      rw [byte_of_full hsorted hlen hi']
      simp
    exact congrArg some (Prod.ext hbyte rfl)
  rw [orderedChildren, hstart, List.filterMap_congr hsome, List.filterMap_eq_map', List.length_map]
  refine List.ext_getElem (by simp) fun i hi hi' => ?_
  simp [List.getD_eq_getElem?_getD, List.getElem?_eq_getElem hi']

/-- What a reader sees of an inner node: its children, and no payload. -/
structure ReadsInner (data : Bytes) (off : Nat) (cs : List (UInt8 × Nat)) : Prop where
  lt : off < data.length
  children : trieChildren data off = .ok cs
  inner : nodeOrdinal (byteAt data off) ≠ 0
  noFlags : payloadFlags (byteAt data off) = 0

theorem parseBtiNodeForTraversal_inner {node : Bytes} {header : UInt8}
    (hordinal : 1 ≤ nodeOrdinal header) :
    parseBtiNodeForTraversal (buf ++ header :: node) buf.length =
      parseBtiNode (header :: node) buf.length := by
  have hbyte : byteAt (buf ++ header :: node) buf.length = header := byteAt_append_length buf _ 0
  rw [parseBtiNodeForTraversal, if_neg (by simp), hbyte, List.drop_left]
  simp only
  cases h : classifyNodeNibble (nodeOrdinal header) with
  | error e =>
    simp [parseBtiNode, h, bind, Except.bind]
  | ok type =>
    cases type with
    | payloadOnly =>
      rw [classifyNodeNibble, if_neg (by omega)] at h
      split_ifs at h <;> cases h
    | single => rfl
    | sparse => rfl
    | dense => rfl

/-- The layouts an inner node is written in. -/
inductive InnerNode (nodeOffset : Nat) (cs : List (UInt8 × Nat)) : Bytes → Prop
  | sparse {ordinal : Nat} : 5 ≤ ordinal → ordinal ≤ 9 → ¬ (ordinal = 6 ∨ ordinal = 10) →
      cs ≠ [] → cs.length ≤ 255 →
      (∀ c ∈ cs, nodeOffset - c.2 < 256 ^ pointerBytesForOrdinal ordinal) →
      InnerNode nodeOffset cs (sparseNode ordinal nodeOffset (pointerBytesForOrdinal ordinal) cs)
  | dense {ordinal : Nat} : 11 ≤ ordinal → ordinal ≤ 15 → ¬ (ordinal = 6 ∨ ordinal = 10) →
      cs.length = 256 →
      (∀ c ∈ cs, nodeOffset - c.2 < 256 ^ pointerBytesForOrdinal ordinal) →
      InnerNode nodeOffset cs (denseNode ordinal nodeOffset (pointerBytesForOrdinal ordinal) cs)

theorem maxDelta_le (nodeOffset : Nat) (cs : List (UInt8 × Nat)) : maxDelta nodeOffset cs ≤ nodeOffset := by
  induction cs with
  | nil => exact Nat.zero_le _
  | cons c cs ih =>
    rw [maxDelta, List.map_cons, List.foldr_cons]
    exact Nat.max_le.2 ⟨Nat.sub_le _ _, ih⟩

theorem emitInternal_ok {buf' : Bytes} {off : Nat} (h : emitInternal cs buf = .ok (off, buf'))
    (hsize : buf'.length < 2 ^ 64) :
    off = buf.length ∧ ∃ node, buf' = buf ++ node ∧ InnerNode buf.length cs node := by
  rw [emitInternal] at h
  split at h
  · next hfull =>
    rw [writeDense, if_neg (not_not.2 hfull)] at h
    obtain ⟨⟨ordinal, ptrBytes⟩, hordinal, h⟩ := bind_eq_ok.1 h
    obtain ⟨rfl, rfl⟩ := Prod.ext_iff.1 (Except.ok.inj h)
    have hbuf : buf.length < 2 ^ 64 := by
      rw [List.length_append] at hsize
      exact (Nat.le_add_right _ _).trans_lt hsize
    obtain ⟨hlow, hhigh, hpacked, rfl, hfits⟩ :=
      denseOrdinal_spec ((maxDelta_le _ _).trans_lt hbuf) hordinal
    exact ⟨rfl, _, rfl, .dense hlow hhigh hpacked hfull fun c hc => (le_maxDelta hc).trans_lt hfits⟩
  · rw [writeSparse] at h
    simp only at h
    split at h
    · cases h
    · split at h
      · cases h
      · next hnil hcount =>
        obtain ⟨⟨ordinal, ptrBytes⟩, hordinal, h⟩ := bind_eq_ok.1 h
        obtain ⟨rfl, rfl⟩ := Prod.ext_iff.1 (Except.ok.inj h)
        obtain ⟨hlow, hhigh, hpacked, rfl, hfits⟩ := sparseOrdinal_spec hordinal
        exact ⟨rfl, _, rfl, .sparse hlow hhigh hpacked (fun h => hnil (by rw [h]; rfl)) (by omega)
          fun c hc => (le_maxDelta hc).trans_lt hfits⟩

/-- An inner node behind its children is read back, whatever follows. -/
theorem InnerNode.reads {node : Bytes} (h : InnerNode buf.length cs node)
    (hsorted : (cs.map (·.1)).Pairwise (· < ·)) (hoffs : ∀ c ∈ cs, c.2 < buf.length) (post : Bytes) :
    ReadsInner (buf ++ node ++ post) buf.length cs := by
  cases h with
  | @sparse ordinal hlow hhigh hpacked hne hcount hfits =>
    have hheader := @nodeOrdinal_header ordinal (by omega)
    have hbyte : byteAt (buf ++ sparseNode ordinal buf.length (pointerBytesForOrdinal ordinal) cs ++ post)
        buf.length = UInt8.ofNat (ordinal * 16) := by
      rw [List.append_assoc]
      exact byteAt_append_length buf _ 0
    refine ⟨by simp [sparseNode], ?_, by rw [hbyte, hheader]; omega,
      by rw [hbyte]; exact payloadFlags_header (by omega)⟩
    have hclass : classifyNodeNibble ordinal = .ok .sparse := by
      rw [classifyNodeNibble, if_neg (by omega), if_neg (by omega), if_pos hhigh]
    have hparse := @parseSparseNode_sparse ordinal buf.length post cs
      hpacked hne hcount (fun c hc => (hoffs c hc).le) hfits
    rw [trieChildren, List.append_assoc, sparseNode, List.cons_append,
      parseBtiNodeForTraversal_inner (by rw [hheader]; omega), parseBtiNode, hheader, hclass]
    simp only [bind, Except.bind]
    rw [← List.cons_append, ← sparseNode, hparse]
    exact congrArg _ (orderedChildren_sparse hsorted)
  | @dense ordinal hlow hhigh hpacked hlen hfits =>
    have hheader := @nodeOrdinal_header ordinal (by omega)
    have hbyte : byteAt (buf ++ denseNode ordinal buf.length (pointerBytesForOrdinal ordinal) cs ++ post)
        buf.length = UInt8.ofNat (ordinal * 16) := by
      rw [List.append_assoc]
      exact byteAt_append_length buf _ 0
    refine ⟨by simp [denseNode], ?_, by rw [hbyte, hheader]; omega,
      by rw [hbyte]; exact payloadFlags_header (by omega)⟩
    have hclass : classifyNodeNibble ordinal = .ok .dense := by
      rw [classifyNodeNibble, if_neg (by omega), if_neg (by omega), if_neg (by omega), if_pos hhigh]
    have hparse := @parseDenseNode_dense ordinal buf.length post cs
      hpacked hlen hoffs hfits
    rw [trieChildren, List.append_assoc, denseNode, List.cons_append,
      parseBtiNodeForTraversal_inner (by rw [hheader]; omega), parseBtiNode, hheader, hclass]
    simp only [bind, Except.bind]
    rw [← List.cons_append, ← denseNode, hparse]
    exact congrArg _ (orderedChildren_dense hsorted hlen)

/-! ### Reading the leaves -/

theorem sizedIntsNonZeroSize_spec {value : Int} (hlow : i64Min ≤ value) (hhigh : value ≤ i64Max) :
    1 ≤ sizedIntsNonZeroSize value ∧ sizedIntsNonZeroSize value ≤ 8 ∧
      -(256 ^ sizedIntsNonZeroSize value) ≤ 2 * value ∧
      2 * value < 256 ^ sizedIntsNonZeroSize value := by
  rw [i64Min] at hlow
  rw [i64Max] at hhigh
  obtain ⟨a, ha⟩ : ∃ a, a = (if value < 0 then -value - 1 else value).toNat := ⟨_, rfl⟩
  rw [sizedIntsNonZeroSize, ← ha]
  by_cases hzero : a = 0
  · rw [if_pos hzero]
    split_ifs at ha <;> omega
  · rw [if_neg hzero]
    have hlog : Nat.log2 a < 63 := (Nat.log2_lt hzero).2 (by split_ifs at ha <;> omega)
    have hpow : a + 1 ≤ 2 ^ (Nat.log2 a + 1) := Nat.lt_log2_self
    obtain ⟨k, hk⟩ : ∃ k, k = (Nat.log2 a + 1 + 1 + 7) / 8 := ⟨_, rfl⟩
    have hbits : 2 ^ (Nat.log2 a + 1) * 2 ≤ 256 ^ k := by
      rw [← pow_succ, show 256 = 2 ^ 8 from rfl, ← pow_mul]
      exact Nat.pow_le_pow_right Nat.two_pos (by omega)
    rw [← hk, show max 1 (min 8 k) = k by omega]
    have hcast : ((256 ^ k : Nat) : Int) = 256 ^ k := by norm_cast
    refine ⟨by omega, by omega, ?_, ?_⟩ <;> split_ifs at ha <;> omega

theorem sizedIntsNonZeroSize_le {value : Nat} (h : value < 2 ^ 55) :
    sizedIntsNonZeroSize value ≤ 7 := by
  have habs : (if (value : Int) < 0 then -(value : Int) - 1 else value).toNat = value := by
    rw [if_neg (by omega), Int.toNat_natCast]
  rw [sizedIntsNonZeroSize, habs]
  by_cases hzero : value = 0
  · rw [if_pos hzero]
    decide
  · rw [if_neg hzero]
    have hlog : Nat.log2 value < 55 := (Nat.log2_lt hzero).2 h
    omega

/-- The first byte of the marked-for-delete-at is the one of a live deletion time. -/
def LiveLike (deletion : Option (Int × Int)) : Prop :=
  ∃ d ∈ deletion, (intBytes 8 d.2).head? = some 0x80

/-- An `i32` and an `i64`. -/
def DeletionInRange (deletion : Option (Int × Int)) : Prop :=
  ∀ d ∈ deletion, -(2 ^ 31) ≤ d.1 ∧ d.1 < 2 ^ 31 ∧ i64Min ≤ d.2 ∧ d.2 ≤ i64Max

/-- A deletion time reads back. -/
theorem decodeDaDeletionTime_bytes {deletion : Option (Int × Int)} (hrange : DeletionInRange deletion)
    (hlive : ¬ LiveLike deletion) (front post : Bytes) :
    (decodeDaDeletionTime (front ++ (daDeletionTimeBytes deletion ++ post)) front.length).map (·.1) =
      .ok deletion := by
  cases deletion with
  | none =>
    have hbyte : byteAt (front ++ (daDeletionTimeBytes none ++ post)) front.length = 0x80 :=
      byteAt_append_length front _ 0
    rw [decodeDaDeletionTime, if_neg (by simp [daDeletionTimeBytes]), if_pos hbyte]
    rfl
  | some d =>
    obtain ⟨localDeletionTime, markedForDeleteAt⟩ := d
    obtain ⟨hlow, hhigh, hlow', hhigh'⟩ := hrange _ rfl
    rw [i64Min] at hlow'
    rw [i64Max] at hhigh'
    have hmfda := length_intBytes 8 markedForDeleteAt
    have hldt := length_intBytes 4 localDeletionTime
    have hbyte : byteAt (front ++ (daDeletionTimeBytes (some (localDeletionTime, markedForDeleteAt)) ++
        post)) front.length ≠ 0x80 := by
      rw [show front.length = front.length + 0 from rfl, byteAt_append_length, daDeletionTimeBytes]
      intro h
      refine hlive ⟨_, rfl, ?_⟩
      cases hbytes : intBytes 8 markedForDeleteAt with
      | nil => rw [hbytes] at hmfda; cases hmfda
      | cons b rest =>
        rw [hbytes] at h
        exact congrArg some h
    rw [decodeDaDeletionTime, if_neg (by simp [daDeletionTimeBytes, length_intBytes]), if_neg hbyte,
      if_neg (by simp [daDeletionTimeBytes, length_intBytes]; omega), List.drop_left, ← List.drop_drop, List.drop_left,
      daDeletionTimeBytes, List.append_assoc, List.take_left' hmfda, List.drop_left' hmfda,
      List.take_left' hldt, intOfBytes_intBytes (by norm_num at *; omega) (by norm_num at *; omega),
      intOfBytes_intBytes (by norm_num at *; omega) (by norm_num at *; omega)]
    rfl

/-- What a reader sees of a leaf: no children and a payload. -/
structure ReadsLeaf {α : Type} (payload : Nat → BtiResult (Option α)) (data : Bytes) (off : Nat)
    (value : α) : Prop where
  lt : off < data.length
  children : trieChildren data off = .ok []
  payload : payload off = .ok (some value)

theorem leaf_header {flags : Nat} (h : flags < 16) :
    nodeOrdinal (UInt8.ofNat flags) = 0 ∧ payloadFlags (UInt8.ofNat flags) = flags := by
  rw [nodeOrdinal, payloadFlags, UInt8.toNat_ofNat', Nat.mod_eq_of_lt (show flags < 2 ^ 8 by omega)]
  omega

theorem readsLeaf_of_decode {α : Type} {outOfBounds zeroFlags : String}
    {decode : Bytes → Nat → Nat → BtiResult α} {buf rest : Bytes} {flags : Nat} {value : α}
    (hpos : 0 < flags) (hflags : flags < 16)
    (hdecode : decode (buf ++ UInt8.ofNat flags :: rest) (buf.length + 1) flags = .ok value) :
    ReadsLeaf (readPayloadWith outOfBounds zeroFlags decode (buf ++ UInt8.ofNat flags :: rest) · none)
      (buf ++ UInt8.ofNat flags :: rest) buf.length value := by
  obtain ⟨hordinal, hheader⟩ := leaf_header hflags
  have hbyte : byteAt (buf ++ UInt8.ofNat flags :: rest) buf.length = UInt8.ofNat flags :=
    byteAt_append_length buf _ 0
  refine ⟨by simp, ?_, ?_⟩
  · rw [trieChildren, parseBtiNodeForTraversal, if_neg (by simp), hbyte]
    simp only [hordinal, hheader]
    rw [classifyNodeNibble, if_pos rfl]
    simp only [bind, Except.bind]
    rw [if_neg (by omega)]
    rfl
  · simp only [readPayloadWith, hbyte, hordinal, hheader]
    rw [if_neg (by simp), if_neg (by decide), if_pos trivial, if_neg (by omega), hdecode]
    rfl

/-- The payload of a leaf reads back. -/
theorem decodeBtiRowPayload_leaf {entry : BtiRowIndexEntry} (hoffset : entry.dataOffset < 2 ^ 55)
    (hrange : DeletionInRange entry.openMarker) (hlive : ¬ LiveLike entry.openMarker)
    {flags : Nat} {marker : Bytes}
    (hflags : flags = sizedIntsNonZeroSize entry.dataOffset +
      if entry.openMarker.isSome then flagOpenMarker else 0)
    (hmarker : marker = if entry.openMarker.isSome then daDeletionTimeBytes entry.openMarker else [])
    (front post : Bytes) :
    decodeBtiRowPayload
        (front ++ (sizedIntBe entry.dataOffset (sizedIntsNonZeroSize entry.dataOffset) ++ marker ++ post))
        front.length flags = .ok entry := by
  obtain ⟨dataOffset, openMarker⟩ := entry
  simp only at hoffset hrange hlive hflags hmarker ⊢
  obtain ⟨hpos, -, hlow, hhigh⟩ := @sizedIntsNonZeroSize_spec dataOffset (by rw [i64Min]; omega)
    (by rw [i64Max]; omega)
  have hseven := sizedIntsNonZeroSize_le hoffset
  obtain ⟨k, hk⟩ : ∃ k, k = sizedIntsNonZeroSize dataOffset := ⟨_, rfl⟩
  rw [← hk] at hpos hlow hhigh hseven hflags ⊢
  have hsized : (sizedIntBe dataOffset k).length = k := length_intBytes _ _
  have hmod : flags % flagOpenMarker = k := by
    rw [hflags, flagOpenMarker]
    split <;> omega
  have hraw : sizedIntsReadFromSlice (sizedIntBe dataOffset k) = .ok (dataOffset : Int) := by
    rw [sizedIntsReadFromSlice, if_pos (by omega), sizedIntBe, intOfBytes_intBytes hlow hhigh]
  have htake : ((front ++ (sizedIntBe dataOffset k ++ marker ++ post)).drop front.length).take k =
      sizedIntBe dataOffset k := by
    rw [List.drop_left, List.append_assoc, List.take_left' hsized]
  have hnat : ((dataOffset : Int) % 2 ^ 64).toNat = dataOffset := by omega
  simp only [decodeBtiRowPayload, hmod]
  rw [if_neg (by simp), if_neg (by omega), if_neg (by simp [hsized]), htake, hraw]
  simp only [bind, Except.bind, hnat]
  cases openMarker with
  | none =>
    rw [if_neg (by rw [hflags, flagOpenMarker]; simp; omega)]
    rfl
  | some d =>
    have hfront : front ++ (sizedIntBe dataOffset k ++ marker ++ post) =
        (front ++ sizedIntBe dataOffset k) ++ (daDeletionTimeBytes (some d) ++ post) := by
      rw [hmarker]
      simp
    have hdecode := decodeDaDeletionTime_bytes hrange hlive (front ++ sizedIntBe dataOffset k) post
    rw [List.length_append, hsized, ← hfront] at hdecode
    rw [if_pos (by rw [hflags]; simp), hdecode]
    rfl

/-- A leaf reads back. -/
theorem writeRowLeaf_reads {entry : BtiRowIndexEntry} {buf' : Bytes} {off : Nat}
    (h : writeRowLeaf entry buf = .ok (off, buf')) (hoffset : entry.dataOffset < 2 ^ 55)
    (hrange : DeletionInRange entry.openMarker) (hlive : ¬ LiveLike entry.openMarker) :
    off = buf.length ∧ ∃ node, buf' = buf ++ node ∧
      ∀ post, ReadsLeaf (rowStore (buf' ++ post)).payload (buf' ++ post) off entry := by
  rw [writeRowLeaf] at h
  split at h
  · cases h
  · simp only at h
    split at h
    · cases h
    · obtain ⟨rfl, rfl⟩ := Prod.ext_iff.1 (Except.ok.inj h)
      refine ⟨rfl, _, rfl, fun post => ?_⟩
      have hseven := sizedIntsNonZeroSize_le hoffset
      obtain ⟨flags, hflags⟩ : ∃ flags, flags = sizedIntsNonZeroSize entry.dataOffset +
          if entry.openMarker.isSome then flagOpenMarker else 0 := ⟨_, rfl⟩
      have hbits : ∀ k : Fin 8, k.1 ||| flagOpenMarker = k.1 + flagOpenMarker := by decide
      have hor : (if entry.openMarker.isSome = true then
          sizedIntsNonZeroSize entry.dataOffset ||| flagOpenMarker
          else sizedIntsNonZeroSize entry.dataOffset) = flags := by
        rw [hflags]
        split
        · exact hbits ⟨sizedIntsNonZeroSize entry.dataOffset, Nat.lt_succ_of_le hseven⟩
        · rfl
      have hpos := (@sizedIntsNonZeroSize_spec entry.dataOffset (by rw [i64Min]; omega)
        (by rw [i64Max]; omega)).1
      have hlt : 0 < flags ∧ flags < 16 := by
        rw [hflags, flagOpenMarker]
        split
        · exact ⟨by omega, Nat.lt_succ_of_le (Nat.add_le_add_right hseven 8)⟩
        · exact ⟨by omega, by omega⟩
      have hdecode := decodeBtiRowPayload_leaf hoffset hrange hlive hflags rfl
        (buf ++ [UInt8.ofNat flags]) post
      rw [List.length_append, List.length_singleton, List.append_assoc, List.singleton_append] at hdecode
      have hleaf := @readsLeaf_of_decode _ "Rows.db payload read: node_offset out of bounds"
        "Rows.db PayloadOnly node has zero payload_flags" _ _ _ _ _ hlt.1 hlt.2 hdecode
      rw [hor, Nat.mod_eq_of_lt hlt.2, List.append_assoc, List.cons_append]
      exact hleaf

end Cqlite
