import Cqlite.Lib.Rank
import Cqlite.Reader.PartitionTrie
import Cqlite.Reader.RowsEntry
import Cqlite.Writer.TrieNodeBytes

/-! The partitions file (`writer/partitions_writer.rs`: `PartitionsTrieWriter`), written and read back.

    The trie is written in one sweep over the sorted keys. The nodes on the way to the last key are
    held open; a node is written once the next key branches off above it. -/

namespace Cqlite

open VInt Trie TrieStore

/-! ### The writer -/

/-- Where the reader is sent by a payload. -/
def PartitionPayload.location : PartitionPayload → BtiPartitionLocation
  | .dataOffset offset => .dataOffset offset
  | .rowsOffset offset => .rowsOffset offset

structure PartitionTrieEntry where
  key : Bytes
  hashByte : UInt8
  payload : PartitionPayload

/-- With the raw keys of the least and of the greatest key so far. -/
structure PartitionsTrieWriter where
  entries : List PartitionTrieEntry := []
  firstRaw : Option (Bytes × Bytes) := none
  lastRaw : Option (Bytes × Bytes) := none

def partitionTrieKeyLen : Nat := 9

/-- A node still open, under the byte that leads into it. -/
structure PendingNode where
  transitionByte : UInt8
  childOffsets : List (UInt8 × Nat)

/-- Writes the deepest node and enters it in its parent. The stack has its deepest node first. -/
def popAndLink : List PendingNode → Bytes → Except Error (List PendingNode × Bytes)
  | [], buf => .ok ([], buf)
  | node :: above, buf => do
    let (off, buf) ← emitInternal node.childOffsets buf
    match above with
    | [] => return ([], buf)
    | parent :: above =>
      let childOffsets := parent.childOffsets ++ [(node.transitionByte, off)]
      return ({ parent with childOffsets } :: above, buf)

def popTimes : Nat → List PendingNode → Bytes → Except Error (List PendingNode × Bytes)
  | 0, stack, buf => .ok (stack, buf)
  | n + 1, stack, buf => do
    let (stack, buf) ← popAndLink stack buf
    popTimes n stack buf

/-- `while stack.len() > keep`. -/
def popDeeper (keep : Nat) (stack : List PendingNode) (buf : Bytes) :
    Except Error (List PendingNode × Bytes) :=
  popTimes (stack.length - keep) stack buf

/-- One fresh node for each byte of the key below the stack. -/
def extendPath (key : Bytes) : Nat → List PendingNode → List PendingNode
  | 0, stack => stack
  | n + 1, stack =>
    let depth := stack.length
    let transitionByte := if depth = 0 then 0 else byteAt key (depth - 1)
    extendPath key n ({ transitionByte, childOffsets := [] } :: stack)

def longestCommonPrefix : Bytes → Bytes → Nat
  | a :: key, b :: prev => if a = b then longestCommonPrefix key prev + 1 else 0
  | _, _ => 0

structure SweepState where
  stack : List PendingNode
  prevKey : Option Bytes
  buf : Bytes

/-- Opens the path down to the leaf's parent and writes the leaf there. -/
def appendLeaf (entry : PartitionTrieEntry) (stack : List PendingNode) (buf : Bytes) :
    Except Error SweepState := do
  let key := entry.key
  let stack := extendPath key (partitionTrieKeyLen - stack.length) stack
  let (leafOff, buf) ← writeLeaf entry.hashByte entry.payload buf
  let stack := match stack with
    | [] => []
    | deepest :: above =>
      let leaf := (byteAt key (partitionTrieKeyLen - 1), leafOff)
      { deepest with childOffsets := deepest.childOffsets ++ [leaf] } :: above
  return { stack, prevKey := some key, buf }

def emitEntry (state : SweepState) (entry : PartitionTrieEntry) : Except Error SweepState := do
  let lcp := match state.prevKey with
    | none => 0
    | some prev => longestCommonPrefix entry.key prev
  -- the nodes below the common bytes get no more children
  let (stack, buf) ← popDeeper (lcp + 1) state.stack state.buf
  appendLeaf entry stack buf

/-- The root's offset and the buffer. -/
def emitPartitionsTrie (entries : List PartitionTrieEntry) (buf : Bytes) : Except Error (Nat × Bytes) :=
  if entries.isEmpty then .error (.invalidInput "cannot emit an empty partition trie")
  else do
    let state ← entries.foldlM emitEntry { stack := [], prevKey := none, buf }
    let (stack, buf) ← popDeeper 1 state.stack state.buf
    match stack with
    | root :: _ => emitInternal root.childOffsets buf
    | [] => .error (.invalidInput "partition trie produced no root node")

def writeWithShortLength (buf bytes : Bytes) : Except Error Bytes :=
  if 0xFFFF < bytes.length then
    .error (.invalidInput "partition key too long for Partitions.db short-length prefix")
  else .ok (buf ++ beBytes 2 bytes.length ++ bytes)

def hasDuplicateKey : List PartitionTrieEntry → Bool
  | a :: b :: entries => a.key == b.key || hasDuplicateKey (b :: entries)
  | _ => false

namespace PartitionsTrieWriter

def addPartitionWithPayload (w : PartitionsTrieWriter) (rawKeyBytes : Bytes)
    (payload : PartitionPayload) : PartitionsTrieWriter :=
  let (h1, h2) := cassandraMurmur3X64128 rawKeyBytes
  let key := encodeBtiTrieKeyFromToken (normalizeToken h1.toInt64.toInt)
  let firstRaw := match w.firstRaw with
    | some (minKey, raw) => if minKey ≤ key then some (minKey, raw) else some (key, rawKeyBytes)
    | none => some (key, rawKeyBytes)
  let lastRaw := match w.lastRaw with
    | some (maxKey, raw) => if key ≤ maxKey then some (maxKey, raw) else some (key, rawKeyBytes)
    | none => some (key, rawKeyBytes)
  { entries := w.entries ++ [{ key, hashByte := h2.toUInt8, payload }], firstRaw, lastRaw }

/-- The bytes of the file; none for no partitions. -/
def finish (w : PartitionsTrieWriter) : Except Error Bytes :=
  if w.entries.isEmpty then .ok []
  else
    let entries := w.entries.insertionSort fun a b => a.key ≤ b.key
    if hasDuplicateKey entries then
      .error (.invalidInput "duplicate partition trie key (token collision) in Partitions.db")
    else do
      let firstKey := (w.firstRaw.map (·.2)).getD []
      let lastKey := (w.lastRaw.map (·.2)).getD []
      let (rootOffset, buf) ← emitPartitionsTrie entries []
      let firstPos := buf.length
      let buf ← writeWithShortLength buf firstKey
      let buf ← writeWithShortLength buf lastKey
      return buf ++ (beBytes 8 firstPos ++ (beBytes 8 entries.length ++ beBytes 8 rootOffset))

end PartitionsTrieWriter

/-! ### Finding a child in a written node -/

variable {cs : List (UInt8 × Nat)} {buf : Bytes} {α : Type}

theorem find?_of_sorted (hsorted : (cs.map (·.1)).Pairwise (· < ·)) {i : Nat} (hi : i < cs.length) :
    cs.find? (·.1 == cs[i].1) = some cs[i] := by
  rw [List.find?_eq_some_iff_getElem]
  refine ⟨by simp, i, hi, rfl, fun j hj => ?_⟩
  rw [List.pairwise_map] at hsorted
  have hlt := List.pairwise_iff_getElem.1 hsorted j i (by omega) hi hj
  simpa using hlt.ne

theorem sparseChild_node {ordinal ptrBytes off : Nat} {what : String} {post : Bytes}
    {cs : List (UInt8 × Nat)} (hne : cs ≠ []) (hcount : cs.length ≤ 255)
    (hsorted : (cs.map (·.1)).Pairwise (· < ·)) (hoffs : ∀ c ∈ cs, c.2 < off)
    (hfits : ∀ c ∈ cs, off - c.2 < 256 ^ ptrBytes) (b : UInt8) :
    SliceWalk.sparseChild (sparseNode ordinal off ptrBytes cs ++ post) off (.fixed ptrBytes) b what =
      .ok ((cs.find? (·.1 == b)).map (·.2)) := by
  have hpos : cs.length ≠ 0 := fun h => hne (List.length_eq_zero_iff.1 h)
  have hsecond : byteAt (sparseNode ordinal off ptrBytes cs ++ post) 1 = UInt8.ofNat cs.length := rfl
  have hbytes : ((sparseNode ordinal off ptrBytes cs ++ post).drop 2).take cs.length =
      cs.map (·.1) := by
    simp [sparseNode]
  simp only [SliceWalk.sparseChild, hsecond, toNat_count hcount, requireLen, PtrWidth.area, hbytes,
    List.length_append, length_sparseNode]
  rw [if_neg (by omega)]
  simp only [bind, Except.bind]
  rw [if_neg hpos, if_neg (by omega)]
  simp only
  cases hsearch : BinarySearch.binarySearch (cs.map (·.1)) b with
  | none =>
    rw [List.find?_eq_none.2]
    · rfl
    · intro c hc hb
      obtain ⟨i, hi, rfl⟩ := List.mem_iff_getElem.1 hc
      have hfound := (@BinarySearch.binarySearch_eq_some_iff _ _ _ hsorted b i).2 (by simpa [hi] using hb)
      rw [hsearch] at hfound
      cases hfound
  | some i =>
    have hfound := (BinarySearch.binarySearch_eq_some_iff hsorted).1 hsearch
    rw [List.getElem?_map] at hfound
    obtain ⟨c, hc, rfl⟩ := Option.map_eq_some_iff.1 hfound
    obtain ⟨hi, rfl⟩ := List.getElem?_eq_some_iff.1 hc
    have hchild := hoffs cs[i] (List.getElem_mem hi)
    simp only [PtrWidth.delta]
    rw [find?_of_sorted hsorted hi, fromBe_sparseNode post hfits hi]
    exact congrArg (Except.ok ∘ some) (show off - (off - cs[i].2) = cs[i].2 by omega)

theorem denseChild_node {ordinal ptrBytes off : Nat} {what : String} {post : Bytes}
    {cs : List (UInt8 × Nat)} (hlen : cs.length = 256)
    (hsorted : (cs.map (·.1)).Pairwise (· < ·)) (hoffs : ∀ c ∈ cs, c.2 < off)
    (hfits : ∀ c ∈ cs, off - c.2 < 256 ^ ptrBytes) (b : UInt8) :
    SliceWalk.denseChild (denseNode ordinal off ptrBytes cs ++ post) off (.fixed ptrBytes) b what =
      .ok ((cs.find? (·.1 == b)).map (·.2)) := by
  have hsecond : byteAt (denseNode ordinal off ptrBytes cs ++ post) 1 = 0 := by
    cases cs with
    | nil => rfl
    | cons c cs => exact byte_of_full hsorted hlen (i := 0) (by simp)
  have hsize := length_denseNode ordinal off ptrBytes cs
  rw [hlen] at hsize
  have hb : b.toNat < cs.length := by
    rw [hlen]
    exact UInt8.toNat_lt b
  have hfull : cs[b.toNat].1 = b := by
    rw [byte_of_full hsorted hlen hb]
    simp
  have hfind := find?_of_sorted hsorted hb
  rw [hfull] at hfind
  have hchild := hoffs cs[b.toNat] (List.getElem_mem hb)
  simp only [SliceWalk.denseChild, hsecond, denseNode_count ordinal off ptrBytes post hlen, requireLen,
    PtrWidth.area, List.length_append, hsize]
  rw [if_neg (by omega)]
  simp only [bind, Except.bind]
  rw [if_neg (by omega)]
  simp only
  rw [if_neg (by simp [UInt8.lt_iff_toNat_lt]), if_neg (by simp; omega), hfind]
  have hzero : b.toNat - (0 : UInt8).toNat = b.toNat := Nat.sub_zero _
  simp only [PtrWidth.delta, hzero, fromBe_denseNode post hfits hb]
  rw [if_neg (by omega)]
  exact congrArg (Except.ok ∘ some) (show off - (off - cs[b.toNat].2) = cs[b.toNat].2 by omega)

theorem InnerNode.finds {node : Bytes} (h : InnerNode buf.length cs node)
    (hsorted : (cs.map (·.1)).Pairwise (· < ·)) (hoffs : ∀ c ∈ cs, c.2 < buf.length) (post : Bytes) :
    FindsChildren (buf ++ node ++ post) buf.length cs := by
  intro b
  have hdata : (buf ++ node ++ post).drop buf.length = node ++ post := by
    rw [List.append_assoc, List.drop_left]
  cases h with
  | @sparse ordinal hlow hhigh hpacked hne hcount hfits =>
    have hbyte : byteAt (sparseNode ordinal buf.length (pointerBytesForOrdinal ordinal) cs ++ post) 0 =
        UInt8.ofNat (ordinal * 16) := rfl
    rw [findChildOffset, if_neg (by simp [sparseNode])]
    simp only [hdata, hbyte, nodeOrdinal_header (show ordinal < 16 by omega)]
    have hchild := fun what => @sparseChild_node ordinal (pointerBytesForOrdinal ordinal) buf.length
      what post cs hne hcount hsorted hoffs hfits b
    rcases show ordinal = 5 ∨ ordinal = 7 ∨ ordinal = 8 ∨ ordinal = 9 by omega with
      rfl | rfl | rfl | rfl
    all_goals exact hchild _
  | @dense ordinal hlow hhigh hpacked hlen hfits =>
    have hbyte : byteAt (denseNode ordinal buf.length (pointerBytesForOrdinal ordinal) cs ++ post) 0 =
        UInt8.ofNat (ordinal * 16) := rfl
    rw [findChildOffset, if_neg (by simp [denseNode])]
    simp only [hdata, hbyte, nodeOrdinal_header (show ordinal < 16 by omega)]
    have hchild := fun what => @denseChild_node ordinal (pointerBytesForOrdinal ordinal) buf.length
      what post cs hlen hsorted hoffs hfits b
    rcases show ordinal = 11 ∨ ordinal = 12 ∨ ordinal = 13 ∨ ordinal = 14 ∨ ordinal = 15 by omega with
      rfl | rfl | rfl | rfl | rfl
    all_goals exact hchild _

/-! ### Reading a leaf -/

variable {payload : PartitionPayload}

theorem PartitionPayload.position_spec {position : Int} (h : payload.position = .ok position) :
    i64Min ≤ position ∧ position ≤ i64Max ∧
      payload.location =
        if position < 0 then .dataOffset (-position - 1).toNat else .rowsOffset position.toNat := by
  cases payload with
  | dataOffset offset =>
    rw [PartitionPayload.position] at h
    split at h
    · cases h
    · next hle =>
      obtain rfl := Except.ok.inj h
      rw [i64Max] at hle
      refine ⟨by rw [i64Min]; omega, by rw [i64Max]; omega, ?_⟩
      rw [if_pos (by omega), PartitionPayload.location]
      exact congrArg _ (by omega)
  | rowsOffset offset =>
    rw [PartitionPayload.position] at h
    split at h
    · cases h
    · next hle =>
      obtain rfl := Except.ok.inj h
      rw [i64Max] at hle
      refine ⟨by rw [i64Min]; omega, by rw [i64Max]; omega, ?_⟩
      rw [if_neg (by omega), PartitionPayload.location]
      exact congrArg _ (by omega)

theorem decodeBtiPartitionPayload_leaf {position : Int} (h : payload.position = .ok position)
    (hashByte : UInt8) (front post : Bytes) :
    decodeBtiPartitionPayload
        (front ++ (hashByte :: sizedIntBe position (sizedIntsNonZeroSize position) ++ post))
        front.length (flagHasHashByte + (sizedIntsNonZeroSize position - 1)) = .ok payload.location := by
  obtain ⟨hlow, hhigh, hlocation⟩ := PartitionPayload.position_spec h
  obtain ⟨hpos, height, hmin, hmax⟩ := sizedIntsNonZeroSize_spec hlow hhigh
  obtain ⟨k, hk⟩ : ∃ k, k = sizedIntsNonZeroSize position := ⟨_, rfl⟩
  rw [← hk] at hpos height hmin hmax ⊢
  have hsized : (sizedIntBe position k).length = k := length_intBytes _ _
  have hbytes : flagHasHashByte + (k - 1) - flagHasHashByte + 1 = k := by omega
  have htake : ((front ++ (hashByte :: sizedIntBe position k ++ post)).drop (front.length + 1)).take k =
      sizedIntBe position k := by
    rw [← List.drop_drop, List.drop_left, List.cons_append, List.drop_one, List.tail_cons,
      List.take_left' hsized]
  have hread : sizedIntsReadFromSlice (sizedIntBe position k) = .ok position := by
    rw [sizedIntsReadFromSlice, if_pos (by omega), sizedIntBe, intOfBytes_intBytes hmin hmax]
  simp only [decodeBtiPartitionPayload, hbytes]
  rw [if_neg (by rw [flagHasHashByte]; omega), if_neg (by rw [flagHasHashByte]; omega),
    if_neg (by simp [hsized]; omega), htake, hread, hlocation]
  rfl

theorem writeLeaf_reads {hashByte : UInt8} {buf' : Bytes} {off : Nat}
    (h : writeLeaf hashByte payload buf = .ok (off, buf')) :
    off = buf.length ∧ ∃ node, buf' = buf ++ node ∧ ∀ post,
      off < (buf' ++ post).length ∧ trieChildren (buf' ++ post) off = .ok [] ∧
        nodeOrdinal (byteAt (buf' ++ post) off) = 0 ∧
        readNodePayload (buf' ++ post) off none = .ok (some payload.location) := by
  rw [writeLeaf] at h
  obtain ⟨position, hposition, h⟩ := bind_eq_ok.1 h
  obtain ⟨rfl, rfl⟩ := Prod.ext_iff.1 (Except.ok.inj h)
  refine ⟨rfl, _, rfl, fun post => ?_⟩
  obtain ⟨hlow, hhigh, -⟩ := PartitionPayload.position_spec hposition
  obtain ⟨hpos, height, -⟩ := sizedIntsNonZeroSize_spec hlow hhigh
  obtain ⟨flags, hflags⟩ : ∃ flags, flags = flagHasHashByte + (sizedIntsNonZeroSize position - 1) :=
    ⟨_, rfl⟩
  have hlt : 0 < flags ∧ flags < 16 := by
    rw [hflags, flagHasHashByte]
    omega
  have hdecode := decodeBtiPartitionPayload_leaf hposition hashByte (buf ++ [UInt8.ofNat flags]) post
  rw [← hflags, List.length_append, List.length_singleton, List.append_assoc,
    List.singleton_append] at hdecode
  have hleaf := @readsLeaf_of_decode _ "BTI payload read: node_offset out of bounds"
    "PayloadOnly node has zero payload_flags" _ _ _ _ _ hlt.1 hlt.2 hdecode
  simp only [← hflags]
  rw [Nat.mod_eq_of_lt hlt.2, List.append_assoc, List.cons_append]
  refine ⟨hleaf.lt, hleaf.children, ?_, hleaf.payload⟩
  have hbyte : byteAt (buf ++ UInt8.ofNat flags ::
      (hashByte :: sizedIntBe position (sizedIntsNonZeroSize position) ++ post)) buf.length =
      UInt8.ofNat flags := byteAt_append_length buf _ 0
  rw [hbyte]
  exact (leaf_header hlt.2).1

/-! ### The nodes still open -/

/-- The bytes on the way to the deepest node. -/
def stackPath : List PendingNode → Bytes
  | [] => []
  | [_] => []
  | node :: above => stackPath above ++ [node.transitionByte]

/-- Puts a path before the entries'. -/
def underPath (path : Bytes) (entries : List (Bytes × BtiPartitionLocation)) :
    List (Bytes × BtiPartitionLocation) :=
  entries.map fun e => (path ++ e.1, e.2)

theorem underPath_under (path : Bytes) (b : UInt8) (entries : List (Bytes × BtiPartitionLocation)) :
    underPath path (Forest.under b entries) = underPath (path ++ [b]) entries := by
  simp [underPath, Forest.under, Function.comp_def]

/-- What the buffer holds below a node, whatever follows. -/
structure Subtrees (buf : Bytes) (level : Nat) (cs : List (UInt8 × Nat))
    (f : Forest UInt8 BtiPartitionLocation) (offs : List Nat) : Prop where
  nodes : ∀ post, (buf ++ post).length < 2 ^ 64 → PartitionNodes (buf ++ post) level cs f offs
  ascending : f.Ascending
  edges : f.edges = cs.map (·.1)
  offsLt : ∀ off ∈ offs, off < buf.length
  childrenLt : ∀ c ∈ cs, c.2 < buf.length

section

variable {buf : Bytes} {level : Nat} {cs : List (UInt8 × Nat)}
  {f : Forest UInt8 BtiPartitionLocation} {offs : List Nat}

theorem Subtrees.nil (buf : Bytes) (level : Nat) : Subtrees buf level [] .nil [] where
  nodes _ _ := .nil
  ascending := trivial
  edges := rfl
  offsLt _ h := nomatch h
  childrenLt _ h := nomatch h

theorem Subtrees.sorted (h : Subtrees buf level cs f offs) : (cs.map (·.1)).Pairwise (· < ·) := by
  rw [← h.edges]
  exact h.ascending.edges_sorted

theorem Subtrees.ne_nil (h : Subtrees buf level cs f offs) (hcs : cs ≠ []) : f ≠ .nil := by
  rintro rfl
  exact hcs (List.map_eq_nil_iff.1 h.edges.symm)

theorem Subtrees.grow (h : Subtrees buf level cs f offs) (written : Bytes) :
    Subtrees (buf ++ written) level cs f offs where
  nodes post hsize := by
    rw [List.append_assoc] at hsize ⊢
    exact h.nodes _ hsize
  ascending := h.ascending
  edges := h.edges
  offsLt off hoff := by
    rw [List.length_append]
    exact Nat.lt_add_right _ (h.offsLt off hoff)
  childrenLt c hc := by
    rw [List.length_append]
    exact Nat.lt_add_right _ (h.childrenLt c hc)

theorem Subtrees.link (h : Subtrees buf level cs f offs) {b : UInt8} {payload}
    {children : Forest UInt8 BtiPartitionLocation} {below : List Nat} {written : Bytes}
    (hpos : written ≠ [])
    (hnew : ∀ post, (buf ++ written ++ post).length < 2 ^ 64 →
      PartitionNodes (buf ++ written ++ post) level [(b, buf.length)] (.cons b payload children .nil)
        (buf.length :: below))
    (hasc : children.Ascending) (hbelow : ∀ off ∈ below, off < buf.length)
    (hlast : ∀ c ∈ cs, c.1 < b) :
    Subtrees (buf ++ written) level (cs ++ [(b, buf.length)])
      (f.append (.cons b payload children .nil)) (offs ++ (buf.length :: below)) where
  nodes post hsize := ((h.grow written).nodes post hsize).append (hnew post hsize)
  ascending := by
    refine h.ascending.append ⟨fun a ha => (nomatch ha), hasc, trivial⟩ fun a ha c hc => ?_
    rw [h.edges] at ha
    obtain ⟨d, hd, rfl⟩ := List.mem_map.1 ha
    obtain rfl := List.mem_singleton.1 hc
    exact hlast d hd
  edges := by
    rw [Forest.edges_append, h.edges, List.map_append]
    rfl
  offsLt off hoff := by
    have hwritten := List.length_pos_iff.2 hpos
    rw [List.length_append]
    rcases List.mem_append.1 hoff with hoff | hoff
    · exact Nat.lt_add_right _ (h.offsLt off hoff)
    · rcases List.mem_cons.1 hoff with rfl | hoff
      · omega
      · exact Nat.lt_add_right _ (hbelow off hoff)
  childrenLt c hc := by
    have hwritten := List.length_pos_iff.2 hpos
    rw [List.length_append]
    rcases List.mem_append.1 hc with hc | hc
    · exact Nat.lt_add_right _ (h.childrenLt c hc)
    · obtain rfl := List.mem_singleton.1 hc
      simp only
      omega

end

/-- What the buffer holds below the open nodes: their entries in order, and the offsets in use. -/
inductive Pending (buf : Bytes) :
    List PendingNode → List (Bytes × BtiPartitionLocation) → List Nat → Prop
  | nil : Pending buf [] [] []
  | cons {node : PendingNode} {above : List PendingNode} {entries : List (Bytes × BtiPartitionLocation)}
      {f : Forest UInt8 BtiPartitionLocation} {offs offs' : List Nat} :
      Pending buf above entries offs → above.length < partitionTrieKeyLen →
      Subtrees buf (partitionTrieKeyLen - 1 - above.length) node.childOffsets f offs' →
      (∀ parent ∈ above.head?, ∀ c ∈ parent.childOffsets, c.1 < node.transitionByte) →
      Pending buf (node :: above) (entries ++ underPath (stackPath (node :: above)) f.entries)
        (offs' ++ offs)

section

variable {buf : Bytes} {stack : List PendingNode} {entries : List (Bytes × BtiPartitionLocation)}
  {offs : List Nat}

theorem Pending.lt (h : Pending buf stack entries offs) {off : Nat} (hoff : off ∈ offs) :
    off < buf.length := by
  induction h with
  | nil => cases hoff
  | cons _ _ hsub _ ih => exact (List.mem_append.1 hoff).elim (hsub.offsLt off) ih

theorem Pending.grow (h : Pending buf stack entries offs) (written : Bytes) :
    Pending (buf ++ written) stack entries offs := by
  induction h with
  | nil => exact .nil
  | cons _ hlen hsub hbelow ih => exact .cons ih hlen (hsub.grow written) hbelow

theorem Pending.link {node : PendingNode} {above : List PendingNode}
    (h : Pending buf (node :: above) entries offs) {b : UInt8} {payload}
    {children : Forest UInt8 BtiPartitionLocation} {below : List Nat} {written : Bytes}
    (hpos : written ≠ [])
    (hnew : ∀ post, (buf ++ written ++ post).length < 2 ^ 64 →
      PartitionNodes (buf ++ written ++ post) (partitionTrieKeyLen - 1 - above.length)
        [(b, buf.length)] (.cons b payload children .nil) (buf.length :: below))
    (hasc : children.Ascending) (hlast : ∀ c ∈ node.childOffsets, c.1 < b)
    (hfree : ∀ off ∈ below, off < buf.length) (hnodup : (below ++ offs).Nodup) :
    ∃ offs', Pending (buf ++ written)
        ({ node with childOffsets := node.childOffsets ++ [(b, buf.length)] } :: above)
        (entries ++ underPath (stackPath (node :: above))
          (Forest.under b (Forest.nodeEntries payload children))) offs' ∧ offs'.Nodup := by
  have hlt : ∀ off ∈ offs, off < buf.length := fun off hoff => h.lt hoff
  cases h with
  | @cons _ _ entries f offs offs' habove hlen hsub hbelow =>
    have hentries : (f.append (.cons b payload children .nil)).entries =
        f.entries ++ Forest.under b (Forest.nodeEntries payload children) := by
      rw [Forest.entries_append, Forest.entries_cons, Forest.entries, List.append_nil]
    have hpath : stackPath ({ node with childOffsets := node.childOffsets ++ [(b, buf.length)] } :: above) =
        stackPath (node :: above) := by cases above <;> rfl
    refine ⟨offs' ++ (buf.length :: below) ++ offs, ?_, ?_⟩
    · have hstack := @Pending.cons _ { node with childOffsets := node.childOffsets ++ [(b, buf.length)] }
        _ _ _ _ _ (habove.grow written) hlen (hsub.link hpos hnew hasc hfree hlast) hbelow
      rw [hpath, hentries] at hstack
      simpa only [underPath, List.map_append, List.append_assoc] using hstack
    · have hperm : (offs' ++ (buf.length :: below) ++ offs).Perm
          (buf.length :: (below ++ (offs' ++ offs))) := by
        refine (List.Perm.append_right offs List.perm_append_comm).trans (.of_eq (by simp))
      rw [hperm.nodup_iff, List.nodup_cons]
      refine ⟨fun hmem => ?_, hnodup⟩
      exact lt_irrefl _ ((List.mem_append.1 hmem).elim (hfree _) (hlt _))

end

/-! ### One step of the sweep -/

/-- The only way writing an inner node fails. -/
def deltaError : Error := .invalidInput "BTI Partitions.db trie too large: backward delta exceeds 40 bits"

/-- A result with a property, or the error of a delta too great for a buffer of so many bytes. -/
def Yields {α : Type} (size : Nat) (P : α → Prop) : Except Error α → Prop
  | .ok a => P a
  | .error e => e = deltaError ∧ 2 ^ 40 ≤ size

variable {size : Nat} {x : Except Error α}

theorem Yields.bind {β : Type} {P : α → Prop} {Q : β → Prop} {f : α → Except Error β}
    (h : Yields size P x) (hf : ∀ a, P a → Yields size Q (f a)) :
    Yields size Q (x >>= f) := by
  cases x with
  | error => exact h
  | ok a => exact hf a h

theorem Yields.imp {P Q : α → Prop} (h : Yields size P x) (himp : ∀ a, P a → Q a) :
    Yields size Q x := by
  cases x with
  | error => exact h
  | ok a => exact himp a h

theorem Yields.mono {size size' : Nat} {P : α → Prop} (h : Yields size P x) (hle : size ≤ size') :
    Yields size' P x := by
  cases x with
  | error => exact ⟨h.1, h.2.trans hle⟩
  | ok => exact h

theorem length_le_of_sorted_bytes (h : (cs.map (·.1)).Pairwise (· < ·)) : cs.length ≤ 256 := by
  have hnats : (cs.map fun c => c.1.toNat).Pairwise (· < ·) := by
    rw [List.pairwise_map] at h ⊢
    exact h.imp UInt8.lt_iff_toNat_lt.1
  by_contra hlong
  have hlast := @add_le_getElem _ hnats 0 256 (by simp; omega)
  have hbyte : cs[0 + 256].1.toNat < 256 := UInt8.toNat_lt _
  simp only [List.getElem_map] at hlast
  omega

/-- An inner node takes so many bytes, and one without a place for its deltas lies far behind. -/
theorem emitInternal_yields (hne : cs ≠ []) (hsorted : (cs.map (·.1)).Pairwise (· < ·))
    (buf : Bytes) :
    Yields buf.length (fun r => r.1 = buf.length ∧ ∃ node, r.2 = buf ++ node ∧ node ≠ [] ∧
      node.length ≤ 3 + 8 * cs.length ∧
      (r.2.length < 2 ^ 64 → InnerNode buf.length cs node)) (emitInternal cs buf) := by
  cases h : emitInternal cs buf with
  | ok r =>
    obtain ⟨off, buf'⟩ := r
    obtain ⟨node, hoff, hbuf, hnode, hlen⟩ : ∃ node, off = buf.length ∧ buf' = buf ++ node ∧ node ≠ [] ∧
        node.length ≤ 3 + 8 * cs.length := by
      rw [emitInternal] at h
      split at h
      · next hfull =>
        rw [writeDense, if_neg (not_not.2 hfull)] at h
        obtain ⟨⟨ordinal, ptrBytes⟩, hordinal, h⟩ := bind_eq_ok.1 h
        obtain ⟨rfl, rfl⟩ := Prod.ext_iff.1 (Except.ok.inj h)
        refine ⟨_, rfl, rfl, by simp [denseNode], ?_⟩
        have hptr : ptrBytes ≤ 8 := by
          rw [denseOrdinalForDelta] at hordinal
          split_ifs at hordinal <;> cases hordinal <;> decide
        have := Nat.mul_le_mul_left cs.length hptr
        simp only [denseNode, List.length_cons, length_deltaBytes]
        omega
      · rw [writeSparse] at h
        simp only at h
        split at h
        · cases h
        · split at h
          · cases h
          · obtain ⟨⟨ordinal, ptrBytes⟩, hordinal, h⟩ := bind_eq_ok.1 h
            obtain ⟨rfl, rfl⟩ := Prod.ext_iff.1 (Except.ok.inj h)
            refine ⟨_, rfl, rfl, by simp [sparseNode], ?_⟩
            have hptr : ptrBytes ≤ 5 := by
              rw [sparseOrdinalForDelta] at hordinal
              split_ifs at hordinal <;> cases hordinal <;> decide
            have := Nat.mul_le_mul_left cs.length hptr
            simp only [sparseNode, List.length_cons, List.length_append, List.length_map, length_deltaBytes]
            omega
    refine ⟨hoff, node, hbuf, hnode, hlen, fun hsize => ?_⟩
    obtain ⟨-, node', hbuf', hinner⟩ := emitInternal_ok h hsize
    rwa [List.append_cancel_left (hbuf.symm.trans hbuf')]
  | error e =>
    have hlen := length_le_of_sorted_bytes hsorted
    have hmax := maxDelta_le buf.length cs
    rw [emitInternal] at h
    split at h
    · next hfull =>
      obtain ⟨layout, hlayout⟩ : ∃ layout, denseOrdinalForDelta (maxDelta buf.length cs) = .ok layout := by
        rw [denseOrdinalForDelta]
        split_ifs <;> exact ⟨_, rfl⟩
      rw [writeDense, if_neg (not_not.2 hfull)] at h
      simp only [hlayout, bind, Except.bind] at h
      cases h
    · rw [writeSparse] at h
      simp only at h
      rw [if_neg (fun h0 => hne (List.length_eq_zero_iff.1 h0)), if_neg (by omega),
        sparseOrdinalForDelta] at h
      split_ifs at h <;> cases h
      exact ⟨rfl, by omega⟩

/-- What writing the open nodes can still take. -/
def stackCost (stack : List PendingNode) : Nat :=
  (stack.map fun node => 11 + 8 * node.childOffsets.length).sum

theorem stackCost_cons (node : PendingNode) (above : List PendingNode) :
    stackCost (node :: above) = 11 + 8 * node.childOffsets.length + stackCost above := rfl

/-- The stack behind a key: its path is the key's, and what the deepest node has is no further. -/
structure Swept (size : Nat) (buf : Bytes) (stack : List PendingNode) (key : Bytes)
    (entries : List (Bytes × BtiPartitionLocation)) : Prop where
  pending : ∃ offs, Pending buf stack entries offs ∧ offs.Nodup
  path : stackPath stack = key.take (stack.length - 1)
  deepest : ∃ node, stack.head? = some node ∧ node.childOffsets ≠ [] ∧
    ∀ c ∈ node.childOffsets, c.1 ≤ byteAt key (stack.length - 1)
  cost : buf.length + stackCost stack ≤ size

variable {key : Bytes}

theorem take_succ_byteAt {n : Nat} (h : n < key.length) :
    key.take (n + 1) = key.take n ++ [byteAt key n] := by
  rw [List.take_succ_eq_append_getElem h, byteAt, List.getD_eq_getElem?_getD,
    List.getElem?_eq_getElem h]
  rfl

variable {entries : List (Bytes × BtiPartitionLocation)}

theorem Swept.transition {node parent : PendingNode} {above : List PendingNode}
    (h : Swept size buf (node :: parent :: above) key entries) (hlt : above.length < key.length) :
    stackPath (parent :: above) = key.take above.length ∧
      node.transitionByte = byteAt key above.length := by
  have hpath : stackPath (parent :: above) ++ [node.transitionByte] = key.take (above.length + 1) :=
    h.path
  rw [take_succ_byteAt hlt] at hpath
  obtain ⟨hparent, hbyte⟩ := List.append_inj' hpath rfl
  exact ⟨hparent, (List.cons.inj hbyte).1⟩

variable {stack : List PendingNode} {prev : Bytes}

/-- Closing the deepest node keeps the invariant. -/
theorem Swept.pop (h : Swept size buf stack key entries) (hlen : 2 ≤ stack.length)
    (hkey : key.length = partitionTrieKeyLen) :
    Yields size (fun r => Swept size r.2 r.1 key entries ∧ r.1.length + 1 = stack.length)
      (popAndLink stack buf) := by
  match stack, hlen with
  | node :: parent :: above, _ =>
    obtain ⟨offs, hpending, hnodup⟩ := h.pending
    obtain ⟨_, hhead, hne, -⟩ := h.deepest
    obtain rfl := Option.some.inj hhead
    have hcost := h.cost
    cases hpending with
    | @cons _ _ entries f offs offs' habove hdepth hsub hbelow =>
      rw [List.length_cons] at hdepth
      obtain ⟨hparent, hbyte⟩ := h.transition (by omega)
      refine ((emitInternal_yields hne hsub.sorted buf).mono (by omega)).bind ?_
      rintro ⟨off, bufNew⟩ ⟨rfl, written, rfl, hpos, hshort, hnode⟩
      have hlevel : partitionTrieKeyLen - 1 - above.length =
          partitionTrieKeyLen - 1 - (parent :: above).length + 1 := by
        rw [List.length_cons]
        omega
      have hnew : ∀ post, (buf ++ written ++ post).length < 2 ^ 64 →
          PartitionNodes (buf ++ written ++ post) (partitionTrieKeyLen - 1 - above.length)
            [(node.transitionByte, buf.length)] (.cons node.transitionByte none f .nil)
            (buf.length :: (offs' ++ [])) := fun post hsize => by
        have hinner := hnode (by rw [List.length_append] at hsize; exact lt_of_le_of_lt (Nat.le_add_right _ _) hsize)
        have hreads := hinner.reads hsub.sorted hsub.childrenLt post
        rw [hlevel]
        exact .inner hreads.lt hreads.children hreads.inner hreads.noFlags
          (hinner.finds hsub.sorted hsub.childrenLt post) (hsub.ne_nil hne)
          ((hsub.grow written).nodes post hsize) .nil
      rw [List.append_nil] at hnew
      obtain ⟨offsNew, hlinked, hnodupNew⟩ := habove.link hpos hnew hsub.ascending (hbelow parent rfl)
        hsub.offsLt hnodup
      rw [underPath_under] at hlinked
      refine ⟨⟨⟨offsNew, hlinked, hnodupNew⟩, ?_, ⟨_, rfl, by simp, ?_⟩, ?_⟩, rfl⟩
      · rw [List.length_cons, Nat.add_sub_cancel, ← hparent]
        cases above <;> rfl
      · intro c hc
        rw [List.length_cons, Nat.add_sub_cancel, ← hbyte]
        rcases List.mem_append.1 hc with hc | hc
        · exact (hbelow parent rfl c hc).le
        · obtain rfl := List.mem_singleton.1 hc
          exact le_refl _
      · simp only [stackCost_cons, List.length_append, List.length_singleton] at hcost ⊢
        omega

theorem Swept.popDeeper (h : Swept size buf stack key entries) {keep : Nat} (hkeep : 0 < keep)
    (hle : keep ≤ stack.length) (hkey : key.length = partitionTrieKeyLen) :
    Yields size (fun r => Swept size r.2 r.1 key entries ∧ r.1.length = keep)
      (popDeeper keep stack buf) := by
  rw [Cqlite.popDeeper]
  obtain ⟨n, hn⟩ : ∃ n, n = stack.length - keep := ⟨_, rfl⟩
  rw [← hn]
  induction n generalizing stack buf with
  | zero => exact ⟨h, by simp only; omega⟩
  | succ n ih =>
    rw [popTimes]
    refine (h.pop (by omega) hkey).bind ?_
    rintro ⟨stack', buf'⟩ ⟨hswept, hlen⟩
    simp only at hswept hlen ⊢
    exact ih hswept (by omega) (by omega)

/-- The stack on the way to a new leaf: what the deepest node has is before it. -/
structure Opened (size : Nat) (buf : Bytes) (stack : List PendingNode) (key : Bytes)
    (entries : List (Bytes × BtiPartitionLocation)) : Prop where
  pending : ∃ offs, Pending buf stack entries offs ∧ offs.Nodup
  path : stackPath stack = key.take (stack.length - 1)
  before : ∀ node ∈ stack.head?, ∀ c ∈ node.childOffsets, c.1 < byteAt key (stack.length - 1)
  cost : buf.length + stackCost stack + 11 * (partitionTrieKeyLen - stack.length) ≤ size

theorem Opened.push {buf key : Bytes} {stack : List PendingNode}
    (h : Opened size buf stack key entries) (hlt : stack.length < partitionTrieKeyLen)
    (hkey : key.length = partitionTrieKeyLen) :
    Opened size buf
      ({ transitionByte := if stack.length = 0 then 0 else byteAt key (stack.length - 1),
         childOffsets := [] } :: stack) key entries := by
  obtain ⟨offs, hpending, hnodup⟩ := h.pending
  refine ⟨⟨offs, ?_, hnodup⟩, ?_, ?_, ?_⟩
  · have hcons := @Pending.cons _
      { transitionByte := if stack.length = 0 then 0 else byteAt key (stack.length - 1),
        childOffsets := [] }
      _ _ _ _ _ hpending hlt (Subtrees.nil buf _) fun parent hparent c hc => by
      have hne : stack.length ≠ 0 := fun h0 => by
        rw [List.length_eq_zero_iff.1 h0] at hparent
        cases hparent
      simp only
      rw [if_neg hne]
      exact h.before parent hparent c hc
    simpa [underPath, Forest.entries] using hcons
  · cases stack with
    | nil => rfl
    | cons node above =>
      have hpath := h.path
      rw [List.length_cons, Nat.add_sub_cancel] at hpath
      rw [stackPath, hpath, List.length_cons, List.length_cons, Nat.add_sub_cancel, Nat.add_sub_cancel,
        if_neg (Nat.succ_ne_zero _)]
      · exact (take_succ_byteAt (by rw [List.length_cons] at hlt; omega)).symm
      · exact List.cons_ne_nil _ _
  · intro node hnode c hc
    obtain rfl := Option.some.inj hnode
    cases hc
  · have hcost := h.cost
    simp only [stackCost_cons, List.length_cons, List.length_nil]
    omega

theorem Opened.extend (h : Opened size buf stack key entries)
    (hle : stack.length ≤ partitionTrieKeyLen) (hkey : key.length = partitionTrieKeyLen) :
    Opened size buf (extendPath key (partitionTrieKeyLen - stack.length) stack) key entries ∧
      (extendPath key (partitionTrieKeyLen - stack.length) stack).length = partitionTrieKeyLen := by
  obtain ⟨n, hn⟩ : ∃ n, n = partitionTrieKeyLen - stack.length := ⟨_, rfl⟩
  rw [← hn]
  induction n generalizing stack with
  | zero => exact ⟨h, by rw [extendPath]; omega⟩
  | succ n ih =>
    rw [extendPath]
    exact ih (h.push (by omega) hkey) (by rw [List.length_cons]; omega) (by rw [List.length_cons]; omega)

/-- The offset of either kind. -/
def PartitionPayload.offset : PartitionPayload → Nat
  | .dataOffset offset => offset
  | .rowsOffset offset => offset

theorem writeLeaf_ok (h : payload.offset ≤ i64Max) (hashByte : UInt8) (buf : Bytes) :
    ∃ off buf', writeLeaf hashByte payload buf = .ok (off, buf') ∧ buf'.length ≤ buf.length + 10 ∧
      buf.length < buf'.length := by
  obtain ⟨position, hposition⟩ : ∃ position, payload.position = .ok position := by
    cases payload <;> exact ⟨_, if_neg (not_lt.2 h)⟩
  obtain ⟨hlow, hhigh, -⟩ := PartitionPayload.position_spec hposition
  obtain ⟨hpos, height, -⟩ := sizedIntsNonZeroSize_spec hlow hhigh
  refine ⟨_, _, by rw [writeLeaf, hposition]; rfl, ?_, by simp⟩
  simp only [List.length_append, List.length_cons, sizedIntBe, length_intBytes]
  omega

theorem Opened.leaf {buf buf' key : Bytes} {deepest : PendingNode} {above : List PendingNode}
    {off : Nat} {hashByte : UInt8} (h : Opened size buf (deepest :: above) key entries)
    (hlen : (deepest :: above).length = partitionTrieKeyLen) (hkey : key.length = partitionTrieKeyLen)
    (hleaf : writeLeaf hashByte payload buf = .ok (off, buf')) (hgrows : buf.length < buf'.length)
    (hshort : buf'.length ≤ buf.length + 10) :
    Swept (size + 18) buf'
      ({ deepest with childOffsets :=
          deepest.childOffsets ++ [(byteAt key (partitionTrieKeyLen - 1), off)] } :: above) key
      (entries ++ [(key, payload.location)]) := by
  obtain ⟨rfl, written, rfl, hreads⟩ := writeLeaf_reads hleaf
  obtain ⟨offs, hpending, hnodup⟩ := h.pending
  have hbefore := h.before deepest rfl
  have hpath := h.path
  have hcost := h.cost
  rw [hlen] at hbefore hpath hcost
  have hpos : written ≠ [] := by
    rintro rfl
    simp at hgrows
  have hdepth : partitionTrieKeyLen - 1 - above.length = 0 := by
    rw [List.length_cons] at hlen
    omega
  have hnew : ∀ post, (buf ++ written ++ post).length < 2 ^ 64 →
      PartitionNodes (buf ++ written ++ post) (partitionTrieKeyLen - 1 - above.length)
        [(byteAt key (partitionTrieKeyLen - 1), buf.length)]
        (.cons (byteAt key (partitionTrieKeyLen - 1)) (some payload.location) .nil .nil)
        (buf.length :: []) := fun post _ => by
    obtain ⟨hlt, hchildren, hordinal, hpayload⟩ := hreads post
    rw [hdepth]
    exact .leaf hlt hchildren hordinal hpayload .nil
  obtain ⟨offsNew, hlinked, hnodupNew⟩ := hpending.link hpos hnew trivial hbefore
    (fun _ h => nomatch h) hnodup
  have hentry : underPath (stackPath (deepest :: above)) (Forest.under
      (byteAt key (partitionTrieKeyLen - 1)) (Forest.nodeEntries (some payload.location) .nil)) =
      [(key, payload.location)] := by
    have hfull : key.take (partitionTrieKeyLen - 1) ++ [byteAt key (partitionTrieKeyLen - 1)] = key := by
      rw [← take_succ_byteAt (by rw [hkey]; decide)]
      exact List.take_of_length_le hkey.le
    rw [underPath_under, hpath, hfull]
    simp [underPath, Forest.nodeEntries, Forest.own, Forest.entries]
  rw [hentry] at hlinked
  refine ⟨⟨offsNew, hlinked, hnodupNew⟩, ?_, ⟨_, rfl, by simp, ?_⟩, ?_⟩
  · rw [List.length_cons] at hlen ⊢
    rw [hlen, ← hpath]
    cases above <;> rfl
  · intro c hc
    rw [List.length_cons] at hlen ⊢
    rw [hlen]
    rcases List.mem_append.1 hc with hc | hc
    · exact (hbefore c hc).le
    · obtain rfl := List.mem_singleton.1 hc
      exact le_refl _
  · simp only [stackCost_cons, List.length_append, List.length_singleton] at hcost hshort ⊢
    omega

/-! ### The whole sweep -/

theorem longestCommonPrefix_spec (hlen : key.length = prev.length) (h : prev < key) :
    longestCommonPrefix key prev < key.length ∧
      key.take (longestCommonPrefix key prev) = prev.take (longestCommonPrefix key prev) ∧
      byteAt prev (longestCommonPrefix key prev) < byteAt key (longestCommonPrefix key prev) := by
  induction key generalizing prev with
  | nil => exact absurd h (List.not_lt_nil _)
  | cons a key ih =>
    cases prev with
    | nil => cases hlen
    | cons b prev =>
      rw [longestCommonPrefix]
      by_cases hab : a = b
      · subst hab
        have hrest : prev < key := by simpa [List.cons_lt_cons_iff] using h
        obtain ⟨hlt, htake, hbyte⟩ := ih (by simpa using hlen) hrest
        rw [if_pos rfl, List.take_succ_cons, List.take_succ_cons, htake]
        exact ⟨by simpa using hlt, rfl, hbyte⟩
      · rw [if_neg hab]
        refine ⟨by simp, rfl, ?_⟩
        rcases List.cons_lt_cons_iff.1 h with hlt | ⟨heq, -⟩
        · exact hlt
        · exact absurd heq.symm hab

/-- What the state holds behind an entry. -/
def SweepState.Holds (state : SweepState) (size : Nat) (key : Bytes)
    (entries : List (Bytes × BtiPartitionLocation)) : Prop :=
  state.prevKey = some key ∧ state.stack.length = partitionTrieKeyLen ∧
    Swept size state.buf state.stack key entries

/-- The key and the payload as they are read. -/
def PartitionTrieEntry.read (entry : PartitionTrieEntry) : Bytes × BtiPartitionLocation :=
  (entry.key, entry.payload.location)

/-- A key of nine bytes and an offset below 2^63. -/
structure PartitionTrieEntry.Valid (entry : PartitionTrieEntry) : Prop where
  key : entry.key.length = partitionTrieKeyLen
  payload : entry.payload.offset ≤ i64Max

variable {entry : PartitionTrieEntry}

theorem Opened.appendLeaf (h : Opened size buf stack entry.key entries)
    (hle : stack.length ≤ partitionTrieKeyLen) (hentry : entry.Valid) :
    Yields (size + 18) (fun state => state.Holds (size + 18) entry.key (entries ++ [entry.read]))
      (appendLeaf entry stack buf) := by
  obtain ⟨hopened, hlen⟩ := h.extend hle hentry.key
  obtain ⟨off, buf', hleaf, hshort, hgrows⟩ := writeLeaf_ok hentry.payload entry.hashByte buf
  rw [Cqlite.appendLeaf]
  simp only [hleaf, bind, Except.bind]
  cases hstack : extendPath entry.key (partitionTrieKeyLen - stack.length) stack with
  | nil =>
    rw [hstack] at hlen
    cases hlen
  | cons deepest above =>
    rw [hstack] at hopened hlen
    exact ⟨rfl, hlen, hopened.leaf hlen hentry.key hleaf hgrows hshort⟩

theorem emitEntry_first (hentry : entry.Valid) :
    Yields 117 (fun state => state.Holds 117 entry.key [entry.read])
      (emitEntry { stack := [], prevKey := none, buf := [] } entry) := by
  have hopened : Opened 99 [] [] entry.key [] :=
    ⟨⟨[], .nil, .nil⟩, rfl, fun _ h => (nomatch h), by decide⟩
  exact hopened.appendLeaf (Nat.zero_le _) hentry

theorem emitEntry_yields {state : SweepState} (h : state.Holds size prev entries)
    (hprev : prev.length = partitionTrieKeyLen) (hentry : entry.Valid) (hlt : prev < entry.key) :
    Yields (size + 117) (fun next => next.Holds (size + 117) entry.key (entries ++ [entry.read]))
      (emitEntry state entry) := by
  obtain ⟨hkey, hlen, hswept⟩ := h
  obtain ⟨hlcp, htake, hbyte⟩ := longestCommonPrefix_spec (hentry.key.trans hprev.symm) hlt
  obtain ⟨lcp, hn⟩ : ∃ lcp, lcp = longestCommonPrefix entry.key prev := ⟨_, rfl⟩
  rw [← hn] at hlcp htake hbyte
  rw [hentry.key] at hlcp
  rw [emitEntry]
  simp only [hkey, ← hn]
  refine ((hswept.popDeeper (show 0 < lcp + 1 by omega) (by omega) hprev).mono (by omega)).bind ?_
  rintro ⟨stack, buf⟩ ⟨hpopped, hstack⟩
  simp only at hpopped hstack ⊢
  obtain ⟨node, hhead, -, hlast⟩ := hpopped.deepest
  have hpath := hpopped.path
  have hcost := hpopped.cost
  rw [hstack, Nat.add_sub_cancel] at hpath hlast
  have hopened : Opened (size + 99) buf stack entry.key entries := by
    refine ⟨hpopped.pending, ?_, fun node' hnode' c hc => ?_, ?_⟩
    · rw [hpath, hstack, Nat.add_sub_cancel, htake]
    · rw [hhead] at hnode'
      obtain rfl := Option.some.inj hnode'
      rw [hstack, Nat.add_sub_cancel]
      exact (hlast c hc).trans_lt hbyte
    · rw [hstack, partitionTrieKeyLen]
      omega
  exact hopened.appendLeaf (by omega) hentry

theorem foldlM_emitEntry_yields {rest : List PartitionTrieEntry} {state : SweepState}
    (h : state.Holds size prev entries) (hprev : prev.length = partitionTrieKeyLen)
    (hvalid : ∀ entry ∈ rest, entry.Valid) (hsorted : (prev :: rest.map (·.key)).Pairwise (· < ·)) :
    Yields (size + 117 * rest.length)
      (fun next => ∃ last, last.length = partitionTrieKeyLen ∧
        next.Holds (size + 117 * rest.length) last (entries ++ rest.map (·.read)))
      (rest.foldlM emitEntry state) := by
  induction rest generalizing size state prev entries with
  | nil => exact ⟨prev, hprev, by simpa using h⟩
  | cons entry rest ih =>
    obtain ⟨hfirst, hrest⟩ := List.pairwise_cons.1 hsorted
    have hentry := hvalid entry List.mem_cons_self
    have hsize : size + 117 * (entry :: rest).length = size + 117 + 117 * rest.length := by
      rw [List.length_cons]
      omega
    rw [List.foldlM_cons, hsize]
    refine ((emitEntry_yields h hprev hentry (hfirst _ List.mem_cons_self)).mono (by omega)).bind ?_
    intro next hnext
    refine (ih hnext hentry.key (fun e he => hvalid e (List.mem_cons_of_mem _ he)) hrest).imp ?_
    rintro last ⟨key, hkey, hlast⟩
    refine ⟨key, hkey, ?_⟩
    rwa [List.append_assoc] at hlast

/-- The sorted entries are the trie's, and it takes up to 117 bytes for each. -/
theorem emitPartitionsTrie_yields {entries : List PartitionTrieEntry} (hne : entries ≠ [])
    (hvalid : ∀ entry ∈ entries, entry.Valid)
    (hsorted : (entries.map (·.key)).Pairwise (· < ·)) :
    Yields (117 * entries.length)
      (fun r => ∃ f : Forest UInt8 BtiPartitionLocation, f.entries = entries.map (·.read) ∧
        r.1 < r.2.length ∧ r.2.length ≤ 117 * entries.length ∧
        ∀ post, (r.2 ++ post).length < 2 ^ 64 →
          PartitionRoot (r.2 ++ post) r.1 (partitionTrieKeyLen - 1) f)
      (emitPartitionsTrie entries []) := by
  cases entries with
  | nil => exact absurd rfl hne
  | cons entry rest =>
    have hentry := hvalid entry List.mem_cons_self
    have hsize : 117 * (entry :: rest).length = 117 + 117 * rest.length := by
      rw [List.length_cons]
      omega
    have hrun : Yields (117 + 117 * rest.length)
        (fun state => ∃ last, last.length = partitionTrieKeyLen ∧
          state.Holds (117 + 117 * rest.length) last ((entry :: rest).map (·.read)))
        ((entry :: rest).foldlM emitEntry { stack := [], prevKey := none, buf := [] }) := by
      rw [List.foldlM_cons]
      refine ((emitEntry_first hentry).mono (by omega)).bind fun state hstate => ?_
      exact foldlM_emitEntry_yields hstate hentry.key
        (fun e he => hvalid e (List.mem_cons_of_mem _ he)) hsorted
    rw [emitPartitionsTrie, if_neg (by simp), hsize]
    refine hrun.bind ?_
    rintro state ⟨last, hlast, -, hlen, hswept⟩
    refine (hswept.popDeeper Nat.one_pos (by rw [hlen]; decide) hlast).bind ?_
    rintro ⟨stack, buf⟩ ⟨hroot, hone⟩
    simp only at hroot hone ⊢
    obtain ⟨root, rfl⟩ := List.length_eq_one_iff.1 hone
    obtain ⟨offs, hpending, hnodup⟩ := hroot.pending
    obtain ⟨_, hhead, hne, -⟩ := hroot.deepest
    obtain rfl := Option.some.inj hhead
    have hcost := hroot.cost
    rw [stackCost_cons] at hcost
    generalize hentries : (entry :: rest).map (·.read) = read at hpending ⊢
    cases hpending with
    | @cons _ _ _ f _ offs' habove _ hsub _ =>
      cases habove
      refine ((emitInternal_yields hne hsub.sorted buf).mono (by omega)).imp ?_
      rintro ⟨off, bufNew⟩ ⟨rfl, written, rfl, hpos, hshort, hnode⟩
      have hwritten := List.length_pos_iff.2 hpos
      have hlevel : partitionTrieKeyLen - 1 - ([] : List PendingNode).length = partitionTrieKeyLen - 1 := rfl
      rw [hlevel] at hsub
      refine ⟨f, by simp [underPath, stackPath], ?_, ?_, fun post hsize => ?_⟩
      · simp only [List.length_append]
        omega
      · simp only [List.length_append, stackCost, List.map_nil, List.sum_nil] at hcost ⊢
        omega
      · have hinner := hnode (by
          rw [List.length_append] at hsize
          exact lt_of_le_of_lt (Nat.le_add_right _ _) hsize)
        have hreads := hinner.reads hsub.sorted hsub.childrenLt post
        refine ⟨hreads.lt, hreads.inner, hreads.noFlags, hsub.ascending, _, offs', hreads.children,
          hinner.finds hsub.sorted hsub.childrenLt post, (hsub.grow written).nodes post hsize, ?_⟩
        rw [List.append_nil] at hnodup
        refine List.nodup_cons.2 ⟨fun hmem => ?_, hnodup⟩
        exact lt_irrefl _ (hsub.offsLt _ hmem)

/-! ### The file -/

/-- The entry made of a partition. -/
def partitionEntry (part : Bytes × PartitionPayload) : PartitionTrieEntry where
  key := encodePartitionKeyForBtiTrie part.1
  hashByte := (cassandraMurmur3X64128 part.1).2.toUInt8
  payload := part.2

/-- A writer to which partitions were added, in any order. -/
def addPartitions (parts : List (Bytes × PartitionPayload)) : PartitionsTrieWriter :=
  parts.foldl (fun w part => w.addPartitionWithPayload part.1 part.2) {}

/-- Partitions in the order of their tokens. -/
def byToken (parts : List (Bytes × PartitionPayload)) : List (Bytes × PartitionPayload) :=
  parts.insertionSort fun a b => cassandraMurmur3Token a.1 ≤ cassandraMurmur3Token b.1

/-- The raw key of a partition with a least or a greatest key. -/
def IsBoundary (parts : List (Bytes × PartitionPayload)) (raw : Bytes) : Prop :=
  ∃ part ∈ parts, part.1 = raw ∧
    ((∀ other ∈ parts, cassandraMurmur3Token raw ≤ cassandraMurmur3Token other.1) ∨
      ∀ other ∈ parts, cassandraMurmur3Token other.1 ≤ cassandraMurmur3Token raw)

/-- Finite sets of partitions: their tokens are distinct and their offsets below 2^63. -/
structure PartitionSet (parts : List (Bytes × PartitionPayload)) : Prop where
  distinct : (parts.map fun part => cassandraMurmur3Token part.1).Nodup
  payload : ∀ part ∈ parts, part.2.offset ≤ i64Max

/-- What reading the file gives. -/
structure TrieExact (parts : List (Bytes × PartitionPayload)) (bytes : Bytes) : Prop where
  member : ∀ part ∈ parts, lookupPartitionInBtiSlice bytes (encodePartitionKeyForBtiTrie part.1) =
    .ok (some part.2.location)
  absent : ∀ token, i64Min ≤ token → token ≤ i64Max →
    (∀ part ∈ parts, cassandraMurmur3Token part.1 ≠ token) →
    lookupPartitionInBtiSlice bytes (encodeBtiTrieKeyFromToken token) = .ok none
  enumerate : ∃ trieData root, splitFooter bytes = .ok (trieData, root) ∧
    dfsCollectPartitionEntries trieData root = .ok ((byToken parts).map fun part =>
      (encodePartitionKeyForBtiTrie part.1, part.2.location))
  successor : ∀ before part after, byToken parts = before ++ part :: after →
    partitionSuccessorInBtiSlice bytes (encodePartitionKeyForBtiTrie part.1) =
      .ok (after.head?.map (·.2.location))

section

variable {parts : List (Bytes × PartitionPayload)}

theorem entries_addPartitions (parts : List (Bytes × PartitionPayload)) :
    (addPartitions parts).entries = parts.map partitionEntry := by
  have hrun : ∀ (l : List (Bytes × PartitionPayload)) (w : PartitionsTrieWriter),
      (l.foldl (fun w part => w.addPartitionWithPayload part.1 part.2) w).entries =
        w.entries ++ l.map partitionEntry := by
    intro l
    induction l with
    | nil => intro w; simp
    | cons part l ih =>
      intro w
      rw [List.foldl_cons, ih, List.map_cons]
      exact List.append_assoc _ _ _
  exact hrun parts {}

theorem encodePartitionKeyForBtiTrie_le {a b : Bytes}
    (h : encodePartitionKeyForBtiTrie a ≤ encodePartitionKeyForBtiTrie b) :
    cassandraMurmur3Token a ≤ cassandraMurmur3Token b :=
  not_lt.1 fun hlt => absurd (encodePartitionKeyForBtiTrie_lt_iff.2 hlt) (not_lt.2 h)

/-- The raw key kept is the one of an extremal key. -/
def KeptBy (r : Bytes → Bytes → Prop) (kept : Option (Bytes × Bytes))
    (parts : List (Bytes × PartitionPayload)) : Prop :=
  match kept with
  | none => parts = []
  | some (key, raw) => key = encodePartitionKeyForBtiTrie raw ∧ (∃ part ∈ parts, part.1 = raw) ∧
    ∀ other ∈ parts, r key (encodePartitionKeyForBtiTrie other.1)

theorem KeptBy.step {r : Bytes → Bytes → Prop} [DecidableRel r] (htotal : ∀ a b, r a b ∨ r b a)
    (htrans : ∀ {a b c}, r a b → r b c → r a c) {kept : Option (Bytes × Bytes)}
    (h : KeptBy r kept parts) (part : Bytes × PartitionPayload) :
    KeptBy r (match (motive := Option (Bytes × Bytes) → Option (Bytes × Bytes)) kept with
      | some (key, raw) =>
        if r key (encodePartitionKeyForBtiTrie part.1) then some (key, raw)
        else some (encodePartitionKeyForBtiTrie part.1, part.1)
      | none => some (encodePartitionKeyForBtiTrie part.1, part.1)) (parts ++ [part]) := by
  have hrefl : ∀ a, r a a := fun a => (htotal a a).elim id id
  have hself : ∃ p ∈ parts ++ [part], p.1 = part.1 :=
    ⟨part, List.mem_append_right _ List.mem_cons_self, rfl⟩
  cases kept with
  | none =>
    rw [KeptBy] at h
    subst h
    refine ⟨rfl, hself, fun other hother => ?_⟩
    obtain rfl := List.mem_singleton.1 hother
    exact hrefl _
  | some first =>
    obtain ⟨key, raw⟩ := first
    obtain ⟨hkey, ⟨p, hp, hraw⟩, hall⟩ := h
    simp only
    split
    · next hr =>
      refine ⟨hkey, ⟨p, List.mem_append_left _ hp, hraw⟩, fun other hother => ?_⟩
      rcases List.mem_append.1 hother with hother | hother
      · exact hall other hother
      · obtain rfl := List.mem_singleton.1 hother
        exact hr
    · next hr =>
      have hnew := (htotal key (encodePartitionKeyForBtiTrie part.1)).resolve_left hr
      refine ⟨rfl, hself, fun other hother => ?_⟩
      rcases List.mem_append.1 hother with hother | hother
      · exact htrans hnew (hall other hother)
      · obtain rfl := List.mem_singleton.1 hother
        exact hrefl _

theorem keptBy_addPartitions (parts : List (Bytes × PartitionPayload)) :
    KeptBy (· ≤ ·) (addPartitions parts).firstRaw parts ∧
      KeptBy (· ≥ ·) (addPartitions parts).lastRaw parts := by
  have hrun : ∀ (l before : List (Bytes × PartitionPayload)) (w : PartitionsTrieWriter),
      KeptBy (· ≤ ·) w.firstRaw before ∧ KeptBy (· ≥ ·) w.lastRaw before →
      KeptBy (· ≤ ·) (l.foldl (fun w part => w.addPartitionWithPayload part.1 part.2) w).firstRaw
          (before ++ l) ∧
        KeptBy (· ≥ ·) (l.foldl (fun w part => w.addPartitionWithPayload part.1 part.2) w).lastRaw
          (before ++ l) := by
    intro l
    induction l with
    | nil => intro before w h; simpa using h
    | cons part l ih =>
      intro before w h
      have hnext := ih (before ++ [part]) (w.addPartitionWithPayload part.1 part.2)
        ⟨h.1.step le_total le_trans part, h.2.step (fun a b => le_total b a) (fun h h' => le_trans h' h) part⟩
      rwa [List.append_assoc] at hnext
  exact hrun parts [] {} ⟨rfl, rfl⟩

theorem byToken_perm (parts : List (Bytes × PartitionPayload)) : (byToken parts).Perm parts :=
  List.perm_insertionSort _ _

theorem PartitionSet.byToken_sorted (h : PartitionSet parts) :
    (byToken parts).Pairwise fun a b => cassandraMurmur3Token a.1 < cassandraMurmur3Token b.1 := by
  have hle := Rank.sortBy_sorted (fun part : Bytes × PartitionPayload => cassandraMurmur3Token part.1) parts
  have hne := List.pairwise_map.1 (((byToken_perm parts).map _).nodup_iff.2 h.distinct)
  exact hle.imp₂ (fun _ _ hab hne => lt_of_le_of_ne hab hne) hne

theorem PartitionSet.sorted_entries (h : PartitionSet parts) :
    (parts.map partitionEntry).insertionSort (fun a b => a.key ≤ b.key) =
      (byToken parts).map partitionEntry := by
  have hstrict : ((byToken parts).map partitionEntry).Pairwise fun a b => a.key < b.key :=
    List.pairwise_map.2 (h.byToken_sorted.imp fun hab => encodePartitionKeyForBtiTrie_lt_iff.2 hab)
  have hperm : ((parts.map partitionEntry).insertionSort fun a b => a.key ≤ b.key).Perm
      ((byToken parts).map partitionEntry) :=
    (List.perm_insertionSort _ _).trans ((byToken_perm parts).symm.map _)
  refine List.Perm.eq_of_pairwise ?_ (Rank.sortBy_sorted PartitionTrieEntry.key _)
    (hstrict.imp fun hab => hab.le) hperm
  intro a b ha hb hab hba
  rw [hperm.mem_iff] at ha
  by_contra hne
  have hsymm : Std.Symm fun a b : PartitionTrieEntry => a.key ≠ b.key := ⟨fun _ _ h => h.symm⟩
  exact (hstrict.imp fun hab => hab.ne).forall ha hb hne (le_antisymm hab hba)

theorem hasDuplicateKey_false {entries : List PartitionTrieEntry}
    (h : (entries.map (·.key)).Pairwise (· < ·)) : hasDuplicateKey entries = false := by
  induction entries with
  | nil => rfl
  | cons a entries ih =>
    obtain ⟨hfirst, hrest⟩ := List.pairwise_cons.1 h
    cases entries with
    | nil => rfl
    | cons b entries =>
      have hlt : a.key < b.key := hfirst _ List.mem_cons_self
      rw [hasDuplicateKey, ih hrest, Bool.or_false]
      simpa using hlt.ne

theorem partitionEntry_valid (h : PartitionSet parts) {part : Bytes × PartitionPayload}
    (hpart : part ∈ parts) : (partitionEntry part).Valid :=
  ⟨length_encodeBtiTrieKey _, h.payload part hpart⟩

/-- The file read back from a trie that holds the sorted partitions. -/
theorem trieExact_of_root {trieData : Bytes} {root : Nat}
    {f : Forest UInt8 BtiPartitionLocation} (hsize : trieData.length < 2 ^ 64)
    (hroot : PartitionRoot trieData root (partitionTrieKeyLen - 1) f)
    (hf : f.entries = (byToken parts).map fun part => (partitionEntry part).read) :
    TrieExact parts (trieData ++ beBytes 8 root) := by
  have hfooter := splitFooter_footer hroot.lt (hroot.lt.trans hsize)
  have hwalk : ∀ token, lookupPartitionInBtiSlice (trieData ++ beBytes 8 root)
      (encodeBtiTrieKeyFromToken token) =
      .ok (Forest.lookup f.entries (encodeBtiTrieKeyFromToken token)) := fun token => by
    rw [lookupPartitionInBtiSlice, hfooter]
    exact hroot.walk (length_encodeBtiTrieKey token)
  have hmem : ∀ part ∈ parts, (partitionEntry part).read ∈ f.entries := fun part hpart => by
    rw [hf]
    exact List.mem_map_of_mem ((byToken_perm parts).mem_iff.2 hpart)
  refine ⟨fun part hpart => ?_, fun token hlow hhigh hout => ?_, ?_, fun before part after hsplit => ?_⟩
  · rw [encodePartitionKeyForBtiTrie, hwalk]
    exact congrArg _ (Forest.lookup_eq_some hroot.sorted (hmem part hpart))
  · rw [hwalk, Forest.lookup_eq_none]
    intro e he heq
    rw [hf] at he
    obtain ⟨part, hpart, rfl⟩ := List.mem_map.1 he
    have hrange := cassandraMurmur3Token_range part.1
    exact hout part ((byToken_perm parts).mem_iff.1 hpart)
      (encodeBtiTrieKey_inj hrange.1 hrange.2 hlow hhigh heq)
  · refine ⟨trieData, root, hfooter, ?_⟩
    rw [hroot.enumerate, hf]
    rfl
  · have hsorted := hroot.sorted
    rw [hf, hsplit, List.map_append, List.map_cons] at hsorted
    have hafter := Forest.firstAfter_of_append hsorted
    rw [partitionSuccessorInBtiSlice, hfooter]
    refine (hroot.ceiling _).trans (congrArg _ ?_)
    rw [hf, hsplit, List.map_append, List.map_cons]
    refine hafter.trans ?_
    cases after <;> rfl

theorem boundary_fits {kept : Option (Bytes × Bytes)} {r : Bytes → Bytes → Prop}
    (hkept : KeptBy r kept parts) (hboundary : ∀ raw, IsBoundary parts raw → raw.length ≤ 0xFFFF)
    (hr : ∀ {raw}, (∀ other ∈ parts, r (encodePartitionKeyForBtiTrie raw)
        (encodePartitionKeyForBtiTrie other.1)) →
      (∀ other ∈ parts, cassandraMurmur3Token raw ≤ cassandraMurmur3Token other.1) ∨
        ∀ other ∈ parts, cassandraMurmur3Token other.1 ≤ cassandraMurmur3Token raw) :
    ((kept.map (·.2)).getD []).length ≤ 0xFFFF := by
  cases kept with
  | none => exact Nat.zero_le _
  | some first =>
    obtain ⟨key, raw⟩ := first
    obtain ⟨rfl, ⟨part, hpart, rfl⟩, hall⟩ := hkept
    exact hboundary _ ⟨part, hpart, rfl, hr hall⟩

namespace PartitionsTrieWriter

/-- The finished trie is exact, and its size bounded. -/
theorem finish_yields (h : PartitionSet parts) (hne : parts ≠ [])
    (hboundary : ∀ raw, IsBoundary parts raw → raw.length ≤ 0xFFFF) :
    Yields (117 * parts.length)
      (fun bytes => bytes.length ≤ isizeMax → TrieExact parts bytes)
      (addPartitions parts).finish := by
  obtain ⟨hfirst, hlast⟩ := keptBy_addPartitions parts
  have hfirstFits := boundary_fits hfirst hboundary fun hall =>
    .inl fun other hother => encodePartitionKeyForBtiTrie_le (hall other hother)
  have hlastFits := boundary_fits hlast hboundary fun hall =>
    .inr fun other hother => encodePartitionKeyForBtiTrie_le (hall other hother)
  have hkeys : (((byToken parts).map partitionEntry).map (·.key)).Pairwise (· < ·) := by
    rw [List.map_map, List.pairwise_map]
    exact h.byToken_sorted.imp fun hab => encodePartitionKeyForBtiTrie_lt_iff.2 hab
  have hlength : ((byToken parts).map partitionEntry).length = parts.length := by
    rw [List.length_map, (byToken_perm parts).length_eq]
  have hempty : ¬ (addPartitions parts).entries.isEmpty := by
    rw [entries_addPartitions]
    simpa using hne
  have hemit := @emitPartitionsTrie_yields ((byToken parts).map partitionEntry)
    (fun h0 => hne (List.length_eq_zero_iff.1 (by rw [← hlength, h0]; rfl)))
    (fun entry hentry => by
      obtain ⟨part, hpart, rfl⟩ := List.mem_map.1 hentry
      exact partitionEntry_valid h ((byToken_perm parts).mem_iff.1 hpart)) hkeys
  rw [hlength, List.map_map] at hemit
  rw [finish, if_neg hempty]
  simp only
  rw [entries_addPartitions, h.sorted_entries, hasDuplicateKey_false hkeys, if_neg (by decide)]
  refine hemit.bind ?_
  rintro ⟨root, trie⟩ ⟨f, hf, hlt, -, hroot⟩
  simp only [writeWithShortLength, if_neg (not_lt.2 hfirstFits), if_neg (not_lt.2 hlastFits), bind,
    Except.bind]
  intro hvec
  generalize ((addPartitions parts).firstRaw.map (·.2)).getD [] = firstKey at hvec ⊢
  generalize ((addPartitions parts).lastRaw.map (·.2)).getD [] = lastKey at hvec ⊢
  generalize beBytes 8 ((byToken parts).map partitionEntry).length = keyCount at hvec ⊢
  have hbytes : trie ++ beBytes 2 firstKey.length ++ firstKey ++ beBytes 2 lastKey.length ++ lastKey ++
      (beBytes 8 trie.length ++ (keyCount ++ beBytes 8 root)) =
      trie ++ (beBytes 2 firstKey.length ++ (firstKey ++ (beBytes 2 lastKey.length ++ (lastKey ++
        (beBytes 8 trie.length ++ keyCount))))) ++ beBytes 8 root := by
    simp only [List.append_assoc]
  rw [hbytes] at hvec ⊢
  have hsize : (trie ++ (beBytes 2 firstKey.length ++ (firstKey ++ (beBytes 2 lastKey.length ++ (lastKey ++
      (beBytes 8 trie.length ++ keyCount)))))).length < 2 ^ 64 := by
    rw [List.length_append, isizeMax] at hvec
    omega
  exact trieExact_of_root hsize (hroot _ hsize) hf

/-- For every set of partitions that is not empty, and whose boundary keys fit a 16-bit length, the
    file is exact, or a delta does not fit 40 bits, which takes more than 2^40 / 117 partitions. -/
theorem finish_exact (parts : List (Bytes × PartitionPayload)) (h : PartitionSet parts)
    (hne : parts ≠ []) (hboundary : ∀ raw, IsBoundary parts raw → raw.length ≤ 0xFFFF) :
    (117 * parts.length < 2 ^ 40 → ∃ bytes, (addPartitions parts).finish = .ok bytes) ∧
      (∀ e, (addPartitions parts).finish = .error e → e = deltaError) ∧
      ∀ bytes, (addPartitions parts).finish = .ok bytes → bytes.length ≤ isizeMax →
        TrieExact parts bytes := by
  have hyields := finish_yields h hne hboundary
  cases hfinish : (addPartitions parts).finish with
  | error e =>
    rw [hfinish] at hyields
    refine ⟨fun hsmall => absurd hyields.2 (not_le.2 hsmall), fun e' he' => ?_, fun _ h => nomatch h⟩
    rw [← Except.error.inj he']
    exact hyields.1
  | ok bytes =>
    rw [hfinish] at hyields
    refine ⟨fun _ => ⟨bytes, rfl⟩, fun _ h => (nomatch h), fun bytes' hbytes' hvec => ?_⟩
    obtain rfl := Except.ok.inj hbytes'
    exact hyields hvec

/-- A narrow and a wide partition. -/
theorem finish_two :
    ∃ bytes, (addPartitions [([1], .dataOffset 5), ([2], .rowsOffset 300)]).finish = .ok bytes ∧
      TrieExact [([1], .dataOffset 5), ([2], .rowsOffset 300)] bytes := by
  obtain ⟨parts, hparts⟩ : ∃ parts : List (Bytes × PartitionPayload),
      parts = [([1], .dataOffset 5), ([2], .rowsOffset 300)] := ⟨_, rfl⟩
  rw [← hparts]
  have hset : PartitionSet parts := by
    refine ⟨?_, ?_⟩
    · rw [hparts]
      decide +kernel
    · rw [hparts]
      decide
  have hboundary : ∀ raw, IsBoundary parts raw → raw.length ≤ 0xFFFF := by
    rintro raw ⟨part, hpart, rfl, -⟩
    rw [hparts] at hpart
    revert part
    decide
  have hexact := finish_exact parts hset (by rw [hparts]; exact List.cons_ne_nil _ _) hboundary
  obtain ⟨bytes, hbytes⟩ := hexact.1 (by rw [hparts]; decide)
  have hrun : (addPartitions parts).finish.toOption.map List.length = some 103 := by
    rw [hparts]
    decide +kernel
  rw [hbytes] at hrun
  have hlen : bytes.length ≤ isizeMax := by
    rw [Option.some.inj hrun]
    decide
  exact ⟨bytes, hbytes, hexact.2.2 bytes hbytes hlen⟩

theorem finish_long_key {raw : Bytes} {payload : PartitionPayload}
    (hset : PartitionSet [(raw, payload)]) (hlong : 0xFFFF < raw.length) :
    (addPartitions [(raw, payload)]).finish =
      .error (.invalidInput "partition key too long for Partitions.db short-length prefix") := by
  have hfirst : ((addPartitions [(raw, payload)]).firstRaw.map (·.2)).getD [] = raw := by
    have hkept := (keptBy_addPartitions [(raw, payload)]).1
    cases hraw : (addPartitions [(raw, payload)]).firstRaw with
    | none =>
      rw [hraw] at hkept
      cases hkept
    | some first =>
      rw [hraw] at hkept
      obtain ⟨-, ⟨part, hpart, hfirst⟩, -⟩ := hkept
      rw [List.mem_singleton.1 hpart] at hfirst
      exact hfirst.symm
  have hsorted : byToken [(raw, payload)] = [(raw, payload)] := rfl
  have hkeys : (((byToken [(raw, payload)]).map partitionEntry).map (·.key)).Pairwise (· < ·) :=
    List.pairwise_singleton _ _
  have hemit := @emitPartitionsTrie_yields ((byToken [(raw, payload)]).map partitionEntry)
    (List.cons_ne_nil _ _) (fun entry hentry => by
      obtain ⟨part, hpart, rfl⟩ := List.mem_map.1 hentry
      exact partitionEntry_valid hset hpart) hkeys
  have hempty : ¬ (addPartitions [(raw, payload)]).entries.isEmpty := by
    rw [entries_addPartitions]
    simp
  rw [finish, if_neg hempty]
  simp only
  rw [entries_addPartitions, hset.sorted_entries, hasDuplicateKey_false hkeys, if_neg (by decide), hfirst]
  cases hrun : emitPartitionsTrie ((byToken [(raw, payload)]).map partitionEntry) [] with
  | error e =>
    rw [hrun] at hemit
    refine absurd hemit.2 (not_le.2 ?_)
    rw [hsorted, List.map_singleton, List.length_singleton]
    decide
  | ok r =>
    simp only [bind, Except.bind, writeWithShortLength]
    rw [if_pos hlong]

/-- No partitions give no bytes, which the lookup refuses; a long key gives no file. -/
theorem finish_not_exact :
    PartitionSet [] ∧ (addPartitions []).finish = .ok [] ∧
      lookupPartitionInBtiSlice [] (encodeBtiTrieKeyFromToken 0) =
        .error "BTI Partitions.db is too small (need at least 8 for footer)" ∧
      ¬ TrieExact [] [] ∧
      PartitionSet [(List.replicate 65536 0, .dataOffset 0)] ∧
      (addPartitions [(List.replicate 65536 0, .dataOffset 0)]).finish =
        .error (.invalidInput "partition key too long for Partitions.db short-length prefix") := by
  have hlong : PartitionSet [(List.replicate 65536 0, .dataOffset 0)] := by
    refine ⟨List.nodup_singleton _, fun part hpart => ?_⟩
    rw [List.mem_singleton.1 hpart]
    decide
  refine ⟨⟨List.nodup_nil, by simp⟩, rfl, rfl, fun h => ?_, hlong, ?_⟩
  · have habsent := h.absent 0 (by decide) (by decide) (by simp)
    cases habsent
  · refine finish_long_key hlong ?_
    rw [List.length_replicate]
    decide

end PartitionsTrieWriter

end

end Cqlite
