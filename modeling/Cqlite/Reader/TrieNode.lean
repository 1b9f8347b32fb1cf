import Mathlib.Data.List.Sort
import Cqlite.Reader.ClusteringPrefix
import Cqlite.Reader.TrieWalk

/-! Trie nodes on disk (`bti/parser/{node_decode,partitions,rows,rows_floor,traversal}.rs`).

    The high nibble of a node's first byte is its layout. A child lies before its parent, by a delta
    of the width of the layout; the payload, of the layout's flags in the low nibble, lies behind
    the deltas. -/

namespace Cqlite

open VInt

/-! ### Layouts -/

inductive BtiNodeType
  | payloadOnly
  | single
  | sparse
  | dense
  deriving DecidableEq, Repr

def classifyNodeNibble (nibble : Nat) : BtiResult BtiNodeType :=
  if nibble = 0 then .ok .payloadOnly
  else if nibble ≤ 4 then .ok .single
  else if nibble ≤ 9 then .ok .sparse
  else if nibble ≤ 15 then .ok .dense
  else .error "Invalid BTI node type nibble"

/-- 0 for the layouts whose deltas are not whole bytes. -/
def pointerBytesForOrdinal : Nat → Nat
  | 2 => 1
  | 4 => 2
  | 5 => 1
  | 7 => 2
  | 8 => 3
  | 9 => 5
  | 11 => 2
  | 12 => 3
  | 13 => 4
  | 14 => 5
  | 15 => 8
  | _ => 0

/-- The high nibble of the first byte. -/
def nodeOrdinal (header : UInt8) : Nat := header.toNat / 16

/-- The low nibble of the first byte. -/
def payloadFlags (header : UInt8) : Nat := header.toNat % 16

/-- The children's offsets are absolute; an empty slot of a dense node is `none`. -/
inductive BtiNodeData
  | payloadOnly
  | single (transition : UInt8 × Nat)
  | sparse (transitions : List (UInt8 × Nat))
  | dense (startByte : UInt8) (children : List (Option Nat))
  deriving DecidableEq, Repr

/-- `data[i]`, where the source has checked the length. -/
def byteAt (data : Bytes) (i : Nat) : UInt8 := data.getD i 0

theorem drop_eq_byteAt {data : Bytes} {i : Nat} (h : i < data.length) :
    data.drop i = byteAt data i :: data.drop (i + 1) := by
  rw [List.drop_eq_getElem_cons h, byteAt, List.getD_eq_getElem?_getD, List.getElem?_eq_getElem h]
  rfl

def read12bitPacked (data : Bytes) (index : Nat) : Nat :=
  let byteOffset := 3 * index / 2
  if data.length ≤ byteOffset + 1 then 0
  else
    let word := fromBe ((data.drop byteOffset).take 2)
    if index % 2 = 0 then word / 16 else word % 4096

/-- The delta in a slot of the pointer area that starts at `start`. -/
def deltaAt (ordinal : Nat) (data : Bytes) (start i : Nat) : Nat :=
  if ordinal = 6 ∨ ordinal = 10 then read12bitPacked (data.drop start) i
  else
    let ptrBytes := pointerBytesForOrdinal ordinal
    fromBe ((data.drop (start + i * ptrBytes)).take ptrBytes)

/-- The length of the pointer area of `count` slots. -/
def pointerArea (ordinal count : Nat) : Nat :=
  if ordinal = 6 ∨ ordinal = 10 then (count * 3 + 1) / 2 else count * pointerBytesForOrdinal ordinal

/-! ### Parsing -/

def parsePayloadOnlyNode (data : Bytes) (hasPayload : Bool) : BtiResult BtiNodeData :=
  if !hasPayload then .error "PayloadOnly node has no payload flags set"
  else if (data.drop 1).length < 12 then .error "PayloadRef data too short"
  else .ok .payloadOnly

def parseSingleNode (data : Bytes) (offset ordinal : Nat) (header : UInt8) : BtiResult BtiNodeData :=
  if ordinal = 1 then
    if data.length < 2 then .error "SingleNoPayload4 node data too short"
    else .ok (.single (byteAt data 1, offset - payloadFlags header))
  else if ordinal = 3 then
    if data.length < 3 then .error "SingleNoPayload12 node data too short"
    else
      let delta := payloadFlags header * 256 + (byteAt data 1).toNat
      .ok (.single (byteAt data 2, offset - delta))
  else if data.length < 2 + pointerBytesForOrdinal ordinal then .error "Single node data too short"
  else .ok (.single (byteAt data 1, offset - deltaAt ordinal data 2 0))

def parseSparseNode (data : Bytes) (offset ordinal : Nat) : BtiResult BtiNodeData :=
  if data.length < 2 then .error "Sparse node data too short"
  else
    let count := (byteAt data 1).toNat
    if count = 0 then .error "Sparse node must have at least one transition"
    else
      let pointersStart := 2 + count
      if data.length < pointersStart + pointerArea ordinal count then
        .error (if ordinal = 6 then "Sparse12 node data too short" else "Sparse node data too short")
      else .ok (.sparse ((List.range count).map fun i =>
        (byteAt data (2 + i), offset - deltaAt ordinal data pointersStart i)))

/-- A delta of 0 is no transition. -/
def denseChild (offset delta : Nat) : Option Nat := if delta = 0 then none else some (offset - delta)

def parseDenseNode (data : Bytes) (offset ordinal : Nat) : BtiResult BtiNodeData :=
  if data.length < 3 then .error "Dense node data too short"
  else
    let rangeLen := (byteAt data 2).toNat + 1
    if data.length < 3 + pointerArea ordinal rangeLen then
      .error (if ordinal = 10 then "Dense12 node data too short" else "Dense node data too short")
    else .ok (.dense (byteAt data 1) ((List.range rangeLen).map fun i =>
      denseChild offset (deltaAt ordinal data 3 i)))

/-- The bytes are those from the node on. -/
def parseBtiNode (data : Bytes) (offset : Nat) : BtiResult BtiNodeData :=
  match data with
  | [] => .error "Empty BTI node data"
  | header :: _ => do
    let ordinal := nodeOrdinal header
    match ← classifyNodeNibble ordinal with
    | .payloadOnly => parsePayloadOnlyNode data (payloadFlags header ≠ 0)
    | .single => parseSingleNode data offset ordinal header
    | .sparse => parseSparseNode data offset ordinal
    | .dense => parseDenseNode data offset ordinal

/-- A leaf's payload is skipped here. -/
def parseBtiNodeForTraversal (trieData : Bytes) (nodeOffset : Nat) : BtiResult BtiNodeData :=
  if trieData.length ≤ nodeOffset then .error "BTI traversal: node_offset >= trie_data.len"
  else do
    let header := byteAt trieData nodeOffset
    match ← classifyNodeNibble (nodeOrdinal header) with
    | .payloadOnly =>
      if payloadFlags header = 0 then .error "PayloadOnly node has no payload flags set"
      else return .payloadOnly
    | _ => parseBtiNode (trieData.drop nodeOffset) nodeOffset

/-- The children in ascending order of their bytes. -/
def orderedChildren : BtiNodeData → List (UInt8 × Nat)
  | .payloadOnly => []
  | .single transition => [transition]
  | .sparse transitions => transitions.insertionSort fun a b => a.1 ≤ b.1
  | .dense startByte children =>
    (List.range children.length).filterMap fun i =>
      (children.getD i none).map fun child => (startByte + UInt8.ofNat i, child)

/-! ### Payloads -/

def payloadStartInNode (node : BtiNodeData) (ordinal nodeOffset : Nat) : Nat :=
  match node with
  | .payloadOnly => nodeOffset + 1
  | .single _ => nodeOffset + 1 + 1 + pointerBytesForOrdinal ordinal
  | .sparse transitions =>
    nodeOffset + 1 + 1 + transitions.length + pointerArea ordinal transitions.length
  | .dense _ children => nodeOffset + 1 + 1 + 1 + pointerArea ordinal children.length

/-- The payload of a node, which the caller may have parsed. -/
def readPayloadWith {α : Type} (outOfBounds zeroFlags : String)
    (decode : Bytes → Nat → Nat → BtiResult α) (trieData : Bytes) (nodeOffset : Nat)
    (parsed : Option BtiNodeData) : BtiResult (Option α) :=
  if trieData.length ≤ nodeOffset then .error outOfBounds
  else
    let header := byteAt trieData nodeOffset
    let ordinal := nodeOrdinal header
    let flags := payloadFlags header
    -- these keep a delta in the low nibble
    if ordinal = 1 ∨ ordinal = 3 then .ok none
    else if ordinal = 0 then
      if flags = 0 then .error zeroFlags else (decode trieData (nodeOffset + 1) flags).map some
    else if flags ≠ 0 then do
      let node ← match parsed with
        | some node => .ok node
        | none => parseBtiNode (trieData.drop nodeOffset) nodeOffset
      (decode trieData (payloadStartInNode node ordinal nodeOffset) flags).map some
    else .ok none

/-- Two's complement of up to eight bytes: the value of `SizedInts.readFromSlice`, which puts it
    together from machine words (`SizedInts.readFromSlice_eq`). -/
def sizedIntsReadFromSlice (data : Bytes) : BtiResult Int :=
  if data.length ≤ 8 then .ok (intOfBytes data)
  else .error "SizedInts: invalid byte count (expected 1–8)"

/-- The deletion, as local deletion time and marked-for-delete-at, and the bytes consumed. -/
def decodeDaDeletionTime (data : Bytes) (start : Nat) : BtiResult (Option (Int × Int) × Nat) :=
  if data.length ≤ start then .error "DA DeletionTime: start beyond buffer size"
  else if byteAt data start = 0x80 then .ok (none, 1)
  else if data.length < start + 12 then .error "DA DeletionTime: non-live value needs 12 bytes"
  else
    let markedForDeleteAt := intOfBytes ((data.drop start).take 8)
    let localDeletionTime := intOfBytes ((data.drop (start + 8)).take 4)
    .ok (some (localDeletionTime, markedForDeleteAt), 12)

structure BtiRowIndexEntry where
  dataOffset : Nat
  openMarker : Option (Int × Int)
  deriving DecidableEq, Repr

def flagOpenMarker : Nat := 8

def decodeBtiRowPayload (trieData : Bytes) (payloadStart payloadBits : Nat) :
    BtiResult BtiRowIndexEntry :=
  let offsetBytes := payloadBits % flagOpenMarker
  if trieData.length < payloadStart then .error "Rows.db payload start beyond trie size"
  else if offsetBytes = 0 ∨ 7 < offsetBytes then .error "Rows.db payload: invalid SizedInts byte count"
  else if trieData.length < payloadStart + offsetBytes then
    .error "Rows.db payload: SizedInts offset needs more bytes"
  else do
    let raw ← sizedIntsReadFromSlice ((trieData.drop payloadStart).take offsetBytes)
    let openMarker ←
      if flagOpenMarker ≤ payloadBits then
        (decodeDaDeletionTime trieData (payloadStart + offsetBytes)).map (·.1)
      else .ok none
    -- `raw as u64`
    return ⟨(raw % 2 ^ 64).toNat, openMarker⟩

inductive BtiPartitionLocation
  | dataOffset (offset : Nat)
  | rowsOffset (offset : Nat)
  deriving DecidableEq, Repr

def flagHasHashByte : Nat := 8

/-- A negative position is the complement of an offset into the data file. -/
def decodeBtiPartitionPayload (trieData : Bytes) (payloadStart payloadBits : Nat) :
    BtiResult BtiPartitionLocation :=
  if payloadBits < flagHasHashByte then .error "BTI payload_bits < FLAG_HAS_HASH_BYTE (8)"
  else if 16 < payloadBits then .error "BTI payload_bits > 16; invalid BTI partition leaf"
  else
    let positionBytes := payloadBits - flagHasHashByte + 1
    if trieData.length < payloadStart + (1 + positionBytes) then
      .error "BTI partition payload is too short"
    else do
      let position ← sizedIntsReadFromSlice ((trieData.drop (payloadStart + 1)).take positionBytes)
      return if position < 0 then .dataOffset (-position - 1).toNat else .rowsOffset position.toNat

theorem readPayloadWith_no_flags {α : Type} {outOfBounds zeroFlags : String}
    {decode : Bytes → Nat → Nat → BtiResult α} {trieData : Bytes} {nodeOffset : Nat}
    (hoff : nodeOffset < trieData.length) (hordinal : nodeOrdinal (byteAt trieData nodeOffset) ≠ 0)
    (hflags : payloadFlags (byteAt trieData nodeOffset) = 0) :
    readPayloadWith outOfBounds zeroFlags decode trieData nodeOffset none = .ok none := by
  simp only [readPayloadWith, if_neg (Nat.not_le.2 hoff), if_neg hordinal, hflags]
  simp

/-! ### The stores -/

def readRowNodePayload : Bytes → Nat → Option BtiNodeData → BtiResult (Option BtiRowIndexEntry) :=
  readPayloadWith "Rows.db payload read: node_offset out of bounds"
    "Rows.db PayloadOnly node has zero payload_flags" decodeBtiRowPayload

def readNodePayload : Bytes → Nat → Option BtiNodeData → BtiResult (Option BtiPartitionLocation) :=
  readPayloadWith "BTI payload read: node_offset out of bounds"
    "PayloadOnly node has zero payload_flags" decodeBtiPartitionPayload

def trieChildren (trieData : Bytes) (nodeOffset : Nat) : BtiResult (List (UInt8 × Nat)) :=
  (parseBtiNodeForTraversal trieData nodeOffset).map orderedChildren

def rowStore (trieData : Bytes) : TrieStore BtiRowIndexEntry where
  size := trieData.length
  children := trieChildren trieData
  payload off := readRowNodePayload trieData off none
  workBound := "Rows.db walk exceeded total work bound"
  minLeaf := "Rows.db ceiling: min leaf carries no row-index payload"

def partitionStore (trieData : Bytes) : TrieStore BtiPartitionLocation where
  size := trieData.length
  children off :=
    if trieData.length ≤ off then .error "Partitions.db successor walk: node offset out of bounds"
    else trieChildren trieData off
  payload off := readNodePayload trieData off none
  workBound := "Partitions.db successor walk exceeded total work bound"
  minLeaf := "Partitions.db successor walk: min node carries no partition payload and has no children"

def dfsCollectRowEntries (trieData : Bytes) : Nat → BtiResult (List (Bytes × BtiRowIndexEntry)) :=
  (rowStore trieData).dfsCollectInOrder

def dfsCollectPartitionEntries (trieData : Bytes) :
    Nat → BtiResult (List (Bytes × BtiPartitionLocation)) :=
  (partitionStore trieData).dfsCollectInOrder

def rowsFloorBlock (trieData : Bytes) : Nat → Bytes → BtiResult (Option BtiRowIndexEntry) :=
  (rowStore trieData).floorBlock

def rowsStrictCeilingBlock (trieData : Bytes) : Nat → Bytes → BtiResult (Option BtiRowIndexEntry) :=
  (rowStore trieData).strictCeilingBlock

def partitionStrictCeilingLocation (trieData : Bytes) :
    Nat → Bytes → BtiResult (Option BtiPartitionLocation) :=
  (partitionStore trieData).strictCeilingBlock

end Cqlite
