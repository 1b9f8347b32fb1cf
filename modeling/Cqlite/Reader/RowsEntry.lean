import Cqlite.Reader.TrieNode

/-! A partition's entry in the rows file (`bti/parser/{rows,rows_root}.rs`:
    `resolve_rows_db_entry_uncounted`, `validate_rows_trie_root`).

    The entry lies behind the trie it belongs to. The root it names is accepted when the node there
    ends where the entry starts. -/

namespace Cqlite

open VInt

/-- `isize::MAX`, the most bytes a `Vec` holds. -/
def isizeMax : Nat := 2 ^ 63 - 1

/-! ### Validating the root -/

inductive RowsTrieRootRejectReason
  | notBelowEntry
  | payloadIncapableNodeType (headerByte : UInt8)
  | childlessRootWithoutPayload (headerByte : UInt8)
  | truncatedNode
  | sparseNodeWithoutTransitions
  | invalidPayloadBits (payloadBits : Nat)
  | extentNotAtEntry (extentEnd : Nat)
  deriving DecidableEq, Repr

structure RowsTrieRootRejection where
  resolvedOffset : Int
  rowsOffset : Nat
  reason : RowsTrieRootRejectReason
  deriving DecidableEq, Repr

structure ValidatedRowsTrieRoot where
  offset : Nat
  deriving DecidableEq, Repr

/-- `rows_db.get(i)`. -/
def getByte (rowsDb : Bytes) (i : Nat) : Except RowsTrieRootRejectReason UInt8 :=
  match rowsDb[i]? with
  | some b => .ok b
  | none => .error .truncatedNode

/-- The bytes of a node without its payload. -/
def nodeStructureLen (rowsDb : Bytes) (nodeOffset : Nat) : Except RowsTrieRootRejectReason Nat := do
  let header ← getByte rowsDb nodeOffset
  let ordinal := nodeOrdinal header
  if ordinal = 0 then return 1
  else if ordinal = 1 then return 2
  else if ordinal = 2 then return 3
  else if ordinal = 3 then return 3
  else if ordinal = 4 then return 4
  else if ordinal ≤ 9 then
    let count := (← getByte rowsDb (nodeOffset + 1)).toNat
    if count = 0 then .error .sparseNodeWithoutTransitions
    else return 2 + count + pointerArea ordinal count
  else
    let rangeLen := (← getByte rowsDb (nodeOffset + 2)).toNat + 1
    return 3 + pointerArea ordinal rangeLen

/-- The ends a node may have; two where its open marker may be a live one or not. -/
structure RowsNodeExtent where
  shortestEnd : Nat
  ambiguousEnd : Option Nat
  deriving DecidableEq, Repr

def RowsNodeExtent.endsAt (extent : RowsNodeExtent) (offset : Nat) : Bool :=
  extent.shortestEnd == offset || extent.ambiguousEnd == some offset

def rowsPayloadLens (rowsDb : Bytes) (payloadStart payloadBits : Nat) :
    Except RowsTrieRootRejectReason (Nat × Option Nat) := do
  let offsetBytes := payloadBits % flagOpenMarker
  if offsetBytes = 0 then .error (.invalidPayloadBits payloadBits)
  else
    let afterOffset := payloadStart + offsetBytes
    if rowsDb.length < afterOffset then .error .truncatedNode
    else if payloadBits < flagOpenMarker then return (offsetBytes, none)
    else
      let first ← getByte rowsDb afterOffset
      let bodyFits := afterOffset + 12 ≤ rowsDb.length
      if first = 0x80 then
        return (offsetBytes + 1, if bodyFits then some (offsetBytes + 12) else none)
      else if bodyFits then return (offsetBytes + 12, none)
      else .error .truncatedNode

def rowsNodeSerializedExtent (rowsDb : Bytes) (nodeOffset : Nat) :
    Except RowsTrieRootRejectReason RowsNodeExtent := do
  let header ← getByte rowsDb nodeOffset
  let payloadBits := payloadFlags header
  let structureLen ← nodeStructureLen rowsDb nodeOffset
  let payloadStart := nodeOffset + structureLen
  if rowsDb.length < payloadStart then .error .truncatedNode
  else
    let ordinal := nodeOrdinal header
    let (payloadLen, ambiguousLen) ←
      if payloadBits = 0 ∨ ordinal = 1 ∨ ordinal = 3 then .ok (0, none)
      else rowsPayloadLens rowsDb payloadStart payloadBits
    let extentEnd := payloadStart + payloadLen
    if rowsDb.length < extentEnd then .error .truncatedNode
    else return ⟨extentEnd, (ambiguousLen.map (payloadStart + ·)).filter (· ≤ rowsDb.length)⟩

def validateRowsTrieRoot (rowsDb : Bytes) (resolvedRoot : Int) (rowsOffset : Nat) :
    Except RowsTrieRootRejection ValidatedRowsTrieRoot :=
  let reject : ∀ {α : Type}, Except RowsTrieRootRejectReason α → Except RowsTrieRootRejection α :=
    fun result => result.mapError (⟨resolvedRoot, rowsOffset, ·⟩)
  if resolvedRoot < 0 ∨ (rowsOffset : Int) ≤ resolvedRoot then reject (.error .notBelowEntry)
  else do
    let root := resolvedRoot.toNat
    let header ← reject (getByte rowsDb root)
    let ordinal := nodeOrdinal header
    if ordinal = 1 ∨ ordinal = 3 then reject (.error (.payloadIncapableNodeType header))
    else if ordinal = 0 ∧ payloadFlags header = 0 then
      reject (.error (.childlessRootWithoutPayload header))
    else
      let extent ← reject (rowsNodeSerializedExtent rowsDb root)
      if extent.endsAt rowsOffset then return ⟨root⟩
      else reject (.error (.extentNotAtEntry extent.shortestEnd))

/-! ### The entry -/

namespace BtiRows

/-- The value and the bytes consumed. -/
def readUnsignedVintFromSlice (data : Bytes) : BtiResult (Nat × Nat) :=
  match data with
  | [] => .error "Rows.db payload: unexpected end of data reading unsigned vint"
  | first :: rest =>
    let extraBytes := leadingOnes first
    let total := extraBytes + 1
    if data.length < total then
      .error ("Rows.db payload: unsigned vint needs " ++ toString total ++ " bytes, have " ++
        toString data.length)
    else
      let start :=
        if 8 ≤ extraBytes then 0
        else
          let dataBits := 8 - extraBytes - 1
          let mask := if dataBits = 0 then 0 else (1 <<< dataBits) - 1
          first.toNat &&& mask
      -- shifting a `u64` drops what leaves it
      .ok ((rest.take extraBytes).foldl (fun value b => (value <<< 8) % 2 ^ 64 ||| b.toNat) start,
        total)

/-- `((u >> 1) as i64) ^ -((u & 1) as i64)`. -/
def zigzagDecode (u : Nat) : Int :=
  ((BitVec.ofNat 64 u >>> 1) ^^^ -(BitVec.ofNat 64 u &&& 1#64)).toInt

def readSignedVintFromSlice (data : Bytes) : BtiResult (Int × Nat) :=
  (readUnsignedVintFromSlice data).map fun p => (zigzagDecode p.1, p.2)

end BtiRows

structure BtiRowIndexHeader where
  dataPosition : Nat
  trieRoot : Except RowsTrieRootRejection ValidatedRowsTrieRoot
  blockCount : Nat
  partitionDeletion : Option (Int × Int)

/-- `i64::saturating_add`. -/
def saturatingAdd (a b : Int) : Int := max i64Min (min i64Max (a + b))

def resolveRowsDbEntry (rowsDb : Bytes) (rowsOffset : Nat) : BtiResult BtiRowIndexHeader :=
  if rowsDb.length < rowsOffset + 2 then
    .error "Rows.db entry: rows_offset + 2 (key length) exceeds file size"
  else
    let keyLength := fromBe ((rowsDb.drop rowsOffset).take 2)
    let entryStart := rowsOffset + 2 + keyLength
    if rowsDb.length < entryStart then .error "Rows.db entry: key length overruns file size"
    else do
      let cur := entryStart
      let (dataPosition, n) ← BtiRows.readUnsignedVintFromSlice (rowsDb.drop cur)
      let cur := cur + n
      let (rootDelta, n) ← BtiRows.readSignedVintFromSlice (rowsDb.drop cur)
      let cur := cur + n
      let trieRoot := validateRowsTrieRoot rowsDb (saturatingAdd rootDelta entryStart) rowsOffset
      let (blockCount, n) ← BtiRows.readUnsignedVintFromSlice (rowsDb.drop cur)
      let cur := cur + n
      if 2 ^ 32 ≤ blockCount then .error "Rows.db entry: implausible block count"
      else
        -- a deletion that cannot be read is none
        let partitionDeletion := match decodeDaDeletionTime rowsDb cur with
          | .ok (deletion, _) => deletion
          | .error _ => none
        return ⟨dataPosition, trieRoot, blockCount, partitionDeletion⟩

/-- `iterate_rows_in_bti_trie`. -/
def iterateRowsInBtiTrie (trieData : Bytes) (rootOffset : Nat) :
    BtiResult (List (Bytes × BtiRowIndexEntry)) :=
  dfsCollectRowEntries trieData rootOffset

end Cqlite
