import Cqlite.Reader.TrieNode

/-! The reads of the trie parsers (`bti/parser/{node_decode,partitions}.rs`), each checked.

    Indexing out of bounds panics. Here every access may panic, and the parsers never do. -/

namespace Cqlite

open VInt

/-! ### Accesses -/

/-- A computation that may panic: `none`. -/
abbrev Reading := ExceptT String Option

namespace Reading

def result {α : Type} (r : BtiResult α) : Reading α := ExceptT.mk (some r)

/-- `data[i]`. -/
def index (data : Bytes) (i : Nat) : Reading UInt8 := ExceptT.mk ((data[i]?).map .ok)

/-- `&data[start..stop]`. -/
def slice (data : Bytes) (start stop : Nat) : Reading Bytes :=
  ExceptT.mk (if start ≤ stop ∧ stop ≤ data.length then
    some (.ok ((data.drop start).take (stop - start))) else none)

/-- `&data[start..]`. -/
def sliceFrom (data : Bytes) (start : Nat) : Reading Bytes := slice data start data.length

variable {α β : Type}

theorem result_ok_bind (a : α) (f : α → Reading β) : (result (.ok a) >>= f) = f a := rfl

theorem result_error_bind (e : String) (f : α → Reading β) :
    (result (.error e) >>= f) = result (.error e) := rfl

theorem index_eq {data : Bytes} {i : Nat} (h : i < data.length) :
    index data i = result (.ok (byteAt data i)) := by
  rw [index, byteAt, List.getD_eq_getElem?_getD, List.getElem?_eq_getElem h]
  rfl

theorem slice_eq {data : Bytes} {start stop : Nat} (hle : start ≤ stop) (h : stop ≤ data.length) :
    slice data start stop = result (.ok ((data.drop start).take (stop - start))) := by
  rw [slice, if_pos ⟨hle, h⟩]
  rfl

theorem sliceFrom_eq {data : Bytes} {start : Nat} (h : start ≤ data.length) :
    sliceFrom data start = result (.ok (data.drop start)) := by
  rw [sliceFrom, slice_eq h le_rfl, List.take_of_length_le (by rw [List.length_drop])]

/-- A loop none of whose steps panics or fails. -/
theorem mapM_eq {f : α → Reading β} {g : α → β} {l : List α}
    (h : ∀ a ∈ l, f a = result (.ok (g a))) : l.mapM f = result (.ok (l.map g)) := by
  induction l with
  | nil => rfl
  | cons a l ih =>
    rw [List.mapM_cons, h a List.mem_cons_self, result_ok_bind,
      ih fun b hb => h b (List.mem_cons_of_mem _ hb)]
    rfl

end Reading

open Reading

/-! ### Parsing -/

def read12bitPackedReading (data : Bytes) (index : Nat) : Reading Nat :=
  let byteOffset := 3 * index / 2
  if data.length ≤ byteOffset + 1 then result (.ok 0)
  else do
    let high ← Reading.index data byteOffset
    let low ← Reading.index data (byteOffset + 1)
    let word := high.toNat * 256 + low.toNat
    return if index % 2 = 0 then word / 16 else word % 4096

def deltaAtReading (ordinal : Nat) (data : Bytes) (start i : Nat) : Reading Nat :=
  if ordinal = 6 ∨ ordinal = 10 then do read12bitPackedReading (← sliceFrom data start) i
  else do
    let ptrBytes := pointerBytesForOrdinal ordinal
    let bytes ← slice data (start + i * ptrBytes) (start + i * ptrBytes + ptrBytes)
    return fromBe bytes

def parsePayloadOnlyNodeReading (data : Bytes) (hasPayload : Bool) : Reading BtiNodeData :=
  if !hasPayload then result (.error "PayloadOnly node has no payload flags set")
  else do
    let rest ← sliceFrom data 1
    if rest.length < 12 then result (.error "PayloadRef data too short")
    else do
      let _ ← (List.range 12).mapM (Reading.index rest)
      return .payloadOnly

def parseSingleNodeReading (data : Bytes) (offset ordinal : Nat) (header : UInt8) :
    Reading BtiNodeData :=
  if ordinal = 1 then
    if data.length < 2 then result (.error "SingleNoPayload4 node data too short")
    else do return .single (← index data 1, offset - payloadFlags header)
  else if ordinal = 3 then
    if data.length < 3 then result (.error "SingleNoPayload12 node data too short")
    else do
      let delta := payloadFlags header * 256 + (← index data 1).toNat
      return .single (← index data 2, offset - delta)
  else if data.length < 2 + pointerBytesForOrdinal ordinal then
    result (.error "Single node data too short")
  else do
    let delta ← deltaAtReading ordinal data 2 0
    return .single (← index data 1, offset - delta)

def parseSparseNodeReading (data : Bytes) (offset ordinal : Nat) : Reading BtiNodeData :=
  if data.length < 2 then result (.error "Sparse node data too short")
  else do
    let count := (← index data 1).toNat
    if count = 0 then result (.error "Sparse node must have at least one transition")
    else
      let pointersStart := 2 + count
      if data.length < pointersStart + pointerArea ordinal count then
        result (.error (if ordinal = 6 then "Sparse12 node data too short"
          else "Sparse node data too short"))
      else do
        let transitions ← (List.range count).mapM fun i => do
          let byte ← index data (2 + i)
          let delta ← deltaAtReading ordinal data pointersStart i
          return (byte, offset - delta)
        return .sparse transitions

def parseDenseNodeReading (data : Bytes) (offset ordinal : Nat) : Reading BtiNodeData :=
  if data.length < 3 then result (.error "Dense node data too short")
  else do
    let startByte ← index data 1
    let rangeLen := (← index data 2).toNat + 1
    if data.length < 3 + pointerArea ordinal rangeLen then
      result (.error (if ordinal = 10 then "Dense12 node data too short"
        else "Dense node data too short"))
    else do
      let children ← (List.range rangeLen).mapM fun i => do
        return denseChild offset (← deltaAtReading ordinal data 3 i)
      return .dense startByte children

def parseBtiNodeReading (data : Bytes) (offset : Nat) : Reading BtiNodeData :=
  if data.isEmpty then result (.error "Empty BTI node data")
  else do
    let header ← index data 0
    let ordinal := nodeOrdinal header
    match ← result (classifyNodeNibble ordinal) with
    | .payloadOnly => parsePayloadOnlyNodeReading data (payloadFlags header ≠ 0)
    | .single => parseSingleNodeReading data offset ordinal header
    | .sparse => parseSparseNodeReading data offset ordinal
    | .dense => parseDenseNodeReading data offset ordinal

def parseBtiNodeForTraversalReading (trieData : Bytes) (nodeOffset : Nat) : Reading BtiNodeData :=
  if trieData.length ≤ nodeOffset then
    result (.error "BTI traversal: node_offset >= trie_data.len")
  else do
    let data ← sliceFrom trieData nodeOffset
    let header ← index data 0
    match ← result (classifyNodeNibble (nodeOrdinal header)) with
    | .payloadOnly =>
      if payloadFlags header = 0 then result (.error "PayloadOnly node has no payload flags set")
      else return .payloadOnly
    | _ => parseBtiNodeReading data nodeOffset

/-! ### Payloads -/

def decodeBtiPartitionPayloadReading (trieData : Bytes) (payloadStart payloadBits : Nat) :
    Reading BtiPartitionLocation :=
  if payloadBits < flagHasHashByte then
    result (.error "BTI payload_bits < FLAG_HAS_HASH_BYTE (8)")
  else if 16 < payloadBits then
    result (.error "BTI payload_bits > 16; invalid BTI partition leaf")
  else
    let positionBytes := payloadBits - flagHasHashByte + 1
    if trieData.length < payloadStart + (1 + positionBytes) then
      result (.error "BTI partition payload is too short")
    else do
      let data ← slice trieData (payloadStart + 1) (payloadStart + 1 + positionBytes)
      let position ← result (sizedIntsReadFromSlice data)
      return if position < 0 then .dataOffset (-position - 1).toNat else .rowsOffset position.toNat

/-- With the node the traversal has parsed. -/
def readNodePayloadReading (trieData : Bytes) (nodeOffset : Nat) (node : BtiNodeData) :
    Reading (Option BtiPartitionLocation) :=
  if trieData.length ≤ nodeOffset then
    result (.error "BTI payload read: node_offset out of bounds")
  else do
    let header ← index trieData nodeOffset
    let ordinal := nodeOrdinal header
    let flags := payloadFlags header
    if ordinal = 1 ∨ ordinal = 3 then return none
    else if ordinal = 0 then
      if flags = 0 then result (.error "PayloadOnly node has zero payload_flags")
      else do return some (← decodeBtiPartitionPayloadReading trieData (nodeOffset + 1) flags)
    else if flags ≠ 0 then do
      let _ ← index trieData nodeOffset
      return some (← decodeBtiPartitionPayloadReading trieData
        (payloadStartInNode node ordinal nodeOffset) flags)
    else return none

/-! ### No access panics -/

section

variable {ordinal : Nat} {data : Bytes} {header : UInt8}

theorem read12bitPackedReading_eq (data : Bytes) (i : Nat) :
    read12bitPackedReading data i = result (.ok (read12bitPacked data i)) := by
  simp only [read12bitPackedReading, read12bitPacked]
  by_cases hlen : data.length ≤ 3 * i / 2 + 1
  · rw [if_pos hlen, if_pos hlen]
  · have hword : fromBe ((data.drop (3 * i / 2)).take 2) =
        (byteAt data (3 * i / 2)).toNat * 256 + (byteAt data (3 * i / 2 + 1)).toNat := by
      rw [drop_eq_byteAt (by omega), drop_eq_byteAt (Nat.not_le.1 hlen)]
      simp [fromBe]
    rw [if_neg hlen, if_neg hlen, index_eq (by omega), index_eq (by omega), result_ok_bind,
      result_ok_bind, hword]
    rfl

theorem deltaAtReading_eq {start count i : Nat} (hi : i < count)
    (hlen : start + pointerArea ordinal count ≤ data.length) :
    deltaAtReading ordinal data start i = result (.ok (deltaAt ordinal data start i)) := by
  unfold deltaAtReading deltaAt
  unfold pointerArea at hlen
  split
  · rw [sliceFrom_eq (by omega), result_ok_bind, read12bitPackedReading_eq]
  · rename_i hpacked
    rw [if_neg hpacked] at hlen
    have hslot : i * pointerBytesForOrdinal ordinal + pointerBytesForOrdinal ordinal ≤
        count * pointerBytesForOrdinal ordinal := by
      rw [← Nat.succ_mul]
      exact Nat.mul_le_mul_right _ hi
    simp only
    rw [slice_eq (by omega) (by omega), result_ok_bind, Nat.add_sub_cancel_left]
    rfl

theorem parsePayloadOnlyNodeReading_eq (data : Bytes) (hne : data ≠ []) (hasPayload : Bool) :
    parsePayloadOnlyNodeReading data hasPayload = result (parsePayloadOnlyNode data hasPayload) := by
  unfold parsePayloadOnlyNodeReading parsePayloadOnlyNode
  split
  · rfl
  · rw [sliceFrom_eq (List.length_pos_iff.2 hne), result_ok_bind]
    split
    · rfl
    · rename_i hlen
      rw [mapM_eq fun i hi => index_eq (lt_of_lt_of_le (List.mem_range.1 hi) (Nat.not_lt.1 hlen))]
      rfl

theorem parseSingleNodeReading_eq (data : Bytes) (offset ordinal : Nat) (header : UInt8)
    (hpacked : ¬ (ordinal = 6 ∨ ordinal = 10)) :
    parseSingleNodeReading data offset ordinal header =
      result (parseSingleNode data offset ordinal header) := by
  unfold parseSingleNodeReading parseSingleNode
  split
  · split
    · rfl
    · rw [index_eq (by omega)]
      rfl
  · split
    · split
      · rfl
      · rw [index_eq (by omega), index_eq (by omega)]
        rfl
    · split
      · rfl
      · have hlen : 2 + pointerArea ordinal 1 ≤ data.length := by
          rw [pointerArea, if_neg hpacked]
          omega
        rw [deltaAtReading_eq Nat.one_pos hlen, index_eq (by omega)]
        rfl

theorem parseSparseNodeReading_eq (data : Bytes) (offset ordinal : Nat) :
    parseSparseNodeReading data offset ordinal = result (parseSparseNode data offset ordinal) := by
  unfold parseSparseNodeReading parseSparseNode
  split
  · rfl
  · rw [index_eq (by omega), result_ok_bind]
    simp only
    split
    · rfl
    · split
      · rfl
      · rename_i hlen
        rw [mapM_eq (g := fun i => (byteAt data (2 + i),
          offset - deltaAt ordinal data (2 + (byteAt data 1).toNat) i)) fun i hi => ?_]
        · rfl
        · have hi' := List.mem_range.1 hi
          rw [index_eq (by omega), result_ok_bind, deltaAtReading_eq hi' (by omega)]
          rfl

theorem parseDenseNodeReading_eq (data : Bytes) (offset ordinal : Nat) :
    parseDenseNodeReading data offset ordinal = result (parseDenseNode data offset ordinal) := by
  unfold parseDenseNodeReading parseDenseNode
  split
  · rfl
  · rw [index_eq (by omega), result_ok_bind, index_eq (by omega), result_ok_bind]
    simp only
    split
    · rfl
    · rename_i hlen
      rw [mapM_eq (g := fun i => denseChild offset (deltaAt ordinal data 3 i)) fun i hi => ?_]
      · rfl
      · rw [deltaAtReading_eq (List.mem_range.1 hi) (by omega)]
        rfl

theorem parseBtiNodeReading_eq (data : Bytes) (offset : Nat) :
    parseBtiNodeReading data offset = result (parseBtiNode data offset) := by
  cases data with
  | nil => rfl
  | cons header rest =>
    unfold parseBtiNodeReading parseBtiNode
    rw [if_neg (by simp), index_eq (by simp), result_ok_bind]
    simp only [show byteAt (header :: rest) 0 = header from rfl]
    generalize htype : classifyNodeNibble (nodeOrdinal header) = type
    cases type with
    | error e => rfl
    | ok type =>
      cases type with
      | payloadOnly => exact parsePayloadOnlyNodeReading_eq _ (by simp) _
      | single =>
        refine parseSingleNodeReading_eq _ _ _ _ ?_
        rintro (h | h) <;> rw [h] at htype <;> cases htype
      | sparse => exact parseSparseNodeReading_eq _ _ _
      | dense => exact parseDenseNodeReading_eq _ _ _

theorem parseBtiNodeForTraversalReading_eq (trieData : Bytes) (nodeOffset : Nat) :
    parseBtiNodeForTraversalReading trieData nodeOffset =
      result (parseBtiNodeForTraversal trieData nodeOffset) := by
  unfold parseBtiNodeForTraversalReading parseBtiNodeForTraversal
  split
  · rfl
  · rename_i hin
    have hdata := drop_eq_byteAt (Nat.not_le.1 hin)
    have hlen : 0 < (trieData.drop nodeOffset).length := by
      rw [hdata]
      exact Nat.succ_pos _
    have hhead : byteAt (trieData.drop nodeOffset) 0 = byteAt trieData nodeOffset := by
      rw [hdata]
      rfl
    rw [sliceFrom_eq (by omega), result_ok_bind, index_eq hlen, result_ok_bind, hhead]
    simp only
    generalize classifyNodeNibble (nodeOrdinal (byteAt trieData nodeOffset)) = type
    cases type with
    | error e => rfl
    | ok type =>
      cases type with
      | payloadOnly =>
        rw [result_ok_bind]
        simp only
        split_ifs <;> rfl
      | single => exact parseBtiNodeReading_eq _ _
      | sparse => exact parseBtiNodeReading_eq _ _
      | dense => exact parseBtiNodeReading_eq _ _

theorem decodeBtiPartitionPayloadReading_eq (trieData : Bytes) (payloadStart payloadBits : Nat) :
    decodeBtiPartitionPayloadReading trieData payloadStart payloadBits =
      result (decodeBtiPartitionPayload trieData payloadStart payloadBits) := by
  unfold decodeBtiPartitionPayloadReading decodeBtiPartitionPayload
  split
  · rfl
  · split
    · rfl
    · simp only
      split
      · rfl
      · rw [slice_eq (by omega) (by omega), result_ok_bind, Nat.add_sub_cancel_left]
        cases sizedIntsReadFromSlice _ <;> rfl

theorem readNodePayloadReading_eq (trieData : Bytes) (nodeOffset : Nat) (node : BtiNodeData) :
    readNodePayloadReading trieData nodeOffset node =
      result (readNodePayload trieData nodeOffset (some node)) := by
  have hmap : ∀ r : BtiResult BtiPartitionLocation,
      (result r >>= fun a => return some a) = result (r.map some) := fun r => by cases r <;> rfl
  unfold readNodePayloadReading readNodePayload readPayloadWith
  split
  · rfl
  · rename_i hin
    rw [index_eq (Nat.not_le.1 hin), result_ok_bind]
    simp only
    split
    · rfl
    · split
      · split
        · rfl
        · rw [decodeBtiPartitionPayloadReading_eq, hmap]
      · split
        · rw [result_ok_bind, decodeBtiPartitionPayloadReading_eq, hmap]
          rfl
        · rfl

end

end Cqlite
