import Cqlite.Engine.Mutation
import Cqlite.Lib.Bincode
import Cqlite.Reader.ClusteringPrefix

/-! The payload of a WAL entry (`write_engine/wal.rs`: the layouts and `decode_mutation`; the serde
    structure of `mutation.rs` and `types.rs`).

    An entry is a mutation in `bincode`, fixed-width and little-endian. Fields came in over time, and
    an entry does not say which it has: the reader tries one layout after the other, the one with the
    most fields first, and takes the first that can be read, whatever bytes are left over. -/

namespace Cqlite

open Bincode

structure TableId where
  keyspace : String
  table : String
  deriving DecidableEq, Repr

/-! ### Values -/

/-- A `u32`. -/
def u32Format : Format Int :=
  (Format.number 4).iso Int.toNat (fun n => (n : Int)) fun _ _ => Int.toNat_natCast _

/-- `text_serde`: bytes that are UTF-8. -/
def textFormat : Format Bytes :=
  Format.blob.via some (fun l => if validUtf8 l then some l else none) fun l l' hl h => by
    split at h
    · rename_i hutf
      obtain rfl := Option.some.inj h
      exact ⟨l, rfl, if_pos hutf, hl, le_rfl⟩
    · cases h

def tombstoneTypeFormat : Format TombstoneType :=
  (Format.number 4).via
    (fun
      | .rowTombstone => some 0
      | .cellTombstone => some 1
      | .rangeTombstone => some 2
      | .ttlExpiration => some 3
      | .partitionTombstone => some 4)
    (fun
      | 0 => some .rowTombstone
      | 1 => some .cellTombstone
      | 2 => some .rangeTombstone
      | 3 => some .ttlExpiration
      | 4 => some .partitionTombstone
      | _ => none)
    fun n t hn h => by
      split at h
      all_goals cases h
      all_goals exact ⟨_, rfl, rfl, hn, le_rfl⟩

def tombstoneInfoFormat : Format TombstoneInfo :=
  ((Format.signed 8).pair <| tombstoneTypeFormat.pair <| (Format.signed 8).pair <|
    (Format.signed 8).option.pair <| Format.blob.option.pair Format.blob.option).iso
    (fun t => (t.deletionTime, t.tombstoneType, t.localDeletionTime, t.ttl, t.rangeStart, t.rangeEnd))
    (fun (deletionTime, tombstoneType, localDeletionTime, ttl, rangeStart, rangeEnd) =>
      { deletionTime, tombstoneType, localDeletionTime, ttl, rangeStart, rangeEnd })
    fun _ _ => rfl

def Value.variantIndex : Value → Nat
  | .null => 0
  | .boolean _ => 1
  | .integer _ => 2
  | .bigInt _ => 3
  | .counter _ => 4
  | .float _ => 5
  | .text _ => 6
  | .blob _ => 7
  | .timestamp _ => 8
  | .date _ => 9
  | .time _ => 10
  | .uuid _ => 11
  | .varint _ => 12
  | .decimal _ _ => 13
  | .duration _ _ _ => 14
  | .json _ => 15
  | .tinyInt _ => 16
  | .smallInt _ => 17
  | .float32 _ => 18
  | .list _ => 19
  | .set _ => 20
  | .map _ => 21
  | .tuple _ => 22
  | .udt _ _ _ => 23
  | .frozen _ => 24
  | .tombstone _ => 25
  | .inet _ => 26

section Values

variable (json : String → Bytes)

/-- The variants of `Value`, with the format of the values inside. JSON is written as what it holds,
    which the format has no way to read. -/
def valueVariant (inner : Format Value) : Nat → Option (Variant Value)
  | 0 => some ⟨.unit, fun | .null => some () | _ => none, fun _ => .null, fun _ => rfl⟩
  | 1 => some ⟨.bool, fun | .boolean b => some b | _ => none, .boolean, fun _ => rfl⟩
  | 2 => some ⟨.signed 4, fun | .integer n => some n | _ => none, .integer, fun _ => rfl⟩
  | 3 => some ⟨.signed 8, fun | .bigInt n => some n | _ => none, .bigInt, fun _ => rfl⟩
  | 4 => some ⟨.signed 8, fun | .counter n => some n | _ => none, .counter, fun _ => rfl⟩
  | 5 => some ⟨(Format.number 8).iso UInt64.toNat UInt64.ofNat fun _ h => UInt64.toNat_ofNat_of_lt h,
      fun | .float bits => some bits | _ => none, .float, fun _ => rfl⟩
  | 6 => some ⟨textFormat, fun | .text s => some s | _ => none, .text, fun _ => rfl⟩
  | 7 => some ⟨.blob, fun | .blob s => some s | _ => none, .blob, fun _ => rfl⟩
  | 8 => some ⟨.signed 8, fun | .timestamp n => some n | _ => none, .timestamp, fun _ => rfl⟩
  | 9 => some ⟨.signed 4, fun | .date n => some n | _ => none, .date, fun _ => rfl⟩
  | 10 => some ⟨.signed 8, fun | .time n => some n | _ => none, .time, fun _ => rfl⟩
  | 11 => some ⟨.fixed 16, fun | .uuid s => some s | _ => none, .uuid, fun _ => rfl⟩
  | 12 => some ⟨.blob, fun | .varint s => some s | _ => none, .varint, fun _ => rfl⟩
  | 13 => some ⟨(Format.signed 4).pair .blob,
      fun | .decimal scale unscaled => some (scale, unscaled) | _ => none,
      fun p => .decimal p.1 p.2, fun _ => rfl⟩
  | 14 => some ⟨(Format.signed 4).pair ((Format.signed 4).pair (.signed 8)),
      fun | .duration months days nanos => some (months, days, nanos) | _ => none,
      fun p => .duration p.1 p.2.1 p.2.2, fun _ => rfl⟩
  | 15 => some ⟨.never json, fun | .json repr => some repr | _ => none, .json, fun _ => rfl⟩
  | 16 => some ⟨.signed 1, fun | .tinyInt n => some n | _ => none, .tinyInt, fun _ => rfl⟩
  | 17 => some ⟨.signed 2, fun | .smallInt n => some n | _ => none, .smallInt, fun _ => rfl⟩
  | 18 => some ⟨(Format.number 4).iso UInt32.toNat UInt32.ofNat fun _ h => UInt32.toNat_ofNat_of_lt h,
      fun | .float32 bits => some bits | _ => none, .float32, fun _ => rfl⟩
  | 19 => some ⟨inner.list, fun | .list items => some items | _ => none, .list, fun _ => rfl⟩
  | 20 => some ⟨inner.list, fun | .set items => some items | _ => none, .set, fun _ => rfl⟩
  | 21 => some ⟨(inner.pair inner).list, fun | .map entries => some entries | _ => none, .map,
      fun _ => rfl⟩
  | 22 => some ⟨inner.list, fun | .tuple fields => some fields | _ => none, .tuple, fun _ => rfl⟩
  | 23 => some ⟨Format.string.pair (Format.string.pair (Format.string.pair inner.option).list),
      fun | .udt typeName keyspace fields => some (typeName, keyspace, fields) | _ => none,
      fun p => .udt p.1 p.2.1 p.2.2, fun _ => rfl⟩
  | 24 => some ⟨inner, fun | .frozen v => some v | _ => none, .frozen, fun _ => rfl⟩
  | 25 => some ⟨tombstoneInfoFormat, fun | .tombstone info => some info | _ => none, .tombstone,
      fun _ => rfl⟩
  | 26 => some ⟨.blob, fun | .inet s => some s | _ => none, .inet, fun _ => rfl⟩
  | _ => none

/-- Values nested to a depth, which stands for the stack. -/
def valueFormat : Nat → Format Value
  | 0 => .never fun _ => []
  | depth + 1 => .enum Value.variantIndex (valueVariant json (valueFormat depth)) fun t v h b => by
    rw [valueVariant.eq_def] at h
    split at h
    all_goals cases h
    all_goals rfl

/-! ### Keys and tombstones -/

variable (depth : Nat)

def columnsFormat : Format (List (String × Value)) :=
  (Format.string.pair (valueFormat json depth)).list

def partitionKeyFormat : Format PartitionKey :=
  (columnsFormat json depth).iso PartitionKey.columns PartitionKey.mk fun _ _ => rfl

def clusteringKeyFormat : Format ClusteringKey :=
  (columnsFormat json depth).iso ClusteringKey.columns ClusteringKey.mk fun _ _ => rfl

def ClusteringBound.variantIndex : ClusteringBound → Nat
  | .inclusive _ => 0
  | .exclusive _ => 1
  | .bottom => 2
  | .top => 3

def clusteringBoundVariant : Nat → Option (Variant ClusteringBound)
  | 0 => some ⟨clusteringKeyFormat json depth, fun | .inclusive ck => some ck | _ => none,
      .inclusive, fun _ => rfl⟩
  | 1 => some ⟨clusteringKeyFormat json depth, fun | .exclusive ck => some ck | _ => none,
      .exclusive, fun _ => rfl⟩
  | 2 => some ⟨.unit, fun | .bottom => some () | _ => none, fun _ => .bottom, fun _ => rfl⟩
  | 3 => some ⟨.unit, fun | .top => some () | _ => none, fun _ => .top, fun _ => rfl⟩
  | _ => none

def clusteringBoundFormat : Format ClusteringBound :=
  .enum ClusteringBound.variantIndex (clusteringBoundVariant json depth) fun t v h b => by
    rw [clusteringBoundVariant.eq_def] at h
    split at h
    all_goals cases h
    all_goals rfl

def rangeTombstoneFormat : Format RangeTombstone :=
  ((clusteringBoundFormat json depth).pair <| (clusteringBoundFormat json depth).pair <|
    (Format.signed 8).pair (Format.signed 4)).iso
    (fun t => (t.startBound, t.endBound, t.deletionTime, t.localDeletionTime))
    (fun (startBound, endBound, deletionTime, localDeletionTime) =>
      { startBound, endBound, deletionTime, localDeletionTime })
    fun _ _ => rfl

def partitionTombstoneFormat : Format PartitionTombstone :=
  ((Format.signed 8).pair (Format.signed 4)).iso (fun t => (t.deletionTime, t.localDeletionTime))
    (fun (deletionTime, localDeletionTime) => { deletionTime, localDeletionTime }) fun _ _ => rfl

/-! ### Layouts -/

/-- The types an entry may be of, newest first. -/
inductive Layout
  | mutation
  | preCellLdtWriteTtlMutation
  | preCellWriteTimestampsMutation
  | preRowTombstoneMutation
  | legacyMutationWithLdt
  | legacyMutation
  deriving DecidableEq, Repr

namespace Layout

/-- `WriteWithTtl` has a local deletion time. -/
def ttlLdt : Layout → Bool
  | mutation => true
  | _ => false

/-- `Delete` has a local deletion time. -/
def deleteLdt : Layout → Bool
  | legacyMutationWithLdt => false
  | legacyMutation => false
  | _ => true

def localDeletionTime : Layout → Bool
  | legacyMutation => false
  | _ => true

def rowTombstone : Layout → Bool
  | mutation => true
  | preCellLdtWriteTtlMutation => true
  | preCellWriteTimestampsMutation => true
  | _ => false

def cellWriteTimestamps : Layout → Bool
  | mutation => true
  | preCellLdtWriteTtlMutation => true
  | _ => false

end Layout

/-- An `Option` field that a layout may lack. -/
def fieldFormat {α : Type} (present : Bool) (c : Format α) : Format (Option α) :=
  if present then c.option else .absent

def CellOperation.variantIndex : CellOperation → Nat
  | .write _ _ => 0
  | .writeWithTtl _ _ _ _ => 1
  | .delete _ _ => 2
  | .deleteRow => 3
  | .writeComplexElement _ _ _ _ _ _ _ => 4
  | .complexDeletion _ _ _ => 5

/-- `WriteWithTtl`. -/
def writeWithTtlVariant (layout : Layout) : Variant CellOperation where
  format := Format.string.pair <| (valueFormat json depth).pair <| u32Format.pair <|
    fieldFormat layout.ttlLdt (.signed 4)
  get
    | .writeWithTtl column value ttl ldt => some (column, value, ttl, ldt)
    | _ => none
  make p := .writeWithTtl p.1 p.2.1 p.2.2.1 p.2.2.2
  get_make _ := rfl

/-- `Delete`. -/
def deleteVariant (layout : Layout) : Variant CellOperation where
  format := Format.string.pair (fieldFormat layout.deleteLdt (.signed 4))
  get
    | .delete column ldt => some (column, ldt)
    | _ => none
  make p := .delete p.1 p.2
  get_make _ := rfl

def cellOperationVariant (layout : Layout) : Nat → Option (Variant CellOperation)
  | 0 => some ⟨Format.string.pair (valueFormat json depth),
      fun | .write column value => some (column, value) | _ => none, fun p => .write p.1 p.2,
      fun _ => rfl⟩
  | 1 => some (writeWithTtlVariant json depth layout)
  | 2 => some (deleteVariant layout)
  | 3 => some ⟨.unit, fun | .deleteRow => some () | _ => none, fun _ => .deleteRow, fun _ => rfl⟩
  | 4 => some ⟨Format.string.pair <| Format.blob.pair <| (valueFormat json depth).option.pair <|
        (Format.signed 8).pair <| u32Format.option.pair <| (Format.signed 4).option.pair .bool,
      fun
        | .writeComplexElement column cellPath value timestamp ttl ldt isDeleted =>
          some (column, cellPath, value, timestamp, ttl, ldt, isDeleted)
        | _ => none,
      fun (column, cellPath, value, timestamp, ttl, ldt, isDeleted) =>
        .writeComplexElement column cellPath value timestamp ttl ldt isDeleted,
      fun _ => rfl⟩
  | 5 => some ⟨Format.string.pair ((Format.signed 8).pair (.signed 4)),
      fun | .complexDeletion column mfda ldt => some (column, mfda, ldt) | _ => none,
      fun p => .complexDeletion p.1 p.2.1 p.2.2, fun _ => rfl⟩
  | _ => none

def cellOperationFormat (layout : Layout) : Format CellOperation :=
  .enum CellOperation.variantIndex (cellOperationVariant json depth layout) fun t v h b => by
    rw [cellOperationVariant.eq_def] at h
    split at h
    all_goals cases h
    all_goals rfl

/-- A hash map filled entry by entry: the last entry of a key counts. -/
def hashMapOf : List (String × Int) → List (String × Int)
  | [] => []
  | (key, value) :: entries =>
    let map := hashMapOf entries
    if (map.lookup key).isSome then map else (key, value) :: map

theorem hashMapOf_sublist (entries : List (String × Int)) : (hashMapOf entries).Sublist entries := by
  induction entries with
  | nil => exact .slnil
  | cons p entries ih =>
    rw [hashMapOf]
    split
    · exact ih.cons p
    · exact ih.cons_cons p

theorem hashMapOf_hashMapOf (entries : List (String × Int)) :
    hashMapOf (hashMapOf entries) = hashMapOf entries := by
  induction entries with
  | nil => rfl
  | cons p entries ih =>
    rw [hashMapOf]
    split
    · exact ih
    · rename_i hnone
      rw [hashMapOf, ih, if_neg hnone]

theorem length_flatMap_le {α : Type} {f : α → Bytes} {l l' : List α} (h : l.Sublist l') :
    (l.flatMap f).length ≤ (l'.flatMap f).length := by
  induction h with
  | slnil => exact le_rfl
  | cons a _ ih =>
    rw [List.flatMap_cons, List.length_append]
    omega
  | cons_cons a _ ih =>
    rw [List.flatMap_cons, List.flatMap_cons, List.length_append, List.length_append]
    omega

/-- A hash map, in the order it is gone through. -/
def cellTimestampsFormat : Format (List (String × Int)) :=
  (Format.string.pair (.signed 8)).list.via some (fun entries => some (hashMapOf entries))
    fun entries map hvalid hmap => by
      obtain rfl := Option.some.inj hmap
      have hsub := hashMapOf_sublist entries
      refine ⟨_, rfl, congrArg some (hashMapOf_hashMapOf entries), ⟨?_, ?_⟩, ?_⟩
      · exact lt_of_le_of_lt hsub.length_le hvalid.1
      · exact fun a ha => hvalid.2 a (hsub.subset ha)
      · have hnumber : ∀ n, ((Format.number 8).encode n).length = 8 := fun n => by
          rw [Format.number, List.length_reverse, VInt.length_beBytes]
        rw [Format.list, List.length_append, List.length_append, hnumber, hnumber]
        exact Nat.add_le_add_left (length_flatMap_le hsub) 8

/-! ### Mutations -/

/-- The fields in front of the operations. -/
def keysFormat : Format (TableId × PartitionKey × Option ClusteringKey) :=
  ((Format.string.pair .string).iso (fun t => (t.keyspace, t.table)) (fun p => ⟨p.1, p.2⟩)
    fun _ _ => rfl).pair ((partitionKeyFormat json depth).pair (clusteringKeyFormat json depth).option)

/-- The fields behind the operations. -/
abbrev MutationTail :=
  Int × Option Int × Option PartitionTombstone × List RangeTombstone × Option Int ×
    Option Deletion × Option (List (String × Int))

/-- The fields that came in at the end. -/
def laterFieldsFormat (layout : Layout) :
    Format (Option Int × Option Deletion × Option (List (String × Int))) :=
  (fieldFormat layout.localDeletionTime (.signed 4)).pair <|
    (fieldFormat layout.rowTombstone ((Format.signed 8).pair (.signed 4))).pair <|
    fieldFormat layout.cellWriteTimestamps cellTimestampsFormat

def tailFormat (layout : Layout) : Format MutationTail :=
  (Format.signed 8).pair <| u32Format.option.pair <| partitionTombstoneFormat.option.pair <|
    (rangeTombstoneFormat json depth).list.pair <| laterFieldsFormat layout

def Mutation.tail (m : Mutation) : MutationTail :=
  (m.timestampMicros, m.ttlSeconds, m.partitionTombstone, m.rangeTombstones, m.localDeletionTime,
    m.rowTombstone, m.cellWriteTimestamps)

/-- An entry in its three parts. -/
abbrev RecordParts :=
  (TableId × PartitionKey × Option ClusteringKey) × List CellOperation × MutationTail

def recordParts (r : TableId × Mutation) : RecordParts :=
  ((r.1, r.2.partitionKey, r.2.clusteringKey), r.2.operations, r.2.tail)

def recordOf : RecordParts → TableId × Mutation
  | ((table, partitionKey, clusteringKey), operations, timestampMicros, ttlSeconds,
      partitionTombstone, rangeTombstones, localDeletionTime, rowTombstone, cellWriteTimestamps) =>
    (table, ⟨partitionKey, clusteringKey, operations, timestampMicros, ttlSeconds,
      partitionTombstone, rangeTombstones, localDeletionTime, rowTombstone, cellWriteTimestamps⟩)

theorem recordParts_recordOf (parts : RecordParts) : recordParts (recordOf parts) = parts := rfl

/-- A mutation of a table, in the layout an entry was written in. -/
def mutationFormat (layout : Layout) : Format (TableId × Mutation) :=
  ((keysFormat json depth).pair ((cellOperationFormat json depth layout).list.pair
    (tailFormat json depth layout))).iso recordParts recordOf fun parts _ =>
      recordParts_recordOf parts

/-- `bincode::deserialize`: bytes may be left over. -/
def deserialize (layout : Layout) (bytes : Bytes) : Option (TableId × Mutation) :=
  ((mutationFormat json depth layout).decode bytes).map (·.1)

def serializeAs (layout : Layout) (table : TableId) (m : Mutation) : Bytes :=
  (mutationFormat json depth layout).encode (table, m)

def decodeMutation (bytes : Bytes) : Option (TableId × Mutation) :=
  match deserialize json depth .mutation bytes with
  | some m => some m
  | none =>
  match deserialize json depth .preCellLdtWriteTtlMutation bytes with
  | some m => some m
  | none =>
  match deserialize json depth .preCellWriteTimestampsMutation bytes with
  | some m => some m
  | none =>
  match deserialize json depth .preRowTombstoneMutation bytes with
  | some m => some m
  | none =>
  match deserialize json depth .legacyMutationWithLdt bytes with
  | some m => some m
  | none => deserialize json depth .legacyMutation bytes

end Values

/-! ### Upgrades -/

namespace Layout

def upgradeOperation (layout : Layout) : CellOperation → CellOperation
  | .writeWithTtl column value ttl ldt =>
    .writeWithTtl column value ttl (if layout.ttlLdt then ldt else none)
  | .delete column ldt => .delete column (if layout.deleteLdt then ldt else none)
  | op => op

/-- The mutation with the fields the layout lacks at their defaults. -/
def upgrade (layout : Layout) (m : Mutation) : Mutation :=
  { m with
    operations := m.operations.map layout.upgradeOperation
    localDeletionTime := if layout.localDeletionTime then m.localDeletionTime else none
    rowTombstone := if layout.rowTombstone then m.rowTombstone else none
    cellWriteTimestamps := if layout.cellWriteTimestamps then m.cellWriteTimestamps else none }

/-- The layouts that are tried before this one, in order. -/
def triedBefore : Layout → List Layout
  | mutation => []
  | preCellLdtWriteTtlMutation => [mutation]
  | preCellWriteTimestampsMutation => [mutation, preCellLdtWriteTtlMutation]
  | preRowTombstoneMutation =>
    [mutation, preCellLdtWriteTtlMutation, preCellWriteTimestampsMutation]
  | legacyMutationWithLdt =>
    [mutation, preCellLdtWriteTtlMutation, preCellWriteTimestampsMutation, preRowTombstoneMutation]
  | legacyMutation =>
    [mutation, preCellLdtWriteTtlMutation, preCellWriteTimestampsMutation, preRowTombstoneMutation,
      legacyMutationWithLdt]

end Layout

end Cqlite
