import Cqlite.Engine.Murmur3
import Cqlite.Merge.Model

/-! Mutations (`write_engine/mutation.rs`).

    A mutation is one CQL statement against one row or partition. The table name is left out: the
    engine serves one table and never reads it. -/

namespace Cqlite

/-! ### Cell operations -/

/-- What a mutation does to one column, or to the row. -/
inductive CellOperation
  | write (column : String) (value : Value)
  | writeWithTtl (column : String) (value : Value) (ttlSeconds : Int) (localDeletionTime : Option Int)
  | delete (column : String) (localDeletionTime : Option Int)
  | deleteRow
  | writeComplexElement (column : String) (cellPath : Bytes) (value : Option Value)
      (timestampMicros : Int) (ttlSeconds localDeletionTime : Option Int) (isDeleted : Bool)
  | complexDeletion (column : String) (markedForDeleteAt localDeletionTime : Int)

structure PartitionTombstone where
  deletionTime : Int
  localDeletionTime : Int
  deriving DecidableEq, Repr

structure PartitionKey where
  columns : List (String × Value)

/-- One write to one row or partition. -/
structure Mutation where
  partitionKey : PartitionKey
  clusteringKey : Option ClusteringKey
  operations : List CellOperation
  timestampMicros : Int
  ttlSeconds : Option Int
  partitionTombstone : Option PartitionTombstone
  rangeTombstones : List RangeTombstone
  localDeletionTime : Option Int
  rowTombstone : Option Deletion
  cellWriteTimestamps : Option (List (String × Int))

namespace Mutation

def new (partitionKey : PartitionKey) (clusteringKey : Option ClusteringKey)
    (operations : List CellOperation) (timestampMicros : Int) (ttlSeconds : Option Int) : Mutation :=
  ⟨partitionKey, clusteringKey, operations, timestampMicros, ttlSeconds, none, [], none, none, none⟩

/-- The column's own write time, else the row's. -/
def cellWriteTimestamp (m : Mutation) (column : String) : Int :=
  (m.cellWriteTimestamps.bind (·.lookup column)).getD m.timestampMicros

/-- The given local deletion time, else the seconds of the write time (truncated to 32 bits). -/
def effectiveLocalDeletionTime (m : Mutation) : Int :=
  m.localDeletionTime.getD (asI32 (m.timestampMicros.tdiv 1000000))

end Mutation

/-! ### Partition keys as bytes -/

structure KeyColumn where
  name : String
  dataType : String
  deriving DecidableEq, Repr

/-- `u16::to_be_bytes`. -/
def u16ToBeBytes (n : Nat) : Bytes := [(n / 256).toUInt8, n.toUInt8]

namespace PartitionKey

/-- One component of a composite key: length, bytes, end marker. -/
def componentBytes (bytes : Bytes) : Except Error Bytes :=
  if 65535 < bytes.length then
    .error (.invalidInput ("Partition key component too large: " ++ toString bytes.length ++ " bytes"))
  else .ok (u16ToBeBytes bytes.length ++ bytes ++ [0])

/-- `to_bytes`; the encoding of one value is a parameter. -/
def toBytes (serializeValue : Value → KeyColumn → Except Error Bytes) (keys : List KeyColumn)
    (pk : PartitionKey) : Except Error Bytes :=
  if pk.columns.isEmpty then .error (.invalidInput "Empty partition key")
  else if pk.columns.length ≠ keys.length then
    .error (.invalidInput ("Partition key column count mismatch: expected " ++
      toString keys.length ++ ", got " ++ toString pk.columns.length))
  else
    match pk.columns, keys with
    | [(_, value)], key :: _ => serializeValue value key
    | columns, keys => do
      let parts ← (columns.zip keys).mapM fun (column, key) => do
        componentBytes (← serializeValue column.2 key)
      return parts.flatten

def toDecoratedKey (serializeValue : Value → KeyColumn → Except Error Bytes)
    (keys : List KeyColumn) (pk : PartitionKey) : Except Error DecoratedKey := do
  return .fromKeyBytes (← pk.toBytes serializeValue keys)

end PartitionKey

end Cqlite
