import Cqlite.Lib.VInt
import Cqlite.Types

/-! Clustering values in Data.db (`data_writer/encoding.rs`: `serialize_value_for_clustering`,
    `data_writer/rows.rs`: `write_clustering_prefix`).

    The writer picks the encoding of a value by the comparator of its column: fixed-width types
    without a length, the others behind a vint length. The prefix starts with two bits per column. -/

namespace Cqlite

open VInt

/-! ### Type names -/

/-- `char::is_whitespace`. -/
def isWhiteSpace (c : Char) : Bool :=
  (0x09 ≤ c.toNat ∧ c.toNat ≤ 0x0D) ∨ c.toNat ∈ [0x20, 0x85, 0xA0, 0x1680, 0x2028, 0x2029, 0x202F,
    0x205F, 0x3000] ∨ (0x2000 ≤ c.toNat ∧ c.toNat ≤ 0x200A)

/-- `str::trim`. -/
def trim (s : String) : String :=
  String.ofList (((s.toList.dropWhile isWhiteSpace).reverse.dropWhile isWhiteSpace).reverse)

/-- `to_lowercase`; no type name has a letter outside ASCII, or one that such a letter maps to. -/
def lowercase (s : String) : String := String.ofList (s.toList.map Char.toLower)

/-- How the bytes of a column compare. -/
inductive ComparatorType
  | boolean
  | tinyInt
  | smallInt
  | int
  | bigInt
  | counter
  | float32
  | float
  | decimal
  | text
  | blob
  | timestamp
  | date
  | uuid
  | duration
  | varint
  | custom (name : String)
  /-- A collection, a tuple, a frozen type or a reference to a user-defined one. -/
  | nested (dataType : String)
  deriving DecidableEq, Repr

/-- The primitive types of `CqlType::parse`, by their lower-case names. -/
def ComparatorType.ofPrimitive : String → Option ComparatorType
  | "boolean" => some .boolean
  | "bool" => some .boolean
  | "tinyint" => some .tinyInt
  | "smallint" => some .smallInt
  | "int" => some .int
  | "integer" => some .int
  | "bigint" => some .bigInt
  | "long" => some .bigInt
  | "counter" => some .counter
  | "float" => some .float32
  | "double" => some .float
  | "decimal" => some .decimal
  | "text" => some .text
  | "varchar" => some .text
  | "ascii" => some .text
  | "blob" => some .blob
  | "timestamp" => some .timestamp
  | "date" => some .date
  | "time" => some (.custom "time")
  | "uuid" => some .uuid
  | "timeuuid" => some .uuid
  | "inet" => some (.custom "inet")
  | "duration" => some .duration
  | "varint" => some .varint
  | _ => none

/-- What the row writer takes from elsewhere: the syntax check of a type that is no primitive, and
    the bytes of a frozen value. -/
structure ValueCodec where
  parseNested : String → Except Error Unit
  serializeValue : Value → Except Error Bytes

section Serialize

variable (codec : ValueCodec)

/-- `from_data_type`. -/
def ComparatorType.fromDataType (dataType : String) : Except Error ComparatorType :=
  match ofPrimitive (lowercase (trim dataType)) with
  | some comparator => .ok comparator
  | none => (codec.parseNested dataType).map fun _ => .nested dataType

/-! ### Values -/

/-- `to_be_bytes` of a signed integer of `k` bytes. -/
def intBytes (k : Nat) (n : Int) : Bytes := beBytes k (n % 256 ^ k).toNat

theorem length_intBytes (k : Nat) (n : Int) : (intBytes k n).length = k := length_beBytes _ _

def lengthPrefixed (bytes : Bytes) : Bytes := encodeUnsigned bytes.length ++ bytes

def serializeValueForClustering (value : Value) (comparator : ComparatorType) : Except Error Bytes :=
  match value, comparator with
  | .boolean b, .boolean => .ok [if b then 1 else 0]
  | .tinyInt n, .tinyInt => .ok (intBytes 1 n)
  | .smallInt n, .smallInt => .ok (intBytes 2 n)
  | .integer n, .int => .ok (intBytes 4 n)
  | .bigInt n, .bigInt => .ok (intBytes 8 n)
  | .float32 bits, .float32 => .ok (beBytes 4 bits.toNat)
  | .float bits, .float => .ok (beBytes 8 bits.toNat)
  | .timestamp millis, .timestamp => .ok (intBytes 8 millis)
  -- the sign bit is flipped, and the four bytes have a length
  | .date days, .date => .ok (lengthPrefixed (intBytes 4 (days + 2 ^ 31)))
  | .uuid bytes, .uuid => .ok bytes
  | .text bytes, .text => .ok (lengthPrefixed bytes)
  | .blob bytes, .blob => .ok (lengthPrefixed bytes)
  | .frozen inner, _ => (codec.serializeValue inner).map lengthPrefixed
  | _, _ => .error (.invalidInput "Type mismatch or unsupported clustering type")

/-! ### The prefix of a key -/

/-- 00 is present, 10 is null. -/
def clusteringState (value : Value) : Nat := if value.isNull then 2 else 0

/-- Two bits per column; the shift of a `u64` wraps at 64. -/
def clusteringHeader (values : List Value) : Nat :=
  values.zipIdx.foldl (fun header p => header ||| clusteringState p.1 <<< (2 * p.2 % 64)) 0

/-- The value at position `i`; null values have no bytes. -/
def clusteringValueBytes (types : List String) (value : Value) (i : Nat) : Except Error Bytes :=
  if value.isNull then .ok []
  else match types[i]? with
    | none => .error (.invalidInput ("Clustering key has more columns than schema: " ++
        toString (i + 1) ++ " > " ++ toString types.length))
    | some dataType => do
      let comparator ← ComparatorType.fromDataType codec dataType
      serializeValueForClustering codec value comparator

def writeClusteringPrefix (types : List String) (values : List Value) : Except Error Bytes := do
  let bytes ← values.zipIdx.mapM fun p => clusteringValueBytes codec types p.1 p.2
  return encodeUnsigned (clusteringHeader values) ++ bytes.flatten

end Serialize

end Cqlite
