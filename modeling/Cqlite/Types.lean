import Mathlib.Algebra.Order.Ring.Int
import Mathlib.Data.List.Forall2
import Mathlib.Data.List.Lex
import Mathlib.Order.Compare

/-! Keys and values of the write engine (`types.rs`, `schema/mod.rs`, `float_cmp.rs` and the key
    half of `write_engine/mutation.rs`).

    Machine integers are `Int`: every function below only compares them, and the two places that
    reinterpret bits (`as u32`, `as i32`) do it explicitly. Floats are their IEEE-754 bit patterns,
    so the Java total order of `float_cmp.rs` is an integer comparison. -/

namespace Cqlite

/-- Raw bytes (`Vec<u8>` / `Bytes`). -/
abbrev Bytes := List UInt8

/-- `i64::MAX`. -/
def i64Max : Int := 2 ^ 63 - 1

/-- `i64::MIN`. -/
def i64Min : Int := -(2 ^ 63)

/-- `usize::MAX` on a 64-bit target. -/
def usizeMax : Nat := 2 ^ 64 - 1

/-- `x as u32`, the bit reinterpretation of a (wrapped) 32-bit value. -/
def asU32 (x : Int) : Int := x % 2 ^ 32

/-- `x as i32`, keeping the low 32 bits with two's-complement sign. -/
def asI32 (x : Int) : Int := (x + 2 ^ 31) % 2 ^ 32 - 2 ^ 31

/-- The two reinterpretations of one bit pattern agree: `x as i32 as u32 == x as u32`. -/
@[simp] theorem asU32_asI32 (x : Int) : asU32 (asI32 x) = asU32 x := by
  simp only [asU32, asI32]; omega

/-- The errors of `error.rs` that the write engine raises itself; I/O errors arrive as `storage`. -/
inductive Error
  | invalidInput (message : String)
  | invalidOperation (message : String)
  | storage (message : String)
  deriving DecidableEq, Repr

theorem bind_eq_ok {ε α β : Type} {x : Except ε α} {f : α → Except ε β} {r : β} :
    x >>= f = .ok r ↔ ∃ a, x = .ok a ∧ f a = .ok r := by
  cases x with
  | ok a => exact ⟨fun h => ⟨a, rfl, h⟩, fun ⟨_, ha, h⟩ => Except.ok.inj ha ▸ h⟩
  | error e => exact ⟨fun h => (nomatch h), fun ⟨_, h, _⟩ => (nomatch h)⟩

theorem map_eq_ok {ε α β : Type} {x : Except ε α} {f : α → β} {r : β} :
    x.map f = .ok r ↔ ∃ a, x = .ok a ∧ f a = r := by
  cases x with
  | ok a => exact ⟨fun h => ⟨a, rfl, Except.ok.inj h⟩, fun ⟨_, ha, h⟩ => Except.ok.inj ha ▸ h ▸ rfl⟩
  | error e => exact ⟨fun h => (nomatch h), fun ⟨_, h, _⟩ => (nomatch h)⟩

theorem mapM_eq_ok {ε α β : Type} {f : α → Except ε β} {as : List α} {bs : List β} :
    as.mapM f = .ok bs ↔ List.Forall₂ (fun a b => f a = .ok b) as bs := by
  induction as generalizing bs with
  | nil =>
    rw [List.mapM_nil, List.forall₂_nil_left_iff]
    exact ⟨fun h => (Except.ok.inj h).symm, fun h => h ▸ rfl⟩
  | cons a as ih =>
    rw [List.mapM_cons, List.forall₂_cons_left_iff, bind_eq_ok]
    constructor
    · rintro ⟨b, hb, h⟩
      rw [bind_eq_ok] at h
      obtain ⟨bs', hbs, h⟩ := h
      exact ⟨b, bs', hb, ih.1 hbs, (Except.ok.inj h).symm⟩
    · rintro ⟨b, bs', hb, hbs, rfl⟩
      rw [ih.2 hbs]
      exact ⟨b, hb, rfl⟩

theorem mapM_eq_error {ε α β : Type} {f : α → Except ε β} {as : List α} {e : ε}
    (h : as.mapM f = .error e) : ∃ a ∈ as, f a = .error e := by
  induction as with
  | nil => cases h
  | cons a as ih =>
    rw [List.mapM_cons] at h
    cases hf : f a with
    | error e' =>
      rw [hf] at h
      cases h
      exact ⟨a, List.mem_cons_self, hf⟩
    | ok b =>
      cases hrest : as.mapM f with
      | error e' =>
        rw [hf, hrest] at h
        cases h
        obtain ⟨a', hmem, he⟩ := ih hrest
        exact ⟨a', List.mem_cons_of_mem _ hmem, he⟩
      | ok bs =>
        rw [hf, hrest] at h
        cases h

/-! ### Values -/

inductive TombstoneType
  | rowTombstone
  | cellTombstone
  | rangeTombstone
  | ttlExpiration
  | partitionTombstone
  deriving DecidableEq, Repr

/-- Payload of a tombstone value: `deletionTime` in micros, `localDeletionTime` in GC-clock seconds
    (`0` when it was not surfaced). -/
structure TombstoneInfo where
  deletionTime : Int
  tombstoneType : TombstoneType
  localDeletionTime : Int
  ttl : Option Int
  rangeStart : Option Bytes
  rangeEnd : Option Bytes
  deriving DecidableEq, Repr

/-- A CQL value. Floats are bit patterns; `json` holds the serialized text. -/
inductive Value
  | null
  | boolean (b : Bool)
  | integer (n : Int)
  | bigInt (n : Int)
  | counter (n : Int)
  | float (bits : UInt64)
  | text (s : Bytes)
  | blob (s : Bytes)
  | timestamp (n : Int)
  | date (n : Int)
  | time (n : Int)
  | uuid (s : Bytes)
  | varint (s : Bytes)
  | decimal (scale : Int) (unscaled : Bytes)
  | duration (months days nanos : Int)
  | json (repr : String)
  | tinyInt (n : Int)
  | smallInt (n : Int)
  | float32 (bits : UInt32)
  | list (items : List Value)
  | set (items : List Value)
  | map (entries : List (Value × Value))
  | tuple (fields : List Value)
  | udt (typeName keyspace : String) (fields : List (String × Option Value))
  | frozen (inner : Value)
  | tombstone (info : TombstoneInfo)
  | inet (s : Bytes)
  deriving Repr

def Value.isNull : Value → Bool
  | .null => true
  | _ => false

theorem Value.eq_null {v : Value} (h : v.isNull = true) : v = .null := by
  cases v with
  | null => rfl
  | _ => cases h

/-- The derived `Debug` rendering of a value, which `ClusteringKey::cmp` falls back to for values it
    cannot compare. -/
class DebugFmt where
  debug : Value → String

/-- `Debug` on the values the concrete runs use; the general results take any rendering. -/
instance (priority := low) integerDebug : DebugFmt where
  debug
    | .null => "Null"
    | .integer n => "Integer(" ++ toString n ++ ")"
    | _ => ""

/-! ### Floats as bit patterns -/

/-- Magnitude and sign of an IEEE-754 pattern with `w` bits below the sign bit. -/
def ieeeMagnitude (w bits : Nat) : Nat := bits % 2 ^ w

def ieeeNegative (w bits : Nat) : Bool := 2 ^ w ≤ bits

/-- NaN: all exponent bits set and a non-zero mantissa of `m` bits. -/
def ieeeNaN (w m bits : Nat) : Bool := 2 ^ w - 2 ^ m < ieeeMagnitude w bits

/-- The numeric position of a non-NaN pattern, with `-0.0` and `+0.0` both at `0`. -/
def ieeePosition (w bits : Nat) : Int :=
  if ieeeNegative w bits then -(ieeeMagnitude w bits : Int) else ieeeMagnitude w bits

/-- `-0.0 < +0.0`. -/
def signBitTiebreak (w a b : Nat) : Ordering :=
  match ieeeNegative w a, ieeeNegative w b with
  | true, false => .lt
  | false, true => .gt
  | _, _ => .eq

/-- `cassandra_double_cmp`: NaN last, all NaNs equal, signed zeros distinct. -/
def cassandraCmp (w m a b : Nat) : Ordering :=
  match ieeeNaN w m a, ieeeNaN w m b with
  | true, true => .eq
  | true, false => .gt
  | false, true => .lt
  | false, false =>
    match compare (ieeePosition w a) (ieeePosition w b) with
    | .eq => signBitTiebreak w a b
    | ord => ord

def cassandraDoubleCmp (a b : UInt64) : Ordering := cassandraCmp 63 52 a.toNat b.toNat

/-- Widening an `f32` to `f64` keeps order, sign and NaN, so the 32-bit pattern is compared. -/
def cassandraFloatCmp (a b : UInt32) : Ordering := cassandraCmp 31 23 a.toNat b.toNat

/-! ### `compare_values` -/

mutual

/-- `compare_values`: `none` is the `Err` of two values that have no common order. -/
def compareValues : Value → Value → Option Ordering
  | .null, .null => some .eq
  | .null, _ => some .lt
  | _, .null => some .gt
  | .boolean a, .boolean b => some (compare a b)
  | .tinyInt a, .tinyInt b => some (compare a b)
  | .smallInt a, .smallInt b => some (compare a b)
  | .integer a, .integer b => some (compare a b)
  | .bigInt a, .bigInt b => some (compare a b)
  | .counter a, .counter b => some (compare a b)
  | .float32 a, .float32 b => some (cassandraFloatCmp a b)
  | .float a, .float b => some (cassandraDoubleCmp a b)
  | .text a, .text b => some (compare a b)
  | .blob a, .blob b => some (compare a b)
  | .timestamp a, .timestamp b => some (compare a b)
  | .date a, .date b => some (compare a b)
  | .time a, .time b => some (compare a b)
  | .uuid a, .uuid b => some (compare a b)
  | .inet a, .inet b => some (compare a b)
  | .list a, .list b => compareElements a b
  | .set a, .set b => compareElements a b
  | .map a, .map b => compareEntries a b
  | .tuple a, .tuple b => compareElements a b
  | .frozen a, .frozen b => compareValues a b
  | _, _ => none

/-- Element-wise lexicographic comparison; a missing tail sorts first (the length comparison). -/
def compareElements : List Value → List Value → Option Ordering
  | [], [] => some .eq
  | [], _ :: _ => some .lt
  | _ :: _, [] => some .gt
  | a :: as, b :: bs =>
    match compareValues a b with
    | some .eq => compareElements as bs
    | other => other

/-- Map entries: key first, then value, then the next entry. -/
def compareEntries : List (Value × Value) → List (Value × Value) → Option Ordering
  | [], [] => some .eq
  | [], _ :: _ => some .lt
  | _ :: _, [] => some .gt
  | (ka, va) :: as, (kb, vb) :: bs =>
    match compareValues ka kb with
    | some .eq =>
      match compareValues va vb with
      | some .eq => compareEntries as bs
      | other => other
    | other => other

end

/-- `partial_cmp`, which always has an answer; `display` is how other values are written out. -/
def Value.partialCmp {T : Type} [Ord T] (display : Value → T) : Value → Value → Ordering
  | .null, .null => .eq
  | .null, _ => .lt
  | _, .null => .gt
  | .boolean a, .boolean b => compare a b
  | .integer a, .integer b => compare a b
  | .bigInt a, .bigInt b => compare a b
  | .counter a, .counter b => compare a b
  | .float a, .float b => cassandraDoubleCmp a b
  | .text a, .text b => compare a b
  | .blob a, .blob b => compare a b
  | .timestamp a, .timestamp b => compare a b
  | .time a, .time b => compare a b
  | .date a, .date b => compare a b
  | .uuid a, .uuid b => compare a b
  | .tinyInt a, .tinyInt b => compare a b
  | .smallInt a, .smallInt b => compare a b
  | .float32 a, .float32 b => cassandraFloatCmp a b
  | .inet a, .inet b => compare a b
  | a, b => compare (display a) (display b)

/-! ### Schema -/

inductive ClusteringOrder
  | asc
  | desc
  deriving DecidableEq, Repr

structure ClusteringColumn where
  name : String
  order : ClusteringOrder
  deriving DecidableEq, Repr

/-- The part of `TableSchema` the merge reads: the clustering columns and the dropped-column map. -/
structure TableSchema where
  clusteringKeys : List ClusteringColumn
  droppedColumns : String → Option Int

/-! ### Keys -/

/-- Murmur3 token and raw partition-key bytes. -/
structure DecoratedKey where
  token : Int
  key : Bytes
  deriving DecidableEq, Repr

namespace DecoratedKey

/-- Token first, raw bytes on a hash collision. -/
def cmp (a b : DecoratedKey) : Ordering := (compare a.token b.token).then (compare a.key b.key)

end DecoratedKey

theorem decoratedKey_transCmp : Std.TransCmp DecoratedKey.cmp :=
  inferInstanceAs (Std.TransCmp (compareLex (compareOn DecoratedKey.token)
    (compareOn DecoratedKey.key)))

theorem decoratedKey_cmp_eq {a b : DecoratedKey} : DecoratedKey.cmp a b = .eq ↔ a = b := by
  obtain ⟨ta, ka⟩ := a
  obtain ⟨tb, kb⟩ := b
  simp [DecoratedKey.cmp, Ordering.then_eq_eq]

/-- The clustering columns with their values, in schema order. -/
structure ClusteringKey where
  columns : List (String × Value)
  deriving Repr

namespace ClusteringKey

/-- The `i`-th component, an absent one read as NULL. -/
def component (ck : ClusteringKey) (i : Nat) : Value := (ck.columns.map (·.2)).getD i .null

def columnNames (ck : ClusteringKey) : List String := ck.columns.map (·.1)

/-- One position of the schema-aware comparison: NULL first in either direction, DESC reverses two
    present values only. -/
def compareAt (order : ClusteringOrder) : Value → Value → Option Ordering
  | .null, .null => some .eq
  | .null, _ => some .lt
  | _, .null => some .gt
  | a, b => (compareValues a b).map fun o => if order = .desc then o.swap else o

/-- The positions from `i` on. -/
def compareFrom (a b : ClusteringKey) : Nat → List ClusteringColumn → Option Ordering
  | _, [] => some .eq
  | i, col :: cols =>
    match compareAt col.order (a.component i) (b.component i) with
    | some .eq => compareFrom a b (i + 1) cols
    | other => other

/-- `ClusteringKey::compare`: `none` is the schema error or an incomparable pair of values. -/
def compare (a b : ClusteringKey) (schema : TableSchema) : Option Ordering :=
  if a.columns.length > schema.clusteringKeys.length
      ∨ b.columns.length > schema.clusteringKeys.length then
    none
  else
    compareFrom a b 0 schema.clusteringKeys

variable [DebugFmt]

/-- One column of the fallback order: `compare_values`, else the `Debug` texts. -/
def cmpValue (a b : Value) : Ordering :=
  (compareValues a b).getD (Ord.compare (DebugFmt.debug a) (DebugFmt.debug b))

def cmpColumns : List (String × Value) → List (String × Value) → Ordering
  | [], [] => .eq
  | [], _ :: _ => .lt
  | _ :: _, [] => .gt
  | a :: as, b :: bs => (cmpValue a.2 b.2).then (cmpColumns as bs)

/-- `Ord for ClusteringKey`: the schema-less fallback order, column by column and then by length. -/
def cmp (a b : ClusteringKey) : Ordering := cmpColumns a.columns b.columns

/-- `compare(..).unwrap_or_else(|_| cmp)`, the order every merge site uses. -/
def schemaCmp (schema : TableSchema) (a b : ClusteringKey) : Ordering :=
  (a.compare b schema).getD (a.cmp b)

/-- The first `n` components. -/
def truncate (ck : ClusteringKey) (n : Nat) : ClusteringKey := ⟨ck.columns.take n⟩

end ClusteringKey

end Cqlite
