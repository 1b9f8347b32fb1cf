import Cqlite.Writer.ClusteringBytes

/-! Reading clustering values back (`row_decoder/row_framing.rs`: `parse_clustering_prefix`,
    `parse_clustering_value`).

    The reader decides by the name of the column's type, in lower case and untrimmed. It knows six
    forms; a value of any other type is read as a blob behind a length, whatever was written. -/

namespace Cqlite

open VInt

/-! ### Values -/

/-- How the reader takes a type name. -/
inductive ClusteringForm
  | timestamp
  | text
  | int
  | uuid
  | bigInt
  | unsupported
  deriving DecidableEq, Repr

def clusteringForm (dataType : String) : ClusteringForm :=
  match lowercase dataType with
  | "timestamp" => .timestamp
  | "reversedtype(timestamptype)" => .timestamp
  | "text" => .text
  | "utf8type" => .text
  | "varchar" => .text
  | "int" => .int
  | "uuid" => .uuid
  | "timeuuid" => .uuid
  | "bigint" => .bigInt
  | "counter" => .bigInt
  | _ => .unsupported

/-- `from_be_bytes` of a signed integer. -/
def intOfBytes (bytes : Bytes) : Int :=
  if 2 * fromBe bytes < 256 ^ bytes.length then fromBe bytes
  else fromBe bytes - 256 ^ bytes.length

/-- `String::from_utf8` succeeds. -/
def validUtf8 (bytes : Bytes) : Bool := (ByteArray.mk bytes.toArray).validateUTF8

def readLengthPrefixed (data : Bytes) : Option (Bytes × Bytes) :=
  (decodeUnsigned data).bind fun p => splitFront p.1 p.2

/-- The value in front and the bytes behind it; `none` is a corruption error. -/
def parseClusteringValue (dataType : String) (data : Bytes) : Option (Value × Bytes) :=
  match clusteringForm dataType with
  | .timestamp => (splitFront 8 data).map fun p => (.timestamp (intOfBytes p.1), p.2)
  | .text => (readLengthPrefixed data).bind fun p =>
      if validUtf8 p.1 then some (.text p.1, p.2) else none
  | .int => (splitFront 4 data).map fun p => (.integer (intOfBytes p.1), p.2)
  | .uuid => (splitFront 16 data).map fun p => (.uuid p.1, p.2)
  | .bigInt => (splitFront 8 data).map fun p => (.bigInt (intOfBytes p.1), p.2)
  | .unsupported => (readLengthPrefixed data).map fun p => (.blob p.1, p.2)

/-! ### The prefix -/

/-- The value of an EMPTY column. -/
def emptyClusteringValue (dataType : String) : Value :=
  match lowercase dataType with
  | "text" => .text []
  | "varchar" => .text []
  | "ascii" => .text []
  | "blob" => .blob []
  | _ => .null

/-- The two bits of column `i`. -/
def stateBits (header i : Nat) : Nat := (header >>> (2 * i % 64)) % 4

def parseClusteringColumn (header : Nat) (dataType : String) (i : Nat) (data : Bytes) :
    Option (Value × Bytes) :=
  match stateBits header i with
  | 0 => parseClusteringValue dataType data
  | 1 => some (emptyClusteringValue dataType, data)
  | _ => some (.null, data)

def parseClusteringColumns (header : Nat) : List (String × Nat) → Bytes → Option (List Value × Bytes)
  | [], data => some ([], data)
  | (dataType, i) :: columns, data =>
    (parseClusteringColumn header dataType i data).bind fun p =>
      (parseClusteringColumns header columns p.2).map fun q => (p.1 :: q.1, q.2)

def parseClusteringPrefix (types : List String) (data : Bytes) : Option (List Value × Bytes) :=
  if types.isEmpty then some ([], data)
  else (decodeUnsigned data).bind fun p => parseClusteringColumns p.1 types.zipIdx p.2

/-! ### The header -/

/-- A null column whose two bits fall on those of column `i`. -/
def nullOn (values : List Value) (i : Nat) : Bool :=
  values.zipIdx.any fun p => p.1.isNull && decide (2 * p.2 % 64 = 2 * i % 64)

theorem testBit_clusteringState (value : Value) (shift b : Nat) :
    (clusteringState value <<< shift).testBit b = (value.isNull && decide (shift + 1 = b)) := by
  rw [clusteringState, Nat.testBit_shiftLeft]
  cases value.isNull with
  | false => simp
  | true =>
    rw [if_pos rfl, show (2 : Nat) = 2 ^ 1 from rfl, Nat.testBit_two_pow, Bool.true_and,
      ← Bool.decide_and]
    exact decide_eq_decide.mpr (by omega)

theorem testBit_clusteringHeader (values : List Value) (b : Nat) :
    (clusteringHeader values).testBit b =
      values.zipIdx.any fun p => p.1.isNull && decide (2 * p.2 % 64 + 1 = b) := by
  suffices hfold : ∀ (l : List (Value × Nat)) (acc : Nat),
      (l.foldl (fun header p => header ||| clusteringState p.1 <<< (2 * p.2 % 64)) acc).testBit b =
        (acc.testBit b || l.any fun p => p.1.isNull && decide (2 * p.2 % 64 + 1 = b)) by
    rw [clusteringHeader, hfold, Nat.zero_testBit, Bool.false_or]
  intro l
  induction l with
  | nil => simp
  | cons p l ih =>
    intro acc
    rw [List.foldl_cons, ih, Nat.testBit_or, testBit_clusteringState, List.any_cons, Bool.or_assoc]

theorem clusteringHeader_lt (values : List Value) : clusteringHeader values < 2 ^ 64 := by
  refine Nat.lt_pow_two_of_testBit _ fun b hb => ?_
  rw [testBit_clusteringHeader, List.any_eq_false]
  intro p _
  have hne : 2 * p.2 % 64 + 1 ≠ b := by omega
  simp [hne]

/-- A column is read as null when a null column shares its bits, and as present otherwise. -/
theorem stateBits_clusteringHeader (values : List Value) (i : Nat) :
    stateBits (clusteringHeader values) i = if nullOn values i then 2 else 0 := by
  have hlow : (clusteringHeader values >>> (2 * i % 64)).testBit 0 = false := by
    rw [Nat.testBit_shiftRight, testBit_clusteringHeader, List.any_eq_false]
    intro p _
    have hne : 2 * p.2 % 64 + 1 ≠ 2 * i % 64 := by omega
    simp [hne]
  have hhigh : (clusteringHeader values >>> (2 * i % 64)).testBit 1 = nullOn values i := by
    rw [Nat.testBit_shiftRight, testBit_clusteringHeader, nullOn]
    simp only [Nat.add_right_cancel_iff]
  rw [Nat.testBit_eq_decide_div_mod_eq] at hlow hhigh
  rw [stateBits, ← hhigh]
  simp only [decide_eq_true_eq, decide_eq_false_iff_not, pow_zero, Nat.div_one, pow_one] at hlow ⊢
  split
  · omega
  · omega

/-! ### Values read back -/

/-- The values the reader gives back under a form. -/
def Value.readableAs (form : ClusteringForm) : Value → Bool
  | .null => true
  | .timestamp _ => form = .timestamp
  | .text bytes => form = .text && validUtf8 bytes
  | .integer _ => form = .int
  | .uuid _ => form = .uuid
  | .bigInt _ => form = .bigInt
  | .blob _ => form = .unsupported
  | _ => false

/-- The values of the source's machine types. -/
def Value.InRange : Value → Prop
  | .integer n => -(2 ^ 31) ≤ n ∧ n < 2 ^ 31
  | .bigInt n => -(2 ^ 63) ≤ n ∧ n < 2 ^ 63
  | .timestamp n => -(2 ^ 63) ≤ n ∧ n < 2 ^ 63
  | .uuid bytes => bytes.length = 16
  | _ => True

variable {k : Nat} {n : Int} {dataType : String} {data rest : Bytes}

theorem intOfBytes_intBytes (hlow : -(256 ^ k) ≤ 2 * n) (hhigh : 2 * n < 256 ^ k) :
    intOfBytes (intBytes k n) = n := by
  obtain ⟨width, hwidth⟩ : ∃ width : Nat, width = 256 ^ k := ⟨_, rfl⟩
  have hcast : (256 : Int) ^ k = width := by rw [hwidth]; norm_cast
  have hpos : 0 < width := hwidth ▸ Nat.pow_pos (by decide)
  rw [intOfBytes, intBytes, length_beBytes, fromBe_beBytes, ← hwidth]
  rw [hcast] at hlow hhigh ⊢
  have hlt := Int.emod_lt_of_pos n (show (0 : Int) < width by omega)
  have hnonneg := Int.emod_nonneg n (show (width : Int) ≠ 0 by omega)
  rw [Nat.mod_eq_of_lt (by omega)]
  by_cases hn : 0 ≤ n
  · rw [Int.emod_eq_of_lt hn (by omega), if_pos (by omega)]
    omega
  · have hwrap : n % (width : Int) = n + width := by
      rw [← Int.add_emod_right, Int.emod_eq_of_lt (by omega) (by omega)]
    rw [hwrap, if_neg (by omega)]
    omega

theorem read_intBytes (hlow : -(256 ^ k) ≤ 2 * n) (hhigh : 2 * n < 256 ^ k) (wrap : Int → Value)
    (rest : Bytes) :
    ((splitFront k (intBytes k n ++ rest)).map fun p => (wrap (intOfBytes p.1), p.2)) =
      some (wrap n, rest) := by
  rw [splitFront_append (show (intBytes k n).length = k from length_beBytes _ _), Option.map_some,
    intOfBytes_intBytes hlow hhigh]

theorem readLengthPrefixed_lengthPrefixed {bytes : Bytes} (hlen : bytes.length < 2 ^ 64)
    (rest : Bytes) : readLengthPrefixed (lengthPrefixed bytes ++ rest) = some (bytes, rest) := by
  rw [readLengthPrefixed, lengthPrefixed, List.append_assoc, decodeUnsigned_encodeUnsigned hlen,
    Option.bind_some, splitFront_append rfl]

theorem length_le_lengthPrefixed (bytes : Bytes) : bytes.length ≤ (lengthPrefixed bytes).length := by
  rw [lengthPrefixed, List.length_append]
  exact Nat.le_add_left _ _

/-- A readable value that the writer accepts comes back as it was. -/
theorem parseClusteringValue_serialize {codec : ValueCodec} {value : Value}
    {comparator : ComparatorType} {bytes : Bytes}
    (hok : serializeValueForClustering codec value comparator = .ok bytes)
    (hread : value.readableAs (clusteringForm dataType) = true) (hrange : value.InRange)
    (hfit : bytes.length < 2 ^ 64) (rest : Bytes) :
    parseClusteringValue dataType (bytes ++ rest) = some (value, rest) := by
  cases value with
  | timestamp n =>
    have hform : clusteringForm dataType = .timestamp := of_decide_eq_true hread
    cases comparator with
    | timestamp =>
      obtain rfl := Except.ok.inj hok
      rw [parseClusteringValue, hform]
      exact read_intBytes (by have := hrange.1; omega) (by have := hrange.2; omega) _ rest
    | _ => cases hok
  | text s =>
    obtain ⟨hform, hutf⟩ := Bool.and_eq_true_iff.mp hread
    have hform : clusteringForm dataType = .text := of_decide_eq_true hform
    cases comparator with
    | text =>
      obtain rfl := Except.ok.inj hok
      rw [parseClusteringValue, hform]
      simp only [readLengthPrefixed_lengthPrefixed
        ((length_le_lengthPrefixed s).trans_lt hfit) rest, Option.bind_some, hutf, if_true]
    | _ => cases hok
  | integer n =>
    have hform : clusteringForm dataType = .int := of_decide_eq_true hread
    cases comparator with
    | int =>
      obtain rfl := Except.ok.inj hok
      rw [parseClusteringValue, hform]
      exact read_intBytes (by have := hrange.1; omega) (by have := hrange.2; omega) _ rest
    | _ => cases hok
  | uuid s =>
    have hform : clusteringForm dataType = .uuid := of_decide_eq_true hread
    cases comparator with
    | uuid =>
      obtain rfl := Except.ok.inj hok
      rw [parseClusteringValue, hform]
      simp only [splitFront_append hrange, Option.map_some]
    | _ => cases hok
  | bigInt n =>
    have hform : clusteringForm dataType = .bigInt := of_decide_eq_true hread
    cases comparator with
    | bigInt =>
      obtain rfl := Except.ok.inj hok
      rw [parseClusteringValue, hform]
      exact read_intBytes (by have := hrange.1; omega) (by have := hrange.2; omega) _ rest
    | _ => cases hok
  | blob s =>
    have hform : clusteringForm dataType = .unsupported := of_decide_eq_true hread
    cases comparator with
    | blob =>
      obtain rfl := Except.ok.inj hok
      rw [parseClusteringValue, hform]
      simp only [readLengthPrefixed_lengthPrefixed
        ((length_le_lengthPrefixed s).trans_lt hfit) rest, Option.map_some]
    | _ => cases hok
  | null => cases hok
  | _ => cases hread

/-- Whatever bytes it reads, the reader only gives values of the form it takes the type for. -/
theorem readableAs_of_parse {value : Value}
    (h : parseClusteringValue dataType data = some (value, rest)) :
    value.readableAs (clusteringForm dataType) = true ∧ value.isNull = false := by
  rw [parseClusteringValue] at h
  cases hform : clusteringForm dataType with
  | text =>
    rw [hform] at h
    obtain ⟨p, -, hp⟩ := Option.bind_eq_some_iff.mp h
    split at hp
    next hutf =>
      obtain ⟨rfl, -⟩ := Prod.ext_iff.mp (Option.some.inj hp)
      exact ⟨by simpa [Value.readableAs] using hutf, rfl⟩
    · cases hp
  | _ =>
    rw [hform] at h
    obtain ⟨p, -, hp⟩ := Option.map_eq_some_iff.mp h
    obtain ⟨rfl, -⟩ := Prod.ext_iff.mp hp
    exact ⟨rfl, rfl⟩

/-! ### Prefixes read back -/

/-- The keys the reader gives back: as many values as the schema has clustering columns, each
    readable, and no null that shares its bits with a present value. -/
structure PrefixReadable (types : List String) (values : List Value) : Prop where
  length : values.length = types.length
  readable : ∀ p ∈ values.zip types, p.1.readableAs (clusteringForm p.2) = true
  nulls : ∀ p ∈ values.zipIdx, p.1.isNull = nullOn values p.2

section RoundTrip

variable {codec : ValueCodec} {types : List String}

variable {i : Nat}

/-- A readable column whose bits are its own comes back as it was. -/
theorem parseClusteringColumn_write {value : Value} {bytes : Bytes} {header : Nat}
    (htype : types[i]? = some dataType) (hok : clusteringValueBytes codec types value i = .ok bytes)
    (hstate : stateBits header i = if value.isNull then 2 else 0)
    (hread : value.readableAs (clusteringForm dataType) = true) (hrange : value.InRange)
    (hfit : bytes.length < 2 ^ 64) (rest : Bytes) :
    parseClusteringColumn header dataType i (bytes ++ rest) = some (value, rest) := by
  rw [clusteringValueBytes] at hok
  rw [parseClusteringColumn, hstate]
  cases hnull : value.isNull with
  | true =>
    rw [hnull, if_pos rfl] at hok
    obtain rfl := Except.ok.inj hok
    rw [Value.eq_null hnull]
    rfl
  | false =>
    rw [hnull, if_neg (by decide), htype] at hok
    obtain ⟨comparator, -, hok⟩ := bind_eq_ok.mp hok
    exact parseClusteringValue_serialize hok hread hrange hfit rest

theorem parseClusteringColumns_write {header : Nat} (values : List Value) :
    ∀ (names : List String) (k : Nat) (parts : List Bytes),
    values.length = names.length → (∀ p ∈ names.zipIdx k, types[p.2]? = some p.1) →
    (values.zipIdx k).mapM (fun p => clusteringValueBytes codec types p.1 p.2) = .ok parts →
    (∀ p ∈ values.zipIdx k, stateBits header p.2 = if p.1.isNull then 2 else 0) →
    (∀ p ∈ values.zip names, p.1.readableAs (clusteringForm p.2) = true) →
    (∀ v ∈ values, v.InRange) → parts.flatten.length < 2 ^ 64 → ∀ rest,
    parseClusteringColumns header (names.zipIdx k) (parts.flatten ++ rest) = some (values, rest) := by
  induction values with
  | nil =>
    intro names k parts hlen _ hok _ _ _ _ rest
    obtain rfl : names = [] := List.length_eq_zero_iff.mp hlen.symm
    obtain rfl : [] = parts := Except.ok.inj hok
    rfl
  | cons value values ih =>
    intro names k parts hlen htypes hok hstate hread hrange hfit rest
    cases names with
    | nil => cases hlen
    | cons name names =>
      simp only [List.zipIdx_cons, List.zip_cons_cons, List.mem_cons, forall_eq_or_imp] at *
      rw [List.mapM_cons] at hok
      obtain ⟨bytes, hbytes, hok⟩ := bind_eq_ok.mp hok
      obtain ⟨parts, hparts, hok⟩ := bind_eq_ok.mp hok
      obtain rfl := Except.ok.inj hok
      simp only [List.flatten_cons, List.length_append, List.append_assoc] at hfit ⊢
      rw [parseClusteringColumns, parseClusteringColumn_write htypes.1 hbytes hstate.1 hread.1
        hrange.1 (by omega), Option.bind_some, ih names (k + 1) parts (by simpa using hlen) htypes.2
        hparts hstate.2 hread.2 hrange.2 (by omega) rest]
      rfl

variable {values : List Value}

theorem parseClusteringPrefix_write {bytes : Bytes}
    (hok : writeClusteringPrefix codec types values = .ok bytes) (hne : types ≠ [])
    (hread : PrefixReadable types values) (hrange : ∀ v ∈ values, v.InRange)
    (hfit : bytes.length < 2 ^ 64) (rest : Bytes) :
    parseClusteringPrefix types (bytes ++ rest) = some (values, rest) := by
  obtain ⟨parts, hparts, hok⟩ := bind_eq_ok.mp hok
  obtain rfl := Except.ok.inj hok
  rw [List.length_append] at hfit
  rw [parseClusteringPrefix, if_neg (by simpa using hne), List.append_assoc,
    decodeUnsigned_encodeUnsigned (clusteringHeader_lt values), Option.bind_some]
  refine parseClusteringColumns_write values types 0 parts hread.length ?_ hparts ?_ hread.readable
    hrange (by omega) rest
  · intro p hp
    exact List.mem_zipIdx_iff_getElem?.mp hp
  · intro p hp
    rw [stateBits_clusteringHeader, hread.nulls p hp]

/-! ### Only these -/

/-- A column that is read as null has a null on its bits, and is readable in any case. -/
theorem of_parseClusteringColumn {value : Value}
    (h : parseClusteringColumn (clusteringHeader values) dataType i data = some (value, rest)) :
    value.readableAs (clusteringForm dataType) = true ∧ value.isNull = nullOn values i := by
  rw [parseClusteringColumn, stateBits_clusteringHeader] at h
  cases hnull : nullOn values i with
  | true =>
    rw [hnull] at h
    obtain ⟨rfl, -⟩ := Prod.ext_iff.mp (Option.some.inj h)
    exact ⟨rfl, rfl⟩
  | false =>
    rw [hnull] at h
    exact readableAs_of_parse h

theorem of_parseClusteringColumns {header : List Value} : ∀ (names : List String) (k : Nat)
    {data rest : Bytes} {values : List Value},
    parseClusteringColumns (clusteringHeader header) (names.zipIdx k) data = some (values, rest) →
    values.length = names.length ∧
      (∀ p ∈ values.zip names, p.1.readableAs (clusteringForm p.2) = true) ∧
      ∀ p ∈ values.zipIdx k, p.1.isNull = nullOn header p.2 := by
  intro names
  induction names with
  | nil =>
    intro k data rest values h
    obtain ⟨rfl, -⟩ := Prod.ext_iff.mp (Option.some.inj h)
    exact ⟨rfl, by simp, by simp⟩
  | cons name names ih =>
    intro k data rest values h
    rw [List.zipIdx_cons, parseClusteringColumns] at h
    obtain ⟨p, hp, h⟩ := Option.bind_eq_some_iff.mp h
    obtain ⟨q, hq, h⟩ := Option.map_eq_some_iff.mp h
    obtain ⟨rfl, -⟩ := Prod.ext_iff.mp h
    obtain ⟨hread, hnull⟩ := of_parseClusteringColumn hp
    obtain ⟨hlen, hreads, hnulls⟩ := ih (k + 1) hq
    simp only [List.length_cons, List.zip_cons_cons, List.zipIdx_cons, List.mem_cons,
      forall_eq_or_imp]
    exact ⟨by omega, ⟨hread, hreads⟩, hnull, hnulls⟩

theorem prefixReadable_of_parse {bytes : Bytes}
    (hok : writeClusteringPrefix codec types values = .ok bytes) (hne : types ≠ [])
    (h : parseClusteringPrefix types (bytes ++ data) = some (values, rest)) :
    PrefixReadable types values := by
  obtain ⟨parts, hparts, hok⟩ := bind_eq_ok.mp hok
  obtain rfl := Except.ok.inj hok
  rw [parseClusteringPrefix, if_neg (by simpa using hne), List.append_assoc,
    decodeUnsigned_encodeUnsigned (clusteringHeader_lt values), Option.bind_some] at h
  obtain ⟨hlen, hread, hnull⟩ := of_parseClusteringColumns types 0 h
  exact ⟨hlen, hread, hnull⟩

end RoundTrip

end Cqlite
