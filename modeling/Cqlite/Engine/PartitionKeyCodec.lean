import Cqlite.Engine.Mutation
import Cqlite.Query.Compare
import Cqlite.Reader.ClusteringPrefix

/-! The partition-key codec (`storage/partition_key_codec.rs`).

    A key of one column is the bytes of its value; a key of several is one length, one value and one
    zero byte per column. Reading is laxer than writing: several byte strings may stand for one list
    of columns, and only one of them is what the columns are written as. -/

namespace Cqlite

open VInt

/-! ### Values -/

/-- `coerce_value_for_comparator`: an integer literal takes the width of its column. -/
def coerceValueForComparator (value : Value) (comparator : ComparatorType) : Value :=
  match value, comparator with
  | .bigInt n, .int => if -2 ^ 31 ≤ n ∧ n ≤ 2 ^ 31 - 1 then .integer n else .bigInt n
  | .bigInt n, .smallInt => if -2 ^ 15 ≤ n ∧ n ≤ 2 ^ 15 - 1 then .smallInt n else .bigInt n
  | .bigInt n, .tinyInt => if -2 ^ 7 ≤ n ∧ n ≤ 2 ^ 7 - 1 then .tinyInt n else .bigInt n
  | .bigInt n, .timestamp => .timestamp n
  | .integer n, .bigInt => .bigInt n
  | value, _ => value

def serializeValueBytes (value : Value) (comparator : ComparatorType) : Except Error Bytes :=
  match value, comparator with
  | .boolean b, .boolean => .ok [if b then 1 else 0]
  | .tinyInt n, .tinyInt => .ok (intBytes 1 n)
  | .smallInt n, .smallInt => .ok (intBytes 2 n)
  | .integer n, .int => .ok (intBytes 4 n)
  | .bigInt n, .bigInt => .ok (intBytes 8 n)
  | .counter n, .counter => .ok (intBytes 8 n)
  | .float32 bits, .float32 => .ok (beBytes 4 bits.toNat)
  | .float bits, .float => .ok (beBytes 8 bits.toNat)
  | .text bytes, .text => .ok bytes
  | .blob bytes, .blob => .ok bytes
  | .timestamp millis, .timestamp => .ok (intBytes 8 millis)
  -- `wrapping_sub(i32::MIN)`
  | .date days, .date => .ok (intBytes 4 (days + 2 ^ 31))
  | .uuid bytes, .uuid => .ok bytes
  | .time nanos, .custom name =>
    if name = "time" then .ok (intBytes 8 nanos)
    else .error (.invalidInput "Type mismatch encoding partition key")
  | .inet bytes, .custom name =>
    if name = "inet" then .ok bytes
    else .error (.invalidInput "Type mismatch encoding partition key")
  | .varint bytes, .varint => .ok bytes
  | .decimal scale unscaled, .decimal => .ok (intBytes 4 scale ++ unscaled)
  | .duration months days nanos, .duration =>
    .ok (intBytes 4 months ++ intBytes 4 days ++ intBytes 8 nanos)
  | _, _ => .error (.invalidInput "Type mismatch encoding partition key")

/-- The whole of `data` as a value of `k` bytes. -/
def exactly (what : String) (k : Nat) (data : Bytes) (read : Bytes → Value) : Except Error Value :=
  if data.length = k then .ok (read data)
  else .error (.invalidInput (what ++ " requires " ++ toString k ++ " bytes, got " ++
    toString data.length))

/-- The whole of `data` as a value of the type. -/
def deserializeValueBytes (data : Bytes) (comparator : ComparatorType) : Except Error Value :=
  match comparator with
  -- a boolean and a `tinyint` are their first byte, whatever follows
  | .boolean =>
    match data with
    | [] => .error (.invalidInput "Empty boolean value")
    | b :: _ => .ok (.boolean (b != 0))
  | .tinyInt =>
    match data with
    | [] => .error (.invalidInput "Empty tinyint value")
    | b :: _ => .ok (.tinyInt (intOfBytes [b]))
  | .smallInt => exactly "SmallInt" 2 data fun bytes => .smallInt (intOfBytes bytes)
  | .int => exactly "Int" 4 data fun bytes => .integer (intOfBytes bytes)
  | .bigInt => exactly "BigInt" 8 data fun bytes => .bigInt (intOfBytes bytes)
  | .counter => exactly "Counter" 8 data fun bytes => .counter (intOfBytes bytes)
  | .float32 => exactly "Float32" 4 data fun bytes => .float32 (UInt32.ofNat (fromBe bytes))
  | .float => exactly "Float" 8 data fun bytes => .float (UInt64.ofNat (fromBe bytes))
  | .text =>
    if validUtf8 data then .ok (.text data)
    else .error (.invalidInput "Invalid UTF-8 in text value")
  | .blob => .ok (.blob data)
  | .timestamp => exactly "Timestamp" 8 data fun bytes => .timestamp (intOfBytes bytes)
  | .date => exactly "Date" 4 data fun bytes => .date (fromBe bytes - 2 ^ 31)
  | .uuid => exactly "UUID" 16 data .uuid
  | .custom name =>
    if name = "time" then exactly "Time" 8 data fun bytes => .time (intOfBytes bytes)
    else if name = "inet" then .ok (.inet data)
    else .error (.invalidInput "Unsupported comparator for deserialization")
  | .varint => .ok (.varint data)
  | .decimal =>
    if data.length < 4 then
      .error (.invalidInput ("Decimal requires at least 4 bytes, got " ++ toString data.length))
    else .ok (.decimal (intOfBytes (data.take 4)) (data.drop 4))
  | .duration =>
    -- the sixteen bytes in front, whatever follows
    if data.length < 16 then
      .error (.invalidInput ("Duration requires 16 bytes, got " ++ toString data.length))
    else .ok (.duration (intOfBytes (data.take 4)) (intOfBytes ((data.drop 4).take 4))
      (intOfBytes ((data.drop 8).take 8)))
  | .nested _ => .error (.invalidInput "Unsupported comparator for deserialization")

/-! ### Keys -/

section Keys

variable (codec : ValueCodec)

/-- One component per column, and a byte skipped behind each of them, if there is one. -/
def decodeComponents : List KeyColumn → Bytes → Except Error (List (String × Value))
  | [], _ => .ok []
  | column :: columns, data =>
    if data.length < 2 then .error (.invalidInput "Truncated multi-component partition key")
    else if (data.drop 2).length < fromBe (data.take 2) then
      .error (.invalidInput "Partition key component extends beyond data")
    else do
      let comparator ← ComparatorType.fromDataType codec column.dataType
      let value ← deserializeValueBytes ((data.drop 2).take (fromBe (data.take 2))) comparator
      let rest ← decodeComponents columns ((data.drop 2).drop (fromBe (data.take 2))).tail
      return (column.name, value) :: rest

def decodePartitionKeyColumns (data : Bytes) (keys : List KeyColumn) :
    Except Error (List (String × Value)) :=
  if keys.isEmpty then .error (.invalidInput "Schema has no partition keys")
  else if data.isEmpty then .error (.invalidInput "Empty partition key bytes")
  else match keys with
    | [column] => do
      let comparator ← ComparatorType.fromDataType codec column.dataType
      let value ← deserializeValueBytes data comparator
      return [(column.name, value)]
    | keys => decodeComponents codec keys data

def encodeOne (dataType : String) (value : Value) : Except Error Bytes := do
  let comparator ← ComparatorType.fromDataType codec dataType
  serializeValueBytes (coerceValueForComparator value comparator) comparator

def encodeComponents : List KeyColumn → List Value → Except Error Bytes
  | column :: columns, value :: values => do
    let component ← PartitionKey.componentBytes (← encodeOne codec column.dataType value)
    let rest ← encodeComponents columns values
    return component ++ rest
  | _, _ => .ok []

def encodePartitionKeyColumns (values : List Value) (keys : List KeyColumn) : Except Error Bytes :=
  if keys.isEmpty then .error (.invalidInput "Schema has no partition keys")
  else if values.length ≠ keys.length then
    .error (.invalidInput ("Partition key column count mismatch: expected " ++
      toString keys.length ++ ", got " ++ toString values.length))
  else match keys, values with
    | [column], [value] => encodeOne codec column.dataType value
    | keys, values => encodeComponents codec keys values

end Keys

/-! ### Bytes of integers -/

theorem intBytes_intOfBytes {k : Nat} {bytes : Bytes} (h : bytes.length = k) :
    intBytes k (intOfBytes bytes) = bytes := by
  subst h
  have hlt := fromBe_lt bytes
  have hmod : (intOfBytes bytes % 256 ^ bytes.length).toNat = fromBe bytes := by
    have hcast : ((256 ^ bytes.length : Nat) : Int) = 256 ^ bytes.length := by norm_cast
    unfold intOfBytes
    split
    · rw [← hcast, ← Int.natCast_mod, Int.toNat_natCast, Nat.mod_eq_of_lt hlt]
    · rw [Int.sub_emod_right, ← hcast, ← Int.natCast_mod, Int.toNat_natCast, Nat.mod_eq_of_lt hlt]
  rw [intBytes, hmod, beBytes_fromBe]

/-! ### Values and their types -/

/-- The values a type has bytes for. -/
def ComparatorType.holds : ComparatorType → Value → Bool
  | .boolean, .boolean _ => true
  | .tinyInt, .tinyInt _ => true
  | .smallInt, .smallInt _ => true
  | .int, .integer _ => true
  | .bigInt, .bigInt _ => true
  | .counter, .counter _ => true
  | .float32, .float32 _ => true
  | .float, .float _ => true
  | .text, .text _ => true
  | .blob, .blob _ => true
  | .timestamp, .timestamp _ => true
  | .date, .date _ => true
  | .uuid, .uuid _ => true
  | .custom name, .time _ => name = "time"
  | .custom name, .inet _ => name = "inet"
  | .varint, .varint _ => true
  | .decimal, .decimal _ _ => true
  | .duration, .duration _ _ _ => true
  | _, _ => false

variable {data : Bytes} {v w : Value} {comparator : ComparatorType}

theorem exactly_eq_ok {what : String} {k : Nat} {read : Bytes → Value} :
    exactly what k data read = .ok v ↔ data.length = k ∧ read data = v := by
  unfold exactly
  split <;> simp_all

theorem holds_of_serialize {bytes : Bytes} (h : serializeValueBytes w comparator = .ok bytes) :
    comparator.holds w = true := by
  unfold serializeValueBytes at h
  split at h <;> first | rfl | (split at h <;> simp_all [ComparatorType.holds]) | cases h

/-- A decoded value is of the declared type. -/
theorem holds_of_deserialize (h : deserializeValueBytes data comparator = .ok v) :
    comparator.holds v = true := by
  cases comparator with
  | boolean | tinyInt =>
    obtain _ | ⟨b, data⟩ := data <;> cases h
    rfl
  | text | decimal | duration =>
    simp only [deserializeValueBytes] at h
    split at h <;> cases h
    rfl
  | blob | varint =>
    cases h
    rfl
  | nested => cases h
  | custom name =>
    simp only [deserializeValueBytes] at h
    split at h
    · obtain ⟨-, rfl⟩ := exactly_eq_ok.1 h
      simpa [ComparatorType.holds]
    · split at h <;> cases h
      simpa [ComparatorType.holds]
  | _ =>
    simp only [deserializeValueBytes, exactly_eq_ok] at h
    obtain ⟨-, rfl⟩ := h
    rfl

theorem coerce_of_holds (h : comparator.holds v = true) :
    coerceValueForComparator v comparator = v := by
  unfold coerceValueForComparator
  split <;> first | rfl | cases h

/-- A literal that equals a value of the column, and that has bytes in the column's type, is that
    value there. Floating-point columns are the exception: zeros are equal. -/
theorem coerce_of_equal (hv : comparator.holds v = true) (hfloat : comparator ≠ .float)
    (hfloat32 : comparator ≠ .float32) (heq : v.valuesEqual w = true)
    (hw : comparator.holds (coerceValueForComparator w comparator) = true) :
    coerceValueForComparator w comparator = v := by
  cases comparator <;> cases v <;> first | cases hv | skip
  all_goals cases w <;> simp_all [Value.valuesEqual, Value.partialEq, Value.asIntegralI128,
    Value.asF64, coerceValueForComparator, ComparatorType.holds]
  -- a literal that does not fit stays a `bigint`
  all_goals
    by_contra hfit
    simp [hfit] at hw

/-- Bytes of the writer are written again as they were. -/
theorem serialize_of_deserialize {bytes : Bytes} (hw : serializeValueBytes w comparator = .ok bytes)
    (hv : deserializeValueBytes bytes comparator = .ok v) :
    serializeValueBytes v comparator = .ok bytes := by
  cases comparator with
  | boolean =>
    cases w <;> cases hw
    rename_i b
    cases b <;> cases hv <;> rfl
  | tinyInt =>
    obtain _ | ⟨b, bytes⟩ := bytes <;> cases hv
    obtain rfl : bytes = [] := by cases w <;> cases hw; rfl
    exact congrArg _ (@intBytes_intOfBytes 1 [b] rfl)
  | text =>
    simp only [deserializeValueBytes] at hv
    split at hv <;> cases hv
    rfl
  | blob | varint =>
    cases hv
    rfl
  | nested => cases hv
  | decimal =>
    simp only [deserializeValueBytes] at hv
    split at hv <;> cases hv
    rename_i hlen
    have hfour : (bytes.take 4).length = 4 := by rw [List.length_take]; omega
    simp only [serializeValueBytes, intBytes_intOfBytes hfour, List.take_append_drop]
  | duration =>
    simp only [deserializeValueBytes] at hv
    split at hv <;> cases hv
    rename_i hlen
    have hsixteen : bytes.length = 16 := by
      cases w <;> cases hw
      simp only [List.length_append, length_intBytes]
    have hmonths : (bytes.take 4).length = 4 := by rw [List.length_take]; omega
    have hdays : ((bytes.drop 4).take 4).length = 4 := by
      rw [List.length_take, List.length_drop]; omega
    have hnanos : (bytes.drop 8).length = 8 := by rw [List.length_drop]; omega
    have hdrop : (bytes.drop 4).take 4 ++ bytes.drop 8 = bytes.drop 4 := by
      rw [show bytes.drop 8 = (bytes.drop 4).drop 4 by rw [List.drop_drop], List.take_append_drop]
    simp only [serializeValueBytes, List.take_of_length_le hnanos.le, intBytes_intOfBytes hmonths,
      intBytes_intOfBytes hdays, intBytes_intOfBytes hnanos, hdrop, List.append_assoc,
      List.take_append_drop]
  | custom name =>
    simp only [deserializeValueBytes] at hv
    split at hv
    · rename_i hname
      obtain ⟨hlen, rfl⟩ := exactly_eq_ok.1 hv
      simp only [serializeValueBytes, if_pos hname, intBytes_intOfBytes hlen]
    · split at hv <;> cases hv
      rename_i hname
      simp only [serializeValueBytes, if_pos hname]
  | date =>
    simp only [deserializeValueBytes, exactly_eq_ok] at hv
    obtain ⟨hlen, rfl⟩ := hv
    have hlt := fromBe_lt bytes
    rw [hlen] at hlt
    have hmod : ((fromBe bytes : Int) % 256 ^ 4).toNat = fromBe bytes := by omega
    simp only [serializeValueBytes, intBytes, Int.sub_add_cancel, hmod]
    rw [← hlen, beBytes_fromBe]
  | float | float32 =>
    simp only [deserializeValueBytes, exactly_eq_ok] at hv
    obtain ⟨hlen, rfl⟩ := hv
    have hlt := fromBe_lt bytes
    rw [hlen] at hlt
    simp only [serializeValueBytes, UInt64.toNat_ofNat', UInt32.toNat_ofNat']
    rw [Nat.mod_eq_of_lt (hlt.trans_eq (by norm_num)), ← hlen, beBytes_fromBe]
  | _ =>
    simp only [deserializeValueBytes, exactly_eq_ok] at hv
    obtain ⟨hlen, rfl⟩ := hv
    first
    | exact congrArg _ (intBytes_intOfBytes hlen)
    | rfl

/-! ### Keys that stand for the same columns -/

section Canonical

variable {codec : ValueCodec}

variable {dataType : String} {cols : List (String × Value)} {literals : List Value} {bytes : Bytes}

theorem encodeOne_eq_ok {value : Value} :
    encodeOne codec dataType value = .ok bytes ↔
      ∃ comparator, ComparatorType.fromDataType codec dataType = .ok comparator ∧
        serializeValueBytes (coerceValueForComparator value comparator) comparator = .ok bytes := by
  unfold encodeOne
  cases ComparatorType.fromDataType codec dataType <;> simp [bind, Except.bind]

/-- No floating-point type. -/
def NotFloat (codec : ValueCodec) (dataType : String) : Prop :=
  ComparatorType.fromDataType codec dataType ≠ .ok .float ∧
    ComparatorType.fromDataType codec dataType ≠ .ok .float32

theorem encodeOne_of_equal (hc : ComparatorType.fromDataType codec dataType = .ok comparator)
    (hfloat : NotFloat codec dataType) (hv : deserializeValueBytes data comparator = .ok v)
    (heq : v.valuesEqual w = true) (hw : encodeOne codec dataType w = .ok bytes) :
    encodeOne codec dataType v = .ok bytes := by
  obtain ⟨c, hc', hser⟩ := encodeOne_eq_ok.1 hw
  obtain rfl := Except.ok.inj (hc.symm.trans hc')
  have hholds := holds_of_deserialize hv
  have hcoerce := coerce_of_equal hholds (fun h => hfloat.1 (h ▸ hc)) (fun h => hfloat.2 (h ▸ hc))
    heq (holds_of_serialize hser)
  refine encodeOne_eq_ok.2 ⟨comparator, hc, ?_⟩
  rw [coerce_of_holds hholds, ← hcoerce]
  exact hser

theorem encodeOne_of_decoded (hc : ComparatorType.fromDataType codec dataType = .ok comparator)
    (hw : encodeOne codec dataType w = .ok bytes)
    (hv : deserializeValueBytes bytes comparator = .ok v) :
    encodeOne codec dataType v = .ok bytes := by
  obtain ⟨c, hc', hser⟩ := encodeOne_eq_ok.1 hw
  obtain rfl := Except.ok.inj (hc.symm.trans hc')
  refine encodeOne_eq_ok.2 ⟨comparator, hc, ?_⟩
  rw [coerce_of_holds (holds_of_deserialize hv)]
  exact serialize_of_deserialize hser hv

variable {columns : List KeyColumn}

theorem decodeComponents_cons {column : KeyColumn}
    (h : decodeComponents codec (column :: columns) data = .ok cols) :
    ∃ comparator value rest, ComparatorType.fromDataType codec column.dataType = .ok comparator ∧
      deserializeValueBytes ((data.drop 2).take (fromBe (data.take 2))) comparator = .ok value ∧
      decodeComponents codec columns ((data.drop 2).drop (fromBe (data.take 2))).tail = .ok rest ∧
      cols = (column.name, value) :: rest := by
  rw [decodeComponents] at h
  split at h
  · cases h
  · split at h
    · cases h
    · obtain ⟨comparator, hc, h⟩ := bind_eq_ok.1 h
      obtain ⟨value, hv, h⟩ := bind_eq_ok.1 h
      obtain ⟨rest, hrest, h⟩ := bind_eq_ok.1 h
      exact ⟨comparator, value, rest, hc, hv, hrest, (Except.ok.inj h).symm⟩

theorem encodeComponents_cons {column : KeyColumn} {value : Value} {values : List Value} :
    encodeComponents codec (column :: columns) (value :: values) = .ok bytes ↔
      ∃ component rest, encodeOne codec column.dataType value = .ok component ∧
        component.length ≤ 65535 ∧ encodeComponents codec columns values = .ok rest ∧
        bytes = u16ToBeBytes component.length ++ component ++ [0] ++ rest := by
  rw [encodeComponents]
  refine ⟨fun h => ?_, ?_⟩
  · obtain ⟨component, hone, h⟩ := bind_eq_ok.1 h
    obtain ⟨framed, hframed, h⟩ := bind_eq_ok.1 h
    obtain ⟨rest, hrest, h⟩ := bind_eq_ok.1 h
    unfold PartitionKey.componentBytes at hframed
    split at hframed <;> cases hframed
    exact ⟨component, rest, hone, by omega, hrest, (Except.ok.inj h).symm⟩
  · rintro ⟨component, rest, hone, hlen, hrest, rfl⟩
    refine bind_eq_ok.2 ⟨component, hone, bind_eq_ok.2 ⟨_, ?_, bind_eq_ok.2 ⟨rest, hrest, rfl⟩⟩⟩
    rw [PartitionKey.componentBytes, if_neg (Nat.not_lt.2 hlen)]

theorem fromBe_u16ToBeBytes {n : Nat} (h : n ≤ 65535) :
    (u16ToBeBytes n).length = 2 ∧ fromBe (u16ToBeBytes n) = n := by
  refine ⟨rfl, ?_⟩
  have hbytes : u16ToBeBytes n = beBytes 2 n := by
    rw [u16ToBeBytes, beBytes, beBytes, beBytes]
    congr 1
    · exact congrArg UInt8.ofNat (by omega)
    · congr 1
      rw [← UInt8.toNat_inj]
      change n % 256 = n / 256 ^ 0 % 256 % 256
      omega
  rw [hbytes, fromBe_beBytes, Nat.mod_eq_of_lt (by omega)]

theorem decodeComponents_names (h : decodeComponents codec columns data = .ok cols) :
    cols.map (·.1) = columns.map (·.name) := by
  induction columns generalizing data cols with
  | nil =>
    cases h
    rfl
  | cons column columns ih =>
    obtain ⟨comparator, value, rest, -, -, hrest, rfl⟩ := decodeComponents_cons h
    rw [List.map_cons, List.map_cons, ih hrest]

variable {keys : List KeyColumn}

theorem decodePartitionKeyColumns_eq_ok (h : decodePartitionKeyColumns codec data keys = .ok cols) :
    (∃ column comparator value, keys = [column] ∧
      ComparatorType.fromDataType codec column.dataType = .ok comparator ∧
      deserializeValueBytes data comparator = .ok value ∧ cols = [(column.name, value)]) ∨
    2 ≤ keys.length ∧ decodeComponents codec keys data = .ok cols := by
  unfold decodePartitionKeyColumns at h
  split at h
  · cases h
  · split at h
    · cases h
    · rename_i hne _
      cases keys with
      | nil => exact absurd rfl hne
      | cons column columns =>
        cases columns with
        | nil =>
          obtain ⟨comparator, hc, h⟩ := bind_eq_ok.1 h
          obtain ⟨value, hv, h⟩ := bind_eq_ok.1 h
          cases h
          exact .inl ⟨column, comparator, value, rfl, hc, hv, rfl⟩
        | cons other columns => exact .inr ⟨by simp, h⟩

theorem decodePartitionKeyColumns_names (h : decodePartitionKeyColumns codec data keys = .ok cols) :
    cols.map (·.1) = keys.map (·.name) := by
  rcases decodePartitionKeyColumns_eq_ok h with ⟨column, comparator, value, rfl, -, -, rfl⟩ | ⟨-, h⟩
  · rfl
  · exact decodeComponents_names h

theorem encodePartitionKeyColumns_eq {values : List Value} (hlen : values.length = keys.length)
    (hkeys : 2 ≤ keys.length) :
    encodePartitionKeyColumns codec values keys = encodeComponents codec keys values := by
  obtain ⟨column, other, columns, rfl⟩ : ∃ column other columns, keys = column :: other :: columns := by
    match keys, hkeys with
    | column :: other :: columns, _ => exact ⟨column, other, columns, rfl⟩
  rw [encodePartitionKeyColumns, if_neg (by simp), if_neg (by simpa using hlen)]
  intro column value hone
  cases hone

/-- Literals that equal the columns of a key are written as the columns are. -/
theorem encodeComponents_of_equal (hfloat : ∀ column ∈ columns, NotFloat codec column.dataType)
    (hcols : decodeComponents codec columns data = .ok cols)
    (hequal : List.Forall₂ (fun v w => Value.valuesEqual v w = true) (cols.map (·.2)) literals)
    (h : encodeComponents codec columns literals = .ok bytes) :
    encodeComponents codec columns (cols.map (·.2)) = .ok bytes := by
  induction columns generalizing data bytes cols literals with
  | nil =>
    cases hcols
    cases hequal
    exact h
  | cons column columns ih =>
    obtain ⟨comparator, value, rest, hc, hv, hrest, rfl⟩ := decodeComponents_cons hcols
    cases hequal with
    | @cons _ literal _ literals heq hequal =>
      obtain ⟨component, bytes, hone, hlen, hbytes, rfl⟩ := encodeComponents_cons.1 h
      refine encodeComponents_cons.2 ⟨component, bytes, ?_, hlen, ?_, rfl⟩
      · exact encodeOne_of_equal hc (hfloat column List.mem_cons_self) hv heq hone
      · exact ih (fun c hmem => hfloat c (List.mem_cons_of_mem _ hmem)) hrest hequal hbytes

theorem encode_of_equal (hfloat : ∀ column ∈ keys, NotFloat codec column.dataType)
    (hcols : decodePartitionKeyColumns codec data keys = .ok cols)
    (hequal : List.Forall₂ (fun v w => Value.valuesEqual v w = true) (cols.map (·.2)) literals)
    (h : encodePartitionKeyColumns codec literals keys = .ok bytes) :
    encodePartitionKeyColumns codec (cols.map (·.2)) keys = .ok bytes := by
  have hnames := congrArg List.length (decodePartitionKeyColumns_names hcols)
  rw [List.length_map, List.length_map] at hnames
  have hlen := hequal.length_eq
  rw [List.length_map] at hlen
  rcases decodePartitionKeyColumns_eq_ok hcols with ⟨column, comparator, value, rfl, hc, hv, rfl⟩ |
    ⟨htwo, hcols⟩
  · cases hequal with
    | @cons _ literal _ _ heq hequal =>
      cases hequal
      exact encodeOne_of_equal hc (hfloat column List.mem_cons_self) hv heq h
  · rw [encodePartitionKeyColumns_eq (by rw [List.length_map, hnames]) htwo]
    rw [encodePartitionKeyColumns_eq (by omega) htwo] at h
    exact encodeComponents_of_equal hfloat hcols hequal h

/-- What is written is what the columns it reads as are written as. -/
theorem encodeComponents_of_decoded (hlen : literals.length = columns.length)
    (h : encodeComponents codec columns literals = .ok bytes)
    (hcols : decodeComponents codec columns bytes = .ok cols) :
    encodeComponents codec columns (cols.map (·.2)) = .ok bytes := by
  induction columns generalizing bytes cols literals with
  | nil =>
    cases hcols
    cases literals <;> exact h
  | cons column columns ih =>
    obtain ⟨comparator, value, rest, hc, hv, hrest, rfl⟩ := decodeComponents_cons hcols
    obtain ⟨literal, literals, rfl⟩ := List.exists_cons_of_length_eq_add_one hlen
    obtain ⟨component, tail, hone, hshort, htail, rfl⟩ := encodeComponents_cons.1 h
    obtain ⟨htwo, hread⟩ := fromBe_u16ToBeBytes hshort
    have hsplit : u16ToBeBytes component.length ++ component ++ [0] ++ tail =
        u16ToBeBytes component.length ++ (component ++ ([0] ++ tail)) := by
      simp only [List.append_assoc]
    have hfront : (u16ToBeBytes component.length ++ component ++ [0] ++ tail).take 2 =
        u16ToBeBytes component.length := by rw [hsplit, List.take_left' htwo]
    have hback : (u16ToBeBytes component.length ++ component ++ [0] ++ tail).drop 2 =
        component ++ ([0] ++ tail) := by rw [hsplit, List.drop_left' htwo]
    rw [hfront, hread, hback, List.take_left] at hv
    rw [hfront, hread, hback, List.drop_left] at hrest
    refine encodeComponents_cons.2 ⟨component, tail, ?_, hshort, ?_, rfl⟩
    · exact encodeOne_of_decoded hc hone hv
    · exact ih (by simpa using hlen) htail hrest

theorem encode_of_decoded (h : encodePartitionKeyColumns codec literals keys = .ok bytes)
    (hcols : decodePartitionKeyColumns codec bytes keys = .ok cols) :
    encodePartitionKeyColumns codec (cols.map (·.2)) keys = .ok bytes := by
  have hnames := congrArg List.length (decodePartitionKeyColumns_names hcols)
  rw [List.length_map, List.length_map] at hnames
  have hlen : literals.length = keys.length := by
    unfold encodePartitionKeyColumns at h
    split at h
    · cases h
    · split at h
      · cases h
      · rename_i hcount
        exact not_not.1 hcount
  rcases decodePartitionKeyColumns_eq_ok hcols with ⟨column, comparator, value, rfl, hc, hv, rfl⟩ |
    ⟨htwo, hcols⟩
  · obtain ⟨literal, literals, rfl⟩ := List.exists_cons_of_length_eq_add_one hlen
    obtain rfl : literals = [] := List.length_eq_zero_iff.1 (by simpa using hlen)
    exact encodeOne_of_decoded hc h hv
  · rw [encodePartitionKeyColumns_eq (by rw [List.length_map, hnames]) htwo]
    rw [encodePartitionKeyColumns_eq hlen htwo] at h
    exact encodeComponents_of_decoded hlen h hcols

end Canonical

end Cqlite
