import Cqlite.Engine.PartitionKeyCodec

/-! Partition keys of the write path, encoded and decoded (`write_engine/mutation.rs`:
    `PartitionKey::to_bytes`, `PartitionKey::from_bytes`, `serialize_value_bytes`).

    Decoding goes through the codec of the read path. Here a null has no bytes, like an empty text:
    behind a length the two cannot be told apart, and a key without bytes is refused. -/

namespace Cqlite

open VInt

/-! ### Keys of the write path -/

/-- `serialize_value_bytes` of `mutation.rs`. -/
def serializeKeyValueBytes (value : Value) (comparator : ComparatorType) : Except Error Bytes :=
  match value, comparator with
  | .null, _ => .ok []
  | .boolean b, .boolean => .ok [if b then 1 else 0]
  | .tinyInt n, .tinyInt => .ok (intBytes 1 n)
  | .smallInt n, .smallInt => .ok (intBytes 2 n)
  | .integer n, .int => .ok (intBytes 4 n)
  | .bigInt n, .bigInt => .ok (intBytes 8 n)
  | .counter n, .counter => .ok (intBytes 8 n)
  | .float32 bits, .float32 => .ok (beBytes 4 bits.toNat)
  | .float bits, .float => .ok (beBytes 8 bits.toNat)
  | .text bytes, .text => .ok bytes
  | .blob bytes, .blob => .ok bytes
  | .timestamp millis, .timestamp => .ok (intBytes 8 millis)
  | .date days, .date => .ok (intBytes 4 (days + 2 ^ 31))
  | .uuid bytes, .uuid => .ok bytes
  | .time nanos, .custom name =>
    if name = "time" then .ok (intBytes 8 nanos)
    else .error (.invalidInput "Type mismatch: value does not match comparator")
  | .inet bytes, .custom name =>
    if name = "inet" then .ok bytes
    else .error (.invalidInput "Type mismatch: value does not match comparator")
  | .varint bytes, .varint => .ok bytes
  | .decimal scale unscaled, .decimal => .ok (intBytes 4 scale ++ unscaled)
  | .duration months days nanos, .duration =>
    .ok (intBytes 4 months ++ intBytes 4 days ++ intBytes 8 nanos)
  | _, _ => .error (.invalidInput "Type mismatch: value does not match comparator")

namespace PartitionKey

section Codec

variable (codec : ValueCodec)

/-- `serialize_value`. -/
def serializeValue (value : Value) (keyColumn : KeyColumn) : Except Error Bytes := do
  let comparator ← ComparatorType.fromDataType codec keyColumn.dataType
  serializeKeyValueBytes value comparator

/-- `from_bytes`. -/
def fromBytes (data : Bytes) (keys : List KeyColumn) : Except Error PartitionKey :=
  if keys.isEmpty then .error (.invalidInput "Schema has no partition keys")
  else if data.isEmpty then .error (.invalidInput "Empty partition key bytes")
  else do
    let columns ← decodePartitionKeyColumns codec data keys
    return ⟨columns⟩

end Codec

end PartitionKey

/-! ### Values -/

/-- What a value of the source can hold: machine integers, 16 bytes of UUID, and text that was
    validated when it was built. -/
def Value.Representable : Value → Prop
  | .tinyInt n => -(2 ^ 7) ≤ n ∧ n < 2 ^ 7
  | .smallInt n => -(2 ^ 15) ≤ n ∧ n < 2 ^ 15
  | .integer n | .date n => -(2 ^ 31) ≤ n ∧ n < 2 ^ 31
  | .bigInt n | .counter n | .timestamp n | .time n => -(2 ^ 63) ≤ n ∧ n < 2 ^ 63
  | .text bytes => validUtf8 bytes = true
  | .uuid bytes => bytes.length = 16
  | .decimal scale _ => -(2 ^ 31) ≤ scale ∧ scale < 2 ^ 31
  | .duration months days nanos => (-(2 ^ 31) ≤ months ∧ months < 2 ^ 31) ∧
      (-(2 ^ 31) ≤ days ∧ days < 2 ^ 31) ∧ -(2 ^ 63) ≤ nanos ∧ nanos < 2 ^ 63
  | _ => True

/-- The values without bytes. -/
def Value.hasNoBytes : Value → Bool
  | .null => true
  | .text bytes | .blob bytes | .varint bytes | .inet bytes => bytes.isEmpty
  | _ => false

theorem exactly_intBytes {what : String} {k : Nat} {n : Int} (hlow : -(256 ^ k) ≤ 2 * n)
    (hhigh : 2 * n < 256 ^ k) (wrap : Int → Value) :
    exactly what k (intBytes k n) (fun bytes => wrap (intOfBytes bytes)) = .ok (wrap n) :=
  exactly_eq_ok.2 ⟨length_intBytes k n, congrArg wrap (intOfBytes_intBytes hlow hhigh)⟩

variable {comparator : ComparatorType} {v : Value} {bytes : Bytes}

/-- A representable value reads back. -/
theorem deserialize_of_serialize (h : serializeValueBytes v comparator = .ok bytes)
    (hv : v.Representable) : deserializeValueBytes bytes comparator = .ok v := by
  have hholds := holds_of_serialize h
  cases comparator <;> cases v <;> first | cases hholds | skip
  case boolean.boolean b =>
    cases h
    cases b <;> rfl
  case tinyInt.tinyInt n =>
    cases h
    have hread := intOfBytes_intBytes (k := 1) (n := n) (by have := hv.1; omega) (by have := hv.2; omega)
    obtain ⟨b, hb⟩ := List.length_eq_one_iff.1 (length_intBytes 1 n)
    rw [hb] at hread ⊢
    simp only [deserializeValueBytes, hread]
  case smallInt.smallInt n | int.integer n | bigInt.bigInt n | counter.counter n |
      timestamp.timestamp n =>
    cases h
    exact exactly_intBytes (by have := hv.1; omega) (by have := hv.2; omega) _
  case float32.float32 bits =>
    cases h
    simp only [deserializeValueBytes, exactly_eq_ok]
    refine ⟨length_beBytes _ _, ?_⟩
    rw [fromBe_beBytes, Nat.mod_eq_of_lt (bits.toNat_lt.trans_eq (by norm_num)), UInt32.ofNat_toNat]
  case float.float bits =>
    cases h
    simp only [deserializeValueBytes, exactly_eq_ok]
    refine ⟨length_beBytes _ _, ?_⟩
    rw [fromBe_beBytes, Nat.mod_eq_of_lt (bits.toNat_lt.trans_eq (by norm_num)), UInt64.ofNat_toNat]
  case text.text s =>
    cases h
    exact if_pos hv
  case blob.blob s | varint.varint s =>
    cases h
    rfl
  case uuid.uuid s =>
    cases h
    exact exactly_eq_ok.2 ⟨hv, rfl⟩
  case date.date days =>
    cases h
    simp only [deserializeValueBytes, exactly_eq_ok]
    refine ⟨length_intBytes _ _, congrArg _ ?_⟩
    have := hv.1
    have := hv.2
    rw [intBytes, fromBe_beBytes]
    omega
  case custom.time name n =>
    obtain rfl : name = "time" := of_decide_eq_true hholds
    cases h
    simp only [deserializeValueBytes, if_true]
    exact exactly_intBytes (by have := hv.1; omega) (by have := hv.2; omega) _
  case custom.inet name s =>
    obtain rfl : name = "inet" := of_decide_eq_true hholds
    cases h
    rfl
  case decimal.decimal scale unscaled =>
    cases h
    have hlen : (intBytes 4 scale).length = 4 := length_intBytes _ _
    simp only [deserializeValueBytes]
    rw [if_neg (by simp [hlen]), List.take_left' hlen, List.drop_left' hlen,
      intOfBytes_intBytes (by have := hv.1; omega) (by have := hv.2; omega)]
  case duration.duration months days nanos =>
    cases h
    obtain ⟨hmonths, hdays, hnanos⟩ := hv
    have hlen : (intBytes 4 months).length = 4 := length_intBytes _ _
    have hlen' : (intBytes 4 days).length = 4 := length_intBytes _ _
    have hlen'' : (intBytes 8 nanos).length = 8 := length_intBytes _ _
    have hdrop : ((intBytes 4 months ++ intBytes 4 days) ++ intBytes 8 nanos).drop 8 =
        intBytes 8 nanos := List.drop_left' (by simp [hlen, hlen'])
    simp only [deserializeValueBytes]
    rw [if_neg (by simp [hlen, hlen', hlen'']), hdrop, List.append_assoc, List.take_left' hlen,
      List.drop_left' hlen, List.take_left' hlen', List.take_of_length_le hlen''.le,
      intOfBytes_intBytes (by omega) (by omega), intOfBytes_intBytes (by omega) (by omega),
      intOfBytes_intBytes (by omega) (by omega)]

/-- On anything but a null the serializer is that of the read path. -/
theorem serializeKeyValueBytes_eq_ok (hnull : v ≠ .null) :
    serializeKeyValueBytes v comparator = .ok bytes ↔ serializeValueBytes v comparator = .ok bytes := by
  unfold serializeKeyValueBytes serializeValueBytes
  cases v with
  | null => exact absurd rfl hnull
  | time | inet =>
    cases comparator with
    | custom =>
      simp only
      split_ifs <;> simp
    | _ => simp
  | _ => cases comparator <;> simp

theorem deserialize_of_serializeKey (h : serializeKeyValueBytes v comparator = .ok bytes)
    (hnull : v ≠ .null) (hv : v.Representable) :
    deserializeValueBytes bytes comparator = .ok v :=
  deserialize_of_serialize ((serializeKeyValueBytes_eq_ok hnull).1 h) hv

theorem hasNoBytes_of_deserialize (h : deserializeValueBytes [] comparator = .ok v) :
    v.hasNoBytes = true := by
  cases comparator with
  | text | blob | varint =>
    cases h
    rfl
  | custom name =>
    simp only [deserializeValueBytes] at h
    split at h
    · obtain ⟨hlen, -⟩ := exactly_eq_ok.1 h
      cases hlen
    · split at h <;> cases h
      rfl
  | boolean | tinyInt | decimal | duration | nested => cases h
  | _ =>
    simp only [deserializeValueBytes, exactly_eq_ok] at h
    obtain ⟨hlen, -⟩ := h
    cases hlen

theorem hasNoBytes_iff (h : serializeKeyValueBytes v comparator = .ok bytes)
    (hv : v.Representable) : v.hasNoBytes = true ↔ bytes = [] := by
  constructor
  · intro hempty
    cases v with
    | null => exact (Except.ok.inj h).symm
    | text s | blob s | varint s =>
      obtain rfl : s = [] := List.isEmpty_iff.1 hempty
      rw [serializeKeyValueBytes_eq_ok (by simp)] at h
      cases comparator <;> cases h
      rfl
    | inet s =>
      obtain rfl : s = [] := List.isEmpty_iff.1 hempty
      rw [serializeKeyValueBytes_eq_ok (by simp)] at h
      obtain ⟨name, rfl⟩ : ∃ name, comparator = .custom name := by
        cases comparator with
        | custom name => exact ⟨name, rfl⟩
        | _ => cases h
      simp only [serializeValueBytes] at h
      split at h
      · exact (Except.ok.inj h).symm
      · cases h
    | _ => cases hempty
  · rintro rfl
    by_cases hnull : v = .null
    · rw [hnull]
      rfl
    · exact hasNoBytes_of_deserialize (deserialize_of_serializeKey h hnull hv)

/-! ### Framing -/

def frame (bytes : Bytes) : Bytes := u16ToBeBytes bytes.length ++ bytes ++ [0]

/-- Components one behind the other. -/
def framed (components : List Bytes) : Bytes := (components.map frame).flatten

theorem componentBytes_eq_ok {bytes part : Bytes} :
    PartitionKey.componentBytes bytes = .ok part ↔ bytes.length ≤ 65535 ∧ part = frame bytes := by
  unfold PartitionKey.componentBytes
  split
  · rename_i hlong
    exact ⟨fun h => (nomatch h), fun h => absurd h.1 (Nat.not_le.2 hlong)⟩
  · rename_i hfit
    exact ⟨fun h => ⟨Nat.not_lt.1 hfit, (Except.ok.inj h).symm⟩, fun h => congrArg _ h.2.symm⟩

theorem framed_cons (b : Bytes) (bs : List Bytes) :
    framed (b :: bs) = u16ToBeBytes b.length ++ (b ++ 0 :: framed bs) := by
  simp [framed, frame]

theorem framed_injective {as bs : List Bytes} (ha : ∀ a ∈ as, a.length ≤ 65535)
    (hb : ∀ b ∈ bs, b.length ≤ 65535) (h : framed as = framed bs) : as = bs := by
  induction as generalizing bs with
  | nil =>
    cases bs with
    | nil => rfl
    | cons b bs =>
      rw [framed_cons] at h
      cases h
  | cons a as ih =>
    cases bs with
    | nil =>
      rw [framed_cons] at h
      cases h
    | cons b bs =>
      rw [framed_cons, framed_cons] at h
      obtain ⟨hlen, hrest⟩ := List.append_inj h rfl
      have hlength : a.length = b.length := by
        rw [← (fromBe_u16ToBeBytes (ha a List.mem_cons_self)).2, hlen,
          (fromBe_u16ToBeBytes (hb b List.mem_cons_self)).2]
      obtain ⟨rfl, hrest⟩ := List.append_inj hrest hlength
      rw [ih (fun a h => ha a (List.mem_cons_of_mem _ h)) (fun b h => hb b (List.mem_cons_of_mem _ h))
        (List.cons.inj (List.append_cancel_left hrest)).2]

/-! ### Keys -/

section Keys

variable {codec : ValueCodec}

/-- The columns of a key and the bytes of their values. -/
def Encodes (codec : ValueCodec) : List (String × Value) → List KeyColumn → List Bytes → Prop
  | [], [], [] => True
  | column :: columns, key :: keys, bytes :: parts =>
    PartitionKey.serializeValue codec column.2 key = .ok bytes ∧ Encodes codec columns keys parts
  | _, _, _ => False

variable {parts : List Bytes} {pk : PartitionKey} {keys : List KeyColumn}

variable {columns : List (String × Value)}

/-- The loop over the columns encodes them one by one. -/
theorem encodes_mapM (hlen : columns.length = keys.length) :
    (columns.zip keys).mapM (fun (column, key) => do
      PartitionKey.componentBytes (← PartitionKey.serializeValue codec column.2 key)) = .ok parts ↔
      ∃ components, Encodes codec columns keys components ∧ (∀ c ∈ components, c.length ≤ 65535) ∧
        parts = components.map frame := by
  induction columns generalizing keys parts with
  | nil =>
    obtain rfl : keys = [] := List.length_eq_zero_iff.1 hlen.symm
    constructor
    · intro h
      exact ⟨[], trivial, by simp, (Except.ok.inj h).symm⟩
    · rintro ⟨components, hcomponents, -, rfl⟩
      obtain _ | ⟨c, cs⟩ := components
      · rfl
      · exact hcomponents.elim
  | cons column columns ih =>
    obtain _ | ⟨key, keys⟩ := keys
    · cases hlen
    rw [List.zip_cons_cons, List.mapM_cons, bind_eq_ok]
    constructor
    · rintro ⟨part, hpart, h⟩
      obtain ⟨parts', hparts, h⟩ := bind_eq_ok.1 h
      obtain rfl := Except.ok.inj h
      obtain ⟨bytes, hbytes, hpart⟩ := bind_eq_ok.1 hpart
      obtain ⟨components, hcomponents, hshort, rfl⟩ := (ih (Nat.succ.inj hlen)).1 hparts
      obtain ⟨hfit, rfl⟩ := componentBytes_eq_ok.1 hpart
      exact ⟨bytes :: components, ⟨hbytes, hcomponents⟩, List.forall_mem_cons.2 ⟨hfit, hshort⟩, rfl⟩
    · rintro ⟨components, hcomponents, hshort, rfl⟩
      obtain _ | ⟨bytes, components⟩ := components
      · exact hcomponents.elim
      obtain ⟨hfit, hshort⟩ := List.forall_mem_cons.1 hshort
      refine ⟨_, bind_eq_ok.2 ⟨bytes, hcomponents.1, componentBytes_eq_ok.2 ⟨hfit, rfl⟩⟩, ?_⟩
      exact bind_eq_ok.2
        ⟨_, (ih (Nat.succ.inj hlen)).2 ⟨components, hcomponents.2, hshort, rfl⟩, rfl⟩

theorem Encodes.length_eq (h : Encodes codec columns keys parts) :
    columns.length = keys.length ∧ parts.length = keys.length := by
  induction columns generalizing keys parts with
  | nil => cases keys <;> cases parts <;> first | exact ⟨rfl, rfl⟩ | exact h.elim
  | cons column columns ih =>
    obtain _ | ⟨key, keys⟩ := keys
    · exact h.elim
    obtain _ | ⟨part, parts⟩ := parts
    · exact h.elim
    obtain ⟨hcolumns, hparts⟩ := ih h.2
    exact ⟨congrArg Nat.succ hcolumns, congrArg Nat.succ hparts⟩

/-- What a key is written as: the bytes of its one value, or its components behind their lengths. -/
theorem toBytes_eq_ok {bytes : Bytes} :
    pk.toBytes (PartitionKey.serializeValue codec) keys = .ok bytes ↔
      ∃ parts, Encodes codec pk.columns keys parts ∧
        (keys.length = 1 ∧ parts = [bytes] ∨
          2 ≤ keys.length ∧ (∀ part ∈ parts, part.length ≤ 65535) ∧ bytes = framed parts) := by
  obtain ⟨columns⟩ := pk
  constructor
  · intro h
    unfold PartitionKey.toBytes at h
    split at h
    · cases h
    rename_i hne
    split at h
    · cases h
    rename_i hlen
    rw [not_not] at hlen
    obtain _ | ⟨⟨name, value⟩, _ | ⟨column, columns⟩⟩ := columns
    · exact absurd rfl hne
    · obtain ⟨key, rfl⟩ := List.length_eq_one_iff.1 hlen.symm
      exact ⟨[bytes], ⟨h, trivial⟩, .inl ⟨rfl, rfl⟩⟩
    · obtain ⟨parts, hparts, h⟩ := bind_eq_ok.1 h
      obtain ⟨components, hcomponents, hshort, rfl⟩ := (encodes_mapM hlen).1 hparts
      refine ⟨components, hcomponents, .inr ⟨?_, hshort, (Except.ok.inj h).symm⟩⟩
      simp only [← hlen, List.length_cons]
      omega
  · rintro ⟨parts, hparts, hcases⟩
    have hlen := hparts.length_eq.1
    have hne : columns ≠ [] := by
      rintro rfl
      simp only [List.length_nil] at hlen
      omega
    unfold PartitionKey.toBytes
    rw [if_neg (by simpa using hne), if_neg (by simpa using hlen)]
    rcases hcases with ⟨hone, rfl⟩ | ⟨htwo, hshort, rfl⟩
    · obtain ⟨⟨name, value⟩, rfl⟩ := List.length_eq_one_iff.1 (hlen.trans hone)
      obtain ⟨key, rfl⟩ := List.length_eq_one_iff.1 hone
      exact hparts.1
    · obtain _ | ⟨⟨name, value⟩, _ | ⟨column, columns⟩⟩ := columns
      · exact absurd rfl hne
      · simp only [List.length_cons, List.length_nil] at hlen
        omega
      · exact bind_eq_ok.2 ⟨_, (encodes_mapM hlen).2 ⟨parts, hparts, hshort, rfl⟩, rfl⟩

/-- The components of a composite key read back. -/
theorem decodeComponents_framed (hparts : Encodes codec columns keys parts)
    (hshort : ∀ part ∈ parts, part.length ≤ 65535) (hnames : columns.map (·.1) = keys.map (·.name))
    (hnull : ∀ column ∈ columns, column.2 ≠ .null)
    (hvalues : ∀ column ∈ columns, column.2.Representable) :
    decodeComponents codec keys (framed parts) = .ok columns := by
  induction columns generalizing keys parts with
  | nil =>
    obtain rfl : keys = [] := List.map_eq_nil_iff.1 hnames.symm
    rfl
  | cons column columns ih =>
    obtain _ | ⟨key, keys⟩ := keys
    · cases hnames
    obtain _ | ⟨part, parts⟩ := parts
    · exact hparts.elim
    obtain ⟨hpart, hparts⟩ := hparts
    obtain ⟨hname, hnames⟩ := List.cons.inj hnames
    obtain ⟨comparator, htype, hpart⟩ := bind_eq_ok.1 hpart
    have hread := deserialize_of_serializeKey hpart (hnull _ List.mem_cons_self)
      (hvalues _ List.mem_cons_self)
    have hrest := ih hparts (fun p h => hshort p (List.mem_cons_of_mem _ h)) hnames
      (fun c h => hnull c (List.mem_cons_of_mem _ h))
      (fun c h => hvalues c (List.mem_cons_of_mem _ h))
    obtain ⟨htwo, hvalue⟩ := fromBe_u16ToBeBytes (hshort part List.mem_cons_self)
    have htake : (framed (part :: parts)).take 2 = u16ToBeBytes part.length := by
      rw [framed_cons, List.take_left' htwo]
    have hdrop : (framed (part :: parts)).drop 2 = part ++ 0 :: framed parts := by
      rw [framed_cons, List.drop_left' htwo]
    have hlong : ¬ (framed (part :: parts)).length < 2 := by
      rw [framed_cons, List.length_append, htwo]
      omega
    rw [decodeComponents, if_neg hlong, htake, hvalue, hdrop, if_neg (by simp), List.take_left,
      List.drop_left]
    refine bind_eq_ok.2 ⟨comparator, htype, bind_eq_ok.2 ⟨column.2, hread, ?_⟩⟩
    obtain ⟨name, value⟩ := column
    obtain rfl : name = key.name := hname
    exact bind_eq_ok.2 ⟨columns, hrest, rfl⟩

/-! ### Keys that stand for themselves -/

/-- A key of the schema. -/
structure PartitionKey.Of (keys : List KeyColumn) (pk : PartitionKey) : Prop where
  names : pk.columns.map (·.1) = keys.map (·.name)
  values : ∀ column ∈ pk.columns, column.2.Representable

/-- The key is read back, and no other key of the schema has its bytes. -/
structure PartitionKey.Faithful (codec : ValueCodec) (keys : List KeyColumn) (pk : PartitionKey)
    (bytes : Bytes) : Prop where
  decoded : PartitionKey.fromBytes codec bytes keys = .ok pk
  alone : ∀ other : PartitionKey, other.Of keys →
    other.toBytes (PartitionKey.serializeValue codec) keys = .ok bytes → other = pk

theorem Encodes.hasBytes (h : Encodes codec columns keys parts)
    (hvalues : ∀ column ∈ columns, column.2.Representable) :
    (∀ column ∈ columns, column.2.hasNoBytes = false) ↔ ∀ part ∈ parts, part ≠ [] := by
  induction columns generalizing keys parts with
  | nil =>
    obtain _ | ⟨part, parts⟩ := parts
    · simp
    · obtain _ | ⟨key, keys⟩ := keys <;> exact h.elim
  | cons column columns ih =>
    obtain _ | ⟨key, keys⟩ := keys
    · exact h.elim
    obtain _ | ⟨part, parts⟩ := parts
    · exact h.elim
    obtain ⟨comparator, -, hpart⟩ := bind_eq_ok.1 h.1
    have hone := hasNoBytes_iff hpart (hvalues column List.mem_cons_self)
    rw [List.forall_mem_cons, List.forall_mem_cons,
      ih h.2 fun c hc => hvalues c (List.mem_cons_of_mem _ hc), ← Bool.not_eq_true, hone]

theorem Encodes.unique {columns others : List (String × Value)}
    (h : Encodes codec columns keys parts) (hother : Encodes codec others keys parts)
    (hbytes : ∀ part ∈ parts, part ≠ []) (hnames : columns.map (·.1) = others.map (·.1))
    (hvalues : ∀ column ∈ columns, column.2.Representable)
    (hothers : ∀ column ∈ others, column.2.Representable) : columns = others := by
  induction columns generalizing others keys parts with
  | nil => exact (List.map_eq_nil_iff.1 hnames.symm).symm
  | cons column columns ih =>
    obtain _ | ⟨other, others⟩ := others
    · cases hnames
    obtain _ | ⟨key, keys⟩ := keys
    · exact h.elim
    obtain _ | ⟨part, parts⟩ := parts
    · exact h.elim
    obtain ⟨comparator, htype, hpart⟩ := bind_eq_ok.1 h.1
    obtain ⟨comparator', htype', hpart'⟩ := bind_eq_ok.1 hother.1
    obtain rfl := Except.ok.inj (htype.symm.trans htype')
    obtain ⟨hname, hnames⟩ := List.cons.inj hnames
    obtain ⟨hne, hbytes⟩ := List.forall_mem_cons.1 hbytes
    obtain ⟨hvalue, hvalues⟩ := List.forall_mem_cons.1 hvalues
    obtain ⟨hvalue', hothers⟩ := List.forall_mem_cons.1 hothers
    have hread := deserialize_of_serializeKey hpart
      (fun hnull => hne ((hasNoBytes_iff hpart hvalue).1 (hnull ▸ rfl))) hvalue
    have hread' := deserialize_of_serializeKey hpart'
      (fun hnull => hne ((hasNoBytes_iff hpart' hvalue').1 (hnull ▸ rfl))) hvalue'
    have hsame : column = other :=
      Prod.ext hname (Except.ok.inj (hread.symm.trans hread'))
    rw [hsame, ih h.2 hother.2 hbytes hnames hvalues hothers]

/-- A null where a value has no bytes. -/
def nulled (columns : List (String × Value)) : List (String × Value) :=
  columns.map fun column => (column.1, if column.2.hasNoBytes then .null else column.2)

theorem PartitionKey.Of.nulled (h : pk.Of keys) :
    (⟨nulled pk.columns⟩ : PartitionKey).Of keys where
  names := by
    rw [← h.names, Cqlite.nulled, List.map_map]
    rfl
  values := by
    intro column hcolumn
    obtain ⟨column, hmem, rfl⟩ := List.mem_map.1 hcolumn
    dsimp only
    split
    · trivial
    · exact h.values column hmem

theorem Encodes.nulled (h : Encodes codec columns keys parts)
    (hvalues : ∀ column ∈ columns, column.2.Representable) :
    Encodes codec (nulled columns) keys parts := by
  induction columns generalizing keys parts with
  | nil => exact h
  | cons column columns ih =>
    obtain _ | ⟨key, keys⟩ := keys
    · exact h.elim
    obtain _ | ⟨part, parts⟩ := parts
    · exact h.elim
    obtain ⟨hvalue, hvalues⟩ := List.forall_mem_cons.1 hvalues
    refine ⟨?_, ih h.2 hvalues⟩
    obtain ⟨comparator, htype, hpart⟩ := bind_eq_ok.1 h.1
    refine bind_eq_ok.2 ⟨comparator, htype, ?_⟩
    simp only
    split
    · rename_i hempty
      rw [(hasNoBytes_iff hpart hvalue).1 hempty]
      rfl
    · exact hpart

theorem Encodes.mem_zip (h : Encodes codec columns keys parts) {column : String × Value}
    {key : KeyColumn} (hmem : (column, key) ∈ columns.zip keys) :
    ∃ part ∈ parts, PartitionKey.serializeValue codec column.2 key = .ok part := by
  induction columns generalizing keys parts with
  | nil => cases hmem
  | cons first columns ih =>
    obtain _ | ⟨key', keys⟩ := keys
    · cases hmem
    obtain _ | ⟨part, parts⟩ := parts
    · exact h.elim
    rcases List.mem_cons.1 hmem with heq | hmem
    · obtain ⟨rfl, rfl⟩ := Prod.mk.inj heq
      exact ⟨part, List.mem_cons_self, h.1⟩
    · obtain ⟨part', hpart', hser⟩ := ih h.2 hmem
      exact ⟨part', List.mem_cons_of_mem _ hpart', hser⟩

theorem decodeComponents_not_null {data : Bytes}
    (h : decodeComponents codec keys data = .ok columns) :
    ∀ column ∈ columns, column.2 ≠ .null := by
  induction keys generalizing data columns with
  | nil =>
    obtain rfl := Except.ok.inj h
    simp
  | cons key keys ih =>
    obtain ⟨comparator, value, rest, -, hvalue, hrest, rfl⟩ := decodeComponents_cons h
    refine List.forall_mem_cons.2 ⟨?_, ih hrest⟩
    rintro rfl
    have hholds := holds_of_deserialize hvalue
    cases comparator <;> cases hholds

theorem fromBytes_not_null {data : Bytes} (h : PartitionKey.fromBytes codec data keys = .ok pk) :
    data ≠ [] ∧ (keys.length ≠ 1 → ∀ column ∈ pk.columns, column.2 ≠ .null) := by
  unfold PartitionKey.fromBytes at h
  split at h
  · cases h
  split at h
  · cases h
  rename_i hkeys hdata
  obtain ⟨columns, hcolumns, h⟩ := bind_eq_ok.1 h
  obtain rfl := Except.ok.inj h
  refine ⟨fun hnil => hdata (hnil ▸ rfl), fun hmany => ?_⟩
  unfold decodePartitionKeyColumns at hcolumns
  rw [if_neg hkeys, if_neg hdata] at hcolumns
  split at hcolumns
  · exact absurd rfl hmany
  · exact decodeComponents_not_null hcolumns

/-- A key without empty parts reads back. -/
theorem fromBytes_of_encodes {bytes : Bytes} (hpk : pk.Of keys)
    (hparts : Encodes codec pk.columns keys parts) (hbytes : keys.length = 1 ∧ parts = [bytes] ∨
      2 ≤ keys.length ∧ (∀ part ∈ parts, part.length ≤ 65535) ∧ bytes = framed parts)
    (hne : ∀ part ∈ parts, part ≠ []) : PartitionKey.fromBytes codec bytes keys = .ok pk := by
  obtain ⟨columns⟩ := pk
  have hnull : ∀ column ∈ columns, column.2 ≠ .null := by
    intro column hmem hnull
    have := (hparts.hasBytes hpk.values).2 hne column hmem
    rw [hnull] at this
    cases this
  unfold PartitionKey.fromBytes
  have hkeys : ¬ keys.isEmpty = true := by
    rintro hempty
    obtain rfl := List.isEmpty_iff.1 hempty
    simp at hbytes
  rcases hbytes with ⟨hone, rfl⟩ | ⟨htwo, hshort, rfl⟩
  · obtain ⟨key, rfl⟩ := List.length_eq_one_iff.1 hone
    obtain ⟨⟨name, value⟩, rfl⟩ := List.length_eq_one_iff.1 (hparts.length_eq.1.trans hone)
    obtain ⟨comparator, htype, hpart⟩ := bind_eq_ok.1 hparts.1
    have hdata : ¬ bytes.isEmpty = true := by simpa using hne
    have hread := deserialize_of_serializeKey hpart (hnull _ List.mem_cons_self)
      (hpk.values _ List.mem_cons_self)
    obtain rfl : name = key.name := by simpa using hpk.names
    rw [if_neg hkeys, if_neg hdata, decodePartitionKeyColumns, if_neg hkeys, if_neg hdata]
    refine bind_eq_ok.2 ⟨_, bind_eq_ok.2 ⟨comparator, htype, bind_eq_ok.2 ⟨value, hread, rfl⟩⟩, rfl⟩
  · have hdata : ¬ (framed parts).isEmpty = true := by
      obtain _ | ⟨part, parts⟩ := parts
      · have := hparts.length_eq.2
        simp only [List.length_nil] at this
        omega
      · rw [framed_cons]
        simp [u16ToBeBytes]
    have hread := decodeComponents_framed hparts hshort hpk.names hnull hpk.values
    rw [if_neg hkeys, if_neg hdata, decodePartitionKeyColumns, if_neg hkeys, if_neg hdata]
    · exact bind_eq_ok.2 ⟨columns, hread, rfl⟩
    · rintro key rfl
      simp at htwo

/-- A component too long for its length is rejected, and a key that is accepted stands for itself
    exactly when none of its values is without bytes. -/
theorem partitionKey_faithful_iff (codec : ValueCodec) (keys : List KeyColumn) (pk : PartitionKey)
    (hpk : pk.Of keys) :
    (∀ column key part, (column, key) ∈ pk.columns.zip keys → 2 ≤ keys.length →
      PartitionKey.serializeValue codec column.2 key = .ok part → 65535 < part.length →
      ∃ e, pk.toBytes (PartitionKey.serializeValue codec) keys = .error e) ∧
    ∀ bytes, pk.toBytes (PartitionKey.serializeValue codec) keys = .ok bytes →
      (pk.Faithful codec keys bytes ↔ ∀ column ∈ pk.columns, column.2.hasNoBytes = false) := by
  constructor
  · intro column key part hmem htwo hpart hlong
    cases hbytes : pk.toBytes (PartitionKey.serializeValue codec) keys with
    | error e => exact ⟨e, rfl⟩
    | ok bytes =>
      obtain ⟨parts, hparts, hone | ⟨-, hshort, -⟩⟩ := toBytes_eq_ok.1 hbytes
      · omega
      · obtain ⟨part', hpart', hser⟩ := hparts.mem_zip hmem
        obtain rfl := Except.ok.inj (hpart.symm.trans hser)
        exact absurd (hshort part hpart') (Nat.not_le.2 hlong)
  · intro bytes hbytes
    obtain ⟨parts, hparts, hcases⟩ := toBytes_eq_ok.1 hbytes
    constructor
    · rintro ⟨hdecoded, halone⟩ column hcolumn
      obtain ⟨hdata, hnull⟩ := fromBytes_not_null hdecoded
      rw [← Bool.not_eq_true]
      intro hempty
      -- the same key with nulls in place of the values without bytes
      have hsame := halone _ hpk.nulled
        (toBytes_eq_ok.2 ⟨parts, hparts.nulled hpk.values, hcases⟩)
      rcases hcases with ⟨-, rfl⟩ | ⟨htwo, -, -⟩
      · have := (hparts.hasBytes hpk.values).2 (by simpa using hdata) column hcolumn
        rw [this] at hempty
        cases hempty
      · refine hnull (by omega) (column.1, .null) ?_ rfl
        rw [← hsame]
        exact List.mem_map.2 ⟨column, hcolumn, by rw [if_pos hempty]⟩
    · intro hvalues
      have hne := (hparts.hasBytes hpk.values).1 hvalues
      refine ⟨fromBytes_of_encodes hpk hparts hcases hne, ?_⟩
      intro other hother hsame
      obtain ⟨parts', hparts', hcases'⟩ := toBytes_eq_ok.1 hsame
      obtain rfl : parts = parts' := by
        rcases hcases with ⟨hone, rfl⟩ | ⟨htwo, hshort, rfl⟩
        · rcases hcases' with ⟨-, rfl⟩ | ⟨htwo, -, -⟩
          · rfl
          · omega
        · rcases hcases' with ⟨hone, -⟩ | ⟨-, hshort', hframed⟩
          · omega
          · exact framed_injective hshort hshort' hframed
      have hcolumns := hparts.unique hparts' hne (hpk.names.trans hother.names.symm) hpk.values
        hother.values
      obtain ⟨columns⟩ := pk
      obtain ⟨others⟩ := other
      exact congrArg _ hcolumns.symm

end Keys

/-! ### Two tables -/

/-- No nested types. -/
def scalarTypes : ValueCodec :=
  ⟨fun _ => .error (.invalidInput "nested"), fun _ => .error (.invalidInput "nested")⟩

/-- The readings of a sensor by day. -/
def sensorKeys : List KeyColumn := [⟨"sensor", "text"⟩, ⟨"day", "int"⟩]

theorem sensorKey_of : (⟨[("sensor", .text [97]), ("day", .integer 7)]⟩ : PartitionKey).Of sensorKeys :=
  ⟨rfl, by simp [Value.Representable, validUtf8]; decide⟩

/-- A key of two columns. -/
theorem sensorKey_faithful :
    PartitionKey.Faithful scalarTypes sensorKeys ⟨[("sensor", .text [97]), ("day", .integer 7)]⟩
      [0, 1, 97, 0, 0, 4, 0, 0, 0, 7, 0] :=
  ((partitionKey_faithful_iff scalarTypes sensorKeys _ sensorKey_of).2 _ (by decide)).2 (by decide)

/-- An empty text is accepted as a key of its own, and cannot be read back. -/
theorem emptyText_not_faithful :
    (⟨[("id", .text [])]⟩ : PartitionKey).toBytes (PartitionKey.serializeValue scalarTypes)
      [⟨"id", "text"⟩] = .ok [] ∧
    ¬ PartitionKey.Faithful scalarTypes [⟨"id", "text"⟩] ⟨[("id", .text [])]⟩ [] :=
  ⟨by decide, fun h => (nomatch h.decoded)⟩

end Cqlite
