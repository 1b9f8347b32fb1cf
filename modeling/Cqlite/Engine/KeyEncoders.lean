import Cqlite.Engine.PartitionKeyRoundTrip

/-! The two encoders of a partition key: `encode_partition_key_columns` of the read path and
    `PartitionKey::to_bytes` of the write path.

    On values of the declared types the conversions of the read path do nothing, and the two
    serializers and framings agree. Both write a lone value without bytes as no bytes, and this is
    the one key that is not read back. -/

namespace Cqlite

open VInt

/-! ### Values of the declared types -/

/-- A value of the column's type. No bound is put on the values of a type without bytes. -/
structure KeyColumn.Accepts (codec : ValueCodec) (key : KeyColumn) (value : Value) : Prop where
  notNull : value ≠ .null
  typed : ∀ comparator, ComparatorType.fromDataType codec key.dataType = .ok comparator →
    (∃ other, comparator.holds other = true) → comparator.holds value = true

/-- A key of the schema, with values of the declared types. -/
structure PartitionKey.Typed (codec : ValueCodec) (keys : List KeyColumn) (pk : PartitionKey) : Prop
    extends PartitionKey.Of keys pk where
  accepts : ∀ column key, (column, key) ∈ pk.columns.zip keys → key.Accepts codec column.2

section Encoders

variable {codec : ValueCodec}

variable {comparator : ComparatorType} {v : Value} {pk : PartitionKey}

theorem coerce_of_none (h : ¬ ∃ other, comparator.holds other = true) :
    coerceValueForComparator v comparator = v := by
  unfold coerceValueForComparator
  split
  · exact absurd ⟨.integer 0, rfl⟩ h
  · exact absurd ⟨.smallInt 0, rfl⟩ h
  · exact absurd ⟨.tinyInt 0, rfl⟩ h
  · exact absurd ⟨.timestamp 0, rfl⟩ h
  · exact absurd ⟨.bigInt 0, rfl⟩ h
  · rfl

variable {bytes : Bytes}

theorem encodeOne_iff_serializeValue {key : KeyColumn} {value : Value}
    (h : key.Accepts codec value) :
    encodeOne codec key.dataType value = .ok bytes ↔
      PartitionKey.serializeValue codec value key = .ok bytes := by
  have hcoerce : ∀ comparator, ComparatorType.fromDataType codec key.dataType = .ok comparator →
      coerceValueForComparator value comparator = value := by
    intro comparator hc
    by_cases hsome : ∃ other, comparator.holds other = true
    · exact coerce_of_holds (h.typed comparator hc hsome)
    · exact coerce_of_none hsome
  rw [encodeOne_eq_ok]
  constructor
  · rintro ⟨comparator, hc, hbytes⟩
    rw [hcoerce comparator hc] at hbytes
    exact bind_eq_ok.2 ⟨comparator, hc, (serializeKeyValueBytes_eq_ok h.notNull).2 hbytes⟩
  · intro hbytes
    obtain ⟨comparator, hc, hbytes⟩ := bind_eq_ok.1 hbytes
    refine ⟨comparator, hc, ?_⟩
    rw [hcoerce comparator hc]
    exact (serializeKeyValueBytes_eq_ok h.notNull).1 hbytes

/-! ### The framing -/

variable {keys : List KeyColumn}

theorem encodeComponents_eq_ok {columns : List (String × Value)}
    (hlen : columns.length = keys.length)
    (h : ∀ column key, (column, key) ∈ columns.zip keys → key.Accepts codec column.2) :
    encodeComponents codec keys (columns.map (·.2)) = .ok bytes ↔
      ∃ parts, Encodes codec columns keys parts ∧ (∀ part ∈ parts, part.length ≤ 65535) ∧
        bytes = framed parts := by
  induction columns generalizing keys bytes with
  | nil =>
    obtain rfl : keys = [] := List.length_eq_zero_iff.1 hlen.symm
    constructor
    · intro hbytes
      exact ⟨[], trivial, by simp, (Except.ok.inj hbytes).symm⟩
    · rintro ⟨parts, hparts, -, rfl⟩
      obtain _ | ⟨part, parts⟩ := parts
      · rfl
      · exact hparts.elim
  | cons column columns ih =>
    obtain _ | ⟨key, keys⟩ := keys
    · cases hlen
    have hone := h column key List.mem_cons_self
    have hrest : ∀ column key, (column, key) ∈ columns.zip keys → key.Accepts codec column.2 :=
      fun column key hmem => h column key (List.mem_cons_of_mem _ hmem)
    rw [List.map_cons, encodeComponents_cons]
    constructor
    · rintro ⟨component, rest, hcomponent, hfit, hbytes, rfl⟩
      obtain ⟨parts, hparts, hshort, rfl⟩ := (ih (Nat.succ.inj hlen) hrest).1 hbytes
      exact ⟨component :: parts, ⟨(encodeOne_iff_serializeValue hone).1 hcomponent, hparts⟩,
        List.forall_mem_cons.2 ⟨hfit, hshort⟩, rfl⟩
    · rintro ⟨parts, hparts, hshort, rfl⟩
      obtain _ | ⟨component, parts⟩ := parts
      · exact hparts.elim
      obtain ⟨hfit, hshort⟩ := List.forall_mem_cons.1 hshort
      exact ⟨component, framed parts, (encodeOne_iff_serializeValue hone).2 hparts.1, hfit,
        (ih (Nat.succ.inj hlen) hrest).2 ⟨parts, hparts.2, hshort, rfl⟩, rfl⟩

theorem encode_iff_toBytes (hpk : pk.Typed codec keys) :
    encodePartitionKeyColumns codec (pk.columns.map (·.2)) keys = .ok bytes ↔
      pk.toBytes (PartitionKey.serializeValue codec) keys = .ok bytes := by
  obtain ⟨columns⟩ := pk
  have hlen : columns.length = keys.length := by
    simpa using congrArg List.length hpk.names
  obtain _ | ⟨⟨name, value⟩, _ | ⟨other, columns⟩⟩ := columns
  · obtain rfl : keys = [] := List.length_eq_zero_iff.1 hlen.symm
    exact ⟨fun h => (nomatch h), fun h => (nomatch h)⟩
  · obtain ⟨key, rfl⟩ := List.length_eq_one_iff.1 hlen.symm
    exact encodeOne_iff_serializeValue (hpk.accepts _ _ List.mem_cons_self)
  · have htwo : 2 ≤ keys.length := by
      rw [← hlen, List.length_cons, List.length_cons]
      omega
    rw [encodePartitionKeyColumns_eq (by simpa using hlen) htwo,
      encodeComponents_eq_ok hlen hpk.accepts, toBytes_eq_ok]
    constructor
    · rintro ⟨parts, hparts, hframed⟩
      exact ⟨parts, hparts, .inr ⟨htwo, hframed⟩⟩
    · rintro ⟨parts, hparts, ⟨hone, -⟩ | ⟨-, hframed⟩⟩
      · omega
      · exact ⟨parts, hparts, hframed⟩

/-! ### Keys that are read back -/

/-- The encoders fail together, or write the same bytes. -/
def PartitionKey.SameBytes (codec : ValueCodec) (keys : List KeyColumn) (pk : PartitionKey) : Prop :=
  (∃ e e', encodePartitionKeyColumns codec (pk.columns.map (·.2)) keys = .error e ∧
    pk.toBytes (PartitionKey.serializeValue codec) keys = .error e') ∨
  ∃ bytes, encodePartitionKeyColumns codec (pk.columns.map (·.2)) keys = .ok bytes ∧
    pk.toBytes (PartitionKey.serializeValue codec) keys = .ok bytes

/-- What either encoder writes is decoded as the columns of the key. -/
def PartitionKey.ReadBack (codec : ValueCodec) (keys : List KeyColumn) (pk : PartitionKey) : Prop :=
  ∀ bytes, encodePartitionKeyColumns codec (pk.columns.map (·.2)) keys = .ok bytes ∨
    pk.toBytes (PartitionKey.serializeValue codec) keys = .ok bytes →
    decodePartitionKeyColumns codec bytes keys = .ok pk.columns

/-- A key of one column, and its value a value of its type without bytes. -/
def PartitionKey.LoneEmpty (codec : ValueCodec) (keys : List KeyColumn) (pk : PartitionKey) : Prop :=
  ∃ key comparator column, keys = [key] ∧ pk.columns = [column] ∧
    ComparatorType.fromDataType codec key.dataType = .ok comparator ∧
    comparator.holds column.2 = true ∧ column.2.hasNoBytes = true

theorem serialize_of_holds (h : comparator.holds v = true) :
    ∃ bytes, serializeValueBytes v comparator = .ok bytes := by
  cases comparator <;> cases v <;> first | exact ⟨_, rfl⟩ | (exfalso; cases h) | skip
  all_goals
    obtain rfl := of_decide_eq_true h
    exact ⟨_, rfl⟩

/-- A typed key that is not one empty part reads back. -/
theorem decode_of_toBytes (hpk : pk.Typed codec keys) (hlone : ¬ pk.LoneEmpty codec keys)
    (hbytes : pk.toBytes (PartitionKey.serializeValue codec) keys = .ok bytes) :
    decodePartitionKeyColumns codec bytes keys = .ok pk.columns := by
  obtain ⟨columns⟩ := pk
  obtain ⟨parts, hparts, ⟨hone, rfl⟩ | ⟨htwo, hshort, rfl⟩⟩ := toBytes_eq_ok.1 hbytes
  · obtain ⟨key, rfl⟩ := List.length_eq_one_iff.1 hone
    obtain ⟨⟨name, value⟩, rfl⟩ := List.length_eq_one_iff.1 (hparts.length_eq.1.trans hone)
    have haccepts := hpk.accepts _ _ List.mem_cons_self
    have hvalue : value.Representable := hpk.values _ List.mem_cons_self
    obtain ⟨comparator, hc, hpart⟩ := bind_eq_ok.1 hparts.1
    have hread := deserialize_of_serializeKey hpart haccepts.notNull hvalue
    have hdata : ¬ bytes.isEmpty = true := by
      intro hempty
      exact hlone ⟨key, comparator, (name, value), rfl, rfl, hc, holds_of_deserialize hread,
        (hasNoBytes_iff hpart hvalue).2 (List.isEmpty_iff.1 hempty)⟩
    obtain rfl : name = key.name := by simpa using hpk.names
    rw [decodePartitionKeyColumns, if_neg (by simp), if_neg hdata]
    exact bind_eq_ok.2 ⟨comparator, hc, bind_eq_ok.2 ⟨value, hread, rfl⟩⟩
  · obtain ⟨key, other, keys, rfl⟩ : ∃ key other rest, keys = key :: other :: rest := by
      rcases keys with _ | ⟨key, _ | ⟨other, rest⟩⟩
      · exact absurd htwo (by simp)
      · exact absurd htwo (by simp)
      · exact ⟨key, other, rest, rfl⟩
    have hnull : ∀ column ∈ columns, column.2 ≠ .null := by
      intro column hmem
      obtain ⟨i, hi, rfl⟩ := List.getElem_of_mem hmem
      have hlen : columns.length = (key :: other :: keys).length := hparts.length_eq.1
      refine (hpk.accepts _ (key :: other :: keys)[i] ?_).notNull
      rw [List.mem_iff_getElem]
      exact ⟨i, List.length_zip ▸ lt_min hi (hlen ▸ hi), List.getElem_zip⟩
    have hdata : ¬ (framed parts).isEmpty = true := by
      obtain _ | ⟨part, parts⟩ := parts
      · exact absurd hparts.length_eq.2 (by simp)
      · rw [framed_cons]
        simp [u16ToBeBytes]
    rw [decodePartitionKeyColumns, if_neg (by simp), if_neg hdata]
    · exact decodeComponents_framed hparts hshort hpk.names hnull hpk.values
    · rintro key' hone
      cases hone

/-- A lone value without bytes is written, and refused when it is read. -/
theorem PartitionKey.LoneEmpty.not_readBack (hpk : pk.Typed codec keys)
    (h : pk.LoneEmpty codec keys) : ¬ pk.ReadBack codec keys := by
  obtain ⟨key, comparator, column, rfl, hcolumn, hc, hholds, hempty⟩ := h
  obtain ⟨columns⟩ := pk
  obtain rfl : columns = [column] := hcolumn
  have haccepts := hpk.accepts _ _ List.mem_cons_self
  obtain ⟨bytes, hbytes⟩ := serialize_of_holds hholds
  have hkey := (serializeKeyValueBytes_eq_ok haccepts.notNull).2 hbytes
  obtain rfl := (hasNoBytes_iff hkey (hpk.values _ List.mem_cons_self)).1 hempty
  intro hread
  exact nomatch hread [] (.inr (bind_eq_ok.2 ⟨comparator, hc, hkey⟩))

/-- The encoders agree on every key of the declared types, and a key is read back from its bytes
    exactly when it is not a lone value without bytes. -/
theorem encoders_agree_iff (codec : ValueCodec) (keys : List KeyColumn) (pk : PartitionKey)
    (hpk : pk.Typed codec keys) :
    pk.SameBytes codec keys ∧ (pk.ReadBack codec keys ↔ ¬ pk.LoneEmpty codec keys) := by
  refine ⟨?_, fun hread hlone => PartitionKey.LoneEmpty.not_readBack hpk hlone hread, fun hlone bytes hbytes => ?_⟩
  · cases hencode : encodePartitionKeyColumns codec (pk.columns.map (·.2)) keys with
    | ok bytes => exact .inr ⟨bytes, hencode, (encode_iff_toBytes hpk).1 hencode⟩
    | error e =>
      cases hbytes : pk.toBytes (PartitionKey.serializeValue codec) keys with
      | error e' => exact .inl ⟨e, e', hencode, hbytes⟩
      | ok bytes => exact nomatch hencode.symm.trans ((encode_iff_toBytes hpk).2 hbytes)
  · rw [encode_iff_toBytes hpk, or_self] at hbytes
    exact decode_of_toBytes hpk hlone hbytes

end Encoders

/-! ### Two tables -/

theorem sensorKey_typed :
    (⟨[("sensor", .text [97]), ("day", .integer 7)]⟩ : PartitionKey).Typed scalarTypes sensorKeys where
  toOf := sensorKey_of
  accepts := by
    intro column key hmem
    simp only [sensorKeys, List.zip_cons_cons, List.zip_nil_left, List.mem_cons, List.not_mem_nil,
      or_false, Prod.mk.injEq] at hmem
    rcases hmem with ⟨rfl, rfl⟩ | ⟨rfl, rfl⟩
    all_goals
      refine ⟨by simp, fun comparator hc _ => ?_⟩
      obtain rfl := Except.ok.inj hc
      rfl

theorem sensorKey_agrees :
    (⟨[("sensor", .text [97]), ("day", .integer 7)]⟩ : PartitionKey).ReadBack scalarTypes sensorKeys :=
  (encoders_agree_iff scalarTypes sensorKeys _ sensorKey_typed).2.2 fun h => by
    obtain ⟨key, comparator, column, hkeys, -⟩ := h
    cases hkeys

theorem emptyText_typed :
    (⟨[("id", .text [])]⟩ : PartitionKey).Typed scalarTypes [⟨"id", "text"⟩] where
  names := rfl
  values := by simp [Value.Representable, validUtf8]; decide
  accepts := by
    intro column key hmem
    obtain ⟨rfl, rfl⟩ := Prod.mk.inj (List.mem_singleton.1 hmem)
    refine ⟨by simp, fun comparator hc _ => ?_⟩
    obtain rfl := Except.ok.inj hc
    rfl

/-- The empty text is a value of its type; both encoders write it as no bytes, which are refused. -/
theorem emptyText_not_readBack :
    (⟨[("id", .text [])]⟩ : PartitionKey).Typed scalarTypes [⟨"id", "text"⟩] ∧
    encodePartitionKeyColumns scalarTypes [.text []] [⟨"id", "text"⟩] = .ok [] ∧
    (⟨[("id", .text [])]⟩ : PartitionKey).toBytes (PartitionKey.serializeValue scalarTypes)
      [⟨"id", "text"⟩] = .ok [] ∧
    ¬ (⟨[("id", .text [])]⟩ : PartitionKey).ReadBack scalarTypes [⟨"id", "text"⟩] :=
  ⟨emptyText_typed, by decide, by decide, fun h => (nomatch h [] (.inl (by decide)))⟩

end Cqlite
