import Cqlite.Lib.HashIndex
import Cqlite.Merge.KeyTypes
import Cqlite.Query.Compare

/-! The keys of groups (`select_executor/aggregation/group_key_cmp.rs`): their hash and their equality.

    Floats compare by the total order at any depth of the collections, tuples and frozen values; inside
    a UDT the derived `==` decides, to which a NaN is not equal. The hash feeds a value's constructor
    and content to the hasher, which is any function of what it is fed. -/

namespace Cqlite

/-! ### The equality -/

mutual

def groupValueEq : Value → Value → Bool
  | .float p, .float q => (cassandraDoubleCmp p q).isEq
  | .float32 p, .float32 q => (cassandraFloatCmp p q).isEq
  | .list x, .list y => groupValuesEq x y
  | .set x, .set y => groupValuesEq x y
  | .tuple x, .tuple y => groupValuesEq x y
  | .map x, .map y => groupEntriesEq x y
  | .frozen x, .frozen y => groupValueEq x y
  | a, b => a.partialEq b

/-- The same number of values, and each equal to the other list's. -/
def groupValuesEq : List Value → List Value → Bool
  | [], [] => true
  | a :: as, b :: bs => groupValueEq a b && groupValuesEq as bs
  | _, _ => false

def groupEntriesEq : List (Value × Value) → List (Value × Value) → Bool
  | [], [] => true
  | (k, v) :: as, (k', v') :: bs => groupValueEq k k' && groupValueEq v v' && groupEntriesEq as bs
  | _, _ => false

end

def groupKeyEq (a b : List Value) : Bool := groupValuesEq a b

/-! ### The hash -/

/-- One write to the hasher. -/
inductive HashToken
  | length (n : Nat)
  | discriminant (i : Nat)
  | bool (b : Bool)
  | int (n : Int)
  | bits64 (bits : UInt64)
  | bits32 (bits : UInt32)
  | bytes (b : Bytes)
  deriving DecidableEq, Repr

/-- `f64::NAN` stands for all NaNs. -/
def canonicalDouble (bits : UInt64) : UInt64 :=
  if ieeeNaN 63 52 bits.toNat then 0x7ff8000000000000 else bits

/-- `f32::NAN` stands for all NaNs. -/
def canonicalFloat (bits : UInt32) : UInt32 :=
  if ieeeNaN 31 23 bits.toNat then 0x7fc00000 else bits

mutual

/-- What a value feeds to the hasher behind its discriminant. -/
def hashContent : Value → List HashToken
  | .null => []
  | .boolean b => [.bool b]
  | .integer n | .bigInt n | .counter n | .timestamp n | .time n | .date n | .tinyInt n | .smallInt n =>
    [.int n]
  | .float bits => [.bits64 (canonicalDouble bits)]
  | .float32 bits => [.bits32 (canonicalFloat bits)]
  | .text s | .blob s | .varint s | .inet s | .uuid s => [.bytes s]
  | .decimal scale unscaled => [.int scale, .bytes unscaled]
  | .duration months days nanos => [.int months, .int days, .int nanos]
  | .list items | .set items | .tuple items => hashValues items
  | .map entries => hashEntries entries
  | .frozen inner => .discriminant inner.ctorIdx :: hashContent inner
  -- only the discriminant
  | .json _ | .udt _ _ _ | .tombstone _ => []

def hashValues : List Value → List HashToken
  | [] => []
  | v :: vs => .discriminant v.ctorIdx :: hashContent v ++ hashValues vs

def hashEntries : List (Value × Value) → List HashToken
  | [] => []
  | (k, v) :: entries => .discriminant k.ctorIdx :: hashContent k ++
      .discriminant v.ctorIdx :: hashContent v ++ hashEntries entries

end

/-- `hash_group_key`; `finish` is the hasher. -/
def hashGroupKey (finish : List HashToken → Nat) (key : List Value) : Nat :=
  finish (.length key.length :: hashValues key)

/-! ### The derived equality -/

/-- Of two patterns at one position, only the zeros differ. -/
theorem ieeePosition_inj {w a b : Nat} (ha : a < 2 ^ (w + 1)) (hb : b < 2 ^ (w + 1)) :
    ieeePosition w a = ieeePosition w b ↔
      (if a = 2 ^ w then 0 else a) = if b = 2 ^ w then 0 else b := by
  rw [Nat.pow_succ] at ha hb
  have hmod (n : Nat) (hn : n < 2 ^ w * 2) : n % 2 ^ w = if 2 ^ w ≤ n then n - 2 ^ w else n := by
    split
    · rw [Nat.mod_eq_sub_mod ‹_›, Nat.mod_eq_of_lt (by omega)]
    · exact Nat.mod_eq_of_lt (by omega)
  simp only [ieeePosition, ieeeNegative, ieeeMagnitude, decide_eq_true_eq, hmod a ha, hmod b hb]
  split_ifs <;> omega

namespace Value

mutual

/-- There is a NaN where the derived equality looks. -/
def hasNan : Value → Bool
  | .float bits => ieeeNaN 63 52 bits.toNat
  | .float32 bits => ieeeNaN 31 23 bits.toNat
  | .list items | .set items | .tuple items => anyNan items
  | .map entries => anyNanEntry entries
  | .udt _ _ fields => anyNanField fields
  | .frozen inner => hasNan inner
  | _ => false

def anyNan : List Value → Bool
  | [] => false
  | v :: vs => hasNan v || anyNan vs

def anyNanEntry : List (Value × Value) → Bool
  | [] => false
  | (k, v) :: entries => hasNan k || hasNan v || anyNanEntry entries

def anyNanField : List (String × Option Value) → Bool
  | [] => false
  | (_, some v) :: fields => hasNan v || anyNanField fields
  | (_, none) :: fields => anyNanField fields

end

mutual

/-- The value with every float zero unsigned. -/
def unsigned : Value → Value
  | .float bits => .float (if bits = 0x8000000000000000 then 0 else bits)
  | .float32 bits => .float32 (if bits = 0x80000000 then 0 else bits)
  | .list items => .list (unsignedAll items)
  | .set items => .set (unsignedAll items)
  | .tuple items => .tuple (unsignedAll items)
  | .map entries => .map (unsignedEntries entries)
  | .udt name keyspace fields => .udt name keyspace (unsignedFields fields)
  | .frozen inner => .frozen (unsigned inner)
  | v => v

def unsignedAll : List Value → List Value
  | [] => []
  | v :: vs => unsigned v :: unsignedAll vs

def unsignedEntries : List (Value × Value) → List (Value × Value)
  | [] => []
  | (k, v) :: entries => (unsigned k, unsigned v) :: unsignedEntries entries

def unsignedFields : List (String × Option Value) → List (String × Option Value)
  | [] => []
  | (n, some v) :: fields => (n, some (unsigned v)) :: unsignedFields fields
  | (n, none) :: fields => (n, none) :: unsignedFields fields

end

theorem ctorIdx_of_partialEq {a b : Value} (h : a.partialEq b = true) : a.ctorIdx = b.ctorIdx := by
  unfold partialEq at h
  split at h <;> first | rfl | cases h

theorem ctorIdx_unsigned (v : Value) : v.unsigned.ctorIdx = v.ctorIdx := by
  cases v <;> rfl

mutual

/-- Values are equal if there is no NaN in them and they are the same but for the signs of zeros. -/
theorem partialEq_iff {a b : Value} : a.partialEq b = true ↔
    a.hasNan = false ∧ b.hasNan = false ∧ a.unsigned = b.unsigned := by
  by_cases hctor : a.ctorIdx = b.ctorIdx
  swap
  · refine iff_of_false (fun h => hctor (ctorIdx_of_partialEq h)) fun h => hctor ?_
    rw [← ctorIdx_unsigned a, h.2.2, ctorIdx_unsigned]
  cases a <;> cases b <;> first
    | (cases hctor; done)
    | simp only [partialEq, hasNan, unsigned, Bool.and_eq_true, beq_iff_eq, true_and, and_assoc]
  case float.float p q =>
    simp only [f64Eq, ieeeEq, Bool.and_eq_true, Bool.not_eq_true', beq_iff_eq, and_assoc,
      ieeePosition_inj p.toNat_lt q.toNat_lt, float.injEq, ← UInt64.toNat_inj,
      apply_ite UInt64.toNat]
    rfl
  case float32.float32 p q =>
    simp only [ieeeEq, Bool.and_eq_true, Bool.not_eq_true', beq_iff_eq, and_assoc,
      ieeePosition_inj p.toNat_lt q.toNat_lt, float32.injEq, ← UInt32.toNat_inj,
      apply_ite UInt32.toNat]
    rfl
  case udt.udt =>
    rw [partialEqFields_iff, udt.injEq]
    tauto
  case list.list => rw [partialEqAll_iff, list.injEq]
  case set.set => rw [partialEqAll_iff, set.injEq]
  case tuple.tuple => rw [partialEqAll_iff, tuple.injEq]
  case map.map => rw [partialEqEntries_iff, map.injEq]
  case frozen.frozen => rw [partialEq_iff, frozen.injEq]
  all_goals simp
termination_by structural a

theorem partialEqAll_iff : ∀ {as bs : List Value}, partialEqAll as bs = true ↔
    anyNan as = false ∧ anyNan bs = false ∧ unsignedAll as = unsignedAll bs
  | [], [] | [], _ :: _ | _ :: _, [] => by simp [partialEqAll, anyNan, unsignedAll]
  | a :: as, b :: bs => by
    simp only [partialEqAll, anyNan, unsignedAll, Bool.and_eq_true, Bool.or_eq_false_iff,
      List.cons.injEq, partialEq_iff, partialEqAll_iff]
    tauto
termination_by structural as => as

theorem partialEqEntries_iff : ∀ {as bs : List (Value × Value)}, partialEqEntries as bs = true ↔
    anyNanEntry as = false ∧ anyNanEntry bs = false ∧ unsignedEntries as = unsignedEntries bs
  | [], [] | [], _ :: _ | _ :: _, [] => by simp [partialEqEntries, anyNanEntry, unsignedEntries]
  | (k, v) :: as, (k', v') :: bs => by
    simp only [partialEqEntries, anyNanEntry, unsignedEntries, Bool.and_eq_true, Bool.or_eq_false_iff,
      List.cons.injEq, Prod.mk.injEq, partialEq_iff, partialEqEntries_iff]
    tauto
termination_by structural as => as

theorem partialEqFields_iff : ∀ {as bs : List (String × Option Value)},
    partialEqFields as bs = true ↔
      anyNanField as = false ∧ anyNanField bs = false ∧ unsignedFields as = unsignedFields bs
  | [], [] | [], (_, none) :: _ | [], (_, some _) :: _ | (_, none) :: _, [] | (_, some _) :: _, []
  | (_, none) :: _, (_, some _) :: _ | (_, some _) :: _, (_, none) :: _ => by
    simp [partialEqFields, anyNanField, unsignedFields]
  | (n, some v) :: as, (n', some v') :: bs => by
    simp only [partialEqFields, anyNanField, unsignedFields, Bool.and_eq_true, Bool.or_eq_false_iff,
      beq_iff_eq, List.cons.injEq, Prod.mk.injEq, Option.some.injEq, partialEq_iff, partialEqFields_iff]
    tauto
  | (n, none) :: as, (n', none) :: bs => by
    simp only [partialEqFields, anyNanField, unsignedFields, Bool.and_eq_true, beq_iff_eq,
      List.cons.injEq, Prod.mk.injEq, and_true, partialEqFields_iff]
    tauto
termination_by structural as => as

end

mutual

/-- There is a UDT with a NaN in it, at a depth that the equality of keys reaches. -/
def udtNan : Value → Bool
  | .list items | .set items | .tuple items => anyUdtNan items
  | .map entries => anyUdtNanEntry entries
  | .udt _ _ fields => anyNanField fields
  | .frozen inner => udtNan inner
  | _ => false

def anyUdtNan : List Value → Bool
  | [] => false
  | v :: vs => udtNan v || anyUdtNan vs

def anyUdtNanEntry : List (Value × Value) → Bool
  | [] => false
  | (k, v) :: entries => udtNan k || udtNan v || anyUdtNanEntry entries

end

mutual

/-- The value that stands for all that fall into one group with it: outside a UDT every NaN is the
    same. -/
def canonical : Value → Value
  | .float bits => .float (canonicalDouble bits)
  | .float32 bits => .float32 (canonicalFloat bits)
  | .list items => .list (canonicalAll items)
  | .set items => .set (canonicalAll items)
  | .tuple items => .tuple (canonicalAll items)
  | .map entries => .map (canonicalEntries entries)
  | .udt name keyspace fields => .udt name keyspace (unsignedFields fields)
  | .frozen inner => .frozen (canonical inner)
  | v => v

def canonicalAll : List Value → List Value
  | [] => []
  | v :: vs => canonical v :: canonicalAll vs

def canonicalEntries : List (Value × Value) → List (Value × Value)
  | [] => []
  | (k, v) :: entries => (canonical k, canonical v) :: canonicalEntries entries

end

end Value

/-! ### The equality of keys -/

theorem cassandraCmp_isEq_iff {w m a b : Nat} (ha : a < 2 ^ (w + 1)) (hb : b < 2 ^ (w + 1)) :
    (cassandraCmp w m a b).isEq = true ↔
      ieeeNaN w m a = true ∧ ieeeNaN w m b = true ∨
        ieeeNaN w m a = false ∧ ieeeNaN w m b = false ∧ a = b := by
  rw [Ordering.isEq_iff_eq_eq, cassandraCmp_eq, compareLex_eq_eq, compareLex_eq_eq]
  simp only [compareOn, compare_eq_iff_eq]
  cases ieeeNaN w m a <;> cases ieeeNaN w m b <;>
    simp only [Bool.false_eq_true, if_false, if_true, Bool.not_false, Bool.not_true, Bool.true_and,
      Bool.false_and, reduceCtorEq, false_and, and_false, or_self, and_self, true_and, false_or,
      or_false]
  refine ⟨fun ⟨hposition, hsign⟩ => ?_, fun h => by rw [h]; exact ⟨rfl, rfl⟩⟩
  rw [ieeePosition_inj ha hb] at hposition
  simp only [ieeeNegative, Bool.not_inj_iff, decide_eq_decide] at hsign
  split_ifs at hposition <;> omega

theorem cassandraDoubleCmp_isEq_iff (p q : UInt64) :
    (cassandraDoubleCmp p q).isEq = true ↔ canonicalDouble p = canonicalDouble q := by
  rw [cassandraDoubleCmp, cassandraCmp_isEq_iff p.toNat_lt q.toNat_lt, UInt64.toNat_inj]
  have hnan {b : UInt64} (h : ¬ ieeeNaN 63 52 b.toNat = true) : b ≠ 0x7ff8000000000000 :=
    fun heq => h (by rw [heq]; decide)
  unfold canonicalDouble
  split_ifs with hp hq hq
  · simp [hp, hq]
  · simp [hp, hq, (hnan hq).symm]
  · simp [hp, hq, hnan hp]
  · simp [hp, hq]

theorem cassandraFloatCmp_isEq_iff (p q : UInt32) :
    (cassandraFloatCmp p q).isEq = true ↔ canonicalFloat p = canonicalFloat q := by
  rw [cassandraFloatCmp, cassandraCmp_isEq_iff p.toNat_lt q.toNat_lt, UInt32.toNat_inj]
  have hnan {b : UInt32} (h : ¬ ieeeNaN 31 23 b.toNat = true) : b ≠ 0x7fc00000 :=
    fun heq => h (by rw [heq]; decide)
  unfold canonicalFloat
  split_ifs with hp hq hq
  · simp [hp, hq]
  · simp [hp, hq, (hnan hq).symm]
  · simp [hp, hq, hnan hp]
  · simp [hp, hq]

theorem Value.ctorIdx_canonical (v : Value) : v.canonical.ctorIdx = v.ctorIdx := by
  cases v <;> rfl

theorem ctorIdx_of_groupValueEq {a b : Value} (h : groupValueEq a b = true) :
    a.ctorIdx = b.ctorIdx := by
  unfold groupValueEq at h
  split at h <;> first | rfl | exact Value.ctorIdx_of_partialEq h

mutual

/-- Values fall into one group if they have one canonical value, and no UDT in them has a NaN. -/
theorem groupValueEq_iff {a b : Value} : groupValueEq a b = true ↔
    a.udtNan = false ∧ b.udtNan = false ∧ a.canonical = b.canonical := by
  by_cases hctor : a.ctorIdx = b.ctorIdx
  swap
  · refine iff_of_false (fun h => hctor (ctorIdx_of_groupValueEq h)) fun h => hctor ?_
    rw [← Value.ctorIdx_canonical a, h.2.2, Value.ctorIdx_canonical]
  cases a <;> cases b <;> first
    | (cases hctor; done)
    | simp only [groupValueEq, Value.udtNan, Value.canonical, Value.partialEq, true_and]
  case float.float p q => rw [cassandraDoubleCmp_isEq_iff, Value.float.injEq]
  case float32.float32 p q => rw [cassandraFloatCmp_isEq_iff, Value.float32.injEq]
  case list.list => rw [groupValuesEq_iff, Value.list.injEq]
  case set.set => rw [groupValuesEq_iff, Value.set.injEq]
  case tuple.tuple => rw [groupValuesEq_iff, Value.tuple.injEq]
  case map.map => rw [groupEntriesEq_iff, Value.map.injEq]
  case frozen.frozen => rw [groupValueEq_iff, Value.frozen.injEq]
  case udt.udt =>
    simp only [Bool.and_eq_true, beq_iff_eq, Value.partialEqFields_iff, Value.udt.injEq]
    tauto
  all_goals simp [and_assoc]
termination_by structural a

theorem groupValuesEq_iff : ∀ {as bs : List Value}, groupValuesEq as bs = true ↔
    Value.anyUdtNan as = false ∧ Value.anyUdtNan bs = false ∧
      Value.canonicalAll as = Value.canonicalAll bs
  | [], [] | [], _ :: _ | _ :: _, [] => by simp [groupValuesEq, Value.anyUdtNan, Value.canonicalAll]
  | a :: as, b :: bs => by
    simp only [groupValuesEq, Value.anyUdtNan, Value.canonicalAll, Bool.and_eq_true,
      Bool.or_eq_false_iff, List.cons.injEq, groupValueEq_iff, groupValuesEq_iff]
    tauto
termination_by structural as => as

theorem groupEntriesEq_iff : ∀ {as bs : List (Value × Value)}, groupEntriesEq as bs = true ↔
    Value.anyUdtNanEntry as = false ∧ Value.anyUdtNanEntry bs = false ∧
      Value.canonicalEntries as = Value.canonicalEntries bs
  | [], [] | [], _ :: _ | _ :: _, [] => by
    simp [groupEntriesEq, Value.anyUdtNanEntry, Value.canonicalEntries]
  | (k, v) :: as, (k', v') :: bs => by
    simp only [groupEntriesEq, Value.anyUdtNanEntry, Value.canonicalEntries, Bool.and_eq_true,
      Bool.or_eq_false_iff, List.cons.injEq, Prod.mk.injEq, groupValueEq_iff, groupEntriesEq_iff]
    tauto
termination_by structural as => as

end

theorem groupKeyEq_symmTrans : HashIndex.Partial groupKeyEq where
  symm _ _ h := by
    obtain ⟨ha, hb, heq⟩ := groupValuesEq_iff.1 h
    exact groupValuesEq_iff.2 ⟨hb, ha, heq.symm⟩
  trans _ _ _ hab hbc := by
    obtain ⟨ha, -, hab⟩ := groupValuesEq_iff.1 hab
    obtain ⟨-, hc, hbc⟩ := groupValuesEq_iff.1 hbc
    exact groupValuesEq_iff.2 ⟨ha, hc, hab.trans hbc⟩

theorem groupValuesEq_self (vs : List Value) : groupValuesEq vs vs = !Value.anyUdtNan vs := by
  rw [Bool.eq_iff_iff, groupValuesEq_iff, Bool.not_eq_true']
  simp

/-! ### Equal keys have one hash -/

mutual

theorem hashContent_canonical (v : Value) : hashContent v.canonical = hashContent v := by
  cases v with
  | float bits =>
    refine congrArg (fun b => [HashToken.bits64 b]) ?_
    unfold canonicalDouble
    split_ifs <;> rfl
  | float32 bits =>
    refine congrArg (fun b => [HashToken.bits32 b]) ?_
    unfold canonicalFloat
    split_ifs <;> rfl
  | list items | set items | tuple items => exact hashValues_canonical items
  | map entries => exact hashEntries_canonical entries
  | frozen inner =>
    simp only [Value.canonical, hashContent, hashContent_canonical inner, inner.ctorIdx_canonical]
  | _ => rfl

theorem hashValues_canonical : ∀ vs : List Value, hashValues (Value.canonicalAll vs) = hashValues vs
  | [] => rfl
  | v :: vs => by
    simp only [Value.canonicalAll, hashValues, v.ctorIdx_canonical, hashContent_canonical v,
      hashValues_canonical vs]

theorem hashEntries_canonical : ∀ entries : List (Value × Value),
    hashEntries (Value.canonicalEntries entries) = hashEntries entries
  | [] => rfl
  | (k, v) :: entries => by
    simp only [Value.canonicalEntries, hashEntries, Value.ctorIdx_canonical,
      hashContent_canonical k, hashContent_canonical v, hashEntries_canonical entries]

end

theorem length_canonicalAll : ∀ vs : List Value, (Value.canonicalAll vs).length = vs.length
  | [] => rfl
  | _ :: vs => congrArg (· + 1) (length_canonicalAll vs)

theorem hashGroupKey_of_eq (finish : List HashToken → Nat) (a b : List Value)
    (h : groupKeyEq a b = true) : hashGroupKey finish a = hashGroupKey finish b := by
  obtain ⟨-, -, heq⟩ := groupValuesEq_iff.1 h
  have hlength := congrArg List.length heq
  rw [length_canonicalAll, length_canonicalAll] at hlength
  rw [hashGroupKey, hashGroupKey, hlength, ← hashValues_canonical a, heq, hashValues_canonical b]

end Cqlite
