import Cqlite.Merge.KeyTypes
import Cqlite.Merge.Runs
import Cqlite.Reader.ClusteringPrefix
import Cqlite.Writer.ListPaths
import Cqlite.Writer.PartitionItems
import Mathlib.Algebra.Order.Field.Rat

/-! Clustering keys in the order of their types (`write_engine/mutation.rs`: `ClusteringKey::compare`,
    `compare_values`).

    The comparison knows values, not types. It has no order for `varint`, `decimal`, `duration` and
    user-defined types, and a `timeuuid` is bytes to it. On the other types it is the order of the
    type, and every sort of the write path follows it. -/

namespace Cqlite

/-! ### The types and their orders -/

/-- The declared type of a clustering column. -/
inductive ClusteringType
  | boolean
  | tinyInt
  | smallInt
  | int
  | bigInt
  | float
  | double
  | text
  | blob
  | timestamp
  | date
  | time
  | uuid
  | timeUuid
  | inet
  | varint
  | decimal
  | duration
  | udt (fields : Nat → ClusteringType)
  | list (element : ClusteringType)
  | set (element : ClusteringType)
  | map (key value : ClusteringType)
  | tuple (fields : Nat → ClusteringType)
  | frozen (inner : ClusteringType)

/-- The variant that values of the type are decoded to. -/
def ClusteringType.values : ClusteringType → ValueType
  | .boolean => .boolean
  | .tinyInt => .tinyInt
  | .smallInt => .smallInt
  | .int => .integer
  | .bigInt => .bigInt
  | .float => .float32
  | .double => .float
  | .text => .text
  | .blob => .blob
  | .timestamp => .timestamp
  | .date => .date
  | .time => .time
  | .uuid => .uuid
  | .timeUuid => .uuid
  | .inet => .inet
  | .varint => .varint
  | .decimal => .decimal
  | .duration => .duration
  | .udt _ => .udt
  | .list t => .list t.values
  | .set t => .set t.values
  | .map k v => .map k.values v.values
  | .tuple ts => .tuple fun i => (ts i).values
  | .frozen t => .frozen t.values

/-- NaN last, then by position on the number line, the negative zero before the positive one. -/
def javaFloatOrder (w m : Nat) : Nat → Nat → Ordering :=
  compareLex (compareOn fun x => ieeeNaN w m x) (compareLex
    (compareOn fun x => if ieeeNaN w m x then 0 else ieeePosition w x)
    (compareOn fun x => !ieeeNaN w m x && !ieeeNegative w x))

/-- The number a decimal stands for. -/
def decimalValue (scale : Int) (unscaled : Bytes) : ℚ := intOfBytes unscaled * (10 : ℚ) ^ (-scale)

/-- A null before every present value. -/
def nullsFirst (order : Value → Value → Ordering) (a b : Value) : Ordering :=
  match a.isNull, b.isNull with
  | true, true => .eq
  | true, false => .lt
  | false, true => .gt
  | false, false => order a b

/-- Position by position from the `i`-th on, a front before what extends it. -/
def orderFrom (order : Nat → Value → Value → Ordering) : Nat → List Value → List Value → Ordering
  | _, [], [] => .eq
  | _, [], _ :: _ => .lt
  | _, _ :: _, [] => .gt
  | i, a :: as, b :: bs => (order i a b).then (orderFrom order (i + 1) as bs)

/-- Entry by entry, the key before the value. -/
def orderEntries (key value : Value → Value → Ordering) :
    List (Value × Value) → List (Value × Value) → Ordering
  | [], [] => .eq
  | [], _ :: _ => .lt
  | _ :: _, [] => .gt
  | a :: as, b :: bs =>
    ((key a.1 b.1).then (value a.2 b.2)).then (orderEntries key value as bs)

/-- The order of a CQL type; values of another type are equal. -/
def ClusteringType.order : ClusteringType → Value → Value → Ordering
  | .boolean => nullsFirst fun | .boolean a, .boolean b => compare a b | _, _ => .eq
  | .tinyInt => nullsFirst fun | .tinyInt a, .tinyInt b => compare a b | _, _ => .eq
  | .smallInt => nullsFirst fun | .smallInt a, .smallInt b => compare a b | _, _ => .eq
  | .int => nullsFirst fun | .integer a, .integer b => compare a b | _, _ => .eq
  | .bigInt => nullsFirst fun | .bigInt a, .bigInt b => compare a b | _, _ => .eq
  | .float => nullsFirst fun
    | .float32 a, .float32 b => javaFloatOrder 31 23 a.toNat b.toNat
    | _, _ => .eq
  | .double => nullsFirst fun
    | .float a, .float b => javaFloatOrder 63 52 a.toNat b.toNat
    | _, _ => .eq
  | .text => nullsFirst fun | .text a, .text b => compare a b | _, _ => .eq
  | .blob => nullsFirst fun | .blob a, .blob b => compare a b | _, _ => .eq
  | .timestamp => nullsFirst fun | .timestamp a, .timestamp b => compare a b | _, _ => .eq
  | .date => nullsFirst fun | .date a, .date b => compare a b | _, _ => .eq
  | .time => nullsFirst fun | .time a, .time b => compare a b | _, _ => .eq
  | .uuid => nullsFirst fun | .uuid a, .uuid b => compare a b | _, _ => .eq
  | .timeUuid => nullsFirst fun | .uuid a, .uuid b => timeUuidCmp a b | _, _ => .eq
  | .inet => nullsFirst fun | .inet a, .inet b => compare a b | _, _ => .eq
  | .varint => nullsFirst fun
    | .varint a, .varint b => compare (intOfBytes a) (intOfBytes b)
    | _, _ => .eq
  | .decimal => nullsFirst fun
    | .decimal s a, .decimal t b => compare (decimalValue s a) (decimalValue t b)
    | _, _ => .eq
  | .duration => nullsFirst fun
    | .duration m d n, .duration m' d' n' =>
      (compare m m').then ((compare d d').then (compare n n'))
    | _, _ => .eq
  | .udt ts => nullsFirst fun
    | .udt _ _ as, .udt _ _ bs => orderFrom (fun i => (ts i).order) 0
        (as.map fun f => f.2.getD .null) (bs.map fun f => f.2.getD .null)
    | _, _ => .eq
  | .list t => nullsFirst fun
    | .list as, .list bs => orderFrom (fun _ => t.order) 0 as bs
    | _, _ => .eq
  | .set t => nullsFirst fun
    | .set as, .set bs => orderFrom (fun _ => t.order) 0 as bs
    | _, _ => .eq
  | .map k v => nullsFirst fun
    | .map as, .map bs => orderEntries k.order v.order as bs
    | _, _ => .eq
  | .tuple ts => nullsFirst fun
    | .tuple as, .tuple bs => orderFrom (fun i => (ts i).order) 0 as bs
    | _, _ => .eq
  | .frozen t => nullsFirst fun
    | .frozen a, .frozen b => t.order a b
    | _, _ => .eq

/-- No part of the type is a `timeuuid`, a `varint`, a `decimal`, a `duration` or user-defined. -/
def ClusteringType.Plain : ClusteringType → Prop
  | .timeUuid | .varint | .decimal | .duration | .udt _ => False
  | .list t | .set t | .frozen t => t.Plain
  | .map k v => k.Plain ∧ v.Plain
  | .tuple ts => ∀ i, (ts i).Plain
  | _ => True

/-! ### Values of plain types -/

variable {v w : Value} {i : Nat} {a b : ClusteringKey}

theorem compareValues_nullsFirst {order : Value → Value → Ordering}
    (h : v.isNull = false → w.isNull = false → compareValues v w = some (order v w)) :
    compareValues v w = some (nullsFirst order v w) := by
  rw [compareValues_eq_nullFirst, Layered.nullFirst, nullsFirst]
  cases hv : v.isNull <;> cases hw : w.isNull
  · exact h hv hw
  · rfl
  · rfl
  · rfl

/-- Values compare as their type does. -/
def ClusteringType.Agrees (t : ClusteringType) : Prop :=
  ∀ v w, t.values.Holds v → t.values.Holds w → compareValues v w = some (t.order v w)

theorem compareElements_orderFrom {ts : Nat → ClusteringType} (h : ∀ i, (ts i).Agrees)
    {as bs : List Value} (ha : Layered.Each (fun j => (ts (i + j)).values.Holds) as)
    (hb : Layered.Each (fun j => (ts (i + j)).values.Holds) bs) :
    compareElements as bs = some (orderFrom (fun i => (ts i).order) i as bs) := by
  induction as generalizing i bs with
  | nil => cases bs <;> rfl
  | cons a as ih =>
    cases bs with
    | nil => rfl
    | cons b bs =>
      have hshift : ∀ {v : Value} {vs : List Value},
          Layered.Each (fun j => (ts (i + j)).values.Holds) (v :: vs) →
            Layered.Each (fun j => (ts (i + 1 + j)).values.Holds) vs := by
        intro v vs hvs j w hw
        rw [Nat.add_assoc, Nat.add_comm 1 j]
        exact hvs (j + 1) w hw
      rw [compareElements, orderFrom, h i a b (ha 0 a rfl) (hb 0 b rfl)]
      cases (ts i).order a b with
      | eq => exact ih (hshift ha) (hshift hb)
      | lt => rfl
      | gt => rfl

theorem compareEntries_orderEntries {k v : ClusteringType} (hk : k.Agrees) (hv : v.Agrees)
    {as bs : List (Value × Value)} (ha : ∀ e ∈ as, k.values.Holds e.1 ∧ v.values.Holds e.2)
    (hb : ∀ e ∈ bs, k.values.Holds e.1 ∧ v.values.Holds e.2) :
    compareEntries as bs = some (orderEntries k.order v.order as bs) := by
  induction as generalizing bs with
  | nil => cases bs <;> rfl
  | cons a as ih =>
    cases bs with
    | nil => rfl
    | cons b bs =>
      obtain ⟨ka, va⟩ := a
      obtain ⟨kb, vb⟩ := b
      obtain ⟨ha, has⟩ := List.forall_mem_cons.1 ha
      obtain ⟨hb, hbs⟩ := List.forall_mem_cons.1 hb
      rw [compareEntries, orderEntries, hk ka kb ha.1 hb.1, hv va vb ha.2 hb.2, ih has hbs]
      cases k.order ka kb with
      | eq => cases v.order va vb <;> rfl
      | lt => rfl
      | gt => rfl

/-- On plain types the two orders agree. -/
theorem agrees_of_plain (t : ClusteringType) (h : t.Plain) : t.Agrees := by
  induction t with
  | timeUuid | varint | decimal | duration | udt => exact h.elim
  | list t ih | set t ih =>
    intro v w hv hw
    refine compareValues_nullsFirst fun hpv hpw => ?_
    cases v <;> first | exact hv.elim | (cases hpv; done) | skip
    cases w <;> first | exact hw.elim | (cases hpw; done) | skip
    exact compareElements_orderFrom (fun _ => ih h) (each_const hv) (each_const hw)
  | map k v ihk ihv =>
    intro v w hv hw
    refine compareValues_nullsFirst fun hpv hpw => ?_
    cases v <;> first | exact hv.elim | (cases hpv; done) | skip
    cases w <;> first | exact hw.elim | (cases hpw; done) | skip
    exact compareEntries_orderEntries (ihk h.1) (ihv h.2) hv hw
  | tuple ts ih =>
    intro v w hv hw
    rw [ClusteringType.order]
    refine compareValues_nullsFirst fun hpv hpw => ?_
    cases v <;> first | exact hv.elim | (cases hpv; done) | skip
    cases w <;> first | exact hw.elim | (cases hpw; done) | skip
    refine compareElements_orderFrom (fun i => ih i (h i)) ?_ ?_
    · simp only [Nat.zero_add]
      exact hv
    · simp only [Nat.zero_add]
      exact hw
  | frozen t ih =>
    intro v w hv hw
    refine compareValues_nullsFirst fun hpv hpw => ?_
    cases v <;> first | exact hv.elim | (cases hpv; done) | skip
    cases w <;> first | exact hw.elim | (cases hpw; done) | skip
    exact ih h _ _ hv hw
  | float | double =>
    intro v w hv hw
    refine compareValues_nullsFirst fun hpv hpw => ?_
    cases v <;> first | exact hv.elim | (cases hpv; done) | skip
    cases w <;> first | exact hw.elim | (cases hpw; done) | skip
    exact congrArg some (cassandraCmp_eq ..)
  | _ =>
    intro v w hv hw
    refine compareValues_nullsFirst fun hpv hpw => ?_
    cases v <;> first | exact hv.elim | (cases hpv; done) | skip
    cases w <;> first | exact hw.elim | (cases hpw; done) | rfl

/-! ### The other types -/

theorem compareElements_padded (i : Nat) (v w : Value) :
    compareElements (List.replicate i .null ++ [v]) (List.replicate i .null ++ [w]) =
      compareValues v w := by
  induction i with
  | zero =>
    rw [List.replicate_zero, List.nil_append, List.nil_append, compareElements]
    cases compareValues v w with
    | none => rfl
    | some o => cases o <;> rfl
  | succ i ih => exact ih

theorem orderFrom_padded {order : Nat → Value → Value → Ordering} (h : ∀ i, order i .null .null = .eq)
    (i j : Nat) (v w : Value) :
    orderFrom order j (List.replicate i .null ++ [v]) (List.replicate i .null ++ [w]) =
      order (j + i) v w := by
  induction i generalizing j with
  | zero =>
    rw [List.replicate_zero, List.nil_append, List.nil_append, orderFrom]
    exact Ordering.then_eq ..
  | succ i ih =>
    rw [List.replicate_succ, List.cons_append, List.cons_append, orderFrom, h, ih]
    exact congrArg (order · v w) (by omega)

theorem ClusteringType.order_null (t : ClusteringType) : t.order .null .null = .eq := by
  cases t with
  | udt ts | tuple ts =>
    rw [ClusteringType.order]
    rfl
  | _ => rfl

/-- Each excluded type has two values that the orders disagree on. -/
theorem plain_of_agrees (t : ClusteringType) (h : t.Agrees) : t.Plain := by
  induction t with
  | timeUuid =>
    have := h (.uuid [0, 0, 0, 0, 0, 1, 16, 0, 0, 128, 0, 0, 0, 0, 0, 0])
      (.uuid [0, 0, 0, 1, 0, 0, 16, 0, 0, 128, 0, 0, 0, 0, 0, 0]) trivial trivial
    exact absurd this (by decide)
  | varint => cases h (.varint [1]) (.varint [2]) trivial trivial
  | decimal => cases h (.decimal 0 [1]) (.decimal 0 [2]) trivial trivial
  | duration => cases h (.duration 1 0 0) (.duration 2 0 0) trivial trivial
  | udt ts => cases h (.udt "" "" []) (.udt "" "" []) trivial trivial
  | list t ih =>
    refine ih fun v w hv hw => ?_
    have hpair := h (.list [v]) (.list [w]) (List.forall_mem_singleton.2 hv)
      (List.forall_mem_singleton.2 hw)
    exact (compareElements_padded 0 v w).symm.trans (hpair.trans
      (congrArg some (orderFrom_padded (fun _ => t.order_null) 0 0 v w)))
  | set t ih =>
    refine ih fun v w hv hw => ?_
    have hpair := h (.set [v]) (.set [w]) (List.forall_mem_singleton.2 hv)
      (List.forall_mem_singleton.2 hw)
    exact (compareElements_padded 0 v w).symm.trans (hpair.trans
      (congrArg some (orderFrom_padded (fun _ => t.order_null) 0 0 v w)))
  | map k t ihk iht =>
    constructor
    · refine ihk fun v w hv hw => ?_
      have hpair := h (.map [(v, .null)]) (.map [(w, .null)])
        (List.forall_mem_singleton.2 ⟨hv, t.values.holds_null⟩)
        (List.forall_mem_singleton.2 ⟨hw, t.values.holds_null⟩)
      have hleft : compareValues (.map [(v, .null)]) (.map [(w, .null)]) = compareValues v w := by
        rw [compareValues, compareEntries]
        cases compareValues v w with
        | none => rfl
        | some o => cases o <;> rfl
      rw [← hleft, hpair]
      refine congrArg some ?_
      change ((k.order v w).then (t.order .null .null)).then .eq = k.order v w
      rw [t.order_null, Ordering.then_eq, Ordering.then_eq]
    · refine iht fun v w hv hw => ?_
      have hpair := h (.map [(.null, v)]) (.map [(.null, w)])
        (List.forall_mem_singleton.2 ⟨k.values.holds_null, hv⟩)
        (List.forall_mem_singleton.2 ⟨k.values.holds_null, hw⟩)
      have hleft : compareValues (.map [(.null, v)]) (.map [(.null, w)]) = compareValues v w := by
        rw [compareValues, compareEntries]
        cases compareValues v w with
        | none => rfl
        | some o => cases o <;> rfl
      rw [← hleft, hpair]
      refine congrArg some ?_
      change ((k.order .null .null).then (t.order v w)).then .eq = t.order v w
      rw [k.order_null, Ordering.then_eq]
      rfl
  | tuple ts ih =>
    refine fun i => ih i fun v w hv hw => ?_
    have hpadded : ∀ u, (ts i).values.Holds u →
        (ClusteringType.tuple ts).values.Holds (.tuple (List.replicate i .null ++ [u])) := by
      intro u hu j x hx
      rcases Nat.lt_trichotomy j i with hlt | rfl | hgt
      · rw [List.getElem?_append_left (by simpa using hlt), List.getElem?_replicate, if_pos hlt] at hx
        exact Option.some.inj hx ▸ (ts j).values.holds_null
      · rw [List.getElem?_append_right (by simp), List.length_replicate, Nat.sub_self] at hx
        exact Option.some.inj hx ▸ hu
      · rw [List.getElem?_append_right (by simp; omega), List.getElem?_eq_none (by simp; omega)] at hx
        cases hx
    have hpair := h _ _ (hpadded v hv) (hpadded w hw)
    rw [ClusteringType.order] at hpair
    refine (compareElements_padded i v w).symm.trans (hpair.trans (congrArg some ?_))
    exact (orderFrom_padded (fun i => (ts i).order_null) i 0 v w).trans (by rw [Nat.zero_add])
  | frozen t ih => exact ih fun v w hv hw => h (.frozen v) (.frozen w) hv hw
  | _ => trivial

/-! ### Keys -/

/-- One column: nulls first in either direction, present values in the direction of the column. -/
def columnOrder (order : ClusteringOrder) (t : ClusteringType) : Value → Value → Ordering :=
  nullsFirst fun a b => directed order (t.order a b)

/-- The columns from the `i`-th on. -/
def keyOrderFrom (types : Nat → ClusteringType) (a b : ClusteringKey) :
    Nat → List ClusteringColumn → Ordering
  | _, [] => .eq
  | i, col :: cols =>
    (columnOrder col.order (types i) (a.component i) (b.component i)).then
      (keyOrderFrom types a b (i + 1) cols)

/-- The order of the clustering keys of a table. -/
def keyOrder (schema : TableSchema) (types : Nat → ClusteringType) (a b : ClusteringKey) : Ordering :=
  keyOrderFrom types a b 0 schema.clusteringKeys

theorem compareAt_nullsFirst (order : ClusteringOrder) (v w : Value) {o : Value → Value → Ordering}
    (h : v.isNull = false → w.isNull = false → compareValues v w = some (o v w)) :
    ClusteringKey.compareAt order v w = some (nullsFirst (fun a b => directed order (o a b)) v w) := by
  rw [compareAt_eq_nullFirst, Layered.nullFirst, nullsFirst]
  cases hv : v.isNull <;> cases hw : w.isNull
  · rw [h hv hw]
    rfl
  · rfl
  · rfl
  · rfl

theorem compareAt_plain {t : ClusteringType} (h : t.Agrees) (order : ClusteringOrder)
    (hv : t.values.Holds v) (hw : t.values.Holds w) :
    ClusteringKey.compareAt order v w = some (columnOrder order t v w) :=
  compareAt_nullsFirst order v w fun _ _ => h v w hv hw

theorem compareFrom_plain {types : Nat → ClusteringType} {cols : List ClusteringColumn}
    (h : ∀ j < cols.length, (types (i + j)).Agrees) (ha : a.TypedBy fun i => (types i).values)
    (hb : b.TypedBy fun i => (types i).values) :
    ClusteringKey.compareFrom a b i cols = some (keyOrderFrom types a b i cols) := by
  induction cols generalizing i with
  | nil => rfl
  | cons col cols ih =>
    have hrest := ih (i := i + 1) fun j hj => by
      rw [Nat.add_assoc, Nat.add_comm 1 j]
      exact h (j + 1) (Nat.succ_lt_succ hj)
    rw [ClusteringKey.compareFrom, keyOrderFrom,
      compareAt_plain (h 0 (Nat.succ_pos _)) col.order (ha i) (hb i)]
    cases columnOrder col.order (types i) (a.component i) (b.component i) with
    | eq => exact hrest
    | lt => rfl
    | gt => rfl

section Sorts

variable [DebugFmt]

/-- The comparison with which a flush sorts the mutations of a partition: absent keys first. -/
def mutationCmp (schema : TableSchema) (a b : Mutation) : Ordering :=
  match a.clusteringKey, b.clusteringKey with
  | none, none => .eq
  | none, some _ => .lt
  | some _, none => .gt
  | some a, some b => ClusteringKey.schemaCmp schema a b

/-- A key of a table with the given types. -/
def ClusteringKey.Of (schema : TableSchema) (types : Nat → ClusteringType) (ck : ClusteringKey) : Prop :=
  ck.Fits schema fun i => (types i).values

/-- `compare` is a total order on the keys of a table, that of its types, and `==` is equality for
    it. The sorts of the write path follow it: that of the mutations the memtable hands over, that
    of the merger's heap, and that of a partition's rows and markers. An absent component counts as
    a null, so equality is between keys of one number of components. -/
structure ClusteringOrdered (schema : TableSchema) (types : Nat → ClusteringType) : Prop where
  typed : ∀ a b : ClusteringKey, a.Of schema types → b.Of schema types →
    a.compare b schema = some (keyOrder schema types a b)
  refl : ∀ a : ClusteringKey, a.Of schema types → a.compare a schema = some .eq
  swap : ∀ a b : ClusteringKey, a.Of schema types → b.Of schema types →
    b.compare a schema = (a.compare b schema).map Ordering.swap
  trans : ∀ a b c : ClusteringKey, a.Of schema types → b.Of schema types → c.Of schema types →
    a.compare b schema ≠ some .gt → b.compare c schema ≠ some .gt → a.compare c schema ≠ some .gt
  equal : ∀ a b : ClusteringKey, a.Of schema types → b.Of schema types →
    (a.cmp b = .eq ↔ a.compare b schema = some .eq ∧ a.columns.length = b.columns.length)
  memtable : ∀ (m n : Mutation) (a b : ClusteringKey), m.clusteringKey = some a →
    n.clusteringKey = some b → a.Of schema types → b.Of schema types →
      some (mutationCmp schema m n) = a.compare b schema
  merger : ∀ (x y : MergeEntry) (a b : ClusteringKey), x.key = y.key → x.clusteringKey = some a →
    y.clusteringKey = some b → a.Of schema types → b.Of schema types →
      some (entryCmp schema x y) =
        (a.compare b schema).map fun o => o.then (compare x.runIndex y.runIndex)
  writer : ∀ (x y : PartitionItem) (a b : ClusteringKey), (sortClass x).key = some a →
    (sortClass y).key = some b → a.Of schema types → b.Of schema types →
      some (partitionItemCmp schema x y) = (a.compare b schema).map fun o =>
        o.then ((compare (sortClass x).weight (sortClass y).weight).then
          (compare (sortClass x).kind (sortClass y).kind))

variable {schema : TableSchema} {types : Nat → ClusteringType}

omit [DebugFmt] in
theorem compare_eq_compareFrom (ha : a.Of schema types) (hb : b.Of schema types) :
    a.compare b schema = ClusteringKey.compareFrom a b 0 schema.clusteringKeys := by
  have := ha.length_le
  have := hb.length_le
  rw [ClusteringKey.compare, if_neg (by omega)]

omit [DebugFmt] in
theorem component_of_le (h : a.columns.length ≤ i) : a.component i = .null := by
  rw [ClusteringKey.component, List.getD_eq_getElem?_getD, List.getElem?_eq_none (by simpa using h)]
  rfl

omit [DebugFmt] in
theorem component_of_lt (h : i < a.columns.length) : a.component i = (a.columns[i]).2 := by
  simp [ClusteringKey.component, h]

theorem cmpColumns_length {as bs : List (String × Value)} (h : ClusteringKey.cmpColumns as bs = .eq) :
    as.length = bs.length := by
  induction as generalizing bs with
  | nil =>
    cases bs with
    | nil => rfl
    | cons b bs => cases h
  | cons a as ih =>
    cases bs with
    | nil => cases h
    | cons b bs => exact congrArg Nat.succ (ih (Ordering.then_eq_eq.1 h).2)

/-- Keys of one length are equal for the fallback exactly when their columns are. -/
theorem compareFrom_eq_iff_cmp {cols : List ClusteringColumn} {o : Ordering}
    (hlen : a.columns.length = b.columns.length) (hle : a.columns.length ≤ i + cols.length)
    (h : ClusteringKey.compareFrom a b i cols = some o) :
    o = .eq ↔ ClusteringKey.cmpColumns (a.columns.drop i) (b.columns.drop i) = .eq := by
  induction cols generalizing i with
  | nil =>
    obtain rfl := Option.some.inj h
    rw [List.drop_of_length_le (by simpa using hle), List.drop_of_length_le (by simpa [← hlen] using hle)]
    exact Iff.rfl
  | cons col cols ih =>
    rw [List.length_cons] at hle
    rw [ClusteringKey.compareFrom] at h
    by_cases hi : i < a.columns.length
    · have hib : i < b.columns.length := hlen ▸ hi
      rw [List.drop_eq_getElem_cons hi, List.drop_eq_getElem_cons hib, ClusteringKey.cmpColumns,
        ClusteringKey.cmpValue]
      obtain ⟨reverse, hr⟩ := compareAt_eq col.order (a.component i) (b.component i)
      rw [hr, component_of_lt hi, component_of_lt hib] at h
      cases hc : compareValues a.columns[i].2 b.columns[i].2 with
      | none =>
        rw [hc] at h
        cases h
      | some c =>
        rw [hc] at h
        cases c with
        | eq =>
          refine (ih (i := i + 1) (by omega) ?_).trans (by rfl)
          cases reverse <;> exact h
        | lt | gt =>
          cases reverse <;> cases h <;> exact iff_of_false (by simp) (by simp)
    · have hnull := component_of_le (a := a) (Nat.not_lt.1 hi)
      have hnull' := component_of_le (a := b) (hlen ▸ Nat.not_lt.1 hi)
      rw [hnull, hnull'] at h
      rw [ih (i := i + 1) (by omega) h, List.drop_of_length_le (by omega),
        List.drop_of_length_le (by omega), List.drop_of_length_le (by omega),
        List.drop_of_length_le (by omega)]

/-! ### One column apart -/

section

omit [DebugFmt]

theorem order_eq_nullsFirst (t : ClusteringType) : ∃ order, t.order = nullsFirst order := by
  cases t with
  | udt ts | tuple ts =>
    rw [ClusteringType.order]
    exact ⟨_, rfl⟩
  | _ => exact ⟨_, rfl⟩

/-- The key with `v` in column `i` and nulls elsewhere. -/
def soleKey (schema : TableSchema) (i : Nat) (v : Value) : ClusteringKey :=
  ⟨schema.clusteringKeys.zipIdx.map fun p => (p.1.name, if p.2 = i then v else .null)⟩

theorem component_soleKey {j : Nat} (hi : i < schema.clusteringKeys.length) :
    (soleKey schema i v).component j = if j = i then v else .null := by
  by_cases hj : j < schema.clusteringKeys.length
  · rw [component_of_lt (by simpa [soleKey] using hj)]
    simp [soleKey]
  · rw [component_of_le (by simpa [soleKey] using hj), if_neg (by omega)]

theorem soleKey_of (hi : i < schema.clusteringKeys.length) (hv : (types i).values.Holds v) :
    (soleKey schema i v).Of schema types where
  typed j := by
    rw [component_soleKey hi]
    split
    · rename_i hj
      rwa [hj]
    · exact ValueType.holds_null _
  length_le := by simp [soleKey]

theorem compareFrom_nulls {a b : ClusteringKey} {j : Nat} {cols : List ClusteringColumn}
    (hsame : ∀ k, j ≤ k → a.component k = .null ∧ b.component k = .null) :
    ClusteringKey.compareFrom a b j cols = some .eq ∧ keyOrderFrom types a b j cols = .eq := by
  induction cols generalizing j with
  | nil => exact ⟨rfl, rfl⟩
  | cons col cols ih =>
    obtain ⟨ha, hb⟩ := hsame j le_rfl
    rw [ClusteringKey.compareFrom, keyOrderFrom, ha, hb]
    exact ih fun k hk => hsame k (by omega)

theorem compareFrom_sole {a b : ClusteringKey} {i j : Nat} {pre post : List ClusteringColumn}
    {col : ClusteringColumn} (hi : j + pre.length = i)
    (hsame : ∀ k, k ≠ i → a.component k = .null ∧ b.component k = .null) :
    ClusteringKey.compareFrom a b j (pre ++ col :: post) =
        ClusteringKey.compareAt col.order (a.component i) (b.component i) ∧
      keyOrderFrom types a b j (pre ++ col :: post) =
        columnOrder col.order (types i) (a.component i) (b.component i) := by
  induction pre generalizing j with
  | nil =>
    obtain rfl : j = i := hi
    obtain ⟨hcompare, horder⟩ := @compareFrom_nulls types a b (j + 1) post fun k hk =>
      hsame k (by omega)
    rw [List.nil_append, ClusteringKey.compareFrom, keyOrderFrom, hcompare, horder, Ordering.then_eq]
    refine ⟨?_, rfl⟩
    cases ClusteringKey.compareAt col.order (a.component j) (b.component j) with
    | none => rfl
    | some o => cases o <;> rfl
  | cons first pre ih =>
    rw [List.length_cons] at hi
    obtain ⟨ha, hb⟩ := hsame j (by omega)
    rw [List.cons_append, ClusteringKey.compareFrom, keyOrderFrom, ha, hb]
    exact ih (by omega)

theorem directed_injective (order : ClusteringOrder) {o p : Ordering}
    (h : directed order o = directed order p) : o = p := by
  cases order <;> cases o <;> cases p <;> first | rfl | cases h

theorem compareValues_of_compareAt {order : ClusteringOrder} {t : ClusteringType}
    (h : ClusteringKey.compareAt order v w = some (columnOrder order t v w)) :
    compareValues v w = some (t.order v w) := by
  obtain ⟨o, ho⟩ := order_eq_nullsFirst t
  rw [ho]
  refine compareValues_nullsFirst fun hv hw => ?_
  rw [compareAt_eq_nullFirst, Layered.nullFirst, columnOrder, nullsFirst, hv, hw, ho] at h
  obtain ⟨c, hc, hdirected⟩ := Option.map_eq_some_iff.1 h
  rw [nullsFirst, hv, hw] at hdirected
  rw [hc, directed_injective order hdirected]

theorem position_of_key {item : PartitionItem} {ck : ClusteringKey}
    (h : (sortClass item).key = some ck) : (sortClass item).position = 0 := by
  cases item with
  | row row => rfl
  | marker bound isOpen dt ldt => cases bound <;> first | rfl | cases h
  | boundary => rfl

end

/-- The columns of a table are ordered by `compare` exactly when all their types are plain. -/
theorem clusteringOrdered_iff :
    ClusteringOrdered schema types ↔ ∀ i < schema.clusteringKeys.length, (types i).Plain := by
  constructor
  · intro h i hi
    refine plain_of_agrees _ fun v w hv hw => ?_
    have hkeys := h.typed _ _ (soleKey_of hi hv) (soleKey_of hi hw)
    rw [compare_eq_compareFrom (soleKey_of hi hv) (soleKey_of hi hw), keyOrder,
      ← List.take_append_drop i schema.clusteringKeys, List.drop_eq_getElem_cons hi] at hkeys
    have hsole := @compareFrom_sole types (soleKey schema i v) (soleKey schema i w) i 0
      (schema.clusteringKeys.take i) (schema.clusteringKeys.drop (i + 1)) schema.clusteringKeys[i]
      (by simp; omega) fun k hk => by
        rw [component_soleKey hi, component_soleKey hi, if_neg hk, if_neg hk]
        exact ⟨rfl, rfl⟩
    rw [hsole.1, hsole.2, component_soleKey hi, component_soleKey hi, if_pos rfl, if_pos rfl] at hkeys
    exact compareValues_of_compareAt hkeys
  · intro h
    have hsome : ∀ a b : ClusteringKey, a.Of schema types → b.Of schema types →
        a.compare b schema = some (keyOrder schema types a b) := fun a b ha hb => by
      rw [compare_eq_compareFrom ha hb]
      exact compareFrom_plain (fun j hj => by
        rw [Nat.zero_add]
        exact agrees_of_plain _ (h j hj)) ha.typed hb.typed
    have hschema : ∀ a b : ClusteringKey, a.Of schema types → b.Of schema types →
        some (ClusteringKey.schemaCmp schema a b) = a.compare b schema := fun a b ha hb => by
      rw [ClusteringKey.schemaCmp, hsome a b ha hb]
      rfl
    have hlayered := compareFrom_layered (fun i => (types i).values) 0 schema.clusteringKeys
    have hswap : ∀ a b : ClusteringKey, a.Of schema types → b.Of schema types →
        b.compare a schema = (a.compare b schema).map Ordering.swap := fun a b ha hb => by
      rw [compare_eq_compareFrom ha hb, compare_eq_compareFrom hb ha]
      exact hlayered.swap a ha.typed b hb.typed
    refine ⟨hsome, fun a ha => ?_, hswap, fun a b c ha hb hc hab hbc => ?_, fun a b ha hb => ?_,
      fun m n a b hm hn ha hb => ?_, fun x y a b hkey hx hy ha hb => ?_,
      fun x y a b hx hy ha hb => ?_⟩
    · have hself := hswap a a ha ha
      rw [hsome a a ha ha] at hself ⊢
      refine congrArg some ?_
      cases ho : keyOrder schema types a a with
      | eq => rfl
      | lt | gt =>
        rw [ho] at hself
        cases hself
    · have htrans := hlayered.trans a ha.typed b hb.typed c hc.typed
      rw [← compare_eq_compareFrom ha hb, ← compare_eq_compareFrom hb hc,
        ← compare_eq_compareFrom ha hc] at htrans
      rw [hsome a b ha hb] at hab htrans
      rw [hsome b c hb hc] at hbc htrans
      rw [hsome a c ha hc] at htrans ⊢
      exact fun hac => htrans (fun h => hab (congrArg some h)) (fun h => hbc (congrArg some h))
        (Option.some.inj hac)
    · have hiff : a.columns.length = b.columns.length →
          (a.compare b schema = some .eq ↔ a.cmp b = .eq) := fun hlen => by
        rw [hsome a b ha hb, Option.some_inj]
        refine compareFrom_eq_iff_cmp (i := 0) hlen ?_ ((compare_eq_compareFrom ha hb).symm.trans
          (hsome a b ha hb))
        rw [Nat.zero_add]
        exact ha.length_le
      constructor
      · intro hcmp
        have hlen := cmpColumns_length hcmp
        exact ⟨(hiff hlen).2 hcmp, hlen⟩
      · rintro ⟨hcompare, hlen⟩
        exact (hiff hlen).1 hcompare
    · rw [mutationCmp, hm, hn]
      exact hschema a b ha hb
    · rw [entryCmp, rowCmp, hx, hy, hkey, ← hschema a b ha hb, decoratedKey_cmp_eq.2 rfl]
      rfl
    · rw [partitionItemCmp, position_of_key hx, position_of_key hy, hx, hy, cmpKeys,
        ← hschema a b ha hb]
      rfl

end Sorts

/-- The key of one `timeuuid` whose low and middle time fields are given. -/
def timeKey (low mid : UInt8) : ClusteringKey :=
  ⟨[("at", .uuid [0, 0, 0, low, 0, mid, 16, 0, 0x80, 0, 0, 0, 0, 0, 0, 0])]⟩

/-- The low bits of the time come first in a `timeuuid`. -/
theorem timeUuid_not_ordered :
    ¬ ClusteringOrdered ⟨[⟨"at", .asc⟩], fun _ => none⟩ fun _ => .timeUuid := by
  intro h
  have hof : ∀ low mid, (timeKey low mid).Of ⟨[⟨"at", .asc⟩], fun _ => none⟩ fun _ => .timeUuid :=
    fun low mid => ⟨fun i => by cases i <;> trivial, le_rfl⟩
  have hearlier := h.typed (timeKey 1 0) (timeKey 0 1) (hof 1 0) (hof 0 1)
  exact absurd hearlier (by decide)

end Cqlite
