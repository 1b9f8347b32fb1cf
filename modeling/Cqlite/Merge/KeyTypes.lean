import Cqlite.Lib.Layered
import Cqlite.Merge.RangeFloor

/-! Keys of one table are ordered.

    The readers decode every clustering component by the type its column declares, so at each
    position only values of one type meet. On such keys `ClusteringKey::compare` with its fallback is
    a total order although it has no order for some types (`decimal`, `varint`, `duration`, UDTs) and
    then compares whole keys in ascending order; and the cut positions of the range tombstones are
    ordered with them. -/

namespace Cqlite

/-! ### Types -/

/-- The type of a clustering component, by the variant the readers decode it to. -/
inductive ValueType
  | boolean
  | tinyInt
  | smallInt
  | integer
  | bigInt
  | counter
  | float32
  | float
  | text
  | blob
  | timestamp
  | date
  | time
  | uuid
  | inet
  | varint
  | decimal
  | duration
  | json
  | udt
  | list (element : ValueType)
  | set (element : ValueType)
  | map (key value : ValueType)
  | tuple (fields : Nat → ValueType)
  | frozen (inner : ValueType)

/-- The value is null or of the type. -/
def ValueType.Holds : ValueType → Value → Prop
  | _, .null => True
  | .boolean, .boolean _ => True
  | .tinyInt, .tinyInt _ => True
  | .smallInt, .smallInt _ => True
  | .integer, .integer _ => True
  | .bigInt, .bigInt _ => True
  | .counter, .counter _ => True
  | .float32, .float32 _ => True
  | .float, .float _ => True
  | .text, .text _ => True
  | .blob, .blob _ => True
  | .timestamp, .timestamp _ => True
  | .date, .date _ => True
  | .time, .time _ => True
  | .uuid, .uuid _ => True
  | .inet, .inet _ => True
  | .varint, .varint _ => True
  | .decimal, .decimal _ _ => True
  | .duration, .duration _ _ _ => True
  | .json, .json _ => True
  | .udt, .udt _ _ _ => True
  | .list t, .list items => ∀ v ∈ items, t.Holds v
  | .set t, .set items => ∀ v ∈ items, t.Holds v
  | .map k v, .map entries => ∀ e ∈ entries, k.Holds e.1 ∧ v.Holds e.2
  | .tuple ts, .tuple fields => ∀ i v, fields[i]? = some v → (ts i).Holds v
  | .frozen t, .frozen v => t.Holds v
  | _, _ => False

/-- A present value of the type. -/
def ValueType.Present (t : ValueType) (v : Value) : Prop := t.Holds v ∧ v.isNull = false

/-! ### Floats -/

theorem cassandraCmp_eq (w m a b : Nat) :
    cassandraCmp w m a b =
      compareLex (compareOn fun x => ieeeNaN w m x) (compareLex
        (compareOn fun x => if ieeeNaN w m x then 0 else ieeePosition w x)
        (compareOn fun x => !ieeeNaN w m x && !ieeeNegative w x)) a b := by
  unfold cassandraCmp signBitTiebreak compareLex compareOn
  cases hna : ieeeNaN w m a <;> cases hnb : ieeeNaN w m b <;> simp only [hna, hnb] <;> try rfl
  -- two numbers: the position decides, then the sign
  simp only [Bool.false_eq_true, if_false, Bool.not_false, Bool.true_and]
  cases compare (ieeePosition w a) (ieeePosition w b) <;>
    cases ieeeNegative w a <;> cases ieeeNegative w b <;> rfl

instance cassandraCmp_transCmp (w m : Nat) : Std.TransCmp (cassandraCmp w m) := by
  have heq : cassandraCmp w m = compareLex (compareOn fun x => ieeeNaN w m x) (compareLex
      (compareOn fun x => if ieeeNaN w m x then 0 else ieeePosition w x)
      (compareOn fun x => !ieeeNaN w m x && !ieeeNegative w x)) := by
    funext a b
    exact cassandraCmp_eq w m a b
  rw [heq]
  infer_instance

theorem transCmp_on {α β : Type*} {cmp : β → β → Ordering} [Std.TransCmp cmp] (f : α → β) :
    Std.TransCmp fun a b => cmp (f a) (f b) where
  eq_swap := Std.OrientedCmp.eq_swap
  isLE_trans := Std.TransCmp.isLE_trans

instance cassandraDoubleCmp_transCmp : Std.TransCmp cassandraDoubleCmp := transCmp_on UInt64.toNat

instance cassandraFloatCmp_transCmp : Std.TransCmp cassandraFloatCmp := transCmp_on UInt32.toNat

/-! ### Values of one type -/

theorem compareValues_eq_nullFirst (a b : Value) :
    compareValues a b = Layered.nullFirst Value.isNull compareValues a b := by
  unfold Layered.nullFirst
  cases hna : a.isNull with
  | true =>
    cases hnb : b.isNull with
    | true =>
      rw [Value.eq_null hna, Value.eq_null hnb]
      rfl
    | false =>
      rw [Value.eq_null hna]
      cases b with
      | null => cases hnb
      | _ => rfl
  | false =>
    cases hnb : b.isNull with
    | true =>
      rw [Value.eq_null hnb]
      cases a with
      | null => cases hna
      | _ => rfl
    | false => rfl

variable {t : ValueType} {β : Type} {ck : ClusteringKey} {types : Nat → ValueType}

theorem layered_of_present (h : Layered.On compareValues t.Present) :
    Layered.On compareValues t.Holds :=
  (Layered.On.nullFirst h).of_image id (fun _ h => h) fun a _ b _ => compareValues_eq_nullFirst a b

theorem compareElements_eq (as bs : List Value) :
    compareElements as bs = Layered.elements compareValues as bs := by
  induction as generalizing bs with
  | nil => cases bs <;> rfl
  | cons a as ih =>
    cases bs with
    | nil => rfl
    | cons b bs =>
      cases hab : compareValues a b with
      | none => simp only [compareElements, Layered.elements, hab]
      | some o => cases o <;> simp only [compareElements, Layered.elements, hab, ih]

/-- One map entry: the key, then the value. -/
def compareEntry : Value × Value → Value × Value → Option Ordering :=
  Layered.lexi (fun a b => compareValues a.1 b.1) fun a b => compareValues a.2 b.2

theorem compareEntries_eq (as bs : List (Value × Value)) :
    compareEntries as bs = Layered.elements compareEntry as bs := by
  induction as generalizing bs with
  | nil => cases bs <;> rfl
  | cons a as ih =>
    cases bs with
    | nil => rfl
    | cons b bs =>
      obtain ⟨ka, va⟩ := a
      obtain ⟨kb, vb⟩ := b
      rw [compareEntries, Layered.elements, ih, compareEntry, Layered.lexi]
      cases compareValues ka kb with
      | none => rfl
      | some o => cases o <;> rfl

/-- A type whose present values wrap a payload that is ordered in layers. -/
theorem layered_wrapper {c : β → β → Option Ordering} {T : β → Prop} (mk : β → Value)
    (h : Layered.On c T) (hform : ∀ v, t.Present v → ∃ x, T x ∧ v = mk x)
    (heq : ∀ x y, compareValues (mk x) (mk y) = c x y) : Layered.On compareValues t.Holds :=
  layered_of_present (h.of_wrapped hform heq)

/-- A type whose present values are all built by one constructor from an ordered payload. -/
theorem layered_scalar {cmp : β → β → Ordering} [Std.TransCmp cmp] (mk : β → Value)
    (hform : ∀ v, t.Present v → ∃ x, v = mk x)
    (heq : ∀ x y, compareValues (mk x) (mk y) = some (cmp x y)) :
    Layered.On compareValues t.Holds :=
  layered_wrapper mk (Layered.On.of_transCmp (S := fun _ => True))
    (fun v hv => (hform v hv).imp fun _ hx => ⟨trivial, hx⟩) heq

/-- A type without an order: no two present values are comparable. -/
theorem layered_undecided (mk : β → Value) (hform : ∀ v, t.Present v → ∃ x, v = mk x)
    (heq : ∀ x y, compareValues (mk x) (mk y) = none) : Layered.On compareValues t.Holds := by
  refine layered_of_present (Layered.On.of_none fun a ha b hb => ?_)
  obtain ⟨x, rfl⟩ := hform a ha
  obtain ⟨y, rfl⟩ := hform b hb
  exact heq x y

theorem each_const {T : β → Prop} {l : List β} (h : ∀ x ∈ l, T x) : Layered.Each (fun _ => T) l := fun _ x hx => h x (List.mem_of_getElem? hx)

/-- Undecided values of one type form layers. -/
theorem compareValues_layered (t : ValueType) : Layered.On compareValues t.Holds := by
  induction t with
  | boolean =>
    refine layered_scalar .boolean (fun v h => ?_) fun _ _ => rfl
    cases v <;> first | exact ⟨_, rfl⟩ | exact h.1.elim | cases h.2
  | tinyInt =>
    refine layered_scalar .tinyInt (fun v h => ?_) fun _ _ => rfl
    cases v <;> first | exact ⟨_, rfl⟩ | exact h.1.elim | cases h.2
  | smallInt =>
    refine layered_scalar .smallInt (fun v h => ?_) fun _ _ => rfl
    cases v <;> first | exact ⟨_, rfl⟩ | exact h.1.elim | cases h.2
  | integer =>
    refine layered_scalar .integer (fun v h => ?_) fun _ _ => rfl
    cases v <;> first | exact ⟨_, rfl⟩ | exact h.1.elim | cases h.2
  | bigInt =>
    refine layered_scalar .bigInt (fun v h => ?_) fun _ _ => rfl
    cases v <;> first | exact ⟨_, rfl⟩ | exact h.1.elim | cases h.2
  | counter =>
    refine layered_scalar .counter (fun v h => ?_) fun _ _ => rfl
    cases v <;> first | exact ⟨_, rfl⟩ | exact h.1.elim | cases h.2
  | float32 =>
    refine layered_scalar .float32 (fun v h => ?_) fun _ _ => rfl
    cases v <;> first | exact ⟨_, rfl⟩ | exact h.1.elim | cases h.2
  | float =>
    refine layered_scalar .float (fun v h => ?_) fun _ _ => rfl
    cases v <;> first | exact ⟨_, rfl⟩ | exact h.1.elim | cases h.2
  | text =>
    refine layered_scalar .text (fun v h => ?_) fun _ _ => rfl
    cases v <;> first | exact ⟨_, rfl⟩ | exact h.1.elim | cases h.2
  | blob =>
    refine layered_scalar .blob (fun v h => ?_) fun _ _ => rfl
    cases v <;> first | exact ⟨_, rfl⟩ | exact h.1.elim | cases h.2
  | timestamp =>
    refine layered_scalar .timestamp (fun v h => ?_) fun _ _ => rfl
    cases v <;> first | exact ⟨_, rfl⟩ | exact h.1.elim | cases h.2
  | date =>
    refine layered_scalar .date (fun v h => ?_) fun _ _ => rfl
    cases v <;> first | exact ⟨_, rfl⟩ | exact h.1.elim | cases h.2
  | time =>
    refine layered_scalar .time (fun v h => ?_) fun _ _ => rfl
    cases v <;> first | exact ⟨_, rfl⟩ | exact h.1.elim | cases h.2
  | uuid =>
    refine layered_scalar .uuid (fun v h => ?_) fun _ _ => rfl
    cases v <;> first | exact ⟨_, rfl⟩ | exact h.1.elim | cases h.2
  | inet =>
    refine layered_scalar .inet (fun v h => ?_) fun _ _ => rfl
    cases v <;> first | exact ⟨_, rfl⟩ | exact h.1.elim | cases h.2
  | varint =>
    refine layered_undecided .varint (fun v h => ?_)
      fun _ _ => rfl
    cases v <;> first | exact ⟨_, rfl⟩ | exact h.1.elim | cases h.2
  | decimal =>
    refine layered_undecided (fun x : Int × Bytes => .decimal x.1 x.2) (fun v h => ?_)
      fun _ _ => rfl
    cases v <;> first | exact ⟨(_, _), rfl⟩ | exact h.1.elim | cases h.2
  | duration =>
    refine layered_undecided (fun x : Int × Int × Int => .duration x.1 x.2.1 x.2.2) (fun v h => ?_)
      fun _ _ => rfl
    cases v <;> first | exact ⟨(_, _, _), rfl⟩ | exact h.1.elim | cases h.2
  | json =>
    refine layered_undecided .json (fun v h => ?_)
      fun _ _ => rfl
    cases v <;> first | exact ⟨_, rfl⟩ | exact h.1.elim | cases h.2
  | udt =>
    refine layered_undecided (fun x : String × String × List (String × Option Value) => .udt x.1 x.2.1 x.2.2) (fun v h => ?_)
      fun _ _ => rfl
    cases v <;> first | exact ⟨(_, _, _), rfl⟩ | exact h.1.elim | cases h.2
  | list t ih =>
    refine layered_wrapper .list (Layered.On.elements fun _ => ih) (fun v h => ?_)
      fun _ _ => compareElements_eq ..
    cases v <;> first | exact ⟨_, each_const h.1, rfl⟩ | exact h.1.elim | cases h.2
  | set t ih =>
    refine layered_wrapper .set (Layered.On.elements fun _ => ih) (fun v h => ?_)
      fun _ _ => compareElements_eq ..
    cases v <;> first | exact ⟨_, each_const h.1, rfl⟩ | exact h.1.elim | cases h.2
  | map k v ihk ihv =>
    have hentry : Layered.On compareEntry fun e => k.Holds e.1 ∧ v.Holds e.2 :=
      Layered.On.lexi (ihk.of_image Prod.fst (fun _ h => h.1) fun _ _ _ _ => rfl)
        (ihv.of_image Prod.snd (fun _ h => h.2) fun _ _ _ _ => rfl)
    refine layered_wrapper .map (Layered.On.elements fun _ => hentry) (fun v h => ?_)
      fun _ _ => compareEntries_eq ..
    cases v <;> first | exact ⟨_, each_const h.1, rfl⟩ | exact h.1.elim | cases h.2
  | tuple ts ih =>
    refine layered_wrapper .tuple (Layered.On.elements ih) (fun v h => ?_)
      fun _ _ => compareElements_eq ..
    cases v <;> first | exact ⟨_, h.1, rfl⟩ | exact h.1.elim | cases h.2
  | frozen t ih =>
    refine layered_wrapper .frozen ih (fun v h => ?_) fun _ _ => rfl
    cases v <;> first | exact ⟨_, h.1, rfl⟩ | exact h.1.elim | cases h.2

/-! ### Keys -/

theorem ValueType.holds_null (t : ValueType) : t.Holds .null := by cases t <;> exact trivial

/-- Every component has the type of its column; an absent one counts as null. -/
def ClusteringKey.TypedBy (types : Nat → ValueType) (ck : ClusteringKey) : Prop :=
  ∀ i, (types i).Holds (ck.component i)

theorem ClusteringKey.component_truncate (ck : ClusteringKey) (n i : Nat) :
    (ck.truncate n).component i = if i < n then ck.component i else .null := by
  simp only [ClusteringKey.component, ClusteringKey.truncate, List.getD_eq_getElem?_getD,
    List.map_take, List.getElem?_take]
  split <;> rfl

theorem ClusteringKey.TypedBy.truncate (h : ck.TypedBy types) (n : Nat) :
    (ck.truncate n).TypedBy types := fun i => by
  rw [ClusteringKey.component_truncate]
  split
  · exact h i
  · exact (types i).holds_null

theorem ClusteringKey.TypedBy.column (h : ck.TypedBy types) :
    Layered.Each (fun i c => (types i).Holds c.2) ck.columns :=
  fun i c hc => by
    have hi := h i
    rwa [ClusteringKey.component, List.getD_eq_getElem?_getD, List.getElem?_map, hc] at hi

/-- Reversing the order of a DESC column. -/
def directed (order : ClusteringOrder) (o : Ordering) : Ordering :=
  if order = .desc then o.swap else o

theorem compareAt_eq_nullFirst (order : ClusteringOrder) (a b : Value) :
    ClusteringKey.compareAt order a b =
      Layered.nullFirst Value.isNull (fun a b => (compareValues a b).map (directed order)) a b := by
  unfold Layered.nullFirst
  cases hna : a.isNull with
  | true =>
    rw [Value.eq_null hna]
    cases b <;> rfl
  | false =>
    cases hnb : b.isNull with
    | true =>
      rw [Value.eq_null hnb]
      cases a <;> first | rfl | cases hna
    | false =>
      rw [ClusteringKey.compareAt]
      · rfl
      all_goals
        intros
        simp_all [Value.isNull]

theorem compareAt_layered (order : ClusteringOrder) (t : ValueType) :
    Layered.On (ClusteringKey.compareAt order) t.Holds := by
  have hpresent : Layered.On (fun a b => (compareValues a b).map (directed order))
      fun v => t.Holds v ∧ v.isNull = false := by
    have h : Layered.On compareValues fun v => t.Holds v ∧ v.isNull = false :=
      (compareValues_layered t).mono fun _ hv => hv.1
    cases order with
    | asc => exact h.of_image id (fun _ hv => hv) fun a _ b _ => Option.map_id' ..
    | desc => exact h.rev
  exact hpresent.nullFirst.of_image id (fun _ hv => hv) fun a _ b _ =>
    compareAt_eq_nullFirst order a b

theorem compareFrom_layered (types : Nat → ValueType) (i : Nat) (cols : List ClusteringColumn) :
    Layered.On (fun a b => ClusteringKey.compareFrom a b i cols) (ClusteringKey.TypedBy types) := by
  induction cols generalizing i with
  | nil => exact Layered.On.of_total (fun _ _ _ _ => rfl) fun _ _ _ _ _ _ h _ => h
  | cons col cols ih =>
    have hcol : Layered.On (fun a b : ClusteringKey =>
        ClusteringKey.compareAt col.order (a.component i) (b.component i))
        (ClusteringKey.TypedBy types) :=
      (compareAt_layered col.order (types i)).of_image (ClusteringKey.component · i)
        (fun _ h => h i) fun _ _ _ _ => rfl
    exact hcol.lexi (ih (i + 1))

section Fallback

variable [DebugFmt]

theorem cmpValue_layered (t : ValueType) :
    Layered.On (fun a b => some (ClusteringKey.cmpValue a b)) t.Holds := by
  refine Layered.On.of_totalOn fun l hl => (compareValues_layered t).totalOn_getD hl ?_
  have : Std.TransCmp fun a b => compare (DebugFmt.debug a) (DebugFmt.debug b) :=
    transCmp_on DebugFmt.debug
  exact Rank.totalOn_of_transCmp

theorem cmpColumns_eq (as bs : List (String × Value)) :
    some (ClusteringKey.cmpColumns as bs) =
      Layered.elements (fun a b => some (ClusteringKey.cmpValue a.2 b.2)) as bs := by
  induction as generalizing bs with
  | nil => cases bs <;> rfl
  | cons a as ih =>
    cases bs with
    | nil => rfl
    | cons b bs =>
      rw [ClusteringKey.cmpColumns, Layered.elements, ← ih]
      cases ClusteringKey.cmpValue a.2 b.2 <;> rfl

theorem cmp_layered (types : Nat → ValueType) :
    Layered.On (fun a b => some (ClusteringKey.cmp a b)) (ClusteringKey.TypedBy types) := by
  have hcolumn : ∀ i, Layered.On
      (fun a b : String × Value => some (ClusteringKey.cmpValue a.2 b.2))
      fun c => (types i).Holds c.2 := fun i =>
    (cmpValue_layered (types i)).of_image Prod.snd (fun _ h => h) fun _ _ _ _ => rfl
  exact (Layered.On.elements hcolumn).of_image ClusteringKey.columns (fun _ h => h.column)
    fun a _ b _ => cmpColumns_eq a.columns b.columns

theorem TypedBy.totalOn_cmp {cks : List ClusteringKey} (h : ∀ ck ∈ cks, ck.TypedBy types) :
    Rank.TotalOn ClusteringKey.cmp cks :=
  (cmp_layered types).totalOn h

/-- Keys of the table: at most one component per clustering column, each of its column's type. -/
structure ClusteringKey.Fits (schema : TableSchema) (types : Nat → ValueType) (ck : ClusteringKey) :
    Prop where
  typed : ck.TypedBy types
  length_le : ck.columns.length ≤ schema.clusteringKeys.length

omit [DebugFmt] in
theorem ClusteringKey.Fits.truncate {schema : TableSchema} (h : ck.Fits schema types) (n : Nat) :
    (ck.truncate n).Fits schema types :=
  ⟨h.typed.truncate n, (List.length_take_le' _ _).trans h.length_le⟩

variable {schema : TableSchema} {types : Nat → ValueType}

variable {a b : ClusteringKey} {n : Nat} {sa sb : Bool}

theorem schemaCmp_eq_getD (ha : a.Fits schema types) (hb : b.Fits schema types) :
    ClusteringKey.schemaCmp schema a b =
      (ClusteringKey.compareFrom a b 0 schema.clusteringKeys).getD (a.cmp b) := by
  have hlen : ¬ (a.columns.length > schema.clusteringKeys.length ∨
      b.columns.length > schema.clusteringKeys.length) := by
    have := ha.length_le
    have := hb.length_le
    omega
  rw [ClusteringKey.schemaCmp, ClusteringKey.compare, if_neg hlen]

/-- Typed keys are totally ordered by the schema-aware comparison with its fallback. -/
theorem schemaCmp_layered :
    Layered.On (fun a b => some (ClusteringKey.schemaCmp schema a b))
      (ClusteringKey.Fits schema types) := by
  refine Layered.On.of_totalOn fun l hl => ?_
  have htyped : ∀ a ∈ l, a.TypedBy types := fun a ha => (hl a ha).typed
  exact ((compareFrom_layered types 0 schema.clusteringKeys).totalOn_getD htyped
    ((cmp_layered types).totalOn htyped)).congr fun a ha b hb => schemaCmp_eq_getD (hl a ha) (hl b hb)

/-! ### Longer and shorter keys -/

omit [DebugFmt] in
theorem compareFrom_truncate_of_le (a b : ClusteringKey) {i : Nat} (h : n ≤ i)
    (cols : List ClusteringColumn) :
    ClusteringKey.compareFrom (a.truncate n) (b.truncate n) i cols = some .eq := by
  induction cols generalizing i with
  | nil => rfl
  | cons col cols ih =>
    rw [ClusteringKey.compareFrom, ClusteringKey.component_truncate,
      ClusteringKey.component_truncate, if_neg (by omega), if_neg (by omega)]
    exact ih (by omega)

omit [DebugFmt] in
/-- A difference among the first `n` components stays when more components are compared. -/
theorem compareFrom_truncate_mono (a b : ClusteringKey) {m : Nat} (hnm : n ≤ m) {i : Nat}
    {cols : List ClusteringColumn}
    (h : ClusteringKey.compareFrom (a.truncate n) (b.truncate n) i cols ≠ some .eq) :
    ClusteringKey.compareFrom (a.truncate m) (b.truncate m) i cols =
      ClusteringKey.compareFrom (a.truncate n) (b.truncate n) i cols := by
  induction cols generalizing i with
  | nil => rfl
  | cons col cols ih =>
    by_cases hi : i < n
    · simp only [ClusteringKey.compareFrom, ClusteringKey.component_truncate, if_pos hi,
        if_pos (show i < m by omega)] at h ⊢
      split
      · rename_i heq
        rw [heq] at h
        exact ih h
      · rfl
    · exact absurd (compareFrom_truncate_of_le a b (by omega) _) h

theorem cmpColumns_take_mono {as bs : List (String × Value)} {n m : Nat} (hnm : n ≤ m)
    (h : ClusteringKey.cmpColumns (as.take n) (bs.take n) ≠ .eq) :
    ClusteringKey.cmpColumns (as.take m) (bs.take m) =
      ClusteringKey.cmpColumns (as.take n) (bs.take n) := by
  induction n generalizing as bs m with
  | zero => simp [ClusteringKey.cmpColumns] at h
  | succ n ih =>
    obtain ⟨m, rfl⟩ : ∃ k, m = k + 1 := ⟨m - 1, by omega⟩
    cases as with
    | nil => cases bs <;> rfl
    | cons a as =>
      cases bs with
      | nil => rfl
      | cons b bs =>
        simp only [List.take_succ_cons, ClusteringKey.cmpColumns] at h ⊢
        cases hc : ClusteringKey.cmpValue a.2 b.2 with
        | eq =>
          rw [hc] at h
          simp only [Ordering.eq_then] at h ⊢
          exact ih (by omega) h
        | lt => rfl
        | gt => rfl

/-- The comparison of the first `n` components. -/
def cmpFirst (schema : TableSchema) (n : Nat) (a b : ClusteringKey) : Ordering :=
  ClusteringKey.schemaCmp schema (a.truncate n) (b.truncate n)

/-- A difference among the first components decides any longer comparison. -/
theorem cmpFirst_mono (ha : a.Fits schema types) (hb : b.Fits schema types) {m : Nat} (hnm : n ≤ m)
    (h : cmpFirst schema n a b ≠ .eq) : cmpFirst schema m a b = cmpFirst schema n a b := by
  unfold cmpFirst at h ⊢
  rw [schemaCmp_eq_getD (ha.truncate n) (hb.truncate n)] at h ⊢
  rw [schemaCmp_eq_getD (ha.truncate m) (hb.truncate m)]
  have hne : ClusteringKey.compareFrom (a.truncate n) (b.truncate n) 0 schema.clusteringKeys ≠
      some .eq := fun heq => h (by rw [heq]; rfl)
  rw [compareFrom_truncate_mono a b hnm hne]
  cases hc : ClusteringKey.compareFrom (a.truncate n) (b.truncate n) 0 schema.clusteringKeys with
  | some o => rfl
  | none =>
    rw [hc] at h
    exact cmpColumns_take_mono hnm h

/-! ### Cuts -/

/-- The key of a cut fits the table. -/
def RangeCut.Fits (schema : TableSchema) (types : Nat → ValueType) : RangeCut → Prop
  | .atKey ck _ => ck.Fits schema types
  | .bottom => True
  | .top => True

/-- Where a cut stands among the keys that agree with it on `n` components: before them, inside (the
    cut has further components), or after them. -/
def cutSide (n : Nat) (ck : ClusteringKey) (after : Bool) : Nat :=
  if ck.columns.length = n then (if after then 2 else 0) else 1

theorem cmp_atKey_of_ne (ha : a.Fits schema types) (hb : b.Fits schema types)
    (hna : n ≤ a.columns.length) (hnb : n ≤ b.columns.length) (h : cmpFirst schema n a b ≠ .eq) :
    RangeCut.cmp schema (.atKey a sa) (.atKey b sb) = cmpFirst schema n a b := by
  have hmin := cmpFirst_mono ha hb (le_min hna hnb) h
  simp only [RangeCut.cmp]
  rw [show ClusteringKey.schemaCmp schema (a.truncate (min a.columns.length b.columns.length))
    (b.truncate (min a.columns.length b.columns.length)) = cmpFirst schema n a b from hmin]
  cases hc : cmpFirst schema n a b with
  | eq => exact absurd hc h
  | lt => rfl
  | gt => rfl

theorem cmp_atKey_of_eq (hn : min a.columns.length b.columns.length = n)
    (h : cmpFirst schema n a b = .eq) :
    RangeCut.cmp schema (.atKey a sa) (.atKey b sb) = compare (cutSide n a sa) (cutSide n b sb) := by
  simp only [RangeCut.cmp, hn]
  rw [show ClusteringKey.schemaCmp schema (a.truncate n) (b.truncate n) = .eq from h]
  rcases Nat.lt_trichotomy a.columns.length b.columns.length with hlt | heq | hgt
  · have hab : compare a.columns.length b.columns.length = .lt := compare_lt_iff_lt.mpr hlt
    simp only [hab, cutSide, if_pos (show a.columns.length = n by omega),
      if_neg (show ¬ b.columns.length = n by omega)]
    cases sa <;> rfl
  · have hab : compare a.columns.length b.columns.length = .eq := compare_eq_iff_eq.mpr heq
    simp only [hab, cutSide, if_pos (show a.columns.length = n by omega),
      if_pos (show b.columns.length = n by omega)]
    cases sa <;> cases sb <;> rfl
  · have hab : compare a.columns.length b.columns.length = .gt := compare_gt_iff_gt.mpr hgt
    simp only [hab, cutSide, if_neg (show ¬ a.columns.length = n by omega),
      if_pos (show b.columns.length = n by omega)]
    cases sb <;> rfl

theorem cmpFirst_layered (n : Nat) :
    Layered.On (fun a b => some (cmpFirst schema n a b)) (ClusteringKey.Fits schema types) :=
  schemaCmp_layered.of_image (ClusteringKey.truncate · n) (fun _ h => h.truncate n)
    fun _ _ _ _ => rfl

/-- Cuts in order are in order on any number of shared components. -/
theorem cmpFirst_ne_gt (ha : a.Fits schema types) (hb : b.Fits schema types)
    (hna : n ≤ a.columns.length) (hnb : n ≤ b.columns.length)
    (h : RangeCut.cmp schema (.atKey a sa) (.atKey b sb) ≠ .gt) : cmpFirst schema n a b ≠ .gt :=
  fun hgt => h (by rw [cmp_atKey_of_ne ha hb hna hnb (by simp [hgt]), hgt])

/-- Cuts at keys are ordered like the keys. -/
theorem cmp_atKey_trans {d : ClusteringKey} {sd : Bool} (ha : a.Fits schema types)
    (hb : b.Fits schema types) (hd : d.Fits schema types)
    (hab : RangeCut.cmp schema (.atKey a sa) (.atKey b sb) ≠ .gt)
    (hbd : RangeCut.cmp schema (.atKey b sb) (.atKey d sd) ≠ .gt) :
    RangeCut.cmp schema (.atKey a sa) (.atKey d sd) ≠ .gt := by
  -- compare on the components all three have, then by the sides of the cuts that end there
  obtain ⟨n, hn⟩ : ∃ n, min a.columns.length (min b.columns.length d.columns.length) = n := ⟨_, rfl⟩
  have htot : Rank.TotalOn (cmpFirst schema n) [a, b, d] :=
    (cmpFirst_layered n).totalOn (S := ClusteringKey.Fits schema types) (by simp [ha, hb, hd])
  have hab' := cmpFirst_ne_gt ha hb (n := n) (by omega) (by omega) hab
  have hbd' := cmpFirst_ne_gt hb hd (n := n) (by omega) (by omega) hbd
  have had' := htot.trans a (by simp) b (by simp) d (by simp) hab' hbd'
  by_cases had : cmpFirst schema n a d = .eq
  · have heq : cmpFirst schema n a b = .eq ∧ cmpFirst schema n b d = .eq := by
      constructor
      · cases hc : cmpFirst schema n a b with
        | eq => rfl
        | gt => exact absurd hc hab'
        | lt => simp [htot.lt_of_lt_of_le (c := d) (by simp) (by simp) (by simp) hc hbd'] at had
      · cases hc : cmpFirst schema n b d with
        | eq => rfl
        | gt => exact absurd hc hbd'
        | lt => simp [htot.lt_of_le_of_lt (a := a) (by simp) (by simp) (by simp) hab' hc] at had
    have hside : ∀ {x y : ClusteringKey} {sx sy : Bool}, cmpFirst schema n x y = .eq →
        n ≤ x.columns.length → n ≤ y.columns.length →
        RangeCut.cmp schema (.atKey x sx) (.atKey y sy) ≠ .gt → cutSide n x sx ≤ cutSide n y sy := by
      intro x y sx sy hxy hnx hny hle
      by_cases hmin : min x.columns.length y.columns.length = n
      · rw [cmp_atKey_of_eq hmin hxy, ne_eq, compare_gt_iff_gt, not_lt] at hle
        exact hle
      · simp only [cutSide, if_neg (show ¬ x.columns.length = n by omega),
          if_neg (show ¬ y.columns.length = n by omega), le_refl]
    have h₁ := hside heq.1 (by omega) (by omega) hab
    have h₂ := hside heq.2 (by omega) (by omega) hbd
    by_cases hmin : min a.columns.length d.columns.length = n
    · rw [cmp_atKey_of_eq hmin had, ne_eq, compare_gt_iff_gt, not_lt]
      exact h₁.trans h₂
    · -- both outer cuts go on past the end of the middle one
      have hb' : b.columns.length = n := by omega
      have ha' : ¬ a.columns.length = n := by omega
      have hd' : ¬ d.columns.length = n := by omega
      simp only [cutSide, if_pos hb', if_neg ha', if_neg hd'] at h₁ h₂
      cases sb
      · simp at h₁
      · simp at h₂
  · rw [cmp_atKey_of_ne ha hd (by omega) (by omega) had]
    exact had'

theorem cutCmp_layered :
    Layered.On (fun a b => some (RangeCut.cmp schema a b)) (RangeCut.Fits schema types) := by
  refine Layered.On.of_total ?_ ?_
  · rintro (_ | ⟨a, sa⟩ | _) ha (_ | ⟨b, sb⟩ | _) hb <;> try rfl
    obtain ⟨n, hn⟩ : ∃ n, min a.columns.length b.columns.length = n := ⟨_, rfl⟩
    have hswap : cmpFirst schema n b a = (cmpFirst schema n a b).swap :=
      Option.some.inj ((cmpFirst_layered n).swap a ha b hb)
    by_cases h : cmpFirst schema n a b = .eq
    · have hba : cmpFirst schema n b a = .eq := by rw [hswap, h]; rfl
      rw [cmp_atKey_of_eq hn h, cmp_atKey_of_eq (by omega) hba]
      exact Std.OrientedCmp.eq_swap
    · have hba : cmpFirst schema n b a ≠ .eq := fun heq => h (by
        rw [hswap] at heq
        exact Ordering.swap_eq_eq.mp heq)
      rw [cmp_atKey_of_ne ha hb (by omega) (by omega) h,
        cmp_atKey_of_ne hb ha (by omega) (by omega) hba, hswap]
  · rintro (_ | ⟨a, sa⟩ | _) ha (_ | ⟨b, sb⟩ | _) hb (_ | ⟨d, sd⟩ | _) hd <;>
      first | exact cmp_atKey_trans ha hb hd | simp [RangeCut.cmp]

/-! ### The keys of a partition -/

/-- Both bounds of the range fit the table: prefixes of the clustering columns, of their types. -/
def RangeTombstone.Fits (schema : TableSchema) (types : Nat → ValueType) (rt : RangeTombstone) :
    Prop := ∀ c ∈ rt.cuts, c.Fits schema types

/-- A full clustering key of the table. -/
structure ClusteringKey.Full (schema : TableSchema) (types : Nat → ValueType) (ck : ClusteringKey) :
    Prop where
  typed : ck.TypedBy types
  length_eq : ck.columns.length = schema.clusteringKeys.length

omit [DebugFmt] in
theorem ClusteringKey.Full.fits (h : ck.Full schema types) : ck.Fits schema types := ⟨h.typed, h.length_eq.le⟩

omit [DebugFmt] in
theorem RangeCut.Fits.arity_le {c : RangeCut} (h : c.Fits schema types) :
    c.arity ≤ schema.clusteringKeys.length := by
  cases c with
  | atKey ck after => exact ClusteringKey.Fits.length_le h
  | bottom => exact Nat.zero_le _
  | top => exact Nat.zero_le _

theorem keysOrdered_of_fits {cks : List ClusteringKey} {ranges : List RangeTombstone}
    (hcks : ∀ ck ∈ cks, ck.Full schema types) (hranges : ∀ rt ∈ ranges, rt.Fits schema types) :
    KeysOrdered schema cks ranges where
  rowArity ck hck := (hcks ck hck).length_eq
  boundArity rt hrt c hc := (hranges rt hrt c hc).arity_le
  total := by
    refine cutCmp_layered.totalOn (S := RangeCut.Fits schema types) fun c hc => ?_
    rcases List.mem_append.mp hc with hc | hc
    · obtain ⟨ck, hck, rfl⟩ := List.mem_map.mp hc
      exact (hcks ck hck).fits
    · obtain ⟨rt, hrt, hc⟩ := List.mem_flatMap.mp hc
      exact hranges rt hrt c hc

/-- A key of one integer column. -/
def integerKey (n : Int) : ClusteringKey := ⟨[("c", .integer n)]⟩

/-- A table with one descending integer clustering column. -/
def descendingTable : TableSchema := ⟨[⟨"c", .desc⟩], fun _ => none⟩

omit [DebugFmt] in
theorem integerKey_fits (n : Int) : (integerKey n).Fits descendingTable fun _ => .integer :=
  ⟨fun i => by cases i <;> exact trivial, le_rfl⟩

omit [DebugFmt] in
theorem integerKey_full (n : Int) : (integerKey n).Full descendingTable fun _ => .integer :=
  ⟨(integerKey_fits n).typed, rfl⟩

end Fallback

end Cqlite
