import Cqlite.Writer.ByteComparable
import Cqlite.Writer.RowBytes

/-! The byte-comparable form of clustering bounds (`bti/parser/encoding.rs`).

    Every component stands behind a byte 0x40. A text or blob has its zero bytes escaped and a
    terminator behind it, and the bytes of a component of a descending column are complemented. -/

namespace Cqlite

open VInt OrderCode

/-! ### The encoder -/

section Encode

def oss50NextComponent : UInt8 := 0x40
def oss50Escape : UInt8 := 0x00
def oss50EscapedZeroCont : UInt8 := 0xFE
def oss50EscapedZeroDone : UInt8 := 0xFF

/-- The bytes from a position on; `escaped` says that a run of zero bytes is open. -/
def encodeVarlenFrom (escaped : Bool) : Bytes → Bytes
  | [] => [if escaped then oss50EscapedZeroCont else oss50Escape]
  | b :: bytes =>
    if escaped then
      if b = oss50Escape then oss50EscapedZeroCont :: encodeVarlenFrom true bytes
      else oss50EscapedZeroDone :: b :: encodeVarlenFrom (b == oss50Escape) bytes
    else b :: encodeVarlenFrom (b == oss50Escape) bytes

def encodeVarlenOss50 (bytes : Bytes) : Bytes := encodeVarlenFrom false bytes

def encodeClusteringComponentOss50 : Value → BtiResult Bytes
  | .integer n => .ok (beBytes 4 ((n % 2 ^ 32).toNat ^^^ 2 ^ 31))
  | .bigInt n => .ok (beBytes 8 ((n % 2 ^ 64).toNat ^^^ 2 ^ 63))
  | .counter n => .ok (beBytes 8 ((n % 2 ^ 64).toNat ^^^ 2 ^ 63))
  | .smallInt n => .ok (beBytes 2 ((n % 2 ^ 16).toNat ^^^ 2 ^ 15))
  | .tinyInt n => .ok (beBytes 1 ((n % 2 ^ 8).toNat ^^^ 2 ^ 7))
  | .boolean b => .ok [if b then 0x01 else 0x00]
  | .timestamp millis => .ok (beBytes 8 ((millis % 2 ^ 64).toNat ^^^ 2 ^ 63))
  | .uuid bytes => .ok bytes
  | .text s => .ok (encodeVarlenOss50 s)
  | .blob bytes => .ok (encodeVarlenOss50 bytes)
  | .inet bytes => .ok (encodeVarlenOss50 bytes)
  | _ => .error "BTI range_query: byte-comparable encoding not implemented for"

/-- A missing flag is an ascending column. -/
def encodeClusteringBoundOss50WithOrder (values : List Value) (isReversed : List Bool) :
    BtiResult Bytes :=
  (values.zipIdx.mapM fun p => (encodeClusteringComponentOss50 p.1).map fun bytes =>
    oss50NextComponent :: if isReversed.getD p.2 false then bytes.map (0xFF ^^^ ·) else bytes).map
      List.flatten

end Encode

/-! ### Keys in clustering order -/

section Order

/-- The flags the callers pass: the descending columns. -/
def TableSchema.reversedFlags (schema : TableSchema) : List Bool :=
  schema.clusteringKeys.map fun col => decide (col.order = .desc)

/-- A key with a value of its type for every clustering column. -/
structure ClusteringKey.IsFull (schema : TableSchema) (types : List ScalarType)
    (key : ClusteringKey) : Prop where
  names : key.columnNames = schema.clusteringKeys.map (·.name)
  typed : List.Forall₂ ScalarType.Holds types key.values

/-- The bytes compare as the keys do, equal bytes are of equal keys, and a prefix does not come behind
    the key. -/
structure BoundsInOrder (schema : TableSchema) (a b : ClusteringKey) (xs ys : Bytes) : Prop where
  left : encodeClusteringBoundOss50WithOrder a.values schema.reversedFlags = .ok xs
  right : encodeClusteringBoundOss50WithOrder b.values schema.reversedFlags = .ok ys
  order : compare xs ys = .lt ↔ ClusteringKey.compare a b schema = some .lt
  distinct : xs = ys → a = b
  fronts : ∀ n < a.values.length, ∃ front,
    encodeClusteringBoundOss50WithOrder (a.values.take n) schema.reversedFlags = .ok front ∧
      (compare front xs).isLE

/-- One text or blob is the other with a zero byte and perhaps more behind it. -/
def ZeroExtends : Value → Value → Prop
  | .text s, .text t => s ++ [0] <+: t
  | .blob s, .blob t => s ++ [0] <+: t
  | _, _ => False

/-- The keys agree up to the last column, which descends and where a zero byte extends one of them. -/
def LastExtended : List ClusteringOrder → List Value → List Value → Prop
  | [order], [v], [w] => order = .desc ∧ (ZeroExtends v w ∨ ZeroExtends w v)
  | _ :: order :: orders, v :: vs, w :: ws => v = w ∧ LastExtended (order :: orders) vs ws
  | _, _, _ => False

end Order

/-! ### One component -/

variable {s t xs ys : Bytes} {v w : Value}

section Component

/-- The open run's terminator or continuation is the least that can follow. -/
theorem encodeVarlenFrom_true (bytes : Bytes) :
    ∃ b rest, encodeVarlenFrom true bytes = b :: rest ∧ compare (0xFE : UInt8) b ≠ .gt := by
  cases bytes with
  | nil => exact ⟨0xFE, [], rfl, by decide⟩
  | cons b bytes =>
    rw [encodeVarlenFrom, if_pos rfl]
    split
    · exact ⟨0xFE, _, rfl, by decide⟩
    · exact ⟨0xFF, _, rfl, by decide⟩

theorem encodeVarlenFrom_zero (escaped : Bool) (bytes : Bytes) :
    encodeVarlenFrom escaped (0 :: bytes) =
      (if escaped then oss50EscapedZeroCont else oss50Escape) :: encodeVarlenFrom true bytes := by
  cases escaped <;> rfl

theorem encodeVarlenFrom_ne_zero (escaped : Bool) {b : UInt8} (h : b ≠ 0) (bytes : Bytes) :
    encodeVarlenFrom escaped (b :: bytes) =
      (if escaped then [oss50EscapedZeroDone, b] else [b]) ++ encodeVarlenFrom false bytes := by
  have hfalse : (b == oss50Escape) = false := by simpa [oss50Escape] using h
  cases escaped with
  | false => rw [encodeVarlenFrom, if_neg Bool.false_ne_true, hfalse]; rfl
  | true => rw [encodeVarlenFrom, if_pos rfl, if_neg (by simpa [oss50Escape] using h), hfalse]; rfl

variable {y : UInt8}

theorem ne_of_compare_lt {x : UInt8} (h : compare x y = .lt) : x ≠ y := by
  rintro rfl
  rw [Std.ReflOrd.compare_self] at h
  cases h

theorem compare_zero_lt (h : y ≠ 0) : compare (0 : UInt8) y = .lt := by
  rw [Std.compare_eq_lt, UInt8.lt_iff_toNat_lt]
  have hne : y.toNat ≠ 0 := fun heq => h (UInt8.toNat_inj.1 heq)
  exact Nat.pos_of_ne_zero hne

/-- Bytes that differ decide, and neither list is a front of the other. -/
theorem before_bytes {x : UInt8} (h : compare x y = .lt) (xs ys : Bytes) :
    Before (0xFE : UInt8) (x :: xs) (y :: ys) ∧ ¬ x :: xs <+: y :: ys :=
  ⟨.differ h xs ys, fun hpre => ne_of_compare_lt h (List.cons_prefix_cons.1 hpre).1⟩

/-- The lesser list comes first, and is a front of the other when a zero byte extends it. -/
theorem before_encodeVarlenFrom (h : compare s t = .lt) (escaped : Bool) :
    Before (0xFE : UInt8) (encodeVarlenFrom escaped s) (encodeVarlenFrom escaped t) ∧
      (encodeVarlenFrom escaped s <+: encodeVarlenFrom escaped t ↔ s ++ [0] <+: t) := by
  induction s generalizing t escaped with
  | nil =>
    cases t with
    | nil => cases h
    | cons y t =>
      by_cases hy : y = 0
      · subst hy
        obtain ⟨b, rest, hrest, hb⟩ := encodeVarlenFrom_true t
        rw [encodeVarlenFrom_zero, hrest, encodeVarlenFrom]
        refine ⟨.cons _ (.extend hb rest), iff_of_true ?_ ?_⟩
        · exact ⟨b :: rest, rfl⟩
        · exact ⟨t, rfl⟩
      · have hdiffer : Before (0xFE : UInt8) (encodeVarlenFrom escaped [])
            (encodeVarlenFrom escaped (y :: t)) ∧
              ¬ encodeVarlenFrom escaped [] <+: encodeVarlenFrom escaped (y :: t) := by
          rw [encodeVarlenFrom_ne_zero escaped hy, encodeVarlenFrom]
          cases escaped with
          | false => exact before_bytes (compare_zero_lt hy) _ _
          | true => exact before_bytes (by decide) _ _
        refine ⟨hdiffer.1, iff_of_false hdiffer.2 fun hpre => ?_⟩
        exact hy (List.cons_prefix_cons.1 hpre).1.symm
  | cons x s ih =>
    cases t with
    | nil => cases h
    | cons y t =>
      rw [List.compare_cons_cons] at h
      by_cases hxy : x = y
      · subst hxy
        rw [Std.ReflOrd.compare_self, Ordering.eq_then] at h
        rw [List.cons_append, List.cons_prefix_cons]
        by_cases hx : x = 0
        · subst hx
          obtain ⟨hbefore, hpre⟩ := ih h true
          rw [encodeVarlenFrom_zero, encodeVarlenFrom_zero, List.cons_prefix_cons, hpre]
          exact ⟨.cons _ hbefore, by simp⟩
        · obtain ⟨hbefore, hpre⟩ := ih h false
          rw [encodeVarlenFrom_ne_zero escaped hx, encodeVarlenFrom_ne_zero escaped hx,
            List.prefix_append_right_inj, hpre]
          exact ⟨hbefore.front _, by simp⟩
      · have hlt : compare x y = .lt := by
          cases hcmp : compare x y with
          | lt => rfl
          | eq => exact absurd (Std.LawfulEqOrd.eq_of_compare hcmp) hxy
          | gt =>
            rw [hcmp] at h
            cases h
        have hy : y ≠ 0 := by
          rintro rfl
          rw [Std.compare_eq_lt, UInt8.lt_iff_toNat_lt] at hlt
          exact Nat.not_lt_zero _ hlt
        have hdiffer : Before (0xFE : UInt8) (encodeVarlenFrom escaped (x :: s))
            (encodeVarlenFrom escaped (y :: t)) ∧
              ¬ encodeVarlenFrom escaped (x :: s) <+: encodeVarlenFrom escaped (y :: t) := by
          rw [encodeVarlenFrom_ne_zero escaped hy]
          by_cases hx : x = 0
          · subst hx
            rw [encodeVarlenFrom_zero]
            cases escaped with
            | false => exact before_bytes hlt _ _
            | true => exact before_bytes (by decide) _ _
          · rw [encodeVarlenFrom_ne_zero escaped hx]
            cases escaped with
            | false => exact before_bytes hlt _ _
            | true =>
              obtain ⟨hbefore, hpre⟩ := before_bytes hlt (encodeVarlenFrom false s)
                (encodeVarlenFrom false t)
              exact ⟨.cons _ hbefore, fun hfront => hpre (List.cons_prefix_cons.1 hfront).2⟩
        refine ⟨hdiffer.1, iff_of_false hdiffer.2 fun hpre => ?_⟩
        exact hxy (List.cons_prefix_cons.1 hpre).1

/-- Codes of one length are fronts of each other when they are equal only. -/
theorem not_prefix_of_length_eq (hlen : xs.length = ys.length) (h : compare xs ys = .lt) :
    ¬ xs <+: ys := by
  intro hpre
  rw [hpre.eq_of_length hlen, Std.ReflOrd.compare_self] at h
  cases h

/-- What is known of the codes of two values. -/
structure ComponentCodes (v w : Value) (xs ys : Bytes) : Prop where
  left : encodeClusteringComponentOss50 v = .ok xs
  right : encodeClusteringComponentOss50 w = .ok ys
  decides : Decides (0xFE : UInt8) (valueOrdering v w) xs ys
  front : valueOrdering v w = .lt → (xs <+: ys ↔ ZeroExtends v w)
  frontRight : valueOrdering v w = .gt → (ys <+: xs ↔ ZeroExtends w v)

theorem ComponentCodes.ofLength (hleft : encodeClusteringComponentOss50 v = .ok xs)
    (hright : encodeClusteringComponentOss50 w = .ok ys) (hlen : xs.length = ys.length)
    (hcompare : compare xs ys = valueOrdering v w) (hno : ¬ ZeroExtends v w)
    (hnoRight : ¬ ZeroExtends w v) : ComponentCodes v w xs ys where
  left := hleft
  right := hright
  decides := hcompare ▸ decides_of_length_eq _ hlen
  front h := iff_of_false (not_prefix_of_length_eq hlen (hcompare.trans h)) hno
  frontRight h := by
    refine iff_of_false (not_prefix_of_length_eq hlen.symm ?_) hnoRight
    rw [Std.OrientedOrd.eq_swap, hcompare, h]
    rfl

theorem ComponentCodes.ofSigned {k j : Nat} {n m : Int} (hk : 2 ^ (k + 1) = 256 ^ j)
    (hn : SignedBits k n) (hm : SignedBits k m)
    (hleft : encodeClusteringComponentOss50 v = .ok (beBytes j ((n % 2 ^ (k + 1)).toNat ^^^ 2 ^ k)))
    (hright : encodeClusteringComponentOss50 w =
      .ok (beBytes j ((m % 2 ^ (k + 1)).toNat ^^^ 2 ^ k)))
    (hvalue : valueOrdering v w = compare n m) (hno : ¬ ZeroExtends v w)
    (hnoRight : ¬ ZeroExtends w v) :
    ComponentCodes v w (beBytes j ((n % 2 ^ (k + 1)).toNat ^^^ 2 ^ k))
      (beBytes j ((m % 2 ^ (k + 1)).toNat ^^^ 2 ^ k)) := by
  refine .ofLength hleft hright (by rw [length_beBytes, length_beBytes]) ?_ hno hnoRight
  obtain ⟨hnbits, hnlt⟩ := flipSign hn
  obtain ⟨hmbits, hmlt⟩ := flipSign hm
  rw [hnbits, hmbits, compare_beBytes (hk ▸ hnlt) (hk ▸ hmlt), hvalue]
  exact compare_shift (by have := hn.1; omega) (by have := hm.1; omega)

theorem ComponentCodes.ofVarlen
    (hleft : encodeClusteringComponentOss50 v = .ok (encodeVarlenOss50 s))
    (hright : encodeClusteringComponentOss50 w = .ok (encodeVarlenOss50 t))
    (hvalue : valueOrdering v w = compare s t) (hextends : ZeroExtends v w ↔ s ++ [0] <+: t)
    (hextendsRight : ZeroExtends w v ↔ t ++ [0] <+: s) :
    ComponentCodes v w (encodeVarlenOss50 s) (encodeVarlenOss50 t) where
  left := hleft
  right := hright
  decides := by
    rw [hvalue]
    cases h : compare s t with
    | lt => exact (before_encodeVarlenFrom h false).1
    | eq => exact congrArg _ (Std.LawfulEqOrd.eq_of_compare h)
    | gt =>
      rw [Std.OrientedOrd.eq_swap, Ordering.swap_eq_gt] at h
      exact (before_encodeVarlenFrom h false).1
  front h := by
    rw [hvalue] at h
    exact (before_encodeVarlenFrom h false).2.trans hextends.symm
  frontRight h := by
    rw [hvalue, Std.OrientedOrd.eq_swap, Ordering.swap_eq_gt] at h
    exact (before_encodeVarlenFrom h false).2.trans hextendsRight.symm

theorem ScalarType.Holds.componentCodes {t : ScalarType} (hv : t.Holds v) (hw : t.Holds w) :
    ∃ xs ys, ComponentCodes v w xs ys := by
  cases hv with
  | @tinyInt n hn =>
    cases hw with | @tinyInt m hm =>
    exact ⟨_, _, .ofSigned (j := 1) rfl hn hm rfl rfl rfl not_false not_false⟩
  | @smallInt n hn =>
    cases hw with | @smallInt m hm =>
    exact ⟨_, _, .ofSigned (j := 2) rfl hn hm rfl rfl rfl not_false not_false⟩
  | @int n hn =>
    cases hw with | @int m hm =>
    exact ⟨_, _, .ofSigned (j := 4) rfl hn hm rfl rfl rfl not_false not_false⟩
  | @bigInt n hn =>
    cases hw with | @bigInt m hm =>
    exact ⟨_, _, .ofSigned (j := 8) rfl hn hm rfl rfl rfl not_false not_false⟩
  | @timestamp n hn =>
    cases hw with | @timestamp m hm =>
    exact ⟨_, _, .ofSigned (j := 8) rfl hn hm rfl rfl rfl not_false not_false⟩
  | @text a ha =>
    cases hw with | @text b hb =>
    exact ⟨_, _, .ofVarlen rfl rfl rfl Iff.rfl Iff.rfl⟩
  | blob a =>
    cases hw with | blob b =>
    exact ⟨_, _, .ofVarlen rfl rfl rfl Iff.rfl Iff.rfl⟩
  | boolean a =>
    cases hw with | boolean b =>
    refine ⟨_, _, .ofLength rfl rfl rfl ?_ not_false not_false⟩
    cases a <;> cases b <;> rfl
  | @uuid a ha =>
    cases hw with | @uuid b hb =>
    exact ⟨_, _, .ofLength rfl rfl (ha.trans hb.symm) rfl not_false not_false⟩

end Component

/-! ### All components -/

section Bound

/-- The bytes of a component in its column's direction. -/
def directedBytes (order : ClusteringOrder) (bytes : Bytes) : Bytes :=
  if order = .desc then bytes.map (0xFF ^^^ ·) else bytes

/-- The components of the columns from one on. -/
def boundBytes : List ClusteringOrder → List Bytes → Bytes
  | order :: orders, x :: xs => oss50NextComponent :: (directedBytes order x ++ boundBytes orders xs)
  | _, _ => []

/-- Columns one after the other, descending ones reversed. -/
def columnOrdering : List ClusteringOrder → List Value → List Value → Ordering
  | order :: orders, v :: vs, w :: ws =>
    (if order = .desc then (valueOrdering v w).swap else valueOrdering v w).then
      (columnOrdering orders vs ws)
  | _, _, _ => .eq

theorem compare_complement (x y : UInt8) : compare (0xFF ^^^ x) (0xFF ^^^ y) = compare y x := by
  have hbits : ∀ z : UInt8, (0xFF ^^^ z).toNat = 255 - z.toNat := by
    intro z
    rw [UInt8.toNat_xor, Nat.xor_comm]
    exact xor_allOnes (k := 8) z.toNat_lt
  have hlt : ∀ a b : UInt8, compare (0xFF ^^^ a) (0xFF ^^^ b) = .lt ↔ compare b a = .lt := by
    intro a b
    have ha := a.toNat_lt
    have hb := b.toNat_lt
    rw [Std.compare_eq_lt, Std.compare_eq_lt, UInt8.lt_iff_toNat_lt, UInt8.lt_iff_toNat_lt, hbits,
      hbits]
    omega
  cases h : compare y x with
  | lt => exact (hlt x y).2 h
  | eq =>
    rw [Std.LawfulEqOrd.eq_of_compare h]
    exact Std.ReflOrd.compare_self
  | gt =>
    rw [Std.OrientedOrd.eq_swap, Ordering.swap_eq_gt] at h ⊢
    exact (hlt y x).2 h

/-- The first component decides, and equal ones leave the rest, while something stands behind them. -/
theorem ComponentCodes.compare_directed (h : ComponentCodes v w xs ys) (order : ClusteringOrder)
    (s t : Bytes) :
    compare (directedBytes order xs ++ oss50NextComponent :: s)
        (directedBytes order ys ++ oss50NextComponent :: t) =
      (if order = .desc then (valueOrdering v w).swap else valueOrdering v w).then (compare s t) := by
  have hself : compare (oss50NextComponent :: s) (oss50NextComponent :: t) = compare s t := by
    rw [List.compare_cons_cons, Std.ReflOrd.compare_self]
    rfl
  cases order with
  | asc =>
    have hbelow : ∀ s : Bytes, StartsBelow (0xFE : UInt8) (oss50NextComponent :: s) :=
      fun s => startsBelow_cons (by decide) s
    exact (h.decides.compare_append (hbelow s) (hbelow t)).trans (by rw [hself]; rfl)
  | desc => exact h.decides.compare_map_append compare_complement (by decide) s t

theorem compare_extended (h : s ++ [0] <+: t) : compare s t = .lt ∧ compare t s = .gt := by
  obtain ⟨rest, rfl⟩ := h
  have hlt : compare s (s ++ [0] ++ rest) = .lt := by
    rw [List.append_assoc]
    conv_lhs => rw [← List.append_nil s, List.append_assoc, compare_append_left]
    rfl
  exact ⟨hlt, by rw [Std.OrientedOrd.eq_swap, hlt]; rfl⟩

theorem ZeroExtends.ordering (h : ZeroExtends v w) :
    valueOrdering v w = .lt ∧ valueOrdering w v = .gt := by
  cases v with
  | text s => cases w with
    | text t => exact compare_extended h
    | _ => exact h.elim
  | blob s => cases w with
    | blob t => exact compare_extended h
    | _ => exact h.elim
  | _ => exact h.elim

/-- With nothing behind them the components decide, unless a descending one is a front of the other. -/
theorem ComponentCodes.compare_last (h : ComponentCodes v w xs ys) (order : ClusteringOrder) :
    (¬ (order = .desc ∧ (ZeroExtends v w ∨ ZeroExtends w v)) →
      compare (directedBytes order xs) (directedBytes order ys) =
        if order = .desc then (valueOrdering v w).swap else valueOrdering v w) ∧
    (order = .desc ∧ (ZeroExtends v w ∨ ZeroExtends w v) →
      compare (directedBytes order xs) (directedBytes order ys) = valueOrdering v w ∧
        valueOrdering v w ≠ .eq) := by
  cases order with
  | asc => exact ⟨fun _ => h.decides.compare_eq, fun hbad => (nomatch hbad.1)⟩
  | desc =>
    have hdecides := h.decides
    change (_ → compare (xs.map _) (ys.map _) = (valueOrdering v w).swap) ∧
      (_ → compare (xs.map _) (ys.map _) = _ ∧ _)
    cases hord : valueOrdering v w with
    | lt =>
      rw [hord] at hdecides
      obtain ⟨hfront, hno⟩ := Before.compare_map compare_complement hdecides
      have hback : ¬ ZeroExtends w v := fun hext => by
        have := hord.symm.trans hext.ordering.2
        cases this
      rw [h.front hord] at hfront hno
      refine ⟨fun hgood => hno fun hext => hgood ⟨rfl, .inl hext⟩, fun hbad => ?_⟩
      exact ⟨hfront (hbad.2.resolve_right hback), fun heq => (nomatch heq)⟩
    | eq =>
      rw [hord] at hdecides
      obtain rfl : xs = ys := hdecides
      refine ⟨fun _ => Std.ReflOrd.compare_self, fun hbad => ?_⟩
      rcases hbad.2 with hext | hext
      · have := hord.symm.trans hext.ordering.1
        cases this
      · have := hord.symm.trans hext.ordering.2
        cases this
    | gt =>
      rw [hord] at hdecides
      obtain ⟨hfront, hno⟩ := Before.compare_map compare_complement hdecides
      have hback : ¬ ZeroExtends v w := fun hext => by
        have := hord.symm.trans hext.ordering.1
        cases this
      rw [h.frontRight hord] at hfront hno
      rw [Std.OrientedOrd.eq_swap] at hfront hno
      refine ⟨fun hgood => ?_, fun hbad => ⟨?_, fun heq => (nomatch heq)⟩⟩
      · exact Ordering.swap_eq_gt.1 (hno fun hext => hgood ⟨rfl, .inr hext⟩)
      · exact Ordering.swap_eq_lt.1 (hfront (hbad.2.resolve_left hback))

abbrev ComponentBytes (v : Value) (x : Bytes) : Prop := encodeClusteringComponentOss50 v = .ok x

theorem mapM_components {orders : List ClusteringOrder} {vs : List Value} {xs : List Bytes}
    (h : List.Forall₂ ComponentBytes vs xs) (k : Nat) (hlen : k + vs.length ≤ orders.length) :
    ∃ parts, (vs.zipIdx k).mapM (fun p => (encodeClusteringComponentOss50 p.1).map fun bytes =>
        oss50NextComponent ::
          if (orders.map fun order => decide (order = .desc)).getD p.2 false then
            bytes.map (0xFF ^^^ ·)
          else bytes) = Except.ok parts ∧ parts.flatten = boundBytes (orders.drop k) xs := by
  induction h generalizing k with
  | nil =>
    refine ⟨[], rfl, ?_⟩
    cases orders.drop k <;> rfl
  | @cons v x vs xs hx _ ih =>
    rw [List.length_cons] at hlen
    obtain ⟨parts, hparts, hflatten⟩ := ih (k + 1) (by omega)
    have hk : k < orders.length := by omega
    have hflag : (orders.map fun order => decide (order = .desc)).getD k false =
        decide (orders[k] = .desc) := by
      simp [hk]
    refine ⟨(oss50NextComponent :: directedBytes orders[k] x) :: parts, ?_, ?_⟩
    · rw [List.zipIdx_cons, List.mapM_cons, hx, hparts, hflag]
      simp only [Except.map, decide_eq_true_eq]
      rfl
    · rw [List.flatten_cons, hflatten, List.drop_eq_getElem_cons hk]
      rfl

variable {orders : List ClusteringOrder} {vs : List Value} {types : List ScalarType}

theorem encodeBound_eq {xs : List Bytes} (h : List.Forall₂ ComponentBytes vs xs)
    (hlen : vs.length ≤ orders.length) :
    encodeClusteringBoundOss50WithOrder vs (orders.map fun order => decide (order = .desc)) =
      .ok (boundBytes orders xs) := by
  obtain ⟨parts, hparts, hflatten⟩ := @mapM_components orders vs xs h 0 (by omega)
  rw [encodeClusteringBoundOss50WithOrder, hparts]
  exact congrArg Except.ok hflatten

theorem boundBytes_take (orders : List ClusteringOrder) (xs : List Bytes) (n : Nat) :
    boundBytes orders (xs.take n) <+: boundBytes orders xs := by
  induction n generalizing orders xs with
  | zero =>
    rw [List.take_zero]
    cases orders <;> exact List.nil_prefix
  | succ n ih =>
    cases xs with
    | nil => exact List.prefix_rfl
    | cons x xs =>
      cases orders with
      | nil => exact List.prefix_rfl
      | cons order orders =>
        rw [List.take_succ_cons, boundBytes, boundBytes, List.cons_prefix_cons]
        exact ⟨rfl, (List.prefix_append_right_inj _).2 (ih orders xs)⟩

theorem columnOrdering_eq_eq {ws : List Value} (hlen : orders.length = types.length)
    (hv : List.Forall₂ ScalarType.Holds types vs) (hw : List.Forall₂ ScalarType.Holds types ws) :
    columnOrdering orders vs ws = .eq ↔ vs = ws := by
  induction hv generalizing orders ws with
  | nil =>
    cases hw
    obtain rfl := List.length_eq_zero_iff.1 hlen
    exact iff_of_true rfl rfl
  | @cons t v types vs htv _ ih =>
    cases hw with
    | @cons _ w _ ws htw hws =>
      obtain ⟨order, orders, rfl⟩ := List.exists_cons_of_length_eq_add_one hlen
      rw [columnOrdering, Ordering.then_eq_eq, ih (by simpa using hlen) hws, List.cons.injEq,
        ← (htv.ordering htw).2.1]
      split
      · rw [Ordering.swap_eq_eq]
      · rfl

/-- The bytes compare as the columns do, or the other way round where the last one descends and is
    extended. -/
theorem boundBytes_compare {ws : List Value} (hlen : orders.length = types.length)
    (hv : List.Forall₂ ScalarType.Holds types vs) (hw : List.Forall₂ ScalarType.Holds types ws) :
    ∃ xs ys, List.Forall₂ ComponentBytes vs xs ∧ List.Forall₂ ComponentBytes ws ys ∧
      (¬ LastExtended orders vs ws →
        compare (boundBytes orders xs) (boundBytes orders ys) = columnOrdering orders vs ws) ∧
      (LastExtended orders vs ws →
        compare (boundBytes orders xs) (boundBytes orders ys) = (columnOrdering orders vs ws).swap ∧
          columnOrdering orders vs ws ≠ .eq) := by
  induction hv generalizing orders ws with
  | nil =>
    cases hw
    obtain rfl := List.length_eq_zero_iff.1 hlen
    exact ⟨[], [], .nil, .nil, fun _ => rfl, fun h => h.elim⟩
  | @cons t v types vs htv hvs ih =>
    cases hw with
    | @cons _ w _ ws htw hws =>
      obtain ⟨order, orders, rfl⟩ := List.exists_cons_of_length_eq_add_one hlen
      obtain ⟨xs, ys, hxs, hys, hgood, hbad⟩ := ih (by simpa using hlen) hws
      obtain ⟨x, y, hcodes⟩ := htv.componentCodes htw
      refine ⟨x :: xs, y :: ys, .cons hcodes.left hxs, .cons hcodes.right hys, ?_⟩
      have hstart : compare (boundBytes (order :: orders) (x :: xs))
            (boundBytes (order :: orders) (y :: ys)) =
          compare (directedBytes order x ++ boundBytes orders xs)
            (directedBytes order y ++ boundBytes orders ys) := by
        rw [boundBytes, boundBytes, List.compare_cons_cons, Std.ReflOrd.compare_self, Ordering.eq_then]
      rw [hstart, columnOrdering]
      cases hvs with
      | nil =>
        -- the last column
        cases hws
        cases hxs
        cases hys
        obtain rfl : orders = [] := List.length_eq_zero_iff.1 (by simpa using hlen)
        obtain ⟨hlast, hextended⟩ := hcodes.compare_last order
        have hbytes : boundBytes [] [] = [] := rfl
        have hcolumns : columnOrdering [] [] [] = .eq := rfl
        rw [hbytes, List.append_nil, List.append_nil, hcolumns, Ordering.then_eq]
        refine ⟨hlast, fun h => ?_⟩
        obtain ⟨hcompare, hne⟩ := hextended h
        rw [hcompare, if_pos h.1, Ordering.swap_swap]
        exact ⟨rfl, fun heq => hne (Ordering.swap_eq_eq.1 heq)⟩
      | @cons _ v' _ vs _ _ =>
        cases hws with
        | @cons _ w' _ ws _ _ =>
        cases hxs with
        | @cons _ x' _ xs _ _ =>
        cases hys with
        | @cons _ y' _ ys _ _ =>
        obtain ⟨order', orders, rfl⟩ := List.exists_cons_of_length_eq_add_one
          (show orders.length = _ + 1 by simpa using hlen)
        have hrest : ∀ (z : Bytes) (zs : List Bytes), boundBytes (order' :: orders) (z :: zs) =
            oss50NextComponent :: (directedBytes order' z ++ boundBytes orders zs) := fun _ _ => rfl
        have hcompare := hcodes.compare_directed order (directedBytes order' x' ++ boundBytes orders xs)
          (directedBytes order' y' ++ boundBytes orders ys)
        have htail : compare (directedBytes order' x' ++ boundBytes orders xs)
            (directedBytes order' y' ++ boundBytes orders ys) =
              compare (boundBytes (order' :: orders) (x' :: xs))
                (boundBytes (order' :: orders) (y' :: ys)) := by
          rw [hrest, hrest, List.compare_cons_cons, Std.ReflOrd.compare_self, Ordering.eq_then]
        rw [htail, ← hrest, ← hrest] at hcompare
        rw [hcompare]
        have hfirst : (if order = .desc then (valueOrdering v w).swap else valueOrdering v w) = .eq ↔
            v = w := by
          rw [← (htv.ordering htw).2.1]
          split
          · rw [Ordering.swap_eq_eq]
          · rfl
        refine ⟨fun hno => ?_, ?_⟩
        · by_cases hvw : v = w
          · rw [hfirst.2 hvw, Ordering.eq_then, Ordering.eq_then]
            exact hgood fun h => hno ⟨hvw, h⟩
          · rw [then_eq_left (fun heq => hvw (hfirst.1 heq)),
              then_eq_left (fun heq => hvw (hfirst.1 heq))]
        · rintro ⟨hvw, h⟩
          rw [hfirst.2 hvw, Ordering.eq_then, Ordering.eq_then]
          exact hbad h

theorem compareAt_typed {t : ScalarType} (hv : t.Holds v) (hw : t.Holds w) (order : ClusteringOrder) :
    ClusteringKey.compareAt order v w =
      some (if order = .desc then (valueOrdering v w).swap else valueOrdering v w) := by
  have hcompare := (hv.ordering hw).1
  have hnull : v ≠ .null ∧ w ≠ .null := by
    refine ⟨?_, ?_⟩
    · rintro rfl
      cases hv
    · rintro rfl
      cases hw
  have hat : ClusteringKey.compareAt order v w =
      (compareValues v w).map fun o => if order = .desc then o.swap else o := by
    unfold ClusteringKey.compareAt
    split
    · exact absurd rfl hnull.1
    · exact absurd rfl hnull.1
    · exact absurd rfl hnull.2
    · rfl
  rw [hat, hcompare]
  rfl

theorem compareFrom_typed {a b : ClusteringKey} {types : List ScalarType} {i : Nat}
    {cols : List ClusteringColumn} (hlen : cols.length = types.length)
    (hv : List.Forall₂ ScalarType.Holds types (a.values.drop i))
    (hw : List.Forall₂ ScalarType.Holds types (b.values.drop i)) :
    ClusteringKey.compareFrom a b i cols =
      some (columnOrdering (cols.map (·.order)) (a.values.drop i) (b.values.drop i)) := by
  induction types generalizing i cols with
  | nil =>
    obtain rfl := List.length_eq_zero_iff.1 hlen
    rfl
  | cons t types ih =>
    obtain ⟨col, cols, rfl⟩ := List.exists_cons_of_length_eq_add_one hlen
    have hsplit : ∀ {key : ClusteringKey}, List.Forall₂ ScalarType.Holds (t :: types) (key.values.drop i) →
        t.Holds (key.component i) ∧ key.values.drop i = key.component i :: key.values.drop (i + 1) ∧
          List.Forall₂ ScalarType.Holds types (key.values.drop (i + 1)) := by
      intro key h
      have hi : i < key.values.length := by
        have := h.length_eq
        rw [List.length_cons, List.length_drop] at this
        omega
      have hcomponent : key.component i = key.values[i] := by
        rw [ClusteringKey.component, List.getD_eq_getElem?_getD]
        exact congrArg (fun o => Option.getD o .null) (List.getElem?_eq_getElem hi)
      rw [List.drop_eq_getElem_cons hi, ← hcomponent] at h ⊢
      cases h with
      | cons hhead htail => exact ⟨hhead, rfl, htail⟩
    obtain ⟨htv, hveq, hv⟩ := hsplit hv
    obtain ⟨htw, hweq, hw⟩ := hsplit hw
    rw [ClusteringKey.compareFrom, compareAt_typed htv htw, hveq, hweq, List.map_cons, columnOrdering]
    have hrest := ih (by simpa using hlen) hv hw
    cases (if col.order = .desc then (valueOrdering (a.component i) (b.component i)).swap
      else valueOrdering (a.component i) (b.component i)) with
    | lt => rfl
    | eq => exact hrest
    | gt => rfl

theorem key_eq_of_values {schema : TableSchema} {a b : ClusteringKey} (ha : a.IsFull schema types)
    (hb : b.IsFull schema types) (h : a.values = b.values) : a = b := by
  obtain ⟨as⟩ := a
  obtain ⟨bs⟩ := b
  exact congrArg _ ((List.zip_of_prod ha.names h).trans (List.zip_of_prod hb.names rfl).symm)

/-- The bytes of two full keys are in clustering order unless the keys differ in the last column, which
    descends, by a zero byte that extends a text or blob. -/
theorem boundsInOrder_iff {schema : TableSchema} {types : List ScalarType} {a b : ClusteringKey}
    (ha : a.IsFull schema types) (hb : b.IsFull schema types) :
    (∃ xs ys, BoundsInOrder schema a b xs ys) ↔
      ¬ LastExtended (schema.clusteringKeys.map (·.order)) a.values b.values := by
  have hcount : ∀ {key : ClusteringKey}, key.IsFull schema types →
      key.columns.length = schema.clusteringKeys.length ∧
        schema.clusteringKeys.length = types.length := by
    intro key hkey
    have hnames := congrArg List.length hkey.names
    have htyped := hkey.typed.length_eq
    rw [ClusteringKey.columnNames, List.length_map, List.length_map] at hnames
    rw [ClusteringKey.values, List.length_map] at htyped
    exact ⟨hnames, by omega⟩
  obtain ⟨hacount, htypes⟩ := hcount ha
  obtain ⟨hbcount, -⟩ := hcount hb
  have horders : (schema.clusteringKeys.map (·.order)).length = types.length := by
    rw [List.length_map, htypes]
  have hflags : schema.reversedFlags =
      (schema.clusteringKeys.map (·.order)).map fun order => decide (order = .desc) := by
    rw [TableSchema.reversedFlags, List.map_map]
    rfl
  obtain ⟨xs, ys, hxs, hys, hgood, hbad⟩ := boundBytes_compare horders ha.typed hb.typed
  have hencode : ∀ {vs : List Value} {zs : List Bytes}, List.Forall₂ ComponentBytes vs zs →
      vs.length ≤ types.length → encodeClusteringBoundOss50WithOrder vs schema.reversedFlags =
        .ok (boundBytes (schema.clusteringKeys.map (·.order)) zs) := by
    intro vs zs h hlen
    rw [hflags]
    exact encodeBound_eq h (hlen.trans horders.ge)
  have hleft := hencode hxs ha.typed.length_eq.ge
  have hright := hencode hys hb.typed.length_eq.ge
  have hcompare : ClusteringKey.compare a b schema =
      some (columnOrdering (schema.clusteringKeys.map (·.order)) a.values b.values) := by
    rw [ClusteringKey.compare, if_neg (by omega)]
    have := @compareFrom_typed a b types 0 schema.clusteringKeys htypes ha.typed hb.typed
    rwa [List.drop_zero, List.drop_zero] at this
  constructor
  · rintro ⟨xs', ys', h⟩ hext
    obtain ⟨hswap, hne⟩ := hbad hext
    obtain rfl := Except.ok.inj (hleft.symm.trans h.left)
    obtain rfl := Except.ok.inj (hright.symm.trans h.right)
    have horder := h.order
    rw [hswap, hcompare, Option.some.injEq, Ordering.swap_eq_lt] at horder
    cases hcols : columnOrdering (schema.clusteringKeys.map (·.order)) a.values b.values with
    | lt => exact absurd (horder.2 hcols) (by rw [hcols]; exact fun heq => (nomatch heq))
    | eq => exact hne hcols
    | gt => exact absurd (horder.1 hcols) (by rw [hcols]; exact fun heq => (nomatch heq))
  · intro hno
    refine ⟨_, _, hleft, hright, ?_, ?_, ?_⟩
    · rw [hgood hno, hcompare, Option.some.injEq]
    · intro heq
      refine key_eq_of_values ha hb ((columnOrdering_eq_eq horders ha.typed hb.typed).1 ?_)
      rw [← hgood hno, heq]
      exact Std.ReflOrd.compare_self
    · intro n hn
      refine ⟨_, hencode (List.forall₂_take n hxs) ?_, ?_⟩
      · rw [List.length_take]
        exact (min_le_right _ _).trans ha.typed.length_eq.ge
      · obtain ⟨rest, hrest⟩ := boundBytes_take (schema.clusteringKeys.map (·.order)) xs n
        rw [← hrest]
        conv_lhs => rw [← List.append_nil (boundBytes _ (xs.take n)), List.append_assoc,
          compare_append_left]
        cases rest <;> rfl

/-- An ascending int and a descending blob. -/
def samplesTable : TableSchema := ⟨[⟨"c", .asc⟩, ⟨"b", .desc⟩], fun _ => none⟩

def sampleKey (c : Int) (b : Bytes) : ClusteringKey := ⟨[("c", .integer c), ("b", .blob b)]⟩

theorem boundsInOrder_sample :
    ∃ xs ys, BoundsInOrder samplesTable (sampleKey 1 [98]) (sampleKey 1 [97, 0]) xs ys := by
  have hfull : ∀ b, (sampleKey 1 b).IsFull samplesTable [.int, .blob] := fun b =>
    ⟨rfl, .cons (.int ⟨by decide, by decide⟩) (.cons (.blob b) .nil)⟩
  refine (boundsInOrder_iff (hfull _) (hfull _)).2 ?_
  rintro ⟨-, -, hext | hext⟩
  · revert hext
    change ¬ [98, 0] <+: ([97, 0] : Bytes)
    decide
  · revert hext
    change ¬ [97, 0, 0] <+: ([98] : Bytes)
    decide

/-- On a descending blob the key extended by a zero byte has the greater bytes but comes first. -/
theorem descending_zero_out_of_order :
    ¬ ∃ xs ys, BoundsInOrder samplesTable (sampleKey 1 [97, 0]) (sampleKey 1 [97]) xs ys := by
  rintro ⟨xs, ys, h⟩
  have hleft := h.left
  have hright := h.right
  have horder := h.order
  cases hleft
  cases hright
  revert horder
  decide

end Bound

end Cqlite
