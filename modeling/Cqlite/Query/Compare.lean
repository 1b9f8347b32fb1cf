import Cqlite.Query.Pushdown

/-! Comparing values in a predicate (`select_executor/value_ops.rs` and the `PartialEq` and
    `PartialOrd` of `types.rs`).

    Integers compare exactly, whatever their width; a float takes part as an `f64`. -/

namespace Cqlite

/-! ### Numbers as `f64` -/

/-- `m / 2^s`, rounded half to even. -/
def roundHalfEven (m s : Nat) : Nat :=
  let q := m / 2 ^ s
  let r := 2 * (m % 2 ^ s)
  if 2 ^ s < r ∨ (r = 2 ^ s ∧ q % 2 = 1) then q + 1 else q

/-- `n as f64`, as a bit pattern. A carry of the rounding reaches the exponent. -/
def f64OfInt (n : Int) : UInt64 :=
  let m := n.natAbs
  if m = 0 then 0
  else
    let e := Nat.log2 m
    let mantissa := if e ≤ 52 then m * 2 ^ (52 - e) else roundHalfEven m (e - 52)
    UInt64.ofNat ((if n < 0 then 2 ^ 63 else 0) + (e + 1022) * 2 ^ 52 + mantissa)

/-- `x as f64` of an `f32`. -/
def f64OfF32 (bits : UInt32) : UInt64 :=
  let sign := bits.toNat / 2 ^ 31 * 2 ^ 63
  let exponent := bits.toNat / 2 ^ 23 % 256
  let mantissa := bits.toNat % 2 ^ 23
  if exponent = 255 then UInt64.ofNat (sign + 2047 * 2 ^ 52 + mantissa * 2 ^ 29)
  else if exponent ≠ 0 then UInt64.ofNat (sign + (exponent + 896) * 2 ^ 52 + mantissa * 2 ^ 29)
  else if mantissa = 0 then UInt64.ofNat sign
  else
    -- a subnormal has a leading bit of its own as an `f64`
    let e := Nat.log2 mantissa
    UInt64.ofNat (sign + (e + 873) * 2 ^ 52 + mantissa * 2 ^ (52 - e))

/-- `==` on floats: a NaN equals nothing, and zeros are equal. -/
def ieeeEq (w m a b : Nat) : Bool :=
  !ieeeNaN w m a && !ieeeNaN w m b && ieeePosition w a == ieeePosition w b

def f64Eq (a b : UInt64) : Bool := ieeeEq 63 52 a.toNat b.toNat

namespace Value

def asF64 : Value → Option UInt64
  | .float bits => some bits
  | .float32 bits => some (f64OfF32 bits)
  | .integer n => some (f64OfInt n)
  | .bigInt n => some (f64OfInt n)
  | .counter n => some (f64OfInt n)
  | .tinyInt n => some (f64OfInt n)
  | .smallInt n => some (f64OfInt n)
  | _ => none

def asIntegralI128 : Value → Option Int
  | .integer n => some n
  | .bigInt n => some n
  | .counter n => some n
  | .tinyInt n => some n
  | .smallInt n => some n
  | _ => none

def isNanValue : Value → Bool
  | .float bits => ieeeNaN 63 52 bits.toNat
  | .float32 bits => ieeeNaN 31 23 bits.toNat
  | _ => false

theorem isNanValue_null : isNanValue .null = false := rfl

/-! ### Equality -/

mutual

/-- The derived `==`: floats compare as floats. -/
def partialEq : Value → Value → Bool
  | .null, .null => true
  | .boolean a, .boolean b => a == b
  | .integer a, .integer b => a == b
  | .bigInt a, .bigInt b => a == b
  | .counter a, .counter b => a == b
  | .float a, .float b => f64Eq a b
  | .text a, .text b => a == b
  | .blob a, .blob b => a == b
  | .timestamp a, .timestamp b => a == b
  | .date a, .date b => a == b
  | .time a, .time b => a == b
  | .uuid a, .uuid b => a == b
  | .varint a, .varint b => a == b
  | .decimal s a, .decimal t b => s == t && a == b
  | .duration m d n, .duration m' d' n' => m == m' && d == d' && n == n'
  | .json a, .json b => a == b
  | .tinyInt a, .tinyInt b => a == b
  | .smallInt a, .smallInt b => a == b
  | .float32 a, .float32 b => ieeeEq 31 23 a.toNat b.toNat
  | .list a, .list b => partialEqAll a b
  | .set a, .set b => partialEqAll a b
  | .map a, .map b => partialEqEntries a b
  | .tuple a, .tuple b => partialEqAll a b
  | .udt t k a, .udt t' k' b => t == t' && k == k' && partialEqFields a b
  | .frozen a, .frozen b => partialEq a b
  | .tombstone a, .tombstone b => a == b
  | .inet a, .inet b => a == b
  | _, _ => false

def partialEqAll : List Value → List Value → Bool
  | [], [] => true
  | a :: as, b :: bs => partialEq a b && partialEqAll as bs
  | _, _ => false

def partialEqEntries : List (Value × Value) → List (Value × Value) → Bool
  | [], [] => true
  | (k, v) :: as, (k', v') :: bs => partialEq k k' && partialEq v v' && partialEqEntries as bs
  | _, _ => false

def partialEqFields : List (String × Option Value) → List (String × Option Value) → Bool
  | [], [] => true
  | (n, some v) :: as, (n', some v') :: bs => n == n' && partialEq v v' && partialEqFields as bs
  | (n, none) :: as, (n', none) :: bs => n == n' && partialEqFields as bs
  | _, _ => false

end

/-- `values_equal`. -/
def valuesEqual (a b : Value) : Bool :=
  if partialEq a b then true
  else match a.asIntegralI128, b.asIntegralI128 with
    | some x, some y => x == y
    | _, _ =>
      match a.asF64, b.asF64 with
      | some x, some y => f64Eq x y
      | _, _ => false

/-! ### Order -/

variable (display : Value → String)

def tryCompareValues (a b : Value) : Except QueryError Ordering :=
  match a.asF64, b.asF64 with
  | some x, some y => .ok (cassandraDoubleCmp x y)
  | _, _ =>
    if a.ctorIdx = b.ctorIdx then .ok (partialCmp display a b)
    else .error "Cannot compare incompatible types"

/-- `none` when an operand is NaN. -/
def tryCompareValuesPredicate (a b : Value) : Except QueryError (Option Ordering) :=
  if a.isNanValue || b.isNanValue then .ok none
  else match a.asIntegralI128, b.asIntegralI128 with
    | some x, some y => .ok (some (compare x y))
    | _, _ => (tryCompareValues display a b).map some

end Value

/-- The comparisons of the source, given the writing out of values and the matching of a pattern. -/
@[reducible] def sourceOps (display : Value → String) (matchLikePattern : Bytes → Bytes → Bool) : ValueOps where
  valuesEqual := Value.valuesEqual
  tryCompare := Value.tryCompareValuesPredicate display
  matchLikePattern := matchLikePattern
  equal_null v h := by
    cases v with
    | null => cases h
    | _ => simp [Value.valuesEqual, Value.partialEq, Value.asIntegralI128, Value.asF64]
  compare_null v h o := by
    cases v with
    | null => cases h
    | float bits =>
      cases hnan : (Value.float bits).isNanValue <;>
        simp [Value.tryCompareValuesPredicate, hnan, Value.tryCompareValues, Value.asIntegralI128,
          Value.asF64, Value.ctorIdx, Value.isNanValue_null, Except.map]
    | float32 bits =>
      cases hnan : (Value.float32 bits).isNanValue <;>
        simp [Value.tryCompareValuesPredicate, hnan, Value.tryCompareValues, Value.asIntegralI128,
          Value.asF64, Value.ctorIdx, Value.isNanValue_null, Except.map]
    | _ => exact fun h => nomatch h

end Cqlite
