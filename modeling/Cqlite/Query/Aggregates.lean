import Cqlite.Merge.ReadAssembly

/-! The aggregates (`select_executor/aggregation.rs`, `numeric_acc.rs`).

    One accumulator for each aggregate of a group takes the rows of the group one after the other.
    Adding and dividing doubles is a parameter. -/

namespace Cqlite

/-- `compare_values_ordering`: what cannot be compared is equal. -/
def compareValuesOrdering (display : Value → String) (a b : Value) : Ordering :=
  match Value.tryCompareValues display a b with
  | .ok o => o
  | .error _ => .eq

/-! ### Sums -/

/-- `+` and `/` on `f64`. -/
class DoubleArith where
  add : UInt64 → UInt64 → UInt64
  div : UInt64 → UInt64 → UInt64

inductive IntWidth
  | byte
  | short
  | int
  | long
  deriving DecidableEq, Repr

/-- Two's complement in so many bits. -/
def wrapTo (bits : Nat) (n : Int) : Int := n.bmod (2 ^ bits)

def IntWidth.bits : IntWidth → Nat
  | .byte => 8
  | .short => 16
  | .int => 32
  | .long => 64

def IntWidth.narrow (width : IntWidth) (sum : Int) : Value :=
  match width with
  | .byte => .tinyInt (wrapTo 8 sum)
  | .short => .smallInt (wrapTo 16 sum)
  | .int => .integer (wrapTo 32 sum)
  | .long => .bigInt sum

inductive NumericAcc
  | integral (sum : Int) (width : IntWidth)
  | floating (sum : UInt64)
  deriving DecidableEq, Repr

def NumericAcc.init : Option CqlType → NumericAcc
  | some .tinyInt => .integral 0 .byte
  | some .smallInt => .integral 0 .short
  | some .int => .integral 0 .int
  | some .bigInt => .integral 0 .long
  | some .counter => .integral 0 .long
  | _ => .floating 0

section

variable [DoubleArith]

/-- The sum with the value, and whether the value was accepted. -/
def NumericAcc.add (acc : NumericAcc) (value : Value) : NumericAcc × Bool :=
  match acc with
  | .integral sum width =>
    match value.asI64 with
    | some v => (.integral (wrapTo 64 (sum + v)) width, true)
    | none => (.integral sum width, false)
  | .floating sum =>
    match value.asF64 with
    | some v => (.floating (DoubleArith.add sum v), true)
    | none => (.floating sum, false)

def NumericAcc.finalizeSum : NumericAcc → Value
  | .integral sum width => width.narrow sum
  | .floating sum => .float sum

def NumericAcc.finalizeAvg (acc : NumericAcc) (count : Nat) : Value :=
  match acc with
  | .integral sum width => width.narrow (sum.tdiv count)
  | .floating sum => .float (DoubleArith.div sum (f64OfInt count))

/-! ### Accumulators -/

inductive AggregateType
  | count
  | sum
  | avg
  | min
  | max
  deriving DecidableEq, Repr

/-- One aggregate of the plan. -/
structure AggregateComputation where
  function : AggregateType
  column : String
  aliasName : String
  distinct : Bool
  deriving DecidableEq, Repr

inductive AggregateValue
  | count (count : Nat)
  | sum (acc : NumericAcc)
  | avg (acc : NumericAcc) (count : Nat)
  | min (value : Value)
  | max (value : Value)

def initAccumulator (function : AggregateType) (resultType : Option CqlType) : AggregateValue :=
  match function with
  | .count => .count 0
  | .sum => .sum (.init resultType)
  | .avg => .avg (.init resultType) 0
  | .min => .min .null
  | .max => .max .null

/-- The value of the row an aggregate looks at; `COUNT(*)` looks at none. -/
def AggregateComputation.input (agg : AggregateComputation) (row : QueryRow) : Option Value :=
  if agg.column = "*" then none else row.values agg.column

/-- The extremum so far, or a value that is not null and compares better. -/
def keepBetter (display : Value → String) (better : Ordering → Bool) (extremum : Value) :
    Option Value → Value
  | some v =>
    if !v.isNull && (extremum.isNull || better (compareValuesOrdering display v extremum)) then v
    else extremum
  | none => extremum

/-- One value's contribution; `none` is a missing column. -/
def updateWith (display : Value → String) (isStar : Bool) (value : Option Value) :
    AggregateValue → AggregateValue
  | .count count => if isStar || value.any (fun v => !v.isNull) then .count (count + 1) else .count count
  | .sum acc =>
    match value with
    | some v => if v.isNull then .sum acc else .sum (acc.add v).1
    | none => .sum acc
  | .avg acc count =>
    match value with
    | some v =>
      if v.isNull then .avg acc count
      else if (acc.add v).2 then .avg (acc.add v).1 (count + 1)
      else .avg (acc.add v).1 count
    | none => .avg acc count
  | .min minVal => .min (keepBetter display Ordering.isLT minVal value)
  | .max maxVal => .max (keepBetter display Ordering.isGT maxVal value)

/-- One row's contribution. -/
def updateAggregate (display : Value → String) (state : AggregateValue) (agg : AggregateComputation)
    (row : QueryRow) : AggregateValue :=
  updateWith display (agg.column = "*") (agg.input row) state

/-- The value of an accumulator. -/
def AggregateValue.finalize : AggregateValue → Value
  | .count n => .bigInt n
  | .sum acc => acc.finalizeSum
  | .avg acc n => if 0 < n then acc.finalizeAvg n else .null
  | .min value => value
  | .max value => value

/-- An aggregate over the rows of a group. -/
def aggregateOver (display : Value → String) (agg : AggregateComputation)
    (resultType : Option CqlType) (rows : List QueryRow) : Value :=
  (rows.foldl (fun state row => updateAggregate display state agg row)
    (initAccumulator agg.function resultType)).finalize

end

end Cqlite
