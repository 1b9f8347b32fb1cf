import Cqlite.Engine.PartitionKeyCodec
import Cqlite.Lib.Odometer

/-! What pushed predicates say of the keys (`select_executor/{lookup,predicate}.rs`).

    Predicates that give every partition-key column its values become the keys of one lookup each, and
    those on the first clustering column bounds for reading within a partition. -/

namespace Cqlite

/-! ### Partition keys -/

/-- The part of the schema a lookup reads; the partition-key columns stand by their positions. -/
structure LookupSchema where
  partitionKeys : List KeyColumn
  clusteringKeys : List KeyColumn

inductive PartitionLookupOutcome
  | targeted (key : Bytes)
  | multiTargeted (keys : List Bytes)
  | fallback
  deriving DecidableEq, Repr

def maxInTargetedLookups : Nat := 64

/-- One tuple, `idx` being the positions in the columns' lists. -/
def combination (perColumn : List (List Value)) (idx : List Nat) : List Value :=
  List.zipWith (fun values i => values.getD i .null) perColumn idx

/-- `cartesian_product`: the last column advances fastest. -/
def cartesianProduct (perColumn : List (List Value)) : List (List Value) :=
  (Odometer.run (perColumn.map List.length) (perColumn.map List.length).prod
    (List.replicate perColumn.length 0)).map (combination perColumn)

/-- The first `=` or `IN` on a column; predicates on tokens are passed over. -/
def findKeyPredicate (predicates : List SSTablePredicate) (column : KeyColumn) :
    Option SSTablePredicate :=
  predicates.find? fun p => p.tokenColumns.isNone && p.column == column.name &&
    (p.operation == .equal || p.operation == .in)

/-- The values of every column, if each has some. -/
def keyValues (predicates : List SSTablePredicate) (keys : List KeyColumn) :
    Option (List (List Value)) :=
  keys.mapM fun column => (findKeyPredicate predicates column).bind fun p =>
    if p.values.isEmpty then none else some p.values

/-- `seen.insert`: the first of several equal keys stays. -/
def pushUnseen (keys : List Bytes) (key : Bytes) : List Bytes :=
  if keys.contains key then keys else keys ++ [key]

def classifyPartitionLookup (codec : ValueCodec) (predicates : List SSTablePredicate)
    (schema : Option LookupSchema) : PartitionLookupOutcome :=
  match schema with
  | none => .fallback
  | some schema =>
    if schema.partitionKeys.isEmpty then .fallback
    else match keyValues predicates schema.partitionKeys with
      | none => .fallback
      | some perColumn =>
        -- `checked_mul` overflows only past the cap
        if (perColumn.map List.length).prod ≤ maxInTargetedLookups then
          match (cartesianProduct perColumn).mapM
              (encodePartitionKeyColumns codec · schema.partitionKeys) with
          | .error _ => .fallback
          | .ok encoded =>
            match encoded.foldl pushUnseen [] with
            | [] => .fallback
            | [key] => .targeted key
            | keys => .multiTargeted keys
        else .fallback

@[simp] theorem classifyPartitionLookup_schemaless (codec : ValueCodec)
    (predicates : List SSTablePredicate) : classifyPartitionLookup codec predicates none = .fallback :=
  rfl

/-- Without predicates no key column has a value. -/
@[simp] theorem classifyPartitionLookup_nil (codec : ValueCodec) (schema : Option LookupSchema) :
    classifyPartitionLookup codec [] schema = .fallback := by
  cases schema with
  | none => rfl
  | some schema =>
    rw [classifyPartitionLookup]
    cases schema.partitionKeys <;> rfl

/-! ### Tokens -/

/-- Each token is of the whole partition key, in its order. -/
def validateTokenPredicates (predicates : List SSTablePredicate) (schema : Option LookupSchema) :
    Except QueryError Unit :=
  let tokens := predicates.filterMap (·.tokenColumns)
  if tokens.isEmpty then .ok ()
  else match schema with
    | none => .error ("token() restriction requires a known table schema to validate its argument " ++
        "against the partition key")
    | some schema =>
      let expected := schema.partitionKeys.map (·.name)
      match tokens.find? (· != expected) with
      | none => .ok ()
      | some columns => .error ("token() must be applied to the entire partition key in declared " ++
          "order (" ++ String.intercalate ", " expected ++ "); got token(" ++
          String.intercalate ", " columns ++ ")")

theorem validateTokenPredicates_columns {predicates : List SSTablePredicate}
    (h : ∀ p ∈ predicates, p.tokenColumns = none) (schema : Option LookupSchema) :
    validateTokenPredicates predicates schema = .ok () := by
  have hnone : predicates.filterMap (·.tokenColumns) = [] := List.filterMap_eq_nil_iff.mpr h
  simp [validateTokenPredicates, hnone]

/-! ### Clustering slices -/

/-- The integer of an integer or timestamp value. -/
def asI128 : Value → Option Int
  | .tinyInt n => some n
  | .smallInt n => some n
  | .integer n => some n
  | .bigInt n => some n
  | .counter n => some n
  | .timestamp n => some n
  | _ => none

/-- An integer that fits `k + 1` signed bits. -/
def tryFrom (k : Nat) (n : Int) : Option Int := if -(2 ^ k) ≤ n ∧ n < 2 ^ k then some n else none

def coerceClusteringValue (value : Value) (cqlType : String) : Option Value :=
  match ComparatorType.ofPrimitive (lowercase (trim cqlType)) with
  | some .tinyInt => ((asI128 value).bind (tryFrom 7)).map .tinyInt
  | some .smallInt => ((asI128 value).bind (tryFrom 15)).map .smallInt
  | some .int => ((asI128 value).bind (tryFrom 31)).map .integer
  | some .bigInt => ((asI128 value).bind (tryFrom 63)).map .bigInt
  | some .counter => ((asI128 value).bind (tryFrom 63)).map .bigInt
  | some .timestamp => ((asI128 value).bind (tryFrom 63)).map .timestamp
  | some .text =>
    match value with
    | .text s => some (.text s)
    | _ => none
  | some .uuid =>
    match value with
    | .uuid s => some (.uuid s)
    | _ => none
  | some .boolean =>
    match value with
    | .boolean b => some (.boolean b)
    | _ => none
  | some .blob =>
    match value with
    | .blob s => some (.blob s)
    | _ => none
  | _ => none

/-- A bound and whether it is inclusive; without one the side is open. -/
structure ClusteringSlice where
  start : Option (Value × Bool)
  stop : Option (Value × Bool)

/-- What one restriction on the first clustering column makes of the slice so far. -/
def ClusteringSlice.restrict (cqlType : String) (slice : ClusteringSlice) (p : SSTablePredicate) :
    Option ClusteringSlice :=
  let coerced (i : Nat) : Option Value := p.values[i]?.bind (coerceClusteringValue · cqlType)
  match p.operation with
  | .equal => (coerced 0).map fun v => ⟨some (v, true), some (v, true)⟩
  | .gt => (coerced 0).map fun v => { slice with start := some (v, false) }
  | .gte => (coerced 0).map fun v => { slice with start := some (v, true) }
  | .lt => (coerced 0).map fun v => { slice with stop := some (v, false) }
  | .lte => (coerced 0).map fun v => { slice with stop := some (v, true) }
  | .range => (coerced 0).bind fun lo => (coerced 1).map fun hi => ⟨some (lo, true), some (hi, true)⟩
  | .in => none
  | .prefixOp => none
  | .bloomFilter => none

def classifyClusteringSlice (predicates : List SSTablePredicate) (schema : Option LookupSchema) :
    Option ClusteringSlice :=
  schema.bind fun schema =>
    match schema.clusteringKeys with
    | [] => none
    | first :: others =>
      if others.any fun ck => predicates.any fun p => p.tokenColumns.isNone && p.column == ck.name then
        none
      else
        let onFirst := predicates.filter fun p => p.tokenColumns.isNone && p.column == first.name
        if onFirst.isEmpty then none
        else onFirst.foldlM (ClusteringSlice.restrict first.dataType) ⟨none, none⟩

section Covers

variable [ValueOps]

/-- The value lies on the right side of a bound, in the order of its column. -/
def boundAccepts (op : SSTableFilterOp) (v : Value) : Option (Value × Bool) → Bool
  | none => true
  | some (b, inclusive) =>
    match compareValuesOrderingPredicate v b with
    | some .eq => inclusive
    | some o => op.accepts o
    | none => false

/-- The first clustering value of a row's cells lies in the slice. -/
def ClusteringSlice.covers (slice : ClusteringSlice) (schema : LookupSchema)
    (cells : Option (String → Option Value)) : Bool :=
  match schema.clusteringKeys.head?, cells with
  | some first, some cells =>
    match cells first.name with
    | some v => boundAccepts .gt v slice.start && boundAccepts .lt v slice.stop
    | none => false
  | _, _ => false

end Covers

end Cqlite
