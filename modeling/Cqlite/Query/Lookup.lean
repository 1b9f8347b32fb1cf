import Cqlite.Query.Execute

/-! Lookups by partition key (`select_executor/lookup.rs`).

    A lookup reads the partitions of its keys, or a slice of the one partition; the rows found are
    tested against all predicates again. -/

namespace Cqlite

/-! ### Stored rows -/

/-- A row under its raw key; the cells have no partition-key columns. -/
structure StoredRow where
  key : Bytes
  cells : Option (String → Option Value)

/-- `build_row_from_scan_cached`: the partition-key columns are those the key decodes to, or none. -/
def StoredRow.entry (codec : ValueCodec) (schema : LookupSchema) (row : StoredRow) : ScanEntry where
  key := row.key
  cells := row.cells.map fun cells name =>
    match decodePartitionKeyColumns codec row.key schema.partitionKeys with
    | .ok columns => (columns.lookup name).or (cells name)
    | .error _ => cells name

section Rows

variable (codec : ValueCodec) (schema : LookupSchema) (display : Value → String)
  (matchLikePattern : Bytes → Bytes → Bool)

/-- The row's first clustering value lies in the slice. -/
def ClusteringSlice.coversRow (slice : ClusteringSlice) (row : StoredRow) : Bool :=
  @ClusteringSlice.covers (sourceOps display matchLikePattern) slice schema row.cells

/-- What `execute_sstable_scan` reads; `sliceRead` says which rows of a partition the reading of a
    slice returns. -/
def lookupRows (sliceRead : ClusteringSlice → StoredRow → Bool) (table : List StoredRow)
    (predicates : List SSTablePredicate) : List ScanEntry :=
  match classifyPartitionLookup codec predicates (some schema) with
  | .targeted key =>
    let rows := table.filter fun row => row.key == key
    let read := match classifyClusteringSlice predicates (some schema) with
      | some slice => rows.filter (sliceRead slice)
      | none => rows
    read.map (StoredRow.entry codec schema)
  | .multiTargeted keys => multiPartition (table.map (StoredRow.entry codec schema)) keys
  | .fallback => table.map (StoredRow.entry codec schema)

/-- The rows that are built and that the predicates accept. -/
def acceptedRows (predicates : List SSTablePredicate) (projection : List String)
    (entries : List ScanEntry) : List QueryRow :=
  @QueryEnv.accepted (sourceOps display matchLikePattern) predicates projection entries

/-- The lookup returns the rows of the full scan, however the slice is read. -/
def LookupExact (table : List StoredRow) (predicates : List SSTablePredicate)
    (projection : List String) : Prop :=
  ∀ sliceRead : ClusteringSlice → StoredRow → Bool,
    (∀ slice row, slice.coversRow schema display matchLikePattern row = true →
      sliceRead slice row = true) →
    acceptedRows display matchLikePattern predicates projection
        (lookupRows codec schema sliceRead table predicates) =
      acceptedRows display matchLikePattern predicates projection
        (table.map (StoredRow.entry codec schema))

end Rows

end Cqlite
