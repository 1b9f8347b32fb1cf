import Cqlite.Reader.RowFrame

/-! Rows read back as they were written.

    Reader and writer agree on the flags, the sizes and the times. They part on clustering types the
    reader has no form for, on the columns of a table with 64 regular columns or more (the reader
    takes the count for a bitmap), and on a flag of all columns that was set by counting. -/

namespace Cqlite

open VInt

/-! ### Flags -/

namespace RowFlags

@[simp] theorem flag_timestamp (flags : RowFlags) : flag 0x04 flags.toByte = flags.hasTimestamp := by
  obtain ⟨a, b, c, d, e⟩ := flags
  revert a b c d e
  decide

@[simp] theorem flag_ttl (flags : RowFlags) : flag 0x08 flags.toByte = flags.hasTtl := by
  obtain ⟨a, b, c, d, e⟩ := flags
  revert a b c d e
  decide

@[simp] theorem flag_deletion (flags : RowFlags) : flag 0x10 flags.toByte = flags.hasDeletion := by
  obtain ⟨a, b, c, d, e⟩ := flags
  revert a b c d e
  decide

@[simp] theorem flag_allColumns (flags : RowFlags) :
    flag 0x20 flags.toByte = flags.hasAllColumns := by
  obtain ⟨a, b, c, d, e⟩ := flags
  revert a b c d e
  decide

@[simp] theorem flag_extended (flags : RowFlags) : flag 0x80 flags.toByte = false := by
  obtain ⟨a, b, c, d, e⟩ := flags
  revert a b c d e
  decide

end RowFlags

/-! ### Times -/

/-- The times of a row as the source's types hold them: `i64` timestamps, `i32` deletion times and a
    `u32` TTL; the values of its key likewise. -/
structure RowWrite.InRange (row : RowWrite) : Prop where
  liveness : ∀ ts, row.livenessTs = some ts → -(2 ^ 63) ≤ ts ∧ ts < 2 ^ 63
  ttl : ∀ ttl, row.ttlSeconds = some ttl → 0 ≤ ttl ∧ ttl < 2 ^ 32
  deletion : ∀ ts ldt, row.rowDeletion = some (ts, ldt) →
    (-(2 ^ 63) ≤ ts ∧ ts < 2 ^ 63) ∧ -(2 ^ 31) ≤ ldt ∧ ldt < 2 ^ 31
  key : ∀ key, row.clusteringKey = some key → ∀ v ∈ key.values, v.InRange

/-- `i32` baselines. -/
structure Baselines.InRange (base : Baselines) : Prop where
  ttl : -(2 ^ 31) ≤ base.minTtl
  localDeletionTime : -(2 ^ 31) ≤ base.minLocalDeletionTime

section Times

variable {schema : ReadSchema}

theorem readTimestamp_delta {ts : Int} (hlow : -(2 ^ 63) ≤ ts) (hhigh : ts < 2 ^ 63) (rest : Bytes) :
    readTimestamp schema (encodeUnsigned (asU64 (ts - schema.base.minTimestamp)) ++ rest) =
      some (ts, rest) := by
  have hlt : asU64 (ts - schema.base.minTimestamp) < 2 ^ 64 := by
    rw [asU64]
    omega
  rw [readTimestamp, decodeUnsigned_encodeUnsigned hlt, Option.map_some]
  refine congrArg some (Prod.ext ?_ rfl)
  simp only [asI64, asU64]
  omega

theorem expiringLocalDeletionTime_range (now ttl : Int) :
    -(2 ^ 31) ≤ expiringLocalDeletionTime now ttl ∧ expiringLocalDeletionTime now ttl < 2 ^ 31 := by
  rw [expiringLocalDeletionTime, i32Min, i32Max]
  omega

/-- The expiry as the reader shows it: unsigned in the formats that have it so. -/
def shownExpiry (uint : Bool) (ldt : Int) : Int := if uint then asU32 ldt else ldt

theorem readTtl_deltas {ttl ldt : Int} (hbase : schema.base.InRange) (httl : ttl < 2 ^ 32)
    (hlow : -(2 ^ 31) ≤ ldt) (hhigh : ldt < 2 ^ 31) (hmin : schema.base.minTtl ≤ ttl)
    (hminLdt : schema.base.minLocalDeletionTime ≤ ldt) (rest : Bytes) :
    readTtl schema (encodeUnsigned (ttl - schema.base.minTtl).toNat ++
      encodeUnsigned (ldt - schema.base.minLocalDeletionTime).toNat ++ rest) =
      some ((asI32 ttl, shownExpiry schema.hasUintDeletionTime ldt), rest) := by
  have hbaseTtl := hbase.ttl
  have hbaseLdt := hbase.localDeletionTime
  rw [readTtl, List.append_assoc, decodeUnsigned_encodeUnsigned (by omega), Option.bind_some,
    decodeUnsigned_encodeUnsigned (by omega), Option.map_some]
  have hraw : schema.base.minLocalDeletionTime +
      ((ldt - schema.base.minLocalDeletionTime).toNat : Int) = ldt := by omega
  have hrawTtl : schema.base.minTtl + ((ttl - schema.base.minTtl).toNat : Int) = ttl := by omega
  have hsame : asI32 ldt = ldt := by
    rw [asI32]
    omega
  simp only [hraw, hrawTtl, hsame, shownExpiry]

theorem readDeletion_deltas {ts ldt : Int} (hts : -(2 ^ 63) ≤ ts ∧ ts < 2 ^ 63)
    (hldt : -(2 ^ 31) ≤ ldt ∧ ldt < 2 ^ 31) (rest : Bytes) :
    readDeletion schema (encodeUnsigned (asU64 (ts - schema.base.minTimestamp)) ++
      encodeUnsigned (asU32 (ldt - schema.base.minLocalDeletionTime)).toNat ++ rest) =
      some ((ts, ldt), rest) := by
  have hlt : (asU32 (ldt - schema.base.minLocalDeletionTime)).toNat < 2 ^ 64 := by
    rw [asU32]
    omega
  rw [readDeletion, List.append_assoc, readTimestamp_delta hts.1 hts.2, Option.bind_some,
    decodeUnsigned_encodeUnsigned hlt, Option.map_some]
  refine congrArg some (Prod.ext (Prod.ext rfl ?_) rfl)
  simp only [asI32, asU32]
  split
  · omega
  · omega

end Times

/-! ### The subset of columns -/

theorem positions_eq_filter (columns : List WriteColumn) (keep : String → Bool) :
    positions columns keep =
      (List.range columns.length).filter fun i => columns[i]?.any fun c => keep c.name := by
  induction columns using List.reverseRecOn with
  | nil => rfl
  | append_singleton columns c ih =>
    have hinit : (List.range columns.length).filter
        (fun i => (columns ++ [c])[i]?.any fun c => keep c.name) = positions columns keep := by
      rw [ih]
      refine List.filter_congr fun i hi => ?_
      rw [List.getElem?_append_left (List.mem_range.mp hi)]
    rw [List.length_append, List.length_singleton, List.range_succ, List.filter_append, hinit]
    simp only [positions, List.zipIdx_append, List.filter_append, List.map_append]
    refine congrArg _ ?_
    cases hkeep : keep c.name with
    | true => simp [hkeep]
    | false => simp [hkeep]

variable {columns : List WriteColumn}

theorem mem_positions {keep : String → Bool} {i : Nat} :
    i ∈ positions columns keep ↔ ∃ c, columns[i]? = some c ∧ keep c.name = true := by
  rw [positions_eq_filter, List.mem_filter, List.mem_range, Option.any_eq_true]
  refine ⟨fun h => h.2, fun ⟨c, hc, hkeep⟩ => ⟨?_, c, hc, hkeep⟩⟩
  exact (List.getElem?_eq_some_iff.mp hc).1

theorem positions_eq_nil {keep : String → Bool} :
    positions columns keep = [] ↔ ∀ c ∈ columns, keep c.name = false := by
  rw [List.eq_nil_iff_forall_not_mem]
  constructor
  · intro h c hc
    obtain ⟨i, hi⟩ := List.mem_iff_getElem?.mp hc
    by_contra hkeep
    exact h i (mem_positions.mpr ⟨c, hi, by simpa using hkeep⟩)
  · rintro h i hi
    obtain ⟨c, hc, hkeep⟩ := mem_positions.mp hi
    rw [h c (List.mem_of_getElem? hc)] at hkeep
    cases hkeep

theorem testBit_bitmapOf (indices : List Nat) (b : Nat) :
    (bitmapOf indices).testBit b = indices.contains b := by
  suffices hfold : ∀ acc, (indices.foldl (fun bitmap idx => bitmap ||| 1 <<< idx) acc).testBit b =
      (acc.testBit b || indices.contains b) by
    rw [bitmapOf, hfold, Nat.zero_testBit, Bool.false_or]
  induction indices with
  | nil => simp
  | cons idx indices ih =>
    intro acc
    rw [List.foldl_cons, ih, Nat.testBit_or, Nat.one_shiftLeft, Nat.testBit_two_pow, Bool.or_assoc,
      List.contains_cons]
    refine congrArg _ (congrArg (· || _) (Bool.eq_iff_iff.mpr ?_))
    rw [decide_eq_true_iff, beq_iff_eq]
    exact eq_comm

/-- The number in front of a subset. -/
def subsetNumber (columns : List WriteColumn) (present : List String) : Nat :=
  let missingIndices := positions columns fun name => !present.contains name
  if missingIndices.isEmpty then 0
  else if columns.length < 64 then bitmapOf missingIndices
  else columns.length - (positions columns present.contains).length

/-- The positions behind it, which only a table of 64 columns or more has. -/
def subsetIndices (columns : List WriteColumn) (present : List String) : Bytes :=
  let presentIndices := positions columns present.contains
  let missingIndices := positions columns fun name => !present.contains name
  if missingIndices.isEmpty ∨ columns.length < 64 then []
  else if presentIndices.length < columns.length / 2 then presentIndices.flatMap encodeUnsigned
  else missingIndices.flatMap encodeUnsigned

theorem writeColumnSubset_eq (columns : List WriteColumn) (present : List String) :
    writeColumnSubset columns present =
      encodeUnsigned (subsetNumber columns present) ++ subsetIndices columns present := by
  rw [writeColumnSubset, subsetNumber, subsetIndices]
  split
  next h => rw [if_pos (Or.inl h), List.append_nil]
  next h =>
    split
    next hcount => rw [if_pos (Or.inr hcount), List.append_nil]
    next hcount => rw [if_neg (not_or.mpr ⟨h, hcount⟩)]

theorem subsetNumber_lt {present : List String} (hcount : columns.length < 2 ^ 64) :
    subsetNumber columns present < 2 ^ 64 := by
  rw [subsetNumber]
  split
  · decide
  · split
    next hsmall =>
      refine Nat.lt_pow_two_of_testBit _ fun b hb => ?_
      rw [testBit_bitmapOf, Bool.eq_false_iff, ne_eq, List.contains_iff_mem]
      intro hmem
      obtain ⟨c, hc, -⟩ := mem_positions.mp hmem
      have hlt := (List.getElem?_eq_some_iff.mp hc).1
      omega
    · omega

/-! ### The header -/

/-- The reader of a file this writer wrote. -/
def DataSchema.reader (schema : DataSchema) (base : Baselines) (uint : Bool) : ReadSchema where
  base := base
  hasUintDeletionTime := uint
  clusteringTypes := schema.clusteringTypes
  regularColumns := schema.regularColumns.length
  staticColumns := (schema.columns.filter (·.isStatic)).length

theorem DataSchema.reader_clusteringTypes (schema : DataSchema) (base : Baselines) (uint : Bool) :
    (schema.reader base uint).clusteringTypes = schema.clusteringTypes := rfl

namespace RowWrite

variable (schema : DataSchema) (uint : Bool) (nowSeconds : Int) (row : RowWrite)

def hasAllColumns : Bool := (row.flags schema.toWriteSchema).hasAllColumns

/-- The TTL a row is written with: only one with a timestamp has it. -/
def writtenTtl : Option Int := row.livenessTs.bind fun _ => row.ttlSeconds

/-- The header the reader finds in front of the cells. -/
def header : RowHeaderFields where
  timestamp := row.livenessTs
  ttl := row.writtenTtl.map asI32
  livenessExpiresAtSeconds := row.writtenTtl.map fun ttl =>
    shownExpiry uint (expiringLocalDeletionTime nowSeconds ttl)
  markedForDeleteAt := row.rowDeletion.map (·.1)
  localDeletionTime := row.rowDeletion.map (·.2)
  missingColumnsBitmap :=
    if row.hasAllColumns schema then none
    else some (subsetNumber schema.regularColumns row.presentColumns)

/-- The bytes of the subset that the reader takes for cells. -/
def strayBytes : Bytes :=
  if row.hasAllColumns schema then []
  else subsetIndices schema.regularColumns row.presentColumns

end RowWrite

section Fields

variable {base : Baselines} {uint : Bool} {nowSeconds : Int} {schema : DataSchema} {row : RowWrite}

theorem readField_liveness (hrange : row.InRange) (rest : Bytes) :
    readField (flag 0x04 (row.flags schema.toWriteSchema).toByte)
      (readTimestamp (schema.reader base uint)) (livenessBytes base row ++ rest) =
      some (row.livenessTs, rest) := by
  rw [RowFlags.flag_timestamp, livenessBytes, readField, RowWrite.flags]
  cases hts : row.livenessTs with
  | none => rfl
  | some ts =>
    obtain ⟨hlow, hhigh⟩ := hrange.liveness ts hts
    exact congrArg (Option.map fun p => (some p.1, p.2))
      (@readTimestamp_delta (schema.reader base uint) ts hlow hhigh rest)

theorem readField_ttl (hbase : base.InRange) (hrange : row.InRange) {bytes : Bytes}
    (hok : ttlBytes base nowSeconds row = .ok bytes) (rest : Bytes) :
    readField (flag 0x08 (row.flags schema.toWriteSchema).toByte)
      (readTtl (schema.reader base uint)) (bytes ++ rest) =
      some (row.writtenTtl.map fun ttl =>
        (asI32 ttl, shownExpiry uint (expiringLocalDeletionTime nowSeconds ttl)), rest) := by
  rw [RowFlags.flag_ttl, readField, RowWrite.flags, RowWrite.writtenTtl]
  rw [ttlBytes] at hok
  cases hts : row.livenessTs with
  | none =>
    rw [hts] at hok
    obtain rfl := Except.ok.inj hok
    rfl
  | some ts =>
    cases httl : row.ttlSeconds with
    | none =>
      rw [hts, httl] at hok
      obtain rfl := Except.ok.inj hok
      rfl
    | some ttl =>
      simp only [hts, httl] at hok
      split at hok
      · cases hok
      · split at hok
        · cases hok
        · obtain rfl := Except.ok.inj hok
          obtain ⟨hlow, hhigh⟩ := expiringLocalDeletionTime_range nowSeconds ttl
          exact congrArg (Option.map fun p => (some p.1, p.2))
            (@readTtl_deltas (schema.reader base uint) ttl _ hbase (hrange.ttl ttl httl).2 hlow hhigh
              (show base.minTtl ≤ ttl by omega) (show base.minLocalDeletionTime ≤ _ by omega) rest)

theorem readField_deletion (hrange : row.InRange) {bytes : Bytes}
    (hok : deletionBytes base row = .ok bytes) (rest : Bytes) :
    readField (flag 0x10 (row.flags schema.toWriteSchema).toByte)
      (readDeletion (schema.reader base uint)) (bytes ++ rest) = some (row.rowDeletion, rest) := by
  rw [RowFlags.flag_deletion, readField, RowWrite.flags]
  rw [deletionBytes] at hok
  cases hdel : row.rowDeletion with
  | none =>
    rw [hdel] at hok
    obtain rfl := Except.ok.inj hok
    rfl
  | some deletion =>
    obtain ⟨ts, ldt⟩ := deletion
    simp only [hdel] at hok
    split at hok
    · cases hok
    · obtain rfl := Except.ok.inj hok
      obtain ⟨hts, hldt⟩ := hrange.deletion ts ldt hdel
      exact congrArg (Option.map fun p => (some p.1, p.2))
        (@readDeletion_deltas (schema.reader base uint) ts ldt hts hldt rest)

theorem readField_subset (hcount : schema.regularColumns.length < 2 ^ 64) (rest : Bytes) :
    readField (!flag 0x20 (row.flags schema.toWriteSchema).toByte) decodeUnsigned
      (subsetBytes schema row ++ rest) =
      some ((row.header schema uint nowSeconds).missingColumnsBitmap,
        row.strayBytes schema ++ rest) := by
  rw [RowFlags.flag_allColumns, readField, subsetBytes, RowWrite.header, RowWrite.strayBytes,
    RowWrite.hasAllColumns]
  cases hall : (row.flags schema.toWriteSchema).hasAllColumns with
  | true => rfl
  | false =>
    simp only [Bool.not_false, if_true, Bool.false_eq_true, if_false]
    rw [writeColumnSubset_eq, List.append_assoc, decodeUnsigned_encodeUnsigned (subsetNumber_lt hcount)]
    rfl

/-- All fields are read as they were written, but the bytes behind the number of a subset. -/
theorem parseRowFields_write (hbase : base.InRange) (hrange : row.InRange)
    (hcount : schema.regularColumns.length < 2 ^ 64) {ttl deletion : Bytes}
    (httl : ttlBytes base nowSeconds row = .ok ttl) (hdel : deletionBytes base row = .ok deletion)
    (rest : Bytes) :
    parseRowFields (schema.reader base uint) (row.flags schema.toWriteSchema).toByte
      (livenessBytes base row ++ ttl ++ deletion ++ subsetBytes schema row ++ rest) =
      some (row.header schema uint nowSeconds, row.strayBytes schema ++ rest) := by
  rw [parseRowFields, List.append_assoc, List.append_assoc, List.append_assoc,
    readField_liveness hrange, Option.bind_some, readField_ttl hbase hrange httl, Option.bind_some,
    readField_deletion hrange hdel, Option.bind_some,
    @readField_subset uint nowSeconds schema row hcount rest, Option.map_some]
  simp only [RowWrite.header, Option.map_map]
  rfl

end Fields

/-! ### The columns that are read -/

section Columns

variable {columns : List WriteColumn} {present : List String}

/-- Every regular column has a cell. -/
abbrev AllPresent (columns : List WriteColumn) (present : List String) : Prop :=
  ∀ c ∈ columns, present.contains c.name = true

/-- No regular column has a cell. -/
abbrev NonePresent (columns : List WriteColumn) (present : List String) : Prop :=
  ∀ c ∈ columns, present.contains c.name = false

theorem missing_eq_nil :
    (positions columns fun name => !present.contains name) = [] ↔ AllPresent columns present := by
  rw [positions_eq_nil]
  simp only [Bool.not_eq_false']

theorem positions_of_allPresent (h : AllPresent columns present) :
    positions columns present.contains = List.range columns.length := by
  rw [positions_eq_filter, List.filter_eq_self]
  intro i hi
  obtain ⟨c, hc⟩ : ∃ c, columns[i]? = some c := ⟨_, List.getElem?_eq_getElem (List.mem_range.mp hi)⟩
  rw [Option.any_eq_true]
  exact ⟨c, hc, h c (List.mem_of_getElem? hc)⟩

theorem allPresent_of_positions
    (h : positions columns present.contains = List.range columns.length) :
    AllPresent columns present := by
  intro c hc
  obtain ⟨i, hi⟩ := List.mem_iff_getElem?.mp hc
  have hmem : i ∈ positions columns present.contains :=
    h ▸ List.mem_range.mpr (List.getElem?_eq_some_iff.mp hi).1
  obtain ⟨c', hc', hpresent⟩ := mem_positions.mp hmem
  rw [hi] at hc'
  exact Option.some.inj hc' ▸ hpresent

theorem testBit_subsetNumber (hcount : columns.length < 64) (i : Nat) :
    (subsetNumber columns present).testBit i =
      (positions columns fun name => !present.contains name).contains i := by
  rw [subsetNumber]
  split
  next h => rw [List.isEmpty_iff.mp h, Nat.zero_testBit, List.contains_nil]
  next h => rw [testBit_bitmapOf]

theorem subsetIndices_eq_nil (h : columns.length < 64 ∨ AllPresent columns present) :
    subsetIndices columns present = [] := by
  rw [subsetIndices]
  refine if_pos ?_
  rw [List.isEmpty_iff, missing_eq_nil]
  exact h.symm

/-- From 64 columns on, a subset without positions is full or empty. -/
theorem nonePresent_of_subsetIndices (hcount : ¬columns.length < 64)
    (hmissing : ¬AllPresent columns present) (h : subsetIndices columns present = []) :
    NonePresent columns present := by
  have hne : ¬((positions columns fun name => !present.contains name).isEmpty ∨ columns.length < 64) := by
    rw [List.isEmpty_iff, missing_eq_nil]
    exact not_or.mpr ⟨hmissing, hcount⟩
  have hnil : ∀ indices : List Nat, indices.flatMap encodeUnsigned = [] → indices = [] := by
    intro indices h
    cases indices with
    | nil => rfl
    | cons idx indices => exact absurd (List.append_eq_nil_iff.mp h).1 (encodeUnsigned_ne_nil idx)
  rw [subsetIndices, if_neg hne] at h
  split at h
  · exact positions_eq_nil.mp (hnil _ h)
  · exact absurd (missing_eq_nil.mp (hnil _ h)) hmissing

theorem subsetIndices_of_nonePresent (h : NonePresent columns present) :
    subsetIndices columns present = [] := by
  have hpresent : positions columns present.contains = [] := positions_eq_nil.mpr h
  rw [subsetIndices]
  split
  · rfl
  next hne =>
    rw [hpresent, List.length_nil, if_pos, List.flatMap_nil]
    rw [not_or] at hne
    omega

end Columns

/-- The columns the loop goes over. -/
def RowWrite.readColumns (schema : DataSchema) (uint : Bool) (nowSeconds : Int) (row : RowWrite)
    (cells : Bytes) : List Nat :=
  if row.rowDeletion.isSome ∧ row.strayBytes schema ++ cells = [] then []
  else (row.header schema uint nowSeconds).columns schema.regularColumns.length

/-- The subsets the reader understands. -/
def RowWrite.ColumnsReadable (schema : DataSchema) (row : RowWrite) : Prop :=
  if row.hasAllColumns schema then AllPresent schema.regularColumns row.presentColumns
  else schema.regularColumns.length < 64 ∨ AllPresent schema.regularColumns row.presentColumns ∨
    (row.rowDeletion.isSome ∧ NonePresent schema.regularColumns row.presentColumns)

section ReadColumns

variable {uint : Bool} {nowSeconds : Int} {schema : DataSchema} {row : RowWrite}
variable {cellBytes : RowWrite → WriteColumn → Except Error (UInt8 × Bytes)} {cells : Bytes}

theorem cells_eq_nil (hok : writeMergedCells cellBytes schema row = .ok cells) :
    cells = [] ↔ positions schema.regularColumns row.presentColumns.contains = [] := by
  obtain ⟨written, hwritten, hok⟩ := bind_eq_ok.mp hok
  obtain rfl := Except.ok.inj hok
  rw [positions_eq_nil, List.flatMap_eq_nil_iff]
  constructor
  · intro h c hc
    by_contra hpresent
    have hmem : c ∈ schema.regularColumns.filter fun c => row.presentColumns.contains c.name :=
      List.mem_filter.mpr ⟨hc, by simpa using hpresent⟩
    cases hfilter : schema.regularColumns.filter fun c => row.presentColumns.contains c.name with
    | nil => rw [hfilter] at hmem; cases hmem
    | cons c' columns =>
      rw [hfilter, List.mapM_cons] at hwritten
      obtain ⟨cell, -, hwritten⟩ := bind_eq_ok.mp hwritten
      obtain ⟨others, -, hwritten⟩ := bind_eq_ok.mp hwritten
      obtain rfl := Except.ok.inj hwritten
      exact absurd (h cell List.mem_cons_self) (List.cons_ne_nil _ _)
  · intro h
    have hfilter : (schema.regularColumns.filter fun c => row.presentColumns.contains c.name) = [] :=
      List.filter_eq_nil_iff.mpr fun c hc => by rw [h c hc]; decide
    rw [hfilter] at hwritten
    obtain rfl := Except.ok.inj hwritten
    simp

theorem isNone_of_hasAllColumns (h : row.hasAllColumns schema = true) : row.rowDeletion.isSome = false := by
  simp only [RowWrite.hasAllColumns, RowWrite.flags, Bool.and_eq_true] at h
  simpa using h.1.1.1

theorem header_columns (hcount : schema.regularColumns.length < 64 ∨
      AllPresent schema.regularColumns row.presentColumns) (hall : row.hasAllColumns schema = false) :
    (row.header schema uint nowSeconds).columns schema.regularColumns.length =
      positions schema.regularColumns row.presentColumns.contains := by
  rw [RowHeaderFields.columns, positions_eq_filter]
  refine List.filter_congr fun i hi => ?_
  obtain ⟨c, hc⟩ : ∃ c, schema.regularColumns[i]? = some c :=
    ⟨_, List.getElem?_eq_getElem (List.mem_range.mp hi)⟩
  simp only [RowHeaderFields.isPresent, RowWrite.header, hall, Bool.false_eq_true, if_false, hc,
    Option.any_some]
  rcases hcount with hcount | hpresent
  · rw [testBit_subsetNumber hcount, decide_eq_false (by have := List.mem_range.mp hi; omega),
      Bool.false_or]
    rw [Bool.eq_iff_iff, Bool.not_eq_true', List.contains_eq_mem, decide_eq_false_iff_not,
      mem_positions]
    simp [hc]
  · rw [subsetNumber, if_pos (List.isEmpty_iff.mpr (missing_eq_nil.mpr hpresent)), Nat.zero_testBit,
      Bool.not_false, Bool.or_true, hpresent c (List.mem_of_getElem? hc)]

/-- The loop goes over the written columns, from their first byte on, exactly for the readable
    subsets. -/
theorem columnsReadable_iff (hok : writeMergedCells cellBytes schema row = .ok cells) :
    row.ColumnsReadable schema ↔ row.readColumns schema uint nowSeconds cells =
      positions schema.regularColumns row.presentColumns.contains ∧ row.strayBytes schema = [] := by
  rw [RowWrite.ColumnsReadable, RowWrite.readColumns, RowWrite.strayBytes]
  cases hall : row.hasAllColumns schema with
  | true =>
    have hcolumns : (row.header schema uint nowSeconds).columns schema.regularColumns.length =
        List.range schema.regularColumns.length := by
      rw [RowHeaderFields.columns, List.filter_eq_self]
      intro i _
      simp [RowHeaderFields.isPresent, RowWrite.header, hall]
    rw [if_pos rfl, if_pos rfl, if_neg (by simp [isNone_of_hasAllColumns hall]), hcolumns]
    exact ⟨fun h => ⟨(positions_of_allPresent h).symm, rfl⟩,
      fun h => allPresent_of_positions h.1.symm⟩
  | false =>
    simp only [Bool.false_eq_true, if_false]
    constructor
    · intro h
      rcases or_assoc.mpr h with hbitmap | ⟨hdel, hnone⟩
      · rw [subsetIndices_eq_nil hbitmap, List.nil_append]
        split
        next hpure => exact ⟨((cells_eq_nil hok).mp hpure.2).symm, rfl⟩
        · exact ⟨header_columns hbitmap hall, rfl⟩
      · have hnil := positions_eq_nil.mpr hnone
        rw [subsetIndices_of_nonePresent hnone, List.nil_append,
          if_pos ⟨hdel, (cells_eq_nil hok).mpr hnil⟩, hnil]
        exact ⟨rfl, rfl⟩
    · rintro ⟨hcolumns, hstray⟩
      by_cases hcount : schema.regularColumns.length < 64
      · exact Or.inl hcount
      by_cases hpresent : AllPresent schema.regularColumns row.presentColumns
      · exact Or.inr (Or.inl hpresent)
      have hnone := nonePresent_of_subsetIndices hcount hpresent hstray
      have hnil := positions_eq_nil.mpr hnone
      refine Or.inr (Or.inr ⟨?_, hnone⟩)
      by_contra hdel
      -- the number is the count of all columns, and no count has all its own bits set
      rw [if_neg (fun h => hdel h.1), hnil, RowHeaderFields.columns, List.filter_eq_nil_iff] at hcolumns
      have hnumber : subsetNumber schema.regularColumns row.presentColumns =
          schema.regularColumns.length := by
        rw [subsetNumber, if_neg (by rwa [List.isEmpty_iff, missing_eq_nil]), if_neg hcount, hnil]
        rfl
      by_cases hmore : 64 < schema.regularColumns.length
      · have h64 := hcolumns 64 (List.mem_range.mpr hmore)
        simp [RowHeaderFields.isPresent, RowWrite.header, hall] at h64
      · have hexact : schema.regularColumns.length = 64 := by omega
        have hzero := hcolumns 0 (List.mem_range.mpr (by omega))
        rw [hexact] at hnumber
        simp [RowHeaderFields.isPresent, RowWrite.header, hall, hnumber] at hzero

end ReadColumns

/-! ### The row -/

namespace RowWrite

def keyValues (row : RowWrite) : List Value := (row.clusteringKey.map ClusteringKey.values).getD []

/-- The keys the reader understands; a row has one exactly when the table has clustering columns. -/
def KeyReadable (schema : DataSchema) (row : RowWrite) : Prop :=
  match row.clusteringKey with
  | none => schema.clusteringTypes = []
  | some key => schema.clusteringTypes ≠ [] ∧ PrefixReadable schema.clusteringTypes key.values

/-- The rows the reader gives back as they were written. -/
structure Readable (schema : DataSchema) (row : RowWrite) : Prop where
  key : row.KeyReadable schema
  ttl : ∀ ttl, row.ttlSeconds = some ttl → ttl < 2 ^ 31
  columns : row.ColumnsReadable schema

/-- A row was read as it was written, in front of `rest`. -/
structure ReadsBack {C : Type} (schema : DataSchema) (uint : Bool) (nowSeconds : Int)
    (row : RowWrite) (cells rest : Bytes) (read : RowRead C) : Prop where
  flags : read.flags = (row.flags schema.toWriteSchema).toByte
  clustering : read.clustering = row.keyValues
  timestamp : read.header.timestamp = row.livenessTs
  ttl : read.header.ttl = row.ttlSeconds
  expires : read.header.livenessExpiresAtSeconds = row.ttlSeconds.map fun ttl =>
    shownExpiry uint (expiringLocalDeletionTime nowSeconds ttl)
  markedForDeleteAt : read.header.markedForDeleteAt = row.rowDeletion.map (·.1)
  localDeletionTime : read.header.localDeletionTime = row.rowDeletion.map (·.2)
  columns : read.columns = positions schema.regularColumns row.presentColumns.contains
  cellData : read.cellData = cells ++ rest
  rest : read.rest = rest

end RowWrite

section Row

variable {base : Baselines} {uint : Bool} {nowSeconds : Int} {schema : DataSchema} {row : RowWrite}
variable {codec : ValueCodec} {cellBytes : RowWrite → WriteColumn → Except Error (UInt8 × Bytes)}
variable {C : Type} {parseCell : RowStart → Nat → Bytes → Option (C × Bytes)}
variable {body cells : Bytes} {prevSize : UInt64}

theorem length_strayBytes_le : (row.strayBytes schema).length ≤ (subsetBytes schema row).length := by
  rw [RowWrite.strayBytes, subsetBytes, RowWrite.hasAllColumns]
  split
  · exact le_rfl
  · rw [writeColumnSubset_eq, List.length_append]
    exact Nat.le_add_left _ _

/-- What `parse_row_metadata` finds of a written row. -/
def RowWrite.metadata (schema : DataSchema) (uint : Bool) (nowSeconds : Int) (row : RowWrite)
    (prevSize : UInt64) (body cells rest : Bytes) : RowMetadata where
  header := row.header schema uint nowSeconds
  rowSize := unsignedLen prevSize.toNat + body.length
  body := encodeUnsigned prevSize.toNat ++ body ++ rest
  cellData := row.strayBytes schema ++ cells ++ rest

theorem parseRowMetadata_write (hbase : base.InRange) (hrange : row.InRange)
    (hcount : schema.regularColumns.length < 2 ^ 64)
    (hok : buildMergedRowBody base nowSeconds cellBytes schema row = .ok body)
    (hcells : writeMergedCells cellBytes schema row = .ok cells)
    (hfit : unsignedLen prevSize.toNat + body.length < 2 ^ 64) (rest : Bytes) :
    parseRowMetadata (schema.reader base uint) (row.flags schema.toWriteSchema).toByte
      (encodeUnsigned (unsignedLen prevSize.toNat + body.length) ++
        (encodeUnsigned prevSize.toNat ++ body ++ rest)) =
      some (row.metadata schema uint nowSeconds prevSize body cells rest) := by
  obtain ⟨ttl, httl, hok⟩ := bind_eq_ok.mp hok
  obtain ⟨deletion, hdel, hok⟩ := bind_eq_ok.mp hok
  obtain ⟨cells', hcells', hok⟩ := bind_eq_ok.mp hok
  rw [hcells] at hcells'
  obtain rfl := Except.ok.inj hcells'
  obtain rfl := Except.ok.inj hok
  rw [parseRowMetadata, decodeUnsigned_encodeUnsigned hfit, Option.bind_some]
  simp only []
  rw [List.append_assoc (encodeUnsigned _) _ rest,
    decodeUnsigned_encodeUnsigned (UInt64.toNat_lt prevSize), Option.bind_some]
  simp only []
  rw [List.append_assoc _ cells rest, @parseRowFields_write base uint nowSeconds schema row hbase
    hrange hcount ttl deletion httl hdel, Option.map_some]
  simp only [RowWrite.metadata, List.append_assoc]

theorem isPureTombstone_iff (hok : buildMergedRowBody base nowSeconds cellBytes schema row = .ok body)
    (hcells : writeMergedCells cellBytes schema row = .ok cells) (rest : Bytes) :
    (row.metadata schema uint nowSeconds prevSize body cells rest).isPureTombstone = true ↔
      row.rowDeletion.isSome ∧ row.strayBytes schema ++ cells = [] := by
  obtain ⟨ttl, httl, hok⟩ := bind_eq_ok.mp hok
  obtain ⟨deletion, hdel, hok⟩ := bind_eq_ok.mp hok
  obtain ⟨cells', hcells', hok⟩ := bind_eq_ok.mp hok
  rw [hcells] at hcells'
  obtain rfl := Except.ok.inj hcells'
  obtain rfl := Except.ok.inj hok
  have hstray := @length_strayBytes_le schema row
  rw [RowMetadata.isPureTombstone, Bool.and_eq_true, decide_eq_true_iff, ← List.length_eq_zero_iff]
  simp only [RowWrite.metadata, RowWrite.header, Option.isSome_map, List.length_append,
    length_encodeUnsigned]
  refine and_congr Iff.rfl ?_
  omega

/-- The body reads back. -/
theorem finishRow_write (hok : buildMergedRowBody base nowSeconds cellBytes schema row = .ok body)
    (hcells : writeMergedCells cellBytes schema row = .ok cells) (flags : UInt8)
    (clustering : List Value) (rest : Bytes) :
    finishRow (schema.reader base uint) parseCell
      ⟨flags, false, clustering, row.header schema uint nowSeconds⟩
      (row.metadata schema uint nowSeconds prevSize body cells rest) =
      some {
        flags := flags
        isStatic := false
        clustering := clustering
        header := row.header schema uint nowSeconds
        columns := row.readColumns schema uint nowSeconds cells
        cellData := row.strayBytes schema ++ cells ++ rest
        cells := columnLoop
          (parseCell ⟨flags, false, clustering, row.header schema uint nowSeconds⟩)
          (row.readColumns schema uint nowSeconds cells) (row.strayBytes schema ++ cells ++ rest)
        rest := rest } := by
  have hcolumns : (if (row.metadata schema uint nowSeconds prevSize body cells rest).isPureTombstone
      then [] else (row.header schema uint nowSeconds).columns schema.regularColumns.length) =
      row.readColumns schema uint nowSeconds cells := by
    rw [RowWrite.readColumns]
    exact if_congr (isPureTombstone_iff hok hcells rest) rfl rfl
  have hlen : (encodeUnsigned prevSize.toNat ++ body).length =
      unsignedLen prevSize.toNat + body.length := by
    rw [List.length_append, length_encodeUnsigned]
  have hrest : (row.metadata schema uint nowSeconds prevSize body cells rest).body.drop
      (row.metadata schema uint nowSeconds prevSize body cells rest).rowSize = rest :=
    List.drop_left' hlen
  rw [finishRow, if_neg]
  · have hcount : (schema.reader base uint).columnCount false = schema.regularColumns.length := rfl
    simp only [hrest, hcount, hcolumns]
    rfl
  · simp only [RowWrite.metadata, List.length_append, length_encodeUnsigned]
    omega

theorem parseRowData_cons {rs : ReadSchema} {flags : UInt8} (hflag : flag 0x80 flags = false)
    (data : Bytes) :
    parseRowData rs parseCell (flags :: data) =
      (parseClusteringPrefix rs.clusteringTypes data).bind fun p =>
        (parseRowMetadata rs flags p.2).bind fun metadata =>
          finishRow rs parseCell ⟨flags, false, p.1, metadata.header⟩ metadata := by
  have hflags : parseRowFlags (flags :: data) = some (flags, none, data) := by
    simp [parseRowFlags, hflag]
  rw [parseRowData, hflags]
  rfl

theorem length_parseClusteringPrefix {types : List String} {data rest : Bytes} {values : List Value}
    (h : parseClusteringPrefix types data = some (values, rest)) : values.length = types.length := by
  have hcolumns : ∀ (columns : List (String × Nat)) (header : Nat) {data rest : Bytes}
      {values : List Value}, parseClusteringColumns header columns data = some (values, rest) →
      values.length = columns.length := by
    intro columns header
    induction columns with
    | nil =>
      intro data rest values h
      obtain ⟨rfl, -⟩ := Prod.ext_iff.mp (Option.some.inj h)
      rfl
    | cons column columns ih =>
      intro data rest values h
      rw [parseClusteringColumns] at h
      obtain ⟨p, -, h⟩ := Option.bind_eq_some_iff.mp h
      obtain ⟨q, hq, h⟩ := Option.map_eq_some_iff.mp h
      obtain ⟨rfl, -⟩ := Prod.ext_iff.mp h
      rw [List.length_cons, List.length_cons, ih hq]
  rw [parseClusteringPrefix] at h
  split at h
  next hnil =>
    obtain ⟨rfl, -⟩ := Prod.ext_iff.mp (Option.some.inj h)
    rw [List.isEmpty_iff.mp hnil]
    rfl
  · obtain ⟨p, -, h⟩ := Option.bind_eq_some_iff.mp h
    rw [hcolumns _ _ h, List.length_zipIdx]

theorem parseClusteringPrefix_row {clustering : Bytes}
    (hok : rowPrefixBytes codec schema row = .ok clustering) (hkey : row.KeyReadable schema)
    (hrange : row.InRange) (hfit : clustering.length < 2 ^ 64) (rest : Bytes) :
    parseClusteringPrefix schema.clusteringTypes (clustering ++ rest) = some (row.keyValues, rest) := by
  rw [rowPrefixBytes] at hok
  rw [RowWrite.KeyReadable] at hkey
  rw [RowWrite.keyValues]
  cases hck : row.clusteringKey with
  | none =>
    rw [hck] at hok hkey
    obtain rfl := Except.ok.inj hok
    rw [parseClusteringPrefix, hkey]
    rfl
  | some key =>
    rw [hck] at hok hkey
    exact parseClusteringPrefix_write hok hkey.1 hkey.2 (hrange.key key hck) hfit rest

/-- A key that is read back in a row that ends where it ends is readable. -/
theorem keyReadable_of_read {clustering tail rest : Bytes} {read : RowRead C} {flags : UInt8}
    (hflag : flag 0x80 flags = false) (hok : rowPrefixBytes codec schema row = .ok clustering)
    (htail : 2 ≤ tail.length)
    (h : parseRowData (schema.reader base uint) parseCell (flags :: (clustering ++ tail ++ rest)) =
      some read)
    (hclustering : read.clustering = row.keyValues) (hrest : read.rest = rest) :
    row.KeyReadable schema := by
  rw [parseRowData_cons hflag] at h
  obtain ⟨⟨values, data⟩, hvalues, h⟩ := Option.bind_eq_some_iff.mp h
  rw [DataSchema.reader_clusteringTypes] at hvalues
  obtain ⟨metadata, hmeta, h⟩ := Option.bind_eq_some_iff.mp h
  rw [finishRow] at h
  split at h
  · cases h
  obtain rfl := Option.some.inj h
  obtain rfl : values = row.keyValues := hclustering
  rw [rowPrefixBytes] at hok
  rw [RowWrite.KeyReadable]
  have hlen := length_parseClusteringPrefix hvalues
  cases hck : row.clusteringKey with
  | none =>
    rw [RowWrite.keyValues, hck] at hlen
    exact List.length_eq_zero_iff.mp hlen.symm
  | some key =>
    have hkey : row.keyValues = key.values := by rw [RowWrite.keyValues, hck]; rfl
    replace hok : writeClusteringPrefix codec schema.clusteringTypes key.values = .ok clustering := by
      rw [hck] at hok
      exact hok
    rw [hkey] at hvalues hlen
    by_cases hne : schema.clusteringTypes = []
    · -- without clustering columns the empty header is taken for the size of the row
      exfalso
      have hnil : key.values = [] := List.length_eq_zero_iff.mp (by rw [hlen, hne]; rfl)
      rw [hne, hnil] at hok
      obtain rfl : [0] = clustering := Except.ok.inj hok
      rw [hne] at hvalues
      obtain ⟨-, rfl⟩ := Prod.ext_iff.mp (Option.some.inj hvalues)
      rw [parseRowMetadata] at hmeta
      obtain ⟨size, hsize, hmeta⟩ := Option.bind_eq_some_iff.mp hmeta
      obtain ⟨prev, -, hmeta⟩ := Option.bind_eq_some_iff.mp hmeta
      obtain ⟨fields, -, rfl⟩ := Option.map_eq_some_iff.mp hmeta
      have hzero : decodeUnsigned (0 :: (tail ++ rest)) = some (0, tail ++ rest) :=
        decodeUnsigned_encodeUnsigned (show 0 < 2 ^ 64 by decide) (tail ++ rest)
      obtain rfl : (0, tail ++ rest) = size := Option.some.inj (hzero.symm.trans hsize)
      have hsame : tail ++ rest = rest := hrest
      have := congrArg List.length hsame
      rw [List.length_append] at this
      omega
    · rw [List.append_assoc] at hvalues
      exact ⟨hne, prefixReadable_of_parse hok hne hvalues⟩

/-- A row reads back. -/
theorem parseRowData_write (hbase : base.InRange) (hrange : row.InRange)
    (hcount : schema.regularColumns.length < 2 ^ 64) {clustering : Bytes}
    (hclustering : rowPrefixBytes codec schema row = .ok clustering)
    (hok : buildMergedRowBody base nowSeconds cellBytes schema row = .ok body)
    (hcells : writeMergedCells cellBytes schema row = .ok cells)
    (hkey : row.KeyReadable schema) (hfit : clustering.length + body.length < 2 ^ 63)
    (rest : Bytes) :
    ∃ read, parseRowData (schema.reader base uint) parseCell
        ((row.flags schema.toWriteSchema).toByte :: clustering ++
          encodeUnsigned (unsignedLen prevSize.toNat + body.length) ++
          encodeUnsigned prevSize.toNat ++ body ++ rest) = some read ∧
      read.flags = (row.flags schema.toWriteSchema).toByte ∧ read.clustering = row.keyValues ∧
      read.header = row.header schema uint nowSeconds ∧
      read.columns = row.readColumns schema uint nowSeconds cells ∧
      read.cellData = row.strayBytes schema ++ cells ++ rest ∧ read.rest = rest := by
  have hsize : unsignedLen prevSize.toNat + body.length < 2 ^ 64 := by
    rw [unsignedLen]
    omega
  have hmeta := @parseRowMetadata_write base uint nowSeconds schema row cellBytes body cells prevSize
    hbase hrange hcount hok hcells hsize rest
  have hfinish := @finishRow_write base uint nowSeconds schema row cellBytes C parseCell body cells
    prevSize hok hcells (row.flags schema.toWriteSchema).toByte row.keyValues rest
  refine ⟨_, Eq.trans ?_ hfinish, rfl, rfl, rfl, rfl, rfl, rfl⟩
  simp only [List.cons_append, List.append_assoc] at hmeta ⊢
  rw [parseRowData_cons (RowFlags.flag_extended _), DataSchema.reader_clusteringTypes,
    parseClusteringPrefix_row hclustering hkey hrange (by omega), Option.bind_some, hmeta,
    Option.bind_some]
  rfl

theorem writtenTtl_of_merged {skipStaticOps : Bool} {shadowFloor : Option Int}
    {group : List Mutation}
    (h : mergeRowGroup schema.toWriteSchema skipStaticOps shadowFloor group = some row) :
    row.writtenTtl = row.ttlSeconds := by
  simp only [mergeRowGroup] at h
  split at h
  · cases h
  · obtain rfl := Option.some.inj h
    simp only [RowWrite.writtenTtl]
    cases Lww.latest Liveness.replaces _ with
    | none => rfl
    | some live => rfl

theorem asI32_eq_self_iff {ttl : Int} (hlow : 0 ≤ ttl) (hhigh : ttl < 2 ^ 32) :
    asI32 ttl = ttl ↔ ttl < 2 ^ 31 := by
  rw [asI32]
  omega

theorem map_asI32_eq_self {ttl : Option Int} (hrange : ∀ t, ttl = some t → 0 ≤ t ∧ t < 2 ^ 32) :
    ttl.map asI32 = ttl ↔ ∀ t, ttl = some t → t < 2 ^ 31 := by
  cases ttl with
  | none => simp
  | some t =>
    obtain ⟨hlow, hhigh⟩ := hrange t rfl
    simp only [Option.map_some, Option.some.injEq, forall_eq']
    exact asI32_eq_self_iff hlow hhigh

theorem length_regularColumns_le (schema : WriteSchema) :
    schema.regularColumns.length ≤ schema.columns.length := by
  rw [WriteSchema.regularColumns, List.length_insertionSort]
  exact List.length_filter_le _ _

/-- A merged row that the writer accepts comes back as it was, with the next one right behind it,
    exactly when the reader understands its key, its TTL and its subset of columns. -/
theorem row_reads_back_iff {skipStaticOps : Bool} {shadowFloor : Option Int} {group : List Mutation}
    {bytes : Bytes}
    (hmerged : mergeRowGroup schema.toWriteSchema skipStaticOps shadowFloor group = some row)
    (hbase : base.InRange) (hrange : row.InRange) (hcount : schema.columns.length < 2 ^ 63)
    (hok : writeMergedRowWithPrevSize base nowSeconds codec cellBytes schema row prevSize = .ok bytes)
    (hfit : bytes.length < 2 ^ 63) :
    (∀ rest, ∃ cells read, writeMergedCells cellBytes schema row = .ok cells ∧
      parseRowData (schema.reader base uint) parseCell (bytes ++ rest) = some read ∧
      row.ReadsBack schema uint nowSeconds cells rest read) ↔ row.Readable schema := by
  obtain ⟨clustering, hclustering, hok⟩ := bind_eq_ok.mp hok
  obtain ⟨body, hbody, hok⟩ := bind_eq_ok.mp hok
  obtain rfl := Except.ok.inj hok
  obtain ⟨_, _, hcells⟩ := bind_eq_ok.mp hbody
  obtain ⟨_, _, hcells⟩ := bind_eq_ok.mp hcells
  obtain ⟨cells, hcells, -⟩ := bind_eq_ok.mp hcells
  have hcount' : schema.regularColumns.length < 2 ^ 64 := by
    have := length_regularColumns_le schema.toWriteSchema
    omega
  simp only [List.length_append, List.length_cons] at hfit
  have httl := writtenTtl_of_merged hmerged
  have hread := fun hkey => @parseRowData_write base uint nowSeconds schema row codec cellBytes C
    parseCell body cells prevSize hbase hrange hcount' clustering hclustering hbody hcells hkey (by omega)
  constructor
  · intro h
    obtain ⟨cells', read, hcells', hparse, hback⟩ := h []
    rw [hcells] at hcells'
    obtain rfl := Except.ok.inj hcells'
    have hparse' : parseRowData (schema.reader base uint) parseCell
        ((row.flags schema.toWriteSchema).toByte :: (clustering ++
          (encodeUnsigned (unsignedLen prevSize.toNat + body.length) ++
            encodeUnsigned prevSize.toNat ++ body) ++ [])) = some read := by
      simpa only [List.append_assoc, List.cons_append] using hparse
    have htail : 2 ≤ (encodeUnsigned (unsignedLen prevSize.toNat + body.length) ++
        encodeUnsigned prevSize.toNat ++ body).length := by
      rw [List.length_append, List.length_append, length_encodeUnsigned, length_encodeUnsigned,
        unsignedLen, unsignedLen]
      omega
    have hkey : row.KeyReadable schema :=
      keyReadable_of_read (RowFlags.flag_extended _) hclustering htail hparse' hback.clustering hback.rest
    obtain ⟨read', hparse', -, -, hheader, hcolumns, hdata, -⟩ := hread hkey []
    obtain rfl : read' = read := Option.some.inj (hparse'.symm.trans hparse)
    refine ⟨hkey, ?_, ?_⟩
    · have hsame : row.writtenTtl.map asI32 = row.ttlSeconds := by
        rw [← hback.ttl, hheader]
        rfl
      rw [httl] at hsame
      exact (map_asI32_eq_self hrange.ttl).mp hsame
    · refine (columnsReadable_iff hcells).mpr ⟨hcolumns.symm.trans hback.columns, ?_⟩
      have hsame := hdata.symm.trans hback.cellData
      simpa using hsame
  · intro h rest
    obtain ⟨read, hparse, hflags, hclustering, hheader, hcolumns, hdata, hrest⟩ := hread h.key rest
    obtain ⟨hsame, hstray⟩ := (columnsReadable_iff hcells).mp h.columns
    refine ⟨cells, read, hcells, hparse, hflags, hclustering, ?_, ?_, ?_, ?_, ?_, hcolumns.trans hsame,
      ?_, hrest⟩
    · rw [hheader]; rfl
    · rw [hheader]
      exact (congrArg (Option.map asI32) httl).trans ((map_asI32_eq_self hrange.ttl).mpr h.ttl)
    · rw [hheader, ← httl]; rfl
    · rw [hheader]; rfl
    · rw [hheader]; rfl
    · rw [hdata, hstray, List.nil_append]

end Row

/-! ### Two rows -/

/-- A table with one clustering column of the given type and one regular column. -/
def oneClustering (dataType : String) : DataSchema where
  partitionKeys := ["pk"]
  clusteringKeys := ["ck"]
  columns := [⟨"v", false, false⟩]
  clusteringTypes := [dataType]

def insertUnder (value : Value) : Mutation :=
  Mutation.new ⟨[("pk", .integer 1)]⟩ (some ⟨[("ck", value)]⟩) [.write "v" (.integer 7)] 1000 none

/-- The row of that insert. -/
def insertedUnder (value : Value) : RowWrite where
  clusteringKey := some ⟨[("ck", value)]⟩
  livenessTs := some 1000
  ttlSeconds := none
  rowDeletion := none
  ops := [⟨.write "v" (.integer 7), 1000, none, 0⟩]
  complexElementOps := []

def primitivesOnly : ValueCodec :=
  ⟨fun _ => .error (.invalidInput "nested"), fun _ => .error (.invalidInput "nested")⟩

/-- A cell of type `int`: the flags byte and four bytes. -/
def intCell (_ : RowWrite) (_ : WriteColumn) : Except Error (UInt8 × Bytes) := .ok (0x08, intBytes 4 7)

def readIntCell (_ : RowStart) (_ : Nat) (data : Bytes) : Option (Bytes × Bytes) := splitFront 5 data

theorem insertedUnder_inRange {value : Value} (h : value.InRange) : (insertedUnder value).InRange where
  liveness := fun ts hts => Option.some.inj hts ▸ by decide
  ttl := fun _ h => (nomatch h)
  deletion := fun _ _ h => (nomatch h)
  key := by
    intro key hkey v hv
    obtain rfl : (⟨[("ck", value)]⟩ : ClusteringKey) = key := Option.some.inj hkey
    exact List.mem_singleton.mp hv ▸ h

theorem int_row_readable : (insertedUnder (.integer 5)).Readable (oneClustering "int") where
  key := by
    refine ⟨by decide, rfl, ?_, ?_⟩
    · intro p hp
      obtain rfl : p = (.integer 5, "int") := List.mem_singleton.mp hp
      rfl
    · intro p hp
      obtain rfl : p = (.integer 5, 0) := List.mem_singleton.mp hp
      rfl
  ttl := fun _ h => (nomatch h)
  columns := by
    show AllPresent _ _
    intro c hc
    obtain rfl : c = ⟨"v", false, false⟩ := List.mem_singleton.mp hc
    rfl

theorem int_row_reads_back : (insertedUnder (.integer 5)).Readable (oneClustering "int") ∧
    ∀ rest, ∃ cells read,
      writeMergedCells intCell (oneClustering "int") (insertedUnder (.integer 5)) = .ok cells ∧
      parseRowData ((oneClustering "int").reader ⟨0, 0, 0⟩ false) readIntCell
        ([0x24, 0, 0, 0, 0, 5, 8, 0, 0x83, 0xE8, 8, 0, 0, 0, 7] ++ rest) = some read ∧
      (insertedUnder (.integer 5)).ReadsBack (oneClustering "int") false 0 cells rest read := by
  have hmerged : mergeRowGroup (oneClustering "int").toWriteSchema false none
      [insertUnder (.integer 5)] = some (insertedUnder (.integer 5)) := Eq.refl _
  have hok : writeMergedRowWithPrevSize ⟨0, 0, 0⟩ 0 primitivesOnly intCell (oneClustering "int")
      (insertedUnder (.integer 5)) 0 = .ok [0x24, 0, 0, 0, 0, 5, 8, 0, 0x83, 0xE8, 8, 0, 0, 0, 7] := rfl
  refine ⟨int_row_readable, (row_reads_back_iff hmerged ⟨by decide, by decide⟩
    (insertedUnder_inRange ?_) (by decide) hok (by decide)).mpr int_row_readable⟩
  constructor <;> decide

/-- A `smallint` is written as its two bytes, and read as a blob behind a length of zero. -/
theorem smallint_row_not_read_back :
    mergeRowGroup (oneClustering "smallint").toWriteSchema false none
      [insertUnder (.smallInt 5)] = some (insertedUnder (.smallInt 5)) ∧
    writeMergedRowWithPrevSize ⟨0, 0, 0⟩ 0 primitivesOnly intCell (oneClustering "smallint")
      (insertedUnder (.smallInt 5)) 0 = .ok [0x24, 0, 0, 5, 8, 0, 0x83, 0xE8, 8, 0, 0, 0, 7] ∧
    ¬∀ rest, ∃ cells read,
      writeMergedCells intCell (oneClustering "smallint") (insertedUnder (.smallInt 5)) = .ok cells ∧
      parseRowData ((oneClustering "smallint").reader ⟨0, 0, 0⟩ false) readIntCell
        ([0x24, 0, 0, 5, 8, 0, 0x83, 0xE8, 8, 0, 0, 0, 7] ++ rest) = some read ∧
      (insertedUnder (.smallInt 5)).ReadsBack (oneClustering "smallint") false 0 cells rest read := by
  refine ⟨Eq.refl _, rfl, fun h => ?_⟩
  obtain ⟨cells, read, -, hparse, hback⟩ := h []
  have hread : (parseRowData ((oneClustering "smallint").reader ⟨0, 0, 0⟩ false) readIntCell
      ([0x24, 0, 0, 5, 8, 0, 0x83, 0xE8, 8, 0, 0, 0, 7] ++ [])).map (·.clustering) =
      some [.blob []] := rfl
  rw [hparse, Option.map_some, hback.clustering] at hread
  exact (nomatch Option.some.inj hread)

end Cqlite
