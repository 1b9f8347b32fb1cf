import Cqlite.Lib.StableSort
import Cqlite.Merge.ClusteringOrder
import Cqlite.Engine.PartitionKeyCodec

/-! Collections put together again on the read path (`write_engine/merge/read_assembly.rs`:
    `assemble_read_cells`, `assemble_complex`, `sort_elements_by_cell_path`; `types/comparator.rs`:
    `ComparatorType::compare`).

    The live elements of a column are sorted by their cell paths: those of a list as bytes, those of
    a set or a map by the comparator of the declared type. Neither knows the time in a UUID, and a
    column that is no collection is its last element. -/

namespace Cqlite

/-! ### Declared types -/

inductive CqlType
  | boolean
  | tinyInt
  | smallInt
  | int
  | bigInt
  | counter
  | float
  | double
  | decimal
  | text
  | ascii
  | varchar
  | blob
  | timestamp
  | date
  | time
  | uuid
  | timeUuid
  | inet
  | duration
  | varint
  | list (element : CqlType)
  | set (element : CqlType)
  | map (key value : CqlType)
  | tuple (fields : List CqlType)
  | udt (name : String) (fields : List (String × CqlType))
  | frozen (inner : CqlType)
  | custom (name : String)

/-- `unwrap_frozen`. -/
def CqlType.unwrapFrozen : CqlType → CqlType
  | .frozen inner => inner.unwrapFrozen
  | other => other

/-- A `ComparatorType`, as far as cell paths are concerned. -/
inductive ElementComparator
  | scalar (comparator : ComparatorType)
  | frozen (inner : ElementComparator)
  /-- A tuple, a UDT or a collection. -/
  | composite

/-- `from_cql_type`. -/
def ElementComparator.fromCqlType : CqlType → ElementComparator
  | .boolean => .scalar .boolean
  | .tinyInt => .scalar .tinyInt
  | .smallInt => .scalar .smallInt
  | .int => .scalar .int
  | .bigInt => .scalar .bigInt
  | .counter => .scalar .counter
  | .float => .scalar .float32
  | .double => .scalar .float
  | .decimal => .scalar .decimal
  | .text => .scalar .text
  | .ascii => .scalar .text
  | .varchar => .scalar .text
  | .blob => .scalar .blob
  | .timestamp => .scalar .timestamp
  | .date => .scalar .date
  | .time => .scalar (.custom "time")
  | .uuid => .scalar .uuid
  | .timeUuid => .scalar .uuid
  | .inet => .scalar (.custom "inet")
  | .duration => .scalar .duration
  | .varint => .scalar .varint
  | .list _ | .set _ | .map _ _ | .tuple _ | .udt _ _ => .composite
  | .frozen inner => .frozen (fromCqlType inner)
  | .custom name => .scalar (.custom name)

/-- `key_is_opaque_composite`. -/
def ElementComparator.isOpaqueComposite : ElementComparator → Bool
  | .frozen inner => inner.isOpaqueComposite
  | .scalar (.custom name) => !(name == "time" || name == "inet")
  | .scalar (.nested _) => true
  | .scalar _ => false
  | .composite => true

/-- `comparator_orders_by_raw_cell_path_bytes`. -/
def ElementComparator.ordersByRawBytes : ElementComparator → Bool
  | .frozen inner => inner.ordersByRawBytes
  | .scalar (.custom name) => name == "inet" || name == "time"
  | _ => false

/-! ### Comparing decoded values -/

inductive AssemblyError
  | corruption (message : String)
  | unsupportedFormat (message : String)
  | schema (message : String)
  | decode (error : Error)

namespace Value

def asBool : Value → Option Bool
  | .boolean b => some b
  | _ => none

def asI32 : Value → Option Int
  | .integer n => some n
  | .tinyInt n => some n
  | .smallInt n => some n
  | _ => none

def asI64 : Value → Option Int
  | .bigInt n => some n
  | .counter n => some n
  | .integer n => some n
  | .tinyInt n => some n
  | .smallInt n => some n
  | _ => none

def asBytes : Value → Option Bytes
  | .blob b => some b
  | .text b => some b
  | _ => none

def isTombstone : Value → Bool
  | .tombstone _ => true
  | _ => false

end Value

/-- The text of the bytes of a decimal: `{:?}` of a `Vec<u8>`. -/
def debugBytes (bytes : Bytes) : String :=
  "[" ++ ", ".intercalate (bytes.map fun b => toString b.toNat) ++ "]"

/-- `compare_decimal`: on one scale the raw bytes, else the texts. -/
def compareDecimal (scale : Int) (unscaled : Bytes) (scale' : Int) (unscaled' : Bytes) : Ordering :=
  if scale = scale' then compare unscaled unscaled'
  else compare (debugBytes unscaled ++ "." ++ toString scale)
    (debugBytes unscaled' ++ "." ++ toString scale')

/-- `compare` of two values that are not null; `none` is a type mismatch. -/
def ComparatorType.compareValues : ComparatorType → Value → Value → Option Ordering
  | .boolean, l, r => do return compare (← l.asBool) (← r.asBool)
  | .tinyInt, .tinyInt l, .tinyInt r => some (compare l r)
  | .smallInt, .smallInt l, .smallInt r => some (compare l r)
  | .int, l, r => do return compare (← l.asI32) (← r.asI32)
  | .bigInt, l, r => do return compare (← l.asI64) (← r.asI64)
  | .counter, l, r => do return compare (← l.asI64) (← r.asI64)
  | .float32, .float32 l, .float32 r => some (cassandraFloatCmp l r)
  | .float, l, r => do return cassandraDoubleCmp (← l.asF64) (← r.asF64)
  | .text, .text l, .text r => some (compare l r)
  | .blob, l, r => do return compare (← l.asBytes) (← r.asBytes)
  | .timestamp, .timestamp l, .timestamp r => some (compare l r)
  | .uuid, .uuid l, .uuid r => some (compare l r)
  | .varint, .varint l, .varint r => some (compare l r)
  | .decimal, .decimal s l, .decimal t r => some (compareDecimal s l t r)
  | .duration, .duration m d n, .duration m' d' n' =>
    some ((compare m m').then ((compare d d').then (compare n n')))
  | .date, .date l, .date r => some (compare l r)
  -- what is opaque or ordered by raw bytes is not compared as values
  | _, _, _ => none

/-- `compare`: nulls first. -/
def ElementComparator.compareValues : ElementComparator → Value → Value → Option Ordering
  | .scalar comparator, l, r =>
    match l.isNull, r.isNull with
    | true, true => some .eq
    | true, false => some .lt
    | false, true => some .gt
    | false, false => comparator.compareValues l r
  | .frozen inner, .frozen l, .frozen r => inner.compareValues l r
  | _, _, _ => none

/-- `deserialize_value_bytes` knows scalars. -/
def ElementComparator.deserialize (data : Bytes) : ElementComparator → Except Error Value
  | .scalar comparator => deserializeValueBytes data comparator
  | _ => .error (.invalidInput "Unsupported comparator for deserialization")

/-! ### Sorting elements -/

/-- `cell_path_bytes`. -/
def CellData.pathBytes (cell : CellData) : Bytes := cell.cellPath.getD []

def compareRawPaths (a b : CellData) : Ordering := compare a.pathBytes b.pathBytes

section Assembly

variable (sort : StableSort)

/-- `sort_by_comparator`: two values that do not compare count as equal, and the error is returned
    in the end. -/
def sortByComparator {α : Type} (items : List (Value × α)) (cmp : ElementComparator) :
    Except AssemblyError (List (Value × α)) :=
  if items.all fun a => items.all fun b => (cmp.compareValues a.1 b.1).isSome then
    .ok (sort.run (fun a b => (cmp.compareValues a.1 b.1).getD .eq) items)
  else .error (.schema "Type mismatch")

/-- Every element with its decoded path. -/
def decodePaths (elements : List CellData) (cmp : ElementComparator) :
    Except AssemblyError (List (Value × CellData)) :=
  elements.mapM fun cell =>
    match cmp.deserialize cell.pathBytes with
    | .ok key => .ok (key, cell)
    | .error e => .error (.decode e)

def sortElementsByCellPath (elements : List CellData) (cmp : ElementComparator) :
    Except AssemblyError (List CellData) :=
  if cmp.isOpaqueComposite || cmp.ordersByRawBytes then .ok (sort.run compareRawPaths elements)
  else do
    let keyed ← decodePaths elements cmp
    let sorted ← sortByComparator sort keyed cmp
    return sorted.map Prod.snd

/-! ### Columns -/

/-- The name and declared type of a column. -/
structure ReadColumn where
  name : String
  dataType : String

def lastValue (elements : List CellData) : Value := (elements.getLast?.map CellData.value).getD .null

def mixedShapeError (column : String) : AssemblyError :=
  .corruption ("column '" ++ column ++ "': merged row mixes a whole-value (simple) cell and " ++
    "per-element (complex) cells for one column")

def compositeCollectionUnsupported (column kind : String) : AssemblyError :=
  .unsupportedFormat ("column '" ++ column ++ "': composite-keyed collection decode unsupported on " ++
    "this path — " ++ kind ++ " type is a frozen tuple/UDT/nested collection")

variable (parse : String → Except AssemblyError CqlType) (columns : List ReadColumn)

/-- The declared type of a column, if it has one. -/
def declaredType (name : String) : Option String :=
  (columns.find? fun c => c.name == name).map ReadColumn.dataType

/-- The collection of a declared type. -/
def assembleCollection (name : String) (elements : List CellData) :
    CqlType → Except AssemblyError Value
  | .set inner =>
    let cmp := ElementComparator.fromCqlType inner
    if cmp.isOpaqueComposite then .error (compositeCollectionUnsupported name "set element")
    else do
      let sorted ← sortElementsByCellPath sort elements cmp
      return .set (sorted.map CellData.value)
  | .list _ => .ok (.list ((sort.run compareRawPaths elements).map CellData.value))
  | .map keyType _ =>
    let cmp := ElementComparator.fromCqlType keyType
    if cmp.isOpaqueComposite then .error (compositeCollectionUnsupported name "map key")
    else do
      let sorted ← sortElementsByCellPath sort elements cmp
      let entries ← decodePaths sorted cmp
      return .map (entries.map fun e => (e.1, e.2.value))
  | _ => .ok (lastValue elements)

def assembleComplex (name : String) (elements : List CellData) : Except AssemblyError Value :=
  match declaredType columns name with
  | none => .ok (lastValue elements)
  | some dataType => do
    let cqlType ← parse dataType
    assembleCollection sort name elements cqlType.unwrapFrozen

/-! ### Rows -/

/-- What one column has so far. -/
inductive ColumnAccum
  | simple (value : Value)
  | complex (elements : List CellData)

/-- The columns so far, in the order they were first seen. -/
abbrev Accums := List (String × ColumnAccum)

/-- Replace what is there under `name`, or add it behind the others. -/
def Accums.insert (accums : Accums) (name : String) (accum : ColumnAccum) : Accums :=
  match accums with
  | [] => [(name, accum)]
  | (other, old) :: rest =>
    if other = name then (other, accum) :: rest else (other, old) :: insert rest name accum

/-- The scan reads the column, and the cell was not deleted. A deleted simple cell is a tombstone. -/
def CellData.isRead (needed : Option (List String)) (cell : CellData) : Bool :=
  needed.all (·.contains cell.column) && !cell.value.isTombstone &&
    !(cell.isComplexElement && cell.isDeleted)

def addCell (needed : Option (List String)) (accums : Accums) (cell : CellData) :
    Except AssemblyError Accums :=
  if !cell.isRead needed then .ok accums
  else if cell.isComplexElement then
    match accums.lookup cell.column with
    | none => .ok (accums.insert cell.column (.complex [cell]))
    | some (.complex elements) => .ok (accums.insert cell.column (.complex (elements ++ [cell])))
    | some (.simple _) => .error (mixedShapeError cell.column)
  else
    match accums.lookup cell.column with
    | none | some (.simple _) => .ok (accums.insert cell.column (.simple cell.value))
    | some (.complex _) => .error (mixedShapeError cell.column)

def ColumnAccum.assemble (name : String) : ColumnAccum → Except AssemblyError Value
  | .simple value => .ok value
  | .complex elements => assembleComplex sort parse columns name elements

/-- `assemble_read_cells`. -/
def assembleReadCells (cells : List CellData) (needed : Option (List String)) :
    Except AssemblyError (List (String × Value)) := do
  let accums ← cells.foldlM (addCell needed) []
  accums.mapM fun p => (p.2.assemble sort parse columns p.1).map (p.1, ·)

/-! ### One column at a time -/

/-- The cells that are read of a column. -/
def columnCells (needed : Option (List String)) (cells : List CellData) (name : String) :
    List CellData :=
  cells.filter fun c => c.column == name && c.isRead needed

/-- All cells are elements, or none is. -/
def Unmixed (cs : List CellData) : Prop :=
  (∀ c ∈ cs, c.isComplexElement = true) ∨ ∀ c ∈ cs, c.isComplexElement = false

/-- What the loop holds of a column. -/
def accumOf (cs : List CellData) : Option ColumnAccum :=
  match cs with
  | [] => none
  | first :: _ => some (if first.isComplexElement then .complex cs else .simple (lastValue cs))

theorem lookup_pair {α : Type} (name other : String) (a : α) (rest : List (String × α)) :
    ((name, a) :: rest).lookup other = if other = name then some a else rest.lookup other := by
  rw [List.lookup_cons]
  by_cases h : other = name
  · rw [if_pos h, beq_iff_eq.2 h]
  · rw [if_neg h, beq_false_of_ne h]

theorem lookup_insert (accums : Accums) (name other : String) (accum : ColumnAccum) :
    (accums.insert name accum).lookup other =
      if other = name then some accum else accums.lookup other := by
  induction accums with
  | nil => exact lookup_pair ..
  | cons p accums ih =>
    obtain ⟨first, old⟩ := p
    rw [Accums.insert]
    split
    · rename_i hfirst
      subst hfirst
      rw [lookup_pair, lookup_pair]
      split <;> rfl
    · rename_i hfirst
      rw [lookup_pair, lookup_pair, ih]
      split
      · rename_i hother
        rw [if_neg (hother ▸ hfirst)]
      · rfl

theorem keys_insert (accums : Accums) (name : String) (accum : ColumnAccum) :
    (accums.insert name accum).map Prod.fst =
      if name ∈ accums.map Prod.fst then accums.map Prod.fst else accums.map Prod.fst ++ [name] := by
  induction accums with
  | nil => rfl
  | cons p accums ih =>
    obtain ⟨first, old⟩ := p
    rw [Accums.insert]
    by_cases hfirst : first = name
    · rw [if_pos hfirst, if_pos (by simp [hfirst])]
      rfl
    · rw [if_neg hfirst, List.map_cons, ih, List.map_cons]
      by_cases hname : name ∈ accums.map Prod.fst
      · rw [if_pos hname, if_pos (List.mem_cons_of_mem _ hname)]
      · rw [if_neg hname, if_neg fun hmem => ?_]
        · rfl
        · exact (List.mem_cons.1 hmem).elim (fun h => hfirst h.symm) hname

variable {accums : Accums} {cs : List CellData}

theorem nodup_insert (h : (accums.map Prod.fst).Nodup) (name : String) (accum : ColumnAccum) :
    ((accums.insert name accum).map Prod.fst).Nodup := by
  rw [keys_insert]
  split
  · exact h
  · rename_i hname
    exact List.nodup_append.2 ⟨h, List.nodup_singleton _, fun a ha b hb => by
      rw [List.mem_singleton.1 hb]
      exact fun heq => hname (heq ▸ ha)⟩

theorem lookup_accum (h : (accums.map Prod.fst).Nodup) {p : String × ColumnAccum} (hp : p ∈ accums) :
    accums.lookup p.1 = some p.2 := by
  induction accums with
  | nil => cases hp
  | cons q accums ih =>
    obtain ⟨hnot, hrest⟩ := List.nodup_cons.1 h
    rw [lookup_pair]
    rcases List.mem_cons.1 hp with rfl | hp
    · exact if_pos rfl
    · rw [if_neg fun heq : p.1 = q.1 => hnot (heq ▸ List.mem_map_of_mem hp)]
      exact ih hrest hp

theorem columnCells_concat (needed : Option (List String)) (cells : List CellData) (c : CellData)
    (name : String) :
    columnCells needed (cells ++ [c]) name =
      columnCells needed cells name ++ if c.column = name ∧ c.isRead needed then [c] else [] := by
  simp [columnCells, List.filter_append, List.filter_cons]

/-- The state of the loop behind `cells`. -/
structure Accumulated (needed : Option (List String)) (cells : List CellData) (accums : Accums) :
    Prop where
  nodup : (accums.map Prod.fst).Nodup
  unmixed : ∀ name, Unmixed (columnCells needed cells name)
  holds : ∀ name, accums.lookup name = accumOf (columnCells needed cells name)

theorem unmixed_concat {c : CellData} :
    Unmixed (cs ++ [c]) ↔ ∀ d ∈ cs, d.isComplexElement = c.isComplexElement := by
  rw [Unmixed, List.forall_mem_append, List.forall_mem_append, List.forall_mem_singleton,
    List.forall_mem_singleton]
  cases c.isComplexElement <;> simp

theorem accumOf_concat {c : CellData} (h : ∀ d ∈ cs, d.isComplexElement = c.isComplexElement) :
    accumOf (cs ++ [c]) =
      some (if c.isComplexElement then .complex (cs ++ [c]) else .simple c.value) := by
  have hlast : lastValue (cs ++ [c]) = c.value := by simp [lastValue]
  cases cs with
  | nil => rw [List.nil_append, accumOf, ← hlast, List.nil_append]
  | cons d cs =>
    rw [← hlast, ← h d List.mem_cons_self]
    rfl

/-- One cell is added to what is there of its column, or the column is mixed. -/
theorem Accumulated.step {needed : Option (List String)} {cells : List CellData}
    (h : Accumulated needed cells accums) (c : CellData) :
    (∃ accums', addCell needed accums c = .ok accums' ∧
      Accumulated needed (cells ++ [c]) accums') ∨
    (∃ e, addCell needed accums c = .error e) ∧
      ¬ Unmixed (columnCells needed (cells ++ [c]) c.column) := by
  by_cases hread : c.isRead needed
  · set cs := columnCells needed cells c.column with hcs
    have hsame : columnCells needed (cells ++ [c]) c.column = cs ++ [c] := by
      rw [columnCells_concat, if_pos ⟨rfl, hread⟩]
    have hother : ∀ name, name ≠ c.column →
        columnCells needed (cells ++ [c]) name = columnCells needed cells name := fun name hne => by
      rw [columnCells_concat, if_neg (fun h => hne h.1.symm), List.append_nil]
    have hadd : ∀ accum, addCell needed accums c = .ok (accums.insert c.column accum) →
        (∀ d ∈ cs, d.isComplexElement = c.isComplexElement) →
        accum = (if c.isComplexElement then .complex (cs ++ [c]) else .simple c.value) →
        ∃ accums', addCell needed accums c = .ok accums' ∧
          Accumulated needed (cells ++ [c]) accums' := by
      rintro accum hok hunmixed rfl
      refine ⟨_, hok, nodup_insert h.nodup _ _, fun name => ?_, fun name => ?_⟩
      · by_cases hname : name = c.column
        · rw [hname, hsame]
          exact unmixed_concat.2 hunmixed
        · rw [hother name hname]
          exact h.unmixed name
      · rw [lookup_insert]
        split
        · rename_i hname
          rw [hname, hsame, accumOf_concat hunmixed]
        · rename_i hname
          rw [hother name hname, h.holds]
    have hlookup := h.holds c.column
    rw [← hcs] at hlookup
    rw [hsame, unmixed_concat]
    cases hcells : cs with
    | nil =>
      rw [hcells, accumOf] at hlookup
      refine Or.inl (hadd _ ?_ (by rw [hcells]; simp) rfl)
      rw [addCell, hread, hlookup, hcells]
      cases c.isComplexElement <;> rfl
    | cons d rest =>
      rw [hcells, accumOf] at hlookup
      have hsome : ∀ x ∈ cs, x.isComplexElement = d.isComplexElement := by
        have hd : d ∈ cs := hcells ▸ List.mem_cons_self
        rcases h.unmixed c.column with hall | hall <;> exact fun x hx => (hall x hx).trans (hall d hd).symm
      by_cases hkind : d.isComplexElement = c.isComplexElement
      · refine Or.inl (hadd _ ?_ (fun x hx => (hsome x hx).trans hkind) rfl)
        rw [addCell, hread, hlookup, hkind, hcells]
        cases c.isComplexElement <;> rfl
      · refine Or.inr ⟨?_, fun hall => hkind (hall d List.mem_cons_self)⟩
        rw [addCell, hread, hlookup]
        cases hc : c.isComplexElement <;> cases hd : d.isComplexElement
        · exact absurd (hd.trans hc.symm) hkind
        · exact ⟨_, rfl⟩
        · exact ⟨_, rfl⟩
        · exact absurd (hd.trans hc.symm) hkind
  · refine Or.inl ⟨accums, by rw [addCell, Bool.eq_false_iff.2 hread]; rfl, h.nodup,
      fun name => ?_, fun name => ?_⟩
    all_goals rw [columnCells_concat, if_neg (fun h => hread h.2), List.append_nil]
    · exact h.unmixed name
    · exact h.holds name

/-- The pass collects every column, or one mixes its cells. -/
theorem foldlM_addCell (needed : Option (List String)) (cells : List CellData) :
    (∃ accums, cells.foldlM (addCell needed) [] = .ok accums ∧ Accumulated needed cells accums) ∨
    (∃ e, cells.foldlM (addCell needed) [] = .error e) ∧
      ∃ name, ¬ Unmixed (columnCells needed cells name) := by
  induction cells using List.reverseRecOn with
  | nil => exact Or.inl ⟨[], rfl, List.nodup_nil, fun _ => Or.inl (List.forall_mem_nil _), fun _ => rfl⟩
  | append_singleton cells c ih =>
    simp only [List.foldlM_append, List.foldlM_cons, List.foldlM_nil]
    rcases ih with ⟨accums, hok, hacc⟩ | ⟨⟨e, herr⟩, name, hmixed⟩
    · rw [hok]
      rcases hacc.step c with ⟨accums', hadd, hacc'⟩ | ⟨⟨e, hadd⟩, hmixed⟩
      · refine Or.inl ⟨accums', ?_, hacc'⟩
        change addCell needed accums c >>= pure = _
        rw [hadd]
        rfl
      · refine Or.inr ⟨⟨e, ?_⟩, _, hmixed⟩
        change addCell needed accums c >>= pure = _
        rw [hadd]
        rfl
    · refine Or.inr ⟨⟨e, by rw [herr]; rfl⟩, name, fun h => hmixed ?_⟩
      rw [columnCells_concat] at h
      exact h.imp (fun h d hd => h d (List.mem_append_left _ hd))
        fun h d hd => h d (List.mem_append_left _ hd)

/-- What the row has under `name`, from the cells of the column. -/
def readColumn (name : String) (cs : List CellData) : Except AssemblyError Value :=
  if cs.all CellData.isComplexElement then assembleComplex sort parse columns name cs
  else if cs.all fun c => !c.isComplexElement then .ok (lastValue cs)
  else .error (mixedShapeError name)

/-- The cells of a column can be read. -/
def Reads (name : String) (cs : List CellData) : Prop :=
  cs = [] ∨ ∃ v, readColumn sort parse columns name cs = .ok v

theorem unmixed_iff :
    Unmixed cs ↔ cs.all CellData.isComplexElement = true ∨
      (cs.all fun c => !c.isComplexElement) = true := by
  simp [Unmixed, List.all_eq_true]

theorem assemble_accumOf {name : String} {accum : ColumnAccum} (h : Unmixed cs)
    (haccum : accumOf cs = some accum) :
    accum.assemble sort parse columns name = readColumn sort parse columns name cs := by
  cases cs with
  | nil => cases haccum
  | cons c cs =>
    obtain rfl := Option.some.inj haccum
    rw [readColumn]
    rcases h with h | h
    · rw [if_pos (List.all_eq_true.2 h), if_pos (h c List.mem_cons_self)]
      rfl
    · have hc := h c List.mem_cons_self
      rw [if_neg (by simp [hc]), if_neg (by simp [hc]), if_pos (by simpa using h)]
      rfl

theorem lookup_mapM {f : String × ColumnAccum → Except AssemblyError Value}
    {out : List (String × Value)} (h : accums.mapM (fun p => (f p).map (p.1, ·)) = .ok out)
    (name : String) :
    (accums.lookup name = none ∧ out.lookup name = none) ∨
    ∃ accum v, accums.lookup name = some accum ∧ f (name, accum) = .ok v ∧
      out.lookup name = some v := by
  have hall := mapM_eq_ok.1 h
  clear h
  induction hall with
  | nil => exact Or.inl ⟨rfl, rfl⟩
  | @cons p q accums out hp hrest ih =>
    obtain ⟨first, accum⟩ := p
    obtain ⟨v, hv, rfl⟩ := map_eq_ok.1 hp
    rw [lookup_pair, lookup_pair]
    by_cases hname : name = first
    · rw [if_pos hname, if_pos hname]
      exact Or.inr ⟨accum, v, rfl, hname ▸ hv, rfl⟩
    · rw [if_neg hname, if_neg hname]
      exact ih

/-- A row is read when every column is, and then column by column. -/
theorem assembleReadCells_cases (needed : Option (List String)) (cells : List CellData) :
    (∃ out, assembleReadCells sort parse columns cells needed = .ok out ∧ ∀ name,
      (columnCells needed cells name = [] ∧ out.lookup name = none) ∨
      columnCells needed cells name ≠ [] ∧
        ∃ v, readColumn sort parse columns name (columnCells needed cells name) = .ok v ∧
          out.lookup name = some v) ∨
    (∃ e, assembleReadCells sort parse columns cells needed = .error e) ∧
      ∃ name, ¬ Reads sort parse columns name (columnCells needed cells name) := by
  rcases foldlM_addCell needed cells with ⟨accums, hok, hacc⟩ | ⟨⟨e, herr⟩, name, hmixed⟩
  · have hassemble : assembleReadCells sort parse columns cells needed =
        accums.mapM fun p => (p.2.assemble sort parse columns p.1).map (p.1, ·) := by
      rw [assembleReadCells, hok]
      rfl
    cases hout : accums.mapM fun p => (p.2.assemble sort parse columns p.1).map (p.1, ·) with
    | ok out =>
      refine Or.inl ⟨out, hassemble.trans hout, fun name => ?_⟩
      rcases lookup_mapM hout name with ⟨hnone, hlookup⟩ | ⟨accum, v, hsome, hv, hlookup⟩
      · refine Or.inl ⟨?_, hlookup⟩
        rw [hacc.holds] at hnone
        cases hcs : columnCells needed cells name with
        | nil => rfl
        | cons c cs =>
          rw [hcs] at hnone
          cases hnone
      · rw [hacc.holds] at hsome
        refine Or.inr ⟨fun hnil => ?_, v, ?_, hlookup⟩
        · rw [hnil] at hsome
          cases hsome
        · rw [← assemble_accumOf sort parse columns (hacc.unmixed name) hsome]
          exact hv
    | error e =>
      refine Or.inr ⟨⟨e, hassemble.trans hout⟩, ?_⟩
      obtain ⟨p, hp, herr⟩ := mapM_eq_error hout
      have hsome := lookup_accum hacc.nodup hp
      rw [hacc.holds] at hsome
      refine ⟨p.1, ?_⟩
      rintro (hnil | ⟨v, hv⟩)
      · rw [hnil] at hsome
        cases hsome
      · rw [← assemble_accumOf sort parse columns (hacc.unmixed p.1) hsome] at hv
        rw [hv] at herr
        cases herr
  · refine Or.inr ⟨⟨e, by rw [assembleReadCells, herr]; rfl⟩, name, ?_⟩
    rintro (hnil | ⟨v, hv⟩)
    · exact hmixed (hnil ▸ Or.inl (List.forall_mem_nil _))
    · rw [unmixed_iff, not_or] at hmixed
      rw [readColumn, if_neg hmixed.1, if_neg hmixed.2] at hv
      cases hv

end Assembly

end Cqlite
