import Cqlite.Lib.Cursor
import Cqlite.Reader.IndexEntries
import Cqlite.Reader.PartitionShadow
import Cqlite.Reader.RowFrame

/-! The row decoder on any bytes (`row_decoder/row_framing.rs`: `parse_row_flags`,
    `parse_row_metadata`, `parse_clustering_prefix`, `skip_range_tombstone_marker`,
    `parse_range_tombstone_marker_with_ldt`; `row_decoder/row_data.rs`: the framing of
    `parse_row_data_with_offset_impl`).

    A parser takes the buffer and a position in it. `+` is a step to the next byte behind a check that
    it is there; every other sum of positions is a `plus`. A release build does not check these. -/

namespace Cqlite

/-- `overflow` is not an error of the source: it is a checked sum of positions that wraps around. -/
inductive FramingError
  | corruption (message : String)
  | overflow
  deriving DecidableEq, Repr

/-- A clustering column of the schema. -/
structure TypedColumn where
  name : String
  dataType : String
  deriving DecidableEq, Repr

namespace RowDecoder

open VInt Checked Cursor

def corrupt {α : Type} (message : String) : Run FramingError α :=
  fail (.corruption ("V5CompressedLegacy: " ++ message))

/-! ### Bytes and numbers -/

/-- `data[pos]` behind a check for the end of the buffer. -/
def nextByte (message : String) (data : Bytes) (pos : Nat) : Run FramingError (UInt8 × Nat) :=
  if data.length ≤ pos then corrupt message
  else do
    let b ← index data pos
    return (b, pos + 1)

/-- `parse_vuint(&data[pos..])`, and the position behind the number. -/
def vuintAt (message : String) (data : Bytes) (pos : Nat) : Run FramingError (Nat × Nat) := do
  let input ← slice data pos data.length
  match decodeUnsigned input with
  | none => corrupt message
  | some (value, remaining) => return (value, pos + (input.length - remaining.length))

/-- A field that is there when its flag is set. -/
def fieldAt {α : Type} (present : Bool) (read : Nat → Run FramingError (α × Nat)) (pos : Nat) :
    Run FramingError (Option α × Nat) :=
  if present then do
    let (value, pos) ← read pos
    return (some value, pos)
  else return (none, pos)

section Parsers

variable (checked : Bool) (schema : ReadSchema) (keys : List TypedColumn) (data : Bytes)

/-! ### Clustering values -/

/-- A value of `k` bytes. -/
def fixedValue (name what : String) (k : Nat) (wrap : Bytes → Value) (offset : Nat) :
    Run FramingError (Value × Nat) := do
  let stop ← plus .overflow checked offset k
  if data.length < stop then do
    let available ← sub data.length offset
    corrupt ("Clustering '" ++ name ++ "': need " ++ toString k ++ " bytes for " ++ what ++
      ", only " ++ toString available ++ " available")
  else do
    let bytes ← slice data offset stop
    return (wrap bytes, stop)

/-- A value behind its length. -/
def prefixedValue (name what forWhat : String) (decode : Bytes → Run FramingError Value)
    (offset : Nat) : Run FramingError (Value × Nat) := do
  let (len, lenOffset) ←
    vuintAt ("Clustering '" ++ name ++ "': failed to parse " ++ what ++ " length") data offset
  let stop ← plus .overflow checked lenOffset len
  if data.length < stop then do
    let available ← sub data.length lenOffset
    corrupt ("Clustering '" ++ name ++ "': need " ++ toString len ++ " bytes" ++ forWhat ++
      ", only " ++ toString available ++ " available")
  else do
    let bytes ← slice data lenOffset stop
    let value ← decode bytes
    return (value, stop)

def decodeText (name : String) (bytes : Bytes) : Run FramingError Value :=
  if validUtf8 bytes then return .text bytes
  else corrupt ("Clustering '" ++ name ++ "': invalid UTF-8")

def parseClusteringValue (offset : Nat) (col : TypedColumn) : Run FramingError (Value × Nat) :=
  match clusteringForm col.dataType with
  | .timestamp =>
    fixedValue checked data col.name "timestamp" 8 (fun b => .timestamp (intOfBytes b)) offset
  | .text => prefixedValue checked data col.name "text" " for text" (decodeText col.name) offset
  | .int => fixedValue checked data col.name "int" 4 (fun b => .integer (intOfBytes b)) offset
  | .uuid => fixedValue checked data col.name "UUID" 16 .uuid offset
  | .bigInt => fixedValue checked data col.name "bigint" 8 (fun b => .bigInt (intOfBytes b)) offset
  | .unsupported => prefixedValue checked data col.name "blob" "" (fun b => return .blob b) offset

def parseClusteringColumn (header : Nat) (col : TypedColumn × Nat) (offset : Nat) :
    Run FramingError (Value × Nat) :=
  match stateBits header col.2 with
  | 0 => parseClusteringValue checked data offset col.1
  | 1 => return (emptyClusteringValue col.1.dataType, offset)
  | _ => return (.null, offset)

def parseClusteringColumns (header : Nat) :
    List (TypedColumn × Nat) → Nat → Run FramingError (List Value × Nat)
  | [], offset => return ([], offset)
  | col :: cols, offset => do
    let (value, offset) ← parseClusteringColumn checked data header col offset
    let (values, offset) ← parseClusteringColumns header cols offset
    return (value :: values, offset)

def parseClusteringPrefix (offset : Nat) : Run FramingError (List Value × Nat) :=
  if keys.isEmpty then return ([], offset)
  else do
    let (header, offset) ←
      vuintAt ("Failed to parse clustering prefix header VInt at offset " ++ toString offset) data
        offset
    parseClusteringColumns checked data header keys.zipIdx offset

/-! ### Row metadata -/

/-- `RowHeader` as `parse_row_metadata` fills it in. -/
structure RowHeaderAt extends RowHeaderFields where
  headerSize : Nat
  rowSizeVintLen : Nat

/-- `markedForDeleteAt`, `timestamp`: an unsigned delta. -/
def timestampAt (field : String) (pos : Nat) : Run FramingError (Int × Nat) := do
  let (delta, pos) ← vuintAt ("Failed to parse " ++ field ++ toString pos) data pos
  return (asI64 (schema.base.minTimestamp + delta), pos)

def ttlAt (pos : Nat) : Run FramingError ((Int × Int) × Nat) := do
  let (ttlDelta, pos) ← vuintAt ("Failed to parse TTL delta at offset " ++ toString pos) data pos
  let (ldtDelta, pos) ←
    vuintAt ("Failed to parse liveness LDT delta at offset " ++ toString pos) data pos
  let raw := schema.base.minLocalDeletionTime + ldtDelta
  return ((asI32 (schema.base.minTtl + ttlDelta),
    if schema.hasUintDeletionTime then asU32 raw else asI32 raw), pos)

/-- A deletion; `field` ends the messages. -/
def deletionAt (field : String) (pos : Nat) : Run FramingError (Deletion × Nat) := do
  let (markedForDeleteAt, pos) ← timestampAt schema data ("markedForDeleteAt" ++ field) pos
  let (delta, pos) ←
    vuintAt ("Failed to parse localDeletionTime" ++ field ++ toString pos) data pos
  let raw := schema.base.minLocalDeletionTime + delta
  return ((markedForDeleteAt,
    if schema.hasUintDeletionTime then asI32 (asU32 raw) else asI32 raw), pos)

/-- The size of the row, the bytes it takes, and the fields in front of the cells. -/
def rowFieldsAt (offset : Nat) (flags : UInt8) :
    Run FramingError ((Nat × Nat × RowHeaderFields) × Nat) := do
  let (rowSize, sizeEnd) ←
    vuintAt ("Failed to parse row size at offset " ++ toString offset) data offset
  let (_, pos) ← vuintAt ("Failed to parse prev size at offset " ++ toString sizeEnd) data sizeEnd
  let (timestamp, pos) ←
    fieldAt (flag 0x04 flags) (timestampAt schema data "timestamp delta at offset ") pos
  let (ttl, pos) ← fieldAt (flag 0x08 flags) (ttlAt schema data) pos
  let (deletion, pos) ← fieldAt (flag 0x10 flags) (deletionAt schema data " delta at offset ") pos
  let (bitmap, pos) ← fieldAt (!flag 0x20 flags)
    (fun pos => vuintAt ("Failed to parse column bitmap at offset " ++ toString (offset + pos)) data
      pos) pos
  return ((rowSize, sizeEnd - offset,
    { timestamp := timestamp
      ttl := ttl.map (·.1)
      livenessExpiresAtSeconds := ttl.map (·.2)
      markedForDeleteAt := deletion.map (·.1)
      localDeletionTime := deletion.map (·.2)
      missingColumnsBitmap := bitmap }), pos)

/-- The header and the size of the row. -/
def parseRowMetadata (offset : Nat) (flags : UInt8) : Run FramingError (RowHeaderAt × Nat) := do
  let ((rowSize, rowSizeVintLen, fields), pos) ← rowFieldsAt schema data offset flags
  let headerSize ← sub pos offset
  return ({ fields with headerSize := headerSize, rowSizeVintLen := rowSizeVintLen }, rowSize)

/-! ### Markers -/

/-- Extended flags are passed over. -/
def extendedFlagsAt (suffix : String) (flags : UInt8) (pos : Nat) :
    Run FramingError (Option UInt8 × Nat) :=
  fieldAt (flag 0x80 flags)
    (nextByte ("Unexpected end reading marker extended flags" ++ suffix) data) pos

/-- A `u16`. -/
def clusterCountAt (suffix : String) (pos : Nat) : Run FramingError (Nat × Nat) := do
  let stop ← plus .overflow checked pos 2
  if data.length < stop then
    corrupt ("Unexpected end reading range tombstone cluster count (u16)" ++ suffix)
  else do
    let bytes ← slice data pos stop
    return (fromBe bytes, stop)

/-- The bound of a marker: as many columns as its count says, or all. -/
def boundValuesAt (count pos : Nat) : Run FramingError (List Value × Nat) :=
  if 0 < count then parseClusteringPrefix checked (keys.take count) data pos else return ([], pos)

/-- A marker up to its body: the kind, the values of the bound, and the size of the body. -/
def markerStart (suffix : String) (offset : Nat) :
    Run FramingError ((UInt8 × List Value × Nat) × Nat) := do
  let (flags, pos) ← nextByte ("Unexpected end at range tombstone marker" ++ suffix) data offset
  let (_, pos) ← extendedFlagsAt data suffix flags pos
  let (kind, pos) ←
    nextByte ("Unexpected end reading range tombstone bound kind" ++ suffix) data pos
  let (count, pos) ← clusterCountAt checked data suffix pos
  let (values, pos) ← boundValuesAt checked keys data count pos
  let (size, pos) ← vuintAt ("Failed to parse marker_body_size" ++ suffix ++ " at offset " ++
    toString pos) data pos
  return ((kind, values, size), pos)

/-- `body_end`. -/
def markerEnd (suffix : String) (size pos : Nat) : Run FramingError Nat := do
  let bodyEnd ← plus .overflow checked pos size
  if data.length < bodyEnd then
    corrupt ("marker_body_size=" ++ toString size ++ " at pos=" ++ toString pos ++
      " exceeds data length " ++ toString data.length ++ suffix)
  else return bodyEnd

def skipRangeTombstoneMarker (offset : Nat) : Run FramingError (Unit × Nat) := do
  let ((_, _, size), pos) ← markerStart checked keys data "" offset
  let bodyEnd ← markerEnd checked data "" size pos
  return ((), bodyEnd)

def parseDeletionTimePairWithLdt (pos : Nat) : Run FramingError (Deletion × Nat) :=
  deletionAt schema data " in marker body at " pos

def parseRangeTombstoneMarkerWithLdt (offset : Nat) : Run FramingError (RangeMarker × Nat) := do
  let ((kind, values, size), pos) ← markerStart checked keys data " (compaction)" offset
  let bodyEnd ← markerEnd checked data " (compaction)" size pos
  let (_, pos) ← vuintAt ("Failed to parse prev_size in marker body (compaction) at " ++
    toString pos) data pos
  let (primary, pos) ← parseDeletionTimePairWithLdt schema data pos
  let (secondary, _) ←
    fieldAt (kind == 2 || kind == 5) (parseDeletionTimePairWithLdt schema data) pos
  return (⟨kind.toNat, values, primary, secondary⟩, bodyEnd)

/-! ### Rows -/

def parseRowFlags (offset : Nat) : Run FramingError ((UInt8 × Option UInt8) × Nat) := do
  let (flags, pos) ← nextByte "Unexpected end reading row flags" data offset
  let (extended, pos) ←
    fieldAt (flag 0x80 flags) (nextByte "Unexpected end reading extended flags" data) pos
  return ((flags, extended), pos)

/-- A static row has no clustering prefix. -/
def rowPrefixAt (isStatic : Bool) (pos : Nat) : Run FramingError (List Value × Nat) :=
  if isStatic then return ([], pos) else parseClusteringPrefix checked keys data pos

/-- The end of a row whose size is counted from `bodyStart`. -/
def rowEnd (rowSize offset bodyStart : Nat) : Run FramingError Nat :=
  if data.length - bodyStart < rowSize then
    corrupt ("row_size=" ++ toString rowSize ++ " at offset " ++ toString offset ++
      " exceeds available data (" ++ toString (data.length - bodyStart) ++
      " bytes remain after the row_size VInt) — truncated or corrupt row")
  else do
    let afterRow ← plus .overflow checked bodyStart rowSize
    if data.length < afterRow then
      corrupt ("Not enough bytes for row data at offset " ++ toString bodyStart ++ " (need " ++
        toString rowSize ++ ", have " ++ toString (data.length - bodyStart) ++ ")")
    else return afterRow

/-- What stands in front of the cells of a row, and the position behind the row, wherever its cells
    end. -/
def parseRowDataWithOffset (offset : Nat) : Run FramingError (RowStart × Nat) := do
  let ((flags, extended), pos) ← parseRowFlags data offset
  let (clustering, pos) ← rowPrefixAt checked keys data (isStaticRow extended) pos
  let (header, rowSize) ← parseRowMetadata schema data pos flags
  let next ← rowEnd checked data rowSize pos (pos + header.rowSizeVintLen)
  return (⟨flags, isStaticRow extended, clustering, header.toRowHeaderFields⟩, next)

end Parsers

/-! ### Progress -/

section Progress

variable {schema : ReadSchema} {keys : List TypedColumn} {data : Bytes}

theorem nextByte_advances (message : String) (pos : Nat) :
    Advances data.length pos 1 (nextByte message data pos) := by
  rw [nextByte]
  split
  · exact Advances.fail _
  · rename_i hpos
    refine Advances.step (fun h => hpos (outcome_index_fault.1 h)) fun b _ => Advances.pure ?_
    omega

variable {pos : Nat} {α : Type}

/-- A vint takes at least a byte and stays in the buffer. -/
theorem vuintAt_advances (message : String) (hpos : pos ≤ data.length) :
    Advances data.length pos 1 (vuintAt message data pos) := by
  refine Advances.step ?_ fun input hinput => ?_
  · rw [Ne, outcome_slice_fault]
    omega
  obtain ⟨-, rfl⟩ := outcome_slice_ok.1 hinput
  rw [List.take_length]
  split
  · exact Advances.fail _
  · rename_i value remaining hdecode
    obtain ⟨front, hfront, hne⟩ := decodeUnsigned_suffix hdecode
    have hlen := congrArg List.length hfront
    have hfront := List.length_pos_iff.2 hne
    rw [List.length_append, List.length_drop] at hlen
    refine Advances.pure ?_
    rw [List.length_drop]
    omega

theorem fieldAt_advances (present : Bool) {read : Nat → Run FramingError (α × Nat)}
    (hpos : pos ≤ data.length) (hread : Advances data.length pos 0 (read pos)) :
    Advances data.length pos 0 (fieldAt present read pos) := by
  rw [fieldAt]
  split
  · exact Advances.bind (k := 0) hread fun a n _ _ hn => Advances.pure ⟨le_rfl, hn⟩
  · exact Advances.pure ⟨le_rfl, hpos⟩

/-! The clustering prefix -/

variable {offset : Nat}

theorem fixedValue_advances (name what : String) (k : Nat) (wrap : Bytes → Value)
    (hoffset : offset ≤ data.length) :
    Advances data.length offset k (fixedValue true data name what k wrap offset) := by
  refine Advances.step (plus_sound _ _ _ _) fun stop hstop => ?_
  obtain rfl := plus_ok hstop
  split
  · refine Advances.step ?_ fun available _ => Advances.fail _
    rw [Ne, outcome_sub_fault]
    omega
  · refine Advances.step ?_ fun bytes _ => Advances.pure (by omega)
    rw [Ne, outcome_slice_fault]
    omega

theorem prefixedValue_advances (name what forWhat : String)
    {decode : Bytes → Run FramingError Value} (hdecode : ∀ bytes, (decode bytes).outcome ≠ .fault)
    (hoffset : offset ≤ data.length) :
    Advances data.length offset 1
      (prefixedValue true data name what forWhat decode offset) := by
  refine Advances.bind (k := 0) (vuintAt_advances _ hoffset) fun len lenOffset _ _ hlen => ?_
  refine Advances.step (plus_sound _ _ _ _) fun stop hstop => ?_
  obtain rfl := plus_ok hstop
  split
  · refine Advances.step ?_ fun available _ => Advances.fail _
    rw [Ne, outcome_sub_fault]
    omega
  · refine Advances.step ?_ fun bytes _ => Advances.step (hdecode bytes) fun value _ =>
      Advances.pure (by omega)
    rw [Ne, outcome_slice_fault]
    omega

theorem decodeText_sound (name : String) (bytes : Bytes) :
    (decodeText name bytes).outcome ≠ .fault := by
  rw [decodeText]
  split
  · exact nofun
  · exact nofun

theorem parseClusteringValue_advances (hoffset : offset ≤ data.length) (col : TypedColumn) :
    Advances data.length offset 0 (parseClusteringValue true data offset col) := by
  rw [parseClusteringValue]
  split
  · exact (fixedValue_advances _ _ 8 _ hoffset).loose
  · exact (prefixedValue_advances _ _ _ (decodeText_sound _) hoffset).loose
  · exact (fixedValue_advances _ _ 4 _ hoffset).loose
  · exact (fixedValue_advances _ _ 16 _ hoffset).loose
  · exact (fixedValue_advances _ _ 8 _ hoffset).loose
  · have hblob : ∀ bytes : Bytes, (pure (.blob bytes) : Run FramingError Value).outcome ≠ .fault :=
      fun _ => nofun
    exact (prefixedValue_advances _ _ _ hblob hoffset).loose

theorem parseClusteringColumns_advances (header : Nat) (cols : List (TypedColumn × Nat)) :
    ∀ {offset : Nat}, offset ≤ data.length →
      Advances data.length offset 0 (parseClusteringColumns true data header cols offset) := by
  induction cols with
  | nil => exact fun hoffset => Advances.pure ⟨le_rfl, hoffset⟩
  | cons col cols ih =>
    intro offset hoffset
    have hcol : Advances data.length offset 0
        (parseClusteringColumn true data header col offset) := by
      rw [parseClusteringColumn]
      split
      · exact parseClusteringValue_advances hoffset _
      · exact Advances.pure ⟨le_rfl, hoffset⟩
      · exact Advances.pure ⟨le_rfl, hoffset⟩
    refine Advances.bind (k := 0) hcol fun value n _ _ hn => ?_
    exact Advances.bind (k := 0) (ih hn) fun values m _ _ hm => Advances.pure ⟨le_rfl, hm⟩

theorem parseClusteringPrefix_advances (hoffset : offset ≤ data.length) :
    Advances data.length offset (if keys.isEmpty then 0 else 1)
      (parseClusteringPrefix true keys data offset) := by
  rw [parseClusteringPrefix]
  split
  · exact Advances.pure ⟨le_rfl, hoffset⟩
  · exact Advances.bind (k := 0) (vuintAt_advances _ hoffset) fun header n _ _ hn =>
      parseClusteringColumns_advances header _ hn

/-! Row metadata -/

theorem timestampAt_advances (field : String) (hpos : pos ≤ data.length) :
    Advances data.length pos 1 (timestampAt schema data field pos) :=
  Advances.bind (k := 0) (vuintAt_advances _ hpos) fun _ _ _ _ hn => Advances.pure ⟨le_rfl, hn⟩

theorem ttlAt_advances (hpos : pos ≤ data.length) :
    Advances data.length pos 1 (ttlAt schema data pos) := by
  refine Advances.bind (k := 0) (vuintAt_advances _ hpos) fun ttlDelta n _ _ hn => ?_
  exact Advances.bind (k := 0) (vuintAt_advances _ hn).loose fun ldtDelta m _ _ hm =>
    Advances.pure ⟨le_rfl, hm⟩

theorem deletionAt_advances (field : String) (hpos : pos ≤ data.length) :
    Advances data.length pos 1 (deletionAt schema data field pos) := by
  refine Advances.bind (k := 0) (timestampAt_advances _ hpos) fun timestamp n _ _ hn => ?_
  exact Advances.bind (k := 0) (vuintAt_advances _ hn).loose fun delta m _ _ hm =>
    Advances.pure ⟨le_rfl, hm⟩

theorem rowFieldsAt_advances (hoffset : offset ≤ data.length) (flags : UInt8) :
    Advances data.length offset 1 (rowFieldsAt schema data offset flags) := by
  refine Advances.bind (k := 0) (vuintAt_advances _ hoffset) fun rowSize sizeEnd _ _ hsize => ?_
  refine Advances.bind (k := 0) (vuintAt_advances _ hsize).loose fun prev pos _ _ hpos => ?_
  refine Advances.bind (k := 0) (fieldAt_advances _ hpos
    (timestampAt_advances _ hpos).loose) fun timestamp pos _ _ hpos => ?_
  refine Advances.bind (k := 0) (fieldAt_advances _ hpos
    (ttlAt_advances hpos).loose) fun ttl pos _ _ hpos => ?_
  refine Advances.bind (k := 0) (fieldAt_advances _ hpos
    (deletionAt_advances _ hpos).loose) fun deletion pos _ _ hpos => ?_
  exact Advances.bind (k := 0) (fieldAt_advances _ hpos
    (vuintAt_advances _ hpos).loose) fun bitmap pos _ _ hpos =>
      Advances.pure ⟨le_rfl, hpos⟩

theorem parseRowMetadata_sound (hoffset : offset ≤ data.length) (flags : UInt8) :
    (parseRowMetadata schema data offset flags).outcome ≠ .fault := by
  have hfields : Advances data.length offset 1 (rowFieldsAt schema data offset flags) :=
    rowFieldsAt_advances hoffset flags
  intro hfault
  rcases outcome_bind_fault.1 hfault with h | ⟨⟨⟨rowSize, vintLen, fields⟩, pos⟩, hok, h⟩
  · exact hfields.sound h
  · have hnext := hfields.next _ _ hok
    rcases outcome_bind_fault.1 h with h | ⟨headerSize, -, h⟩
    · have hlt := outcome_sub_fault.1 h
      omega
    · cases h

theorem parseRowMetadata_ok (hoffset : offset ≤ data.length) {flags : UInt8} {header : RowHeaderAt}
    {rowSize : Nat}
    (hok : (parseRowMetadata schema data offset flags).outcome = .ok (header, rowSize)) :
    0 < header.headerSize ∧ offset + header.headerSize ≤ data.length := by
  obtain ⟨⟨⟨size, vintLen, fields⟩, pos⟩, hfields, hok⟩ := outcome_bind_ok.1 hok
  obtain ⟨headerSize, hsub, hok⟩ := outcome_bind_ok.1 hok
  obtain ⟨rfl, -⟩ := Prod.mk.inj (Outcome.ok.inj hok)
  obtain ⟨-, rfl⟩ := outcome_sub_ok.1 hsub
  have hnext := (rowFieldsAt_advances hoffset flags).next _ _ hfields
  dsimp only
  omega

/-! Markers -/

theorem clusterCountAt_advances (suffix : String) (pos : Nat) :
    Advances data.length pos 2 (clusterCountAt true data suffix pos) := by
  refine Advances.step (plus_sound _ _ _ _) fun stop hstop => ?_
  obtain rfl := plus_ok hstop
  split
  · exact Advances.fail _
  · refine Advances.step ?_ fun bytes _ => Advances.pure (by omega)
    rw [Ne, outcome_slice_fault]
    omega

theorem boundValuesAt_advances (hpos : pos ≤ data.length) (count : Nat) :
    Advances data.length pos 0 (boundValuesAt true keys data count pos) := by
  rw [boundValuesAt]
  split
  · exact (parseClusteringPrefix_advances hpos).loose
  · exact Advances.pure ⟨le_rfl, hpos⟩

theorem markerStart_advances (suffix : String) (offset : Nat) :
    Advances data.length offset 1 (markerStart true keys data suffix offset) := by
  refine Advances.bind (k := 0) (nextByte_advances _ offset) fun flags pos _ _ hpos => ?_
  refine Advances.bind (k := 0) (fieldAt_advances _ hpos
    (nextByte_advances _ pos).loose) fun extended pos _ _ hpos => ?_
  refine Advances.bind (k := 0) (nextByte_advances _ pos).loose
    fun kind pos _ _ hpos => ?_
  refine Advances.bind (k := 0) (clusterCountAt_advances _ pos).loose
    fun count pos _ _ hpos => ?_
  refine Advances.bind (k := 0) (boundValuesAt_advances hpos count) fun values pos _ _ hpos => ?_
  exact Advances.bind (k := 0) (vuintAt_advances _ hpos).loose
    fun size pos _ _ hpos => Advances.pure ⟨le_rfl, hpos⟩

theorem markerEnd_sound (checked : Bool) (suffix : String) (size pos : Nat) :
    (markerEnd checked data suffix size pos).outcome ≠ .fault := fun h => by
  rcases outcome_bind_fault.1 h with h | ⟨bodyEnd, -, h⟩
  · exact plus_sound _ _ _ _ h
  · split at h
    · cases h
    · cases h

theorem markerEnd_ok {suffix : String} {size bodyEnd : Nat}
    (h : (markerEnd true data suffix size pos).outcome = .ok bodyEnd) :
    pos ≤ bodyEnd ∧ bodyEnd ≤ data.length := by
  obtain ⟨stop, hstop, h⟩ := outcome_bind_ok.1 h
  obtain rfl := plus_ok hstop
  split at h
  · cases h
  · obtain rfl := Outcome.ok.inj h
    omega

theorem skipRangeTombstoneMarker_advances (offset : Nat) :
    Advances data.length offset 1 (skipRangeTombstoneMarker true keys data offset) := by
  refine Advances.bind (k := 0) (markerStart_advances _ offset) fun _ pos _ _ _ => ?_
  exact Advances.step (markerEnd_sound _ _ _ _) fun bodyEnd hend => Advances.pure (markerEnd_ok hend)

/-- The body is read from inside the buffer, and the marker ends where its size says. -/
theorem parseRangeTombstoneMarkerWithLdt_advances (offset : Nat) :
    Advances data.length offset 1
      (parseRangeTombstoneMarkerWithLdt true schema keys data offset) := by
  refine Advances.bind (k := 0) (markerStart_advances _ offset) fun start pos _ _ hpos => ?_
  refine Advances.step (markerEnd_sound _ _ _ _) fun bodyEnd hend => ?_
  have hprev := vuintAt_advances
    ("Failed to parse prev_size in marker body (compaction) at " ++ toString pos) hpos
  refine Advances.step hprev.sound fun prev hok => ?_
  have hprevEnd := (hprev.next _ _ hok).2
  have hpair : ∀ {pos : Nat}, pos ≤ data.length →
      Advances data.length pos 1 (parseDeletionTimePairWithLdt schema data pos) :=
    fun hpos => deletionAt_advances _ hpos
  have hprimary := hpair hprevEnd
  refine Advances.step hprimary.sound fun primary hok => ?_
  have hprimaryEnd := (hprimary.next _ _ hok).2
  have hsecondary :=
    fieldAt_advances (start.1 == 2 || start.1 == 5) hprimaryEnd (hpair hprimaryEnd).loose
  exact Advances.step hsecondary.sound fun secondary _ => Advances.pure (markerEnd_ok hend)

/-! Rows -/

theorem rowEnd_advances (a : α) (rowSize offset : Nat) {bodyStart : Nat} (hpos : pos ≤ bodyStart) :
    Advances data.length pos 0 (do
      let next ← rowEnd true data rowSize offset bodyStart
      return (a, next)) := by
  refine Advances.step ?_ fun next hok => Advances.pure ?_
  · rw [rowEnd]
    split
    · exact nofun
    · intro h
      rcases outcome_bind_fault.1 h with h | ⟨afterRow, -, h⟩
      · exact plus_sound _ _ _ _ h
      · split at h
        · cases h
        · cases h
  · rw [rowEnd] at hok
    split at hok
    · cases hok
    · obtain ⟨afterRow, hplus, hok⟩ := outcome_bind_ok.1 hok
      obtain rfl := plus_ok hplus
      split at hok
      · cases hok
      · obtain rfl := Outcome.ok.inj hok
        omega

theorem parseRowDataWithOffset_advances (offset : Nat) :
    Advances data.length offset 1 (parseRowDataWithOffset true schema keys data offset) := by
  have hflags : Advances data.length offset 1 (parseRowFlags data offset) := by
    refine Advances.bind (k := 0) (nextByte_advances _ offset) fun flags pos _ _ hpos => ?_
    exact Advances.bind (k := 0) (fieldAt_advances _ hpos
      (nextByte_advances _ pos).loose) fun extended pos _ _ hpos =>
        Advances.pure ⟨le_rfl, hpos⟩
  refine Advances.bind (k := 0) hflags fun flags pos _ _ hpos => ?_
  have hprefix : Advances data.length pos 0
      (rowPrefixAt true keys data (isStaticRow flags.2) pos) := by
    rw [rowPrefixAt]
    split
    · exact Advances.pure ⟨le_rfl, hpos⟩
    · exact (parseClusteringPrefix_advances hpos).loose
  refine Advances.bind (k := 0) hprefix fun clustering pos _ _ hpos => ?_
  refine Advances.step (parseRowMetadata_sound hpos _) fun metadata _ => ?_
  exact rowEnd_advances _ _ _ (Nat.le_add_right _ _)

end Progress

/-! ### The parsers over suffixes -/

section Suffixes

variable {schema : ReadSchema} {keys : List TypedColumn} {data : Bytes} {pos : Nat} {α : Type}

/-- The first byte and those behind it. -/
def firstByte (data : Bytes) : Option (UInt8 × Bytes) := data.head?.map fun b => (b, data.tail)

theorem nextByte_mirrors (message : String) (pos : Nat) :
    Mirrors (Leaves data) (nextByte message data pos) (firstByte (data.drop pos)) := by
  rw [nextByte, firstByte, List.head?_drop, List.tail_drop]
  split
  · rename_i hpos
    exact Mirrors.fail _ (by rw [List.getElem?_eq_none hpos, Option.map_none])
  · rename_i hpos
    have hget := List.getElem?_eq_getElem (Nat.not_le.1 hpos)
    rw [hget]
    exact Mirrors.step (outcome_index_ok.2 hget) (Mirrors.pure ⟨by omega, rfl⟩)

theorem vuintAt_mirrors (message : String) (hpos : pos ≤ data.length) :
    Mirrors (Leaves data) (vuintAt message data pos) (decodeUnsigned (data.drop pos)) := by
  refine Mirrors.step (outcome_slice_ok.2 ⟨⟨hpos, le_rfl⟩, rfl⟩) ?_
  rw [List.take_length]
  split
  · rename_i hdecode
    exact Mirrors.fail _ hdecode
  · rename_i value remaining hdecode
    obtain ⟨front, hfront, -⟩ := decodeUnsigned_suffix hdecode
    have hlen := congrArg List.length hfront
    rw [List.length_append, List.length_drop] at hlen
    rw [hdecode]
    refine Mirrors.pure ⟨by rw [List.length_drop]; omega, Prod.ext rfl ?_⟩
    rw [← List.drop_drop, List.length_drop,
      show data.length - pos - remaining.length = front.length by omega, hfront, List.drop_left]

theorem fieldAt_mirrors (present : Bool) {read : Nat → Run FramingError (α × Nat)}
    {parse : Bytes → Option (α × Bytes)} (hpos : pos ≤ data.length)
    (hread : Mirrors (Leaves data) (read pos) (parse (data.drop pos))) :
    Mirrors (Leaves data) (fieldAt present read pos)
      (readField present parse (data.drop pos)) := by
  rw [fieldAt, readField]
  split
  · exact hread.last fun a n hn => ⟨hn, rfl⟩
  · exact Mirrors.pure ⟨hpos, rfl⟩

/-! The clustering prefix -/

/-- The bytes up to a sum of positions, or an error when they are not all there. -/
theorem span_mirrors (hlen : data.length < 2 ^ 64) (hpos : pos ≤ data.length) (k : Nat)
    {message : Nat → String} {finish : Bytes → Nat → Run FramingError (α × Nat)}
    {parse : Bytes × Bytes → Option (α × Bytes)}
    (hfinish : ∀ bytes n, n ≤ data.length →
      Mirrors (Leaves data) (finish bytes n) (parse (bytes, data.drop n))) :
    Mirrors (Leaves data) (do
      let stop ← plus .overflow true pos k
      if data.length < stop then do
        let available ← sub data.length pos
        corrupt (message available)
      else do
        let bytes ← slice data pos stop
        finish bytes stop) ((splitFront k (data.drop pos)).bind parse) := by
  have hnone : data.length < pos + k → splitFront k (data.drop pos) = none := fun h => by
    rw [splitFront, if_pos (by rw [List.length_drop]; omega)]
  refine Mirrors.plus hlen (fun h => by rw [hnone h, Option.bind_none]) ?_
  split
  · rename_i h
    exact Mirrors.step (outcome_sub_ok.2 ⟨hpos, rfl⟩)
      (Mirrors.fail _ (by rw [hnone h, Option.bind_none]))
  · rename_i h
    rw [splitFront, if_neg (by rw [List.length_drop]; omega), Option.bind_some, List.drop_drop]
    refine Mirrors.step (outcome_slice_ok.2 ⟨by omega, ?_⟩) (hfinish _ _ (by omega))
    rw [List.drop_take, Nat.add_sub_cancel_left]

theorem parseClusteringValue_mirrors (hlen : data.length < 2 ^ 64) (hpos : pos ≤ data.length)
    (col : TypedColumn) :
    Mirrors (Leaves data) (parseClusteringValue true data pos col)
      (Cqlite.parseClusteringValue col.dataType (data.drop pos)) := by
  have hfixed : ∀ name what k wrap,
      Mirrors (Leaves data) (fixedValue true data name what k wrap pos)
        ((splitFront k (data.drop pos)).map fun p => (wrap p.1, p.2)) := fun _ _ k _ => by
    rw [Option.map_eq_bind]
    exact span_mirrors hlen hpos k fun _ _ hn => Mirrors.pure ⟨hn, rfl⟩
  have hprefixed : ∀ name what forWhat decode (parse : Bytes × Bytes → Option (Value × Bytes)),
      (∀ bytes n, n ≤ data.length →
        Mirrors (Leaves data) (do return (← decode bytes, n)) (parse (bytes, data.drop n))) →
      Mirrors (Leaves data) (prefixedValue true data name what forWhat decode pos)
        ((readLengthPrefixed (data.drop pos)).bind parse) := fun _ _ _ _ _ hdecode => by
    rw [readLengthPrefixed, Option.bind_assoc]
    exact (vuintAt_mirrors _ hpos).next fun len n hn => span_mirrors hlen hn len hdecode
  rw [parseClusteringValue, Cqlite.parseClusteringValue]
  cases clusteringForm col.dataType with
  | timestamp => exact hfixed _ _ _ _
  | text =>
    refine hprefixed _ _ _ _ _ fun bytes n hn => ?_
    rw [decodeText]
    cases validUtf8 bytes with
    | true => exact Mirrors.pure ⟨hn, rfl⟩
    | false => exact Mirrors.fail _ rfl
  | int => exact hfixed _ _ _ _
  | uuid => exact hfixed _ _ _ _
  | bigInt => exact hfixed _ _ _ _
  | unsupported =>
    dsimp only
    rw [Option.map_eq_bind]
    exact hprefixed _ _ _ _ _ fun _ _ hn => Mirrors.pure ⟨hn, rfl⟩

theorem parseClusteringColumns_mirrors (hlen : data.length < 2 ^ 64) (header : Nat)
    (cols : List (TypedColumn × Nat)) : ∀ {pos : Nat}, pos ≤ data.length →
      Mirrors (Leaves data) (parseClusteringColumns true data header cols pos)
        (Cqlite.parseClusteringColumns header (cols.map fun col => (col.1.dataType, col.2))
          (data.drop pos)) := by
  induction cols with
  | nil => exact fun hpos => Mirrors.pure ⟨hpos, rfl⟩
  | cons col cols ih =>
    intro pos hpos
    refine Mirrors.next ?_ fun value n hn => (ih hn).last fun values m hm => ⟨hm, rfl⟩
    rw [parseClusteringColumn, Cqlite.parseClusteringColumn]
    rcases stateBits header col.2 with _ | _ | _
    · exact parseClusteringValue_mirrors hlen hpos _
    · exact Mirrors.pure ⟨hpos, rfl⟩
    · exact Mirrors.pure ⟨hpos, rfl⟩

theorem parseClusteringPrefix_mirrors (hlen : data.length < 2 ^ 64) (hpos : pos ≤ data.length) :
    Mirrors (Leaves data) (parseClusteringPrefix true keys data pos)
      (Cqlite.parseClusteringPrefix (keys.map TypedColumn.dataType) (data.drop pos)) := by
  rw [parseClusteringPrefix, Cqlite.parseClusteringPrefix, List.isEmpty_map, List.zipIdx_map]
  split
  · exact Mirrors.pure ⟨hpos, rfl⟩
  · exact (vuintAt_mirrors _ hpos).next fun header n hn =>
      parseClusteringColumns_mirrors hlen header _ hn

/-! The row -/

theorem timestampAt_mirrors (field : String) (hpos : pos ≤ data.length) :
    Mirrors (Leaves data) (timestampAt schema data field pos)
      (readTimestamp schema (data.drop pos)) :=
  (vuintAt_mirrors _ hpos).last fun _ _ hn => ⟨hn, rfl⟩

theorem ttlAt_mirrors (hpos : pos ≤ data.length) :
    Mirrors (Leaves data) (ttlAt schema data pos) (readTtl schema (data.drop pos)) :=
  (vuintAt_mirrors _ hpos).next fun _ _ hn => (vuintAt_mirrors _ hn).last fun _ _ hm => ⟨hm, rfl⟩

theorem deletionAt_mirrors (field : String) (hpos : pos ≤ data.length) :
    Mirrors (Leaves data) (deletionAt schema data field pos)
      (readDeletion schema (data.drop pos)) :=
  (timestampAt_mirrors _ hpos).next fun _ _ hn =>
    (vuintAt_mirrors _ hn).last fun _ _ hm => ⟨hm, rfl⟩

/-- The same size and fields, and the row is counted from the same byte. -/
def SameMetadata (data : Bytes) (fields : RowHeaderFields) (rowSize bodyStart : Nat)
    (metadata : RowMetadata) : Prop :=
  bodyStart ≤ data.length ∧ metadata.header = fields ∧ metadata.rowSize = rowSize ∧
    metadata.body = data.drop bodyStart

theorem rowFieldsAt_mirrors (hpos : pos ≤ data.length) (flags : UInt8) :
    Mirrors (fun p => SameMetadata data p.1.2.2 p.1.1 (pos + p.1.2.1))
      (rowFieldsAt schema data pos flags)
      (Cqlite.parseRowMetadata schema flags (data.drop pos)) := by
  have hsize : Mirrors (Leaves data) _ _ :=
    vuintAt_mirrors ("Failed to parse row size at offset " ++ toString pos) hpos
  refine hsize.bind fun ⟨rowSize, sizeEnd⟩ _ hok ⟨hle, hq⟩ => ?_
  obtain ⟨hge, -⟩ := (vuintAt_advances _ hpos).next _ _ hok
  rw [hq]
  refine (vuintAt_mirrors _ hle).next fun prev pos hpos => ?_
  simp only [parseRowFields, Option.map_bind, Function.comp_def, Option.map_map]
  refine (fieldAt_mirrors _ hpos (timestampAt_mirrors _ hpos)).next fun timestamp pos hpos => ?_
  refine (fieldAt_mirrors _ hpos (ttlAt_mirrors hpos)).next fun ttl pos hpos => ?_
  refine (fieldAt_mirrors _ hpos (deletionAt_mirrors _ hpos)).next fun deletion pos hpos => ?_
  refine (fieldAt_mirrors _ hpos (vuintAt_mirrors _ hpos)).last fun bitmap pos hpos => ?_
  dsimp only at hge hle ⊢
  rw [Nat.add_sub_cancel' (by omega)]
  exact ⟨hle, rfl, rfl, rfl⟩

theorem parseRowMetadata_mirrors (hpos : pos ≤ data.length) (flags : UInt8) :
    Mirrors (fun p => SameMetadata data p.1.toRowHeaderFields p.2 (pos + p.1.rowSizeVintLen))
      (parseRowMetadata schema data pos flags)
      (Cqlite.parseRowMetadata schema flags (data.drop pos)) := by
  rw [← Option.bind_fun_some (Cqlite.parseRowMetadata _ _ _)]
  refine (rowFieldsAt_mirrors hpos flags).bind fun p metadata hok hsame => ?_
  obtain ⟨hge, -⟩ := (rowFieldsAt_advances hpos flags).next _ _ hok
  exact Mirrors.step (outcome_sub_ok.2 ⟨by omega, rfl⟩) (Mirrors.pure hsame)

/-- On data of fewer than `2 ^ 64` bytes the two readers of a row fail together, and otherwise they
    find the same flags, values and header and end the row at the same byte. -/
theorem parseRowDataWithOffset_mirrors {C : Type}
    (parseCell : RowStart → Nat → Bytes → Option (C × Bytes)) (hlen : data.length < 2 ^ 64)
    (hkeys : schema.clusteringTypes = keys.map TypedColumn.dataType) (offset : Nat) :
    Mirrors (fun p row => Leaves data p (row.toRowStart, row.rest))
      (parseRowDataWithOffset true schema keys data offset)
      (parseRowData schema parseCell (data.drop offset)) := by
  have hparse : ∀ bytes, Cqlite.parseRowFlags bytes =
      (firstByte bytes).bind fun p => (readField (flag 0x80 p.1) firstByte p.2).map fun q =>
        (p.1, q.1, q.2) := fun bytes => by
    cases bytes with
    | nil => rfl
    | cons flags bytes =>
      change _ = (readField (flag 0x80 flags) firstByte bytes).map _
      cases hflag : flag 0x80 flags with
      | false => simp [Cqlite.parseRowFlags, readField, hflag]
      | true => cases bytes <;> simp [Cqlite.parseRowFlags, readField, hflag, firstByte]
  have hflags : Mirrors (fun p q => p.2 ≤ data.length ∧ q = (p.1.1, p.1.2, data.drop p.2))
      (parseRowFlags data offset) (Cqlite.parseRowFlags (data.drop offset)) := by
    rw [hparse]
    exact (nextByte_mirrors _ _).next fun flags pos hpos =>
      (fieldAt_mirrors _ hpos (nextByte_mirrors _ _)).last fun extended pos hpos => ⟨hpos, rfl⟩
  refine hflags.bind fun ⟨⟨flags, extended⟩, pos⟩ _ _ ⟨hpos, hq⟩ => ?_
  rw [hq]
  have hprefix : Mirrors (Leaves data) (rowPrefixAt true keys data (isStaticRow extended) pos)
      (if isStaticRow extended then some ([], data.drop pos)
        else Cqlite.parseClusteringPrefix schema.clusteringTypes (data.drop pos)) := by
    rw [rowPrefixAt, hkeys]
    split
    · exact Mirrors.pure ⟨hpos, rfl⟩
    · exact parseClusteringPrefix_mirrors hlen hpos
  refine hprefix.next fun clustering pos hpos => ?_
  refine (parseRowMetadata_mirrors hpos flags).bind fun ⟨header, rowSize⟩ metadata _ hsame => ?_
  obtain ⟨hle, hheader, hrow, hbody⟩ := hsame
  dsimp only at hle hheader hrow hbody ⊢
  rw [rowEnd, finishRow, hbody, hrow, List.length_drop]
  split
  · exact Mirrors.fail _ rfl
  · rename_i hfits
    rw [bind_assoc]
    refine Mirrors.plus hlen (fun h => absurd h (by omega)) ?_
    rw [if_neg (by omega)]
    exact Mirrors.pure ⟨by dsimp only; omega, Prod.ext (by rw [hheader]) (List.drop_drop ..)⟩

end Suffixes

/-! ### Sums that are not checked -/

section Unchecked

variable (schema : ReadSchema) (keys : List TypedColumn) (data : Bytes)

theorem parseClusteringValue_agrees (offset : Nat) (col : TypedColumn) :
    Agrees .overflow (parseClusteringValue true data offset col)
      (parseClusteringValue false data offset col) := by
  have hfixed : ∀ name what k wrap, Agrees .overflow
      (fixedValue true data name what k wrap offset) (fixedValue false data name what k wrap offset) :=
    fun _ _ k _ => Agrees.bind (Agrees.plus offset k) fun _ => Agrees.refl _
  have hprefixed : ∀ name what forWhat decode, Agrees .overflow
      (prefixedValue true data name what forWhat decode offset)
      (prefixedValue false data name what forWhat decode offset) :=
    fun _ _ _ _ => Agrees.bind (Agrees.refl _) fun p =>
      Agrees.bind (Agrees.plus p.2 p.1) fun _ => Agrees.refl _
  rw [parseClusteringValue, parseClusteringValue]
  cases clusteringForm col.dataType with
  | timestamp => exact hfixed _ _ _ _
  | text => exact hprefixed _ _ _ _
  | int => exact hfixed _ _ _ _
  | uuid => exact hfixed _ _ _ _
  | bigInt => exact hfixed _ _ _ _
  | unsupported => exact hprefixed _ _ _ _

theorem parseClusteringColumns_agrees (header : Nat) (cols : List (TypedColumn × Nat)) :
    ∀ offset, Agrees .overflow (parseClusteringColumns true data header cols offset)
      (parseClusteringColumns false data header cols offset) := by
  induction cols with
  | nil => exact fun _ => Agrees.refl _
  | cons col cols ih =>
    intro offset
    refine Agrees.bind ?_ fun p => Agrees.bind (ih p.2) fun _ => Agrees.refl _
    rw [parseClusteringColumn, parseClusteringColumn]
    split
    · exact parseClusteringValue_agrees _ _ _
    · exact Agrees.refl _
    · exact Agrees.refl _

theorem parseClusteringPrefix_agrees (offset : Nat) :
    Agrees .overflow (parseClusteringPrefix true keys data offset)
      (parseClusteringPrefix false keys data offset) := by
  rw [parseClusteringPrefix, parseClusteringPrefix]
  split
  · exact Agrees.refl _
  · exact Agrees.bind (Agrees.refl _) fun p => parseClusteringColumns_agrees _ _ _ _

theorem markerStart_agrees (suffix : String) (offset : Nat) :
    Agrees .overflow (markerStart true keys data suffix offset)
      (markerStart false keys data suffix offset) := by
  have hcount : ∀ pos, Agrees .overflow (clusterCountAt true data suffix pos)
      (clusterCountAt false data suffix pos) :=
    fun pos => Agrees.bind (Agrees.plus pos 2) fun _ => Agrees.refl _
  have hvalues : ∀ count pos, Agrees .overflow (boundValuesAt true keys data count pos)
      (boundValuesAt false keys data count pos) := fun count pos => by
    rw [boundValuesAt, boundValuesAt]
    split
    · exact parseClusteringPrefix_agrees _ _ _
    · exact Agrees.refl _
  exact Agrees.bind (Agrees.refl _) fun flags => Agrees.bind (Agrees.refl _) fun extended =>
    Agrees.bind (Agrees.refl _) fun kind => Agrees.bind (hcount _) fun count =>
      Agrees.bind (hvalues _ _) fun values => Agrees.refl _

theorem markerEnd_agrees (suffix : String) (size pos : Nat) :
    Agrees .overflow (markerEnd true data suffix size pos) (markerEnd false data suffix size pos) :=
  Agrees.bind (Agrees.plus pos size) fun _ => Agrees.refl _

theorem skipRangeTombstoneMarker_agrees (offset : Nat) :
    Agrees .overflow (skipRangeTombstoneMarker true keys data offset)
      (skipRangeTombstoneMarker false keys data offset) :=
  Agrees.bind (markerStart_agrees _ _ _ _) fun _ => Agrees.bind (markerEnd_agrees _ _ _ _)
    fun _ => Agrees.refl _

theorem parseRangeTombstoneMarkerWithLdt_agrees (offset : Nat) :
    Agrees .overflow (parseRangeTombstoneMarkerWithLdt true schema keys data offset)
      (parseRangeTombstoneMarkerWithLdt false schema keys data offset) :=
  Agrees.bind (markerStart_agrees _ _ _ _) fun _ => Agrees.bind (markerEnd_agrees _ _ _ _)
    fun _ => Agrees.refl _

theorem parseRowDataWithOffset_agrees (offset : Nat) :
    Agrees .overflow (parseRowDataWithOffset true schema keys data offset)
      (parseRowDataWithOffset false schema keys data offset) := by
  refine Agrees.bind (Agrees.refl _) fun flags => Agrees.bind ?_ fun clustering =>
    Agrees.bind (Agrees.refl _) fun metadata => Agrees.bind ?_ fun _ => Agrees.refl _
  · rw [rowPrefixAt, rowPrefixAt]
    split
    · exact Agrees.refl _
    · exact parseClusteringPrefix_agrees _ _ _
  · rw [rowEnd, rowEnd]
    split
    · exact Agrees.refl _
    · exact Agrees.bind (Agrees.plus _ _) fun _ => Agrees.refl _

end Unchecked

end RowDecoder

end Cqlite
