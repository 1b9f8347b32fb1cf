import Cqlite.Engine.Wal
import Cqlite.Lib.Checked
import Cqlite.Lib.VInt

/-! Reading `Summary.db` (`summary_reader/mod.rs`: `parse_summary_data`,
    `parse_entries_from_offsets`, `normalize_entry_offsets`).

    The sizes in the header are taken from one another before they are compared with what is there:
    a summary that claims to be smaller than its own offset table makes the difference underflow. -/

namespace Cqlite

open VInt Checked

/-! ### The file -/

inductive IndexError
  | corruption (message : String)
  | serialization (message : String)
  | eof
  | cancelled
  deriving DecidableEq

structure SummaryHeader where
  minIndexInterval : Nat
  entriesCount : Nat
  summaryEntriesSize : Nat
  samplingLevel : Nat
  sizeAtFullSampling : Nat
  deriving DecidableEq

structure SummaryEntry where
  partitionKey : Bytes
  position : Nat
  deriving DecidableEq

structure SummaryData where
  header : SummaryHeader
  entries : List SummaryEntry
  firstKey : Bytes
  lastKey : Bytes
  deriving DecidableEq

def summaryHeaderSize : Nat := 24

def maxReasonableEntries : Nat := 100000000

/-! ### Numbers and keys -/

/-- A big-endian number of `k` bytes and the bytes behind it. -/
def beNumber (k : Nat) (input : Bytes) : Option (Nat × Bytes) :=
  (splitFront k input).map fun p => (fromBe p.1, p.2)

/-- `parse_summary_header`. -/
def parseSummaryHeader (input : Bytes) : Option (SummaryHeader × Bytes) := do
  let (minIndexInterval, input) ← beNumber 4 input
  let (entriesCount, input) ← beNumber 4 input
  let (summaryEntriesSize, input) ← beNumber 8 input
  let (samplingLevel, input) ← beNumber 4 input
  let (sizeAtFullSampling, input) ← beNumber 4 input
  return (⟨minIndexInterval, entriesCount, summaryEntriesSize, samplingLevel, sizeAtFullSampling⟩,
    input)

/-- `count(le_u32, n)`. -/
def countLeU32 : Nat → Bytes → Option (List Nat × Bytes)
  | 0, input => some ([], input)
  | n + 1, input => do
    let (front, input) ← splitFront 4 input
    let (numbers, input) ← countLeU32 n input
    return (fromLeBytes front :: numbers, input)

/-- `parse_serialized_key`. -/
def parseSerializedKey (input : Bytes) : Option (Bytes × Bytes) := do
  let (size, input) ← beNumber 4 input
  splitFront size input

/-! ### Entries -/

/-- Offsets from the start of the entries. The table counts them from its own start; an older writer
    did not. -/
def normalizeEntryOffsets (offsets : List Nat)
    (entryDataSize offsetTableSize summaryEntriesSize : Nat) : Run IndexError (List Nat) :=
  if offsets.isEmpty then return []
  else do
    request offsets.length
    let first ← index offsets 0
    if first = 0 ∧ offsets.all (· < entryDataSize) then return offsets
    else if offsets.all fun o => offsetTableSize ≤ o ∧ o < summaryEntriesSize then
      request offsets.length
      offsets.mapM (sub · offsetTableSize)
    else fail (.corruption ("Summary.db offsets are invalid for both relative and absolute layouts: " ++
      "offsets=" ++ toString offsets ++ ", entry_data_size=" ++ toString entryDataSize ++
      ", offset_table_size=" ++ toString offsetTableSize ++ ", summary_entries_size=" ++
      toString summaryEntriesSize))

/-- The key and the position between two offsets. -/
def parseEntry (entryData : Bytes) (i start stop : Nat) : Run IndexError SummaryEntry :=
  if start ≥ stop then
    fail (.corruption ("Invalid offset at index " ++ toString i ++ ": start " ++ toString start ++
      " >= end " ++ toString stop))
  else if stop > entryData.length then
    fail (.corruption ("Offset " ++ toString stop ++ " points beyond entry data (size " ++
      toString entryData.length ++ ")"))
  else do
    let entryBytes ← slice entryData start stop
    if entryBytes.length < 8 then
      fail (.corruption ("Entry " ++ toString i ++ " too small: " ++ toString entryBytes.length ++
        " bytes, need at least 8 for position"))
    else
      let keyLen ← sub entryBytes.length 8
      let partitionKey ← slice entryBytes 0 keyLen
      request keyLen
      let positionBytes ← slice entryBytes keyLen entryBytes.length
      let position ← (List.range 8).mapM (index positionBytes)
      return { partitionKey, position := fromLeBytes position }

/-- Where entry `i` ends. -/
def entryEnd (offsets : List Nat) (entryDataSize i : Nat) : Run IndexError Nat :=
  if i + 1 < offsets.length then index offsets (i + 1) else pure entryDataSize

def parseEntriesFromOffsets (entryData : Bytes) (offsets : List Nat)
    (offsetTableSize summaryEntriesSize : Nat) : Run IndexError (List SummaryEntry) := do
  let offsets ← normalizeEntryOffsets offsets entryData.length offsetTableSize summaryEntriesSize
  request offsets.length
  (List.range offsets.length).mapM fun i => do
    let start ← index offsets i
    let stop ← entryEnd offsets entryData.length i
    parseEntry entryData i start stop

/-- The value of a nom parser, or the error the caller makes of its own. -/
def orCorrupt {α : Type} (parsed : Option α) (message : String) : Run IndexError α :=
  match parsed with
  | some a => pure a
  | none => fail (.corruption message)

/-- The entries behind the header, and the two keys. -/
def parseSummaryBody (header : SummaryHeader) (remaining : Bytes) : Run IndexError SummaryData := do
  let offsetTableSize := header.entriesCount * 4
  if remaining.length < offsetTableSize then
    fail (.corruption ("Summary.db insufficient data for offset table: need " ++
      toString offsetTableSize ++ " bytes, have " ++ toString remaining.length))
  else
    request header.entriesCount
    let (offsets, afterOffsets) ← orCorrupt (countLeU32 header.entriesCount remaining)
      "Failed to parse offset table"
    let entryDataSize ← sub header.summaryEntriesSize offsetTableSize
    if afterOffsets.length < entryDataSize then
      fail (.corruption ("Summary.db insufficient entry data: need " ++ toString entryDataSize ++
        " bytes, have " ++ toString afterOffsets.length))
    else
      let entryData ← slice afterOffsets 0 entryDataSize
      let afterEntries ← slice afterOffsets entryDataSize afterOffsets.length
      let entries ← parseEntriesFromOffsets entryData offsets offsetTableSize
        header.summaryEntriesSize
      let (firstKey, afterFirst) ← orCorrupt (parseSerializedKey afterEntries)
        "Failed to parse first key"
      request firstKey.length
      let (lastKey, _) ← orCorrupt (parseSerializedKey afterFirst) "Failed to parse last key"
      request lastKey.length
      return { header, entries, firstKey, lastKey }

/-- `parse_summary_data`. -/
def parseSummaryData (input : Bytes) : Run IndexError SummaryData :=
  if input.length < summaryHeaderSize then
    fail (.corruption ("Summary.db too small: " ++ toString input.length ++
      " bytes, need at least " ++ toString summaryHeaderSize ++ " for header"))
  else do
    let (header, remaining) ← orCorrupt (parseSummaryHeader input)
      "Failed to parse Summary.db header"
    if header.entriesCount > maxReasonableEntries then
      fail (.corruption ("Summary.db entry count " ++ toString header.entriesCount ++
        " exceeds maximum " ++ toString maxReasonableEntries))
    else parseSummaryBody header remaining

/-! ### Lengths -/

variable {k n : Nat} {rest : Bytes}

theorem splitFront_eq_some {bytes front : Bytes} :
    splitFront k bytes = some (front, rest) ↔ bytes = front ++ rest ∧ front.length = k := by
  constructor
  · intro h
    rw [splitFront] at h
    split at h
    · cases h
    · rename_i hlen
      obtain ⟨rfl, rfl⟩ := Prod.ext_iff.1 (Option.some.inj h)
      exact ⟨(List.take_append_drop k bytes).symm, List.length_take_of_le (Nat.not_lt.1 hlen)⟩
  · rintro ⟨rfl, hlen⟩
    exact splitFront_append hlen rest

variable {input : Bytes}

theorem beNumber_length (h : beNumber k input = some (n, rest)) :
    input.length = k + rest.length := by
  obtain ⟨⟨front, rest'⟩, hsplit, heq⟩ := Option.map_eq_some_iff.1 h
  obtain ⟨rfl, hlen⟩ := splitFront_eq_some.1 hsplit
  obtain ⟨-, rfl⟩ := Prod.mk.inj heq
  rw [List.length_append, hlen]

theorem parseSummaryHeader_length {header : SummaryHeader}
    (h : parseSummaryHeader input = some (header, rest)) :
    input.length = summaryHeaderSize + rest.length := by
  simp only [parseSummaryHeader, Option.bind_eq_bind, Option.bind_eq_some_iff, Prod.exists] at h
  obtain ⟨_, r₁, h₁, _, r₂, h₂, _, r₃, h₃, _, r₄, h₄, _, r₅, h₅, heq⟩ := h
  obtain ⟨-, rfl⟩ := Prod.mk.inj (Option.some.inj heq)
  have := beNumber_length h₁
  have := beNumber_length h₂
  have := beNumber_length h₃
  have := beNumber_length h₄
  have := beNumber_length h₅
  rw [summaryHeaderSize]
  omega

theorem countLeU32_length {numbers : List Nat} (h : countLeU32 n input = some (numbers, rest)) :
    numbers.length = n ∧ input.length = 4 * n + rest.length := by
  induction n generalizing input numbers with
  | zero =>
    obtain ⟨rfl, rfl⟩ := Prod.mk.inj (Option.some.inj h)
    exact ⟨rfl, by omega⟩
  | succ n ih =>
    simp only [countLeU32, Option.bind_eq_bind, Option.bind_eq_some_iff, Prod.exists] at h
    obtain ⟨front, r₁, hsplit, more, r₂, hrest, heq⟩ := h
    obtain ⟨rfl, rfl⟩ := Prod.mk.inj (Option.some.inj heq)
    obtain ⟨rfl, hlen⟩ := splitFront_eq_some.1 hsplit
    obtain ⟨hnumbers, hlen'⟩ := ih hrest
    rw [List.length_append, List.length_cons]
    omega

theorem countLeU32_some (h : 4 * n ≤ input.length) :
    ∃ p, countLeU32 n input = some p := by
  induction n generalizing input with
  | zero => exact ⟨_, rfl⟩
  | succ n ih =>
    obtain ⟨p, hp⟩ := @ih (input.drop 4) (by rw [List.length_drop]; omega)
    have hsplit : splitFront 4 input = some (input.take 4, input.drop 4) :=
      splitFront_eq_some.2 ⟨(List.take_append_drop 4 input).symm, by rw [List.length_take]; omega⟩
    exact ⟨_, by simp only [countLeU32, hsplit, hp, Option.bind_eq_bind, Option.bind_some]; rfl⟩

theorem parseSerializedKey_length {input key : Bytes}
    (h : parseSerializedKey input = some (key, rest)) :
    input.length = 4 + key.length + rest.length := by
  simp only [parseSerializedKey, Option.bind_eq_bind, Option.bind_eq_some_iff, Prod.exists] at h
  obtain ⟨size, r, hsize, hkey⟩ := h
  have := beNumber_length hsize
  obtain ⟨rfl, rfl⟩ := splitFront_eq_some.1 hkey
  rw [List.length_append] at this
  omega

/-! ### Faults -/

/-- The header has room for its entries and its offset table is there, but it gives a size smaller
    than that of the table. -/
def SummaryUnderflows (input : Bytes) : Prop :=
  ∃ header remaining, parseSummaryHeader input = some (header, remaining) ∧
    header.entriesCount ≤ maxReasonableEntries ∧ header.entriesCount * 4 ≤ remaining.length ∧
      header.summaryEntriesSize < header.entriesCount * 4

section Safety

variable {bound : Nat}

variable {α : Type} {entryData : Bytes} {offsets : List Nat}

theorem orCorrupt_safe (parsed : Option α) (message : String) :
    Safe bound (orCorrupt parsed message) := by
  cases parsed with
  | some a => exact Safe.pure a
  | none => exact Safe.fail _

theorem orCorrupt_ok {parsed : Option α} {message : String} {a : α}
    (h : (orCorrupt parsed message).outcome = .ok a) : parsed = some a := by
  cases parsed with
  | some b => exact congrArg some (Outcome.ok.inj h)
  | none => cases h

theorem parseEntry_safe (hbound : entryData.length ≤ bound) (i start stop : Nat) :
    Safe bound (parseEntry entryData i start stop) := by
  rw [parseEntry]
  split
  · exact Safe.fail _
  split
  · exact Safe.fail _
  rename_i hstart hstop
  refine Safe.bind (Safe.slice (by omega)) fun entryBytes hentry => ?_
  obtain ⟨-, rfl⟩ := outcome_slice_ok.1 hentry
  split
  · exact Safe.fail _
  rename_i hlen
  rw [List.length_drop, List.length_take] at hlen
  refine Safe.bind (Safe.sub (by simp; omega)) fun keyLen hkey => ?_
  obtain ⟨-, rfl⟩ := outcome_sub_ok.1 hkey
  refine Safe.bind (Safe.slice (by omega)) fun partitionKey _ => ?_
  refine Safe.bind (Safe.request (by simp; omega)) fun _ _ => ?_
  refine Safe.bind (Safe.slice (by omega)) fun positionBytes hposition => ?_
  obtain ⟨-, rfl⟩ := outcome_slice_ok.1 hposition
  refine Safe.bind (Safe.mapM fun k hk => Safe.index ?_) fun _ _ => Safe.pure _
  have := List.mem_range.1 hk
  simp only [List.length_drop, List.length_take]
  omega

theorem normalizeEntryOffsets_safe (hbound : offsets.length ≤ bound)
    (entryDataSize offsetTableSize summaryEntriesSize : Nat) :
    Safe bound (normalizeEntryOffsets offsets entryDataSize offsetTableSize summaryEntriesSize) := by
  rw [normalizeEntryOffsets]
  split
  · exact Safe.pure _
  rename_i hne
  have hpos : 0 < offsets.length := List.length_pos_iff.2 (by simpa using hne)
  refine Safe.bind (Safe.request hbound) fun _ _ => Safe.bind (Safe.index hpos) fun first _ => ?_
  split
  · exact Safe.pure _
  split
  · rename_i hall
    rw [List.all_eq_true] at hall
    refine Safe.bind (Safe.request hbound) fun _ _ => Safe.mapM fun o ho => Safe.sub ?_
    exact (of_decide_eq_true (hall o ho)).1
  · exact Safe.fail _

theorem normalizeEntryOffsets_length {normal : List Nat}
    {entryDataSize offsetTableSize summaryEntriesSize : Nat}
    (h : (normalizeEntryOffsets offsets entryDataSize offsetTableSize summaryEntriesSize).outcome =
      .ok normal) : normal.length = offsets.length := by
  rw [normalizeEntryOffsets] at h
  split at h
  · rename_i hempty
    rw [← Outcome.ok.inj h, List.isEmpty_iff.1 hempty]
  obtain ⟨_, -, h⟩ := outcome_bind_ok.1 h
  obtain ⟨first, -, h⟩ := outcome_bind_ok.1 h
  split at h
  · rw [← Outcome.ok.inj h]
  split at h
  · obtain ⟨_, -, h⟩ := outcome_bind_ok.1 h
    exact (outcome_mapM_ok.1 h).length_eq.symm
  · cases h

theorem parseEntriesFromOffsets_safe (hdata : entryData.length ≤ bound)
    (hoffsets : offsets.length ≤ bound) (offsetTableSize summaryEntriesSize : Nat) :
    Safe bound (parseEntriesFromOffsets entryData offsets offsetTableSize summaryEntriesSize) := by
  rw [parseEntriesFromOffsets]
  refine Safe.bind (normalizeEntryOffsets_safe hoffsets _ _ _) fun normal hnormal => ?_
  have hlen := normalizeEntryOffsets_length hnormal
  refine Safe.bind (Safe.request (by omega)) fun _ _ => Safe.mapM fun i hi => ?_
  have hi := List.mem_range.1 hi
  refine Safe.bind (Safe.index hi) fun start _ => Safe.bind ?_ fun stop _ => parseEntry_safe hdata ..
  rw [entryEnd]
  split
  · rename_i hnext
    exact Safe.index hnext
  · exact Safe.pure _

/-- Behind its header a summary faults exactly where its size is too small for its table. -/
theorem parseSummaryBody_safe_iff {header : SummaryHeader} {remaining : Bytes}
    (hbound : remaining.length ≤ bound) :
    Safe bound (parseSummaryBody header remaining) ↔
      ¬ (header.entriesCount * 4 ≤ remaining.length ∧
        header.summaryEntriesSize < header.entriesCount * 4) := by
  rw [parseSummaryBody]
  constructor
  · rintro h ⟨hlen, hsize⟩
    have hroom : 4 * header.entriesCount ≤ remaining.length := by omega
    obtain ⟨p, hp⟩ := countLeU32_some hroom
    refine h.sound ?_
    dsimp only
    rw [if_neg (Nat.not_lt.2 hlen), hp]
    refine outcome_bind_fault.2 (Or.inr ⟨(), rfl, outcome_bind_fault.2 (Or.inr ⟨p, rfl, ?_⟩)⟩)
    exact outcome_bind_fault.2 (Or.inl (outcome_sub_fault.2 hsize))
  · intro h
    dsimp only
    split
    · exact Safe.fail _
    rename_i hlen
    have hsize : header.entriesCount * 4 ≤ header.summaryEntriesSize :=
      Nat.not_lt.1 fun hlt => h ⟨Nat.not_lt.1 hlen, hlt⟩
    refine Safe.bind (Safe.request (by omega)) fun _ _ => Safe.bind (orCorrupt_safe _ _) ?_
    rintro ⟨offsets, afterOffsets⟩ hoffsets
    obtain ⟨hcount, htotal⟩ := countLeU32_length (orCorrupt_ok hoffsets)
    refine Safe.bind (Safe.sub hsize) fun entryDataSize _ => ?_
    dsimp only
    split
    · exact Safe.fail _
    rename_i hdata
    refine Safe.bind (Safe.slice (by omega)) fun entryData hentryData => ?_
    obtain ⟨-, rfl⟩ := outcome_slice_ok.1 hentryData
    refine Safe.bind (Safe.slice (by omega)) fun afterEntries hafter => ?_
    obtain ⟨-, rfl⟩ := outcome_slice_ok.1 hafter
    refine Safe.bind (parseEntriesFromOffsets_safe (by simp; omega) (by omega) _ _) fun _ _ => ?_
    refine Safe.bind (orCorrupt_safe _ _) ?_
    rintro ⟨firstKey, afterFirst⟩ hfirst
    have hfirst := parseSerializedKey_length (orCorrupt_ok hfirst)
    rw [List.length_drop, List.length_take] at hfirst
    refine Safe.bind (Safe.request (by dsimp only; omega)) fun _ _ => Safe.bind (orCorrupt_safe _ _) ?_
    rintro ⟨lastKey, rest⟩ hlast
    have hlast := parseSerializedKey_length (orCorrupt_ok hlast)
    exact Safe.bind (Safe.request (by dsimp only at hlast ⊢; omega)) fun _ _ => Safe.pure _

/-- The one way out of bounds. -/
theorem parseSummaryData_safe_iff {input : Bytes} :
    Safe input.length (parseSummaryData input) ↔ ¬ SummaryUnderflows input := by
  rw [parseSummaryData]
  split
  · rename_i hshort
    refine ⟨fun _ ⟨header, remaining, hheader, _⟩ => ?_, fun _ => Safe.fail _⟩
    have := parseSummaryHeader_length hheader
    omega
  cases hheader : parseSummaryHeader input with
  | none =>
    refine ⟨fun _ ⟨header, remaining, hsome, _⟩ => ?_, fun _ =>
      Safe.bind (orCorrupt_safe _ _) fun a ha => ?_⟩
    · rw [hheader] at hsome
      cases hsome
    · cases orCorrupt_ok ha
  | some p =>
    obtain ⟨header, remaining⟩ := p
    have hlen := parseSummaryHeader_length hheader
    change Safe input.length (pure (header, remaining) >>= _) ↔ _
    rw [pure_bind]
    dsimp only
    split
    · rename_i hcount
      refine ⟨fun _ ⟨header', remaining', hsome, hle, _⟩ => ?_, fun _ => Safe.fail _⟩
      rw [hheader] at hsome
      obtain ⟨rfl, -⟩ := Prod.mk.inj (Option.some.inj hsome)
      omega
    · rename_i hcount
      rw [parseSummaryBody_safe_iff (by omega)]
      refine not_congr ⟨fun hbad => ⟨header, remaining, hheader, Nat.not_lt.1 hcount, hbad⟩, ?_⟩
      rintro ⟨header', remaining', hsome, -, hbad⟩
      rw [hheader] at hsome
      obtain ⟨rfl, rfl⟩ := Prod.mk.inj (Option.some.inj hsome)
      exact hbad

end Safety

end Cqlite
