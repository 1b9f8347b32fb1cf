import Cqlite.Reader.RowRoundTrip
import Cqlite.Writer.EncodingBaselines

/-! Expiring data through a flush (`data_writer/cells.rs`, `complex.rs`, `rows.rs`; `row_decoder`).

    A TTL is stored in a row marker, a simple cell, an element of a collection or a field of a
    user-defined type, always with the time at which it expires. The writer derives that time from
    the clock and takes both to the baselines of the first pass; the reader adds the baselines of the
    header. -/

namespace Cqlite

open VInt StatisticsMetadata

/-! ### What is written -/

/-- A TTL to be stored, and the deletion time that was given with it. -/
structure Expiry where
  ttl : Int
  localDeletionTime : Option Int

/-- The deletion time that is derived when none was given; the seconds of the clock are an `i32`. -/
def Expiry.ldt (x : Expiry) (now : Int) : Int :=
  x.localDeletionTime.getD (expiringLocalDeletionTime (asI32 now) x.ttl)

/-- Where a TTL is stored; a cell that uses the TTL of its row is stored by the marker. -/
inductive CellForm
  | rowMarker
  | simpleCell
  | complexCell
  | udtField
  deriving DecidableEq

/-- What a mutation may have stored: its own TTL anywhere, the TTL of a cell in that cell. -/
def Mutation.expiries (m : Mutation) : List (Expiry × CellForm) :=
  (m.ttlSeconds.toList.flatMap fun ttl =>
    [CellForm.rowMarker, .simpleCell, .complexCell, .udtField].map fun form => (⟨ttl, none⟩, form)) ++
  m.operations.flatMap fun
    | .writeWithTtl _ _ ttlSeconds localDeletionTime =>
      [CellForm.simpleCell, .complexCell, .udtField].map fun form =>
        (⟨ttlSeconds, localDeletionTime⟩, form)
    | _ => []

/-- The deletion time that a form is written with: only a simple cell takes the given one. -/
def Expiry.written (x : Expiry) (form : CellForm) (now : Int) : Int :=
  match form with
  | .simpleCell => x.ldt now
  | _ => expiringLocalDeletionTime (asI32 now) x.ttl

section Write

variable (base : Baselines)

/-- `write_cell_with_ttl`: flags, three deltas and the value, if it is not the empty text. -/
def writeCellWithTtl (isEmpty : Bool) (value : Bytes) (timestamp ttlSeconds ldt : Int) :
    Except Error Bytes :=
  if ldt - base.minLocalDeletionTime < 0 then
    .error (.invalidInput ("Local deletion time " ++ toString ldt ++
      " is less than min_local_deletion_time " ++ toString base.minLocalDeletionTime))
  else if ttlSeconds - base.minTtl < 0 then
    .error (.invalidInput ("TTL " ++ toString ttlSeconds ++ " is less than min_ttl " ++
      toString base.minTtl))
  else .ok ((if isEmpty then 0x06 else 0x02) :: (encodeUnsigned (asU64 (timestamp - base.minTimestamp)) ++
    encodeUnsigned (ldt - base.minLocalDeletionTime).toNat ++
    encodeUnsigned (ttlSeconds - base.minTtl).toNat ++ if isEmpty then [] else value))

/-- `write_complex_cell_header` with a TTL; `rest` is the path and the value. -/
def writeComplexCellHeader (isEmpty : Bool) (rest : Bytes) (timestamp ttlSeconds ldt : Int) :
    Except Error Bytes :=
  if ldt - base.minLocalDeletionTime < 0 then
    .error (.invalidInput ("Complex cell: local deletion time " ++ toString ldt ++
      " is less than min_local_deletion_time " ++ toString base.minLocalDeletionTime))
  else if ttlSeconds - base.minTtl < 0 then
    .error (.invalidInput ("Complex cell: TTL " ++ toString ttlSeconds ++ " is less than min_ttl " ++
      toString base.minTtl))
  else .ok ((if isEmpty then 0x06 else 0x02) :: (encodeUnsigned (asU64 (timestamp - base.minTimestamp)) ++
    encodeUnsigned (ldt - base.minLocalDeletionTime).toNat ++
    encodeUnsigned (ttlSeconds - base.minTtl).toNat ++ rest))

/-- `write_complex_element_cell` for a live field at the timestamp of the row. -/
def writeComplexElementCell (rest : Bytes) (ttlSeconds ldt : Int) : Except Error Bytes :=
  if 0 ≤ ldt ∧ 0 ≤ base.minLocalDeletionTime ∧ ldt < base.minLocalDeletionTime then
    .error (.invalidInput ("Complex element: local deletion time " ++ toString ldt ++
      " is less than min_local_deletion_time " ++ toString base.minLocalDeletionTime))
  else if ttlSeconds - base.minTtl < 0 then
    .error (.invalidInput ("Complex element: TTL " ++ toString ttlSeconds ++ " is less than min_ttl " ++
      toString base.minTtl))
  else .ok (0x0a :: (encodeUnsigned (asU32 (ldt - base.minLocalDeletionTime)).toNat ++
    encodeUnsigned (ttlSeconds - base.minTtl).toNat ++ rest))

end Write

/-- One TTL of a flush on its way to Data.db. -/
structure ExpiringWrite (ms : FlushInput) where
  readings : Readings
  mutation : Mutation
  expiry : Expiry
  form : CellForm
  timestamp : Int
  isEmpty : Bool
  value : Bytes
  flushed : (readings, mutation) ∈ ms
  stored : (expiry, form) ∈ mutation.expiries

namespace ExpiringWrite

variable {ms : FlushInput} (w : ExpiringWrite ms)

def ldt : Int := w.expiry.written w.form w.readings.data

/-- The row marker of a row, or a cell. -/
def bytes : Except Error Bytes :=
  let base := computeMutationsBaselineStats ms
  match w.form with
  | .rowMarker =>
    ttlBytes base (asI32 w.readings.data) ⟨none, some w.timestamp, some w.expiry.ttl, none, [], []⟩
  | .simpleCell => writeCellWithTtl base w.isEmpty w.value w.timestamp w.expiry.ttl w.ldt
  | .complexCell => writeComplexCellHeader base w.isEmpty w.value w.timestamp w.expiry.ttl w.ldt
  | .udtField => writeComplexElementCell base w.value w.expiry.ttl w.ldt

end ExpiringWrite

/-! ### What is read -/

/-- The deltas of a cell to the minimum deletion time and the minimum TTL, where it has them. -/
def parseCellDeltas : Bytes → Option (Option Nat × Option Nat)
  | [] => none
  | flags :: data =>
    (readField (!flag 0x08 flags) decodeUnsigned data).bind fun ts =>
    (readField (!flag 0x10 flags && (flag 0x01 flags || flag 0x02 flags)) decodeUnsigned ts.2).bind
      fun ldt =>
    (readField (!flag 0x10 flags && flag 0x02 flags) decodeUnsigned ldt.2).map fun ttl =>
      (ldt.1, ttl.1)

/-- The TTL as a form shows it: a row has an `i32`, an element a `u32`, and a simple cell is clamped. -/
def shownTtl (form : CellForm) (raw : Int) : Int :=
  match form with
  | .rowMarker => asI32 raw
  | .simpleCell => asI32 (min (asI64 raw) i32Max)
  | .complexCell => asU32 raw
  | .udtField => asU32 raw

/-- The expiry as a form shows it. -/
def shownLdt (form : CellForm) (uint : Bool) (raw : Int) : Int :=
  match form with
  | .rowMarker => if uint then asU32 raw else asI32 raw
  | .simpleCell => asI64 raw
  | .complexCell => asU32 (asI32 raw)
  | .udtField => asU32 (asI32 raw)

/-- TTL and expiry of a row marker or a cell, with the baselines of the header. -/
def readExpiry (form : CellForm) (uint : Bool) (base : Baselines) (data : Bytes) :
    Option (Int × Int) :=
  match form with
  | .rowMarker => (readTtl ⟨base, uint, [], 0, 0⟩ data).map (·.1)
  | _ =>
    (parseCellDeltas data).bind fun
      | (some ldt, some ttl) =>
        some (shownTtl form (base.minTtl + ttl), shownLdt form uint (base.minLocalDeletionTime + ldt))
      | _ => none

/-- `cell_shadowed_or_expired` without a deletion. -/
def expiredAt (now expires : Int) : Bool := expires ≤ now

/-! ### A cell reads back -/

theorem parseCellDeltas_own {flags : UInt8} {ts ldt ttl : Nat} {rest : Bytes}
    (hflags : flags = 0x02 ∨ flags = 0x06) (hts : ts < 2 ^ 64) (hldt : ldt < 2 ^ 64)
    (httl : ttl < 2 ^ 64) :
    parseCellDeltas (flags :: (encodeUnsigned ts ++ encodeUnsigned ldt ++ encodeUnsigned ttl ++ rest)) =
      some (some ldt, some ttl) := by
  have h08 : flag 0x08 flags = false := by rcases hflags with rfl | rfl <;> decide
  have h10 : flag 0x10 flags = false := by rcases hflags with rfl | rfl <;> decide
  have h02 : flag 0x02 flags = true := by rcases hflags with rfl | rfl <;> decide
  simp [parseCellDeltas, h08, h10, h02, readField, List.append_assoc,
    decodeUnsigned_encodeUnsigned hts, decodeUnsigned_encodeUnsigned hldt,
    decodeUnsigned_encodeUnsigned httl]

theorem parseCellDeltas_rowTimestamp {ldt ttl : Nat} {rest : Bytes} (hldt : ldt < 2 ^ 64)
    (httl : ttl < 2 ^ 64) :
    parseCellDeltas (0x0a :: (encodeUnsigned ldt ++ encodeUnsigned ttl ++ rest)) =
      some (some ldt, some ttl) := by
  have h08 : flag 0x08 0x0a = true := by decide
  have h10 : flag 0x10 0x0a = false := by decide
  have h02 : flag 0x02 0x0a = true := by decide
  simp [parseCellDeltas, h08, h10, h02, readField, List.append_assoc,
    decodeUnsigned_encodeUnsigned hldt, decodeUnsigned_encodeUnsigned httl]

section Deltas

variable {base : Baselines} {ttl ldt : Int}

theorem read_writeCellWithTtl (httl : base.minTtl ≤ ttl ∧ ttl - base.minTtl < 2 ^ 64)
    (hldt : base.minLocalDeletionTime ≤ ldt ∧ ldt - base.minLocalDeletionTime < 2 ^ 64)
    (isEmpty : Bool) (value : Bytes) (timestamp : Int) :
    ∃ bytes, writeCellWithTtl base isEmpty value timestamp ttl ldt = .ok bytes ∧
      parseCellDeltas bytes = some (some (ldt - base.minLocalDeletionTime).toNat,
        some (ttl - base.minTtl).toNat) := by
  rw [writeCellWithTtl, if_neg (by omega), if_neg (by omega)]
  refine ⟨_, rfl, parseCellDeltas_own ?_ (asU64_lt _) (by omega) (by omega)⟩
  cases isEmpty <;> simp

theorem read_writeComplexCellHeader (httl : base.minTtl ≤ ttl ∧ ttl - base.minTtl < 2 ^ 64)
    (hldt : base.minLocalDeletionTime ≤ ldt ∧ ldt - base.minLocalDeletionTime < 2 ^ 64)
    (isEmpty : Bool) (rest : Bytes) (timestamp : Int) :
    ∃ bytes, writeComplexCellHeader base isEmpty rest timestamp ttl ldt = .ok bytes ∧
      parseCellDeltas bytes = some (some (ldt - base.minLocalDeletionTime).toNat,
        some (ttl - base.minTtl).toNat) := by
  rw [writeComplexCellHeader, if_neg (by omega), if_neg (by omega)]
  refine ⟨_, rfl, parseCellDeltas_own ?_ (asU64_lt _) (by omega) (by omega)⟩
  cases isEmpty <;> simp

theorem read_writeComplexElementCell (httl : base.minTtl ≤ ttl ∧ ttl - base.minTtl < 2 ^ 64)
    (hldt : ¬ (0 ≤ ldt ∧ 0 ≤ base.minLocalDeletionTime ∧ ldt < base.minLocalDeletionTime))
    (rest : Bytes) :
    ∃ bytes, writeComplexElementCell base rest ttl ldt = .ok bytes ∧
      parseCellDeltas bytes = some (some (asU32 (ldt - base.minLocalDeletionTime)).toNat,
        some (ttl - base.minTtl).toNat) := by
  rw [writeComplexElementCell, if_neg hldt, if_neg (by omega)]
  have hdelta : (asU32 (ldt - base.minLocalDeletionTime)).toNat < 2 ^ 64 := by
    rw [asU32]
    omega
  exact ⟨_, rfl, parseCellDeltas_rowTimestamp hdelta (by omega)⟩

theorem shownLdt_asU32 {form : CellForm} (hform : form = .complexCell ∨ form = .udtField)
    (uint : Bool) (header delta : Int) :
    shownLdt form uint (header + asU32 delta) = shownLdt form uint (header + delta) := by
  have hsame : asU32 (header + asU32 delta) = asU32 (header + delta) := by
    simp only [asU32]
    omega
  rcases hform with rfl | rfl <;> simpa [shownLdt] using hsame

end Deltas

/-- The clock shows seconds of `i32`, TTLs are `u32`, times are of their machine types. -/
structure FlushTyped (ms : FlushInput) : Prop where
  notes : FlushInRange ms
  clock : ∀ c ∈ ms, (0 ≤ c.1.write ∧ c.1.write < 2 ^ 31) ∧ (0 ≤ c.1.prepass ∧ c.1.prepass < 2 ^ 31) ∧
    (0 ≤ c.1.fold ∧ c.1.fold < 2 ^ 31) ∧ 0 ≤ c.1.data ∧ c.1.data < 2 ^ 31
  ttls : ∀ c ∈ ms, ∀ p ∈ c.2.expiries, (0 ≤ p.1.ttl ∧ p.1.ttl < 2 ^ 32) ∧
    ∀ ldt, p.1.localDeletionTime = some ldt → i32Min ≤ ldt ∧ ldt ≤ i32Max

namespace ExpiringWrite

variable {ms : FlushInput} (w : ExpiringWrite ms)

/-- What the writer refuses: a TTL or an expiry below the minimum of the first pass. -/
def Refused : Prop :=
  w.expiry.ttl < (computeMutationsBaselineStats ms).minTtl ∨
    (w.ldt < (computeMutationsBaselineStats ms).minLocalDeletionTime ∧
      (w.form = .udtField → 0 ≤ w.ldt ∧ 0 ≤ (computeMutationsBaselineStats ms).minLocalDeletionTime))

theorem ldt_range (h : FlushTyped ms) : i32Min ≤ w.ldt ∧ w.ldt ≤ i32Max := by
  have hexpiring := expiringLocalDeletionTime_range (asI32 w.readings.data) w.expiry.ttl
  have hmin : i32Min = -(2 ^ 31) := rfl
  have hmax : i32Max = 2 ^ 31 - 1 := rfl
  have hderived : i32Min ≤ expiringLocalDeletionTime (asI32 w.readings.data) w.expiry.ttl ∧
      expiringLocalDeletionTime (asI32 w.readings.data) w.expiry.ttl ≤ i32Max := by omega
  rw [ldt]
  generalize w.form = form
  cases form with
  | simpleCell =>
    change i32Min ≤ w.expiry.ldt w.readings.data ∧ w.expiry.ldt w.readings.data ≤ i32Max
    rw [Expiry.ldt]
    cases hgiven : w.expiry.localDeletionTime with
    | none => exact hderived
    | some ldt => exact (h.ttls _ w.flushed _ w.stored).2 ldt hgiven
  | rowMarker => exact hderived
  | complexCell => exact hderived
  | udtField => exact hderived

/-- A TTL that is not refused is written, and any header reads it back with the difference between
    its minima and those of the first pass. -/
theorem bytes_read (h : FlushTyped ms) (hrefused : ¬ w.Refused) :
    ∃ bytes, w.bytes = .ok bytes ∧ ∀ (uint : Bool) (header : Baselines),
      readExpiry w.form uint header bytes = some
        (shownTtl w.form (header.minTtl + (w.expiry.ttl - (computeMutationsBaselineStats ms).minTtl)),
          shownLdt w.form uint (header.minLocalDeletionTime +
            (w.ldt - (computeMutationsBaselineStats ms).minLocalDeletionTime))) := by
  obtain ⟨hpos, hunset, -⟩ := computeMutationsBaselineStats_minTtl ms
  obtain ⟨hlow, hhigh⟩ := computeMutationsBaselineStats_minLocalDeletionTime h.notes
  obtain ⟨⟨httl, httl'⟩, -⟩ : (0 ≤ w.expiry.ttl ∧ w.expiry.ttl < 2 ^ 32) ∧ _ :=
    h.ttls _ w.flushed _ w.stored
  obtain ⟨hldt, hldt'⟩ := w.ldt_range h
  have hmin : i32Min = -(2 ^ 31) := rfl
  have hmax : i32Max = 2 ^ 31 - 1 := rfl
  rw [Refused, not_or] at hrefused
  obtain ⟨hminTtl, hminLdt⟩ := hrefused
  generalize hbase : computeMutationsBaselineStats ms = base at *
  have hdeltaTtl : base.minTtl ≤ w.expiry.ttl ∧ w.expiry.ttl - base.minTtl < 2 ^ 64 := by omega
  have hdelta : w.form ≠ .udtField → base.minLocalDeletionTime ≤ w.ldt ∧
      w.ldt - base.minLocalDeletionTime < 2 ^ 64 := by
    intro hform
    have := mt (fun hlt => And.intro hlt fun h => absurd h hform) hminLdt
    omega
  have hrawTtl : ((w.expiry.ttl - base.minTtl).toNat : Int) = w.expiry.ttl - base.minTtl := by omega
  have hrawLdt : w.form ≠ .udtField → ((w.ldt - base.minLocalDeletionTime).toNat : Int) =
      w.ldt - base.minLocalDeletionTime := fun hform => by
    have := hdelta hform
    omega
  cases hform : w.form with
  | rowMarker =>
    have hne : w.form ≠ .udtField := by simp [hform]
    have hmarker : expiringLocalDeletionTime (asI32 w.readings.data) w.expiry.ttl = w.ldt := by
      rw [ldt, hform]
      rfl
    have := hdelta hne
    simp only [bytes, hform, hbase, ttlBytes, hmarker]
    rw [if_neg (by omega), if_neg (by omega)]
    refine ⟨_, rfl, fun uint header => ?_⟩
    rw [readExpiry, readTtl, decodeUnsigned_encodeUnsigned (by omega), Option.bind_some,
      ← List.append_nil (encodeUnsigned (w.ldt - base.minLocalDeletionTime).toNat),
      decodeUnsigned_encodeUnsigned (by omega), Option.map_some, Option.map_some]
    simp only [hrawTtl, hrawLdt hne, shownTtl, shownLdt]
  | simpleCell =>
    have hne : w.form ≠ .udtField := by simp [hform]
    obtain ⟨bytes, hok, hread⟩ := read_writeCellWithTtl hdeltaTtl (hdelta hne) w.isEmpty w.value
      w.timestamp
    simp only [ExpiringWrite.bytes, hform, hbase]
    refine ⟨bytes, hok, fun uint header => ?_⟩
    simp only [readExpiry, hread, Option.bind_some, hrawTtl, hrawLdt hne]
  | complexCell =>
    have hne : w.form ≠ .udtField := by simp [hform]
    obtain ⟨bytes, hok, hread⟩ := read_writeComplexCellHeader hdeltaTtl (hdelta hne) w.isEmpty w.value
      w.timestamp
    simp only [ExpiringWrite.bytes, hform, hbase]
    refine ⟨bytes, hok, fun uint header => ?_⟩
    simp only [readExpiry, hread, Option.bind_some, hrawTtl, hrawLdt hne]
  | udtField =>
    have hkept : ¬ (0 ≤ w.ldt ∧ 0 ≤ base.minLocalDeletionTime ∧
        w.ldt < base.minLocalDeletionTime) := fun hlow =>
      hminLdt ⟨hlow.2.2, fun _ => ⟨hlow.1, hlow.2.1⟩⟩
    obtain ⟨bytes, hok, hread⟩ := read_writeComplexElementCell hdeltaTtl hkept w.value
    simp only [ExpiringWrite.bytes, hform, hbase]
    refine ⟨bytes, hok, fun uint header => ?_⟩
    have hrawDelta : ((asU32 (w.ldt - base.minLocalDeletionTime)).toNat : Int) =
        asU32 (w.ldt - base.minLocalDeletionTime) := by
      rw [asU32]
      omega
    simp only [readExpiry, hread, Option.bind_some, hrawTtl, hrawDelta]
    rw [shownLdt_asU32 (.inr rfl)]

theorem bytes_ok_iff (h : FlushTyped ms) : (∃ bytes, w.bytes = .ok bytes) ↔ ¬ w.Refused := by
  constructor
  · rintro ⟨bytes, hok⟩ hrefused
    have hmarker : w.form ≠ .simpleCell →
        expiringLocalDeletionTime (asI32 w.readings.data) w.expiry.ttl = w.ldt := by
      intro hform
      rw [ldt]
      generalize w.form = form at hform
      cases form with
      | simpleCell => exact absurd rfl hform
      | _ => rfl
    rw [Refused] at hrefused
    cases hform : w.form with
    | rowMarker =>
      simp only [ExpiringWrite.bytes, hform, ttlBytes, hmarker (by simp [hform])] at hok
      split at hok
      · cases hok
      split at hok
      · cases hok
      omega
    | simpleCell =>
      simp only [ExpiringWrite.bytes, hform, writeCellWithTtl] at hok
      split at hok
      · cases hok
      split at hok
      · cases hok
      omega
    | complexCell =>
      simp only [ExpiringWrite.bytes, hform, writeComplexCellHeader] at hok
      split at hok
      · cases hok
      split at hok
      · cases hok
      omega
    | udtField =>
      simp only [ExpiringWrite.bytes, hform, writeComplexElementCell] at hok
      split at hok
      · cases hok
      split at hok
      · cases hok
      rcases hrefused with hlow | ⟨hlow, hkept⟩
      · omega
      · have := hkept hform
        omega
  · intro hrefused
    obtain ⟨bytes, hok, -⟩ := w.bytes_read h hrefused
    exact ⟨bytes, hok⟩

/-! ### Notes of both passes -/

/-- What the first pass notes of this TTL. -/
def firstNotes : List Note := expiryNotes w.expiry.ttl (w.expiry.ldt w.readings.prepass)

/-- What the second pass notes of this TTL. -/
def secondNotes : List Note :=
  [.ttl (asI32 w.expiry.ttl), .localDeletionTime (w.expiry.ldt w.readings.fold)]

theorem stored_cases :
    (w.mutation.ttlSeconds = some w.expiry.ttl ∧ w.expiry.localDeletionTime = none) ∨
      ∃ column value, .writeWithTtl column value w.expiry.ttl w.expiry.localDeletionTime ∈
        w.mutation.operations := by
  rcases List.mem_append.mp w.stored with hmem | hmem
  · obtain ⟨ttl, httl, hform⟩ := List.mem_flatMap.mp hmem
    obtain ⟨form, -, heq⟩ := List.mem_map.mp hform
    obtain ⟨hexpiry, -⟩ := Prod.mk.inj heq
    rw [← hexpiry]
    exact .inl ⟨Option.mem_toList.mp httl, rfl⟩
  · obtain ⟨op, hop, hform⟩ := List.mem_flatMap.mp hmem
    cases op with
    | writeWithTtl column value ttl ldt =>
      obtain ⟨form, -, heq⟩ := List.mem_map.mp hform
      obtain ⟨hexpiry, -⟩ := Prod.mk.inj heq
      rw [← hexpiry]
      exact .inr ⟨column, value, hop⟩
    | _ => cases hform

theorem firstNotes_subset : w.firstNotes ⊆ flushBaselineNotes ms := by
  intro note hnote
  refine List.mem_flatMap.mpr ⟨_, w.flushed, ?_⟩
  rw [firstNotes] at hnote
  simp only [baselineNotes, List.mem_cons, List.mem_append, List.mem_flatMap]
  rcases w.stored_cases with ⟨httl, hnone⟩ | ⟨column, value, hop⟩
  · rw [Expiry.ldt, hnone] at hnote
    refine .inr (.inl (.inl (.inl (.inr ⟨w.expiry.ttl, ?_, hnote⟩))))
    exact Option.mem_toList.mpr httl
  · exact .inr (.inl (.inl (.inl (.inl (.inr ⟨_, hop, hnote⟩)))))

theorem secondNotes_subset : w.secondNotes ⊆ flushNotes ms := by
  intro note hnote
  refine List.mem_flatMap.mpr ⟨_, w.flushed, ?_⟩
  rw [secondNotes] at hnote
  simp only [mutationNotes, List.mem_cons, List.mem_append, List.mem_flatMap]
  rcases w.stored_cases with ⟨httl, hnone⟩ | ⟨column, value, hop⟩
  · rw [Expiry.ldt, hnone] at hnote
    refine .inr (.inl (.inl (.inl (.inl (.inr ⟨w.expiry.ttl, ?_, ?_⟩)))))
    · exact Option.mem_toList.mpr httl
    · simpa using hnote
  · refine .inr (.inl (.inl (.inl (.inr ⟨_, hop, ?_⟩))))
    simpa [operationNotes, Expiry.ldt] using hnote

end ExpiringWrite

/-! ### Clocks and headers -/

/-- A derived deletion time is the write time plus the TTL when the clock shows the write time. -/
theorem expiringLocalDeletionTime_eq_iff {write now ttl : Int} (hwrite : 0 ≤ write)
    (hnow : 0 ≤ now ∧ now < 2 ^ 31) (hpos : 0 < ttl) (hfits : write + ttl < i32Max) :
    expiringLocalDeletionTime (asI32 now) ttl = write + ttl ↔ now = write := by
  have hmax : i32Max = 2 ^ 31 - 1 := rfl
  have hmin : i32Min = -(2 ^ 31) := rfl
  have hnow' : asI32 now = now := by
    rw [asI32]
    omega
  have httl : asI32 ttl = ttl := by
    rw [asI32]
    omega
  rw [expiringLocalDeletionTime, hnow', httl]
  omega

theorem shownTtl_eq {form : CellForm} {ttl : Int} (hpos : 0 < ttl) (hlt : ttl < i32Max) :
    shownTtl form ttl = ttl := by
  have hmax : i32Max = 2 ^ 31 - 1 := rfl
  cases form <;> simp only [shownTtl, asI32, asI64, asU32] <;> omega

/-- The expiry is read back when the header has the minimum of the first pass; a simple cell also
    needs it not to have wrapped. -/
theorem shownLdt_eq_iff {form : CellForm} {uint : Bool} {first second ldt : Int}
    (hldt : 0 ≤ ldt ∧ ldt < i32Max) (hfirst : i32Min ≤ first ∧ first ≤ i32Max)
    (hsecond : i32Min ≤ second ∧ second ≤ first) :
    shownLdt form uint (asI32 (second - deletionTimeEpoch) + deletionTimeEpoch + (ldt - first)) = ldt ↔
      second = first ∧ (form = .simpleCell → i32Min + deletionTimeEpoch ≤ first) := by
  have hmax : i32Max = 2 ^ 31 - 1 := rfl
  have hmin : i32Min = -(2 ^ 31) := rfl
  have hepoch : deletionTimeEpoch = 1442880000 := rfl
  cases form with
  | rowMarker =>
    cases uint <;> simp [shownLdt, asI32, asU32] <;> omega
  | simpleCell =>
    simp only [shownLdt, asI32, asI64, true_implies]
    omega
  | complexCell =>
    simp [shownLdt, asI32, asU32]
    omega
  | udtField =>
    simp [shownLdt, asI32, asU32]
    omega

/-! ### A stored TTL -/

namespace ExpiringWrite

variable {ms : FlushInput} (w : ExpiringWrite ms)

/-- Write time plus TTL, capped at the largest deletion time. -/
def expires : Int := min i32Max (w.readings.write + w.expiry.ttl)

/-- The TTL survives: it is written, and read back with the baselines of the header, together with
    write time plus TTL, which both passes note and count, and it is live at its write time. -/
structure Survives (uint : Bool) (bytes : Bytes) : Prop where
  written : w.ldt = w.expires
  readBack : ∃ header, headerBaselines ms = some header ∧
    readExpiry w.form uint header bytes = some (w.expiry.ttl, w.expires)
  notBefore : w.readings.write ≤ w.expires
  baselines : w.firstNotes = [.ttl w.expiry.ttl, .localDeletionTime w.expires] ∧
    w.firstNotes ⊆ flushBaselineNotes ms
  statistics : (ttls w.secondNotes = [w.expiry.ttl] ∧ drops w.secondNotes = [w.expires]) ∧
    w.secondNotes ⊆ flushNotes ms
  live : expiredAt w.readings.write w.expires = false

/-- The TTL is positive and its expiry is below the largest deletion time; a deletion time that was
    given is write time plus TTL; the clock shows the write time wherever it is read; and the header
    has the minimum of the first pass. -/
structure Storable : Prop where
  positive : 0 < w.expiry.ttl
  fits : w.readings.write + w.expiry.ttl < i32Max
  given : ∀ ldt, w.expiry.localDeletionTime = some ldt → ldt = w.readings.write + w.expiry.ttl
  passes : w.expiry.localDeletionTime = none →
    w.readings.prepass = w.readings.write ∧ w.readings.fold = w.readings.write
  data : w.expiry.localDeletionTime = none ∨ w.form ≠ .simpleCell →
    w.readings.data = w.readings.write
  notUndercut : NotUndercut ms
  unwrapped : w.form = .simpleCell →
    i32Min + deletionTimeEpoch ≤ (computeMutationsBaselineStats ms).minLocalDeletionTime

theorem clock (h : FlushTyped ms) :
    (0 ≤ w.readings.write ∧ w.readings.write < 2 ^ 31) ∧
      (0 ≤ w.readings.prepass ∧ w.readings.prepass < 2 ^ 31) ∧
      (0 ≤ w.readings.fold ∧ w.readings.fold < 2 ^ 31) ∧
      0 ≤ w.readings.data ∧ w.readings.data < 2 ^ 31 :=
  h.clock _ w.flushed

/-- A deletion time in a pass is write time plus TTL when it was given so, or the clock shows the
    write time. -/
theorem ldt_eq_iff (h : FlushTyped ms) (hpos : 0 < w.expiry.ttl)
    (hfits : w.readings.write + w.expiry.ttl < i32Max) {now : Int} (hnow : 0 ≤ now ∧ now < 2 ^ 31) :
    w.expiry.ldt now = w.readings.write + w.expiry.ttl ↔
      (∀ ldt, w.expiry.localDeletionTime = some ldt → ldt = w.readings.write + w.expiry.ttl) ∧
        (w.expiry.localDeletionTime = none → now = w.readings.write) := by
  obtain ⟨⟨hwrite, -⟩, -⟩ := w.clock h
  rw [Expiry.ldt]
  cases hgiven : w.expiry.localDeletionTime with
  | none => simpa using expiringLocalDeletionTime_eq_iff hwrite hnow hpos hfits
  | some ldt => simp

theorem written_eq_iff (h : FlushTyped ms) (hpos : 0 < w.expiry.ttl)
    (hfits : w.readings.write + w.expiry.ttl < i32Max)
    (hgiven : ∀ ldt, w.expiry.localDeletionTime = some ldt →
      ldt = w.readings.write + w.expiry.ttl) :
    w.ldt = w.readings.write + w.expiry.ttl ↔
      (w.expiry.localDeletionTime = none ∨ w.form ≠ .simpleCell →
        w.readings.data = w.readings.write) := by
  obtain ⟨⟨hwrite, -⟩, -, -, hdata⟩ := w.clock h
  have hderived := expiringLocalDeletionTime_eq_iff hwrite hdata hpos hfits
  rw [ldt]
  generalize w.form = form
  cases form with
  | simpleCell =>
    change w.expiry.ldt w.readings.data = _ ↔ _
    rw [w.ldt_eq_iff h hpos hfits hdata]
    constructor
    · rintro ⟨-, hnone⟩ (hgiven | hne)
      · exact hnone hgiven
      · exact absurd rfl hne
    · exact fun hclock => ⟨hgiven, fun hnone => hclock (.inl hnone)⟩
  | _ => simpa [Expiry.written] using hderived

/-- With its TTL and expiry right, what is read back tells whether the header is. -/
theorem readBack_iff (h : FlushTyped ms) (hrefused : ¬ w.Refused) (hpos : 0 < w.expiry.ttl)
    (hfits : w.readings.write + w.expiry.ttl < i32Max)
    (hldt : w.ldt = w.readings.write + w.expiry.ttl) {bytes : Bytes} (hok : w.bytes = .ok bytes)
    (uint : Bool) :
    (∃ header, headerBaselines ms = some header ∧
      readExpiry w.form uint header bytes = some (w.expiry.ttl, w.ldt)) ↔
      NotUndercut ms ∧ (w.form = .simpleCell →
        i32Min + deletionTimeEpoch ≤ (computeMutationsBaselineStats ms).minLocalDeletionTime) := by
  have hmax : i32Max = 2 ^ 31 - 1 := rfl
  obtain ⟨⟨hwrite, -⟩, -⟩ := w.clock h
  obtain ⟨bytes', hok', hread⟩ := w.bytes_read h hrefused
  obtain rfl : bytes' = bytes := Except.ok.inj (hok'.symm.trans hok)
  rw [Refused, not_or, not_and] at hrefused
  obtain ⟨hminTtl, hminLdt⟩ := hrefused
  have hrange := computeMutationsBaselineStats_minLocalDeletionTime h.notes
  have httlSet : (computeMutationsBaselineStats ms).minTtl < i32Max := by omega
  have hldtSet : (computeMutationsBaselineStats ms).minLocalDeletionTime < i32Max := by
    by_contra hunset
    refine hminLdt (by omega) fun _ => ⟨?_, ?_⟩ <;> omega
  obtain ⟨minTimestamp, hheader⟩ := headerBaselines_eq h.notes httlSet hldtSet
  rw [notUndercut_iff h.notes, ← @shownLdt_eq_iff w.form uint _ _ w.ldt (by omega) hrange
    (flushStatistics_minLocalDeletionTime h.notes)]
  constructor
  · rintro ⟨header, hsome, heq⟩
    obtain rfl := Option.some.inj (hheader.symm.trans hsome)
    rw [hread] at heq
    exact (Prod.mk.inj (Option.some.inj heq)).2
  · intro heq
    refine ⟨_, hheader, ?_⟩
    rw [hread]
    refine congrArg some (Prod.ext ?_ heq)
    dsimp only
    rw [add_sub_cancel]
    exact shownTtl_eq hpos (by omega)

theorem drops_secondNotes {expires : Int} :
    drops w.secondNotes = [expires] ↔
      w.expiry.ldt w.readings.fold ≠ i32Max ∧ w.expiry.ldt w.readings.fold = expires := by
  by_cases hmax : w.expiry.ldt w.readings.fold = i32Max
  · simp [secondNotes, drops, isLiveLocalDeletionTime, hmax]
  · simp [secondNotes, drops, isLiveLocalDeletionTime, hmax]

/-- One cell through the writer and the reader. -/
theorem survives_iff (h : FlushTyped ms) (hrefused : ¬ w.Refused) (uint : Bool) {bytes : Bytes}
    (hok : w.bytes = .ok bytes) : w.Survives uint bytes ↔ w.Storable := by
  have hmax : i32Max = 2 ^ 31 - 1 := rfl
  obtain ⟨⟨hwrite, -⟩, hprepass, hfold, -⟩ := w.clock h
  constructor
  · intro hs
    -- the first pass notes nothing unless the TTL is positive as `i32`
    have hfirst := hs.baselines.1
    rw [firstNotes, expiryNotes] at hfirst
    split at hfirst
    swap
    · cases hfirst
    next hpos =>
    obtain ⟨httl, hfirstLdt⟩ : asI32 w.expiry.ttl = w.expiry.ttl ∧
        w.expiry.ldt w.readings.prepass = w.expires := by simpa using hfirst
    rw [httl] at hpos
    -- the second counts no expiry at the largest deletion time, where the cap would put it
    obtain ⟨hne, hsecondLdt⟩ := w.drops_secondNotes.mp hs.statistics.1.2
    rw [hsecondLdt, expires] at hne
    have hfits : w.readings.write + w.expiry.ttl < i32Max := by omega
    have hexpires : w.expires = w.readings.write + w.expiry.ttl := by
      rw [expires]
      omega
    rw [hexpires] at hfirstLdt hsecondLdt
    have hldt := hs.written
    rw [hexpires] at hldt
    obtain ⟨hgiven, hclock⟩ := (w.ldt_eq_iff h hpos hfits hprepass).mp hfirstLdt
    obtain ⟨-, hclock'⟩ := (w.ldt_eq_iff h hpos hfits hfold).mp hsecondLdt
    have hback := hs.readBack
    rw [← hs.written] at hback
    obtain ⟨hnot, hwrap⟩ := (w.readBack_iff h hrefused hpos hfits hldt hok uint).mp hback
    exact ⟨hpos, hfits, hgiven, fun hnone => ⟨hclock hnone, hclock' hnone⟩,
      (w.written_eq_iff h hpos hfits hgiven).mp hldt, hnot, hwrap⟩
  · intro hs
    have hexpires : w.expires = w.readings.write + w.expiry.ttl := by
      have := hs.fits
      rw [expires]
      omega
    have hldt := (w.written_eq_iff h hs.positive hs.fits hs.given).mpr hs.data
    have hback := (w.readBack_iff h hrefused hs.positive hs.fits hldt hok uint).mpr
      ⟨hs.notUndercut, hs.unwrapped⟩
    have hfirst := (w.ldt_eq_iff h hs.positive hs.fits hprepass).mpr
      ⟨hs.given, fun hnone => (hs.passes hnone).1⟩
    have hsecond := (w.ldt_eq_iff h hs.positive hs.fits hfold).mpr
      ⟨hs.given, fun hnone => (hs.passes hnone).2⟩
    have hpos := hs.positive
    have hfits := hs.fits
    have httl : asI32 w.expiry.ttl = w.expiry.ttl := by
      rw [asI32]
      omega
    rw [← hexpires] at hldt hfirst hsecond
    rw [hldt] at hback
    refine ⟨hldt, hback, by omega, ⟨?_, w.firstNotes_subset⟩, ⟨⟨?_, ?_⟩, w.secondNotes_subset⟩, ?_⟩
    · rw [firstNotes, expiryNotes, httl, if_pos hpos, hfirst]
    · simp [secondNotes, ttls, httl, hpos]
    · exact w.drops_secondNotes.mpr ⟨by omega, hsecond⟩
    · rw [expiredAt, decide_eq_false_iff_not]
      omega

end ExpiringWrite

/-- In a flush that no TTL makes fail, every TTL survives just when every one is storable. -/
theorem ttl_survives_iff (ms : FlushInput) (h : FlushTyped ms) (uint : Bool)
    (written : List (ExpiringWrite ms)) :
    ((∀ w ∈ written, ∃ bytes, w.bytes = .ok bytes) →
      ∀ w ∈ written, ∀ bytes, w.bytes = .ok bytes → w.Survives uint bytes) ↔
      (∃ w ∈ written, w.Refused) ∨ ∀ w ∈ written, w.Storable := by
  constructor
  · intro hsurvive
    by_cases hrefused : ∃ w ∈ written, w.Refused
    · exact .inl hrefused
    refine .inr fun w hw => ?_
    have hkept : ∀ w ∈ written, ¬ w.Refused := fun w hw hr => hrefused ⟨w, hw, hr⟩
    obtain ⟨bytes, hok⟩ := (w.bytes_ok_iff h).mpr (hkept w hw)
    exact (w.survives_iff h (hkept w hw) uint hok).mp
      (hsurvive (fun w hw => (w.bytes_ok_iff h).mpr (hkept w hw)) w hw bytes hok)
  · rintro (⟨w, hw, hrefused⟩ | hstorable) hall w' hw' bytes hok
    · exact absurd hrefused ((w.bytes_ok_iff h).mp (hall w hw))
    · exact (w'.survives_iff h ((w'.bytes_ok_iff h).mp ⟨bytes, hok⟩) uint hok).mpr (hstorable w' hw')

/-! ### One hour and twenty years -/

/-- An `INSERT … USING TTL`. -/
def insertWithTtl (ttl : Int) : Mutation :=
  .new ⟨[("id", .integer 1)]⟩ none [.write "name" (.integer 7)] 1700000000000000 (some ttl)

/-- A flush in the second of the write. -/
def flushAt (now ttl : Int) : FlushInput := [(⟨now, now, now, now⟩, insertWithTtl ttl)]

/-- Its row marker, or its cell when that is written apart. -/
def ttlWrite (now ttl : Int) (form : CellForm) : ExpiringWrite (flushAt now ttl) where
  readings := ⟨now, now, now, now⟩
  mutation := insertWithTtl ttl
  expiry := ⟨ttl, none⟩
  form := form
  timestamp := 1700000000000000
  isEmpty := false
  value := [0, 0, 0, 7]
  flushed := List.mem_singleton.mpr rfl
  stored := by cases form <;> simp [Mutation.expiries, insertWithTtl, Mutation.new]

/-- At 1,700,000,000 (November 2023) a TTL of twenty years ends beyond 2038. The expiry is capped to
    the value that stands for none, the header is written as if there were none, and the row reads
    back as expired in 1970. -/
theorem twenty_years_lost :
    (∃ bytes header, (ttlWrite 1700000000 630720000 .rowMarker).bytes = .ok bytes ∧
      headerBaselines (flushAt 1700000000 630720000) = some header ∧
      readExpiry .rowMarker false header bytes = some (630720000, 0)) ∧
    ¬ ((∀ w ∈ [ttlWrite 1700000000 630720000 .rowMarker], ∃ bytes, w.bytes = .ok bytes) →
      ∀ w ∈ [ttlWrite 1700000000 630720000 .rowMarker], ∀ bytes, w.bytes = .ok bytes →
        w.Survives false bytes) := by
  have hok : (ttlWrite 1700000000 630720000 .rowMarker).bytes = .ok [0, 0] := by decide +kernel
  refine ⟨⟨_, ⟨1700000000000000, 630720000, 0⟩, hok, by decide +kernel, by decide +kernel⟩, ?_⟩
  intro h
  have hsurvives := h (fun w hw => ⟨_, List.mem_singleton.mp hw ▸ hok⟩) _ List.mem_cons_self _ hok
  have hcounted := hsurvives.statistics.1.2
  revert hcounted
  decide +kernel

theorem flushAt_typed : FlushTyped (flushAt 1700000000 3600) where
  notes := by
    constructor
    · decide +kernel
    · decide +kernel
  clock := by decide +kernel
  ttls := by
    intro c hc p hp
    obtain rfl := List.mem_singleton.mp hc
    simp [Mutation.expiries, insertWithTtl, Mutation.new] at hp
    rcases hp with rfl | rfl | rfl | rfl <;> simp

theorem ttlWrite_storable (form : CellForm) : (ttlWrite 1700000000 3600 form).Storable where
  positive := show (0 : Int) < 3600 by decide
  fits := show (1700000000 : Int) + 3600 < i32Max by decide
  given := by simp [ttlWrite]
  passes := fun _ => ⟨rfl, rfl⟩
  data := fun _ => rfl
  notUndercut := by decide +kernel
  unwrapped := fun _ => by decide +kernel

/-- A TTL of one hour. -/
theorem one_hour_survives :
    (∃ bytes, (ttlWrite 1700000000 3600 .rowMarker).bytes = .ok bytes ∧
      (ttlWrite 1700000000 3600 .rowMarker).Survives false bytes) ∧
    ∃ bytes, (ttlWrite 1700000000 3600 .simpleCell).bytes = .ok bytes ∧
      (ttlWrite 1700000000 3600 .simpleCell).Survives false bytes := by
  have hmarker : (ttlWrite 1700000000 3600 .rowMarker).bytes = .ok [0, 0] := by decide +kernel
  have hcell : (ttlWrite 1700000000 3600 .simpleCell).bytes = .ok [2, 0, 0, 0, 0, 0, 0, 7] := by
    decide +kernel
  have hsurvive := (ttl_survives_iff _ flushAt_typed false
    [ttlWrite 1700000000 3600 .rowMarker, ttlWrite 1700000000 3600 .simpleCell]).mpr (.inr (by
      simp [ttlWrite_storable])) (by simp [hmarker, hcell])
  exact ⟨⟨_, hmarker, hsurvive _ (by simp) _ hmarker⟩, _, hcell, hsurvive _ (by simp) _ hcell⟩

end Cqlite
