import Cqlite.Types
import Cqlite.Lib.Framing

/-! The write-ahead log (`write_engine/wal.rs`).

    An entry is `[u32 length][u32 crc32][payload]`. A log handle holds the bytes handed to the file
    (the buffered ones included) and the bytes known to be on disk; every call that touches the file
    takes the fault that may strike it. The payload encoding (`bincode`) and the checksum are
    parameters. -/

namespace Cqlite

/-! ### Entries -/

def maxEntryLength : Nat := 16 * 1024 * 1024

/-- `u32::to_le_bytes`. -/
def leBytes (n : Nat) : Bytes :=
  [n.toUInt8, (n / 2 ^ 8).toUInt8, (n / 2 ^ 16).toUInt8, (n / 2 ^ 24).toUInt8]

/-- `u32::from_le_bytes`. -/
def fromLeBytes (bytes : Bytes) : Nat := bytes.foldr (fun b acc => b.toNat + 256 * acc) 0

theorem fromLeBytes_leBytes {n : Nat} (h : n < 2 ^ 32) : fromLeBytes (leBytes n) = n := by
  simp only [leBytes, fromLeBytes, List.foldr_cons, List.foldr_nil, Nat.toUInt8,
    UInt8.toNat_ofNat']
  omega

theorem leBytes_fromLeBytes {bytes : Bytes} (h : bytes.length = 4) :
    leBytes (fromLeBytes bytes) = bytes := by
  match bytes, h with
  | [a, b, c, d], _ =>
    have ha := a.toNat_lt
    have hb := b.toNat_lt
    have hc := c.toNat_lt
    have hd := d.toNat_lt
    simp only [leBytes, fromLeBytes, List.foldr_cons, List.foldr_nil, List.cons.injEq, and_true,
      ← UInt8.toNat_inj, Nat.toUInt8, UInt8.toNat_ofNat']
    omega

@[simp] theorem length_leBytes (n : Nat) : (leBytes n).length = 4 := rfl

/-- `crc32fast::Hasher`. -/
class Checksum where
  crc32 : Bytes → UInt32

/-- One bit of the reflected CRC-32. -/
def crc32Bit (c : UInt32) : UInt32 :=
  if c &&& 1 = 1 then (c >>> 1) ^^^ 0xEDB88320 else c >>> 1

def crc32Byte (c : UInt32) (b : UInt8) : UInt32 := (crc32Bit^[8]) (c ^^^ b.toUInt32)

instance (priority := low) ieeeChecksum : Checksum where
  crc32 bytes := ~~~ (bytes.foldl crc32Byte 0xFFFFFFFF)

variable [Checksum]

/-- An entry as it stands in the file. -/
def walEntry (payload : Bytes) : Bytes :=
  leBytes payload.length ++ leBytes (Checksum.crc32 payload).toNat ++ payload

/-- Why a scan of the log ended. -/
inductive WalStop
  | cleanEof
  | tornTail
  | corruption
  deriving DecidableEq, Repr

/-- One round of the loop that `scan_valid_prefix` and `replay_each` share. -/
def nextEntry (log : Bytes) : WalStop ⊕ Bytes × Bytes :=
  if log.length < 8 then .inl (if log.isEmpty then .cleanEof else .tornTail)
  else
    let entryLength := fromLeBytes (log.take 4)
    let expectedCrc := fromLeBytes ((log.drop 4).take 4)
    if maxEntryLength < entryLength then .inl .corruption
    else if (log.drop 8).length < entryLength then .inl .corruption
    else if (Checksum.crc32 ((log.drop 8).take entryLength)).toNat ≠ expectedCrc then .inl .corruption
    else .inr ((log.drop 8).take entryLength, (log.drop 8).drop entryLength)

/-- Payloads that `append` accepts. -/
def Appendable (payload : Bytes) : Prop := payload.length ≤ maxEntryLength

theorem nextEntry_header {a b body : Bytes} (ha : a.length = 4) (hb : b.length = 4) :
    nextEntry (a ++ (b ++ body)) =
      if maxEntryLength < fromLeBytes a then .inl .corruption
      else if body.length < fromLeBytes a then .inl .corruption
      else if (Checksum.crc32 (body.take (fromLeBytes a))).toNat ≠ fromLeBytes b then .inl .corruption
      else .inr (body.take (fromLeBytes a), body.drop (fromLeBytes a)) := by
  have hlen : ¬ (a ++ (b ++ body)).length < 8 := by simp only [List.length_append]; omega
  have htake : (a ++ (b ++ body)).take 4 = a := List.take_left' ha
  have hdrop : (a ++ (b ++ body)).drop 4 = b ++ body := List.drop_left' ha
  have hcrc : ((a ++ (b ++ body)).drop 4).take 4 = b := by rw [hdrop, List.take_left' hb]
  have hbody : (a ++ (b ++ body)).drop 8 = body := by
    rw [← List.append_assoc]
    exact List.drop_left' (by simp [ha, hb])
  rw [nextEntry, if_neg hlen, htake, hcrc, hbody]

omit [Checksum] in
theorem exists_header {log : Bytes} (h : ¬ log.length < 8) :
    ∃ a b body, a.length = 4 ∧ b.length = 4 ∧ log = a ++ (b ++ body) := by
  refine ⟨log.take 4, (log.drop 4).take 4, (log.drop 4).drop 4, ?_, ?_, ?_⟩
  · rw [List.length_take]; omega
  · rw [List.length_take, List.length_drop]; omega
  · rw [List.take_append_drop, List.take_append_drop]

theorem length_walEntry (payload : Bytes) : (walEntry payload).length = 8 + payload.length := by
  simp only [walEntry, List.length_append, length_leBytes]

theorem walEntry_append_eq (payload log : Bytes) :
    walEntry payload ++ log =
      leBytes payload.length ++ (leBytes (Checksum.crc32 payload).toNat ++ (payload ++ log)) := by
  simp only [walEntry, List.append_assoc]

omit [Checksum] in
theorem Appendable.fromLeBytes_length {payload : Bytes} (h : Appendable payload) :
    fromLeBytes (leBytes payload.length) = payload.length := by
  refine fromLeBytes_leBytes ?_
  simp only [Appendable, maxEntryLength] at h
  omega

theorem fromLeBytes_crc32 (payload : Bytes) :
    fromLeBytes (leBytes (Checksum.crc32 payload).toNat) = (Checksum.crc32 payload).toNat :=
  fromLeBytes_leBytes (Checksum.crc32 payload).toNat_lt

theorem nextEntry_whole {payload log : Bytes} (h : Appendable payload) :
    nextEntry (walEntry payload ++ log) = .inr (payload, log) := by
  rw [walEntry_append_eq, nextEntry_header rfl rfl, h.fromLeBytes_length, fromLeBytes_crc32,
    List.take_left, List.drop_left, if_neg (Nat.not_lt.mpr h), if_neg (by simp), if_neg (by simp)]

/-- An entry that is found is one that was framed. -/
theorem nextEntry_sound {log payload rest : Bytes} (hx : nextEntry log = .inr (payload, rest)) :
    Appendable payload ∧ log = walEntry payload ++ rest := by
  by_cases hlen : log.length < 8
  · rw [nextEntry, if_pos hlen] at hx
    cases hx
  obtain ⟨a, b, body, ha, hb, rfl⟩ := exists_header hlen
  rw [nextEntry_header ha hb] at hx
  split at hx
  · cases hx
  split at hx
  · cases hx
  split at hx
  · cases hx
  rename_i hmax hshort hcrc
  simp only [Sum.inr.injEq, Prod.mk.injEq] at hx
  obtain ⟨rfl, rfl⟩ := hx
  have hpay : (body.take (fromLeBytes a)).length = fromLeBytes a := by
    rw [List.length_take]; omega
  refine ⟨by rw [Appendable, hpay]; omega, ?_⟩
  rw [walEntry_append_eq, hpay, not_not.mp hcrc, leBytes_fromLeBytes ha, leBytes_fromLeBytes hb,
    List.take_append_drop]

/-- An entry cut short is never read as one: its header is cut or its payload is too short. -/
theorem nextEntry_torn {payload log : Bytes} (h : Appendable payload)
    (hpre : log <+: walEntry payload) (hne : log ≠ walEntry payload) :
    ∃ s, nextEntry log = .inl s := by
  by_cases hlen : log.length < 8
  · exact ⟨_, if_pos hlen⟩
  obtain ⟨a, b, body, ha, hb, rfl⟩ := exists_header hlen
  have hentry : walEntry payload =
      leBytes payload.length ++ (leBytes (Checksum.crc32 payload).toNat ++ payload) := by
    simp only [walEntry, List.append_assoc]
  rw [hentry] at hpre hne
  obtain ⟨tail, htail⟩ := hpre
  rw [List.append_assoc, List.append_assoc] at htail
  obtain ⟨rfl, hrest⟩ := List.append_inj htail ha
  obtain ⟨rfl, rfl⟩ := List.append_inj hrest hb
  have hshort : body.length < (body ++ tail).length := by
    rw [List.length_append]
    have : tail ≠ [] := by
      rintro rfl
      simp at hne
    have := List.length_pos_iff.mpr this
    omega
  rw [nextEntry_header rfl rfl, h.fromLeBytes_length, if_neg (Nat.not_lt.mpr h), if_pos hshort]
  exact ⟨_, rfl⟩

theorem nextEntry_reads : Framing.Reads nextEntry walEntry Appendable where
  block payload := by simp [walEntry, leBytes]
  empty := ⟨.cleanEof, rfl⟩
  sound := nextEntry_sound
  whole := nextEntry_whole
  torn := nextEntry_torn

/-! ### Recovery -/

/-- `scan_valid_prefix`: where the run of valid entries ends, and why. -/
def scanValidPrefix (log : Bytes) : Nat × WalStop :=
  let scan := Framing.scan nextEntry log
  (log.length - scan.rest.length, scan.stop.getD .cleanEof)

/-- The lossiness metadata and the mutations of a replay. -/
structure RecoveryReport (μ : Type) where
  mutations : List μ
  corruptEntries : Nat
  stoppedEarly : Bool
  bytesSkipped : Nat

section

variable {μ : Type}

def RecoveryReport.isClean (r : RecoveryReport μ) : Bool := r.corruptEntries = 0 && !r.stoppedEarly

/-- `replay`: valid entries in order; one that passes its CRC but does not decode is skipped. -/
def replay (decode : Bytes → Option μ) (log : Bytes) : RecoveryReport μ :=
  let scan := Framing.scan nextEntry log
  let stopped := scan.stop = some .corruption
  { mutations := scan.items.filterMap decode
    corruptEntries := (scan.items.filter fun p => (decode p).isNone).length + (if stopped then 1 else 0)
    stoppedEarly := stopped
    bytesSkipped := scan.rest.length }

/-! ### The handle -/

/-- An open log. `log` is what the handle wrote, buffered bytes included; `durable` is what the last
    fsync left on disk, and `truncated` says that the file was emptied since. -/
structure Wal where
  log : Bytes
  durable : Bytes
  truncated : Bool
  currentSize : Nat
  pendingValidPrefix : Option Nat
  poisoned : Option String

namespace Wal

/-- `create`: an empty file. -/
def create : Wal := ⟨[], [], false, 0, none, none⟩

/-- `open_existing`: a torn header is trimmed at once, a corrupt tail is left for the caller. -/
def openExisting (file : Bytes) : Wal :=
  match scanValidPrefix file with
  | (validEnd, .tornTail) =>
    let log := file.take validEnd
    ⟨log, log, false, validEnd, none, none⟩
  | (validEnd, .corruption) =>
    ⟨file, file, false, file.length, if validEnd < file.length then some validEnd else none, none⟩
  | (_, .cleanEof) => ⟨file, file, false, file.length, none, none⟩

/-- `reset_to_valid_prefix`. -/
def resetToValidPrefix (w : Wal) : Wal :=
  match w.pendingValidPrefix with
  | none => w
  | some validEnd =>
    if w.log.length ≤ validEnd then
      { w with currentSize := w.log.length, pendingValidPrefix := none }
    else
      { w with
        log := w.log.take validEnd
        durable := w.log.take validEnd
        currentSize := validEnd
        pendingValidPrefix := none }

/-- A write that fails after `written` bytes of the entry. -/
structure AppendFault where
  written : Nat
  message : String

def poisonedMessage (reason : String) : String :=
  "WAL is poisoned after a failed truncate-restore and must be reopened before further writes: " ++
    reason

/-- The handle after a complete append. -/
def appended (w : Wal) (payload : Bytes) : Wal :=
  { w with
    log := w.log ++ walEntry payload
    currentSize := w.currentSize + (8 + payload.length) }

/-- The handle after an append that failed part-way: a strict prefix of the entry stays behind. What
    is buffered counts; a payload above the buffer's 4096 bytes flushes the header before it. -/
def tornAppend (w : Wal) (payload : Bytes) (written : Nat) : Wal :=
  { w with log := w.log ++ (walEntry payload).dropLast.take written }

/-- `append`; nothing takes back what a failed one wrote. -/
def append (encode : μ → Except Error Bytes) (fault : Option AppendFault) (w : Wal) (m : μ) :
    Except Error Unit × Wal :=
  match w.poisoned with
  | some reason => (.error (.storage (poisonedMessage reason)), w)
  | none =>
    if w.pendingValidPrefix.isSome then
      (.error (.storage
        "WAL has an unreset corrupt tail; reset_to_valid_prefix required before appending"), w)
    else
      match encode m with
      | .error e => (.error e, w)
      | .ok payload =>
        if maxEntryLength < payload.length then
          (.error (.storage ("WAL entry exceeds MAX_ENTRY_LENGTH (16 MiB): " ++
            toString payload.length ++ " bytes")), w)
        else
          match fault with
          | some f => (.error (.storage f.message), w.tornAppend payload f.written)
          | none => (.ok (), w.appended payload)

/-- The handle after an fsync. -/
def synced (w : Wal) : Wal := { w with durable := w.log, truncated := false }

/-- `sync`: flush the buffer, then fsync. A fault keeps the unwritten bytes buffered. -/
def sync (fault : Option String) (w : Wal) : Except Error Unit × Wal :=
  match w.poisoned with
  | some reason => (.error (.storage (poisonedMessage reason)), w)
  | none =>
    match fault with
    | some message => (.error (.storage message), w)
    | none => (.ok (), w.synced)

/-- Where a truncation failed: before `set_len(0)` the entries are still there. -/
inductive TruncateError
  | beforeMutation (e : Error)
  | afterMutation (e : Error)

/-- The faults of a truncation, in the order its steps run. -/
inductive TruncateFault
  | flushOrSetLen (message : String)
  | seek (message : String)
  | fsync (message : String)

/-- `truncate_checked`. -/
def truncateChecked (fault : Option TruncateFault) (w : Wal) : Except TruncateError Unit × Wal :=
  match w.poisoned with
  | some reason =>
    (.error (.afterMutation (.storage ("WAL is poisoned and cannot be truncated: " ++ reason))), w)
  | none =>
    match fault with
    | some (.flushOrSetLen message) => (.error (.beforeMutation (.storage message)), w)
    | some (.seek message) =>
      (.error (.afterMutation (.storage ("Failed to seek after truncate; WAL poisoned to prevent a " ++
        "sparse append: " ++ message))),
        { w with
          log := []
          truncated := true
          currentSize := 0
          poisoned := some ("seek after truncate failed: " ++ message) })
    | some (.fsync message) =>
      (.error (.afterMutation (.storage ("Failed to sync after truncate: " ++ message))),
        { w with log := [], truncated := true, currentSize := 0 })
    | none =>
      (.ok (), { w with
        log := []
        durable := []
        truncated := false
        currentSize := 0
        pendingValidPrefix := none })

/-- What an append can do: refuse, fail part-way, or write the whole entry. -/
theorem append_cases {encode : μ → Except Error Bytes} {fault : Option AppendFault} {w w' : Wal}
    {m : μ} {r : Except Error Unit} (h : w.append encode fault m = (r, w')) :
    (∃ err, r = .error err ∧ w' = w) ∨
    (∃ payload f, w.poisoned = none ∧ w.pendingValidPrefix = none ∧ encode m = .ok payload ∧
      Appendable payload ∧ fault = some f ∧ r = .error (.storage f.message) ∧
      w' = w.tornAppend payload f.written) ∨
    (∃ payload, w.poisoned = none ∧ w.pendingValidPrefix = none ∧ encode m = .ok payload ∧
      Appendable payload ∧ fault = none ∧ r = .ok () ∧ w' = w.appended payload) := by
  rw [append] at h
  cases hp : w.poisoned with
  | some reason =>
    simp only [hp] at h
    exact .inl ⟨_, (Prod.mk.inj h).1.symm, (Prod.mk.inj h).2.symm⟩
  | none =>
    simp only [hp] at h
    split at h
    · exact .inl ⟨_, (Prod.mk.inj h).1.symm, (Prod.mk.inj h).2.symm⟩
    rename_i hpend
    cases henc : encode m with
    | error e =>
      simp only [henc] at h
      exact .inl ⟨_, (Prod.mk.inj h).1.symm, (Prod.mk.inj h).2.symm⟩
    | ok payload =>
      simp only [henc] at h
      split at h
      · exact .inl ⟨_, (Prod.mk.inj h).1.symm, (Prod.mk.inj h).2.symm⟩
      rename_i hlen
      have hok : Appendable payload := Nat.not_lt.mp hlen
      cases fault with
      | some f =>
        exact .inr (.inl ⟨payload, f, rfl, by simpa using hpend, rfl, hok, rfl,
          (Prod.mk.inj h).1.symm, (Prod.mk.inj h).2.symm⟩)
      | none =>
        exact .inr (.inr ⟨payload, rfl, by simpa using hpend, rfl, hok, rfl,
          (Prod.mk.inj h).1.symm, (Prod.mk.inj h).2.symm⟩)

omit [Checksum] in
theorem sync_cases {fault : Option String} {w w' : Wal} {r : Except Error Unit}
    (h : w.sync fault = (r, w')) :
    (∃ err, r = .error err ∧ w' = w ∧ (w.poisoned.isSome ∨ fault.isSome)) ∨
      (r = .ok () ∧ w' = w.synced) := by
  simp only [sync] at h
  cases hp : w.poisoned with
  | some reason =>
    simp only [hp] at h
    exact .inl ⟨_, (Prod.mk.inj h).1.symm, (Prod.mk.inj h).2.symm, .inl rfl⟩
  | none =>
    simp only [hp] at h
    cases fault with
    | some message => exact .inl ⟨_, (Prod.mk.inj h).1.symm, (Prod.mk.inj h).2.symm, .inr rfl⟩
    | none => exact .inr ⟨(Prod.mk.inj h).1.symm, (Prod.mk.inj h).2.symm⟩

/-- The file a crash may leave: the durable bytes and some of those written after, or, once the file
    was emptied, the old bytes or some of the new ones. -/
inductive CrashImage (w : Wal) : Bytes → Prop
  | written {file : Bytes} : w.truncated = false → w.durable <+: file → file <+: w.log →
      CrashImage w file
  | stale : w.truncated = true → CrashImage w w.durable
  | emptied {file : Bytes} : w.truncated = true → file <+: w.log → CrashImage w file

end Wal

end

end Cqlite
