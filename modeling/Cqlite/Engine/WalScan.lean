import Cqlite.Engine.Wal
import Cqlite.Lib.VInt
import Mathlib.Data.List.DropRight

/-! The two loops over the log (`write_engine/wal.rs`: `scan_valid_prefix`, `replay_each`).

    Opening a log scans it for the end of its valid entries, recovery replays them. Each loop reads
    the file on its own; `Wal.lean` has one reader for both. -/

namespace Cqlite

open VInt

theorem splitFront_length {k : Nat} {bytes front rest : Bytes}
    (h : splitFront k bytes = some (front, rest)) : bytes.length = k + rest.length := by
  rw [splitFront] at h
  split at h
  · cases h
  · obtain ⟨rfl, rfl⟩ := Prod.ext_iff.mp (Option.some.inj h)
    rw [List.length_drop]
    omega

theorem length_of_splitFront {k : Nat} {bytes front rest : Bytes}
    (h : splitFront k bytes = some (front, rest)) : front.length = k := by
  rw [splitFront] at h
  split at h
  · cases h
  · obtain ⟨rfl, rfl⟩ := Prod.ext_iff.mp (Option.some.inj h)
    rw [List.length_take]
    omega

section Loops

/-! ### The loops -/

variable [Checksum]

/-- `scan_valid_prefix` from an offset on; `at_clean_eof` compares it with the length of the file. -/
def scanLoop (fileLen offset : Nat) (unread : Bytes) : Nat × WalStop :=
  match _hheader : splitFront 8 unread with
  | none => (offset, if fileLen = offset then .cleanEof else .tornTail)
  | some (header, body) =>
    let entryLength := fromLeBytes (header.take 4)
    let expectedCrc := fromLeBytes (header.drop 4)
    if maxEntryLength < entryLength then (offset, .corruption)
    else match _hpayload : splitFront entryLength body with
      | none => (offset, .corruption)
      | some (payload, next) =>
        if (Checksum.crc32 payload).toNat ≠ expectedCrc then (offset, .corruption)
        else scanLoop fileLen (offset + (8 + entryLength)) next
termination_by unread.length
decreasing_by
  have := splitFront_length _hheader
  have := splitFront_length _hpayload
  omega

section

variable {μ σ : Type}

/-- `replay_each` from an offset on. The callback takes a state along and may fail; the number at
    the end is the offset the loop stopped at. -/
def replayLoop (decode : Bytes → Option μ) (f : σ → μ → Except Error σ) (offset : Nat)
    (report : RecoveryReport μ) (state : σ) (unread : Bytes) :
    Except Error (σ × RecoveryReport μ × Nat) :=
  let stoppedEarly := { report with corruptEntries := report.corruptEntries + 1, stoppedEarly := true }
  match _hheader : splitFront 8 unread with
  | none => .ok (state, report, offset)
  | some (header, body) =>
    let entryLength := fromLeBytes (header.take 4)
    let expectedCrc := fromLeBytes (header.drop 4)
    if maxEntryLength < entryLength then .ok (state, stoppedEarly, offset)
    else match _hpayload : splitFront entryLength body with
      | none => .ok (state, stoppedEarly, offset)
      | some (payload, next) =>
        if (Checksum.crc32 payload).toNat ≠ expectedCrc then .ok (state, stoppedEarly, offset)
        else match decode payload with
          | some mutation =>
            match f state mutation with
            | .ok state => replayLoop decode f (offset + (8 + entryLength)) report state next
            | .error e => .error e
          | none =>
            replayLoop decode f (offset + (8 + entryLength))
              { report with corruptEntries := report.corruptEntries + 1 } state next
termination_by unread.length
decreasing_by
  all_goals
    have := splitFront_length _hheader
    have := splitFront_length _hpayload
    omega

/-- `replay_each`. -/
def replayEach (decode : Bytes → Option μ) (f : σ → μ → Except Error σ) (state : σ) (file : Bytes) :
    Except Error (σ × RecoveryReport μ) :=
  (replayLoop decode f 0 ⟨[], 0, false, 0⟩ state file).map fun (state, report, offset) =>
    (state, { report with bytesSkipped := file.length - offset })

/-! ### One round -/

theorem nextEntry_eq_split (log : Bytes) :
    nextEntry log = match splitFront 8 log with
      | none => .inl (if log.isEmpty then .cleanEof else .tornTail)
      | some (header, body) =>
        if maxEntryLength < fromLeBytes (header.take 4) then .inl .corruption
        else match splitFront (fromLeBytes (header.take 4)) body with
          | none => .inl .corruption
          | some (payload, next) =>
            if (Checksum.crc32 payload).toNat ≠ fromLeBytes (header.drop 4) then .inl .corruption
            else .inr (payload, next) := by
  by_cases hlen : log.length < 8
  · rw [nextEntry, if_pos hlen, splitFront, if_pos hlen]
  · obtain ⟨a, b, body, ha, hb, rfl⟩ := exists_header hlen
    have hsplit : splitFront 8 (a ++ (b ++ body)) = some (a ++ b, body) := by
      rw [← List.append_assoc]
      exact splitFront_append (by simp [ha, hb]) body
    rw [nextEntry_header ha hb, hsplit]
    simp only [List.take_left' ha, List.drop_left' ha]
    split
    · rfl
    · by_cases hshort : body.length < fromLeBytes a
      · rw [if_pos hshort, splitFront, if_pos hshort]
      · rw [if_neg hshort, splitFront, if_neg hshort]

theorem scanLoop_eq (fileLen offset : Nat) (log : Bytes) :
    scanLoop fileLen offset log = match nextEntry log with
      | .inl .corruption => (offset, .corruption)
      | .inl _ => (offset, if fileLen = offset then .cleanEof else .tornTail)
      | .inr (payload, next) => scanLoop fileLen (offset + (8 + payload.length)) next := by
  rw [scanLoop, nextEntry_eq_split]
  cases hheader : splitFront 8 log with
  | none => cases log.isEmpty <;> rfl
  | some p =>
    obtain ⟨header, body⟩ := p
    simp only
    split
    · rfl
    · cases hpayload : splitFront (fromLeBytes (header.take 4)) body with
      | none => rfl
      | some p =>
        obtain ⟨payload, next⟩ := p
        simp only
        split
        · rfl
        · simp only [length_of_splitFront hpayload]

/-- The report of a loop that stopped. -/
def RecoveryReport.stopped (report : RecoveryReport μ) : WalStop → RecoveryReport μ
  | .corruption => { report with corruptEntries := report.corruptEntries + 1, stoppedEarly := true }
  | _ => report

theorem replayLoop_eq (decode : Bytes → Option μ) (f : σ → μ → Except Error σ) (offset : Nat)
    (report : RecoveryReport μ) (state : σ) (log : Bytes) :
    replayLoop decode f offset report state log = match nextEntry log with
      | .inl s => .ok (state, report.stopped s, offset)
      | .inr (payload, next) =>
        match decode payload with
        | some mutation =>
          match f state mutation with
          | .ok state => replayLoop decode f (offset + (8 + payload.length)) report state next
          | .error e => .error e
        | none => replayLoop decode f (offset + (8 + payload.length))
            { report with corruptEntries := report.corruptEntries + 1 } state next := by
  rw [replayLoop, nextEntry_eq_split]
  cases hheader : splitFront 8 log with
  | none => cases log.isEmpty <;> rfl
  | some p =>
    obtain ⟨header, body⟩ := p
    simp only
    split
    · rfl
    · cases hpayload : splitFront (fromLeBytes (header.take 4)) body with
      | none => rfl
      | some p =>
        obtain ⟨payload, next⟩ := p
        simp only
        split
        · rfl
        · simp only [length_of_splitFront hpayload]

/-! ### Whole logs -/

variable {s : WalStop}

theorem nextEntry_stop {log : Bytes} (h : nextEntry log = .inl s) : s = .cleanEof ↔ log = [] := by
  rw [nextEntry_eq_split] at h
  constructor
  · rintro rfl
    split at h
    · by_contra hne
      rw [if_neg (by simpa using hne)] at h
      cases h
    · repeat' split at h
      all_goals cases h
  · rintro rfl
    exact (Sum.inl.inj h).symm

theorem exists_entries (log : Bytes) :
    ∃ entries tail s, (∀ p ∈ entries, Appendable p) ∧ log = Framing.frames walEntry entries ++ tail ∧
      nextEntry tail = .inl s ∧ Framing.scan nextEntry log = ⟨entries, some s, tail⟩ := by
  have hstop : ∃ s, (Framing.scan nextEntry log).stop = some s ∧
      nextEntry (Framing.scan nextEntry log).rest = .inl s := by
    induction hn : log.length using Nat.strong_induction_on generalizing log with
    | h n ih =>
      cases hx : nextEntry log with
      | inl s =>
        rw [Framing.Reads.scan_stop hx]
        exact ⟨s, rfl, hx⟩
      | inr x =>
        obtain ⟨p, rest⟩ := x
        rw [nextEntry_reads.scan_next hx]
        exact ih rest.length (hn ▸ nextEntry_reads.shorter hx) rest rfl
  obtain ⟨s, hs, hrest⟩ := hstop
  obtain ⟨hentries, hlog⟩ := nextEntry_reads.frames_items_append_rest log
  refine ⟨_, _, s, hentries, hlog, hrest, ?_⟩
  rw [← hs]

variable {entries : List Bytes} {tail : Bytes}

theorem scanLoop_entries (hentries : ∀ p ∈ entries, Appendable p) (htail : nextEntry tail = .inl s)
    (offset : Nat) :
    scanLoop (offset + (Framing.frames walEntry entries ++ tail).length) offset
      (Framing.frames walEntry entries ++ tail) =
      (offset + (Framing.frames walEntry entries).length, s) := by
  induction entries generalizing offset with
  | nil =>
    rw [Framing.frames, List.flatMap_nil, List.nil_append, scanLoop_eq, htail]
    have hclean := nextEntry_stop htail
    cases s with
    | corruption => rfl
    | cleanEof =>
      rw [hclean.1 rfl]
      simp
    | tornTail =>
      have hne : tail.length ≠ 0 := fun h => by cases hclean.2 (List.length_eq_zero_iff.1 h)
      rw [if_neg (by omega)]
      rfl
  | cons p entries ih =>
    obtain ⟨hp, hentries⟩ := List.forall_mem_cons.1 hentries
    have hrest := ih hentries (offset + (8 + p.length))
    rw [Framing.frames_cons, List.append_assoc, scanLoop_eq, nextEntry_whole hp]
    simp only [List.length_append, length_walEntry] at hrest ⊢
    rw [show offset + (8 + p.length + ((Framing.frames walEntry entries).length + tail.length)) =
      offset + (8 + p.length) + ((Framing.frames walEntry entries).length + tail.length) by omega,
      hrest, Nat.add_assoc]

/-- Replay goes through whole entries one by one. -/
theorem replayLoop_entries {s : WalStop} (hentries : ∀ p ∈ entries, Appendable p)
    (htail : nextEntry tail = .inl s) (decode : Bytes → Option μ) (f : σ → μ → Except Error σ)
    (offset : Nat) (report : RecoveryReport μ) (state : σ) :
    replayLoop decode f offset report state (Framing.frames walEntry entries ++ tail) =
      ((entries.filterMap decode).foldlM f state).map fun state =>
        (state, ({ report with corruptEntries := report.corruptEntries +
            (entries.filter fun p => (decode p).isNone).length }).stopped s,
          offset + (Framing.frames walEntry entries).length) := by
  induction entries generalizing offset report state with
  | nil =>
    rw [Framing.frames, List.flatMap_nil, List.nil_append, replayLoop_eq, htail]
    rfl
  | cons p entries ih =>
    obtain ⟨hp, hentries⟩ := List.forall_mem_cons.1 hentries
    have hend : offset + (8 + p.length) + (Framing.frames walEntry entries).length =
        offset + (Framing.frames walEntry (p :: entries)).length := by
      rw [Framing.frames_cons, List.length_append, length_walEntry, Nat.add_assoc]
    rw [Framing.frames_cons, List.append_assoc, replayLoop_eq, nextEntry_whole hp]
    cases hdecode : decode p with
    | some mutation =>
      rw [List.filterMap_cons_some hdecode, List.foldlM_cons, List.filter_cons_of_neg (by simp [hdecode])]
      cases hf : f state mutation with
      | ok state =>
        simp only [hdecode, hf, ih hentries, hend]
        rfl
      | error e =>
        simp only [hdecode, hf]
        rfl
    | none =>
      rw [List.filterMap_cons_none hdecode, List.filter_cons_of_pos (by simp [hdecode])]
      simp only [hdecode, ih hentries, hend, List.length_cons]
      congr 1
      funext state
      congr 4
      omega

theorem scanValidPrefix_eq_scanLoop (file : Bytes) :
    scanValidPrefix file = scanLoop file.length 0 file := by
  obtain ⟨entries, tail, s, hentries, hfile, htail, hitems⟩ := exists_entries file
  have hscan := scanLoop_entries hentries htail 0
  rw [← hfile, Nat.zero_add, Nat.zero_add] at hscan
  have hlen := congrArg List.length hfile
  rw [List.length_append] at hlen
  rw [scanValidPrefix, hitems, hscan]
  exact Prod.ext (by simp only; omega) rfl

/-! ### Scanning against replaying -/

/-- What a replay goes through: the entries at the front of the file. Those that decode are
    delivered in order, the others are skipped and counted. -/
structure ReplayedAs (decode : Bytes → Option μ) (file : Bytes) (entries : List Bytes) (tail : Bytes)
    (report : RecoveryReport μ) : Prop where
  split : file = Framing.frames walEntry entries ++ tail
  delivered : ∀ {σ : Type} (f : σ → μ → Except Error σ) (state : σ),
    replayEach decode f state file =
      ((entries.filterMap decode).foldlM f state).map fun state => (state, report)
  skipped : report.corruptEntries = (entries.filter fun p => (decode p).isNone).length +
    if report.stoppedEarly then 1 else 0
  unread : report.bytesSkipped = tail.length

/-- The report on a file with the given entries. -/
def reportOf (decode : Bytes → Option μ) (entries : List Bytes) (tail : Bytes) (s : WalStop) :
    RecoveryReport μ :=
  { mutations := []
    corruptEntries := (entries.filter fun p => (decode p).isNone).length +
      if s = .corruption then 1 else 0
    stoppedEarly := s = .corruption
    bytesSkipped := tail.length }

theorem replayedAs_entries (hentries : ∀ p ∈ entries, Appendable p)
    (htail : nextEntry tail = .inl s) (decode : Bytes → Option μ) :
    ReplayedAs decode (Framing.frames walEntry entries ++ tail) entries tail
      (reportOf decode entries tail s) where
  split := rfl
  delivered f state := by
    rw [replayEach, replayLoop_entries hentries htail, Nat.zero_add]
    cases (entries.filterMap decode).foldlM f state with
    | error e => rfl
    | ok state =>
      simp only [Except.map, reportOf, List.length_append, Nat.add_sub_cancel_left, Nat.zero_add]
      cases s <;> rfl
  skipped := by cases s <;> rfl
  unread := rfl

/-- A file cut behind its valid entries delivers what the whole file does. -/
theorem replayEach_cut (hentries : ∀ p ∈ entries, Appendable p) (htail : nextEntry tail = .inl s)
    (decode : Bytes → Option μ) (f : σ → μ → Except Error σ) (state : σ) :
    (replayEach decode f state (Framing.frames walEntry entries)).map (·.1) =
      (replayEach decode f state (Framing.frames walEntry entries ++ tail)).map (·.1) := by
  have hcut := (replayedAs_entries hentries (rfl : nextEntry [] = .inl .cleanEof)
    decode).delivered f state
  rw [List.append_nil] at hcut
  rw [hcut, (replayedAs_entries hentries htail decode).delivered f state]
  cases (entries.filterMap decode).foldlM f state <;> rfl

theorem resetToValidPrefix_log {file : Bytes}
    (hfile : file = Framing.frames walEntry entries ++ tail) (htail : nextEntry tail = .inl s)
    (hscan : scanValidPrefix file = ((Framing.frames walEntry entries).length, s)) :
    (Wal.openExisting file).resetToValidPrefix.log = Framing.frames walEntry entries := by
  have htake : file.take (Framing.frames walEntry entries).length = Framing.frames walEntry entries := by
    rw [hfile, List.take_left]
  rw [Wal.openExisting, hscan]
  cases s with
  | tornTail => exact htake
  | cleanEof =>
    rw [hfile, (nextEntry_stop htail).1 rfl, List.append_nil]
    rfl
  | corruption =>
    have hne : tail.length ≠ 0 := by
      intro h
      have := (nextEntry_stop htail).2 (List.length_eq_zero_iff.1 h)
      cases this
    have hlt : (Framing.frames walEntry entries).length < file.length := by
      rw [hfile, List.length_append]
      omega
    simp only [if_pos hlt, Wal.resetToValidPrefix, if_neg (Nat.not_le.2 hlt), htake]

/-- The scan keeps exactly the entries a replay goes through, both see the same end, and after the
    reset a replay delivers the same. -/
theorem scan_agrees_with_replay (decode : Bytes → Option μ) (file : Bytes) :
    ∃ entries tail report, ReplayedAs decode file entries tail report ∧
      (scanLoop file.length 0 file).1 = (Framing.frames walEntry entries).length ∧
      ((scanLoop file.length 0 file).2 = .cleanEof ↔
        report.stoppedEarly = false ∧ report.bytesSkipped = 0) ∧
      ((scanLoop file.length 0 file).2 = .tornTail ↔
        report.stoppedEarly = false ∧ 0 < report.bytesSkipped) ∧
      ((scanLoop file.length 0 file).2 = .corruption ↔ report.stoppedEarly = true) ∧
      ∀ {σ : Type} (f : σ → μ → Except Error σ) (state : σ),
        (replayEach decode f state (Wal.openExisting file).resetToValidPrefix.log).map (·.1) =
          (replayEach decode f state file).map (·.1) := by
  obtain ⟨entries, tail, s, hentries, hfile, htail, -⟩ := exists_entries file
  have hscan := scanLoop_entries hentries htail 0
  rw [← hfile, Nat.zero_add, Nat.zero_add] at hscan
  have hvalid := (scanValidPrefix_eq_scanLoop file).trans hscan
  have hempty : s = .cleanEof ↔ tail.length = 0 :=
    (nextEntry_stop htail).trans List.length_eq_zero_iff.symm
  refine ⟨entries, tail, reportOf decode entries tail s, hfile ▸ replayedAs_entries hentries htail decode,
    by rw [hscan], ?_, ?_, ?_, ?_⟩
  · rw [hscan, reportOf]
    cases s with
    | cleanEof => simpa using hempty
    | tornTail => simpa using hempty
    | corruption => simp
  · rw [hscan, reportOf]
    cases s with
    | cleanEof => simpa [List.length_pos_iff] using hempty
    | tornTail => simpa [List.length_pos_iff] using hempty
    | corruption => simp
  · rw [hscan, reportOf]
    cases s <;> simp
  · intro σ f state
    rw [resetToValidPrefix_log hfile htail hvalid, replayEach_cut hentries htail, ← hfile]

/-- Where the last delivered entry ends. -/
def lastDeliveredEnd (decode : Bytes → Option μ) (entries : List Bytes) : Nat :=
  (Framing.frames walEntry (entries.rdropWhile fun p => (decode p).isNone)).length

end

end Loops

/-- A decoder that refuses the empty payload. -/
def decodeNonempty (payload : Bytes) : Option Bytes := if payload.isEmpty then none else some payload

/-- An entry that does not decode is kept by the scan and delivered by no replay. -/
theorem undecodable_entry_kept :
    ReplayedAs decodeNonempty (walEntry []) [[]] [] (reportOf decodeNonempty [[]] [] .cleanEof) ∧
    (scanLoop (walEntry []).length 0 (walEntry [])).1 ≠ lastDeliveredEnd decodeNonempty [[]] := by
  have hentries : ∀ p ∈ [([] : Bytes)], Appendable p := by simp [Appendable]
  have hlog : Framing.frames walEntry [[]] ++ [] = walEntry [] := rfl
  have hscan := scanLoop_entries hentries (rfl : nextEntry [] = .inl .cleanEof) 0
  refine ⟨hlog ▸ replayedAs_entries hentries rfl decodeNonempty, ?_⟩
  rw [hlog, Nat.zero_add, Nat.zero_add] at hscan
  rw [hscan]
  decide

end Cqlite
