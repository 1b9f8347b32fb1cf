import Cqlite.Reader.SummaryFile
import Cqlite.Writer.VIntCodecs

/-! Reading `Index.db` and `Filter.db` (`index_reader/parse.rs`: `parse_big_index_entry`,
    `parse_all_partition_keys_cancellable`; `bloom.rs`: `BloomFilter::deserialize`).

    An index is parsed entry by entry up to the first byte that starts none. -/

namespace Cqlite

open VInt Checked

/-! ### Entries of the index -/

structure PartitionIndexEntry where
  rawKey : Bytes
  dataOffset : Nat
  promotedIndex : Option Bytes
  deriving DecidableEq

/-- A nom parser of an entry, which fails where the bytes end. -/
def orEof {α : Type} : Option α → Run IndexError α
  | some a => pure a
  | none => fail .eof

/-- `parse_vuint`. -/
def parseVuint (input : Bytes) : Run IndexError (Nat × Bytes) :=
  match ParserVInt.decodeUnsigned input with
  | .ok (value, consumed) => do
    let rest ← slice input consumed input.length
    return (value, rest)
  | .error _ => fail .eof

/-- `parse_big_index_entry`: the entry, and the bytes behind it. -/
def parseBigIndexEntry (input : Bytes) : Run IndexError (PartitionIndexEntry × Bytes) := do
  let (keyLen, input) ← orEof (beNumber 2 input)
  let (keyBytes, input) ← orEof (splitFront keyLen input)
  let (dataOffset, input) ← parseVuint input
  let (promotedLen, input) ← parseVuint input
  let (promotedData, input) ← orEof (splitFront promotedLen input)
  request promotedData.length
  request keyBytes.length
  return (⟨keyBytes, dataOffset, if promotedLen > 0 then some promotedData else none⟩, input)

/-! ### One entry -/

variable {rest data : Bytes} {bound : Nat} {α : Type} {input : Bytes}

theorem decodeUnsigned_suffix {value : Nat} (h : decodeUnsigned input = some (value, rest)) :
    ∃ front, input = front ++ rest ∧ front ≠ [] := by
  cases input with
  | nil => cases h
  | cons first tail =>
    rw [decodeUnsigned] at h
    split at h
    · cases h
    · obtain ⟨-, rfl⟩ := Prod.mk.inj (Option.some.inj h)
      exact ⟨first :: tail.take (leadingOnes first), by simp, List.cons_ne_nil _ _⟩

theorem parseVuint_eq (input : Bytes) : parseVuint input = orEof (decodeUnsigned input) := by
  have hparser := parser_decodeUnsigned_eq input
  rw [parseVuint]
  cases hdecode : decodeUnsigned input with
  | none =>
    rw [decodeWithLength, hdecode, Option.map_none] at hparser
    rw [parser_decodeUnsigned_error (by rw [← hparser, parser_decodeUnsigned_eq])]
    rfl
  | some p =>
    obtain ⟨value, rest⟩ := p
    obtain ⟨front, rfl, -⟩ := decodeUnsigned_suffix hdecode
    rw [decodeWithLength, hdecode, Option.map_some] at hparser
    rw [eq_ok_of_toOption hparser]
    dsimp only
    rw [slice, if_pos (by simp), List.take_length, List.length_append, Nat.add_sub_cancel,
      List.drop_left]
    rfl

theorem orEof_safe (parsed : Option α) : Safe bound (orEof parsed) := by
  cases parsed with
  | some a => exact Safe.pure a
  | none => exact Safe.fail _

theorem orEof_ok {parsed : Option α} {a : α} :
    (orEof parsed).outcome = .ok a ↔ parsed = some a := by
  cases parsed with
  | some b => exact ⟨fun h => congrArg some (Outcome.ok.inj h), fun h => by rw [Option.some.inj h]; rfl⟩
  | none => exact ⟨fun h => (nomatch h), fun h => (nomatch h)⟩

/-- The bytes of an entry: its key behind a length, the offset, and the promoted index behind a
    length. -/
structure EntryBytes (bytes : Bytes) (entry : PartitionIndexEntry) : Prop where
  parses : ∀ rest, (parseBigIndexEntry (bytes ++ rest)).outcome = .ok (entry, rest)
  length : 4 + entry.rawKey.length ≤ bytes.length

theorem decodeUnsigned_front {front : Bytes} {value : Nat}
    (h : decodeUnsigned (front ++ rest) = some (value, rest)) (more : Bytes) :
    decodeUnsigned (front ++ more) = some (value, more) := by
  cases front with
  | nil =>
    obtain ⟨front', heq, hne⟩ := decodeUnsigned_suffix h
    exact absurd (List.self_eq_append_left.1 heq) hne
  | cons first tail =>
    rw [List.cons_append, decodeUnsigned] at h ⊢
    split at h
    · cases h
    rename_i hlen
    obtain ⟨rfl, hrest⟩ := Prod.mk.inj (Option.some.inj h)
    have hextra : tail.length = leadingOnes first := by
      have := congrArg List.length hrest
      rw [List.length_drop, List.length_append] at this
      rw [List.length_append] at hlen
      omega
    rw [if_neg (by rw [List.length_append]; omega), List.take_left' hextra, List.drop_left' hextra,
      List.take_left' hextra]

theorem beNumber_append {front : Bytes} {k n : Nat} (hlen : front.length = k)
    (hn : fromBe front = n) : beNumber k (front ++ rest) = some (n, rest) := by
  rw [beNumber, splitFront_append hlen, Option.map_some, hn]

/-- An entry from its parts. -/
theorem entryBytes_parts {lenBytes keyBytes offsetBytes sizeBytes promoted : Bytes} {dataOffset : Nat}
    (hlen : lenBytes.length = 2) (hkey : fromBe lenBytes = keyBytes.length)
    (hoffset : ∀ more, decodeUnsigned (offsetBytes ++ more) = some (dataOffset, more))
    (hsize : ∀ more, decodeUnsigned (sizeBytes ++ more) = some (promoted.length, more)) :
    EntryBytes (lenBytes ++ (keyBytes ++ (offsetBytes ++ (sizeBytes ++ promoted))))
      ⟨keyBytes, dataOffset, if promoted.length > 0 then some promoted else none⟩ where
  parses rest := by
    simp only [List.append_assoc]
    rw [parseBigIndexEntry, beNumber_append hlen hkey]
    change (orEof (splitFront keyBytes.length _) >>= _).outcome = _
    rw [splitFront_append rfl]
    change (parseVuint _ >>= _).outcome = _
    rw [parseVuint_eq, hoffset]
    change (parseVuint _ >>= _).outcome = _
    rw [parseVuint_eq, hsize]
    change (orEof (splitFront promoted.length _) >>= _).outcome = _
    rw [splitFront_append rfl]
    rfl
  length := by
    have hpos : ∀ {bytes : Bytes} {n : Nat}, decodeUnsigned (bytes ++ []) = some (n, []) →
        0 < bytes.length := fun {bytes n} h => by
      cases bytes with
      | nil => cases h
      | cons b bytes => exact Nat.succ_pos _
    have := hpos (hoffset [])
    have := hpos (hsize [])
    simp only [List.length_append]
    omega

/-- An entry is the front of its input. -/
theorem parseBigIndexEntry_ok {entry : PartitionIndexEntry}
    (h : (parseBigIndexEntry input).outcome = .ok (entry, rest)) :
    ∃ bytes, input = bytes ++ rest ∧ EntryBytes bytes entry := by
  obtain ⟨⟨keyLen, r₁⟩, h₁, h⟩ := outcome_bind_ok.1 h
  obtain ⟨⟨keyBytes, r₂⟩, h₂, h⟩ := outcome_bind_ok.1 h
  obtain ⟨⟨dataOffset, r₃⟩, h₃, h⟩ := outcome_bind_ok.1 h
  obtain ⟨⟨promotedLen, r₄⟩, h₄, h⟩ := outcome_bind_ok.1 h
  obtain ⟨⟨promotedData, r₅⟩, h₅, h⟩ := outcome_bind_ok.1 h
  obtain ⟨_, -, h⟩ := outcome_bind_ok.1 h
  obtain ⟨_, -, h⟩ := outcome_bind_ok.1 h
  obtain ⟨rfl, rfl⟩ := Prod.mk.inj (Outcome.ok.inj h)
  obtain ⟨⟨lenBytes, r⟩, hsplit, heq⟩ := Option.map_eq_some_iff.1 (orEof_ok.1 h₁)
  obtain ⟨hkeyLen, rfl⟩ := Prod.mk.inj heq
  obtain ⟨rfl, hlen⟩ := splitFront_eq_some.1 hsplit
  obtain ⟨rfl, hkey⟩ := splitFront_eq_some.1 (orEof_ok.1 h₂)
  rw [parseVuint_eq] at h₃ h₄
  have h₃ := orEof_ok.1 h₃
  have h₄ := orEof_ok.1 h₄
  obtain ⟨offsetBytes, rfl, -⟩ := decodeUnsigned_suffix h₃
  obtain ⟨sizeBytes, rfl, -⟩ := decodeUnsigned_suffix h₄
  obtain ⟨rfl, hpromoted⟩ := splitFront_eq_some.1 (orEof_ok.1 h₅)
  subst hpromoted
  refine ⟨_, ?_, entryBytes_parts hlen (hkeyLen.trans hkey.symm) (decodeUnsigned_front h₃)
    (decodeUnsigned_front h₄)⟩
  simp only [List.append_assoc]

theorem parseBigIndexEntry_progress {entry : PartitionIndexEntry}
    (h : (parseBigIndexEntry input).outcome = .ok (entry, rest)) : rest.length < input.length := by
  obtain ⟨bytes, rfl, hbytes⟩ := parseBigIndexEntry_ok h
  have := hbytes.length
  rw [List.length_append]
  omega

theorem parseBigIndexEntry_safe (hbound : input.length ≤ bound) :
    Safe bound (parseBigIndexEntry input) := by
  refine Safe.bind (orEof_safe _) ?_
  rintro ⟨keyLen, r₁⟩ h₁
  refine Safe.bind (orEof_safe _) ?_
  rintro ⟨keyBytes, r₂⟩ h₂
  dsimp only
  rw [parseVuint_eq]
  refine Safe.bind (orEof_safe _) ?_
  rintro ⟨dataOffset, r₃⟩ h₃
  dsimp only
  rw [parseVuint_eq]
  refine Safe.bind (orEof_safe _) ?_
  rintro ⟨promotedLen, r₄⟩ h₄
  refine Safe.bind (orEof_safe _) ?_
  rintro ⟨promotedData, r₅⟩ h₅
  have hlen := beNumber_length (orEof_ok.1 h₁)
  obtain ⟨rfl, -⟩ := splitFront_eq_some.1 (orEof_ok.1 h₂)
  obtain ⟨offsetBytes, rfl, -⟩ := decodeUnsigned_suffix (orEof_ok.1 h₃)
  obtain ⟨sizeBytes, rfl, -⟩ := decodeUnsigned_suffix (orEof_ok.1 h₄)
  obtain ⟨rfl, -⟩ := splitFront_eq_some.1 (orEof_ok.1 h₅)
  simp only [List.length_append] at hlen
  refine Safe.bind (Safe.request (by dsimp only; omega)) fun _ _ => ?_
  exact Safe.bind (Safe.request (by omega)) fun _ _ => Safe.pure _

/-! ### All entries -/

def cancelPollInterval : Nat := 2 ^ 16

/-- The loop at entry `entryIndex`; `cancel` answers a poll. Pushing to a full vector asks for twice
    the elements, and for four at least. -/
def parseEntriesLoop (cancel : Nat → Bool) (entryIndex : Nat) (entries : List PartitionIndexEntry)
    (remaining : Bytes) : Run IndexError (Bytes × List PartitionIndexEntry) :=
  if remaining.isEmpty then pure (remaining, entries)
  else if entryIndex % cancelPollInterval = 0 ∧ cancel entryIndex then fail .cancelled
  else
    let parsed := parseBigIndexEntry remaining
    match h : parsed.outcome with
    | .ok (entry, rest) =>
      have := parseBigIndexEntry_progress h
      do
        ⟨.ok (), parsed.requests⟩
        request (max 4 (2 * entries.length))
        parseEntriesLoop cancel (entryIndex + 1) (entries ++ [entry]) rest
    | .error _ => ⟨.ok (remaining, entries), parsed.requests⟩
    | .fault => ⟨.fault, parsed.requests⟩
termination_by remaining.length

/-- `parse_all_partition_keys_cancellable`. -/
def parseAllPartitionKeysCancellable (input : Bytes) (cancel : Nat → Bool) :
    Run IndexError (Bytes × List PartitionIndexEntry) := do
  request (min (input.length / 24) 4000000)
  parseEntriesLoop cancel 0 [] input

theorem parseEntriesLoop_safe (cancel : Nat → Bool) (entryIndex : Nat)
    (entries : List PartitionIndexEntry) (remaining : Bytes)
    (hbound : 4 * entries.length + remaining.length ≤ bound) :
    Safe bound (parseEntriesLoop cancel entryIndex entries remaining) := by
  have hentry : Safe bound (parseBigIndexEntry remaining) := parseBigIndexEntry_safe (by omega)
  rw [parseEntriesLoop]
  split
  · exact Safe.pure _
  split
  · exact Safe.fail _
  dsimp only
  split
  · rename_i entry rest hok
    have hprogress := parseBigIndexEntry_progress hok
    obtain ⟨bytes, rfl, hbytes⟩ := parseBigIndexEntry_ok hok
    have := hbytes.length
    rw [List.length_append] at hbound
    refine Safe.bind ⟨nofun, hentry.within⟩ fun _ _ => Safe.bind (Safe.request (by omega)) fun _ _ => ?_
    exact parseEntriesLoop_safe cancel _ _ _ (by rw [List.length_append, List.length_singleton]; omega)
  · exact ⟨nofun, hentry.within⟩
  · rename_i hfault
    exact absurd hfault hentry.sound
termination_by remaining.length

/-- The entries of a prefix, and a remainder that starts none. -/
structure WholeEntries (input : Bytes) (entries : List PartitionIndexEntry) (rest : Bytes) : Prop where
  split : ∃ parts : List Bytes, input = parts.flatten ++ rest ∧ List.Forall₂ EntryBytes parts entries
  stuck : rest = [] ∨ ∀ p, (parseBigIndexEntry rest).outcome ≠ .ok p

/-- The loop takes whole entries only. -/
theorem parseEntriesLoop_whole (cancel : Nat → Bool) (entryIndex : Nat)
    (before entries : List PartitionIndexEntry) (remaining rest : Bytes)
    (h : (parseEntriesLoop cancel entryIndex before remaining).outcome = .ok (rest, entries)) :
    ∃ more, entries = before ++ more ∧ WholeEntries remaining more rest := by
  rw [parseEntriesLoop] at h
  split at h
  · rename_i hempty
    obtain ⟨rfl, rfl⟩ := Prod.mk.inj (Outcome.ok.inj h)
    exact ⟨[], (List.append_nil _).symm, ⟨[], rfl, .nil⟩, Or.inl (List.isEmpty_iff.1 hempty)⟩
  split at h
  · cases h
  dsimp only at h
  split at h
  · rename_i entry rest' hok
    obtain ⟨_, -, h⟩ := outcome_bind_ok.1 h
    obtain ⟨_, -, h⟩ := outcome_bind_ok.1 h
    have hprogress := parseBigIndexEntry_progress hok
    obtain ⟨bytes, rfl, hbytes⟩ := parseBigIndexEntry_ok hok
    obtain ⟨more, rfl, ⟨parts, rfl, hparts⟩, hstuck⟩ := parseEntriesLoop_whole cancel _ _ _ _ _ h
    refine ⟨entry :: more, by simp, ⟨bytes :: parts, ?_, .cons hbytes hparts⟩, hstuck⟩
    rw [List.flatten_cons, List.append_assoc]
  · rename_i herror
    obtain ⟨rfl, rfl⟩ := Prod.mk.inj (Outcome.ok.inj h)
    refine ⟨[], (List.append_nil _).symm, ⟨[], rfl, .nil⟩, Or.inr fun p hp => ?_⟩
    rw [herror] at hp
    cases hp
  · cases h
termination_by remaining.length

/-! ### The filter -/

def maxHashCount : Int := 1024

structure BloomFilter where
  bits : List Nat
  hashCount : Nat
  bitCount : Nat
  deriving DecidableEq

/-- `i32::from_be_bytes` of the four bytes from `offset`. -/
def readI32 (data : Bytes) (offset : Nat) : Run IndexError Int := do
  let bytes ← (List.range 4).mapM fun k => index data (offset + k)
  return intOfBytes bytes

/-- `u64::from_le_bytes` of the eight bytes from `offset`. -/
def readWord (data : Bytes) (offset : Nat) : Run IndexError Nat := do
  let word ← (List.range 8).mapM fun k => index data (offset + k)
  return fromLeBytes word

/-- The words behind the header. -/
def readBits (data : Bytes) (hashCount numLongs : Nat) : Run IndexError BloomFilter := do
  let expectedSize ← add 8 (numLongs * 8)
  if data.length ≠ expectedSize then
    fail (.serialization "Invalid bloom filter data: incorrect size")
  else
    request numLongs
    let bits ← (List.range numLongs).mapM fun i => readWord data (8 + i * 8)
    return { bits, hashCount, bitCount := numLongs * 64 }

/-- `deserialize`. -/
def BloomFilter.deserialize (data : Bytes) : Run IndexError BloomFilter :=
  if data.length < 8 then fail (.serialization "Invalid bloom filter data: too short")
  else do
    let hashCount ← readI32 data 0
    let numLongs ← readI32 data 4
    if hashCount ≤ 0 then
      fail (.corruption ("Invalid bloom filter header: hash_count is " ++ toString hashCount ++
        " (must be > 0; unsupported/malformed/corrupt filter metadata)"))
    else if hashCount > maxHashCount then
      fail (.corruption ("Invalid bloom filter header: hash_count " ++ toString hashCount ++
        " exceeds the maximum supported (" ++ toString maxHashCount ++
        "); malformed/corrupt filter metadata"))
    else if numLongs ≤ 0 then
      fail (.corruption ("Invalid bloom filter header: num_longs is " ++ toString numLongs ++
        " (must be > 0; malformed/corrupt filter, zero or negative bits)"))
    else readBits data hashCount.toNat numLongs.toNat

theorem readI32_safe {offset : Nat} (h : offset + 4 ≤ data.length) :
    Safe bound (readI32 data offset) := by
  refine Safe.bind (Safe.mapM fun k hk => Safe.index ?_) fun _ _ => Safe.pure _
  have := List.mem_range.1 hk
  omega

/-- A count of four bytes is too small to leave the range of the machine's integers. -/
theorem readI32_lt {offset : Nat} {n : Int} (h : (readI32 data offset).outcome = .ok n) :
    n < 2 ^ 31 := by
  obtain ⟨bytes, hbytes, h⟩ := outcome_bind_ok.1 h
  obtain rfl := Outcome.ok.inj h
  have hlen : bytes.length = 4 := (outcome_mapM_ok.1 hbytes).length_eq.symm
  have hlt := fromBe_lt bytes
  rw [hlen] at hlt
  rw [intOfBytes, hlen]
  split <;> omega

theorem readBits_safe {numLongs : Nat} (hsmall : numLongs < 2 ^ 31) (hashCount : Nat) :
    Safe data.length (readBits data hashCount numLongs) := by
  have hadd : Safe data.length (add 8 (numLongs * 8) : Run IndexError Nat) := by
    rw [add, if_pos (by omega)]
    exact Safe.pure _
  refine Safe.bind hadd fun expectedSize hsize => ?_
  obtain ⟨-, rfl⟩ := outcome_add_ok.1 hsize
  split
  · exact Safe.fail _
  rename_i hlen
  refine Safe.bind (Safe.request (by omega)) fun _ _ => Safe.bind (Safe.mapM fun i hi => ?_) fun _ _ =>
    Safe.pure _
  have hi := List.mem_range.1 hi
  refine Safe.bind (Safe.mapM fun k hk => Safe.index ?_) fun _ _ => Safe.pure _
  have := List.mem_range.1 hk
  omega

theorem BloomFilter.deserialize_safe (data : Bytes) :
    Safe data.length (BloomFilter.deserialize data) := by
  rw [BloomFilter.deserialize]
  split
  · exact Safe.fail _
  refine Safe.bind (readI32_safe (by omega)) fun hashCount _ => ?_
  refine Safe.bind (readI32_safe (by omega)) fun numLongs hlongs => ?_
  have := readI32_lt hlongs
  split
  · exact Safe.fail _
  split
  · exact Safe.fail _
  split
  · exact Safe.fail _
  · exact readBits_safe (by omega) _

/-! ### The three parsers -/

/-- No parser of an index component faults or asks for more than the input is long, and what the
    index parser leaves is what starts no entry. -/
structure IndexParsersSound (bytes : Bytes) : Prop where
  summary : Safe bytes.length (parseSummaryData bytes)
  keys : ∀ cancel, Safe bytes.length (parseAllPartitionKeysCancellable bytes cancel)
  bloom : Safe bytes.length (BloomFilter.deserialize bytes)
  consumed : ∀ cancel rest entries,
    (parseAllPartitionKeysCancellable bytes cancel).outcome = .ok (rest, entries) →
      WholeEntries bytes entries rest

theorem parseAllPartitionKeys_safe (input : Bytes) (cancel : Nat → Bool) :
    Safe input.length (parseAllPartitionKeysCancellable input cancel) :=
  Safe.bind (Safe.request (by omega)) fun _ _ => parseEntriesLoop_safe cancel 0 [] input (by simp)

theorem parseAllPartitionKeys_whole {cancel : Nat → Bool} {entries : List PartitionIndexEntry}
    (h : (parseAllPartitionKeysCancellable input cancel).outcome = .ok (rest, entries)) :
    WholeEntries input entries rest := by
  obtain ⟨_, -, h⟩ := outcome_bind_ok.1 h
  obtain ⟨more, rfl, hwhole⟩ := parseEntriesLoop_whole cancel 0 [] entries input rest h
  exact hwhole

/-- The parsers are sound on exactly the bytes whose summary header gives room to its table. -/
theorem indexParsersSound_iff (bytes : Bytes) :
    IndexParsersSound bytes ↔ ¬ SummaryUnderflows bytes :=
  ⟨fun h => parseSummaryData_safe_iff.1 h.summary, fun h =>
    ⟨parseSummaryData_safe_iff.2 h, parseAllPartitionKeys_safe bytes,
      BloomFilter.deserialize_safe bytes, fun _ _ _ => parseAllPartitionKeys_whole⟩⟩

/-- The header of one entry and no bytes for it, and the table of that entry. -/
theorem zeroSized_summary_unsound :
    ¬ IndexParsersSound ([0, 0, 0, 128] ++ [0, 0, 0, 1] ++ [0, 0, 0, 0, 0, 0, 0, 0] ++
      [0, 0, 0, 128] ++ [0, 0, 0, 1] ++ [0, 0, 0, 0]) :=
  fun h => h.summary.sound (by decide)

end Cqlite
