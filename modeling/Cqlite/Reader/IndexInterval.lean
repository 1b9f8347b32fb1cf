import Cqlite.Writer.PartitionIndex

/-! Finding a partition through the summary (`summary_reader/interval.rs`): the search for the
    interval of a key, and the scan of the bytes of the index in it. -/

namespace Cqlite

open VInt BinarySearch SparseIndex

/-! ### The order of the search -/

def cmpPartitionKeysByToken (a b : Bytes) : Ordering :=
  (compare (cassandraMurmur3Token a) (cassandraMurmur3Token b)).then (compare a b)

/-- On keys that are not empty the search and the writer have one order. -/
theorem cmp_fromKeyBytes {a b : Bytes} (ha : a ≠ []) (hb : b ≠ []) :
    DecoratedKey.cmp (.fromKeyBytes a) (.fromKeyBytes b) = cmpPartitionKeysByToken a b := by
  have htoken : ∀ k : Bytes, k ≠ [] → DecoratedKey.fromKeyBytes k = ⟨cassandraMurmur3Token k, k⟩ :=
    fun k hk => by
      rw [DecoratedKey.fromKeyBytes, calculateMurmur3Token, if_neg (mt List.isEmpty_iff.1 hk)]
  rw [htoken a ha, htoken b hb, DecoratedKey.cmp, cmpPartitionKeysByToken]

theorem transCmp_token_bytes (token : Bytes → Int) :
    Std.TransCmp fun a b => (compare (token a) (token b)).then (compare a b) :=
  inferInstanceAs (Std.TransCmp (compareLex (compareOn token) compare))

theorem cmpPartitionKeysByToken_transCmp : Std.TransCmp cmpPartitionKeysByToken :=
  transCmp_token_bytes cassandraMurmur3Token

/-! ### Intervals -/

structure SummaryInterval where
  startPosition : Nat
  endPosition : Option Nat
  sampleIndex : Nat
  deriving DecidableEq

def findIntervalForKey (entries : List SummaryEntry) (key : Bytes) : Option SummaryInterval :=
  if entries.isEmpty then none
  else
    let leCount := partitionPoint (fun e => cmpPartitionKeysByToken e.partitionKey key != .gt) entries
    let floor := leCount - 1
    entries[floor]?.map fun e => ⟨e.position, entries[floor + 1]?.map (·.position), floor⟩

structure IntervalLookup where
  entry : Option PartitionIndexEntry
  entriesTouched : Nat
  deriving DecidableEq

def lastIntervalEntryCap (minIndexInterval samplingLevel : Nat) : Nat :=
  let effectiveSamplingLevel := max 1 (min samplingLevel baseSamplingLevel)
  let effectiveInterval := min (minIndexInterval * baseSamplingLevel) usizeMax / effectiveSamplingLevel
  min (effectiveInterval + 1) usizeMax

/-- The loop of `scan_interval_bytes`. -/
def scanIntervalLoop (key : Bytes) (entryCap entriesTouched : Nat) (remaining : Bytes) :
    IntervalLookup :=
  if remaining.isEmpty ∨ entryCap ≤ entriesTouched then ⟨none, entriesTouched⟩
  else
    match (parseBigIndexEntry remaining).outcome with
    | .ok (entry, rest) =>
      if rest.length ≥ remaining.length then ⟨none, entriesTouched⟩
      else if entry.rawKey = key then ⟨some entry, entriesTouched + 1⟩
      else scanIntervalLoop key entryCap (entriesTouched + 1) rest
    | _ => ⟨none, entriesTouched⟩
termination_by remaining.length
decreasing_by omega

def scanIntervalBytes (bytes key : Bytes) (entryCap : Nat) : IntervalLookup :=
  scanIntervalLoop key entryCap 0 bytes

/-- `lookup_key_in_interval`, on the bytes of the file. -/
def lookupKeyInInterval (index : Bytes) (interval : SummaryInterval) (key : Bytes)
    (minIndexInterval samplingLevel : Nat) : Except IndexError IntervalLookup :=
  match interval.endPosition with
  | some stop =>
    if stop ≤ interval.startPosition then
      .error (.corruption ("lookup_key_in_interval: interval end_position " ++ toString stop ++
        " does not exceed start_position " ++ toString interval.startPosition ++
        " — non-monotone Summary.db sample ordering (corrupt input)"))
    else if stop > index.length then
      .error (.corruption ("lookup_key_in_interval: interval end_position " ++ toString stop ++
        " exceeds Index.db file length " ++ toString index.length ++
        " (corrupt Summary.db sample position)"))
    else .ok (scanIntervalBytes ((index.take stop).drop interval.startPosition) key usizeMax)
  | none =>
    .ok (scanIntervalBytes (index.drop interval.startPosition) key
      (lastIntervalEntryCap minIndexInterval samplingLevel))

/-- The entry of a key, by the summary and the index. -/
def findEntry (summary : SummaryData) (index key : Bytes) :
    Except IndexError (Option PartitionIndexEntry) :=
  match findIntervalForKey summary.entries key with
  | none => .ok none
  | some interval =>
    (lookupKeyInInterval index interval key summary.header.minIndexInterval
      summary.header.samplingLevel).map (·.entry)

/-! ### Entries that are written -/

/-- What is read of a partition. -/
def IndexedPartition.entry (p : IndexedPartition) : PartitionIndexEntry where
  rawKey := p.key.key
  dataOffset := p.dataOffset
  promotedIndex :=
    if 2 ≤ p.blocks.length then some (serializePromotedIndex p.blocks p.key.key.length) else none

/-- The sizes the format has room for. -/
structure IndexedPartition.Fits (p : IndexedPartition) : Prop where
  keyLength : p.key.key.length < 2 ^ 16
  dataOffset : p.dataOffset < 2 ^ 64
  size : p.entryBytes.length < 2 ^ 64

theorem serializePromotedIndex_ne_nil (blocks : List PromotedIndexBlock) (rawKeyLen : Nat) :
    serializePromotedIndex blocks rawKeyLen ≠ [] := by
  simp [serializePromotedIndex, nbDeletionTimeLive, beBytes]

theorem entry_eq (p : IndexedPartition) :
    p.entry = ⟨p.key.key, p.dataOffset,
      if (promotedPayload p.blocks p.key.key.length).length > 0 then
        some (promotedPayload p.blocks p.key.key.length) else none⟩ := by
  rw [IndexedPartition.entry, promotedPayload]
  split
  · rw [if_pos (List.length_pos_iff.2 (serializePromotedIndex_ne_nil _ _))]
  · rfl

theorem entryBytes_eq (p : IndexedPartition) :
    p.entryBytes = beBytes 2 p.key.key.length ++ (p.key.key ++
      (Serialization.encodeUnsigned p.dataOffset ++
        (Serialization.encodeUnsigned (promotedPayload p.blocks p.key.key.length).length ++
          promotedPayload p.blocks p.key.key.length))) := by
  rw [IndexedPartition.entryBytes, writeEntry, promotedPayload]
  split
  · simp only [List.append_assoc]
  · simp only [List.append_assoc, List.append_nil, List.length_nil]

theorem IndexedPartition.Fits.entryBytes {p : IndexedPartition} (h : p.Fits) : EntryBytes p.entryBytes p.entry := by
  have hsize := h.size
  rw [entryBytes_eq] at hsize
  simp only [List.length_append] at hsize
  have hdecode : ∀ {n : Nat}, n < 2 ^ 64 → ∀ more,
      decodeUnsigned (Serialization.encodeUnsigned n ++ more) = some (n, more) := fun hn more => by
    rw [serialization_encodeUnsigned_eq hn, decodeUnsigned_encodeUnsigned hn]
  rw [entry_eq, entryBytes_eq]
  refine entryBytes_parts (length_beBytes _ _) ?_ (hdecode h.dataOffset) (hdecode (by omega))
  rw [fromBe_beBytes, Nat.mod_eq_of_lt (show _ < 256 ^ 2 from h.keyLength)]

/-! ### Scans -/

/-- The scan of an interval finds the first entry of the key. -/
theorem scanIntervalLoop_entries {key : Bytes} {cap : Nat} (ps : List IndexedPartition)
    (hfits : ∀ p ∈ ps, p.Fits) (touched : Nat) (hcap : touched + ps.length ≤ cap) :
    (scanIntervalLoop key cap touched (indexBytes ps)).entry =
      (ps.find? (·.key.key = key)).map IndexedPartition.entry := by
  induction ps generalizing touched with
  | nil =>
    have hempty : (indexBytes []).isEmpty := rfl
    rw [scanIntervalLoop, if_pos (Or.inl hempty)]
    rfl
  | cons p ps ih =>
    have hbytes := (hfits p List.mem_cons_self).entryBytes
    have hlen := hbytes.length
    rw [List.length_cons] at hcap
    have hne : ¬ ((p.entryBytes ++ indexBytes ps).isEmpty ∨ cap ≤ touched) := by
      rintro (hempty | hle)
      · have := congrArg List.length (List.isEmpty_iff.1 hempty)
        rw [List.length_append, List.length_nil] at this
        omega
      · omega
    rw [indexBytes, List.flatMap_cons, ← indexBytes, scanIntervalLoop, if_neg hne,
      hbytes.parses (indexBytes ps)]
    dsimp only
    rw [if_neg (by rw [List.length_append]; omega)]
    have hraw : p.entry.rawKey = p.key.key := rfl
    by_cases hkey : p.key.key = key
    · rw [if_pos (hraw.trans hkey), List.find?_cons_of_pos (by simpa using hkey)]
      rfl
    · rw [if_neg (mt hraw.symm.trans hkey), List.find?_cons_of_neg (by simpa using hkey)]
      exact ih (fun q hq => hfits q (List.mem_cons_of_mem _ hq)) _ (by omega)

theorem length_le_indexBytes {ps : List IndexedPartition} (hfits : ∀ p ∈ ps, p.Fits) :
    ps.length ≤ (indexBytes ps).length := by
  induction ps with
  | nil => exact Nat.zero_le _
  | cons p ps ih =>
    have hlen := (hfits p List.mem_cons_self).entryBytes.length
    have := ih fun q hq => hfits q (List.mem_cons_of_mem _ hq)
    rw [indexBytes, List.flatMap_cons, ← indexBytes, List.length_append, List.length_cons]
    omega

theorem indexBytes_append (ps qs : List IndexedPartition) :
    indexBytes (ps ++ qs) = indexBytes ps ++ indexBytes qs := List.flatMap_append

theorem drop_indexBytes (ps : List IndexedPartition) (k : Nat) :
    (indexBytes ps).drop (indexBytes (ps.take k)).length = indexBytes (ps.drop k) := by
  conv_lhs => arg 2; rw [← List.take_append_drop k ps]
  rw [indexBytes_append, List.drop_left]

theorem take_indexBytes (ps : List IndexedPartition) (k : Nat) :
    (indexBytes ps).take (indexBytes (ps.take k)).length = indexBytes (ps.take k) := by
  conv_lhs => arg 2; rw [← List.take_append_drop k ps]
  rw [indexBytes_append, List.take_left]

end Cqlite
