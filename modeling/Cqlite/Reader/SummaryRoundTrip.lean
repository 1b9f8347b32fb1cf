import Cqlite.Writer.PartitionIndex

/-! Reading back a summary: what `finish` writes parses to the entries it was given as long as their
    offsets fit into 32 bits. -/

namespace Cqlite

open VInt Checked SparseIndex

/-! ### What is written -/

def dataBytes (es : List SummaryEntry) : Bytes := es.flatMap SummaryEntry.bytes

/-- Where each entry begins among the entries. -/
def starts (es : List SummaryEntry) : List Nat :=
  es.mapIdx fun i _ => (dataBytes (es.take i)).length

/-- The offset table, counted from its own start and cut to 32 bits. -/
def entryOffsets (offsetTableSize : Nat) (es : List SummaryEntry) : List Nat :=
  (starts es).map fun start => (offsetTableSize + start) % 2 ^ 32

theorem dataBytes_append (es more : List SummaryEntry) :
    dataBytes (es ++ more) = dataBytes es ++ dataBytes more := List.flatMap_append

theorem length_starts (es : List SummaryEntry) : (starts es).length = es.length :=
  List.length_mapIdx

theorem starts_concat (es : List SummaryEntry) (e : SummaryEntry) :
    starts (es ++ [e]) = starts es ++ [(dataBytes es).length] :=
  mapIdx_take_concat (fun before _ => (dataBytes before).length) es e

theorem foldl_pushSummaryEntry (offsetTableSize : Nat) (es : List SummaryEntry) :
    es.foldl (pushSummaryEntry offsetTableSize) ([], []) =
      (entryOffsets offsetTableSize es, dataBytes es) := by
  induction es using List.reverseRecOn with
  | nil => rfl
  | append_singleton es e ih =>
    have hoffsets : entryOffsets offsetTableSize (es ++ [e]) = entryOffsets offsetTableSize es ++
        [(offsetTableSize + (dataBytes es).length) % 2 ^ 32] := by
      rw [entryOffsets, starts_concat, List.map_append]
      rfl
    rw [List.foldl_append, ih, hoffsets, dataBytes_append]
    simp [pushSummaryEntry, dataBytes]

theorem finish_eq {w : SummaryWriter} (hne : w.entries ≠ []) :
    w.finish = w.writeHeader w.entries.length
        (w.entries.length * 4 + (dataBytes w.entries).length) ++
      ((entryOffsets (w.entries.length * 4) w.entries).flatMap leBytes ++ (dataBytes w.entries ++
        (serializedKey w.firstKey ++ serializedKey w.lastKey))) := by
  rw [SummaryWriter.finish, if_neg (mt List.isEmpty_iff.1 hne)]
  simp only [foldl_pushSummaryEntry, List.append_assoc]

/-! ### Parts -/

theorem beNumber_beBytes (k n : Nat) (rest : Bytes) :
    beNumber k (beBytes k n ++ rest) = some (n % 256 ^ k, rest) := by
  rw [beNumber, splitFront_append (length_beBytes k n), Option.map_some, fromBe_beBytes]

theorem parseSummaryHeader_writeHeader (w : SummaryWriter) (count size : Nat) (rest : Bytes) :
    parseSummaryHeader (w.writeHeader count size ++ rest) =
      some (⟨w.minIndexInterval % 2 ^ 32, count % 2 ^ 32, size % 2 ^ 64, baseSamplingLevel,
        count % 2 ^ 32⟩, rest) := by
  simp only [parseSummaryHeader, SummaryWriter.writeHeader, List.append_assoc, beNumber_beBytes,
    Option.bind_eq_bind, Option.bind_some]
  rfl

theorem countLeU32_flatMap (numbers : List Nat) (h : ∀ n ∈ numbers, n < 2 ^ 32) (rest : Bytes) :
    countLeU32 numbers.length (numbers.flatMap leBytes ++ rest) = some (numbers, rest) := by
  induction numbers with
  | nil => rfl
  | cons n numbers ih =>
    have ih := ih fun m hm => h m (List.mem_cons_of_mem _ hm)
    have hsplit := splitFront_append (length_leBytes n) (numbers.flatMap leBytes ++ rest)
    rw [List.flatMap_cons, List.append_assoc, List.length_cons]
    simp only [countLeU32, hsplit, ih, Option.bind_eq_bind, Option.bind_some,
      fromLeBytes_leBytes (h n List.mem_cons_self)]
    rfl

theorem parseSerializedKey_some {key : Bytes} (h : key.length < 2 ^ 32) (rest : Bytes) :
    parseSerializedKey (serializedKey (some key) ++ rest) = some (key, rest) := by
  have hkey : serializedKey (some key) = beBytes 4 key.length ++ key := rfl
  rw [hkey, List.append_assoc, parseSerializedKey, beNumber_beBytes]
  exact (congrArg (splitFront · (key ++ rest)) (Nat.mod_eq_of_lt h)).trans (splitFront_append rfl rest)

theorem fromLeBytes_leBytes64 {n : Nat} (h : n < 2 ^ 64) : fromLeBytes (leBytes64 n) = n := by
  have hfold : ∀ bytes : Bytes, fromLeBytes bytes.reverse = fromBe bytes := fun bytes => by
    rw [fromLeBytes, List.foldr_reverse, fromBe]
    congr 1
    funext acc b
    omega
  rw [leBytes64, hfold, fromBe_beBytes, Nat.mod_eq_of_lt (show n < 256 ^ 8 from h)]

theorem length_bytes (e : SummaryEntry) : e.bytes.length = e.partitionKey.length + 8 := by
  rw [SummaryEntry.bytes, List.length_append, leBytes64, List.length_reverse, length_beBytes]

variable {e : SummaryEntry} {i offsetTableSize summaryEntriesSize : Nat} {entryData : Bytes}
  {data : SummaryData}

/-- An entry reads back. -/
theorem parseEntry_written (hposition : e.position < 2 ^ 64) (pre post : Bytes) (i : Nat) :
    (parseEntry (pre ++ (e.bytes ++ post)) i pre.length
      (pre.length + e.bytes.length)).outcome = .ok e := by
  have hlen := length_bytes e
  have hkey : e.bytes.length - 8 = e.partitionKey.length := by omega
  have hword : (leBytes64 e.position).length = 8 := by
    rw [leBytes64, List.length_reverse, length_beBytes]
  have hdata : ((pre ++ (e.bytes ++ post)).take (pre.length + e.bytes.length)).drop pre.length =
      e.bytes := by
    rw [← List.append_assoc, List.take_left' (by rw [List.length_append]), List.drop_left]
  rw [parseEntry, if_neg (by omega), if_neg (by simp only [List.length_append]; omega)]
  refine outcome_bind_ok.2 ⟨e.bytes, outcome_slice_ok.2 ⟨?_, hdata⟩, ?_⟩
  · simp only [List.length_append]
    omega
  rw [if_neg (by omega)]
  refine outcome_bind_ok.2 ⟨e.partitionKey.length, outcome_sub_ok.2 ⟨by omega, hkey⟩, ?_⟩
  refine outcome_bind_ok.2 ⟨e.partitionKey, outcome_slice_ok.2 ⟨by omega, ?_⟩, ?_⟩
  · rw [SummaryEntry.bytes, List.take_left, List.drop_zero]
  refine outcome_bind_ok.2 ⟨(), rfl, ?_⟩
  refine outcome_bind_ok.2 ⟨leBytes64 e.position, outcome_slice_ok.2 ⟨by omega, ?_⟩, ?_⟩
  · rw [List.take_length, SummaryEntry.bytes, List.drop_left]
  refine outcome_bind_ok.2 ⟨leBytes64 e.position, ?_, ?_⟩
  · rw [← hword]
    exact outcome_mapM_index _
  · rw [fromLeBytes_leBytes64 hposition]
    rfl

/-! ### The entries -/

section Entries

variable {es : List SummaryEntry}

theorem getElem?_starts (es : List SummaryEntry) (i : Nat) :
    (starts es)[i]? = es[i]?.map fun _ => (dataBytes (es.take i)).length :=
  List.getElem?_mapIdx

theorem dataBytes_take_succ (hi : i < es.length) :
    dataBytes (es.take (i + 1)) = dataBytes (es.take i) ++ es[i].bytes := by
  rw [← List.take_concat_get' es i hi, dataBytes_append]
  simp [dataBytes]

theorem dataBytes_split (hi : i < es.length) :
    dataBytes es = dataBytes (es.take i) ++ (es[i].bytes ++ dataBytes (es.drop (i + 1))) := by
  conv_lhs => rw [← List.take_append_drop (i + 1) es]
  rw [dataBytes_append, dataBytes_take_succ hi, List.append_assoc]

theorem length_dataBytes_take (es : List SummaryEntry) {j : Nat} (h : i ≤ j) :
    (dataBytes (es.take i)).length ≤ (dataBytes (es.take j)).length := by
  obtain ⟨k, rfl⟩ := Nat.exists_eq_add_of_le h
  rw [List.take_add, dataBytes_append, List.length_append]
  omega

/-- The offset of the last entry, and with it every offset, fits into 32 bits. -/
def OffsetsFit (es : List SummaryEntry) : Prop :=
  es.length * 4 + (dataBytes es.dropLast).length < 2 ^ 32

theorem start_le {start : Nat} (h : start ∈ starts es) :
    start ≤ (dataBytes es.dropLast).length ∧ start < (dataBytes es).length := by
  obtain ⟨i, hi, rfl⟩ := List.mem_mapIdx.1 h
  have hlast := length_dataBytes_take es (show i ≤ es.length - 1 by omega)
  have hsplit := congrArg List.length (dataBytes_split hi)
  have hlen := length_bytes es[i]
  rw [← List.dropLast_eq_take] at hlast
  simp only [List.length_append] at hsplit
  exact ⟨hlast, by omega⟩

/-- Offsets that fit are counted back to the start of the entries. -/
theorem normalizeEntryOffsets_written (hne : es ≠ []) (hfit : OffsetsFit es) :
    (normalizeEntryOffsets (entryOffsets (es.length * 4) es) (dataBytes es).length (es.length * 4)
      (es.length * 4 + (dataBytes es).length)).outcome = .ok (starts es) := by
  have hpos : 0 < es.length := List.length_pos_iff.2 hne
  have hoffsets : entryOffsets (es.length * 4) es = (starts es).map (es.length * 4 + ·) :=
    List.map_congr_left fun start hstart => Nat.mod_eq_of_lt (by
      have := (start_le hstart).1
      rw [OffsetsFit] at hfit
      omega)
  have hlen : (entryOffsets (es.length * 4) es).length = es.length := by
    rw [entryOffsets, List.length_map, length_starts]
  have hge : ∀ o ∈ entryOffsets (es.length * 4) es,
      es.length * 4 ≤ o ∧ o < es.length * 4 + (dataBytes es).length := fun o ho => by
    rw [hoffsets] at ho
    obtain ⟨start, hstart, rfl⟩ := List.mem_map.1 ho
    have := (start_le hstart).2
    omega
  have hfirst := List.getElem?_eq_getElem (l := entryOffsets (es.length * 4) es) (hlen.symm ▸ hpos)
  have hzero := (hge _ (List.mem_of_getElem? hfirst)).1
  rw [normalizeEntryOffsets, if_neg (by
    rw [List.isEmpty_iff, ← List.length_eq_zero_iff, hlen]
    omega)]
  refine outcome_bind_ok.2 ⟨(), rfl, outcome_bind_ok.2 ⟨_, outcome_index_ok.2 hfirst, ?_⟩⟩
  rw [if_neg (by omega), if_pos (List.all_eq_true.2 fun o ho => decide_eq_true (hge o ho))]
  refine outcome_bind_ok.2 ⟨(), rfl, outcome_mapM_ok.2 ?_⟩
  rw [hoffsets, List.forall₂_map_left_iff, List.forall₂_same]
  exact fun start _ => outcome_sub_ok.2 ⟨by omega, by omega⟩

/-- The entries read back. -/
theorem parseEntriesFromOffsets_written (hne : es ≠ []) (hfit : OffsetsFit es)
    (hposition : ∀ e ∈ es, e.position < 2 ^ 64) :
    (parseEntriesFromOffsets (dataBytes es) (entryOffsets (es.length * 4) es) (es.length * 4)
      (es.length * 4 + (dataBytes es).length)).outcome = .ok es := by
  refine outcome_bind_ok.2 ⟨_, normalizeEntryOffsets_written hne hfit, ?_⟩
  refine outcome_bind_ok.2 ⟨(), rfl, outcome_mapM_ok.2 ?_⟩
  rw [length_starts]
  refine List.forall₂_iff_get.2 ⟨List.length_range, fun i _ hi => ?_⟩
  rw [List.get_eq_getElem, List.get_eq_getElem, List.getElem_range]
  have hnext := congrArg List.length (dataBytes_take_succ hi)
  rw [List.length_append] at hnext
  have hstart : (starts es)[i]? = some (dataBytes (es.take i)).length := by
    rw [getElem?_starts, List.getElem?_eq_getElem hi, Option.map_some]
  have hstop : (entryEnd (starts es) (dataBytes es).length i).outcome =
      .ok ((dataBytes (es.take i)).length + es[i].bytes.length) := by
    rw [entryEnd, length_starts, ← hnext]
    split
    · rename_i hlt
      rw [outcome_index_ok, getElem?_starts, List.getElem?_eq_getElem hlt, Option.map_some]
    · rw [List.take_of_length_le (by omega)]
      rfl
  refine outcome_bind_ok.2 ⟨_, outcome_index_ok.2 hstart, outcome_bind_ok.2 ⟨_, hstop, ?_⟩⟩
  rw [dataBytes_split hi]
  exact parseEntry_written (hposition _ (List.getElem_mem hi)) _ _ i

/-- What `finish` writes behind the header parses to the entries and the two keys. -/
theorem parseSummaryBody_written (header : SummaryHeader) {firstKey lastKey : Bytes}
    (hne : es ≠ []) (hfit : OffsetsFit es) (hposition : ∀ e ∈ es, e.position < 2 ^ 64)
    (hcount : header.entriesCount = es.length)
    (hsize : header.summaryEntriesSize = es.length * 4 + (dataBytes es).length)
    (hfirst : firstKey.length < 2 ^ 32) (hlast : lastKey.length < 2 ^ 32) :
    (parseSummaryBody header ((entryOffsets (es.length * 4) es).flatMap leBytes ++ (dataBytes es ++
      (serializedKey (some firstKey) ++ serializedKey (some lastKey))))).outcome =
        .ok ⟨header, es, firstKey, lastKey⟩ := by
  have hoffsets := countLeU32_flatMap (entryOffsets (es.length * 4) es) (fun o ho => by
      obtain ⟨start, -, rfl⟩ := List.mem_map.1 ho
      exact Nat.mod_lt _ (by decide)) (dataBytes es ++
        (serializedKey (some firstKey) ++ serializedKey (some lastKey)))
  have hlen : (entryOffsets (es.length * 4) es).length = es.length := by
    rw [entryOffsets, List.length_map, length_starts]
  rw [hlen] at hoffsets
  have htotal := (countLeU32_length hoffsets).2
  rw [parseSummaryBody, hcount, hsize, hoffsets]
  dsimp only
  rw [if_neg (by omega)]
  refine outcome_bind_ok.2 ⟨(), rfl, outcome_bind_ok.2 ⟨_, rfl, ?_⟩⟩
  refine outcome_bind_ok.2 ⟨_, outcome_sub_ok.2 ⟨Nat.le_add_right _ _, Nat.add_sub_cancel_left ..⟩, ?_⟩
  dsimp only
  rw [if_neg (by rw [List.length_append]; omega)]
  refine outcome_bind_ok.2 ⟨dataBytes es, outcome_slice_ok.2 ⟨by simp, by simp⟩, ?_⟩
  refine outcome_bind_ok.2 ⟨serializedKey (some firstKey) ++ serializedKey (some lastKey),
    outcome_slice_ok.2 ⟨by simp, by rw [List.take_length, List.drop_left]⟩, ?_⟩
  refine outcome_bind_ok.2 ⟨es, parseEntriesFromOffsets_written hne hfit hposition, ?_⟩
  rw [parseSerializedKey_some hfirst]
  refine outcome_bind_ok.2 ⟨_, rfl, outcome_bind_ok.2 ⟨(), rfl, ?_⟩⟩
  have hrest := parseSerializedKey_some hlast []
  rw [List.append_nil] at hrest
  dsimp only
  rw [hrest]
  rfl

/-- Offsets that increase after they are cut were not cut: an entry is too short to come back to
    where it began. -/
theorem offsetsFit_of_increasing (hne : es ≠ []) (hkeys : ∀ e ∈ es, e.partitionKey.length ≤ 65535)
    (hcount : es.length * 4 < 2 ^ 32)
    (hinc : ∀ i a b, (entryOffsets (es.length * 4) es)[i]? = some a →
      (entryOffsets (es.length * 4) es)[i + 1]? = some b → a < b) : OffsetsFit es := by
  have hoffset : ∀ i, i < es.length → (entryOffsets (es.length * 4) es)[i]? =
      some ((es.length * 4 + (dataBytes (es.take i)).length) % 2 ^ 32) := fun i hi => by
    rw [entryOffsets, List.getElem?_map, getElem?_starts, List.getElem?_eq_getElem hi]
    rfl
  have hlt : ∀ i, i < es.length → es.length * 4 + (dataBytes (es.take i)).length < 2 ^ 32 := by
    intro i
    induction i with
    | zero => exact fun _ => hcount
    | succ i ih =>
      intro hi
      have hprev := ih (by omega)
      have hstep := hinc i _ _ (hoffset i (by omega)) (hoffset (i + 1) hi)
      have hnext := congrArg List.length (dataBytes_take_succ (show i < es.length by omega))
      have hkey := hkeys es[i] (List.getElem_mem _)
      rw [List.length_append, length_bytes] at hnext
      omega
  have hpos : 0 < es.length := List.length_pos_iff.2 hne
  rw [OffsetsFit, List.dropLast_eq_take]
  exact hlt _ (by omega)

theorem length_dataBytes (es : List SummaryEntry) :
    (dataBytes es).length = ((es.map (·.partitionKey)).map (·.length + 8)).sum := by
  rw [dataBytes, List.length_flatMap, List.map_map]
  exact congrArg List.sum (List.map_congr_left fun e _ => length_bytes e)

end Entries

/-! ### What parses -/

theorem parseEntry_ok {start stop : Nat} (h : (parseEntry entryData i start stop).outcome = .ok e) :
    start < stop := by
  rw [parseEntry] at h
  split at h
  · cases h
  · omega

variable {offsets : List Nat}

theorem normalizeEntryOffsets_ok {normal : List Nat} {entryDataSize : Nat}
    (h : (normalizeEntryOffsets offsets entryDataSize offsetTableSize summaryEntriesSize).outcome =
      .ok normal) : ∃ base, offsets = normal.map (base + ·) := by
  rw [normalizeEntryOffsets] at h
  split at h
  · rename_i hempty
    obtain rfl := Outcome.ok.inj h
    exact ⟨0, List.isEmpty_iff.1 hempty⟩
  obtain ⟨_, -, h⟩ := outcome_bind_ok.1 h
  obtain ⟨first, -, h⟩ := outcome_bind_ok.1 h
  split at h
  · obtain rfl := Outcome.ok.inj h
    exact ⟨0, by simp⟩
  split at h
  · obtain ⟨_, -, h⟩ := outcome_bind_ok.1 h
    refine ⟨offsetTableSize, List.forall₂_eq_eq_eq.symm ▸ List.forall₂_map_right_iff.2 ?_⟩
    refine (outcome_mapM_ok.1 h).imp fun o n hsub => ?_
    have := outcome_sub_ok.1 hsub
    omega
  · cases h

theorem parseEntriesFromOffsets_ok {entries : List SummaryEntry}
    (h : (parseEntriesFromOffsets entryData offsets offsetTableSize summaryEntriesSize).outcome =
      .ok entries) : entries.length = offsets.length ∧
        ∀ i a b, offsets[i]? = some a → offsets[i + 1]? = some b → a < b := by
  obtain ⟨normal, hnormal, hrun⟩ := outcome_bind_ok.1 h
  obtain ⟨_, -, hloop⟩ := outcome_bind_ok.1 hrun
  have hsteps := outcome_mapM_ok.1 hloop
  obtain ⟨base, rfl⟩ := normalizeEntryOffsets_ok hnormal
  have hlen := hsteps.length_eq
  rw [List.length_range] at hlen
  refine ⟨by rw [← hlen, List.length_map], fun i a b ha hb => ?_⟩
  rw [List.getElem?_map, Option.map_eq_some_iff] at ha hb
  obtain ⟨a, ha, rfl⟩ := ha
  obtain ⟨b, hb, rfl⟩ := hb
  have hi := (List.getElem?_eq_some_iff.1 ha).1
  have hnext := (List.getElem?_eq_some_iff.1 hb).1
  have hstep := (List.forall₂_iff_get.1 hsteps).2 i (by rwa [List.length_range]) (by omega)
  rw [List.get_eq_getElem, List.get_eq_getElem, List.getElem_range] at hstep
  obtain ⟨start, hstart, hstep⟩ := outcome_bind_ok.1 hstep
  obtain ⟨stop, hstop, hstep⟩ := outcome_bind_ok.1 hstep
  rw [entryEnd, if_pos hnext, outcome_index_ok, hb] at hstop
  rw [outcome_index_ok, ha] at hstart
  obtain rfl := Option.some.inj hstart
  obtain rfl := Option.some.inj hstop
  have := parseEntry_ok hstep
  omega

theorem parseSummaryData_of_body {input remaining : Bytes} {header : SummaryHeader}
    (hheader : parseSummaryHeader input = some (header, remaining))
    (hcount : header.entriesCount ≤ maxReasonableEntries)
    (hbody : (parseSummaryBody header remaining).outcome = .ok data) :
    (parseSummaryData input).outcome = .ok data := by
  have hlen := parseSummaryHeader_length hheader
  rw [parseSummaryData, if_neg (by omega), hheader]
  refine outcome_bind_ok.2 ⟨_, rfl, ?_⟩
  dsimp only
  rw [if_neg (Nat.not_lt.2 hcount)]
  exact hbody

/-- What a summary that parses has: a table of as many offsets as entries, which increase, and bytes
    for the two keys. -/
theorem parseSummaryData_ok {input : Bytes} (h : (parseSummaryData input).outcome = .ok data) :
    ∃ remaining offsets after, parseSummaryHeader input = some (data.header, remaining) ∧
      data.header.entriesCount ≤ maxReasonableEntries ∧
      countLeU32 data.header.entriesCount remaining = some (offsets, after) ∧ after ≠ [] ∧
      data.entries.length = offsets.length ∧
        ∀ i a b, offsets[i]? = some a → offsets[i + 1]? = some b → a < b := by
  rw [parseSummaryData] at h
  split at h
  · cases h
  obtain ⟨⟨header, remaining⟩, hheader, h⟩ := outcome_bind_ok.1 h
  dsimp only at h
  split at h
  · cases h
  rename_i hcount
  rw [parseSummaryBody] at h
  dsimp only at h
  split at h
  · cases h
  obtain ⟨_, -, h⟩ := outcome_bind_ok.1 h
  obtain ⟨⟨offsets, after⟩, hoffsets, h⟩ := outcome_bind_ok.1 h
  obtain ⟨entryDataSize, -, h⟩ := outcome_bind_ok.1 h
  dsimp only at h
  split at h
  · cases h
  obtain ⟨entryData, -, h⟩ := outcome_bind_ok.1 h
  obtain ⟨afterEntries, hafter, h⟩ := outcome_bind_ok.1 h
  obtain ⟨entries, hentries, h⟩ := outcome_bind_ok.1 h
  obtain ⟨⟨firstKey, afterFirst⟩, hfirst, h⟩ := outcome_bind_ok.1 h
  obtain ⟨_, -, h⟩ := outcome_bind_ok.1 h
  obtain ⟨⟨lastKey, rest⟩, -, h⟩ := outcome_bind_ok.1 h
  obtain ⟨_, -, h⟩ := outcome_bind_ok.1 h
  obtain rfl := Outcome.ok.inj h
  refine ⟨remaining, offsets, after, orCorrupt_ok hheader, Nat.not_lt.1 hcount,
    orCorrupt_ok hoffsets, ?_, parseEntriesFromOffsets_ok hentries⟩
  rintro rfl
  obtain ⟨-, rfl⟩ := outcome_slice_ok.1 hafter
  have := parseSerializedKey_length (orCorrupt_ok hfirst)
  rw [List.take_nil, List.drop_nil, List.length_nil] at this
  omega

end Cqlite
