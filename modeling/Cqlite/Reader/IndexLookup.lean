import Cqlite.Reader.IndexInterval
import Cqlite.Reader.SummaryRoundTrip

/-! Lookups through the summary: the partitions of an interval are a stretch of those written, and
    the interval of a key is the one whose stretch has it. -/

namespace Cqlite

open VInt Checked BinarySearch SparseIndex

/-- The partitions in the order of the search. -/
def TokenSorted (ps : List IndexedPartition) : Prop :=
  ps.Pairwise fun a b => cmpPartitionKeysByToken a.key.key b.key.key = .lt

/-- A place whose key is not behind the one sought. -/
def notBehind (key : Bytes) (e : SummaryEntry) : Bool :=
  cmpPartitionKeysByToken e.partitionKey key != .gt

theorem notBehind_iff {key : Bytes} {e : SummaryEntry} :
    notBehind key e = true ↔ cmpPartitionKeysByToken e.partitionKey key ≠ .gt := bne_iff_ne

theorem getElem?_places (ps : List IndexedPartition) (i : Nat) :
    (places ps)[i]? = ps[i]?.map fun p => ⟨p.key.key, (indexBytes (ps.take i)).length⟩ :=
  List.getElem?_mapIdx

theorem places_keys (ps : List IndexedPartition) :
    (places ps).map (·.partitionKey) = ps.map (·.key.key) := by
  refine List.ext_getElem? fun i => ?_
  rw [List.getElem?_map, List.getElem?_map, getElem?_places, Option.map_map]
  rfl

section Search

variable {interval : Nat} {ps : List IndexedPartition}

theorem TokenSorted.partitioned (h : TokenSorted ps) (key : Bytes) :
    Partitioned (notBehind key) (places ps) := by
  have htrans := cmpPartitionKeysByToken_transCmp
  have hkeys : (ps.map (·.key.key)).Pairwise fun a b => cmpPartitionKeysByToken a b = .lt :=
    List.pairwise_map.2 h
  rw [← places_keys, List.pairwise_map] at hkeys
  refine hkeys.imp fun {a b} hab hb => ?_
  rw [notBehind_iff] at hb ⊢
  have hle := Std.TransCmp.lt_of_lt_of_isLE hab (Ordering.ne_gt_iff_isLE.1 hb)
  rw [hle]
  decide

/-- The places up to that of a partition are those not behind its key. -/
theorem TokenSorted.takeWhile_length (h : TokenSorted ps) {i : Nat} {p : IndexedPartition}
    (hi : ps[i]? = some p) : ((places ps).takeWhile (notBehind p.key.key)).length = i + 1 := by
  have htrans := cmpPartitionKeysByToken_transCmp
  have hmem : ∀ (j : Nat) (q : IndexedPartition), j < (places ps).length → ps[j]? = some q →
      (cmpPartitionKeysByToken q.key.key p.key.key ≠ .gt ↔
        j < ((places ps).takeWhile (notBehind p.key.key)).length) := fun j q hj hq => by
    rw [← (h.partitioned p.key.key).any_iff hj, getElem?_places, hq, Option.map_some, Option.any_some,
      notBehind_iff]
  have hlt := (List.getElem?_eq_some_iff.1 hi).1
  rw [← length_places] at hlt
  have hself : cmpPartitionKeysByToken p.key.key p.key.key = .eq := Std.ReflCmp.compare_self
  have hin := (hmem i p hlt hi).1 (by rw [hself]; decide)
  have hle := (List.takeWhile_sublist (l := places ps) (notBehind p.key.key)).length_le
  by_cases hnext : i + 1 < ps.length
  · have hq := List.getElem?_eq_getElem hnext
    have hbehind : cmpPartitionKeysByToken p.key.key ps[i + 1].key.key = .lt := by
      obtain ⟨hp, rfl⟩ := List.getElem?_eq_some_iff.1 hi
      exact List.pairwise_iff_getElem.1 h i (i + 1) hp hnext (Nat.lt_succ_self i)
    have hout := mt (hmem _ _ (by rw [length_places]; exact hnext) hq).2 fun hne => hne
      (Std.OrientedCmp.gt_of_lt hbehind)
    omega
  · rw [length_places] at hle
    omega

/-! ### The bytes of an interval -/

/-- The bytes between two kept places are those of the stretch between them. -/
theorem stretch_bytes (j : Nat) (ps : List IndexedPartition) :
    ((indexBytes ps).take (indexBytes (ps.take ((j + 1) * interval))).length).drop
      (indexBytes (ps.take (j * interval))).length = indexBytes (stretch interval j ps) := by
  have hlen : (j + 1) * interval - j * interval = interval := by
    rw [Nat.succ_mul, Nat.add_sub_cancel_left]
  have htake : (ps.take ((j + 1) * interval)).take (j * interval) = ps.take (j * interval) := by
    rw [List.take_take, Nat.min_eq_left (Nat.mul_le_mul_right _ (Nat.le_succ j))]
  rw [take_indexBytes, ← htake, drop_indexBytes, List.drop_take, hlen, stretch]

theorem lastIntervalEntryCap_base (hlt : interval < 2 ^ 32) :
    lastIntervalEntryCap interval baseSamplingLevel = interval + 1 := by
  have hmin : min (interval * baseSamplingLevel) usizeMax = interval * baseSamplingLevel := by
    rw [baseSamplingLevel, usizeMax]
    omega
  have hlevel : max 1 (min baseSamplingLevel baseSamplingLevel) = baseSamplingLevel := rfl
  rw [lastIntervalEntryCap, hlevel, hmin, Nat.mul_div_cancel _ (by decide : 0 < baseSamplingLevel)]
  rw [usizeMax]
  omega

theorem scanIntervalBytes_entries {key : Bytes} {cap : Nat} (hfits : ∀ p ∈ ps, p.Fits)
    (hcap : ps.length ≤ cap) : (scanIntervalBytes (indexBytes ps) key cap).entry =
      (ps.find? (·.key.key = key)).map IndexedPartition.entry :=
  scanIntervalLoop_entries ps hfits 0 (by omega)

/-- The lookup in the interval of the `j`-th sample scans the `j`-th stretch. -/
theorem lookupKeyInInterval_stretch (hpos : 0 < interval) (hlt : interval < 2 ^ 32)
    (hfits : ∀ p ∈ ps, p.Fits) (j : Nat) (key : Bytes) :
    (lookupKeyInInterval (indexBytes ps)
      ⟨(indexBytes (ps.take (j * interval))).length,
        (places ps)[(j + 1) * interval]?.map (·.position), j⟩ key interval baseSamplingLevel).map
        (·.entry) = .ok (((stretch interval j ps).find? (·.key.key = key)).map (·.entry)) := by
  have hstretch : ∀ p ∈ stretch interval j ps, p.Fits := fun p hp =>
    hfits p ((stretch_sublist j ps).subset hp)
  have hsucc : (j + 1) * interval = j * interval + interval := Nat.succ_mul j interval
  by_cases hnext : (j + 1) * interval < ps.length
  · -- between two samples every entry is scanned
    have hlen := length_le_indexBytes hstretch
    have hbytes := congrArg List.length (@stretch_bytes interval j ps)
    rw [take_indexBytes, List.length_drop] at hbytes
    have hcount : (stretch interval j ps).length = interval := by
      rw [stretch, List.length_take, List.length_drop]
      omega
    have hstop := congrArg List.length (take_indexBytes ps ((j + 1) * interval))
    rw [List.length_take] at hstop
    rw [getElem?_places, List.getElem?_eq_getElem hnext, Option.map_some, Option.map_some,
      lookupKeyInInterval]
    dsimp only
    rw [if_neg (by omega), if_neg (by omega), stretch_bytes]
    exact congrArg Except.ok (scanIntervalBytes_entries hstretch (by rw [usizeMax]; omega))
  · -- the last stretch is no longer than the cap
    have hlast : stretch interval j ps = ps.drop (j * interval) :=
      List.take_of_length_le (by rw [List.length_drop]; omega)
    rw [getElem?_places, List.getElem?_eq_none (by omega), lookupKeyInInterval]
    dsimp only [Option.map_none]
    rw [drop_indexBytes, ← hlast, lastIntervalEntryCap_base hlt]
    refine congrArg Except.ok (scanIntervalBytes_entries hstretch ?_)
    rw [stretch, List.length_take]
    omega

/-- The sample finds the stretch the key is in. -/
theorem findEntry_stretch (hpos : 0 < interval) (hlt : interval < 2 ^ 32)
    (hfits : ∀ p ∈ ps, p.Fits) (hsorted : TokenSorted ps) (hne : ps ≠ []) {data : SummaryData} (hentries : data.entries = samples interval ps)
    (hinterval : data.header.minIndexInterval = interval)
    (hlevel : data.header.samplingLevel = baseSamplingLevel) (key : Bytes) :
    ∃ j, j = (((places ps).takeWhile (notBehind key)).length - 1) / interval ∧
      findEntry data (indexBytes ps) key =
        .ok (((stretch interval j ps).find? (·.key.key = key)).map (·.entry)) := by
  refine ⟨_, rfl, ?_⟩
  obtain ⟨j, hj⟩ : ∃ j, (((places ps).takeWhile (notBehind key)).length - 1) / interval = j :=
    ⟨_, rfl⟩
  have hfloor : partitionPoint (fun e => cmpPartitionKeysByToken e.partitionKey key != .gt)
      (samples interval ps) - 1 = j :=
    (floor_everyNth hpos (hsorted.partitioned key)).trans hj
  have hle := (List.takeWhile_sublist (l := places ps) (notBehind key)).length_le
  have hlen : 0 < ps.length := List.length_pos_iff.2 hne
  rw [length_places] at hle
  have hstart : j * interval < ps.length := by
    have := Nat.div_mul_le_self (((places ps).takeWhile (notBehind key)).length - 1) interval
    rw [hj] at this
    omega
  have hsome : (samples interval ps)[j]? =
      some ⟨ps[j * interval].key.key, (indexBytes (ps.take (j * interval))).length⟩ := by
    rw [samples, getElem?_everyNth hpos, getElem?_places, List.getElem?_eq_getElem hstart,
      Option.map_some]
  have hnonempty : ¬ (samples interval ps).isEmpty := fun h => by
    rw [List.isEmpty_iff.1 h] at hsome
    cases hsome
  have hfind : findIntervalForKey (samples interval ps) key =
      some ⟨(indexBytes (ps.take (j * interval))).length,
        (places ps)[(j + 1) * interval]?.map (·.position), j⟩ := by
    rw [findIntervalForKey, if_neg hnonempty]
    dsimp only
    rw [hfloor, hsome, Option.map_some, samples, getElem?_everyNth hpos]
  rw [findEntry, hentries, hfind, hinterval, hlevel, hj]
  exact lookupKeyInInterval_stretch hpos hlt hfits j key

end Search

/-! ### Tables -/

/-- Partitions with keys of 1 to 65535 bytes, in the order of the writer, and the interval of the
    samples. -/
structure WrittenPartitions where
  interval : Nat
  partitions : List IndexedPartition
  interval_pos : 0 < interval
  interval_lt : interval < 2 ^ 32
  decorated : ∀ p ∈ partitions, p.key = .fromKeyBytes p.key.key
  keyLength : ∀ p ∈ partitions, 1 ≤ p.key.key.length ∧ p.key.key.length ≤ 65535
  dataOffset : ∀ p ∈ partitions, p.dataOffset < 2 ^ 64
  sorted : partitions.Pairwise fun a b => DecoratedKey.cmp a.key b.key = .lt
  indexLength : (indexBytes partitions).length < 2 ^ 64

namespace WrittenPartitions

variable (t : WrittenPartitions)

def components : IndexComponents := .writePartitions t.interval t.partitions

/-- The bytes of `Summary.db`. -/
def summary : Bytes := t.components.summaryWriter.finish

/-- The bytes of `Index.db`. -/
def index : Bytes := t.components.indexWriter.buffer

/-- The summary parses to the samples and the first and the last key, and a lookup through it finds
    every partition and nothing else. -/
structure FoundThrough (data : SummaryData) : Prop where
  parses : (parseSummaryData t.summary).outcome = .ok data
  entries : data.entries = samples t.interval t.partitions
  firstKey : t.partitions.head?.map (·.key.key) = some data.firstKey
  lastKey : t.partitions.getLast?.map (·.key.key) = some data.lastKey
  found : ∀ p ∈ t.partitions, findEntry data t.index p.key.key = .ok (some p.entry)
  absent : ∀ key, (∀ p ∈ t.partitions, p.key.key ≠ key) → findEntry data t.index key = .ok none

def Located : Prop := ∃ data, t.FoundThrough data

/-- The partitions that are sampled. -/
def sampled : List IndexedPartition := everyNth t.interval t.partitions

/-- There are partitions, no more samples than a reader takes, and the last sample begins within 32
    bits. -/
structure Addressable : Prop where
  nonempty : t.partitions ≠ []
  count : t.sampled.length ≤ maxReasonableEntries
  offsets : t.sampled.length * 4 + (t.sampled.dropLast.map fun p => p.key.key.length + 8).sum < 2 ^ 32

variable {t}

theorem holds : Holds t.interval t.partitions t.components :=
  writePartitions_holds t.interval_pos t.partitions

theorem fits : ∀ p ∈ t.partitions, p.Fits := fun p hp => by
  obtain ⟨before, after, hsplit⟩ := List.append_of_mem hp
  have htotal := t.indexLength
  rw [hsplit, indexBytes, List.flatMap_append, List.flatMap_cons, List.length_append,
    List.length_append] at htotal
  exact ⟨by have := t.keyLength p hp; omega, t.dataOffset p hp, by omega⟩

theorem tokenSorted : TokenSorted t.partitions := by
  refine t.sorted.imp_of_mem fun {a b} ha hb hab => ?_
  have hne : ∀ p ∈ t.partitions, p.key.key ≠ [] := fun p hp h => by
    have := (t.keyLength p hp).1
    rw [h, List.length_nil] at this
    omega
  rw [t.decorated a ha, t.decorated b hb] at hab
  exact cmp_fromKeyBytes (hne a ha) (hne b hb) ▸ hab

theorem keys_nodup : (t.partitions.map (·.key.key)).Nodup := by
  have htrans := cmpPartitionKeysByToken_transCmp
  refine List.pairwise_map.2 (t.tokenSorted.imp fun {a b} hab heq => ?_)
  have hself : cmpPartitionKeysByToken b.key.key b.key.key = .eq := Std.ReflCmp.compare_self
  rw [heq, hself] at hab
  cases hab

theorem samples_keys : (samples t.interval t.partitions).map (·.partitionKey) =
    t.sampled.map (·.key.key) := by
  rw [samples, map_everyNth, places_keys, sampled, map_everyNth]

theorem length_samples : (samples t.interval t.partitions).length = t.sampled.length := by
  have := congrArg List.length (t.samples_keys)
  rwa [List.length_map, List.length_map] at this

theorem offsetsFit_iff : OffsetsFit (samples t.interval t.partitions) ↔
    t.sampled.length * 4 + (t.sampled.dropLast.map fun p => p.key.key.length + 8).sum < 2 ^ 32 := by
  rw [OffsetsFit, length_samples, length_dataBytes, List.map_dropLast, samples_keys,
    ← List.map_dropLast, List.map_map]
  rfl

theorem mem_samples {e : SummaryEntry} (h : e ∈ samples t.interval t.partitions) :
    e.partitionKey.length ≤ 65535 ∧ e.position < 2 ^ 64 := by
  obtain ⟨i, hi⟩ := List.getElem?_of_mem ((everyNth_sublist _).subset h)
  rw [getElem?_places, Option.map_eq_some_iff] at hi
  obtain ⟨p, hp, rfl⟩ := hi
  have htake := congrArg List.length (take_indexBytes t.partitions i)
  rw [List.length_take] at htake
  have := t.indexLength
  exact ⟨(t.keyLength p (List.mem_of_getElem? hp)).2, by dsimp only; omega⟩

theorem samples_ne_nil (h : t.partitions ≠ []) : samples t.interval t.partitions ≠ [] := by
  rw [← List.length_pos_iff, samples, lt_length_everyNth t.interval_pos, length_places, Nat.zero_mul]
  exact List.length_pos_iff.2 h

/-! ### Lookups -/

section Lookups

variable {data : SummaryData}

theorem findEntry_found (hne : t.partitions ≠ [])
    (hentries : data.entries = samples t.interval t.partitions)
    (hinterval : data.header.minIndexInterval = t.interval)
    (hlevel : data.header.samplingLevel = baseSamplingLevel) {p : IndexedPartition}
    (hp : p ∈ t.partitions) : findEntry data t.index p.key.key = .ok (some p.entry) := by
  obtain ⟨i, hi⟩ := List.getElem?_of_mem hp
  obtain ⟨j, hj, hfind⟩ := findEntry_stretch t.interval_pos t.interval_lt t.fits t.tokenSorted hne
    hentries hinterval hlevel p.key.key
  rw [t.tokenSorted.takeWhile_length hi, Nat.add_sub_cancel] at hj
  have hmem : p ∈ stretch t.interval j t.partitions := hj ▸ mem_stretch t.interval_pos hi
  have hsome : (stretch t.interval j t.partitions).find? (·.key.key = p.key.key) = some p := by
    cases hq : (stretch t.interval j t.partitions).find? (·.key.key = p.key.key) with
    | none => exact absurd (List.find?_eq_none.1 hq p hmem) (by simp)
    | some q =>
      have hkey : q.key.key = p.key.key := by simpa using List.find?_some hq
      have hin := (stretch_sublist j _).subset (List.mem_of_find?_eq_some hq)
      rw [List.inj_on_of_nodup_map t.keys_nodup hin hp hkey]
  rw [index, t.holds.buffer, hfind, hsome]
  rfl

theorem findEntry_absent (hne : t.partitions ≠ [])
    (hentries : data.entries = samples t.interval t.partitions)
    (hinterval : data.header.minIndexInterval = t.interval)
    (hlevel : data.header.samplingLevel = baseSamplingLevel) {key : Bytes}
    (habsent : ∀ p ∈ t.partitions, p.key.key ≠ key) : findEntry data t.index key = .ok none := by
  obtain ⟨j, -, hfind⟩ := findEntry_stretch t.interval_pos t.interval_lt t.fits t.tokenSorted hne
    hentries hinterval hlevel key
  have hnone : (stretch t.interval j t.partitions).find? (·.key.key = key) = none :=
    List.find?_eq_none.2 fun p hp => by simpa using habsent p ((stretch_sublist j _).subset hp)
  rw [index, t.holds.buffer, hfind, hnone]
  rfl

end Lookups

/-! ### Summaries -/

/-- The header `finish` writes, with the count and the size cut to the width of their fields. -/
theorem parseSummaryHeader_summary (hne : t.partitions ≠ []) :
    ∃ size, parseSummaryHeader t.summary = some
      (⟨t.interval, t.sampled.length % 2 ^ 32, size % 2 ^ 64, baseSamplingLevel,
        t.sampled.length % 2 ^ 32⟩,
        (entryOffsets (t.sampled.length * 4) (samples t.interval t.partitions)).flatMap leBytes ++
          (dataBytes (samples t.interval t.partitions) ++
            (serializedKey (t.partitions.head?.map (·.key.key)) ++
              serializedKey (t.partitions.getLast?.map (·.key.key))))) ∧
      size = t.sampled.length * 4 + (dataBytes (samples t.interval t.partitions)).length := by
  have hentries : t.components.summaryWriter.entries ≠ [] :=
    t.holds.entries ▸ samples_ne_nil hne
  refine ⟨_, ?_, rfl⟩
  rw [summary, finish_eq hentries, parseSummaryHeader_writeHeader, t.holds.entries, t.holds.firstKey,
    t.holds.lastKey, t.holds.minIndexInterval, length_samples, Nat.mod_eq_of_lt t.interval_lt]

/-- What finding every key takes. -/
theorem addressable_of_located (h : t.Located) : t.Addressable := by
  obtain ⟨data, h⟩ := h
  have hne : t.partitions ≠ [] := fun hnil => by
    have hfirst := h.firstKey
    rw [hnil] at hfirst
    cases hfirst
  obtain ⟨remaining, offsets, after, hheader, hcount, hoffsets, -, hlen, hinc⟩ :=
    parseSummaryData_ok h.parses
  obtain ⟨size, hwritten, -⟩ := parseSummaryHeader_summary hne
  rw [hheader] at hwritten
  obtain ⟨hdata, rfl⟩ := Prod.mk.inj (Option.some.inj hwritten)
  have hentriesCount := congrArg SummaryHeader.entriesCount hdata
  dsimp only at hentriesCount
  rw [h.entries, (countLeU32_length hoffsets).1, hentriesCount, length_samples] at hlen
  rw [hentriesCount, ← hlen] at hcount hoffsets
  have htable := countLeU32_flatMap (entryOffsets (t.sampled.length * 4)
    (samples t.interval t.partitions)) (fun o ho => by
      obtain ⟨start, -, rfl⟩ := List.mem_map.1 ho
      exact Nat.mod_lt _ (by decide)) (dataBytes (samples t.interval t.partitions) ++
        (serializedKey (t.partitions.head?.map (·.key.key)) ++
          serializedKey (t.partitions.getLast?.map (·.key.key))))
  rw [entryOffsets, List.length_map, length_starts, length_samples, ← entryOffsets, hoffsets] at htable
  obtain ⟨rfl, -⟩ := Prod.mk.inj (Option.some.inj htable)
  rw [← length_samples] at hinc hcount
  have hfit := offsetsFit_of_increasing (samples_ne_nil hne) (fun e he => (mem_samples he).1)
    (by rw [maxReasonableEntries] at hcount; omega) hinc
  exact ⟨hne, length_samples ▸ hcount, offsetsFit_iff.1 hfit⟩

theorem length_dataBytes_samples (hne : t.partitions ≠ [])
    (hfit : OffsetsFit (samples t.interval t.partitions)) :
    t.sampled.length * 4 + (dataBytes (samples t.interval t.partitions)).length < 2 ^ 33 := by
  have hlast := samples_ne_nil hne
  have hkey := (mem_samples (List.getLast_mem hlast)).1
  have hsplit := congrArg (fun es => (dataBytes es).length) (List.dropLast_concat_getLast hlast)
  rw [dataBytes_append, List.length_append, length_dataBytes [_]] at hsplit
  simp only [List.map_cons, List.map_nil, List.sum_cons, List.sum_nil] at hsplit
  rw [OffsetsFit, length_samples] at hfit
  omega

theorem located_of_addressable (h : t.Addressable) : t.Located := by
  obtain ⟨size, hheader, hsize⟩ := parseSummaryHeader_summary h.nonempty
  have hfit := offsetsFit_iff.2 h.offsets
  have hcount := h.count
  have hmax : maxReasonableEntries = 100000000 := rfl
  have htotal := length_dataBytes_samples h.nonempty hfit
  rw [Nat.mod_eq_of_lt (show t.sampled.length < 2 ^ 32 by omega),
    Nat.mod_eq_of_lt (show size < 2 ^ 64 by omega)] at hheader
  have hkey : ∀ p ∈ t.partitions, p.key.key.length < 2 ^ 32 := fun p hp => by
    have := (t.keyLength p hp).2
    omega
  rw [List.head?_eq_some_head h.nonempty, List.getLast?_eq_some_getLast h.nonempty, Option.map_some,
    Option.map_some, ← length_samples] at hheader
  have hbody := parseSummaryBody_written ⟨t.interval, (samples t.interval t.partitions).length, size,
      baseSamplingLevel, (samples t.interval t.partitions).length⟩ (samples_ne_nil h.nonempty) hfit
    (fun e he => (mem_samples he).2) rfl (by rw [length_samples]; exact hsize)
    (hkey _ (List.head_mem h.nonempty)) (hkey _ (List.getLast_mem h.nonempty))
  have hparses := parseSummaryData_of_body hheader (by rw [length_samples]; exact h.count) hbody
  exact ⟨_, hparses, rfl, by rw [List.head?_eq_some_head h.nonempty]; rfl,
    by rw [List.getLast?_eq_some_getLast h.nonempty]; rfl,
    fun p hp => findEntry_found h.nonempty rfl rfl rfl hp,
    fun key => findEntry_absent h.nonempty rfl rfl rfl⟩

/-- A written table is found through its summary exactly when the summary can address it. -/
theorem located_iff (t : WrittenPartitions) : t.Located ↔ t.Addressable :=
  ⟨addressable_of_located, located_of_addressable⟩

/-- A table without partitions. -/
def noPartitions : WrittenPartitions :=
  ⟨128, [], by decide, by decide, nofun, nofun, nofun, .nil, by decide⟩

/-- Its summary ends before the first key, and does not parse. -/
theorem empty_not_located :
    (parseSummaryData noPartitions.summary).outcome = .error (.corruption "Failed to parse first key") ∧
      ¬ noPartitions.Located := by
  have hparse : (parseSummaryData noPartitions.summary).outcome =
      .error (.corruption "Failed to parse first key") := by decide
  refine ⟨hparse, fun ⟨_, h⟩ => ?_⟩
  have hok := h.parses
  rw [hparse] at hok
  cases hok

end WrittenPartitions

end Cqlite
