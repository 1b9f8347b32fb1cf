import Cqlite.Reader.RowFrame
import Cqlite.Writer.StatsFold

/-! The baselines of a flush (`writer/mod.rs`: `compute_mutations_baseline_stats`,
    `pre_seed_encoding_baselines`; `stats_writer/serialization_header.rs`;
    `enhanced_statistics_parser/encoding_stats.rs`).

    A first pass over the mutations finds the minima that Data.db takes its deltas to. The header of
    the file gets the minima of the statistics, which a second pass may have lowered further. Either
    pass reads the clock for itself. -/

namespace Cqlite

open VInt StatisticsMetadata

/-! ### The first pass -/

namespace Baselines

def unset : Baselines := ⟨i64Max, i32Max, i32Max⟩

def lowerTimestamp (b : Baselines) (t : Int) : Baselines :=
  { b with minTimestamp := min b.minTimestamp t }

def lowerTtl (b : Baselines) (ttl : Int) : Baselines := { b with minTtl := min b.minTtl ttl }

def lowerLocalDeletionTime (b : Baselines) (ldt : Int) : Baselines :=
  { b with minLocalDeletionTime := min b.minLocalDeletionTime ldt }

end Baselines

def foldOperationBaselines (now : Int) (m : Mutation) (b : Baselines) : CellOperation → Baselines
  | .writeWithTtl _ _ ttlSeconds localDeletionTime =>
    if 0 < asI32 ttlSeconds then
      (b.lowerTtl (asI32 ttlSeconds)).lowerLocalDeletionTime
        (localDeletionTime.getD (expiringLocalDeletionTime (asI32 now) ttlSeconds))
    else b
  | .delete column localDeletionTime =>
    b.lowerLocalDeletionTime (CellOperation.cellLocalDeletionTime (.delete column localDeletionTime) m)
  | .deleteRow => b.lowerLocalDeletionTime (CellOperation.cellLocalDeletionTime .deleteRow m)
  | .complexDeletion _ markedForDeleteAt localDeletionTime =>
    let b := if isLiveTimestamp markedForDeleteAt then b else b.lowerTimestamp markedForDeleteAt
    if isLiveLocalDeletionTime localDeletionTime then b
    else b.lowerLocalDeletionTime localDeletionTime
  | .writeComplexElement _ _ _ timestampMicros ttlSeconds localDeletionTime _ =>
    let b := if isLiveTimestamp timestampMicros then b else b.lowerTimestamp timestampMicros
    let b := match ttlSeconds with
      | some ttl => if 0 < asI32 ttl then b.lowerTtl (asI32 ttl) else b
      | none => b
    match localDeletionTime with
    | some ldt => if isLiveLocalDeletionTime ldt then b else b.lowerLocalDeletionTime ldt
    | none => b
  | .write _ _ => b

def foldMutationBaselines (now : Int) (b : Baselines) (m : Mutation) : Baselines :=
  let b := b.lowerTimestamp m.timestampMicros
  let b := match m.cellWriteTimestamps with
    | some cellTs => cellTs.foldl (fun b ts => b.lowerTimestamp ts.2) b
    | none => b
  let b := m.operations.foldl (foldOperationBaselines now m) b
  let b := match m.ttlSeconds with
    | some ttl =>
      if 0 < asI32 ttl then
        (b.lowerTtl (asI32 ttl)).lowerLocalDeletionTime (expiringLocalDeletionTime (asI32 now) ttl)
      else b
    | none => b
  let b := match m.partitionTombstone with
    | some pt => (b.lowerTimestamp pt.deletionTime).lowerLocalDeletionTime pt.localDeletionTime
    | none => b
  let b := m.rangeTombstones.foldl (fun b rt =>
    (b.lowerTimestamp rt.deletionTime).lowerLocalDeletionTime rt.localDeletionTime) b
  match m.rowTombstone with
  | some (deletionTime, ldt) => (b.lowerTimestamp deletionTime).lowerLocalDeletionTime ldt
  | none => b

/-! ### The second pass and the header -/

/-- What the clock shows when a mutation is written to the engine, in the first pass of the flush, in
    its second pass, and when the row goes to Data.db. -/
structure Readings where
  write : Int
  prepass : Int
  fold : Int
  data : Int

/-- The mutations of a flush, each with the clock it meets. -/
abbrev FlushInput := List (Readings × Mutation)

/-- `compute_mutations_baseline_stats`. -/
def computeMutationsBaselineStats (ms : FlushInput) : Baselines :=
  ms.foldl (fun b c => foldMutationBaselines c.1.prepass b c.2) .unset

def preSeedEncodingBaselines (b : Baselines) : StatisticsMetadata :=
  { StatisticsMetadata.new with
    minTimestamp := b.minTimestamp
    minLocalDeletionTime := b.minLocalDeletionTime
    minTtl := b.minTtl }

/-- The statistics when all partitions are written. -/
def flushStatistics (ms : FlushInput) : StatisticsMetadata :=
  ms.foldl (fun s c => foldMutationStats c.1.fold s c.2)
    (preSeedEncodingBaselines (computeMutationsBaselineStats ms))

def StatisticsMetadata.finalize (s : StatisticsMetadata) : StatisticsMetadata :=
  { s with
    minTimestamp := if s.minTimestamp = i64Max then 0 else s.minTimestamp
    maxTimestamp := if s.maxTimestamp = i64Min then 0 else s.maxTimestamp
    minLocalDeletionTime := if s.minLocalDeletionTime = i32Max then 0 else s.minLocalDeletionTime
    maxLocalDeletionTime := if s.maxLocalDeletionTime = i32Min then 0 else s.maxLocalDeletionTime
    minTtl := if s.minTtl = i32Max then 0 else s.minTtl }

def timestampEpoch : Int := 1442880000000000

def deletionTimeEpoch : Int := 1442880000

/-- The `EncodingStats` of the header: three deltas to the epochs; the epoch of TTLs is 0. -/
def encodingStatsBytes (s : StatisticsMetadata) : Bytes :=
  let minTs := if s.minTimestamp = i64Max then timestampEpoch else s.minTimestamp
  let minTtl := if s.minTtl = i32Max then 0 else s.minTtl
  encodeUnsigned (asU64 (minTs - timestampEpoch)) ++
    encodeUnsigned (asU64 (asI32 (s.minLocalDeletionTime - deletionTimeEpoch))) ++
    encodeUnsigned (asU64 minTtl)

/-- `parse_encoding_stats_vuints`. -/
def parseEncodingStatsVuints (input : Bytes) : Option (Baselines × Bytes) :=
  (decodeUnsigned input).bind fun ts => (decodeUnsigned ts.2).bind fun ldt =>
    (decodeUnsigned ldt.2).map fun ttl =>
      (⟨asI64 ts.1 + timestampEpoch, asI64 ttl.1, asI64 ldt.1 + deletionTimeEpoch⟩, ttl.2)

/-- The baselines that a reader of the flushed file gets. -/
def headerBaselines (ms : FlushInput) : Option Baselines :=
  (parseEncodingStatsVuints (encodingStatsBytes (flushStatistics ms).finalize)).map (·.1)

theorem asU64_lt (x : Int) : asU64 x < 2 ^ 64 := by
  rw [asU64]
  omega

theorem asI64_asU64 {x : Int} (hlow : -(2 ^ 63) ≤ x) (hhigh : x < 2 ^ 63) : asI64 (asU64 x) = x := by
  rw [asI64, asU64]
  omega

theorem asI32_range (x : Int) : -(2 ^ 31) ≤ asI32 x ∧ asI32 x < 2 ^ 31 := by
  rw [asI32]
  omega

/-- What a header is read back as: the minima, the one of deletion times up to a wrap. -/
theorem parse_encodingStatsBytes {s : StatisticsMetadata} (httl : 0 ≤ s.minTtl)
    (hmax : s.minTtl < i32Max) :
    ∃ minTimestamp, parseEncodingStatsVuints (encodingStatsBytes s) = some
      (⟨minTimestamp, s.minTtl,
        asI32 (s.minLocalDeletionTime - deletionTimeEpoch) + deletionTimeEpoch⟩, []) := by
  have hi32 : i32Max = 2 ^ 31 - 1 := rfl
  have hset : s.minTtl ≠ i32Max := by omega
  obtain ⟨hlow, hhigh⟩ := asI32_range (s.minLocalDeletionTime - deletionTimeEpoch)
  rw [parseEncodingStatsVuints, encodingStatsBytes, if_neg hset, List.append_assoc,
    decodeUnsigned_encodeUnsigned (asU64_lt _), Option.bind_some,
    decodeUnsigned_encodeUnsigned (asU64_lt _), Option.bind_some,
    ← List.append_nil (encodeUnsigned (asU64 s.minTtl)),
    decodeUnsigned_encodeUnsigned (asU64_lt _), Option.map_some]
  dsimp only
  rw [asI64_asU64 (show -(2 ^ 63) ≤ s.minTtl by omega) (by omega),
    asI64_asU64 (x := asI32 (s.minLocalDeletionTime - deletionTimeEpoch)) (by omega) (by omega)]
  exact ⟨_, rfl⟩

/-! ### The first pass as a list of notes -/

/-- A note lowers the baseline it is about. -/
def Baselines.apply (b : Baselines) : Note → Baselines
  | .timestamp t => b.lowerTimestamp t
  | .localDeletionTime ldt => b.lowerLocalDeletionTime ldt
  | .ttl n => b.lowerTtl n
  | .live => b
  | .partitionLevelDeletion => b

/-- A TTL that is positive as `i32`, and an expiry with it. -/
def expiryNotes (ttl ldt : Int) : List Note :=
  if 0 < asI32 ttl then [.ttl (asI32 ttl), .localDeletionTime ldt] else []

def timestampNotes (t : Int) : List Note := if isLiveTimestamp t then [] else [.timestamp t]

def deletionNotes (ldt : Int) : List Note :=
  if isLiveLocalDeletionTime ldt then [] else [.localDeletionTime ldt]

/-- What the first pass notes of one operation. -/
def operationBaselineNotes (now : Int) (m : Mutation) : CellOperation → List Note
  | .writeWithTtl _ _ ttlSeconds localDeletionTime =>
    expiryNotes ttlSeconds
      (localDeletionTime.getD (expiringLocalDeletionTime (asI32 now) ttlSeconds))
  | .delete column localDeletionTime =>
    [.localDeletionTime (CellOperation.cellLocalDeletionTime (.delete column localDeletionTime) m)]
  | .deleteRow => [.localDeletionTime (CellOperation.cellLocalDeletionTime .deleteRow m)]
  | .complexDeletion _ markedForDeleteAt localDeletionTime =>
    timestampNotes markedForDeleteAt ++ deletionNotes localDeletionTime
  | .writeComplexElement _ _ _ timestampMicros ttlSeconds localDeletionTime _ =>
    timestampNotes timestampMicros ++
      (ttlSeconds.toList.flatMap fun ttl => if 0 < asI32 ttl then [.ttl (asI32 ttl)] else []) ++
      localDeletionTime.toList.flatMap deletionNotes
  | .write _ _ => []

/-- What the first pass notes of one mutation. -/
def baselineNotes (now : Int) (m : Mutation) : List Note :=
  .timestamp m.timestampMicros ::
    (((m.cellWriteTimestamps.getD []).map fun ts => .timestamp ts.2) ++
    m.operations.flatMap (operationBaselineNotes now m) ++
    (m.ttlSeconds.toList.flatMap fun ttl =>
      expiryNotes ttl (expiringLocalDeletionTime (asI32 now) ttl)) ++
    (m.partitionTombstone.toList.flatMap fun pt =>
      [.timestamp pt.deletionTime, .localDeletionTime pt.localDeletionTime]) ++
    (m.rangeTombstones.flatMap fun rt =>
      [.timestamp rt.deletionTime, .localDeletionTime rt.localDeletionTime]) ++
    m.rowTombstone.toList.flatMap fun d => [.timestamp d.1, .localDeletionTime d.2])

theorem foldl_expiryNotes (b : Baselines) (ttl ldt : Int) :
    (expiryNotes ttl ldt).foldl Baselines.apply b =
      if 0 < asI32 ttl then (b.lowerTtl (asI32 ttl)).lowerLocalDeletionTime ldt else b := by
  rw [expiryNotes]
  split <;> rfl

theorem foldl_timestampNotes (b : Baselines) (t : Int) :
    (timestampNotes t).foldl Baselines.apply b =
      if isLiveTimestamp t then b else b.lowerTimestamp t := by
  rw [timestampNotes]
  split <;> rfl

theorem foldl_deletionNotes (b : Baselines) (ldt : Int) :
    (deletionNotes ldt).foldl Baselines.apply b =
      if isLiveLocalDeletionTime ldt then b else b.lowerLocalDeletionTime ldt := by
  rw [deletionNotes]
  split <;> rfl

/-- An operation is folded in as a list of notes. -/
theorem foldOperationBaselines_eq (now : Int) (m : Mutation) (b : Baselines) (op : CellOperation) :
    foldOperationBaselines now m b op = (operationBaselineNotes now m op).foldl Baselines.apply b := by
  cases op with
  | writeWithTtl _ _ _ _ => exact (foldl_expiryNotes b _ _).symm
  | delete _ _ => rfl
  | deleteRow => rfl
  | complexDeletion _ _ _ =>
    rw [foldOperationBaselines, operationBaselineNotes, List.foldl_append, foldl_timestampNotes,
      foldl_deletionNotes]
  | writeComplexElement _ _ _ _ ttl ldt _ =>
    unfold foldOperationBaselines
    rw [operationBaselineNotes, List.foldl_append, List.foldl_append, foldl_timestampNotes]
    have httl : ∀ b : Baselines, (ttl.toList.flatMap fun ttl =>
        if 0 < asI32 ttl then [Note.ttl (asI32 ttl)] else []).foldl Baselines.apply b =
        match ttl with
        | some ttl => if 0 < asI32 ttl then b.lowerTtl (asI32 ttl) else b
        | none => b := by
      intro b
      cases ttl with
      | none => rfl
      | some ttl =>
        rw [Option.toList_some, List.flatMap_singleton]
        dsimp only
        split <;> rfl
    rw [httl]
    cases ldt with
    | none => rfl
    | some ldt =>
      rw [Option.toList_some, List.flatMap_singleton, foldl_deletionNotes]
  | write _ _ => rfl

theorem foldMutationBaselines_eq (now : Int) (b : Baselines) (m : Mutation) :
    foldMutationBaselines now b m = (baselineNotes now m).foldl Baselines.apply b := by
  have hops : foldOperationBaselines now m = fun b op =>
      (operationBaselineNotes now m op).foldl Baselines.apply b :=
    funext fun b => funext fun op => foldOperationBaselines_eq now m b op
  simp only [foldMutationBaselines, baselineNotes, List.foldl_cons, List.foldl_append,
    List.foldl_flatMap, List.foldl_map, hops, foldl_expiryNotes]
  cases m.cellWriteTimestamps <;> cases m.ttlSeconds <;> cases m.partitionTombstone <;>
    cases m.rowTombstone <;> rfl

/-! ### The minima of both passes -/

/-- What the first pass notes of a flush. -/
def flushBaselineNotes (ms : FlushInput) : List Note :=
  ms.flatMap fun c => baselineNotes c.1.prepass c.2

/-- What the second pass notes of a flush. -/
def flushNotes (ms : FlushInput) : List Note := ms.flatMap fun c => mutationNotes c.1.fold c.2

theorem computeMutationsBaselineStats_eq (ms : FlushInput) :
    computeMutationsBaselineStats ms = (flushBaselineNotes ms).foldl Baselines.apply .unset := by
  rw [computeMutationsBaselineStats, flushBaselineNotes, List.foldl_flatMap]
  congr 1
  funext b c
  exact foldMutationBaselines_eq c.1.prepass b c.2

theorem flushStatistics_eq (ms : FlushInput) :
    flushStatistics ms = (flushNotes ms).foldl StatisticsMetadata.apply
      (preSeedEncodingBaselines (computeMutationsBaselineStats ms)) := by
  rw [flushStatistics, flushNotes, List.foldl_flatMap]
  congr 1
  funext s c
  exact foldMutationStats_eq c.1.fold s c.2

/-- The TTLs of a list of notes. -/
def Note.ttl? : Note → Option Int
  | .ttl n => some n
  | _ => none

/-- The deletion times of a list of notes. -/
def Note.localDeletionTime? : Note → Option Int
  | .localDeletionTime ldt => some ldt
  | _ => none

variable {n now : Int} {m : Mutation} {ms : FlushInput}

theorem Note.ttl?_eq_some {note : Note} : note.ttl? = some n ↔ note = .ttl n := by
  cases note <;> simp [Note.ttl?]

theorem Note.localDeletionTime?_eq_some {note : Note} {ldt : Int} :
    note.localDeletionTime? = some ldt ↔ note = .localDeletionTime ldt := by
  cases note <;> simp [Note.localDeletionTime?]

theorem foldl_apply_minTtl (notes : List Note) (b : Baselines) :
    (notes.foldl Baselines.apply b).minTtl = (notes.filterMap Note.ttl?).foldl min b.minTtl := by
  induction notes generalizing b with
  | nil => rfl
  | cons note notes ih =>
    rw [List.foldl_cons, ih]
    cases note <;> rfl

theorem foldl_apply_minLocalDeletionTime (notes : List Note) (b : Baselines) :
    (notes.foldl Baselines.apply b).minLocalDeletionTime =
      (notes.filterMap Note.localDeletionTime?).foldl min b.minLocalDeletionTime := by
  induction notes generalizing b with
  | nil => rfl
  | cons note notes ih =>
    rw [List.foldl_cons, ih]
    cases note <;> rfl

/-- The TTLs of an operation. -/
def operationTtls : CellOperation → List Int
  | .writeWithTtl _ _ ttlSeconds _ => [ttlSeconds]
  | .writeComplexElement _ _ _ _ ttlSeconds _ _ => ttlSeconds.toList
  | _ => []

/-- The TTLs of a mutation. -/
def mutationTtls (m : Mutation) : List Int :=
  m.ttlSeconds.toList ++ m.operations.flatMap operationTtls

theorem ttl_mem_operationNotes {op : CellOperation} :
    Note.ttl n ∈ operationNotes now m op ↔ ∃ ttl ∈ operationTtls op, asI32 ttl = n := by
  cases op with
  | writeComplexElement _ _ _ _ ttl ldt deleted =>
    cases ttl <;> cases ldt <;> cases deleted <;> simp [operationNotes, operationTtls, eq_comm]
  | write _ value =>
    rw [operationNotes]
    split <;> simp [operationTtls]
  | _ => simp [operationNotes, operationTtls, eq_comm]

theorem ttl_mem_expiryNotes {ttl ldt : Int} :
    Note.ttl n ∈ expiryNotes ttl ldt ↔ asI32 ttl = n ∧ 0 < n := by
  rw [expiryNotes]
  split
  · simp [eq_comm]
    omega
  · simp
    omega

theorem ttl_mem_operationBaselineNotes {op : CellOperation} :
    Note.ttl n ∈ operationBaselineNotes now m op ↔
      ∃ ttl ∈ operationTtls op, asI32 ttl = n ∧ 0 < n := by
  have htimestamp : ∀ t, Note.ttl n ∉ timestampNotes t := by
    intro t
    rw [timestampNotes]
    split <;> simp
  have hdeletion : ∀ ldt, Note.ttl n ∉ deletionNotes ldt := by
    intro ldt
    rw [deletionNotes]
    split <;> simp
  cases op with
  | writeWithTtl _ _ _ _ => simp [operationBaselineNotes, operationTtls, ttl_mem_expiryNotes]
  | writeComplexElement _ _ _ _ ttl ldt _ =>
    cases ttl with
    | none => simp [operationBaselineNotes, operationTtls, htimestamp, hdeletion]
    | some ttl =>
      simp [operationBaselineNotes, operationTtls, htimestamp, hdeletion, eq_comm]
      omega
  | _ => simp [operationBaselineNotes, operationTtls, htimestamp, hdeletion]

/-- A property of the TTLs of the operations is one of the operations' TTLs. -/
theorem exists_operationTtls {P : Int → Prop} :
    (∃ op ∈ m.operations, ∃ ttl ∈ operationTtls op, P ttl) ↔
      ∃ ttl, (∃ op ∈ m.operations, ttl ∈ operationTtls op) ∧ P ttl := by
  constructor
  · rintro ⟨op, hop, ttl, httl, h⟩
    exact ⟨ttl, ⟨op, hop, httl⟩, h⟩
  · rintro ⟨ttl, ⟨op, hop, httl⟩, h⟩
    exact ⟨op, hop, ttl, httl, h⟩

theorem ttl_mem_mutationNotes :
    Note.ttl n ∈ mutationNotes now m ↔ ∃ ttl ∈ mutationTtls m, asI32 ttl = n := by
  simp only [mutationNotes, mutationTtls, List.mem_cons, List.mem_append, List.mem_flatMap,
    List.mem_map, ttl_mem_operationNotes, exists_operationTtls, reduceCtorEq, List.not_mem_nil,
    Note.ttl.injEq, or_false, false_or, and_false, exists_false, eq_comm, or_and_right, exists_or]

theorem ttl_mem_baselineNotes :
    Note.ttl n ∈ baselineNotes now m ↔ ∃ ttl ∈ mutationTtls m, asI32 ttl = n ∧ 0 < n := by
  simp only [baselineNotes, mutationTtls, List.mem_cons, List.mem_append, List.mem_flatMap,
    List.mem_map, ttl_mem_operationBaselineNotes, ttl_mem_expiryNotes, exists_operationTtls,
    reduceCtorEq, List.not_mem_nil, or_false, false_or, and_false, exists_false, or_and_right,
    exists_or]
  exact or_comm

/-- The baseline is positive and bounds every TTL. -/
theorem computeMutationsBaselineStats_minTtl (ms : FlushInput) :
    0 < (computeMutationsBaselineStats ms).minTtl ∧
      (computeMutationsBaselineStats ms).minTtl ≤ i32Max ∧
      ∀ n ∈ ttls (flushNotes ms), (computeMutationsBaselineStats ms).minTtl ≤ n := by
  rw [computeMutationsBaselineStats_eq, foldl_apply_minTtl]
  obtain ⟨htop, hall⟩ := Bounds.foldl_min_le ((flushBaselineNotes ms).filterMap Note.ttl?)
    Baselines.unset.minTtl
  refine ⟨?_, htop, ?_⟩
  · refine Bounds.foldl_min_of_forall (P := (0 < ·)) (by decide) fun n hn => ?_
    obtain ⟨note, hnote, hsome⟩ := List.mem_filterMap.mp hn
    obtain ⟨c, -, hc⟩ := List.mem_flatMap.mp hnote
    rw [Note.ttl?_eq_some.mp hsome] at hc
    obtain ⟨ttl, -, -, hpos⟩ := ttl_mem_baselineNotes.mp hc
    exact hpos
  · intro n hn
    obtain ⟨note, hnote, hsome⟩ := List.mem_filterMap.mp hn
    obtain ⟨c, hc, hnote⟩ := List.mem_flatMap.mp hnote
    cases note with
    | ttl k =>
      obtain ⟨hpos, rfl⟩ : 0 < k ∧ k = n := by simpa using hsome
      obtain ⟨ttl, httl, heq⟩ := ttl_mem_mutationNotes.mp hnote
      refine hall k (List.mem_filterMap.mpr ⟨.ttl k, List.mem_flatMap.mpr ⟨c, hc, ?_⟩, rfl⟩)
      exact ttl_mem_baselineNotes.mpr ⟨ttl, httl, heq, hpos⟩
    | _ => simp at hsome

/-- The times and TTLs of a flush are of their machine types, whatever the clock shows. -/
def FlushInRange (ms : FlushInput) : Prop :=
  NotesInRange (flushNotes ms) ∧ NotesInRange (flushBaselineNotes ms)

theorem computeMutationsBaselineStats_minLocalDeletionTime (h : FlushInRange ms) :
    i32Min ≤ (computeMutationsBaselineStats ms).minLocalDeletionTime ∧
      (computeMutationsBaselineStats ms).minLocalDeletionTime ≤ i32Max := by
  rw [computeMutationsBaselineStats_eq, foldl_apply_minLocalDeletionTime]
  refine ⟨Bounds.foldl_min_of_forall (P := (i32Min ≤ ·)) (by decide) fun ldt hldt => ?_,
    (Bounds.foldl_min_le _ _).1⟩
  obtain ⟨note, hnote, hsome⟩ := List.mem_filterMap.mp hldt
  rw [Note.localDeletionTime?_eq_some.mp hsome] at hnote
  exact (h.2 _ hnote).1

theorem flushStatistics_min (h : FlushInRange ms) :
    (flushStatistics ms).minTtl = (computeMutationsBaselineStats ms).minTtl ∧
      (flushStatistics ms).minLocalDeletionTime =
        (drops (flushNotes ms)).foldl min (computeMutationsBaselineStats ms).minLocalDeletionTime := by
  have hmax : (preSeedEncodingBaselines (computeMutationsBaselineStats ms)).maxLocalDeletionTime ≤
      i32Max := by
    change i32Min ≤ i32Max
    decide
  rw [flushStatistics_eq, foldl_apply h.1 hmax]
  exact ⟨Bounds.foldl_min_eq_iff.mpr (computeMutationsBaselineStats_minTtl ms).2.2, rfl⟩

theorem flushStatistics_minLocalDeletionTime (h : FlushInRange ms) :
    i32Min ≤ (flushStatistics ms).minLocalDeletionTime ∧
      (flushStatistics ms).minLocalDeletionTime ≤
        (computeMutationsBaselineStats ms).minLocalDeletionTime := by
  rw [(flushStatistics_min h).2]
  exact ⟨Bounds.foldl_min_of_forall (P := (i32Min ≤ ·))
    (computeMutationsBaselineStats_minLocalDeletionTime h).1 fun ldt hldt => (drops_le h.1 ldt hldt).1,
    (Bounds.foldl_min_le _ _).1⟩

/-- The second pass does not undercut the first: no deletion time it counts lies below the minimum
    that Data.db takes its deltas to. -/
def NotUndercut (ms : FlushInput) : Prop :=
  ∀ ldt ∈ drops (flushNotes ms), (computeMutationsBaselineStats ms).minLocalDeletionTime ≤ ldt

instance (ms : FlushInput) : Decidable (NotUndercut ms) :=
  inferInstanceAs (Decidable (∀ ldt ∈ drops (flushNotes ms), _))

theorem notUndercut_iff (h : FlushInRange ms) :
    NotUndercut ms ↔ (flushStatistics ms).minLocalDeletionTime =
      (computeMutationsBaselineStats ms).minLocalDeletionTime := by
  rw [(flushStatistics_min h).2]
  exact Bounds.foldl_min_eq_iff.symm

theorem headerBaselines_eq (h : FlushInRange ms)
    (httl : (computeMutationsBaselineStats ms).minTtl < i32Max)
    (hldt : (computeMutationsBaselineStats ms).minLocalDeletionTime < i32Max) :
    ∃ minTimestamp, headerBaselines ms = some
      ⟨minTimestamp, (computeMutationsBaselineStats ms).minTtl,
        asI32 ((flushStatistics ms).minLocalDeletionTime - deletionTimeEpoch) + deletionTimeEpoch⟩ := by
  have hminTtl := (flushStatistics_min h).1
  have hpos := (computeMutationsBaselineStats_minTtl ms).1
  have hle := (flushStatistics_minLocalDeletionTime h).2
  have hfinalTtl : (flushStatistics ms).finalize.minTtl = (flushStatistics ms).minTtl := by
    rw [finalize, if_neg (show (flushStatistics ms).minTtl ≠ i32Max by omega)]
  have hfinalLdt : (flushStatistics ms).finalize.minLocalDeletionTime =
      (flushStatistics ms).minLocalDeletionTime := by
    rw [finalize, if_neg (show (flushStatistics ms).minLocalDeletionTime ≠ i32Max by omega)]
  obtain ⟨minTimestamp, hparse⟩ := @parse_encodingStatsBytes (flushStatistics ms).finalize
    (by omega) (by omega)
  refine ⟨minTimestamp, ?_⟩
  rw [headerBaselines, hparse, Option.map_some, hfinalTtl, hfinalLdt, hminTtl]

end Cqlite
