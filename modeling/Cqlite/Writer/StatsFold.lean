import Cqlite.Lib.Bounds
import Cqlite.Writer.RowMerge
import Cqlite.Writer.TombstoneHistogram

/-! The statistics of a table while it is written (`writer/stats_fold.rs`, `stats_writer/metadata.rs`).

    Every mutation is folded into the statistics of the table, either directly or by way of the
    statistics of its partition, of which only the extremes are fed back. The clock is a parameter;
    counts of rows, sizes and keys, which the fold does not touch, are left out. -/

namespace Cqlite

/-- `dropTimes` are the calls of `TombstoneHistogram::update` so far. -/
structure StatisticsMetadata where
  minTimestamp : Int
  maxTimestamp : Int
  minLocalDeletionTime : Int
  maxLocalDeletionTime : Int
  minTtl : Int
  maxTtl : Int
  dropTimes : List Int
  hasPartitionLevelDeletions : Bool

namespace StatisticsMetadata

def new : StatisticsMetadata := ⟨i64Max, i64Min, i32Max, i32Min, i32Max, 0, [], false⟩

def tombstoneHistogram (s : StatisticsMetadata) : Option Bins :=
  TombstoneHistogram.recordAll s.dropTimes

/-! ### The chokepoints -/

def isLiveTimestamp (timestamp : Int) : Bool := timestamp = i64Min || timestamp = i64Max

def isLiveLocalDeletionTime (deletionTime : Int) : Bool := deletionTime = i32Max

def updateTimestamp (s : StatisticsMetadata) (timestamp : Int) : StatisticsMetadata :=
  if isLiveTimestamp timestamp then s
  else { s with
    minTimestamp := min s.minTimestamp timestamp
    maxTimestamp := max s.maxTimestamp timestamp }

def updateLocalDeletionTime (s : StatisticsMetadata) (deletionTime : Int) : StatisticsMetadata :=
  if isLiveLocalDeletionTime deletionTime then s
  else { s with
    minLocalDeletionTime := min s.minLocalDeletionTime deletionTime
    maxLocalDeletionTime := max s.maxLocalDeletionTime deletionTime
    dropTimes := s.dropTimes ++ [deletionTime] }

def noteLiveLocalDeletionTime (s : StatisticsMetadata) : StatisticsMetadata :=
  { s with maxLocalDeletionTime := i32Max }

def updateTtl (s : StatisticsMetadata) (ttl : Int) : StatisticsMetadata :=
  if 0 < ttl then { s with minTtl := min s.minTtl ttl, maxTtl := max s.maxTtl ttl } else s

def markPartitionLevelDeletion (s : StatisticsMetadata) : StatisticsMetadata :=
  { s with hasPartitionLevelDeletions := true }

end StatisticsMetadata

open StatisticsMetadata

/-! ### The fold -/

def foldOperationStats (now : Int) (m : Mutation) (stats : StatisticsMetadata) :
    CellOperation → StatisticsMetadata
  | .writeWithTtl _ _ ttlSeconds localDeletionTime =>
    (stats.updateTtl (asI32 ttlSeconds)).updateLocalDeletionTime
      (localDeletionTime.getD (expiringLocalDeletionTime (asI32 now) ttlSeconds))
  | .delete column localDeletionTime =>
    stats.updateLocalDeletionTime
      (CellOperation.cellLocalDeletionTime (.delete column localDeletionTime) m)
  | .deleteRow => stats.updateLocalDeletionTime (CellOperation.cellLocalDeletionTime .deleteRow m)
  | .complexDeletion _ markedForDeleteAt localDeletionTime =>
    (stats.updateTimestamp markedForDeleteAt).updateLocalDeletionTime localDeletionTime
  | .writeComplexElement _ _ _ timestampMicros ttlSeconds localDeletionTime isDeleted =>
    let stats := stats.updateTimestamp timestampMicros
    let stats := match ttlSeconds with
      | some ttl => stats.updateTtl (asI32 ttl)
      | none => stats
    let stats := match localDeletionTime with
      | some ldt => stats.updateLocalDeletionTime ldt
      | none => stats
    if !isDeleted && ttlSeconds.isNone && localDeletionTime.isNone then
      stats.noteLiveLocalDeletionTime
    else stats
  | .write _ value =>
    if m.ttlSeconds.isNone && !value.isNull then stats.noteLiveLocalDeletionTime else stats

def foldMutationStats (now : Int) (stats : StatisticsMetadata) (m : Mutation) :
    StatisticsMetadata :=
  let stats := stats.updateTimestamp m.timestampMicros
  let stats := match m.cellWriteTimestamps with
    | some cellTs => cellTs.foldl (fun stats ts => stats.updateTimestamp ts.2) stats
    | none => stats
  let stats := match m.ttlSeconds with
    | some ttl => (stats.updateTtl (asI32 ttl)).updateLocalDeletionTime (expiringLocalDeletionTime (asI32 now) ttl)
    | none => stats
  let stats := m.operations.foldl (foldOperationStats now m) stats
  let stats := match m.partitionTombstone with
    | some pt => ((stats.updateTimestamp pt.deletionTime).updateLocalDeletionTime
        pt.localDeletionTime).markPartitionLevelDeletion
    | none => stats
  let stats := m.rangeTombstones.foldl (fun stats rt =>
    (stats.updateTimestamp rt.deletionTime).updateLocalDeletionTime rt.localDeletionTime) stats
  match m.rowTombstone with
  | some (deletionTime, ldt) =>
    (stats.updateTimestamp deletionTime).updateLocalDeletionTime ldt
  | none => stats

def mergeStatsFold (into source : StatisticsMetadata) : StatisticsMetadata :=
  let into := into.updateTimestamp source.minTimestamp
  let into := into.updateTimestamp source.maxTimestamp
  let into := into.updateLocalDeletionTime source.minLocalDeletionTime
  let into := if i32Min < source.maxLocalDeletionTime then
      into.updateLocalDeletionTime source.maxLocalDeletionTime
    else into
  let into := if source.maxLocalDeletionTime = i32Max then into.noteLiveLocalDeletionTime else into
  let into := if source.minTtl ≠ i32Max then into.updateTtl source.minTtl else into
  let into := into.updateTtl source.maxTtl
  if source.hasPartitionLevelDeletions then into.markPartitionLevelDeletion else into

/-- All mutations folded into one record. -/
def foldDirectly (now : Int) (mutations : List Mutation) : StatisticsMetadata :=
  mutations.foldl (foldMutationStats now) new

/-- Every partition folded into a fresh record that is merged into the running one. -/
def foldByPartition (now : Int) (partitions : List (List Mutation)) : StatisticsMetadata :=
  partitions.foldl (fun stats p => mergeStatsFold stats (foldDirectly now p)) new

/-! ### What a mutation is seen to do -/

/-- One call of a chokepoint. -/
inductive Note
  | timestamp (t : Int)
  | localDeletionTime (ldt : Int)
  | live
  | ttl (n : Int)
  | partitionLevelDeletion
  deriving DecidableEq

def StatisticsMetadata.apply (s : StatisticsMetadata) : Note → StatisticsMetadata
  | .timestamp t => s.updateTimestamp t
  | .localDeletionTime ldt => s.updateLocalDeletionTime ldt
  | .live => s.noteLiveLocalDeletionTime
  | .ttl n => s.updateTtl n
  | .partitionLevelDeletion => s.markPartitionLevelDeletion

/-- The calls for one operation. -/
def operationNotes (now : Int) (m : Mutation) : CellOperation → List Note
  | .writeWithTtl _ _ ttlSeconds localDeletionTime =>
    [.ttl (asI32 ttlSeconds), .localDeletionTime (localDeletionTime.getD (expiringLocalDeletionTime (asI32 now) ttlSeconds))]
  | .delete column localDeletionTime =>
    [.localDeletionTime (CellOperation.cellLocalDeletionTime (.delete column localDeletionTime) m)]
  | .deleteRow => [.localDeletionTime (CellOperation.cellLocalDeletionTime .deleteRow m)]
  | .complexDeletion _ markedForDeleteAt localDeletionTime =>
    [.timestamp markedForDeleteAt, .localDeletionTime localDeletionTime]
  | .writeComplexElement _ _ _ timestampMicros ttlSeconds localDeletionTime isDeleted =>
    .timestamp timestampMicros :: ((ttlSeconds.map (.ttl ∘ asI32)).toList ++
      (localDeletionTime.map .localDeletionTime).toList ++
      if !isDeleted && ttlSeconds.isNone && localDeletionTime.isNone then [.live] else [])
  | .write _ value => if m.ttlSeconds.isNone && !value.isNull then [.live] else []

/-- The calls for one mutation. -/
def mutationNotes (now : Int) (m : Mutation) : List Note :=
  .timestamp m.timestampMicros ::
    (((m.cellWriteTimestamps.getD []).map fun ts => .timestamp ts.2) ++
    (m.ttlSeconds.toList.flatMap fun ttl =>
      [.ttl (asI32 ttl), .localDeletionTime (expiringLocalDeletionTime (asI32 now) ttl)]) ++
    m.operations.flatMap (operationNotes now m) ++
    (m.partitionTombstone.toList.flatMap fun pt =>
      [.timestamp pt.deletionTime, .localDeletionTime pt.localDeletionTime,
        .partitionLevelDeletion]) ++
    (m.rangeTombstones.flatMap fun rt =>
      [.timestamp rt.deletionTime, .localDeletionTime rt.localDeletionTime]) ++
    m.rowTombstone.toList.flatMap fun d => [.timestamp d.1, .localDeletionTime d.2])

theorem foldOperationStats_eq (now : Int) (m : Mutation) (s : StatisticsMetadata)
    (op : CellOperation) :
    foldOperationStats now m s op = (operationNotes now m op).foldl apply s := by
  cases op with
  | writeWithTtl _ _ _ _ => rfl
  | delete _ _ => rfl
  | deleteRow => rfl
  | complexDeletion _ _ _ => rfl
  | writeComplexElement _ _ _ _ ttl ldt deleted =>
    cases ttl <;> cases ldt <;> cases deleted <;> rfl
  | write _ value =>
    rw [foldOperationStats, operationNotes]
    split <;> rfl

theorem foldMutationStats_eq (now : Int) (s : StatisticsMetadata) (m : Mutation) :
    foldMutationStats now s m = (mutationNotes now m).foldl apply s := by
  have hops : foldOperationStats now m = fun s op => (operationNotes now m op).foldl apply s :=
    funext fun s => funext fun op => foldOperationStats_eq now m s op
  simp only [foldMutationStats, mutationNotes, List.foldl_cons, List.foldl_append,
    List.foldl_flatMap, List.foldl_map, hops]
  cases m.cellWriteTimestamps <;> cases m.ttlSeconds <;> cases m.partitionTombstone <;>
    cases m.rowTombstone <;> rfl

/-- The calls for a list of mutations. -/
def allNotes (now : Int) (mutations : List Mutation) : List Note :=
  mutations.flatMap (mutationNotes now)

theorem foldDirectly_eq (now : Int) (mutations : List Mutation) :
    foldDirectly now mutations = (allNotes now mutations).foldl apply new := by
  rw [foldDirectly, allNotes, List.foldl_flatMap]
  congr 1
  funext s m
  exact foldMutationStats_eq now s m

/-! ### What a run of calls leaves -/

/-- The timestamps that count. -/
def times (notes : List Note) : List Int :=
  notes.filterMap fun
    | .timestamp t => if isLiveTimestamp t then none else some t
    | _ => none

/-- The deletion times that count. -/
def drops (notes : List Note) : List Int :=
  notes.filterMap fun
    | .localDeletionTime ldt => if isLiveLocalDeletionTime ldt then none else some ldt
    | _ => none

/-- The TTLs that count. -/
def ttls (notes : List Note) : List Int :=
  notes.filterMap fun
    | .ttl n => if 0 < n then some n else none
    | _ => none

/-- A live cell was seen. -/
def seenLive (notes : List Note) : Bool := notes.contains .live

/-- A partition deletion was seen. -/
def seenPartitionDeletion (notes : List Note) : Bool := notes.contains .partitionLevelDeletion

/-- What raises the greatest deletion time. -/
def ceilings (notes : List Note) : List Int :=
  drops notes ++ if seenLive notes then [i32Max] else []

/-- A call with a number of the machine type of its field. -/
def Note.InRange : Note → Prop
  | .timestamp t => i64Min ≤ t ∧ t ≤ i64Max
  | .localDeletionTime ldt => i32Min ≤ ldt ∧ ldt ≤ i32Max
  | .ttl n => n ≤ i32Max
  | _ => True

instance : ∀ note : Note, Decidable note.InRange
  | .timestamp _ => inferInstanceAs (Decidable (_ ∧ _))
  | .localDeletionTime _ => inferInstanceAs (Decidable (_ ∧ _))
  | .live => inferInstanceAs (Decidable True)
  | .ttl n => inferInstanceAs (Decidable (n ≤ i32Max))
  | .partitionLevelDeletion => inferInstanceAs (Decidable True)

def NotesInRange (notes : List Note) : Prop := ∀ note ∈ notes, note.InRange

instance (notes : List Note) : Decidable (NotesInRange notes) :=
  inferInstanceAs (Decidable (∀ note ∈ notes, note.InRange))

variable {notes : List Note}

theorem drops_le (h : NotesInRange notes) : ∀ ldt ∈ drops notes, i32Min ≤ ldt ∧ ldt < i32Max := by
  intro ldt hldt
  obtain ⟨note, hnote, hsome⟩ := List.mem_filterMap.mp hldt
  cases note with
  | localDeletionTime l =>
    simp only [isLiveLocalDeletionTime, decide_eq_true_eq, Option.ite_none_left_eq_some,
      Option.some.injEq] at hsome
    obtain ⟨hne, rfl⟩ := hsome
    obtain ⟨hlow, hhigh⟩ := h _ hnote
    exact ⟨hlow, lt_of_le_of_ne hhigh hne⟩
  | _ => simp at hsome

variable {s : StatisticsMetadata}

/-- The fold as minima, maxima and counts. -/
theorem foldl_apply {notes : List Note} (h : NotesInRange notes)
    (hs : s.maxLocalDeletionTime ≤ i32Max) :
    notes.foldl apply s =
      { minTimestamp := (times notes).foldl min s.minTimestamp
        maxTimestamp := (times notes).foldl max s.maxTimestamp
        minLocalDeletionTime := (drops notes).foldl min s.minLocalDeletionTime
        maxLocalDeletionTime := (ceilings notes).foldl max s.maxLocalDeletionTime
        minTtl := (ttls notes).foldl min s.minTtl
        maxTtl := (ttls notes).foldl max s.maxTtl
        dropTimes := s.dropTimes ++ drops notes
        hasPartitionLevelDeletions :=
          s.hasPartitionLevelDeletions || seenPartitionDeletion notes } := by
  induction notes using List.reverseRecOn with
  | nil => simp [times, drops, ttls, ceilings, seenLive, seenPartitionDeletion]
  | append_singleton notes note ih =>
    obtain ⟨hnotes, hnote⟩ := List.forall_mem_append.mp h
    rw [List.foldl_append, ih hnotes, List.foldl_cons, List.foldl_nil]
    cases note with
    | timestamp t =>
      cases ht : isLiveTimestamp t <;>
        simp [apply, updateTimestamp, times, drops, ttls, ceilings, seenLive,
          seenPartitionDeletion, ht]
    | localDeletionTime ldt =>
      cases hldt : isLiveLocalDeletionTime ldt <;> cases hlive : seenLive notes <;>
        simp_all [apply, updateLocalDeletionTime, times, drops, ttls, ceilings, seenLive,
          seenPartitionDeletion, max_right_comm]
    | live =>
      simp [apply, noteLiveLocalDeletionTime, times, drops, ttls, ceilings, seenLive,
        seenPartitionDeletion]
      exact Bounds.foldl_max_of_forall (P := (· ≤ i32Max)) hs fun x hx => (drops_le hnotes x hx).2.le
    | ttl n =>
      by_cases hn : 0 < n <;>
        simp [apply, updateTtl, times, drops, ttls, ceilings, seenLive, seenPartitionDeletion, hn]
    | partitionLevelDeletion =>
      simp [apply, markPartitionLevelDeletion, times, drops, ttls, ceilings, seenLive,
        seenPartitionDeletion]

/-! ### Merging -/

/-- Numbers that a running record can hold. -/
structure Bounded (s : StatisticsMetadata) : Prop where
  minTimestamp : s.minTimestamp ≤ i64Max
  maxTimestamp : i64Min ≤ s.maxTimestamp
  minLocal : s.minLocalDeletionTime ≤ i32Max
  maxLocalLow : i32Min ≤ s.maxLocalDeletionTime
  maxLocalHigh : s.maxLocalDeletionTime ≤ i32Max
  minTtl : s.minTtl ≤ i32Max
  maxTtl : 0 ≤ s.maxTtl

theorem bounded_new : Bounded new := by
  constructor <;> decide

variable {xs : List Int}

theorem feed_timestamps (hxs : ∀ x ∈ xs, i64Min < x ∧ x < i64Max) (hmin : s.minTimestamp ≤ i64Max)
    (hmax : i64Min ≤ s.maxTimestamp) :
    (s.updateTimestamp (xs.foldl min i64Max)).updateTimestamp (xs.foldl max i64Min) =
      { s with
        minTimestamp := xs.foldl min s.minTimestamp
        maxTimestamp := xs.foldl max s.maxTimestamp } := by
  by_cases hne : xs = []
  · subst hne
    rfl
  · obtain ⟨lo, hlo, hi, hhi, hle, htop, hbot, hmins, hmaxs⟩ := Bounds.exists_extremes hne
      (fun x hx => (hxs x hx).1.le) fun x hx => (hxs x hx).2.le
    rw [htop, hbot, hmins _ hmin, hmaxs _ hmax]
    have hreal : ∀ {x : Int}, i64Min < x ∧ x < i64Max → ∀ t : StatisticsMetadata,
        t.updateTimestamp x = { t with
          minTimestamp := min t.minTimestamp x
          maxTimestamp := max t.maxTimestamp x } :=
      fun hx t => by rw [updateTimestamp, if_neg (by simp [isLiveTimestamp, hx.1.ne', hx.2.ne])]
    rw [hreal (hxs lo hlo), hreal (hxs hi hhi)]
    simp [min_assoc, max_assoc, min_eq_left hle, max_eq_right hle]

/-- The deletion times that are fed for those of a partition. -/
def refed (xs : List Int) (live : Bool) : List Int :=
  if xs = [] then []
  else xs.foldl min i32Max ::
    if live || decide (xs.foldl max i32Min = i32Min) then [] else [xs.foldl max i32Min]

/-- The local deletion times of a record, fed back. -/
def feedDeletionTimes (into : StatisticsMetadata) (lo hi : Int) : StatisticsMetadata :=
  let into := into.updateLocalDeletionTime lo
  let into := if i32Min < hi then into.updateLocalDeletionTime hi else into
  if hi = i32Max then into.noteLiveLocalDeletionTime else into

/-- The TTLs of a record, fed back. -/
def feedTtls (into : StatisticsMetadata) (lo hi : Int) : StatisticsMetadata :=
  let into := if lo ≠ i32Max then into.updateTtl lo else into
  into.updateTtl hi

/-- The deletion flag of a record, fed back. -/
def feedFlag (into : StatisticsMetadata) (flag : Bool) : StatisticsMetadata :=
  if flag then into.markPartitionLevelDeletion else into

theorem mergeStatsFold_mk (into : StatisticsMetadata) (a b c d e f : Int) (g : List Int)
    (k : Bool) : mergeStatsFold into ⟨a, b, c, d, e, f, g, k⟩ =
      feedFlag (feedTtls (feedDeletionTimes ((into.updateTimestamp a).updateTimestamp b) c d) e f) k :=
  rfl

theorem updateLocalDeletionTime_real {x : Int} (hx : x < i32Max) (s : StatisticsMetadata) :
    s.updateLocalDeletionTime x = { s with
      minLocalDeletionTime := min s.minLocalDeletionTime x
      maxLocalDeletionTime := max s.maxLocalDeletionTime x
      dropTimes := s.dropTimes ++ [x] } := by
  rw [updateLocalDeletionTime, if_neg (by simp [isLiveLocalDeletionTime, hx.ne])]

/-- The deletion times of a record without a live cell are fed as their extremes. -/
theorem feed_deletionTimes_dead (hxs : ∀ x ∈ xs, i32Min ≤ x ∧ x < i32Max)
    (hmin : s.minLocalDeletionTime ≤ i32Max) (hmax : i32Min ≤ s.maxLocalDeletionTime) :
    feedDeletionTimes s (xs.foldl min i32Max) (xs.foldl max i32Min) =
      { s with
        minLocalDeletionTime := xs.foldl min s.minLocalDeletionTime
        maxLocalDeletionTime := xs.foldl max s.maxLocalDeletionTime
        dropTimes := s.dropTimes ++ refed xs false } := by
  by_cases hne : xs = []
  · subst hne
    simp [feedDeletionTimes, updateLocalDeletionTime, isLiveLocalDeletionTime, refed, i32Min,
      i32Max]
  · obtain ⟨lo, hlo, hi, hhi, hle, htop, hbot, hmins, hmaxs⟩ := Bounds.exists_extremes hne
      (fun x hx => (hxs x hx).1) fun x hx => (hxs x hx).2.le
    have hlo := hxs lo hlo
    have hhi := hxs hi hhi
    rw [refed, if_neg hne, htop, hbot, hmins _ hmin, hmaxs _ hmax]
    simp only [feedDeletionTimes]
    rw [if_neg hhi.2.ne, updateLocalDeletionTime_real hlo.2]
    by_cases hleast : i32Min < hi
    · rw [if_pos hleast, updateLocalDeletionTime_real hhi.2]
      simp [min_assoc, max_assoc, min_eq_left hle, max_eq_right hle, hleast.ne']
    · -- the least time there is is not fed a second time
      have hhimin : hi = i32Min := le_antisymm (not_lt.mp hleast) hhi.1
      have hlomin : lo = i32Min := le_antisymm (hhimin ▸ hle) hlo.1
      rw [if_neg hleast]
      simp [hhimin, hlomin]

theorem feed_deletionTimes_live (hxs : ∀ x ∈ xs, i32Min ≤ x ∧ x < i32Max)
    (hmin : s.minLocalDeletionTime ≤ i32Max) (hmax : s.maxLocalDeletionTime ≤ i32Max) :
    feedDeletionTimes s (xs.foldl min i32Max) i32Max =
      { s with
        minLocalDeletionTime := xs.foldl min s.minLocalDeletionTime
        maxLocalDeletionTime := max (xs.foldl max s.maxLocalDeletionTime) i32Max
        dropTimes := s.dropTimes ++ refed xs true } := by
  have hceiling : max (xs.foldl max s.maxLocalDeletionTime) i32Max = i32Max := by
    refine max_eq_right (Bounds.foldl_max_of_forall (P := (· ≤ i32Max)) hmax ?_)
    exact fun x hx => (hxs x hx).2.le
  have hsentinel : ∀ t : StatisticsMetadata, t.updateLocalDeletionTime i32Max = t := fun _ => rfl
  simp only [feedDeletionTimes]
  rw [hceiling, if_pos (by decide : i32Min < i32Max), if_true, hsentinel]
  by_cases hne : xs = []
  · subst hne
    simp [updateLocalDeletionTime, isLiveLocalDeletionTime, noteLiveLocalDeletionTime, refed]
  · have hlo := hxs _ (Bounds.foldl_min_mem hne fun x hx => (hxs x hx).2.le)
    rw [updateLocalDeletionTime_real hlo.2, noteLiveLocalDeletionTime, refed, if_neg hne,
      Bounds.foldl_min_apart hmin]
    simp

/-- The TTLs of a record are fed as their extremes. -/
theorem feed_ttls (hxs : ∀ x ∈ xs, 0 < x ∧ x ≤ i32Max) (hmin : s.minTtl ≤ i32Max)
    (hmax : 0 ≤ s.maxTtl) :
    feedTtls s (xs.foldl min i32Max) (xs.foldl max 0) =
      { s with minTtl := xs.foldl min s.minTtl, maxTtl := xs.foldl max s.maxTtl } := by
  rw [feedTtls]
  by_cases hne : xs = []
  · subst hne
    simp [updateTtl]
  · obtain ⟨lo, hlo, hi, hhi, hle, htop, hbot, hmins, hmaxs⟩ := Bounds.exists_extremes hne
      (fun x hx => (hxs x hx).1.le) fun x hx => (hxs x hx).2
    have hlo := hxs lo hlo
    have hhi := hxs hi hhi
    rw [htop, hbot, hmins _ hmin, hmaxs _ hmax]
    have hreal : ∀ {x : Int}, 0 < x → ∀ t : StatisticsMetadata,
        t.updateTtl x = { t with minTtl := min t.minTtl x, maxTtl := max t.maxTtl x } :=
      fun hx t => by rw [updateTtl, if_pos hx]
    by_cases htop : lo = i32Max
    · have hhitop : hi = i32Max := le_antisymm hhi.2 (htop ▸ hle)
      rw [if_neg (by simpa using htop), hreal hhi.1, htop, hhitop]
    · rw [if_pos htop, hreal hlo.1, hreal hhi.1]
      simp [min_assoc, max_assoc, min_eq_left hle, max_eq_right hle]

theorem times_real (h : NotesInRange notes) : ∀ t ∈ times notes, i64Min < t ∧ t < i64Max := by
  intro t ht
  obtain ⟨note, hnote, hsome⟩ := List.mem_filterMap.mp ht
  cases note with
  | timestamp u =>
    simp only [isLiveTimestamp, Bool.or_eq_true, decide_eq_true_eq, not_or,
      Option.ite_none_left_eq_some, Option.some.injEq] at hsome
    obtain ⟨⟨hmin, hmax⟩, rfl⟩ := hsome
    obtain ⟨hlow, hhigh⟩ := h _ hnote
    exact ⟨lt_of_le_of_ne hlow (Ne.symm hmin), lt_of_le_of_ne hhigh hmax⟩
  | _ => simp at hsome

theorem ttls_real (h : NotesInRange notes) : ∀ n ∈ ttls notes, 0 < n ∧ n ≤ i32Max := by
  intro n hn
  obtain ⟨note, hnote, hsome⟩ := List.mem_filterMap.mp hn
  cases note with
  | ttl k =>
    simp only [Option.ite_none_right_eq_some, Option.some.injEq] at hsome
    obtain ⟨hpos, rfl⟩ := hsome
    exact ⟨hpos, h _ hnote⟩
  | _ => simp at hsome

/-- Merging the record of a partition is folding its mutations, but for the drop times. -/
theorem mergeStatsFold_notes {notes : List Note} (h : NotesInRange notes) (hs : Bounded s) :
    mergeStatsFold s (notes.foldl apply new) =
      { notes.foldl apply s with
        dropTimes := s.dropTimes ++ refed (drops notes) (seenLive notes) } := by
  have hdrops := drops_le h
  rw [foldl_apply h hs.maxLocalHigh, foldl_apply h (by decide : new.maxLocalDeletionTime ≤ i32Max),
    mergeStatsFold_mk]
  change feedFlag (feedTtls (feedDeletionTimes ((s.updateTimestamp
      ((times notes).foldl min i64Max)).updateTimestamp ((times notes).foldl max i64Min))
      ((drops notes).foldl min i32Max) ((ceilings notes).foldl max i32Min))
      ((ttls notes).foldl min i32Max) ((ttls notes).foldl max 0)) (seenPartitionDeletion notes) = _
  rw [feed_timestamps (times_real h) hs.minTimestamp hs.maxTimestamp]
  cases hlive : seenLive notes with
  | false =>
    have hceilings : ceilings notes = drops notes := by rw [ceilings, hlive]; simp
    rw [hceilings, feed_deletionTimes_dead hdrops (by exact hs.minLocal) (by exact hs.maxLocalLow),
      feed_ttls (ttls_real h) (by exact hs.minTtl) (by exact hs.maxTtl)]
    cases seenPartitionDeletion notes <;> simp [feedFlag, markPartitionLevelDeletion]
  | true =>
    have hceilings : ∀ a, (ceilings notes).foldl max a = max ((drops notes).foldl max a) i32Max := by
      intro a
      rw [ceilings, hlive, if_pos rfl, List.foldl_append]
      rfl
    have htop : max ((drops notes).foldl max i32Min) i32Max = i32Max :=
      max_eq_right (Bounds.foldl_max_of_forall (P := (· ≤ i32Max)) (by decide)
        fun x hx => (hdrops x hx).2.le)
    rw [hceilings, hceilings, htop,
      feed_deletionTimes_live hdrops (by exact hs.minLocal) (by exact hs.maxLocalHigh),
      feed_ttls (ttls_real h) (by exact hs.minTtl) (by exact hs.maxTtl)]
    cases seenPartitionDeletion notes <;> simp [feedFlag, markPartitionLevelDeletion]

theorem bounded_foldl_apply (h : NotesInRange notes) (hs : Bounded s) :
    Bounded (notes.foldl apply s) := by
  rw [foldl_apply h hs.maxLocalHigh]
  refine ⟨(Bounds.foldl_min_le _ _).1.trans hs.minTimestamp,
    hs.maxTimestamp.trans (Bounds.le_foldl_max _ _).1,
    (Bounds.foldl_min_le _ _).1.trans hs.minLocal,
    hs.maxLocalLow.trans (Bounds.le_foldl_max _ _).1, ?_,
    (Bounds.foldl_min_le _ _).1.trans hs.minTtl, hs.maxTtl.trans (Bounds.le_foldl_max _ _).1⟩
  change (ceilings notes).foldl max s.maxLocalDeletionTime ≤ i32Max
  refine Bounds.foldl_max_of_forall (P := (· ≤ i32Max)) hs.maxLocalHigh fun x hx => ?_
  rcases List.mem_append.mp hx with hdrop | hlive
  · exact (drops_le h _ hdrop).2.le
  · split at hlive
    · exact (List.mem_singleton.mp hlive).le
    · cases hlive

/-! ### Whole runs -/

/-- The deletion times that a list of mutations is seen with. -/
def deletionTimes (now : Int) (mutations : List Mutation) : List Int :=
  drops (allNotes now mutations)

/-- The deletion times that a merge feeds for a partition: the least, and the greatest unless the
    partition has a live cell or the greatest is the least there is. -/
def extremeTimes (now : Int) (mutations : List Mutation) : List Int :=
  refed (deletionTimes now mutations) (seenLive (allNotes now mutations))

theorem notesInRange_flatten {now : Int} {ps : List (List Mutation)}
    (h : ∀ p ∈ ps, NotesInRange (allNotes now p)) : NotesInRange (allNotes now ps.flatten) := by
  intro note hnote
  obtain ⟨m, hm, hmem⟩ := List.mem_flatMap.mp hnote
  obtain ⟨q, hq, hmq⟩ := List.mem_flatten.mp hm
  exact h q hq note (List.mem_flatMap.mpr ⟨m, hmq, hmem⟩)

/-- Folding by partition differs in the drop times only. -/
theorem foldByPartition_eq (now : Int) {partitions : List (List Mutation)}
    (h : ∀ p ∈ partitions, NotesInRange (allNotes now p)) :
    foldByPartition now partitions =
      { foldDirectly now partitions.flatten with
        dropTimes := partitions.flatMap (extremeTimes now) } := by
  induction partitions using List.reverseRecOn with
  | nil => rfl
  | append_singleton partitions p ih =>
    obtain ⟨hfront, hp⟩ := List.forall_mem_append.mp h
    have hlast : NotesInRange (allNotes now p) := hp p (by simp)
    have hbounded : Bounded (foldDirectly now partitions.flatten) := by
      rw [foldDirectly_eq]
      exact bounded_foldl_apply (notesInRange_flatten hfront) bounded_new
    have hrunning : Bounded { foldDirectly now partitions.flatten with
        dropTimes := partitions.flatMap (extremeTimes now) } :=
      ⟨hbounded.1, hbounded.2, hbounded.3, hbounded.4, hbounded.5, hbounded.6, hbounded.7⟩
    rw [foldByPartition, List.foldl_append, ← foldByPartition, ih hfront, List.foldl_cons,
      List.foldl_nil, foldDirectly_eq now p, mergeStatsFold_notes hlast hrunning,
      foldl_apply hlast hrunning.maxLocalHigh]
    have hboth : foldDirectly now (partitions ++ [p]).flatten =
        (allNotes now p).foldl apply (foldDirectly now partitions.flatten) := by
      rw [foldDirectly_eq, foldDirectly_eq, List.flatten_append, List.flatten_singleton, allNotes,
        List.flatMap_append, List.foldl_append]
      rfl
    rw [hboth, foldl_apply hlast hbounded.maxLocalHigh, List.flatMap_append,
      List.flatMap_singleton]
    rfl

/-- Equal figures: the ranges and the deletion flag. -/
structure SameFigures (s t : StatisticsMetadata) : Prop where
  minTimestamp : s.minTimestamp = t.minTimestamp
  maxTimestamp : s.maxTimestamp = t.maxTimestamp
  minLocal : s.minLocalDeletionTime = t.minLocalDeletionTime
  maxLocal : s.maxLocalDeletionTime = t.maxLocalDeletionTime
  minTtl : s.minTtl = t.minTtl
  maxTtl : s.maxTtl = t.maxTtl
  deletions : s.hasPartitionLevelDeletions = t.hasPartitionLevelDeletions

theorem ceilings_perm {notes' : List Note} (h : notes.Perm notes') :
    (ceilings notes).Perm (ceilings notes') := by
  have hlive : seenLive notes = seenLive notes' := by
    rw [Bool.eq_iff_iff, seenLive, seenLive, List.contains_iff_mem, List.contains_iff_mem, h.mem_iff]
  rw [ceilings, ceilings, hlive]
  exact (h.filterMap _).append_right _

theorem foldDirectly_perm (now : Int) {ms ms' : List Mutation} (h : ms.Perm ms')
    (hrange : NotesInRange (allNotes now ms)) :
    SameFigures (foldDirectly now ms) (foldDirectly now ms') ∧
      (deletionTimes now ms).Perm (deletionTimes now ms') := by
  have hnotes : (allNotes now ms).Perm (allNotes now ms') := h.flatMap_right _
  have hrange' : NotesInRange (allNotes now ms') := fun note hnote =>
    hrange note (hnotes.mem_iff.mpr hnote)
  have htimes : (times (allNotes now ms)).Perm (times (allNotes now ms')) := hnotes.filterMap _
  have hdrops : (drops (allNotes now ms)).Perm (drops (allNotes now ms')) := hnotes.filterMap _
  have httls : (ttls (allNotes now ms)).Perm (ttls (allNotes now ms')) := hnotes.filterMap _
  refine ⟨?_, hdrops⟩
  rw [foldDirectly_eq, foldDirectly_eq, foldl_apply hrange (by decide),
    foldl_apply hrange' (by decide)]
  refine ⟨Bounds.foldl_min_perm htimes _, Bounds.foldl_max_perm htimes _,
    Bounds.foldl_min_perm hdrops _, Bounds.foldl_max_perm (ceilings_perm hnotes) _,
    Bounds.foldl_min_perm httls _, Bounds.foldl_max_perm httls _, ?_⟩
  simp only [seenPartitionDeletion]
  rw [Bool.eq_iff_iff]
  simp [hnotes.mem_iff]

theorem refed_perm {xs ys : List Int} (h : xs.Perm ys) (live : Bool) :
    refed xs live = refed ys live := by
  have hnil : xs = [] ↔ ys = [] := by rw [← List.length_eq_zero_iff, h.length_eq,
    List.length_eq_zero_iff]
  rw [refed, refed, Bounds.foldl_min_perm h, Bounds.foldl_max_perm h]
  simp only [hnil]

theorem extremeTimes_perm (now : Int) {p q : List Mutation} (h : p.Perm q) :
    extremeTimes now p = extremeTimes now q := by
  have hnotes : (allNotes now p).Perm (allNotes now q) := h.flatMap_right _
  have hlive : seenLive (allNotes now p) = seenLive (allNotes now q) := by
    rw [Bool.eq_iff_iff, seenLive, seenLive, List.contains_iff_mem, List.contains_iff_mem,
      hnotes.mem_iff]
  rw [extremeTimes, extremeTimes, hlive]
  exact refed_perm (hnotes.filterMap _) _

/-- What is fed for a partition are some of its deletion times, and at most twice as many. -/
theorem extremeTimes_subset (now : Int) {p : List Mutation} (h : NotesInRange (allNotes now p)) :
    extremeTimes now p ⊆ deletionTimes now p ∧
      (extremeTimes now p).length ≤ 2 * (deletionTimes now p).length := by
  have hdrops := drops_le h
  rw [extremeTimes, refed]
  split
  · exact ⟨List.nil_subset _, Nat.zero_le _⟩
  · rename_i hne
    have hlo := Bounds.foldl_min_mem hne fun x hx => (hdrops x hx).2.le
    have hhi := Bounds.foldl_max_mem hne fun x hx => (hdrops x hx).1
    have hpos : 0 < (deletionTimes now p).length := List.length_pos_iff.mpr hne
    constructor
    · refine List.cons_subset.mpr ⟨hlo, ?_⟩
      split
      · exact List.nil_subset _
      · exact List.cons_subset.mpr ⟨hhi, List.nil_subset _⟩
    · split <;> simp <;> omega

theorem dropTimes_foldDirectly (now : Int) {ms : List Mutation}
    (h : NotesInRange (allNotes now ms)) :
    (foldDirectly now ms).dropTimes = deletionTimes now ms := by
  rw [foldDirectly_eq, foldl_apply h (by decide)]
  rfl

theorem deletionTimes_flatten (now : Int) (ps : List (List Mutation)) :
    deletionTimes now ps.flatten = ps.flatMap (deletionTimes now) := by
  induction ps with
  | nil => rfl
  | cons p ps ih =>
    rw [List.flatten_cons, List.flatMap_cons, ← ih, deletionTimes, allNotes, List.flatMap_append,
      drops, List.filterMap_append]
    rfl

theorem flatMap_extremeTimes_perm (now : Int) {orders partitions : List (List Mutation)}
    (h : List.Forall₂ List.Perm orders partitions) :
    orders.flatMap (extremeTimes now) = partitions.flatMap (extremeTimes now) := by
  induction h with
  | nil => rfl
  | cons hp _ ih => rw [List.flatMap_cons, List.flatMap_cons, extremeTimes_perm now hp, ih]

theorem notesInRange_orders (now : Int) {orders partitions : List (List Mutation)}
    (h : List.Forall₂ List.Perm orders partitions)
    (hrange : ∀ p ∈ partitions, NotesInRange (allNotes now p)) :
    ∀ p ∈ orders, NotesInRange (allNotes now p) := by
  induction h with
  | nil => simp
  | @cons p q _ _ hp _ ih =>
    refine List.forall_mem_cons.mpr ⟨fun note hnote => hrange q (by simp) note ?_,
      ih fun p hp => hrange p (by simp [hp])⟩
    exact (hp.flatMap_right _).mem_iff.mp hnote

theorem length_flatMap_extremeTimes (now : Int) (partitions : List (List Mutation))
    (h : ∀ p ∈ partitions, NotesInRange (allNotes now p)) :
    (partitions.flatMap (extremeTimes now)).length ≤
      2 * (partitions.flatMap (deletionTimes now)).length := by
  induction partitions with
  | nil => simp
  | cons p ps ih =>
    have hp := (extremeTimes_subset now (h p (by simp))).2
    have hps := ih fun q hq => h q (by simp [hq])
    rw [List.flatMap_cons, List.flatMap_cons, List.length_append, List.length_append]
    omega

/-- Equal figures, and a histogram over equally many observations of every deletion time. -/
def SameStatistics (s t : StatisticsMetadata) : Prop :=
  SameFigures s t ∧ s.dropTimes.Perm t.dropTimes

/-- Folding partition by partition, in any order within each, always gives the figures of folding
    directly. It gives the same observations of drop times if and only if the deletion times of all
    partitions, with their multiplicity, are the least of each partition and, unless it has a live
    cell, the greatest. Up to a hundred different deletion times the same holds of the bins. -/
theorem statistics_same_iff (now : Int) (partitions orders : List (List Mutation))
    (horders : List.Forall₂ List.Perm orders partitions)
    (hrange : ∀ p ∈ partitions, NotesInRange (allNotes now p)) :
    SameFigures (foldByPartition now orders) (foldDirectly now partitions.flatten) ∧
      (SameStatistics (foldByPartition now orders) (foldDirectly now partitions.flatten) ↔
        (partitions.flatMap (extremeTimes now)).Perm (partitions.flatMap (deletionTimes now))) ∧
      ((partitions.flatMap (deletionTimes now)).dedup.length ≤ 100 →
        2 * (partitions.flatMap (deletionTimes now)).length ≤ i64Max →
        ((foldByPartition now orders).tombstoneHistogram =
            (foldDirectly now partitions.flatten).tombstoneHistogram ↔
          (partitions.flatMap (extremeTimes now)).Perm
            (partitions.flatMap (deletionTimes now)))) := by
  have horders' := notesInRange_orders now horders hrange
  have hmerged := foldByPartition_eq now horders'
  have hfigures : SameFigures (foldByPartition now orders) (foldDirectly now partitions.flatten) := by
    rw [hmerged]
    obtain ⟨h, -⟩ := foldDirectly_perm now (List.Perm.flatten_congr horders)
      (notesInRange_flatten horders')
    exact ⟨h.1, h.2, h.3, h.4, h.5, h.6, h.7⟩
  have hfed : (foldByPartition now orders).dropTimes = partitions.flatMap (extremeTimes now) := by
    rw [hmerged]
    exact flatMap_extremeTimes_perm now horders
  have hdirect : (foldDirectly now partitions.flatten).dropTimes =
      partitions.flatMap (deletionTimes now) := by
    rw [dropTimes_foldDirectly now (notesInRange_flatten hrange), deletionTimes_flatten]
  refine ⟨hfigures, ?_, fun hfew hcalls => ?_⟩
  · rw [SameStatistics, hfed, hdirect]
    exact and_iff_right hfigures
  · have hlen := length_flatMap_extremeTimes now partitions hrange
    rw [tombstoneHistogram, tombstoneHistogram, hfed, hdirect]
    refine TombstoneHistogram.recordAll_eq_iff ?_ hfew (by omega) (by omega)
    intro t ht
    obtain ⟨p, hp, hmem⟩ := List.mem_flatMap.mp ht
    exact List.mem_flatMap.mpr ⟨p, hp, (extremeTimes_subset now (hrange p hp)).1 hmem⟩

/-- The deletion of a row at a given second. -/
def deletionAt (seconds : Int) : Mutation :=
  (Mutation.new ⟨[("id", .integer 1)]⟩ none [.deleteRow] (seconds * 1000000) none)

/-- A partition with two deletions feeds both of them. -/
theorem two_deletions_fed :
    SameStatistics (foldByPartition 0 [[deletionAt 20, deletionAt 10]])
      (foldDirectly 0 [deletionAt 10, deletionAt 20]) :=
  (statistics_same_iff 0 [[deletionAt 10, deletionAt 20]] [[deletionAt 20, deletionAt 10]]
    (.cons (.swap _ _ _) .nil) (by decide)).2.1.mpr (by decide)

/-- The one deletion of a partition is recorded twice, the third one not at all. -/
theorem deletion_fed_twice :
    (foldByPartition 0 [[deletionAt 10]]).tombstoneHistogram = some [(10, 2)] ∧
      (foldDirectly 0 [deletionAt 10]).tombstoneHistogram = some [(10, 1)] ∧
      (foldByPartition 0 [[deletionAt 10, deletionAt 20, deletionAt 30]]).tombstoneHistogram =
        some [(10, 1), (30, 1)] ∧
      ¬ ∀ (now : Int) (partitions : List (List Mutation)),
        (∀ p ∈ partitions, NotesInRange (allNotes now p)) →
        SameStatistics (foldByPartition now partitions) (foldDirectly now partitions.flatten) := by
  refine ⟨by decide, by decide, by decide, fun h => ?_⟩
  have hperm := (h 0 [[deletionAt 10]] (by decide)).2
  exact absurd hperm.length_eq (by decide)

end Cqlite
