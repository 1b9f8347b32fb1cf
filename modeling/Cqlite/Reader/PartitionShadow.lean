import Cqlite.Merge.Shadow
import Cqlite.Reader.ClusteringPrefix

/-! Shadowing on the read path and on the merge path.

    A `SELECT` walks the rows and range markers of a partition with a state machine that remembers the
    open range (`row_decoder/partition_shadow.rs`). Compaction pairs the same markers into ranges
    (`row_decoder/compaction.rs`) and tests every row against them. The state machine also tests the
    row against the start of the open range, in the order of `Value::partial_cmp`: on a DESC column
    that order has NULL last, and the order of the partition has it first. -/

namespace Cqlite

/-! ### The reader's order of values -/

/-- `Display` for `Value`, as the bytes of the text. -/
class DisplayFmt where
  display : Value → Bytes

/-- `Display` on integers, which the concrete runs use. -/
instance (priority := low) integerDisplay : DisplayFmt where
  display
    | .integer n => (toString n).toUTF8.toList
    | _ => []

/-! ### Markers and rows -/

/-- A range-tombstone marker: the ordinal of its `ClusteringPrefix.Kind`, its prefix, its deletion
    (micros and GC-clock seconds) and, at a boundary, the deletion of the range it opens. -/
structure RangeMarker where
  boundKind : Nat
  values : List Value
  primary : Int × Int
  secondary : Option (Int × Int)

inductive Unfiltered
  | row (clustering : List Value)
  | marker (m : RangeMarker)

/-- The deletion of the range a boundary opens. -/
def RangeMarker.reopens (m : RangeMarker) : Int × Int := m.secondary.getD m.primary

/-- The fields of `RowHeader` that shadowing reads. -/
structure RowHeader where
  timestamp : Option Int
  livenessExpiresAtSeconds : Option Int
  maxDataCellTimestamp : Option Int
  maxDataCellExpiresAt : Option Int
  hasLiveForeverDataCell : Bool
  hasDeletedDataCell : Bool

namespace RowHeader

def maxWriteTimestamp (h : RowHeader) : Int :=
  let m := h.timestamp.getD i64Min
  match h.maxDataCellTimestamp with
  | none => m
  | some c => max m c

def hasShadowEvidence (maxWriteTs : Int) (hasDeletedDataCell : Bool) : Bool :=
  maxWriteTs != i64Min || hasDeletedDataCell

/-- The whole row is no newer than the deletion. -/
def shadowedByDeletionAt (h : RowHeader) (deletedAt : Int) : Bool :=
  hasShadowEvidence h.maxWriteTimestamp h.hasDeletedDataCell && h.maxWriteTimestamp ≤ deletedAt

def rowLivenessExpired (h : RowHeader) (now : Int) : Bool :=
  (h.livenessExpiresAtSeconds.isSome || h.maxDataCellExpiresAt.isSome) &&
    !h.hasLiveForeverDataCell &&
    !(h.timestamp.isSome && h.livenessExpiresAtSeconds.all (· > now)) &&
    !h.maxDataCellExpiresAt.any (· > now)

end RowHeader

/-! ### The read path -/

/-- `openRange` is the start bound of the open range, whether it is inclusive, and its deletion. -/
structure PartitionShadow where
  partitionDeletion : Option Int
  openRange : Option (List Value × Bool × Int)
  nowSecs : Int
  clusteringReversed : List Bool

def clusteringReversedFlags (schema : TableSchema) : List Bool :=
  schema.clusteringKeys.map fun c => c.order = .desc

namespace PartitionShadow

def opened (now : Int) (partitionDeletion : Option (Int × Int)) (reversed : List Bool) :
    PartitionShadow := ⟨partitionDeletion.map (·.1), none, now, reversed⟩

def feedRangeMarker (m : RangeMarker) (sh : PartitionShadow) : Except String PartitionShadow :=
  match m.boundKind with
  | 1 => .ok { sh with openRange := some (m.values, true, m.primary.1) }
  | 7 => .ok { sh with openRange := some (m.values, false, m.primary.1) }
  | 0 => .ok { sh with openRange := none }
  | 6 => .ok { sh with openRange := none }
  | 2 => .ok { sh with openRange := some (m.values, true, m.reopens.1) }
  | 5 => .ok { sh with openRange := some (m.values, false, m.reopens.1) }
  | unknown => .error ("read-shadow: unknown range tombstone bound kind " ++ toString unknown ++
      " — cannot represent faithfully (no-heuristics mandate, issue #28)")

section Order

variable [DisplayFmt]

/-- The components from the first one on; a row longer than the bound is after it. -/
def atOrAfterFrom (inclusive : Bool) : List Bool → List Value → List Value → Bool
  | _, [], [] => inclusive
  | _, _ :: _, [] => true
  | _, [], _ :: _ => false
  | reversed, a :: as, b :: bs =>
    let ord := Value.partialCmp DisplayFmt.display a b
    match if reversed.headD false then ord.swap else ord with
    | .lt => false
    | .gt => true
    | .eq => atOrAfterFrom inclusive reversed.tail as bs

def atOrAfterStart (sh : PartitionShadow) (row start : List Value) (inclusive : Bool) : Bool :=
  start.isEmpty || atOrAfterFrom inclusive sh.clusteringReversed row start

def rowHidden (sh : PartitionShadow) (header : RowHeader) (clustering : List Value) : Bool :=
  sh.partitionDeletion.any header.shadowedByDeletionAt ||
    (match sh.openRange with
      | some (start, inclusive, d) =>
        sh.atOrAfterStart clustering start inclusive && header.shadowedByDeletionAt d
      | none => false) ||
    header.rowLivenessExpired sh.nowSecs

def coveringDeletedAt (sh : PartitionShadow) (clustering : List Value) : Option Int :=
  match sh.openRange with
  | some (start, inclusive, d) =>
    if sh.atOrAfterStart clustering start inclusive then
      some (match sh.partitionDeletion with
        | none => d
        | some c => max c d)
    else sh.partitionDeletion
  | none => sh.partitionDeletion

end Order

def cellShadowedOrExpired (cover : Option Int) (now : Int) (effTs effExp : Option Int) : Bool :=
  (match cover, effTs with
    | some d, some t => t ≤ d
    | _, _ => false) || effExp.any (· ≤ now)

/-- The state after a stretch of the partition. -/
def feed : PartitionShadow → List Unfiltered → Except String PartitionShadow
  | sh, [] => .ok sh
  | sh, .row _ :: rest => feed sh rest
  | sh, .marker m :: rest => do feed (← sh.feedRangeMarker m) rest

end PartitionShadow

/-! ### The merge path -/

/-- The clustering key of decoded values. -/
def clusteringKeyOf (schema : TableSchema) (values : List Value) : ClusteringKey :=
  ⟨values.zipIdx.map fun (v, i) =>
    ((schema.clusteringKeys[i]?.map (·.name)).getD ("ck" ++ toString i), v)⟩

namespace CompactionPolicy

/-- `make_bound`: an empty prefix is an open bound. -/
def makeBound (schema : TableSchema) (values : List Value) (inclusive isStart : Bool) :
    ClusteringBound :=
  if values.isEmpty then if isStart then .bottom else .top
  else if inclusive then .inclusive (clusteringKeyOf schema values)
  else .exclusive (clusteringKeyOf schema values)

/-- The start of a range whose end has not been read. -/
abbrev PendingRangeStart := Option (ClusteringBound × Int × Int)

/-- The range a marker closes, if it closes one. -/
def closes (schema : TableSchema) (pending : PendingRangeStart) (m : RangeMarker) :
    Option RangeTombstone :=
  match m.boundKind with
  | 0 => some ⟨(pending.map (·.1)).getD .bottom, makeBound schema m.values false false,
      m.primary.1, m.primary.2⟩
  | 6 => some ⟨(pending.map (·.1)).getD .bottom, makeBound schema m.values true false,
      m.primary.1, m.primary.2⟩
  | 2 => pending.map fun p => ⟨p.1, makeBound schema m.values false false, m.primary.1, m.primary.2⟩
  | 5 => pending.map fun p => ⟨p.1, makeBound schema m.values true false, m.primary.1, m.primary.2⟩
  | _ => none

/-- The start a marker leaves pending. -/
def pendingAfter (schema : TableSchema) (pending : PendingRangeStart) (m : RangeMarker) :
    PendingRangeStart :=
  match m.boundKind with
  | 1 => some (makeBound schema m.values true true, m.primary)
  | 7 => some (makeBound schema m.values false true, m.primary)
  | 0 => none
  | 6 => none
  | 2 => some (makeBound schema m.values true true, m.reopens)
  | 5 => some (makeBound schema m.values false true, m.reopens)
  | _ => pending

/-- The ranges `on_range_marker` pairs from the markers of a partition. -/
def pairRanges (schema : TableSchema) : PendingRangeStart → List Unfiltered → List RangeTombstone
  | _, [] => []
  | pending, .row _ :: rest => pairRanges schema pending rest
  | pending, .marker m :: rest =>
    (closes schema pending m).toList ++ pairRanges schema (pendingAfter schema pending m) rest

end CompactionPolicy

/-! ### Well-formed partitions -/

section WellFormed

variable [DebugFmt] (schema : TableSchema)

/-- Where a marker stands with respect to a row: an inclusive start comes before the rows of its
    prefix and an exclusive one after them; an end the other way round. -/
def RangeMarker.precedes (m : RangeMarker) (clustering : List Value) : Bool :=
  let ck := clusteringKeyOf schema clustering
  match m.boundKind with
  | 1 | 2 => afterStart schema ck (CompactionPolicy.makeBound schema m.values true true)
  | 7 | 5 => afterStart schema ck (CompactionPolicy.makeBound schema m.values false true)
  | 6 => !beforeEnd schema ck (CompactionPolicy.makeBound schema m.values true false)
  | _ => !beforeEnd schema ck (CompactionPolicy.makeBound schema m.values false false)

omit [DebugFmt] in
/-- Starts and ends alternate, an end has the deletion of its start, and nothing is left open. -/
def Alternates : Option Int → List Unfiltered → Prop
  | o, [] => o = none
  | o, .row _ :: rest => Alternates o rest
  | o, .marker m :: rest =>
    match m.boundKind with
    | 1 | 7 => o = none ∧ Alternates (some m.primary.1) rest
    | 0 | 6 => o = some m.primary.1 ∧ Alternates none rest
    | 2 | 5 => o = some m.primary.1 ∧ m.values ≠ [] ∧ Alternates (some m.reopens.1) rest
    | _ => False

/-- A partition in clustering order. -/
structure WellFormed (stream : List Unfiltered) : Prop where
  alternates : Alternates none stream
  ordered : ∀ before clustering after, stream = before ++ .row clustering :: after →
    (∀ m, .marker m ∈ before → m.precedes schema clustering = true) ∧
      ∀ m, .marker m ∈ after → m.precedes schema clustering = false

end WellFormed

/-! ### Markers before and after a row -/

variable {d : Int} {openRange : Option (List Value × Bool × Int)}

section Markers

variable [DebugFmt] {schema : TableSchema}

theorem beforeEnd_boundary {values : List Value} (hne : values ≠ []) (inclusive : Bool)
    (ck : ClusteringKey) :
    beforeEnd schema ck (CompactionPolicy.makeBound schema values (!inclusive) false) =
      !afterStart schema ck (CompactionPolicy.makeBound schema values inclusive true) := by
  have hne : values.isEmpty = false := by simpa using hne
  cases inclusive <;> simp [CompactionPolicy.makeBound, hne, afterStart, beforeEnd, bne]

/-- The ways a marker is read: it opens a range, closes one, or does both. -/
inductive MarkerRole (schema : TableSchema) (m : RangeMarker) : Prop
  | start (inclusive : Bool)
      (feed : ∀ sh : PartitionShadow, sh.feedRangeMarker m =
        .ok { sh with openRange := some (m.values, inclusive, m.primary.1) })
      (closes : ∀ pending, CompactionPolicy.closes schema pending m = none)
      (pendingAfter : ∀ pending, CompactionPolicy.pendingAfter schema pending m =
        some (CompactionPolicy.makeBound schema m.values inclusive true, m.primary))
      (precedes : ∀ clustering, m.precedes schema clustering = afterStart schema
        (clusteringKeyOf schema clustering) (CompactionPolicy.makeBound schema m.values inclusive true))
      (alternates : ∀ o rest, Alternates o (.marker m :: rest) ↔
        o = none ∧ Alternates (some m.primary.1) rest)
  | stop (inclusive : Bool)
      (feed : ∀ sh : PartitionShadow, sh.feedRangeMarker m = .ok { sh with openRange := none })
      (closes : ∀ pending, CompactionPolicy.closes schema pending m =
        some ⟨(pending.map (·.1)).getD .bottom,
          CompactionPolicy.makeBound schema m.values inclusive false, m.primary.1, m.primary.2⟩)
      (pendingAfter : ∀ pending, CompactionPolicy.pendingAfter schema pending m = none)
      (precedes : ∀ clustering, m.precedes schema clustering = !beforeEnd schema
        (clusteringKeyOf schema clustering) (CompactionPolicy.makeBound schema m.values inclusive false))
      (alternates : ∀ o rest, Alternates o (.marker m :: rest) ↔
        o = some m.primary.1 ∧ Alternates none rest)
  | boundary (inclusive : Bool)
      (feed : ∀ sh : PartitionShadow, sh.feedRangeMarker m =
        .ok { sh with openRange := some (m.values, inclusive, m.reopens.1) })
      (closes : ∀ pending, CompactionPolicy.closes schema pending m =
        pending.map fun p => ⟨p.1, CompactionPolicy.makeBound schema m.values (!inclusive) false,
          m.primary.1, m.primary.2⟩)
      (pendingAfter : ∀ pending, CompactionPolicy.pendingAfter schema pending m =
        some (CompactionPolicy.makeBound schema m.values inclusive true, m.reopens))
      (precedes : ∀ clustering, m.precedes schema clustering = afterStart schema
        (clusteringKeyOf schema clustering) (CompactionPolicy.makeBound schema m.values inclusive true))
      (alternates : ∀ o rest, Alternates o (.marker m :: rest) ↔
        o = some m.primary.1 ∧ m.values ≠ [] ∧ Alternates (some m.reopens.1) rest)

variable {o : Option Int} {ck : ClusteringKey} {rt : RangeTombstone}

/-- Every marker of a well-formed partition has one of the three roles. -/
theorem markerRole {m : RangeMarker} {rest : List Unfiltered} (h : Alternates o (.marker m :: rest)) :
    MarkerRole schema m := by
  obtain ⟨kind, values, primary, secondary⟩ := m
  rw [Alternates] at h
  dsimp only at h
  split at h
  · exact .start true (fun _ => rfl) (fun _ => rfl) (fun _ => rfl) (fun _ => rfl) fun _ _ => Iff.rfl
  · exact .start false (fun _ => rfl) (fun _ => rfl) (fun _ => rfl) (fun _ => rfl) fun _ _ => Iff.rfl
  · exact .stop false (fun _ => rfl) (fun _ => rfl) (fun _ => rfl) (fun _ => rfl) fun _ _ => Iff.rfl
  · exact .stop true (fun _ => rfl) (fun _ => rfl) (fun _ => rfl) (fun _ => rfl) fun _ _ => Iff.rfl
  · exact .boundary true (fun _ => rfl) (fun _ => rfl) (fun _ => rfl) (fun _ => rfl)
      fun _ _ => Iff.rfl
  · exact .boundary false (fun _ => rfl) (fun _ => rfl) (fun _ => rfl) (fun _ => rfl)
      fun _ _ => Iff.rfl
  · exact h.elim

/-! ### The ranges that cover a row -/

/-- The two states and the open deletion say the same. -/
inductive OpenTracks (schema : TableSchema) : Option (List Value × Bool × Int) →
    CompactionPolicy.PendingRangeStart → Option Int → Prop
  | closed : OpenTracks schema none none none
  | opened (values : List Value) (inclusive : Bool) (d ldt : Int) :
      OpenTracks schema (some (values, inclusive, d))
        (some (CompactionPolicy.makeBound schema values inclusive true, d, ldt)) (some d)

omit [DebugFmt] in
theorem OpenTracks.pending {pending : CompactionPolicy.PendingRangeStart}
    (h : OpenTracks schema openRange pending (some d)) : ∃ p, pending = some p := by
  cases h with
  | opened values inclusive d ldt => exact ⟨_, rfl⟩

variable {clustering : List Value}

theorem not_covers_of_start (h : afterStart schema ck rt.startBound = false) :
    rangeTombstoneCoversCk schema ck rt = false := by
  rw [rangeTombstoneCoversCk, h, Bool.false_and]

theorem not_covers_of_end (h : beforeEnd schema ck rt.endBound = false) :
    rangeTombstoneCoversCk schema ck rt = false := by
  rw [rangeTombstoneCoversCk, h, Bool.and_false]

variable {items : List Unfiltered}

/-- After the row: a range whose start is after it, too, does not cover it. -/
theorem not_covers_later {pending : CompactionPolicy.PendingRangeStart} (halt : Alternates o items)
    (hsome : pending.isSome = o.isSome)
    (hpending : ∀ p ∈ pending, afterStart schema (clusteringKeyOf schema clustering) p.1 = false)
    (hafter : ∀ m, .marker m ∈ items → m.precedes schema clustering = false) :
    ∀ rt ∈ CompactionPolicy.pairRanges schema pending items,
      rangeTombstoneCoversCk schema (clusteringKeyOf schema clustering) rt = false := by
  induction items generalizing o pending with
  | nil => intro rt hrt; cases hrt
  | cons item rest ih =>
    have hrest : ∀ m, .marker m ∈ rest → m.precedes schema clustering = false :=
      fun m hm => hafter m (List.mem_cons_of_mem _ hm)
    cases item with
    | row _ => exact ih halt hsome hpending hrest
    | marker m =>
      have hm := hafter m List.mem_cons_self
      intro rt hrt
      rw [CompactionPolicy.pairRanges, List.mem_append, Option.mem_toList] at hrt
      rcases (markerRole halt : MarkerRole schema m) with
        ⟨inclusive, -, hcloses, hnext, hprec, hrole⟩ | ⟨inclusive, -, hcloses, hnext, hprec, hrole⟩ |
          ⟨inclusive, -, hcloses, hnext, hprec, hrole⟩
      · obtain ⟨-, hrun⟩ := (hrole o rest).mp halt
        rw [hcloses, hnext] at hrt
        refine ih hrun rfl ?_ hrest rt (hrt.resolve_left nofun)
        rintro p ⟨⟩
        exact (hprec clustering).symm.trans hm
      · obtain ⟨rfl, hrun⟩ := (hrole o rest).mp halt
        obtain ⟨p, rfl⟩ := Option.isSome_iff_exists.mp hsome
        rw [hcloses, hnext] at hrt
        rcases hrt with hrt | hrt
        · obtain rfl := Option.some.inj hrt
          exact not_covers_of_start (hpending p rfl)
        · exact ih hrun rfl (by simp) hrest rt hrt
      · obtain ⟨rfl, -, hrun⟩ := (hrole o rest).mp halt
        obtain ⟨p, rfl⟩ := Option.isSome_iff_exists.mp hsome
        rw [hcloses, hnext] at hrt
        rcases hrt with hrt | hrt
        · obtain rfl := Option.some.inj hrt
          exact not_covers_of_start (hpending p rfl)
        · refine ih hrun rfl ?_ hrest rt hrt
          rintro p ⟨⟩
          exact (hprec clustering).symm.trans hm

/-- After the row: the range that is open at it covers it, and no other one does. -/
theorem covers_open {start : ClusteringBound} {ldt : Int} (halt : Alternates (some d) items)
    (hstart : afterStart schema (clusteringKeyOf schema clustering) start = true)
    (hafter : ∀ m, .marker m ∈ items → m.precedes schema clustering = false) (dt : Int) :
    (∃ rt ∈ CompactionPolicy.pairRanges schema (some (start, d, ldt)) items,
      rangeTombstoneCoversCk schema (clusteringKeyOf schema clustering) rt = true ∧
        rt.deletionTime = dt) ↔ dt = d := by
  induction items with
  | nil => cases halt
  | cons item rest ih =>
    have hrest : ∀ m, .marker m ∈ rest → m.precedes schema clustering = false :=
      fun m hm => hafter m (List.mem_cons_of_mem _ hm)
    cases item with
    | row _ => exact ih halt hrest
    | marker m =>
      have hm := hafter m List.mem_cons_self
      -- the first marker after the row closes the open range
      have hfirst : ∀ pending o inclusive, Alternates o rest → pending.isSome = o.isSome →
          (∀ p ∈ pending, afterStart schema (clusteringKeyOf schema clustering) p.1 = false) →
          beforeEnd schema (clusteringKeyOf schema clustering)
            (CompactionPolicy.makeBound schema m.values inclusive false) = true →
          ((∃ rt ∈ (⟨start, CompactionPolicy.makeBound schema m.values inclusive false, d,
              m.primary.2⟩ : RangeTombstone) :: CompactionPolicy.pairRanges schema pending rest,
            rangeTombstoneCoversCk schema (clusteringKeyOf schema clustering) rt = true ∧
              rt.deletionTime = dt) ↔ dt = d) := by
        intro pending o inclusive hrun hsome hpending hend
        constructor
        · rintro ⟨rt, hrt, hcov, rfl⟩
          rcases List.mem_cons.mp hrt with rfl | hrt
          · rfl
          · rw [not_covers_later hrun hsome hpending hrest rt hrt] at hcov
            cases hcov
        · rintro rfl
          refine ⟨_, List.mem_cons_self, ?_, rfl⟩
          rw [rangeTombstoneCoversCk, hstart, hend]
          rfl
      rw [CompactionPolicy.pairRanges]
      rcases (markerRole halt : MarkerRole schema m) with
        ⟨inclusive, -, hcloses, hnext, hprec, hrole⟩ | ⟨inclusive, -, hcloses, hnext, hprec, hrole⟩ |
          ⟨inclusive, -, hcloses, hnext, hprec, hrole⟩
      · cases ((hrole _ rest).mp halt).1
      · obtain ⟨hd, hrun⟩ := (hrole _ rest).mp halt
        obtain rfl := Option.some.inj hd
        rw [hprec, Bool.not_eq_false'] at hm
        rw [hcloses, hnext]
        exact hfirst none none inclusive hrun rfl (by simp) hm
      · obtain ⟨hd, hne, hrun⟩ := (hrole _ rest).mp halt
        obtain rfl := Option.some.inj hd
        rw [hprec] at hm
        rw [hcloses, hnext]
        refine hfirst _ _ (!inclusive) hrun rfl ?_ ?_
        · rintro p ⟨⟩
          exact hm
        · rw [beforeEnd_boundary hne, hm]
          rfl

/-- Before the row: what was closed does not cover it, what is open starts before it, and the state
    machine has the same range open. -/
theorem before_row {before rest : List Unfiltered} {sh : PartitionShadow}
    {pending : CompactionPolicy.PendingRangeStart} {o : Option Int}
    (halt : Alternates o (before ++ rest)) (htrack : OpenTracks schema sh.openRange pending o)
    (hpending : ∀ p ∈ pending, afterStart schema (clusteringKeyOf schema clustering) p.1 = true)
    (hbefore : ∀ m, .marker m ∈ before → m.precedes schema clustering = true) :
    ∃ openRange closed pending' o', sh.feed before = .ok { sh with openRange := openRange } ∧
      CompactionPolicy.pairRanges schema pending (before ++ rest) =
        closed ++ CompactionPolicy.pairRanges schema pending' rest ∧
      Alternates o' rest ∧ OpenTracks schema openRange pending' o' ∧
      (∀ p ∈ pending', afterStart schema (clusteringKeyOf schema clustering) p.1 = true) ∧
      ∀ rt ∈ closed,
        rangeTombstoneCoversCk schema (clusteringKeyOf schema clustering) rt = false := by
  induction before generalizing sh pending o with
  | nil => exact ⟨sh.openRange, [], pending, o, rfl, rfl, halt, htrack, hpending, nofun⟩
  | cons item before ih =>
    have hrest : ∀ m, .marker m ∈ before → m.precedes schema clustering = true :=
      fun m hm => hbefore m (List.mem_cons_of_mem _ hm)
    cases item with
    | row _ => exact ih halt htrack hpending hrest
    | marker m =>
      have hm := hbefore m List.mem_cons_self
      rw [List.cons_append] at halt
      rcases (markerRole halt : MarkerRole schema m) with
        ⟨inclusive, hfeed, hcloses, hnext, hprec, hrole⟩ |
          ⟨inclusive, hfeed, hcloses, hnext, hprec, hrole⟩ |
          ⟨inclusive, hfeed, hcloses, hnext, hprec, hrole⟩
      · obtain ⟨rfl, hrun⟩ := (hrole o _).mp halt
        obtain ⟨openRange, closed, pending', o', hsh, hpair, hrest'⟩ :=
          @ih { sh with openRange := some (m.values, inclusive, m.primary.1) } _ _ hrun
            (.opened m.values inclusive m.primary.1 m.primary.2)
            (by rintro p ⟨⟩; exact (hprec clustering).symm.trans hm) hrest
        refine ⟨openRange, closed, pending', o', ?_, ?_, hrest'⟩
        · rw [PartitionShadow.feed, hfeed]
          exact hsh
        · rw [List.cons_append, CompactionPolicy.pairRanges, hcloses, hnext]
          exact hpair
      · obtain ⟨rfl, hrun⟩ := (hrole o _).mp halt
        obtain ⟨openRange, closed, pending', o', hsh, hpair, halt', htrack', hpending', hclosed⟩ :=
          @ih { sh with openRange := none } _ _ hrun .closed (by simp) hrest
        rw [hprec, Bool.not_eq_true'] at hm
        refine ⟨openRange, ⟨(pending.map (·.1)).getD .bottom,
          CompactionPolicy.makeBound schema m.values inclusive false, m.primary.1, m.primary.2⟩ ::
            closed, pending', o', ?_, ?_, halt', htrack', hpending', ?_⟩
        · rw [PartitionShadow.feed, hfeed]
          exact hsh
        · rw [List.cons_append, CompactionPolicy.pairRanges, hcloses, hnext, hpair]
          rfl
        · intro rt hrt
          rcases List.mem_cons.mp hrt with rfl | hrt
          · exact not_covers_of_end hm
          · exact hclosed rt hrt
      · obtain ⟨rfl, hne, hrun⟩ := (hrole o _).mp halt
        obtain ⟨openRange, closed, pending', o', hsh, hpair, halt', htrack', hpending', hclosed⟩ :=
          @ih { sh with openRange := some (m.values, inclusive, m.reopens.1) } _ _ hrun
            (.opened m.values inclusive m.reopens.1 m.reopens.2)
            (by rintro p ⟨⟩; exact (hprec clustering).symm.trans hm) hrest
        rw [hprec] at hm
        obtain ⟨p, rfl⟩ := htrack.pending
        refine ⟨openRange, ⟨p.1, CompactionPolicy.makeBound schema m.values (!inclusive) false, m.primary.1, m.primary.2⟩ ::
            closed, pending', o', ?_, ?_, halt', htrack', hpending', ?_⟩
        · rw [PartitionShadow.feed, hfeed]
          exact hsh
        · rw [List.cons_append, CompactionPolicy.pairRanges, hcloses, hnext, hpair]
          rfl
        · intro rt hrt
          rcases List.mem_cons.mp hrt with rfl | hrt
          · exact not_covers_of_end (by rw [beforeEnd_boundary hne, hm]; rfl)
          · exact hclosed rt hrt

end Markers

/-! ### Both paths at a row -/

variable {before : List Unfiltered} {clustering : List Value}

section Agreement

variable [DebugFmt] [DisplayFmt] (schema : TableSchema) (stream : List Unfiltered)
  (partitionDeletion : Option (Int × Int)) (now : Int)

/-- The state of a `SELECT` after a stretch of the partition. -/
def readState (before : List Unfiltered) : Except String PartitionShadow :=
  (PartitionShadow.opened now partitionDeletion (clusteringReversedFlags schema)).feed before

/-- Compaction drops what a deletion of the partition, or a range that covers the row, shadows. -/
def MergeShadows (clustering : List Value) (shadowed : Int → Bool) : Prop :=
  (∃ rt ∈ CompactionPolicy.pairRanges schema none stream,
    rangeTombstoneCoversCk schema (clusteringKeyOf schema clustering) rt = true ∧
      shadowed rt.deletionTime = true) ∨
    ∃ p ∈ partitionDeletion, shadowed p.1 = true

/-- A row is hidden, and a cell of it dropped, when compaction shadows it or it has expired. -/
def RowAgrees (before : List Unfiltered) (clustering : List Value) (header : RowHeader) : Prop :=
  ∃ sh, readState schema partitionDeletion now before = .ok sh ∧
    (sh.rowHidden header clustering = true ↔
      MergeShadows schema stream partitionDeletion clustering header.shadowedByDeletionAt ∨
        header.rowLivenessExpired now = true) ∧
    ∀ ts expiry, PartitionShadow.cellShadowedOrExpired (sh.coveringDeletedAt clustering) now ts expiry =
        true ↔
      (∃ t ∈ ts, MergeShadows schema stream partitionDeletion clustering fun d => t ≤ d) ∨
        ∃ e ∈ expiry, e ≤ now

/-- The range that is open at a row does not start after it in the reader's order, or the partition
    deletion is no older. -/
def StartReached (before : List Unfiltered) (clustering : List Value) : Prop :=
  ∀ sh, readState schema partitionDeletion now before = .ok sh →
    ∀ start inclusive d, sh.openRange = some (start, inclusive, d) →
      sh.atOrAfterStart clustering start inclusive = true ∨ ∃ p ∈ partitionDeletion, d ≤ p.1

variable {schema stream partitionDeletion now}

omit [DisplayFmt] in
/-- At a row of a well-formed partition, the open range is the one that covers it. -/
theorem WellFormed.at_row (h : WellFormed schema stream) {after : List Unfiltered}
    (hstream : stream = before ++ .row clustering :: after) :
    ∃ openRange, readState schema partitionDeletion now before =
        .ok ⟨partitionDeletion.map (·.1), openRange, now, clusteringReversedFlags schema⟩ ∧
      (∀ d, (∃ rt ∈ CompactionPolicy.pairRanges schema none stream,
        rangeTombstoneCoversCk schema (clusteringKeyOf schema clustering) rt = true ∧
          rt.deletionTime = d) ↔ ∃ start inclusive, openRange = some (start, inclusive, d)) ∧
      ∀ start inclusive d, openRange = some (start, inclusive, d) →
        afterStart schema (clusteringKeyOf schema clustering)
          (CompactionPolicy.makeBound schema start inclusive true) = true := by
  obtain ⟨hbefore, hafter⟩ := h.ordered before clustering after hstream
  have halt := h.alternates
  rw [hstream] at halt
  obtain ⟨openRange, closed, pending, o, hsh, hpair, halt', htrack, hpending, hclosed⟩ :=
    @before_row _ _ _ _ _ (PartitionShadow.opened now partitionDeletion (clusteringReversedFlags schema))
      none none halt .closed (by simp) hbefore
  refine ⟨openRange, hsh, fun d => ?_, fun start inclusive d hopen => ?_⟩
  swap
  · subst hopen
    cases htrack with
    | opened values inclusive d ldt => exact hpending _ rfl
  rw [Alternates] at halt'
  -- what was closed before the row does not count
  have hrest : (∃ rt ∈ CompactionPolicy.pairRanges schema none stream,
      rangeTombstoneCoversCk schema (clusteringKeyOf schema clustering) rt = true ∧
        rt.deletionTime = d) ↔
      ∃ rt ∈ CompactionPolicy.pairRanges schema pending after,
        rangeTombstoneCoversCk schema (clusteringKeyOf schema clustering) rt = true ∧
          rt.deletionTime = d := by
    rw [hstream, hpair, CompactionPolicy.pairRanges]
    constructor
    · rintro ⟨rt, hrt, hcov, hd⟩
      rcases List.mem_append.mp hrt with hrt | hrt
      · rw [hclosed rt hrt] at hcov
        cases hcov
      · exact ⟨rt, hrt, hcov, hd⟩
    · rintro ⟨rt, hrt, hcov, hd⟩
      exact ⟨rt, List.mem_append_right _ hrt, hcov, hd⟩
  rw [hrest]
  cases htrack with
  | closed =>
    constructor
    · rintro ⟨rt, hrt, hcov, -⟩
      rw [not_covers_later halt' rfl (by simp) hafter rt hrt] at hcov
      cases hcov
    · rintro ⟨start, inclusive, hopen⟩
      cases hopen
  | opened values inclusive d' ldt =>
    rw [covers_open halt' (hpending _ rfl) hafter d]
    constructor
    · rintro rfl
      exact ⟨values, inclusive, rfl⟩
    · rintro ⟨start, inclusive', hopen⟩
      cases hopen
      rfl

omit [DisplayFmt] in
/-- What compaction shadows at a row, by the range that is open there. -/
theorem mergeShadows_iff
    (hcover : ∀ d, (∃ rt ∈ CompactionPolicy.pairRanges schema none stream,
      rangeTombstoneCoversCk schema (clusteringKeyOf schema clustering) rt = true ∧
        rt.deletionTime = d) ↔ ∃ start inclusive, openRange = some (start, inclusive, d))
    (shadowed : Int → Bool) :
    MergeShadows schema stream partitionDeletion clustering shadowed ↔
      (∃ o ∈ openRange, shadowed o.2.2 = true) ∨ ∃ p ∈ partitionDeletion, shadowed p.1 = true := by
  refine or_congr_left ?_
  constructor
  · rintro ⟨rt, hrt, hcov, hd⟩
    obtain ⟨start, inclusive, hopen⟩ := (hcover rt.deletionTime).mp ⟨rt, hrt, hcov, rfl⟩
    exact ⟨_, hopen, hd⟩
  · rintro ⟨⟨start, inclusive, d⟩, hopen, hd⟩
    obtain ⟨rt, hrt, hcov, rfl⟩ := (hcover d).mpr ⟨start, inclusive, hopen⟩
    exact ⟨rt, hrt, hcov, hd⟩

omit [DebugFmt] [DisplayFmt] in
theorem RowHeader.shadowedByDeletionAt_mono {header : RowHeader} {e : Int} (hle : d ≤ e)
    (h : header.shadowedByDeletionAt d = true) : header.shadowedByDeletionAt e = true := by
  rw [RowHeader.shadowedByDeletionAt, Bool.and_eq_true, decide_eq_true_eq] at h ⊢
  exact ⟨h.1, Int.le_trans h.2 hle⟩

/-- What the state machine has a row shadowed by: the partition deletion, or the open range once its
    start is reached. -/
def PartitionShadow.Shadows (sh : PartitionShadow) (clustering : List Value) (shadowed : Int → Bool) :
    Prop :=
  (∃ o ∈ sh.openRange, sh.atOrAfterStart clustering o.1 o.2.1 = true ∧ shadowed o.2.2 = true) ∨
    ∃ d ∈ sh.partitionDeletion, shadowed d = true

section

omit [DebugFmt]

theorem PartitionShadow.rowHidden_iff (sh : PartitionShadow) (header : RowHeader)
    (clustering : List Value) : sh.rowHidden header clustering = true ↔
      sh.Shadows clustering header.shadowedByDeletionAt ∨ header.rowLivenessExpired sh.nowSecs = true := by
  rcases hopen : sh.openRange with _ | ⟨start, inclusive, d⟩ <;>
    simp [rowHidden, Shadows, hopen, Option.any_eq_true, or_comm]

theorem PartitionShadow.le_coveringDeletedAt_iff (sh : PartitionShadow) (clustering : List Value)
    (t : Int) : (∃ c ∈ sh.coveringDeletedAt clustering, t ≤ c) ↔
      sh.Shadows clustering fun d => t ≤ d := by
  rcases hopen : sh.openRange with _ | ⟨start, inclusive, d⟩
  · simp [coveringDeletedAt, Shadows, hopen]
  · cases hreach : sh.atOrAfterStart clustering start inclusive with
    | false => simp [coveringDeletedAt, Shadows, hopen, hreach]
    | true =>
      cases hpd : sh.partitionDeletion with
      | none => simp [coveringDeletedAt, Shadows, hopen, hpd, hreach]
      | some c =>
        simp only [coveringDeletedAt, Shadows, hopen, hpd, hreach, Option.mem_def, Option.some.injEq,
          exists_eq_left', decide_eq_true_eq, if_true, true_and]
        omega

theorem PartitionShadow.cellShadowed_iff (sh : PartitionShadow) (clustering : List Value)
    (ts expiry : Option Int) :
    cellShadowedOrExpired (sh.coveringDeletedAt clustering) sh.nowSecs ts expiry = true ↔
      (∃ t ∈ ts, sh.Shadows clustering fun d => t ≤ d) ∨ ∃ e ∈ expiry, e ≤ sh.nowSecs := by
  have hshadow : ∀ cover : Option Int, cellShadowedOrExpired cover sh.nowSecs ts expiry = true ↔
      (∃ t ∈ ts, ∃ c ∈ cover, t ≤ c) ∨ ∃ e ∈ expiry, e ≤ sh.nowSecs := by
    intro cover
    cases cover <;> cases ts <;> cases expiry <;> simp [cellShadowedOrExpired]
  rw [hshadow]
  exact or_congr_left (exists_congr fun t => and_congr_right fun _ =>
    sh.le_coveringDeletedAt_iff clustering t)

/-- Where the start of the open range is reached both sides shadow the same. -/
theorem StartReached.shadows_iff
    (hstart : StartReached schema partitionDeletion now before clustering)
    (hread : readState schema partitionDeletion now before =
      .ok ⟨partitionDeletion.map (·.1), openRange, now, clusteringReversedFlags schema⟩)
    {shadowed : Int → Bool} (hmono : ∀ d e, d ≤ e → shadowed d = true → shadowed e = true) :
    PartitionShadow.Shadows ⟨partitionDeletion.map (·.1), openRange, now, clusteringReversedFlags schema⟩
        clustering shadowed ↔
      (∃ o ∈ openRange, shadowed o.2.2 = true) ∨ ∃ p ∈ partitionDeletion, shadowed p.1 = true := by
  have hpd : (∃ d ∈ partitionDeletion.map (·.1), shadowed d = true) ↔
      ∃ p ∈ partitionDeletion, shadowed p.1 = true := by simp
  rw [PartitionShadow.Shadows, hpd]
  constructor
  · rintro (⟨o, ho, -, hd⟩ | hd)
    · exact .inl ⟨o, ho, hd⟩
    · exact .inr hd
  · rintro (⟨⟨start, inclusive, d⟩, ho, hd⟩ | hd)
    · rcases hstart _ hread start inclusive d ho with hreach | ⟨p, hp, hle⟩
      · exact .inl ⟨_, ho, hreach, hd⟩
      · exact .inr ⟨p, hp, hmono _ _ hle hd⟩
    · exact .inr hd

end

/-- A row and its cells are read as they are merged when the start of the open range is reached. -/
theorem rowAgrees_of_startReached (h : WellFormed schema stream) {after : List Unfiltered}
    (hstream : stream = before ++ .row clustering :: after)
    (hstart : StartReached schema partitionDeletion now before clustering) (header : RowHeader) :
    RowAgrees schema stream partitionDeletion now before clustering header := by
  obtain ⟨openRange, hread, hcover, -⟩ := h.at_row hstream
  refine ⟨_, hread, ?_, fun ts expiry => ?_⟩
  · rw [mergeShadows_iff hcover, PartitionShadow.rowHidden_iff,
      hstart.shadows_iff hread fun _ _ hle hd => RowHeader.shadowedByDeletionAt_mono hle hd]
  · rw [PartitionShadow.cellShadowed_iff]
    refine or_congr_left (exists_congr fun t => and_congr_right fun _ => ?_)
    rw [mergeShadows_iff hcover, hstart.shadows_iff hread]
    intro d e hle hd
    exact decide_eq_true (Int.le_trans (of_decide_eq_true hd) hle)

/-- A `SELECT` hides the rows and cells of a well-formed partition that compaction drops if and only
    if it reaches the start of every range it has open at a row. -/
theorem select_agrees_iff (h : WellFormed schema stream) :
    (∀ before clustering after, stream = before ++ .row clustering :: after → ∀ header,
      RowAgrees schema stream partitionDeletion now before clustering header) ↔
    ∀ before clustering after, stream = before ++ .row clustering :: after →
      StartReached schema partitionDeletion now before clustering := by
  refine ⟨fun hagree before clustering after hstream sh hread start inclusive d hopen => ?_,
    fun hstart before clustering after hstream header =>
      rowAgrees_of_startReached h hstream (hstart before clustering after hstream) header⟩
  obtain ⟨openRange, hread', hcover, -⟩ := h.at_row hstream
  obtain rfl := Except.ok.inj (hread'.symm.trans hread)
  -- a row written at the time of the range
  obtain ⟨sh, hsh, hhidden, -⟩ := hagree before clustering after hstream ⟨some d, none, none, none, false, true⟩
  obtain rfl := Except.ok.inj (hread'.symm.trans hsh)
  have hshadow : ∀ e, RowHeader.shadowedByDeletionAt ⟨some d, none, none, none, false, true⟩ e = true ↔
      d ≤ e := by
    intro e
    rw [RowHeader.shadowedByDeletionAt, Bool.and_eq_true, decide_eq_true_eq]
    simp [RowHeader.hasShadowEvidence, RowHeader.maxWriteTimestamp]
  have hmerged : MergeShadows schema stream partitionDeletion clustering
      (RowHeader.shadowedByDeletionAt ⟨some d, none, none, none, false, true⟩) :=
    (mergeShadows_iff hcover _).mpr (.inl ⟨_, hopen, (hshadow d).mpr (Int.le_refl d)⟩)
  have hread := hhidden.mpr (.inl hmerged)
  rw [PartitionShadow.rowHidden_iff] at hread
  rcases hread with (⟨o, ho, hreach, -⟩ | ⟨e, he, hd⟩) | hexpired
  · obtain rfl := Option.some.inj (hopen.symm.trans ho)
    exact .inl hreach
  · obtain ⟨p, hp, rfl⟩ := Option.map_eq_some_iff.mp he
    exact .inr ⟨p, hp, (hshadow p.1).mp hd⟩
  · cases hexpired

end Agreement

section Runs

/-- A table with one clustering column. -/
def oneColumn (order : ClusteringOrder) : TableSchema := ⟨[⟨"ck", order⟩], fun _ => none⟩

/-- A range from `start` on, with a row in it. -/
def rangeWithRow (start row : Value) : List Unfiltered :=
  [.marker ⟨1, [start], (10, 1), none⟩, .row [row], .marker ⟨6, [], (10, 1), none⟩]

theorem rangeWithRow_split {start row : Value} {after : List Unfiltered}
    (h : rangeWithRow start row = before ++ .row clustering :: after) :
    before = [.marker ⟨1, [start], (10, 1), none⟩] ∧ clustering = [row] ∧
      after = [.marker ⟨6, [], (10, 1), none⟩] := by
  obtain _ | ⟨m, _ | ⟨r, _ | ⟨e, _ | ⟨_, before⟩⟩⟩⟩ := before <;>
    simp [rangeWithRow] at h
  obtain ⟨rfl, rfl, rfl⟩ := h
  exact ⟨rfl, rfl, rfl⟩

theorem rangeWithRow_wellFormed {order : ClusteringOrder} {start row : Value}
    (h : afterStart (oneColumn order) (clusteringKeyOf (oneColumn order) [row])
      (.inclusive (clusteringKeyOf (oneColumn order) [start])) = true) :
    WellFormed (oneColumn order) (rangeWithRow start row) where
  alternates := ⟨rfl, rfl, rfl⟩
  ordered := by
    intro before clustering after hsplit
    obtain ⟨rfl, rfl, rfl⟩ := rangeWithRow_split hsplit
    constructor
    · intro m hm
      obtain rfl : m = _ := by simpa using hm
      exact h
    · intro m hm
      obtain rfl : m = _ := by simpa using hm
      rfl

/-- Integers compare alike: the row is hidden. -/
theorem integers_agree : WellFormed (oneColumn .asc) (rangeWithRow (.integer 9) (.integer 10)) ∧
    ∀ before clustering after, rangeWithRow (.integer 9) (.integer 10) =
      before ++ .row clustering :: after → ∀ header, RowAgrees (oneColumn .asc)
        (rangeWithRow (.integer 9) (.integer 10)) none 0 before clustering header := by
  have hwell : WellFormed (oneColumn .asc) (rangeWithRow (.integer 9) (.integer 10)) :=
    rangeWithRow_wellFormed (by decide)
  refine ⟨hwell, (select_agrees_iff hwell).mpr fun before clustering after hsplit => ?_⟩
  obtain ⟨rfl, rfl, rfl⟩ := rangeWithRow_split hsplit
  rintro sh ⟨⟩ start inclusive d ⟨⟩
  exact .inl (by decide)

/-- A range that starts at NULL covers every row of a descending column, and the reader has it start
    after them; both values are read from the bytes of a prefix. -/
theorem null_start_disagrees :
    parseClusteringPrefix ["int"] [2] = some ([.null], []) ∧
      parseClusteringPrefix ["int"] [0, 0, 0, 0, 5] = some ([.integer 5], []) ∧
      WellFormed (oneColumn .desc) (rangeWithRow .null (.integer 5)) ∧
      ¬ RowAgrees (oneColumn .desc) (rangeWithRow .null (.integer 5)) none 0
        [.marker ⟨1, [.null], (10, 1), none⟩] [.integer 5] ⟨some 5, none, none, none, false, false⟩ := by
  refine ⟨by rfl, by rfl, rangeWithRow_wellFormed (by decide), ?_⟩
  rintro ⟨sh, hread, hhidden, -⟩
  obtain rfl := Except.ok.inj hread
  have hvisible := hhidden.mpr (.inl (.inl ⟨_, List.mem_cons_self, by decide, by decide⟩))
  exact absurd hvisible (by decide +kernel)

end Runs

end Cqlite
