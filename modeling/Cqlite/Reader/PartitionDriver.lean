import Cqlite.Reader.PartitionHeader
import Cqlite.Reader.RowDecoder

/-! The driver of one partition (`row_decoder/partition_driver.rs`: `drive_partition_sliding`).

    The driver goes from unfiltered to unfiltered of a buffer; what a consumer does with markers and
    rows is its policy. A parser that fails ends the partition, or asks for more bytes. In the source
    the loop has no bound; here it counts its rounds, and `none` is a loop that is not done. -/

namespace Cqlite

open Checked Cursor

namespace RowDecoder

/-! ### Boundaries -/

/-- Exactly `0x01`. -/
def isEndOfPartition (flags : UInt8) : Bool := flags == 0x01

def isRangeTombstoneMarker (flags : UInt8) : Bool := flag 0x02 flags && !flag 0x01 flags

inductive BoundaryPeek
  | header
  | notHeader
  | needMoreBytes
  deriving DecidableEq, Repr

def peekPartitionBoundary (hasUintDeletionTime : Bool) (data : Bytes) (offset : Nat) :
    BoundaryPeek :=
  match data[offset]? with
  | none => .needMoreBytes
  | some flags =>
    if isEndOfPartition flags || isRangeTombstoneMarker flags then .notHeader
    else
      match partitionHeaderReadiness hasUintDeletionTime (data.drop offset) with
      | .incomplete => .needMoreBytes
      | .malformed => .notHeader
      | .ready =>
        match scanPartitionHeader hasUintDeletionTime data offset with
        | .ok _ => .header
        | .error _ => .notHeader

/-! ### The driver -/

/-- What a consumer makes of a partition. `σ` is its state, with the rows that are held back;
    `decodesMarkers` is false on a physical read, which only passes over markers, and `feed` refuses
    a marker it cannot represent. -/
structure SlidingPartitionPolicy (σ : Type) where
  onPartitionOpen : Bytes → Option Deletion → σ → σ
  decodesMarkers : σ → Bool
  feed : RangeMarker → σ → Option σ
  onDataRow : RowStart → σ → σ
  onPartitionClose : (complete : Bool) → σ → σ

/-- With the bytes consumed go the rows that were held back. -/
inductive ParseStep (σ : Type)
  | emitted (consumed : Nat) (state : σ)
  | needMore
  | done

/-- A result whose errors the caller does not tell apart. -/
def attempt {α : Type} (x : Run FramingError α) : Run FramingError (Option α) :=
  match x.outcome with
  | .ok a => ⟨.ok (some a), x.requests⟩
  | .error (.corruption _) => ⟨.ok none, x.requests⟩
  | .error .overflow => ⟨.error .overflow, x.requests⟩
  | .fault => ⟨.fault, x.requests⟩

section Driver

variable {σ : Type} (policy : SlidingPartitionPolicy σ) (checked : Bool) (schema : ReadSchema)
variable (keys : List TypedColumn) (data : Bytes) (atFinalChunk : Bool)

/-- The state behind the marker and the next offset, or `none` for `MarkerOutcome::Stop`. -/
def onRangeMarker (offset : Nat) (s : σ) : Run FramingError (Option (σ × Nat)) :=
  if policy.decodesMarkers s then do
    let parsed ← attempt (parseRangeTombstoneMarkerWithLdt checked schema keys data offset)
    return parsed.bind fun p => (policy.feed p.1 s).map fun s => (s, p.2)
  else do
    let skipped ← attempt (skipRangeTombstoneMarker checked keys data offset)
    return skipped.map fun p => (s, p.2)

def onDataRow (offset : Nat) (s : σ) : Run FramingError (Option (σ × Nat)) := do
  let parsed ← attempt (parseRowDataWithOffset checked schema keys data offset)
  return parsed.map fun p => (policy.onDataRow p.1 s, p.2)

/-- The bytes end inside the partition, or cannot be read further. -/
def unfinished (offset : Nat) (s : σ) : ParseStep σ :=
  if atFinalChunk then .emitted offset (policy.onPartitionClose false s) else .needMore

def driveLoop : Nat → Nat → σ → Run FramingError (Option (ParseStep σ))
  | 0, _, _ => return none
  | rounds + 1, offset, s =>
    match data[offset]? with
    | none => return some (unfinished policy atFinalChunk offset s)
    | some flags =>
      if isEndOfPartition flags then
        return some (.emitted (offset + 1) (policy.onPartitionClose true s))
      else if isRangeTombstoneMarker flags then do
        match ← onRangeMarker policy checked schema keys data offset s with
        | some (s, next) => driveLoop rounds next s
        | none => return some (unfinished policy atFinalChunk offset s)
      else do
        match ← onDataRow policy checked schema keys data offset s with
        | none => return some (unfinished policy atFinalChunk offset s)
        | some (s, next) =>
          if data.length ≤ next then return some (unfinished policy atFinalChunk next s)
          else if peekPartitionBoundary schema.hasUintDeletionTime data next = .header then
            return some (.emitted next (policy.onPartitionClose true s))
          else driveLoop rounds next s

def drivePartitionSliding (rounds : Nat) (s : σ) : Run FramingError (Option (ParseStep σ)) :=
  if data.isEmpty then return some .done
  else
    match partitionHeaderReadiness schema.hasUintDeletionTime data with
    | .malformed => return some (.emitted 1 s)
    | .incomplete => return some (if atFinalChunk then .done else .needMore)
    | .ready =>
      match parsePartitionHeaderFull schema.hasUintDeletionTime data 0 with
      | .error _ =>
        if !atFinalChunk && decide (partitionHeaderReadiness schema.hasUintDeletionTime data =
            .incomplete) then return some .needMore
        else return some (.emitted 1 s)
      | .ok (key, offset, deletion) =>
        driveLoop policy checked schema keys data atFinalChunk rounds offset
          (policy.onPartitionOpen key deletion s)

end Driver

/-! ### Hooks -/

theorem attempt_sound {α : Type} {x : Run FramingError α} (hx : x.outcome ≠ .fault) :
    (∃ a, (attempt x).outcome = .ok a) ∨ (attempt x).outcome = .error .overflow := by
  rw [attempt]
  cases h : x.outcome with
  | ok a => exact Or.inl ⟨_, rfl⟩
  | error e =>
    cases e with
    | corruption message => exact Or.inl ⟨_, rfl⟩
    | overflow => exact Or.inr rfl
  | fault => exact absurd h hx

theorem attempt_some {α : Type} {x : Run FramingError α} {a : α}
    (h : (attempt x).outcome = .ok (some a)) : x.outcome = .ok a := by
  rw [attempt] at h
  cases hx : x.outcome with
  | ok b =>
    rw [hx] at h
    rw [Option.some.inj (Outcome.ok.inj h)]
  | error e =>
    rw [hx] at h
    cases e with
    | corruption message => cases h
    | overflow => cases h
  | fault =>
    rw [hx] at h
    cases h

theorem attempt_agrees {α : Type} {x y : Run FramingError α} (h : Agrees .overflow x y) :
    Agrees .overflow (attempt x) (attempt y) := fun hattempt => by
  rw [h fun hx => hattempt ?_]
  rw [attempt, hx]

/-- A hook ends, and a next offset it gives is further on in the buffer. -/
structure HookAdvances {σ : Type} (data : Bytes) (offset : Nat)
    (x : Run FramingError (Option (σ × Nat))) : Prop where
  ends : (∃ r, x.outcome = .ok r) ∨ x.outcome = .error .overflow
  next : ∀ s n, x.outcome = .ok (some (s, n)) → offset < n ∧ n ≤ data.length

theorem hookAdvances {σ α : Type} {data : Bytes} {offset : Nat} {x : Run FramingError (α × Nat)}
    (hx : Advances data.length offset 1 x) {f : Option (α × Nat) → Option (σ × Nat)}
    (hf : ∀ p s n, f p = some (s, n) → ∃ a, p = some (a, n)) :
    HookAdvances data offset (do
      let p ← attempt x
      return f p) where
  ends := by
    rcases attempt_sound hx.sound with ⟨p, hp⟩ | hoverflow
    · exact Or.inl ⟨f p, outcome_bind_ok.2 ⟨p, hp, rfl⟩⟩
    · right
      change (Run.bind (attempt x) _).outcome = _
      rw [Run.bind, hoverflow]
  next s n h := by
    obtain ⟨p, hp, h⟩ := outcome_bind_ok.1 h
    obtain ⟨a, rfl⟩ := hf p s n (Outcome.ok.inj h)
    exact hx.next a n (attempt_some hp)

section Ends

variable {σ : Type} (policy : SlidingPartitionPolicy σ) (schema : ReadSchema)
variable (keys : List TypedColumn) (data : Bytes) (atFinalChunk : Bool)

theorem onRangeMarker_advances (offset : Nat) (s : σ) :
    HookAdvances data offset (onRangeMarker policy true schema keys data offset s) := by
  rw [onRangeMarker]
  split
  · refine hookAdvances (parseRangeTombstoneMarkerWithLdt_advances offset) fun p s n h => ?_
    obtain ⟨⟨m, next⟩, rfl, hfeed⟩ := Option.bind_eq_some_iff.1 h
    obtain ⟨s', -, hpair⟩ := Option.map_eq_some_iff.1 hfeed
    obtain ⟨-, rfl⟩ := Prod.mk.inj hpair
    exact ⟨m, rfl⟩
  · refine hookAdvances (skipRangeTombstoneMarker_advances offset) fun p s n h => ?_
    obtain ⟨⟨u, next⟩, rfl, hpair⟩ := Option.map_eq_some_iff.1 h
    obtain ⟨-, rfl⟩ := Prod.mk.inj hpair
    exact ⟨u, rfl⟩

theorem onDataRow_advances (offset : Nat) (s : σ) :
    HookAdvances data offset (onDataRow policy true schema keys data offset s) := by
  refine hookAdvances (parseRowDataWithOffset_advances offset) fun p s n h => ?_
  obtain ⟨⟨start, next⟩, rfl, hpair⟩ := Option.map_eq_some_iff.1 h
  obtain ⟨-, rfl⟩ := Prod.mk.inj hpair
  exact ⟨start, rfl⟩

/-! ### The loop ends -/

/-- A partition that is emitted takes bytes, and no more than there are. -/
def ParseStep.Within (len : Nat) : ParseStep σ → Prop
  | .emitted consumed _ => 0 < consumed ∧ consumed ≤ len
  | _ => True

/-- The driver is done, unless a checked sum of positions wrapped around. -/
def Ends (x : Run FramingError (Option (ParseStep σ))) : Prop :=
  (∃ step : ParseStep σ, x.outcome = .ok (some step) ∧ step.Within data.length) ∨
    x.outcome = .error .overflow

variable {data}

theorem unfinished_within {offset : Nat} (hpos : 0 < offset) (hoffset : offset ≤ data.length)
    (s : σ) : (unfinished policy atFinalChunk offset s).Within data.length := by
  rw [unfinished]
  split
  · exact ⟨hpos, hoffset⟩
  · trivial

theorem ends_behind {offset : Nat} {x : Run FramingError (Option (σ × Nat))}
    (hx : HookAdvances data offset x)
    {f : Option (σ × Nat) → Run FramingError (Option (ParseStep σ))} (hstop : Ends data (f none))
    (hnext : ∀ s n, offset < n → n ≤ data.length → Ends data (f (some (s, n)))) :
    Ends data (x >>= f) := by
  change Ends data (Run.bind x f)
  rw [Run.bind]
  rcases hx.ends with ⟨r, hr⟩ | hoverflow
  · rw [hr]
    cases r with
    | none => exact hstop
    | some p =>
      obtain ⟨hlt, hle⟩ := hx.next p.1 p.2 hr
      exact hnext p.1 p.2 hlt hle
  · rw [hoverflow]
    exact Or.inr rfl

/-- Every round moves on, so the rounds suffice. -/
theorem driveLoop_ends (rounds : Nat) : ∀ {offset : Nat} (s : σ), 0 < offset →
    offset ≤ data.length → data.length < offset + rounds →
    Ends data (driveLoop policy true schema keys data atFinalChunk rounds offset s) := by
  induction rounds with
  | zero =>
    intro offset s hpos hoffset hrounds
    omega
  | succ rounds ih =>
    intro offset s hpos hoffset hrounds
    have hunfinished : Ends data (return some (unfinished policy atFinalChunk offset s)) :=
      Or.inl ⟨_, rfl, unfinished_within _ _ hpos hoffset s⟩
    rw [driveLoop]
    split
    · exact hunfinished
    rename_i flags hflags
    have hlt := (List.getElem?_eq_some_iff.1 hflags).1
    split
    · exact Or.inl ⟨_, rfl, Nat.succ_pos offset, hlt⟩
    split
    · refine ends_behind (onRangeMarker_advances _ _ _ _ _ _) hunfinished fun s n hn hle => ?_
      exact ih s (by omega) hle (by omega)
    · refine ends_behind (onDataRow_advances _ _ _ _ _ _) hunfinished fun s n hn hle => ?_
      dsimp only
      split
      · exact Or.inl ⟨_, rfl, unfinished_within _ _ (by omega) hle s⟩
      split
      · exact Or.inl ⟨_, rfl, by omega, hle⟩
      · exact ih s (by omega) hle (by omega)

theorem scanPartitionDeletion_within {oa : Bool} {offset next : Nat} {deletion : Option Deletion}
    (h : scanPartitionDeletion oa data offset = .ok (deletion, next)) :
    offset ≤ next ∧ next ≤ data.length := by
  rw [scanPartitionDeletion] at h
  split at h
  · split at h
    · cases h
    rename_i delFlags hflags
    have hlt := (List.getElem?_eq_some_iff.1 hflags).1
    split at h
    · split at h
      · cases h
      · obtain ⟨-, rfl⟩ := Prod.mk.inj (Except.ok.inj h)
        omega
    split at h
    · cases h
    · obtain ⟨-, rfl⟩ := Prod.mk.inj (Except.ok.inj h)
      omega
  split at h
  · cases h
  · obtain ⟨-, rfl⟩ := Prod.mk.inj (Except.ok.inj h)
    omega

theorem parsePartitionHeaderFull_within {oa : Bool} {offset next : Nat} {key : Bytes}
    {deletion : Option Deletion}
    (h : parsePartitionHeaderFull oa data offset = .ok (key, next, deletion)) :
    offset < next ∧ next ≤ data.length := by
  obtain ⟨layout, hscan, h⟩ := bind_eq_ok.1 h
  obtain ⟨-, h⟩ := Prod.mk.inj (Except.ok.inj h)
  obtain ⟨rfl, -⟩ := Prod.mk.inj h
  rw [scanPartitionHeader] at hscan
  split at hscan
  · cases hscan
  split at hscan
  · cases hscan
  dsimp only at hscan
  split at hscan
  · cases hscan
  split at hscan
  · cases hscan
  obtain ⟨⟨deletion', next⟩, hdeletion, hscan⟩ := bind_eq_ok.1 hscan
  obtain rfl := Except.ok.inj hscan
  have hwithin := scanPartitionDeletion_within hdeletion
  dsimp only
  omega

theorem drivePartitionSliding_ends (s : σ) :
    Ends data (drivePartitionSliding policy true schema keys data atFinalChunk data.length s) := by
  have hdone : ∀ step : ParseStep σ, step.Within data.length → Ends data (return some step) :=
    fun step hstep => Or.inl ⟨step, rfl, hstep⟩
  rw [drivePartitionSliding]
  split
  · exact hdone _ trivial
  rename_i hempty
  have hlen := List.length_pos_iff.2 (mt List.isEmpty_iff.2 hempty)
  split
  · exact hdone _ ⟨Nat.one_pos, hlen⟩
  · split
    · exact hdone _ trivial
    · exact hdone _ trivial
  · split
    · split
      · exact hdone _ trivial
      · exact hdone _ ⟨Nat.one_pos, hlen⟩
    · rename_i hheader
      have hwithin := parsePartitionHeaderFull_within hheader
      exact driveLoop_ends _ _ _ _ _ _ (by omega) hwithin.2 (by omega)

/-! ### Sums that are not checked -/

/-- The checks of a debug build change nothing but an overflow. -/
theorem driveLoop_agrees (rounds : Nat) : ∀ (offset : Nat) (s : σ), Agrees .overflow
    (driveLoop policy true schema keys data atFinalChunk rounds offset s)
    (driveLoop policy false schema keys data atFinalChunk rounds offset s) := by
  induction rounds with
  | zero => exact fun _ _ => Agrees.refl _
  | succ rounds ih =>
    intro offset s
    rw [driveLoop, driveLoop]
    split
    · exact Agrees.refl _
    split
    · exact Agrees.refl _
    split
    · refine Agrees.bind ?_ fun r => ?_
      · rw [onRangeMarker, onRangeMarker]
        split
        · exact Agrees.bind (attempt_agrees (parseRangeTombstoneMarkerWithLdt_agrees _ _ _ _))
            fun _ => Agrees.refl _
        · exact Agrees.bind (attempt_agrees (skipRangeTombstoneMarker_agrees _ _ _))
            fun _ => Agrees.refl _
      · cases r with
        | none => exact Agrees.refl _
        | some p => exact ih p.2 p.1
    · refine Agrees.bind (Agrees.bind (attempt_agrees (parseRowDataWithOffset_agrees _ _ _ _))
        fun _ => Agrees.refl _) fun r => ?_
      cases r with
      | none => exact Agrees.refl _
      | some p =>
        dsimp only
        split
        · exact Agrees.refl _
        split
        · exact Agrees.refl _
        · exact ih p.2 p.1

theorem drivePartitionSliding_agrees (rounds : Nat) (s : σ) : Agrees .overflow
    (drivePartitionSliding policy true schema keys data atFinalChunk rounds s)
    (drivePartitionSliding policy false schema keys data atFinalChunk rounds s) := by
  rw [drivePartitionSliding, drivePartitionSliding]
  split
  · exact Agrees.refl _
  split
  · exact Agrees.refl _
  · exact Agrees.refl _
  split
  · exact Agrees.refl _
  · exact driveLoop_agrees _ _ _ _ _ _ _

end Ends

/-! ### Totality and progress -/

section Progress

variable (schema : ReadSchema) (keys : List TypedColumn) (data : Bytes)

/-- Without out-of-range indexing, a parser that succeeds has gone `least` bytes further, or more,
    inside the buffer; and sums that are not checked change nothing. -/
def Decodes {α : Type} (offset least : Nat) (x : Bool → Run FramingError (α × Nat)) : Prop :=
  (x true).outcome ≠ .error .overflow → x false = x true ∧ Advances data.length offset least (x false)

theorem Decodes.of_agrees {α : Type} {offset least : Nat} {x : Bool → Run FramingError (α × Nat)}
    (hagrees : Agrees .overflow (x true) (x false)) (hx : Advances data.length offset least (x true)) :
    Decodes data offset least x := fun h => by
  rw [hagrees h]
  exact ⟨rfl, hx⟩

/-- The decoder on one buffer, where no sum of positions wraps around. The metadata of a row comes
    with its length in place of an offset; a schema without clustering columns has no prefix to
    read; and the driver is done after a round for each byte. -/
structure DecoderProgresses : Prop where
  metadata : ∀ offset ≤ data.length, ∀ flags,
    (parseRowMetadata schema data offset flags).outcome ≠ .fault ∧
      ∀ header rowSize, (parseRowMetadata schema data offset flags).outcome = .ok (header, rowSize) →
        0 < header.headerSize ∧ offset + header.headerSize ≤ data.length
  clusteringPrefix : ∀ offset ≤ data.length,
    Decodes data offset (if keys.isEmpty then 0 else 1) fun checked =>
      parseClusteringPrefix checked keys data offset
  skippedMarker : ∀ offset, Decodes data offset 1 fun checked =>
    skipRangeTombstoneMarker checked keys data offset
  parsedMarker : ∀ offset, Decodes data offset 1 fun checked =>
    parseRangeTombstoneMarkerWithLdt checked schema keys data offset
  driver : ∀ (σ : Type) (policy : SlidingPartitionPolicy σ) (atFinalChunk : Bool) (s : σ),
    (drivePartitionSliding policy true schema keys data atFinalChunk data.length s).outcome ≠
        .error .overflow →
      ∃ step : ParseStep σ, step.Within data.length ∧
        (drivePartitionSliding policy false schema keys data atFinalChunk data.length s).outcome =
          .ok (some step)

/-- Every parser of the decoder moves on within its data, or fails. -/
theorem decoder_progresses : DecoderProgresses schema keys data where
  metadata _ hoffset flags :=
    ⟨parseRowMetadata_sound hoffset flags, fun _ _ hok => parseRowMetadata_ok hoffset hok⟩
  clusteringPrefix offset hoffset :=
    .of_agrees data (parseClusteringPrefix_agrees keys data offset)
      (parseClusteringPrefix_advances hoffset)
  skippedMarker offset :=
    .of_agrees data (skipRangeTombstoneMarker_agrees keys data offset)
      (skipRangeTombstoneMarker_advances offset)
  parsedMarker offset :=
    .of_agrees data (parseRangeTombstoneMarkerWithLdt_agrees schema keys data offset)
      (parseRangeTombstoneMarkerWithLdt_advances offset)
  driver _ policy atFinalChunk s h := by
    rcases drivePartitionSliding_ends policy schema keys atFinalChunk s with ⟨step, hok, hwithin⟩ | hoverflow
    · refine ⟨step, hwithin, ?_⟩
      rw [drivePartitionSliding_agrees policy schema keys atFinalChunk data.length s h, hok]
    · exact absurd hoverflow h

end Progress

/-! ### A size near `2 ^ 64` -/

/-- A marker whose body is to have `2 ^ 64 - 13` bytes: the sum wraps around to where it starts. -/
def wrappedMarker : Bytes :=
  [0x02, 0x00, 0x00, 0x00, 0xff, 0xff, 0xff, 0xff, 0xff, 0xff, 0xff, 0xff, 0xf3]

/-- No step without clustering columns, no slice from behind the buffer, and a sum that wraps
    around. -/
theorem decoder_stands_still :
    (parseClusteringPrefix false [] [0x00] 0).outcome = .ok ([], 0) ∧
      (parseClusteringPrefix false [⟨"ck", "int"⟩] [] 1).outcome = .fault ∧
      (skipRangeTombstoneMarker false [] wrappedMarker 0).outcome = .ok ((), 0) ∧
      (skipRangeTombstoneMarker true [] wrappedMarker 0).outcome = .error .overflow :=
  ⟨rfl, rfl, rfl, rfl⟩

end RowDecoder

end Cqlite
