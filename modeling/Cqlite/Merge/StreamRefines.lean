import Cqlite.Merge.StreamGroups
import Cqlite.Merge.MarkerShadow

/-! Streaming against buffering.

    Both mergers yield the same groups in the same order and the same carriers. They differ in the
    ranges a group is shadowed by: the buffered merge takes all ranges of the partition, the
    streaming merge those that had left the heap when the group was flushed. -/

namespace Cqlite

/-! ### Emitted rows are no carriers -/

/-- The entry holds no partition or range deletion. -/
def Plain (e : MergeEntry) : Prop := e.partitionDeletion = none ∧ e.rangeDeletion = none

variable {e : MergeEntry}

theorem Plain.isCarrier_eq (h : Plain e) : isCarrier e = false := by
  simp [isCarrier, MergeEntry.isPartitionDeleteCarrier, isRangeMarkerCarrier, h.1, h.2]

theorem shadowBelow_plain {floor : Int} {ml : Bool} {entry out : MergeEntry}
    (h : shadowBelow floor ml entry = some out) : Plain out := by
  cases shadowBelow_cases h with
  | tombstone dt ldt hrow hlt => exact ⟨rfl, rfl⟩
  | live cells hrow hkept => exact ⟨rfl, rfl⟩
  | rowDeletion cells d hrow hdata hml hd hlt => exact ⟨rfl, rfl⟩
  | carrier _ hout hrow hcells =>
    unfold complexCarrier at hout
    split at hout
    · cases hout
      exact ⟨rfl, rfl⟩
    · cases hout

theorem shadowRow_plain {f : Option Int} {p : Option Deletion} {out : MergeEntry}
    (h : shadowRow f p e = some out) (he : Plain e) : Plain out := by
  obtain ⟨mid, hmid, hout⟩ := Option.bind_eq_some_iff.mp h
  have hplain : Plain mid := by
    cases f with
    | none => cases hmid; exact he
    | some f => exact shadowBelow_plain hmid
  cases p with
  | none => cases hout; exact hplain
  | some p => exact shadowBelow_plain hout

/-- Outputs that carry the distinct tags of their inputs are equal only pointwise. -/
theorem filterMap_eq_iff_of_tag {α β κ : Type*} {l : List α} {f g : α → Option β} {tag : α → κ}
    {tagOf : β → κ} (hl : l.Pairwise fun a b => tag a ≠ tag b)
    (hf : ∀ a ∈ l, ∀ b, f a = some b → tagOf b = tag a)
    (hg : ∀ a ∈ l, ∀ b, g a = some b → tagOf b = tag a) :
    l.filterMap f = l.filterMap g ↔ ∀ a ∈ l, f a = g a := by
  refine ⟨fun heq => ?_, List.filterMap_congr⟩
  induction l with
  | nil => simp
  | cons a l ih =>
    obtain ⟨hne, hl⟩ := List.pairwise_cons.mp hl
    have hf' : ∀ x ∈ l, ∀ b, f x = some b → tagOf b = tag x := fun x hx => hf x (by simp [hx])
    have hg' : ∀ x ∈ l, ∀ b, g x = some b → tagOf b = tag x := fun x hx => hg x (by simp [hx])
    -- an output of `a` cannot come from a later element
    have hlater : ∀ (k : α → Option β), (∀ x ∈ l, ∀ b, k x = some b → tagOf b = tag x) →
        ∀ b, tagOf b = tag a → b ∉ l.filterMap k := fun k hk b hb hmem => by
      obtain ⟨x, hx, hkx⟩ := List.mem_filterMap.mp hmem
      exact hne x hx (hb.symm.trans (hk x hx b hkx))
    have hhead : f a = g a ∧ l.filterMap f = l.filterMap g := by
      simp only [List.filterMap_cons] at heq
      cases hfa : f a with
      | none =>
        cases hga : g a with
        | none => exact ⟨rfl, by simpa [hfa, hga] using heq⟩
        | some b =>
          have heq : l.filterMap f = b :: l.filterMap g := by simpa [hfa, hga] using heq
          exact absurd (by simp [heq]) (hlater f hf' b (hg a (by simp) b hga))
      | some b =>
        cases hga : g a with
        | none =>
          have heq : b :: l.filterMap f = l.filterMap g := by simpa [hfa, hga] using heq
          exact absurd (by simp [← heq]) (hlater g hg' b (hf a (by simp) b hfa))
        | some b' =>
          rw [hfa, hga] at heq
          obtain ⟨rfl, htail⟩ := List.cons.inj heq
          exact ⟨rfl, htail⟩
    intro x hx
    rcases List.mem_cons.mp hx with rfl | hx
    · exact hhead.1
    · exact ih hl hf' hg' hhead.2 x hx

section Rows

variable [DebugFmt] {cfg : MergerConfig} {key : DecoratedKey} {seg : List MergeEntry}

theorem flushRow_row (h : SegmentInput cfg.schema key seg) {cluster : Cluster}
    (hc : cluster ∈ schemaClusters cfg.schema seg) {p : Option Deletion}
    {ranges : List RangeTombstone} (he : flushRow cfg key p (cluster, ranges) = some e) :
    e.clusteringKey = cluster.1 ∧ Plain e := by
  obtain ⟨first, rest, hcl, rfl⟩ :=
    h.partition.mem_clusteredRows.mp (h.partition.mem_schemaClusters.mp hc)
  rw [flushRow, mergeCluster_eq] at he
  obtain ⟨row, hrow, hout⟩ := Option.bind_eq_some_iff.mp he
  obtain ⟨ts, data, del, rfl⟩ := groupOutput_frame hrow
  refine ⟨(shadowRow_clusteringKey hout).trans rfl, shadowRow_plain hout ⟨rfl, ?_⟩⟩
  have hnone : groupRanges (first :: rest) = [] := by
    refine List.flatMap_eq_nil_iff.mpr fun x hx => ?_
    have hmem : x ∈ rowsAt seg first.clusteringKey := by rw [hcl]; exact hx
    have hrow := (List.mem_filter.mp (List.mem_of_mem_filter hmem)).2
    rw [(h.entry x (hcl.mem hx)).rowRange (by simpa using hrow), Option.toList_none]
  simp [groupEntry, groupRangeDeletion, hnone]

/-- The rows among the emitted entries. -/
def emittedRows (out : List MergeEntry) : List MergeEntry := out.filter fun e => !isCarrier e

theorem emittedRows_flushRow (h : SegmentInput cfg.schema key seg) (p : Option Deletion)
    (ranges : Option ClusteringKey → List RangeTombstone) :
    emittedRows ((schemaClusters cfg.schema seg).filterMap fun cluster =>
        flushRow cfg key p (cluster, ranges cluster.1)) =
      (schemaClusters cfg.schema seg).filterMap fun cluster =>
        flushRow cfg key p (cluster, ranges cluster.1) := by
  refine List.filter_eq_self.mpr fun e he => ?_
  obtain ⟨cluster, hc, hrow⟩ := List.mem_filterMap.mp he
  simp [(flushRow_row h hc hrow).2.isCarrier_eq]

theorem schemaRows_sorted (h : SegmentInput cfg.schema key seg) (p : Option Deletion)
    (ranges : Option ClusteringKey → List RangeTombstone) :
    ((schemaClusters cfg.schema seg).filterMap fun cluster =>
      flushRow cfg key p (cluster, ranges cluster.1)).Pairwise
      fun a b => rowCmp cfg.schema a b = .lt := by
  refine List.pairwise_filterMap.mpr (h.partition.schemaClusters_sorted.increasing.imp_of_mem ?_)
  intro a b ha hb hab x hx y hy
  rw [rowCmp_eq, (flushRow_row h ha hx).1, (flushRow_row h hb hy).1, hab]

/-- The rows of the buffered merge: every group in schema order, shadowed by all ranges. -/
theorem emittedRows_mergePartitionRows (h : SegmentInput cfg.schema key seg) :
    emittedRows (mergePartitionRows cfg seg) =
      (schemaClusters cfg.schema seg).filterMap fun cluster =>
        flushRow cfg key (maxPartitionDeletion seg) (cluster, partitionRanges seg) := by
  have hperm : ((schemaClusters cfg.schema seg).filterMap fun cluster =>
      flushRow cfg key (maxPartitionDeletion seg) (cluster, partitionRanges seg)).Perm
      ((clusteredRows seg).filterMap (mergeCluster cfg.schema cfg.settings
        (shadowRanges cfg.schema key seg) (maxPartitionDeletion seg))) :=
    h.partition.schemaClusters_perm.filterMap _
  have hrows := emittedRows_flushRow h (maxPartitionDeletion seg) fun _ => partitionRanges seg
  rw [h.partition.mergePartitionRows_eq]
  refine Rank.TotalOn.filter_mergeSort_eq ?_ ?_ (schemaRows_sorted h _ fun _ => partitionRanges seg)
  · have hrow : rowCmp cfg.schema = fun a b =>
        schemaCmpOption cfg.schema a.clusteringKey b.clusteringKey :=
      funext fun a => funext fun b => rowCmp_eq cfg.schema a b
    rw [hrow]
    refine Rank.TotalOn.comap (h.partition.keys.totalOn_schemaCmpOption fun k hk ck hck => ?_)
    obtain ⟨e, he, rfl⟩ := List.mem_map.mp hk
    rcases List.mem_append.mp he with he | he
    · rcases List.mem_append.mp he with he | he
      · obtain ⟨cluster, hc, hrow⟩ := List.mem_filterMap.mp (hperm.symm.subset he)
        obtain ⟨x, hx, hxk⟩ := List.mem_map.mp (h.partition.schemaClusters_sorted.keys cluster hc)
        rw [(flushRow_row h hc hrow).1, ← hxk] at hck
        exact List.mem_filterMap.mpr ⟨x, hx, hck⟩
      · obtain ⟨_, _, rfl⟩ := rangeCarriers_frame he
        cases hck
    · obtain ⟨_, _, rfl⟩ := partitionCarrier_frame (Option.mem_toList.mp he)
      cases hck
  · -- before the sort, the rows are what is left of the emitted entries without the carriers
    have hranges : ((rangeCarriers cfg key seg).filter fun e => !isCarrier e) = [] := by
      refine List.filter_eq_nil_iff.mpr fun e he => ?_
      obtain ⟨_, _, rfl⟩ := rangeCarriers_frame he
      exact Bool.false_ne_true
    have hdeletion : ((partitionCarrier cfg key seg).toList.filter fun e => !isCarrier e) = [] := by
      refine List.filter_eq_nil_iff.mpr fun e he => ?_
      obtain ⟨_, _, rfl⟩ := partitionCarrier_frame (Option.mem_toList.mp he)
      exact Bool.false_ne_true
    rw [List.filter_append, List.filter_append, hranges, hdeletion, List.append_nil, List.append_nil,
      ← hrows]
    exact hperm.filter _

/-! ### Comparing the two outputs of a partition -/

theorem lastGroup_nil (schema : TableSchema) : LastGroup schema [] [] none :=
  ⟨rfl, fun _ => rfl, fun _ _ h => (by cases h), fun _ _ h => (by cases h)⟩

theorem tracks_fresh (schema : TableSchema) (key : DecoratedKey) (seg : List MergeEntry) :
    Tracks schema key [] seg .fresh :=
  ⟨rfl, fun _ => rfl, fun h => (by cases h), fun _ => rfl, fun _ => rfl, rfl, .nil,
    fun e he => (by cases he), fun _ _ h => (by cases h)⟩

/-- The streaming output: the partition deletion, every group under its known ranges, the ranges. -/
theorem streamPartition_eq (h : SegmentInput cfg.schema key seg) :
    ∃ carriers, SameCarriers cfg key seg carriers ∧
      streamPartition cfg seg = (partitionCarrier cfg key seg).toList ++
        (schemaClusters cfg.schema seg).filterMap (fun cluster =>
          flushRow cfg key (maxPartitionDeletion seg)
            (cluster, knownRanges cfg.schema seg cluster.1)) ++ carriers := by
  obtain ⟨carriers, hsame, hout⟩ :=
    (tracks_fresh cfg.schema key seg).output_eq h (List.nil_append seg)
  obtain ⟨todo, hgroups, hsched⟩ := schedule_eq h (List.nil_append seg) (lastGroup_nil cfg.schema)
  refine ⟨carriers, hsame, ?_⟩
  rw [List.nil_append] at hgroups
  have hcur : Checkpoint.fresh.currentCluster = none := rfl
  have hflow : ∀ ranges, flow cfg key seg .fresh ranges = (partitionCarrier cfg key seg).toList := by
    simp [flow, Checkpoint.fresh]
  rw [streamPartition, hout, hflow, hcur, hsched, ← hgroups, List.filterMap_map]
  rfl

/-- The same rows in the same order, and the same carriers, wherever they stand. -/
structure SameOutput (schema : TableSchema) (a b : List MergeEntry) : Prop where
  rows : emittedRows a = emittedRows b
  deletions : ∀ e, e.isPartitionDeleteCarrier = true → (e ∈ a ↔ e ∈ b)
  ranges : ∀ e ∈ a, isRangeCarrier e = true → ∃ e' ∈ b, SameRangeCarrier schema e e'
  ranges_back : ∀ e ∈ b, isRangeCarrier e = true → ∃ e' ∈ a, SameRangeCarrier schema e' e

/-- An output consists of a partition carrier, plain rows and range carriers. -/
structure Emits (out : List MergeEntry) (deletion : Option MergeEntry)
    (rows carriers : List MergeEntry) : Prop where
  mem : ∀ e, e ∈ out ↔ e ∈ deletion ∨ e ∈ rows ∨ e ∈ carriers
  carrier : ∀ e ∈ deletion, e.isPartitionDeleteCarrier = true
  plain : ∀ e ∈ rows, Plain e
  range : ∀ e ∈ carriers, isRangeCarrier e = true
  emitted : emittedRows out = rows

variable {carriers : List MergeEntry} {deletion : Option MergeEntry}

omit [DebugFmt] in
theorem Emits.mem_deletion {out rows : List MergeEntry} (h : Emits out deletion rows carriers)
    (he : e.isPartitionDeleteCarrier = true) : e ∈ out ↔ e ∈ deletion := by
  rw [h.mem]
  refine ⟨?_, .inl⟩
  rintro (hd | hr | hc)
  · exact hd
  · have := (h.plain e hr).1
    simp [MergeEntry.isPartitionDeleteCarrier, this] at he
  · have := h.range e hc
    simp [isRangeCarrier, he] at this

omit [DebugFmt] in
theorem Emits.mem_carriers {out rows : List MergeEntry} (h : Emits out deletion rows carriers)
    (he : isRangeCarrier e = true) : e ∈ out ↔ e ∈ carriers := by
  rw [h.mem]
  refine ⟨?_, fun hc => .inr (.inr hc)⟩
  rintro (hd | hr | hc)
  · simp [isRangeCarrier, h.carrier e hd] at he
  · have := (h.plain e hr).isCarrier_eq
    rw [isRangeCarrier_of_row this] at he
    cases he
  · exact hc

omit [DebugFmt] in
theorem exists_of_forall₂ {R : MergeEntry → MergeEntry → Prop} {as bs : List MergeEntry}
    (h : List.Forall₂ R as bs) {a : MergeEntry} (ha : a ∈ as) : ∃ b ∈ bs, R a b := by
  induction h with
  | nil => cases ha
  | @cons x y xs ys hxy _ ih =>
    rcases List.mem_cons.mp ha with rfl | ha
    · exact ⟨y, by simp, hxy⟩
    · obtain ⟨b, hb, hab⟩ := ih ha
      exact ⟨b, by simp [hb], hab⟩

theorem Emits.sameOutput_iff {schema : TableSchema} {a b rows rows' carriers' : List MergeEntry}
    (ha : Emits a deletion rows carriers) (hb : Emits b deletion rows' carriers')
    (hsame : List.Forall₂ (SameRangeCarrier schema) carriers carriers') :
    SameOutput schema a b ↔ rows = rows' := by
  refine ⟨fun h => by rw [← ha.emitted, h.rows, hb.emitted], fun h => ⟨?_, ?_, ?_, ?_⟩⟩
  · rw [ha.emitted, hb.emitted, h]
  · intro e he
    rw [ha.mem_deletion he, hb.mem_deletion he]
  · intro e he hc
    obtain ⟨e', he', hs⟩ := exists_of_forall₂ hsame ((ha.mem_carriers hc).mp he)
    exact ⟨e', (hb.mem e').mpr (.inr (.inr he')), hs⟩
  · intro e he hc
    obtain ⟨e', he', hs⟩ := exists_of_forall₂ hsame.flip ((hb.mem_carriers hc).mp he)
    exact ⟨e', (ha.mem e').mpr (.inr (.inr he')), hs⟩

theorem SameRangeCarrier.isRangeCarrier_eq {schema : TableSchema} {a b : MergeEntry}
    (h : SameRangeCarrier schema a b) : isRangeCarrier a = isRangeCarrier b := by
  obtain ⟨ra, rb, ha, hb, -, heq⟩ := h
  cases a
  cases b
  simp only [MergeEntry.mk.injEq] at heq ha hb
  obtain ⟨rfl, rfl, rfl, rfl, rfl, rfl, -, rfl, rfl, rfl⟩ := heq
  simp [isRangeCarrier, isRangeMarkerCarrier, MergeEntry.isPartitionDeleteCarrier, ha, hb]

theorem emits_mergePartitionRows (h : SegmentInput cfg.schema key seg) :
    Emits (mergePartitionRows cfg seg) (partitionCarrier cfg key seg)
      ((schemaClusters cfg.schema seg).filterMap fun cluster =>
        flushRow cfg key (maxPartitionDeletion seg) (cluster, partitionRanges seg))
      (rangeCarriers cfg key seg) where
  mem e := by
    have hmem := (h.partition.schemaClusters_perm.filterMap (mergeCluster cfg.schema cfg.settings
      (shadowRanges cfg.schema key seg) (maxPartitionDeletion seg))).mem_iff (a := e)
    rw [h.partition.mergePartitionRows_eq, List.mem_mergeSort, List.mem_append, List.mem_append,
      Option.mem_toList, ← hmem]
    constructor
    · rintro ((hr | hc) | hd)
      · exact .inr (.inl hr)
      · exact .inr (.inr hc)
      · exact .inl hd
    · rintro (hd | hr | hc)
      · exact .inr hd
      · exact .inl (.inl hr)
      · exact .inl (.inr hc)
  carrier e he := by
    obtain ⟨_, _, rfl⟩ := partitionCarrier_frame he
    rfl
  plain e he := by
    obtain ⟨cluster, hc, hrow⟩ := List.mem_filterMap.mp he
    exact (flushRow_row h hc hrow).2
  range e he := by
    obtain ⟨_, _, rfl⟩ := rangeCarriers_frame he
    rfl
  emitted := emittedRows_mergePartitionRows h

theorem emits_streamPartition (h : SegmentInput cfg.schema key seg) :
    ∃ carriers, SameCarriers cfg key seg carriers ∧
      Emits (streamPartition cfg seg) (partitionCarrier cfg key seg)
        ((schemaClusters cfg.schema seg).filterMap fun cluster =>
          flushRow cfg key (maxPartitionDeletion seg) (cluster, knownRanges cfg.schema seg cluster.1))
        carriers := by
  obtain ⟨carriers, hsame, hout⟩ := streamPartition_eq h
  have hcarrier : ∀ e ∈ partitionCarrier cfg key seg, e.isPartitionDeleteCarrier = true :=
    (emits_mergePartitionRows h).carrier
  have hrange : ∀ e ∈ carriers, isRangeCarrier e = true := fun e he => by
    obtain ⟨e', he', hs⟩ := exists_of_forall₂ hsame.same he
    rw [hs.isRangeCarrier_eq]
    exact (emits_mergePartitionRows h).range e' he'
  refine ⟨carriers, hsame, fun e => ?_, hcarrier, fun e he => ?_, hrange, ?_⟩
  · rw [hout, List.mem_append, List.mem_append, Option.mem_toList, or_assoc, Option.mem_def]
  · obtain ⟨cluster, hc, hrow⟩ := List.mem_filterMap.mp he
    exact (flushRow_row h hc hrow).2
  · have hdeletion : ((partitionCarrier cfg key seg).toList.filter fun e => !isCarrier e) = [] :=
      List.filter_eq_nil_iff.mpr fun e he => by
        simp [isCarrier, hcarrier e (Option.mem_toList.mp he)]
    have hranges : (carriers.filter fun e => !isCarrier e) = [] :=
      List.filter_eq_nil_iff.mpr fun e he => by
        have := hrange e he
        simp only [isRangeCarrier, Bool.and_eq_true] at this
        simp [isCarrier, this.2]
    have hrows := emittedRows_flushRow h (maxPartitionDeletion seg) (knownRanges cfg.schema seg)
    unfold emittedRows at hrows ⊢
    rw [hout, List.filter_append, List.filter_append, hdeletion, hranges, hrows, List.nil_append,
      List.append_nil]

/-- Every group is shadowed by the ranges popped in time as it is by all of them. -/
def ShadowedInTime (cfg : MergerConfig) (key : DecoratedKey) (seg : List MergeEntry) : Prop :=
  ∀ first rest, IsCluster seg first rest →
    mergeCluster cfg.schema cfg.settings
        (keyedRanges cfg.schema key (knownRanges cfg.schema seg first.clusteringKey))
        (maxPartitionDeletion seg) (first.clusteringKey, first :: rest) =
      mergedRow cfg key seg first rest

/-- The outputs agree exactly when every group is shadowed alike by its known ranges and by all. -/
theorem sameOutput_iff (h : SegmentInput cfg.schema key seg) :
    SameOutput cfg.schema (streamPartition cfg seg) (mergePartitionRows cfg seg) ↔
      ShadowedInTime cfg key seg := by
  obtain ⟨carriers, hsame, hemits⟩ := emits_streamPartition h
  have htag : (schemaClusters cfg.schema seg).Pairwise fun a b => a.1 ≠ b.1 := by
    have hsorted := h.partition.schemaClusters_sorted
    refine hsorted.increasing.imp_of_mem fun {a b} ha _ hlt heq => ?_
    rw [← heq, h.partition.schemaKeys_total.refl (hsorted.keys a ha)] at hlt
    cases hlt
  rw [hemits.sameOutput_iff (emits_mergePartitionRows h) hsame.same,
    filterMap_eq_iff_of_tag htag (fun a ha e he => (flushRow_row h ha he).1)
      (fun a ha e he => (flushRow_row h ha he).1)]
  simp only [h.partition.mem_schemaClusters, h.partition.mem_clusteredRows]
  constructor
  · intro hall first rest hcl
    exact hall _ ⟨first, rest, hcl, rfl⟩
  · rintro hall _ ⟨first, rest, hcl, rfl⟩
    exact hall first rest hcl

end Rows

/-! ### Draining both mergers -/

/-- The steps of the streaming merger, partition by partition. -/
def partitionsOf : List StreamingStep → List (DecoratedKey × List MergeEntry)
  | [] => []
  | .clusterGroup _ row :: steps =>
    match partitionsOf steps with
    | [] => []
    | (key, rows) :: rest => (key, row :: rows) :: rest
  | .partitionEnd key :: steps => (key, []) :: partitionsOf steps
  | .complete :: steps => partitionsOf steps

theorem partitionsOf_partitionSteps (key : DecoratedKey) (rows : List MergeEntry)
    (steps : List StreamingStep) :
    partitionsOf (partitionSteps key rows ++ steps) = (key, rows) :: partitionsOf steps := by
  induction rows with
  | nil => rfl
  | cons row rows ih =>
    have hcons : partitionSteps key (row :: rows) ++ steps =
        .clusterGroup key row :: (partitionSteps key rows ++ steps) := rfl
    rw [hcons, partitionsOf, ih]

theorem partitionsOf_flatMap (parts : List (DecoratedKey × List MergeEntry)) :
    partitionsOf (parts.flatMap fun g => partitionSteps g.1 g.2) = parts := by
  induction parts with
  | nil => rfl
  | cons g parts ih => rw [List.flatMap_cons, partitionsOf_partitionSteps, ih]

section Refinement

variable [DebugFmt]

/-- Draining either merger to its end yields the same output for every partition. -/
def StreamRefines (cfg : MergerConfig) (size : MergeEntry → Nat) (runs : List (List MergeEntry)) :
    Prop :=
  ∃ steps out, StreamDrains cfg size (.new (.ofRuns runs)) steps ∧
    BufferedDrains cfg size (.ofRuns runs) out ∧
    List.Forall₂ (fun s b => s.1 = b.1 ∧ SameOutput cfg.schema s.2 b.2) (partitionsOf steps) out

/-- Both mergers can be drained, and cut the popped entries into the same partitions. -/
theorem streamRefines_iff_segments (cfg : MergerConfig) (size : MergeEntry → Nat)
    {runs : List (List MergeEntry)} (hidx : KWay.Indexed MergeEntry.runIndex runs) :
    StreamRefines cfg size runs ↔ ∀ g ∈ segments (popOrder cfg.schema runs),
      SameOutput cfg.schema (streamPartition cfg g.2) (mergePartitionRows cfg g.2) := by
  have hready := ready_ofRuns size runs
  have hinv := KWay.inv_start hidx
  have hstream : StreamDrains cfg size (.new (.ofRuns runs))
      ((segments (popOrder cfg.schema runs)).flatMap fun g =>
        partitionSteps g.1 (streamPartition cfg g.2)) := streamDrains_of_ready hidx hready hinv rfl
  have hbuffered : BufferedDrains cfg size (.ofRuns runs)
      ((segments (popOrder cfg.schema runs)).map fun g => (g.1, mergePartitionRows cfg g.2)) :=
    bufferedDrains_of_ready hidx hready hinv
  have hparts : partitionsOf ((segments (popOrder cfg.schema runs)).flatMap fun g =>
      partitionSteps g.1 (streamPartition cfg g.2)) =
      (segments (popOrder cfg.schema runs)).map fun g => (g.1, streamPartition cfg g.2) := by
    rw [← partitionsOf_flatMap ((segments (popOrder cfg.schema runs)).map _), List.flatMap_map]
  have hall : List.Forall₂ (fun s b : DecoratedKey × List MergeEntry =>
      s.1 = b.1 ∧ SameOutput cfg.schema s.2 b.2)
      ((segments (popOrder cfg.schema runs)).map fun g => (g.1, streamPartition cfg g.2))
      ((segments (popOrder cfg.schema runs)).map fun g => (g.1, mergePartitionRows cfg g.2)) ↔
      ∀ g ∈ segments (popOrder cfg.schema runs),
        SameOutput cfg.schema (streamPartition cfg g.2) (mergePartitionRows cfg g.2) := by
    rw [List.forall₂_map_left_iff, List.forall₂_map_right_iff, List.forall₂_same]
    simp
  constructor
  · rintro ⟨steps, out, hs, hb, hsame⟩
    rw [hs.unique hstream, hb.unique hbuffered, hparts] at hsame
    exact hall.mp hsame
  · intro h
    refine ⟨_, _, hstream, hbuffered, ?_⟩
    rw [hparts]
    exact hall.mpr h

/-- The streaming merger refines the buffered one exactly on runs whose ranges are popped in time to
    shadow every group as all ranges of its partition do. -/
theorem streaming_refines_buffered_iff (cfg : MergerConfig) (size : MergeEntry → Nat)
    (runs : List (List MergeEntry)) (h : RunsInput cfg.schema runs) :
    StreamRefines cfg size runs ↔
      ∀ key seg, (key, seg) ∈ segments (popOrder cfg.schema runs) → ShadowedInTime cfg key seg := by
  rw [streamRefines_iff_segments cfg size h.indexed]
  constructor
  · intro hall key seg hseg
    exact (sameOutput_iff (h.segmentInput hseg)).mp (hall _ hseg)
  · rintro hall ⟨key, seg⟩ hseg
    exact (sameOutput_iff (h.segmentInput hseg)).mpr (hall key seg hseg)

/-- A range carrier stands after the last row of its run that it covers. -/
def CarriersAfterRows (schema : TableSchema) (runs : List (List MergeEntry)) : Prop :=
  ∀ run ∈ runs, run.Pairwise fun a b => a.key = b.key → isRangeCarrier a = true →
    ∀ ck ∈ b.clusteringKey, ∀ rt ∈ a.rangeDeletion, rangeTombstoneCoversCk schema ck rt = false

end Refinement

/-! ### A marker that is popped too late -/

/-- The row `c = n` of partition `1` with one cell. -/
def rowAt (run : Nat) (n ts : Int) : MergeEntry :=
  MergeEntry.new run ⟨1, [1]⟩ (some ⟨[("c", .integer n)]⟩) ts
    (.live [.new "c" (.integer n) ts, .new "v" (.integer 7) ts])

/-- The deletion of the range `0 ≤ c ≤ 5` at `150`. -/
def rangeZeroToFive (run : Nat) : MergeEntry :=
  (MergeEntry.new run ⟨1, [1]⟩ none 150 (.live [])).withRangeDeletion
    ⟨.inclusive ⟨[("c", .integer 0)]⟩, .inclusive ⟨[("c", .integer 5)]⟩, 150, 0⟩

/-- One run holds `c = 1` at `100`, the other `c = 3` at `200` and then the deletion of both. -/
def lateMarkerRuns : List (List MergeEntry) := [[rowAt 0 3 200, rangeZeroToFive 0], [rowAt 1 1 100]]

/-- One run holds `c = 1` at `100` and then the deletion of both rows, the other `c = 3`. -/
def earlyMarkerRuns : List (List MergeEntry) := [[rowAt 0 1 100, rangeZeroToFive 0], [rowAt 1 3 100]]

theorem lateMarkerRuns_input : RunsInput tableConfig.schema lateMarkerRuns := by
  have hpart : PartitionInput tableConfig.schema ⟨1, [1]⟩ lateMarkerRuns.flatten := by decide
  exact runsInput_of_sameKey (indexed_pair (by decide) (by decide)) hpart (by decide) (by decide)

theorem earlyMarkerRuns_input : RunsInput tableConfig.schema earlyMarkerRuns := by
  have hpart : PartitionInput tableConfig.schema ⟨1, [1]⟩ earlyMarkerRuns.flatten := by decide
  exact runsInput_of_sameKey (indexed_pair (by decide) (by decide)) hpart (by decide) (by decide)

/-- The marker is popped before `c = 1` is finished and shadows both rows. -/
theorem early_marker_refines :
    RunsInput tableConfig.schema earlyMarkerRuns ∧
      StreamRefines tableConfig (fun _ => 64) earlyMarkerRuns := by
  refine ⟨earlyMarkerRuns_input, (streaming_refines_buffered_iff tableConfig _ _
    earlyMarkerRuns_input).mpr fun key seg hseg first rest hcl => ?_⟩
  have hsegs : segments (popOrder tableConfig.schema earlyMarkerRuns) =
      [(⟨1, [1]⟩, [rowAt 0 1 100, rangeZeroToFive 0, rowAt 1 3 100])] := rfl
  rw [hsegs, List.mem_singleton] at hseg
  obtain ⟨rfl, rfl⟩ := Prod.mk.inj hseg
  have hknown : ∀ e ∈ [rowAt 0 1 100, rangeZeroToFive 0, rowAt 1 3 100], isCarrier e = false →
      knownRanges tableConfig.schema [rowAt 0 1 100, rangeZeroToFive 0, rowAt 1 3 100]
        e.clusteringKey = partitionRanges [rowAt 0 1 100, rangeZeroToFive 0, rowAt 1 3 100] := by
    intro e he hrow
    simp only [List.mem_cons, List.not_mem_nil, or_false] at he
    rcases he with rfl | rfl | rfl
    · rfl
    · cases hrow
    · rfl
  have hrow : first ∈ rowsAt [rowAt 0 1 100, rangeZeroToFive 0, rowAt 1 3 100] first.clusteringKey := by
    rw [hcl]
    simp
  rw [hknown first (hcl.mem (by simp))
    (by simpa using (List.mem_filter.mp (List.mem_of_mem_filter hrow)).2)]
  rfl

/-- The row `c = 1` is flushed before the marker of the other run is popped, and stays. -/
theorem late_marker_row_unshadowed :
    RunsInput tableConfig.schema lateMarkerRuns ∧
      CarriersAfterRows tableConfig.schema lateMarkerRuns ∧
      ¬ StreamRefines tableConfig (fun _ => 64) lateMarkerRuns := by
  refine ⟨lateMarkerRuns_input, by unfold CarriersAfterRows; decide, fun hrefines => ?_⟩
  rw [streamRefines_iff_segments _ _ lateMarkerRuns_input.indexed] at hrefines
  have hsegs : segments (popOrder tableConfig.schema lateMarkerRuns) =
      [(⟨1, [1]⟩, [rowAt 1 1 100, rowAt 0 3 200, rangeZeroToFive 0])] := rfl
  have hmem : ((⟨1, [1]⟩ : DecoratedKey), [rowAt 1 1 100, rowAt 0 3 200, rangeZeroToFive 0]) ∈
      segments (popOrder tableConfig.schema lateMarkerRuns) := by simp [hsegs]
  have hrow := (sameOutput_iff (lateMarkerRuns_input.segmentInput hmem)).mp (hrefines _ hmem)
    (rowAt 1 1 100) [] rfl
  have hsome := congrArg Option.isSome hrow
  revert hsome
  decide

end Cqlite
