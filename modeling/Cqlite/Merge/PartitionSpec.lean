import Cqlite.Merge.Partition
import Cqlite.Merge.RangeFloor

/-! The buffered merge of a partition, read off its entries.

    The carriers give the ranges and the partition deletions of the partition, the other entries
    fall into one group per clustering key, and every emitted row is the reconciliation of its group
    under the range floor of its key and the partition floor. -/

namespace Cqlite

/-! ### Carriers -/

/-- The ranges of the partition, in entry order. -/
def partitionRanges (rows : List MergeEntry) : List RangeTombstone :=
  (rows.filter fun e => !e.isPartitionDeleteCarrier && isRangeMarkerCarrier e).filterMap
    MergeEntry.rangeDeletion

/-- The partition deletions, in entry order. -/
def partitionDeletions (rows : List MergeEntry) : List Deletion :=
  rows.filterMap MergeEntry.partitionDeletion

/-- The partition deletion in force. -/
def maxPartitionDeletion (rows : List MergeEntry) : Option Deletion :=
  Lww.latest deletionSupersedes (partitionDeletions rows)

/-- The clustering keys that occur. -/
def rowKeys (rows : List MergeEntry) : List ClusteringKey := rows.filterMap MergeEntry.clusteringKey

theorem partitionRanges_append (a b : List MergeEntry) :
    partitionRanges (a ++ b) = partitionRanges a ++ partitionRanges b := by
  simp [partitionRanges]

theorem partitionDeletions_append (a b : List MergeEntry) :
    partitionDeletions (a ++ b) = partitionDeletions a ++ partitionDeletions b := by
  simp [partitionDeletions]

/-- The carriers of one partition. -/
theorem scanPartitionCarriers_eq {key : DecoratedKey} {rows : List MergeEntry}
    (hkey : ∀ e ∈ rows, e.key = key) :
    scanPartitionCarriers rows =
      ⟨(partitionRanges rows).map fun rt => (key, rt), maxPartitionDeletion rows,
        if partitionDeletions rows = [] then none else some key⟩ := by
  induction rows using List.reverseRecOn with
  | nil => rfl
  | append_singleton rows e ih =>
    have hscan : scanPartitionCarriers (rows ++ [e]) = scanEntry (scanPartitionCarriers rows) e := by
      simp [scanPartitionCarriers]
    rw [hscan, ih fun e he => hkey e (by simp [he])]
    unfold maxPartitionDeletion
    rw [partitionRanges_append, partitionDeletions_append]
    have hk : e.key = key := hkey e (by simp)
    cases hd : e.partitionDeletion with
    | some d =>
      have hr : partitionRanges [e] = [] := by
        simp [partitionRanges, MergeEntry.isPartitionDeleteCarrier, hd]
      have hp : partitionDeletions [e] = [d] := by simp [partitionDeletions, hd]
      rw [hr, hp, List.append_nil, Lww.latest_concat]
      simp only [scanEntry, hd, hk]
      split <;> simp
    | none =>
      have hp : partitionDeletions [e] = [] := by simp [partitionDeletions, hd]
      rw [hp, List.append_nil]
      by_cases hc : isRangeMarkerCarrier e = true
      · have hr : partitionRanges [e] = e.rangeDeletion.toList := by
          cases hrd : e.rangeDeletion <;>
            simp [partitionRanges, MergeEntry.isPartitionDeleteCarrier, hd, hc, hrd]
        rw [hr]
        simp only [scanEntry, hd, if_pos hc, hk, List.map_append]
        cases e.rangeDeletion <;> rfl
      · have hr : partitionRanges [e] = [] := by
          rw [Bool.not_eq_true] at hc
          simp [partitionRanges, hc]
        rw [hr, List.append_nil]
        simp only [scanEntry, hd, if_neg hc]

theorem above_partitionFloor {rows : List MergeEntry} {t : Int} :
    Above (partitionFloor (maxPartitionDeletion rows)) t ↔ ∀ d ∈ partitionDeletions rows, d.1 < t := by
  unfold maxPartitionDeletion partitionFloor
  cases hl : Lww.latest deletionSupersedes (partitionDeletions rows) with
  | none =>
    rw [Lww.latest_eq_none] at hl
    simp [hl]
  | some w =>
    simp only [Option.map_some, above_some]
    constructor
    · exact fun h d hd => lt_of_le_of_lt (Lww.le_latest deletionSupersedes_iff hl hd) h
    · exact fun h => h w (Lww.latest_mem deletionSupersedes_iff hl)

/-! ### Coalescing the ranges of one partition -/

theorem groupRangesByKey_partition (key : DecoratedKey) (ranges : List RangeTombstone) :
    groupRangesByKey (ranges.map fun rt => (key, rt)) =
      if ranges = [] then [] else [(key, ranges)] := by
  induction ranges using List.reverseRecOn with
  | nil => rfl
  | append_singleton ranges rt ih =>
    unfold groupRangesByKey at ih ⊢
    rw [List.map_append, List.foldl_append, ih]
    by_cases h : ranges = []
    · simp [h, groupRangesByKey.insert]
    · simp [h, groupRangesByKey.insert]

section Spec

variable [DebugFmt]

theorem coalesceRangeTombstones_partition (schema : TableSchema) (key : DecoratedKey)
    (ranges : List RangeTombstone) :
    coalesceRangeTombstones schema (ranges.map fun rt => (key, rt)) =
      (coalescePartitionRangeTombstones schema ranges).map fun rt => (key, rt) := by
  rw [coalesceRangeTombstones, groupRangesByKey_partition]
  by_cases h : ranges = []
  · subst h; rfl
  · simp [h]

/-! ### The range floor of a row -/

/-- The floor range shadowing uses for a row; rows without a clustering key have none. -/
def rowRangeFloor (schema : TableSchema) (rts : List KeyedRange) (key : DecoratedKey)
    (ck : Option ClusteringKey) : Option Int :=
  ck.bind fun ck => rangeFloor schema key ck rts

theorem applyRangeShadowing_eq (schema : TableSchema) (rts : List KeyedRange) (e : MergeEntry) :
    applyRangeShadowing schema rts e =
      shadowAtRangeFloor (rowRangeFloor schema rts e.key e.clusteringKey) e := by
  unfold applyRangeShadowing rowRangeFloor
  cases hck : e.clusteringKey with
  | none => simp [shadowAtRangeFloor]
  | some ck =>
    cases rts with
    | nil => simp [rangeFloor, shadowAtRangeFloor]
    | cons r rts => simp

/-- A group is reconciled, then its row shadowed. -/
theorem mergeCluster_eq (schema : TableSchema) (s : MergeSettings) (rts : List KeyedRange)
    (p : Option Deletion) (ck : Option ClusteringKey) (first : MergeEntry) (rest : List MergeEntry) :
    mergeCluster schema s rts p (ck, first :: rest) =
      (groupOutput s ck first (first :: rest)).bind
        (shadowRow (rowRangeFloor schema rts first.key ck) p) := by
  unfold mergeCluster
  simp only [reconcileCluster_eq, List.head?_cons, Option.bind_some, Option.bind_assoc]
  cases ho : groupOutput s ck first (first :: rest) with
  | none => rfl
  | some e =>
    obtain ⟨ts, data, del, rfl⟩ := groupOutput_frame ho
    simp only [Option.bind_some, applyRangeShadowing_eq, shadowRow]
    rfl

/-! ### Groups -/

/-- The rows of a clustering key: the entries that are no carriers and compare equal to it. -/
def rowsAt (rows : List MergeEntry) (ck : Option ClusteringKey) : List MergeEntry :=
  (rows.filter fun e => !isCarrier e).filter fun e => cmpOptionKey e.clusteringKey ck == .eq

variable {rows : List MergeEntry}

theorem of_mem_rowsAt {ck : Option ClusteringKey} {e : MergeEntry} (he : e ∈ rowsAt rows ck) :
    e ∈ rows ∧ cmpOptionKey e.clusteringKey ck = .eq := by
  simp only [rowsAt, List.mem_filter, beq_iff_eq] at he
  exact ⟨he.1.1, he.2⟩

/-- The rows that share the key of `first`, which is the first of them. -/
def IsCluster (rows : List MergeEntry) (first : MergeEntry) (rest : List MergeEntry) : Prop :=
  rowsAt rows first.clusteringKey = first :: rest

/-- The entries of one partition as the reader delivers them: one partition key, ordered clustering
    keys, and a fallback order that groups them. -/
@[mk_iff]
structure PartitionInput (schema : TableSchema) (key : DecoratedKey) (rows : List MergeEntry) :
    Prop where
  sameKey : ∀ e ∈ rows, e.key = key
  keys : KeysOrdered schema (rowKeys rows) (partitionRanges rows)
  fallback : Rank.TotalOn ClusteringKey.cmp (rowKeys rows)

instance {schema : TableSchema} {key : DecoratedKey} {rows : List MergeEntry} :
    Decidable (PartitionInput schema key rows) :=
  decidable_of_iff _ (partitionInput_iff schema key rows).symm

theorem totalOn_cmpOptionKey {cks : List (Option ClusteringKey)}
    (h : Rank.TotalOn ClusteringKey.cmp (cks.filterMap id)) : Rank.TotalOn cmpOptionKey cks where
  swap a ha b hb := by
    cases a with
    | none => cases b <;> rfl
    | some a =>
      cases b with
      | none => rfl
      | some b => exact h.swap a (by simpa using ha) b (by simpa using hb)
  trans a ha b hb c hc hab hbc := by
    cases a with
    | none => cases c <;> simp [cmpOptionKey]
    | some a =>
      cases b with
      | none => simp [cmpOptionKey] at hab
      | some b =>
        cases c with
        | none => simp [cmpOptionKey] at hbc
        | some c =>
          exact h.trans a (by simpa using ha) b (by simpa using hb) c (by simpa using hc) hab hbc

namespace PartitionInput

variable {schema : TableSchema} {key : DecoratedKey} {rows : List MergeEntry}

theorem cmpOptionKey_total (h : PartitionInput schema key rows) :
    Rank.TotalOn cmpOptionKey (rows.map MergeEntry.clusteringKey) := by
  refine totalOn_cmpOptionKey ?_
  have : (rows.map MergeEntry.clusteringKey).filterMap id = rowKeys rows := by
    simp [rowKeys, List.filterMap_map]
  rw [this]
  exact h.fallback

/-- The clusters of the buffered merge are the groups of equal keys. -/
theorem mem_clusteredRows (h : PartitionInput schema key rows) {cluster : Cluster} :
    cluster ∈ clusteredRows rows ↔
      ∃ first rest, IsCluster rows first rest ∧ cluster = (first.clusteringKey, first :: rest) := by
  have hsub : ∀ e ∈ rows.filter (fun e => !isCarrier e),
      e.clusteringKey ∈ rows.map MergeEntry.clusteringKey := fun e he =>
    List.mem_map_of_mem (List.mem_of_mem_filter he)
  have hiff := fun hg => Grouping.mem_groups h.cmpOptionKey_total hsub (g := cluster) hg
  constructor
  · intro hc
    have hg := (hiff ((Grouping.groups_sorted h.cmpOptionKey_total hsub).keys cluster hc)).mp hc
    obtain ⟨ck, g⟩ := cluster
    obtain ⟨first, hfirst, hk⟩ := Option.map_eq_some_iff.mp hg.first
    cases g with
    | nil => simp at hfirst
    | cons e rest =>
      obtain rfl : e = first := by simpa using hfirst
      obtain rfl : e.clusteringKey = ck := hk
      exact ⟨e, rest, hg.elements.symm, rfl⟩
  · rintro ⟨first, rest, hcl, rfl⟩
    have hmem : first ∈ rows.filter fun e => !isCarrier e := by
      have : first ∈ rowsAt rows first.clusteringKey := by rw [hcl]; simp
      exact List.mem_of_mem_filter this
    exact (hiff (hsub first hmem)).mpr ⟨hcl.symm, rfl⟩

end PartitionInput

variable {e : MergeEntry} {cfg : MergerConfig}

theorem IsCluster.mem {first : MergeEntry} {rest : List MergeEntry} (h : IsCluster rows first rest)
    (he : e ∈ first :: rest) : e ∈ rows := by
  rw [← h] at he
  exact List.mem_of_mem_filter (List.mem_of_mem_filter he)

/-! ### The output -/

/-- The coalesced ranges a partition is shadowed by. -/
def shadowRanges (schema : TableSchema) (key : DecoratedKey) (rows : List MergeEntry) :
    List KeyedRange :=
  (coalescePartitionRangeTombstones schema (partitionRanges rows)).map fun rt => (key, rt)

/-- The reconciled and shadowed row of a group. -/
def mergedRow (cfg : MergerConfig) (key : DecoratedKey) (rows : List MergeEntry)
    (first : MergeEntry) (rest : List MergeEntry) : Option MergeEntry :=
  mergeCluster cfg.schema cfg.settings (shadowRanges cfg.schema key rows)
    (maxPartitionDeletion rows) (first.clusteringKey, first :: rest)

/-- The re-emitted range carriers of a partition. -/
def rangeCarriers (cfg : MergerConfig) (key : DecoratedKey) (rows : List MergeEntry) :
    List MergeEntry :=
  (retainRanges (maxPartitionDeletion rows) (shadowRanges cfg.schema key rows)).filterMap
    (emitRange cfg.settings)

/-- The re-emitted partition deletion of a partition. -/
def partitionCarrier (cfg : MergerConfig) (key : DecoratedKey) (rows : List MergeEntry) :
    Option MergeEntry :=
  emitPartitionDeletion cfg.settings ⟨[], maxPartitionDeletion rows,
    if partitionDeletions rows = [] then none else some key⟩

variable {key : DecoratedKey}

theorem rangeCarriers_frame (he : e ∈ rangeCarriers cfg key rows) :
    ∃ k rt, e = (MergeEntry.new usizeMax k none rt.deletionTime (.live [])).withRangeDeletion rt := by
  obtain ⟨r, -, hr⟩ := List.mem_filterMap.mp he
  unfold emitRange at hr
  split at hr
  · cases hr
  · cases hr
    exact ⟨r.1, r.2, rfl⟩

omit [DebugFmt] in
theorem partitionCarrier_frame (he : e ∈ partitionCarrier cfg key rows) :
    ∃ k d, e =
      (MergeEntry.new usizeMax k none d.1 (.tombstone d.1 d.2)).withPartitionDeletion d := by
  rw [Option.mem_def, partitionCarrier, emitPartitionDeletion] at he
  split at he
  · split at he
    · cases he
    · cases he
      exact ⟨_, _, rfl⟩
  · cases he

theorem PartitionInput.mergePartitionRows_eq (h : PartitionInput cfg.schema key rows) :
    mergePartitionRows cfg rows =
      ((clusteredRows rows).filterMap (mergeCluster cfg.schema cfg.settings
          (shadowRanges cfg.schema key rows) (maxPartitionDeletion rows)) ++
        rangeCarriers cfg key rows ++ (partitionCarrier cfg key rows).toList).mergeSort
        (fun a b => rowCmp cfg.schema a b != .gt) := by
  unfold mergePartitionRows
  rw [scanPartitionCarriers_eq h.sameKey]
  simp only [coalesceRangeTombstones_partition]
  rfl

/-- What the buffered merge emits: one row per group, and the carriers. -/
theorem PartitionInput.mem_mergePartitionRows (h : PartitionInput cfg.schema key rows) :
    e ∈ mergePartitionRows cfg rows ↔
      (∃ first rest, IsCluster rows first rest ∧ mergedRow cfg key rows first rest = some e) ∨
      e ∈ rangeCarriers cfg key rows ∨ e ∈ partitionCarrier cfg key rows := by
  rw [h.mergePartitionRows_eq, List.mem_mergeSort, List.mem_append, List.mem_append, or_assoc,
    Option.mem_toList, List.mem_filterMap]
  refine or_congr_left ⟨?_, ?_⟩
  · rintro ⟨cluster, hc, he⟩
    obtain ⟨first, rest, hcl, rfl⟩ := h.mem_clusteredRows.mp hc
    exact ⟨first, rest, hcl, he⟩
  · rintro ⟨first, rest, hcl, he⟩
    exact ⟨_, h.mem_clusteredRows.mpr ⟨first, rest, hcl, rfl⟩, he⟩

theorem PartitionInput.above_rowRangeFloor {schema : TableSchema}
    (h : PartitionInput schema key rows) (he : e ∈ rows) {t : Int} :
    Above (rowRangeFloor schema (shadowRanges schema key rows) key e.clusteringKey) t ↔
      ∀ ck ∈ e.clusteringKey, ∀ rt ∈ partitionRanges rows,
        rangeTombstoneCoversCk schema ck rt = true → rt.deletionTime < t := by
  cases hck : e.clusteringKey with
  | none => simp [rowRangeFloor]
  | some ck =>
    have hmem : ck ∈ rowKeys rows := List.mem_filterMap.mpr ⟨e, he, hck⟩
    simp only [rowRangeFloor, Option.bind_some, Option.mem_def, Option.some.injEq, forall_eq']
    exact h.keys.above_rangeFloor_iff (rangesIn_self _ fun rt hrt => hrt) key hmem

end Spec

end Cqlite
