import Cqlite.Lib.Rank
import Cqlite.Query.Lookup
import Cqlite.Query.Streaming

/-! When a lookup by partition key returns what the full scan does.

    A row the predicates accept is found when its key is what its decoded columns are written as. Within
    one partition a slice may still lose it: an integer literal has no order with a timestamp, so the
    predicates let every row pass, while the slice compares with the literal converted. -/

namespace Cqlite

/-! ### Keys -/

section Keys

variable {perColumn : List (List Value)} {encoded : List Bytes}

theorem mem_cartesianProduct {literals : List Value} :
    literals ∈ cartesianProduct perColumn ↔
      List.Forall₂ (fun w values => w ∈ values) literals perColumn := by
  have hrun := @Odometer.mem_run_iff (perColumn.map List.length)
  rw [List.length_map] at hrun
  rw [cartesianProduct, List.mem_map]
  constructor
  · rintro ⟨idx, hmem, rfl⟩
    have hlt := hrun.1 hmem
    clear hmem hrun
    induction perColumn generalizing idx with
    | nil =>
      cases hlt
      exact .nil
    | cons values perColumn ih =>
      cases hlt with
      | @cons i _ idx _ hi hlt =>
        rw [combination, List.zipWith_cons_cons, List.getD_eq_getElem?_getD,
          List.getElem?_eq_getElem hi]
        exact .cons (List.getElem_mem hi) (ih idx hlt)
  · intro h
    have hidx : ∃ idx : List Nat,
        List.Forall₂ (fun i size => i < size) idx (perColumn.map List.length) ∧
          combination perColumn idx = literals := by
      clear hrun
      induction h with
      | nil => exact ⟨[], .nil, rfl⟩
      | @cons w values literals perColumn hw _ ih =>
        obtain ⟨idx, hlt, hcombination⟩ := ih
        obtain ⟨i, hi, hget⟩ := List.mem_iff_getElem.1 hw
        refine ⟨i :: idx, .cons hi hlt, ?_⟩
        rw [combination, List.zipWith_cons_cons, ← hcombination, combination]
        congr 1
        rw [List.getD_eq_getElem?_getD, List.getElem?_eq_getElem hi, hget]
        rfl
    obtain ⟨idx, hlt, hcombination⟩ := hidx
    exact ⟨idx, hrun.2 hlt, hcombination⟩

theorem mem_foldl_pushUnseen {keys : List Bytes} {key : Bytes} :
    key ∈ encoded.foldl pushUnseen keys ↔ key ∈ keys ∨ key ∈ encoded := by
  induction encoded generalizing keys with
  | nil => simp
  | cons e encoded ih =>
    rw [List.foldl_cons, ih, List.mem_cons, ← or_assoc]
    refine or_congr_left ?_
    rw [pushUnseen]
    split
    · next hcontains =>
      have hmem : e ∈ keys := by simpa using hcontains
      exact ⟨.inl, fun h => h.elim id fun heq => heq ▸ hmem⟩
    · rw [List.mem_append, List.mem_singleton]

theorem nodup_foldl_pushUnseen {keys : List Bytes} (h : keys.Nodup) :
    (encoded.foldl pushUnseen keys).Nodup := by
  induction encoded generalizing keys with
  | nil => exact h
  | cons e encoded ih =>
    rw [List.foldl_cons]
    refine ih ?_
    rw [pushUnseen]
    split
    · exact h
    · next hcontains =>
      have hmem : e ∉ keys := by simpa using hcontains
      exact List.nodup_append.2 ⟨h, List.nodup_singleton e, fun a ha b hb => by
        rw [List.mem_singleton.1 hb]
        exact fun heq => hmem (heq ▸ ha)⟩

/-- One literal for every column, from the first `=` or `IN` on it. -/
def KeyLiterals (predicates : List SSTablePredicate) (keys : List KeyColumn) (literals : List Value) :
    Prop :=
  List.Forall₂ (fun w column => ∃ p, findKeyPredicate predicates column = some p ∧ w ∈ p.values)
    literals keys

/-- The number of literals for a column. -/
def literalCount (predicates : List SSTablePredicate) (column : KeyColumn) : Nat :=
  ((findKeyPredicate predicates column).map (·.values.length)).getD 0

/-- Every partition-key column has literals, not too many together, and all can be written. -/
structure KeysGiven (codec : ValueCodec) (schema : LookupSchema)
    (predicates : List SSTablePredicate) : Prop where
  columns : schema.partitionKeys ≠ []
  literals : ∀ column ∈ schema.partitionKeys, literalCount predicates column ≠ 0
  few : (schema.partitionKeys.map (literalCount predicates)).prod ≤ maxInTargetedLookups
  encoded : ∀ literals, KeyLiterals predicates schema.partitionKeys literals →
    ∃ key, encodePartitionKeyColumns codec literals schema.partitionKeys = .ok key

/-- What the keys of a lookup are. -/
structure LookupKeys (codec : ValueCodec) (schema : LookupSchema)
    (predicates : List SSTablePredicate) (keys : List Bytes) : Prop where
  nodup : keys.Nodup
  of_literals : ∀ literals, KeyLiterals predicates schema.partitionKeys literals → ∃ key ∈ keys,
    encodePartitionKeyColumns codec literals schema.partitionKeys = .ok key
  literals_of : ∀ key ∈ keys, ∃ literals, KeyLiterals predicates schema.partitionKeys literals ∧
    encodePartitionKeyColumns codec literals schema.partitionKeys = .ok key

variable {codec : ValueCodec} {schema : LookupSchema} {predicates : List SSTablePredicate}

theorem keyValues_spec {keys : List KeyColumn} (h : keyValues predicates keys = some perColumn) :
    perColumn.map List.length = keys.map (literalCount predicates) ∧
      (∀ column ∈ keys, literalCount predicates column ≠ 0) ∧
      ∀ literals, List.Forall₂ (fun w values => w ∈ values) literals perColumn ↔
        KeyLiterals predicates keys literals := by
  induction keys generalizing perColumn with
  | nil =>
    rw [keyValues, List.mapM_nil] at h
    cases h
    exact ⟨rfl, fun column hmem => (nomatch hmem), fun literals => by
      rw [KeyLiterals, List.forall₂_nil_right_iff, List.forall₂_nil_right_iff]⟩
  | cons column keys ih =>
    rw [keyValues, List.mapM_cons] at h
    obtain ⟨values, hvalues, h⟩ := Option.bind_eq_some_iff.1 h
    obtain ⟨rest, hrest, h⟩ := Option.bind_eq_some_iff.1 h
    cases h
    obtain ⟨hlength, hcount, hliterals⟩ := ih hrest
    obtain ⟨p, hp, hvalues⟩ := Option.bind_eq_some_iff.1 hvalues
    split at hvalues
    · cases hvalues
    next hempty =>
    obtain rfl := Option.some.inj hvalues
    have hone : literalCount predicates column = p.values.length := by rw [literalCount, hp]; rfl
    have hne : p.values ≠ [] := by simpa using hempty
    refine ⟨by rw [List.map_cons, List.map_cons, hlength, hone], ?_, fun literals => ?_⟩
    · intro other hmem
      rcases List.mem_cons.1 hmem with rfl | hmem
      · rw [hone]
        exact fun hzero => hne (List.length_eq_zero_iff.1 hzero)
      · exact hcount other hmem
    · rw [KeyLiterals, List.forall₂_cons_right_iff, List.forall₂_cons_right_iff]
      refine exists_congr fun w => exists_congr fun tail => ?_
      rw [hliterals, KeyLiterals]
      simp [hp]

theorem keyValues_isSome {keys : List KeyColumn}
    (h : ∀ column ∈ keys, literalCount predicates column ≠ 0) :
    ∃ perColumn, keyValues predicates keys = some perColumn := by
  induction keys with
  | nil => exact ⟨[], rfl⟩
  | cons column keys ih =>
    obtain ⟨rest, hrest⟩ := ih fun c hmem => h c (List.mem_cons_of_mem _ hmem)
    have hcount := h column List.mem_cons_self
    rw [literalCount] at hcount
    cases hp : findKeyPredicate predicates column with
    | none =>
      rw [hp] at hcount
      exact absurd rfl hcount
    | some p =>
      rw [hp] at hcount
      have hne : p.values ≠ [] := fun hnil => hcount (by simp [hnil])
      refine ⟨p.values :: rest, ?_⟩
      rw [keyValues] at hrest ⊢
      rw [List.mapM_cons, hrest, hp]
      simp [hne]

theorem exists_keyLiterals {keys : List KeyColumn}
    (h : ∀ column ∈ keys, literalCount predicates column ≠ 0) :
    ∃ literals, KeyLiterals predicates keys literals := by
  induction keys with
  | nil => exact ⟨[], .nil⟩
  | cons column keys ih =>
    obtain ⟨literals, hrest⟩ := ih fun c hmem => h c (List.mem_cons_of_mem _ hmem)
    have hcount := h column List.mem_cons_self
    rw [literalCount] at hcount
    cases hp : findKeyPredicate predicates column with
    | none =>
      rw [hp] at hcount
      exact absurd rfl hcount
    | some p =>
      rw [hp] at hcount
      obtain ⟨w, hw⟩ := List.exists_mem_of_length_pos (Nat.pos_of_ne_zero hcount)
      exact ⟨w :: literals, .cons ⟨p, hp, hw⟩ hrest⟩

theorem lookupKeys_of_encoded (hvalues : keyValues predicates schema.partitionKeys = some perColumn)
    (h : (cartesianProduct perColumn).mapM (encodePartitionKeyColumns codec · schema.partitionKeys) =
      .ok encoded) : LookupKeys codec schema predicates (encoded.foldl pushUnseen []) := by
  have hforall := mapM_eq_ok.1 h
  obtain ⟨-, -, hliterals⟩ := keyValues_spec hvalues
  refine ⟨nodup_foldl_pushUnseen List.nodup_nil, fun literals hchosen => ?_, fun key hkey => ?_⟩
  · obtain ⟨i, hi, hget⟩ :=
      List.mem_iff_getElem.1 (mem_cartesianProduct.2 ((hliterals literals).2 hchosen))
    have hi' : i < encoded.length := by rwa [← hforall.length_eq]
    refine ⟨encoded[i], mem_foldl_pushUnseen.2 (.inr (List.getElem_mem hi')), ?_⟩
    rw [← hget]
    exact hforall.get hi hi'
  · obtain hnil | hkey := mem_foldl_pushUnseen.1 hkey
    · cases hnil
    · obtain ⟨i, hi, hget⟩ := List.mem_iff_getElem.1 hkey
      have hi' : i < (cartesianProduct perColumn).length := by rwa [hforall.length_eq]
      exact ⟨(cartesianProduct perColumn)[i],
        (hliterals _).1 (mem_cartesianProduct.1 (List.getElem_mem hi')),
        by rw [← hget]; exact hforall.get hi' hi⟩

/-- The keys of an outcome. -/
def PartitionLookupOutcome.keys : PartitionLookupOutcome → Option (List Bytes)
  | .targeted key => some [key]
  | .multiTargeted keys => some keys
  | .fallback => none

theorem classify_spec :
    (∃ keys, (classifyPartitionLookup codec predicates (some schema)).keys = some keys ∧
      KeysGiven codec schema predicates ∧ LookupKeys codec schema predicates keys ∧
      ∀ key, keys = [key] →
        classifyPartitionLookup codec predicates (some schema) = .targeted key) ∨
    (classifyPartitionLookup codec predicates (some schema)).keys = none ∧
      ¬ KeysGiven codec schema predicates := by
  unfold classifyPartitionLookup
  simp only
  split
  · next hempty => exact .inr ⟨rfl, fun given => given.columns (by simpa using hempty)⟩
  next hnonempty =>
  cases hvalues : keyValues predicates schema.partitionKeys with
  | none =>
    refine .inr ⟨rfl, fun given => ?_⟩
    obtain ⟨perColumn, hsome⟩ := keyValues_isSome given.literals
    rw [hvalues] at hsome
    cases hsome
  | some perColumn =>
    obtain ⟨hlength, hcount, hliterals⟩ := keyValues_spec hvalues
    simp only [hlength]
    split
    · next hfew =>
      cases hencoded : (cartesianProduct perColumn).mapM
          (encodePartitionKeyColumns codec · schema.partitionKeys) with
      | error e =>
        refine .inr ⟨rfl, fun given => ?_⟩
        obtain ⟨literals, hmem, he⟩ := mapM_eq_error hencoded
        obtain ⟨key, hkey⟩ := given.encoded literals ((hliterals literals).1 (mem_cartesianProduct.1 hmem))
        rw [hkey] at he
        cases he
      | ok encoded =>
        have hkeys := lookupKeys_of_encoded hvalues hencoded
        have given : KeysGiven codec schema predicates :=
          ⟨by simpa using hnonempty, hcount, hfew, fun literals h =>
            (hkeys.of_literals literals h).imp fun _ => And.right⟩
        simp only
        split
        · next hnone =>
          -- there is at least one choice of literals
          obtain ⟨literals, hchosen⟩ := exists_keyLiterals given.literals
          obtain ⟨key, hkey, -⟩ := hkeys.of_literals literals hchosen
          rw [hnone] at hkey
          cases hkey
        · next key hone =>
          rw [hone] at hkeys
          refine .inl ⟨[key], rfl, given, hkeys, ?_⟩
          rintro key' ⟨⟩
          rfl
        · next _ hmany => exact .inl ⟨_, rfl, given, hkeys, fun key hone => (hmany key hone).elim⟩
    · next hmany => exact .inr ⟨rfl, fun given => hmany given.few⟩

end Keys

/-! ### The union of partitions -/

theorem filter_scanPartitions {table : List ScanEntry} {keys : List Bytes} (hnodup : keys.Nodup)
    (key : Bytes) : (keys.flatMap (scanPartition table)).filter (fun e => e.key == key) =
      if key ∈ keys then table.filter fun e => e.key == key else [] := by
  induction keys with
  | nil => rfl
  | cons k keys ih =>
    obtain ⟨hk, hnodup⟩ := List.nodup_cons.1 hnodup
    rw [List.flatMap_cons, List.filter_append, ih hnodup, scanPartition, List.filter_filter]
    by_cases heq : key = k
    · subst heq
      rw [if_neg hk, if_pos List.mem_cons_self, List.append_nil]
      simp
    · have hnone : table.filter (fun e => e.key == key && e.key == k) = [] :=
        List.filter_eq_nil_iff.2 fun e _ hboth => by
          simp only [Bool.and_eq_true, beq_iff_eq] at hboth
          exact heq (hboth.1.symm.trans hboth.2)
      rw [hnone, List.nil_append]
      simp [heq]

/-- Over a table in token order, the union of some partitions is what a filter leaves. -/
theorem multiPartition_eq_filter {table : List ScanEntry} {keys : List Bytes} (hnodup : keys.Nodup)
    (hsorted : table.Pairwise fun a b => tokenLe a b) :
    multiPartition table keys = table.filter fun e => keys.contains e.key := by
  have := decoratedKey_transCmp
  let cmp (a b : ScanEntry) : Ordering := DecoratedKey.cmp (.fromKeyBytes a.key) (.fromKeyBytes b.key)
  have hle : tokenLe = fun a b => cmp a b != .gt := by
    funext a b
    change (cmp a b).isLE = _
    cases cmp a b <;> rfl
  have heq : ∀ a b : ScanEntry, (cmp a b == .eq) = (b.key == a.key) := by
    intro a b
    rw [Bool.eq_iff_iff, beq_iff_eq, beq_iff_eq, decoratedKey_cmp_eq]
    exact ⟨fun h => (congrArg DecoratedKey.key h).symm, fun h => by rw [h]⟩
  have htotal : ∀ entries, Rank.TotalOn cmp entries := fun entries =>
    Rank.TotalOn.comap (f := fun e : ScanEntry => DecoratedKey.fromKeyBytes e.key)
      Rank.totalOn_of_transCmp
  rw [multiPartition, hle]
  refine (htotal (keys.flatMap (scanPartition table) ++ table)).eq_of_classes ?_ ?_
    (htotal _).pairwise_mergeSort ?_ fun a _ => ?_
  · exact fun e hmem => List.mem_append_left _ (List.mem_mergeSort.1 hmem)
  · exact fun e hmem => List.mem_append_right _ (List.mem_filter.1 hmem).1
  · refine (hsorted.imp fun {a b} hab => ?_).filter _
    rw [hle] at hab
    simpa using hab
  · simp only [heq]
    have hleft : ((keys.flatMap (scanPartition table)).mergeSort fun a b => cmp a b != .gt).filter
        (fun b => b.key == a.key) =
        (keys.flatMap (scanPartition table)).filter fun b => b.key == a.key := by
      cases hfilter : (keys.flatMap (scanPartition table)).filter fun b => b.key == a.key with
      | nil =>
        have hperm := (List.mergeSort_perm (keys.flatMap (scanPartition table))
          fun a b => cmp a b != .gt).filter fun b => b.key == a.key
        rw [hfilter] at hperm
        exact List.perm_nil.1 hperm
      | cons e rest =>
        obtain ⟨hmem, hkey⟩ : e ∈ keys.flatMap (scanPartition table) ∧ (e.key == a.key) = true :=
          List.mem_filter.1 (hfilter ▸ List.mem_cons_self)
        have hclass := (htotal (keys.flatMap (scanPartition table))).filter_mergeSort_class hmem
        simp only [heq, beq_iff_eq.1 hkey] at hclass
        rw [hclass, hfilter]
    rw [hleft, filter_scanPartitions hnodup, List.filter_filter]
    by_cases hkey : a.key ∈ keys
    · rw [if_pos hkey]
      refine List.filter_congr fun e _ => ?_
      cases hsame : e.key == a.key with
      | false => rfl
      | true => simp [beq_iff_eq.1 hsame, hkey]
    · rw [if_neg hkey]
      refine (List.filter_eq_nil_iff.2 fun e _ hboth => ?_).symm
      simp only [Bool.and_eq_true, beq_iff_eq, List.contains_iff_mem] at hboth
      exact hkey (hboth.1 ▸ hboth.2)

/-! ### Slices -/

variable {p : SSTablePredicate}

section Slices

variable (cqlType : String)

/-- The literals a restriction bounds its column by, from below and from above, and whether each
    is inclusive. -/
def boundLiterals (p : SSTablePredicate) :
    Option (Option (Value × Bool) × Option (Value × Bool)) :=
  match p.operation with
  | .equal => p.values[0]?.map fun w => (some (w, true), some (w, true))
  | .gt => p.values[0]?.map fun w => (some (w, false), none)
  | .gte => p.values[0]?.map fun w => (some (w, true), none)
  | .lt => p.values[0]?.map fun w => (none, some (w, false))
  | .lte => p.values[0]?.map fun w => (none, some (w, true))
  | .range => p.values[0]?.bind fun lo => p.values[1]?.map fun hi => (some (lo, true), some (hi, true))
  | .in => none
  | .prefixOp => none
  | .bloomFilter => none

/-- Each of the literals has a value in the column's type. -/
def Convertible (bounds : Option (Value × Bool) × Option (Value × Bool)) : Prop :=
  (∀ bound ∈ bounds.1, (coerceClusteringValue bound.1 cqlType).isSome) ∧
    ∀ bound ∈ bounds.2, (coerceClusteringValue bound.1 cqlType).isSome

/-- A restriction a slice can take. -/
def Narrows (p : SSTablePredicate) : Prop :=
  ∃ bounds, boundLiterals p = some bounds ∧ Convertible cqlType bounds

def startLiteral (p : SSTablePredicate) : Option (Value × Bool) := (boundLiterals p).bind (·.1)

def stopLiteral (p : SSTablePredicate) : Option (Value × Bool) := (boundLiterals p).bind (·.2)

/-- The last literal, converted, or what there was before. -/
def lastBound (before : Option (Value × Bool)) (literals : List (Value × Bool)) :
    Option (Value × Bool) :=
  match literals.getLast? with
  | none => before
  | some (w, inclusive) => (coerceClusteringValue w cqlType).map fun c => (c, inclusive)

/-- The slice of some restrictions. -/
def narrowedSlice (slice : ClusteringSlice) (ps : List SSTablePredicate) : ClusteringSlice :=
  ⟨lastBound cqlType slice.start (ps.filterMap startLiteral),
    lastBound cqlType slice.stop (ps.filterMap stopLiteral)⟩

variable {cqlType}

theorem lastBound_cons {before : Option (Value × Bool)} {bound : Option (Value × Bool)}
    {literals : List (Value × Bool)} :
    lastBound cqlType (lastBound cqlType before bound.toList) literals =
      lastBound cqlType before (bound.toList ++ literals) := by
  cases bound with
  | none => rfl
  | some bound =>
    rw [lastBound, lastBound, lastBound, List.getLast?_append]
    cases literals.getLast? <;> rfl

theorem restrict_eq_some {slice slice' : ClusteringSlice} :
    slice.restrict cqlType p = some slice' ↔ Narrows cqlType p ∧ narrowedSlice cqlType slice [p] = slice' := by
  obtain ⟨column, operation, values, token⟩ := p
  have hone : ∀ f : SSTablePredicate → Option (Value × Bool),
      [⟨column, operation, values, token⟩].filterMap f = (f ⟨column, operation, values, token⟩).toList :=
    fun f => by cases hf : f ⟨column, operation, values, token⟩ <;> simp [hf]
  simp only [ClusteringSlice.restrict, Narrows, narrowedSlice, hone, startLiteral, stopLiteral,
    boundLiterals, Convertible]
  cases operation with
  | «in» | prefixOp | bloomFilter => simp
  | range =>
    cases values[0]? with
    | none => simp
    | some lo =>
      cases values[1]? with
      | none => simp
      | some hi =>
        cases hlo : coerceClusteringValue lo cqlType <;> cases hhi : coerceClusteringValue hi cqlType <;>
          simp [lastBound, hlo, hhi]
  | _ =>
    cases values[0]? with
    | none => simp
    | some w => cases hw : coerceClusteringValue w cqlType <;> simp [lastBound, hw]

theorem foldlM_restrict {slice slice' : ClusteringSlice} {ps : List SSTablePredicate} :
    ps.foldlM (ClusteringSlice.restrict cqlType) slice = some slice' ↔
      (∀ p ∈ ps, Narrows cqlType p) ∧ narrowedSlice cqlType slice ps = slice' := by
  induction ps generalizing slice with
  | nil => simp [narrowedSlice, lastBound]
  | cons p ps ih =>
    have hsplit : narrowedSlice cqlType (narrowedSlice cqlType slice [p]) ps = narrowedSlice cqlType slice (p :: ps) := by
      have hone : ∀ f : SSTablePredicate → Option (Value × Bool), [p].filterMap f = (f p).toList :=
        fun f => by cases hf : f p <;> simp [hf]
      have hcons : ∀ f : SSTablePredicate → Option (Value × Bool),
          (p :: ps).filterMap f = (f p).toList ++ ps.filterMap f :=
        fun f => by cases hf : f p <;> simp [hf]
      rw [narrowedSlice, narrowedSlice, narrowedSlice, hone, hone, lastBound_cons, lastBound_cons, ← hcons, ← hcons]
    rw [List.foldlM_cons, Option.bind_eq_bind, Option.bind_eq_some_iff, List.forall_mem_cons]
    constructor
    · rintro ⟨next, hnext, hrest⟩
      obtain ⟨hp, rfl⟩ := restrict_eq_some.1 hnext
      obtain ⟨hps, rfl⟩ := ih.1 hrest
      exact ⟨⟨hp, hps⟩, hsplit.symm⟩
    · rintro ⟨⟨hp, hps⟩, rfl⟩
      exact ⟨_, restrict_eq_some.2 ⟨hp, rfl⟩, ih.2 ⟨hps, hsplit⟩⟩

/-! ### Converted literals -/

def isTimestamp : Value → Bool
  | .timestamp _ => true
  | _ => false

/-- Values of the column's type, where it has one. -/
def Typed (cqlType : String) (v : Value) : Prop :=
  ∀ t, ComparatorType.ofPrimitive (lowercase (trim cqlType)) = some t → t.holds v = true

variable {display : Value → String} {matchLikePattern : Bytes → Bytes → Bool} {v w c : Value}

theorem asI128_tryFrom {k : Nat} {f : Int → Value}
    (h : ((asI128 w).bind (tryFrom k)).map f = some c) : ∃ n, asI128 w = some n ∧ f n = c := by
  obtain ⟨n, hn, rfl⟩ := Option.map_eq_some_iff.1 h
  obtain ⟨m, hm, hn⟩ := Option.bind_eq_some_iff.1 hn
  rw [tryFrom] at hn
  split at hn
  · cases hn
    exact ⟨n, hm, rfl⟩
  · cases hn

/-- Conversion keeps the order with the values of the column, unless it is to or from a timestamp. -/
theorem compare_coerced (hv : Typed cqlType v) (hc : coerceClusteringValue w cqlType = some c)
    (hsame : isTimestamp w = isTimestamp c) :
    @compareValuesOrderingPredicate (sourceOps display matchLikePattern) v c =
      @compareValuesOrderingPredicate (sourceOps display matchLikePattern) v w := by
  unfold coerceClusteringValue at hc
  cases ht : ComparatorType.ofPrimitive (lowercase (trim cqlType)) with
  | none =>
    rw [ht] at hc
    cases hc
  | some t =>
    have hv := hv t ht
    rw [ht] at hc
    cases t with
    | tinyInt | smallInt | int | bigInt | counter =>
      obtain ⟨n, hn, rfl⟩ := asI128_tryFrom hc
      cases v <;> cases hv
      cases w <;> cases hn <;> first | rfl | cases hsame
    | timestamp =>
      obtain ⟨n, hn, rfl⟩ := asI128_tryFrom hc
      cases w <;> cases hn <;> first | rfl | cases hsame
    | text | uuid | blob | boolean =>
      cases w <;> cases hc
      rfl
    | _ => cases hc

/-- A literal that equals a value of the column is in order equal to it when converted. -/
theorem compare_of_equal (hv : Typed cqlType v) (hc : coerceClusteringValue w cqlType = some c)
    (heq : Value.valuesEqual v w = true) :
    @compareValuesOrderingPredicate (sourceOps display matchLikePattern) v c = some .eq := by
  have hself : ∀ {α : Type} [Ord α] [Std.ReflOrd α] (a : α), some (compare a a) = some .eq :=
    fun a => congrArg some Std.ReflOrd.compare_self
  unfold coerceClusteringValue at hc
  cases ht : ComparatorType.ofPrimitive (lowercase (trim cqlType)) with
  | none =>
    rw [ht] at hc
    cases hc
  | some t =>
    have hv := hv t ht
    rw [ht] at hc
    cases t with
    | tinyInt | smallInt | int | bigInt | counter | timestamp =>
      obtain ⟨n, hn, rfl⟩ := asI128_tryFrom hc
      cases v <;> cases hv
      rename_i m
      have hmn : m = n := by
        cases w <;> cases hn <;>
          simp_all [Value.valuesEqual, Value.partialEq, Value.asIntegralI128, Value.asF64]
      rw [hmn]
      exact hself n
    | text | uuid | blob | boolean =>
      cases v <;> cases hv
      cases w <;> cases hc
      rename_i m n
      have hmn : m = n := by
        simpa [Value.valuesEqual, Value.partialEq, Value.asIntegralI128, Value.asF64] using heq
      rw [hmn]
      exact hself n
    | _ => cases hc

/-- What lies on the right side of a literal lies there of what it is converted to. -/
theorem boundAccepts_coerced {op : SSTableFilterOp} {inclusive : Bool} (hv : Typed cqlType v)
    (hc : coerceClusteringValue w cqlType = some c) (hsame : isTimestamp w = isTimestamp c)
    (hop : op.accepts .eq = false)
    (horder : (@compareValuesOrderingPredicate (sourceOps display matchLikePattern) v w).any
      (fun o => op.accepts o || inclusive && o == .eq) = true) :
    @boundAccepts (sourceOps display matchLikePattern) op v (some (c, inclusive)) = true := by
  rw [← compare_coerced hv hc hsame] at horder
  rw [@boundAccepts.eq_2]
  cases hvc : @compareValuesOrderingPredicate (sourceOps display matchLikePattern) v c with
  | none => simp [hvc] at horder
  | some o =>
    simp only [hvc, Option.any_some, Bool.or_eq_true, Bool.and_eq_true, beq_iff_eq] at horder
    cases o with
    | eq => simpa [hop] using horder
    | lt | gt => simpa using horder

/-- What a predicate accepts lies on the right side of its literals converted. -/
theorem bounds_kept {bounds : Option (Value × Bool) × Option (Value × Bool)} (hv : Typed cqlType v)
    (hbounds : boundLiterals p = some bounds)
    (haccepts : @matchesColumn (sourceOps display matchLikePattern) p v = true) :
    (∀ w inclusive c, bounds.1 = some (w, inclusive) → coerceClusteringValue w cqlType = some c →
      isTimestamp w = isTimestamp c →
      @boundAccepts (sourceOps display matchLikePattern) .gt v (some (c, inclusive)) = true) ∧
    ∀ w inclusive c, bounds.2 = some (w, inclusive) → coerceClusteringValue w cqlType = some c →
      isTimestamp w = isTimestamp c →
      @boundAccepts (sourceOps display matchLikePattern) .lt v (some (c, inclusive)) = true := by
  obtain ⟨column, operation, values, token⟩ := p
  have hany : ∀ {order : Option Ordering} {p q : Ordering → Bool}, order.any p = true →
      (∀ o, p o = true → q o = true) → order.any q = true := by
    intro order p q hp himp
    cases order with
    | none => cases hp
    | some o => exact himp o hp
  cases operation with
  | «in» | prefixOp | bloomFilter => cases hbounds
  | equal =>
    obtain _ | ⟨w₀, values⟩ := values <;> cases hbounds
    have hboth : ∀ op w inclusive c, some (w₀, true) = some (w, inclusive) →
        coerceClusteringValue w cqlType = some c →
        @boundAccepts (sourceOps display matchLikePattern) op v (some (c, inclusive)) = true := by
      rintro op w inclusive c ⟨⟩ hc
      rw [@boundAccepts.eq_2, compare_of_equal hv hc haccepts]
    exact ⟨fun w inclusive c hw hc _ => hboth .gt w inclusive c hw hc,
      fun w inclusive c hw hc _ => hboth .lt w inclusive c hw hc⟩
  | range =>
    obtain _ | ⟨lo, _ | ⟨hi, values⟩⟩ := values <;> cases hbounds
    obtain ⟨hlo, hhi⟩ := Bool.and_eq_true_iff.1 haccepts
    refine ⟨?_, ?_⟩
    · rintro w inclusive c ⟨⟩ hc hsame
      exact boundAccepts_coerced hv hc hsame rfl (hany hlo fun o ho => by
        cases o <;> simp_all [SSTableFilterOp.accepts])
    · rintro w inclusive c ⟨⟩ hc hsame
      exact boundAccepts_coerced hv hc hsame rfl (hany hhi fun o ho => by
        cases o <;> simp_all [SSTableFilterOp.accepts])
  | gt | gte =>
    obtain _ | ⟨w₀, values⟩ := values <;> cases hbounds
    refine ⟨?_, fun w inclusive c hw => (nomatch hw)⟩
    rintro w inclusive c ⟨⟩ hc hsame
    exact boundAccepts_coerced hv hc hsame rfl (hany haccepts fun o ho => by
      cases o <;> simp_all [SSTableFilterOp.accepts])
  | lt | lte =>
    obtain _ | ⟨w₀, values⟩ := values <;> cases hbounds
    refine ⟨fun w inclusive c hw => (nomatch hw), ?_⟩
    rintro w inclusive c ⟨⟩ hc hsame
    exact boundAccepts_coerced hv hc hsame rfl (hany haccepts fun o ho => by
      cases o <;> simp_all [SSTableFilterOp.accepts])

end Slices

/-! ### Rows -/

section Rows

variable (codec : ValueCodec) (schema : LookupSchema) (display : Value → String)
  (matchLikePattern : Bytes → Bytes → Bool) (predicates : List SSTablePredicate)
  (projection : List String)

/-- The columns a key decodes to satisfy the predicates on them. -/
def KeySatisfies (key : Bytes) : Prop :=
  ∃ columns, decodePartitionKeyColumns codec key schema.partitionKeys = .ok columns ∧
    ∀ p ∈ predicates, p.tokenColumns = none → p.column ∈ schema.partitionKeys.map (·.name) →
      @evaluateLeaf (sourceOps display matchLikePattern) ⟨fun name => columns.lookup name, key⟩ p = .true

/-- The key is what the columns it decodes to are written as. -/
def CanonicalKey (key : Bytes) : Prop :=
  ∃ columns, decodePartitionKeyColumns codec key schema.partitionKeys = .ok columns ∧
    encodePartitionKeyColumns codec (columns.map (·.2)) schema.partitionKeys = .ok key

/-- The row is built, and the predicates accept it. -/
def AcceptedRow (row : StoredRow) : Prop :=
  ∃ built, buildRowFromScan projection (row.entry codec schema) = some built ∧
    @evaluatePredicates (sourceOps display matchLikePattern) built predicates = true

/-- All literals are written as one key. -/
def OneKey : Prop :=
  ∃ key, ∀ literals, KeyLiterals predicates schema.partitionKeys literals →
    encodePartitionKeyColumns codec literals schema.partitionKeys = .ok key

def restrictionsOn (column : KeyColumn) : List SSTablePredicate :=
  predicates.filter fun p => p.tokenColumns.isNone && p.column == column.name

/-- The restrictions on the first clustering column, and none on another, give a slice. -/
structure SliceGiven (first : KeyColumn) : Prop where
  head : schema.clusteringKeys.head? = some first
  alone : ∀ ck ∈ schema.clusteringKeys.tail, restrictionsOn predicates ck = []
  restricted : restrictionsOn predicates first ≠ []
  narrows : ∀ p ∈ restrictionsOn predicates first, Narrows first.dataType p

/-- The last literal on a side, if converting it makes or unmakes a timestamp, has the value on the
    right side of what it is converted to. -/
def ConvertedAccepts (cqlType : String) (op : SSTableFilterOp) (v : Value)
    (literals : List (Value × Bool)) : Prop :=
  ∀ w inclusive c, literals.getLast? = some (w, inclusive) → coerceClusteringValue w cqlType = some c →
    isTimestamp w ≠ isTimestamp c → @boundAccepts (sourceOps display matchLikePattern) op v (some (c, inclusive)) = true

/-- What the table and the predicates have to satisfy. -/
structure LookupCondition (table : List StoredRow) : Prop where
  canonical : KeysGiven codec schema predicates → ∀ row ∈ table,
    KeySatisfies codec schema display matchLikePattern predicates row.key →
    CanonicalKey codec schema row.key
  bounds : KeysGiven codec schema predicates → OneKey codec schema predicates →
    ∀ first, SliceGiven schema predicates first → ∀ row ∈ table,
    AcceptedRow codec schema display matchLikePattern predicates projection row →
    ∀ cells v, row.cells = some cells → cells first.name = some v →
      ConvertedAccepts display matchLikePattern first.dataType .gt v
        ((restrictionsOn predicates first).filterMap startLiteral) ∧
      ConvertedAccepts display matchLikePattern first.dataType .lt v
        ((restrictionsOn predicates first).filterMap stopLiteral)

/-- The lookup returns the rows of the full scan; every partition that satisfies the predicates is
    looked up, once; and the slice has every accepted row. -/
structure LookupFaithful (table : List StoredRow) : Prop where
  rows : LookupExact codec schema display matchLikePattern table predicates projection
  keys : ∀ keys, (classifyPartitionLookup codec predicates (some schema)).keys = some keys →
    keys.Nodup ∧ ∀ row ∈ table,
      KeySatisfies codec schema display matchLikePattern predicates row.key → row.key ∈ keys
  slice : ∀ key slice, classifyPartitionLookup codec predicates (some schema) = .targeted key →
    classifyClusteringSlice predicates (some schema) = some slice → ∀ row ∈ table,
    AcceptedRow codec schema display matchLikePattern predicates projection row →
    slice.coversRow schema display matchLikePattern row = true

/-- A table of the schema, as the scan yields it. -/
structure TableFits (table : List StoredRow) : Prop where
  names : ((schema.partitionKeys ++ schema.clusteringKeys).map (·.name)).Nodup
  notFloat : ∀ column ∈ schema.partitionKeys, NotFloat codec column.dataType
  payload : ∀ row ∈ table, ∀ cells, row.cells = some cells →
    ∀ column ∈ schema.partitionKeys, cells column.name = none
  typed : ∀ first, schema.clusteringKeys.head? = some first → ∀ row ∈ table, ∀ cells v,
    row.cells = some cells → cells first.name = some v → v = .null ∨ Typed first.dataType v
  sorted : (table.map (StoredRow.entry codec schema)).Pairwise fun a b => tokenLe a b

variable {codec schema display matchLikePattern predicates projection}

theorem leaf_eq_true {row : QueryRow} (hp : p.tokenColumns = none) :
    @evaluateLeaf (sourceOps display matchLikePattern) row p = .true ↔
      ∃ v, row.values p.column = some v ∧ v ≠ .null ∧
        @matchesColumn (sourceOps display matchLikePattern) p v = true := by
  unfold evaluateLeaf
  rw [hp, if_neg (by simp)]
  cases hvalue : row.values p.column with
  | none => simp
  | some v =>
    cases v with
    | null => simp
    | _ => simp [Truth.ofBool_eq_true]

theorem findKeyPredicate_eq_some {column : KeyColumn}
    (h : findKeyPredicate predicates column = some p) :
    p ∈ predicates ∧ p.tokenColumns = none ∧ p.column = column.name ∧
      (p.operation = .equal ∨ p.operation = .in) := by
  have hmem := List.mem_of_find?_eq_some h
  have hcond := List.find?_some h
  simp only [Bool.and_eq_true, Bool.or_eq_true, beq_iff_eq, Option.isNone_iff_eq_none] at hcond
  exact ⟨hmem, hcond.1.1, hcond.1.2, hcond.2⟩

theorem literal_of_matches {v : Value} (hop : p.operation = .equal ∨ p.operation = .in)
    (h : @matchesColumn (sourceOps display matchLikePattern) p v = true) :
    ∃ w ∈ p.values, Value.valuesEqual v w = true := by
  obtain ⟨column, operation, values, token⟩ := p
  rcases hop with rfl | rfl
  · obtain _ | ⟨w, values⟩ := values
    · cases h
    · exact ⟨w, List.mem_cons_self, h⟩
  · exact List.any_eq_true.1 h

theorem lookup_of_mem {columns : List (String × Value)} (hnodup : (columns.map (·.1)).Nodup)
    {column : String × Value} (hmem : column ∈ columns) : columns.lookup column.1 = some column.2 := by
  obtain ⟨before, after, rfl⟩ := List.append_of_mem hmem
  refine List.lookup_eq_some_iff.2 ⟨before, after, rfl, fun other hother => ?_⟩
  rw [List.map_append, List.nodup_append] at hnodup
  simpa using (hnodup.2.2 other.1 (List.mem_map_of_mem hother) column.1 (by simp)).symm

/-- The columns of a key that satisfies the predicates equal some literals. -/
theorem exists_equal_literals {keys : List KeyColumn} {columns : List (String × Value)}
    (get : String → Option Value) (hnames : columns.map (·.1) = keys.map (·.name))
    (hget : ∀ column ∈ columns, get column.1 = some column.2)
    (hcount : ∀ column ∈ keys, literalCount predicates column ≠ 0)
    (hmatch : ∀ column ∈ keys, ∀ p v, findKeyPredicate predicates column = some p →
      get column.name = some v → ∃ w ∈ p.values, Value.valuesEqual v w = true) :
    ∃ literals, KeyLiterals predicates keys literals ∧
      List.Forall₂ (fun v w => Value.valuesEqual v w = true) (columns.map (·.2)) literals := by
  induction keys generalizing columns with
  | nil =>
    obtain rfl : columns = [] := by simpa using hnames
    exact ⟨[], .nil, .nil⟩
  | cons column keys ih =>
    obtain _ | ⟨⟨name, v⟩, columns⟩ := columns
    · cases hnames
    rw [List.map_cons, List.map_cons] at hnames
    obtain ⟨hname, hnames⟩ := List.cons.inj hnames
    obtain ⟨literals, hliterals, hequal⟩ := ih hnames
      (fun c hmem => hget c (List.mem_cons_of_mem _ hmem))
      (fun c hmem => hcount c (List.mem_cons_of_mem _ hmem))
      (fun c hmem => hmatch c (List.mem_cons_of_mem _ hmem))
    have hp := hcount column List.mem_cons_self
    rw [literalCount] at hp
    cases hfind : findKeyPredicate predicates column with
    | none =>
      rw [hfind] at hp
      exact absurd rfl hp
    | some p =>
      have hv : get column.name = some v := hname ▸ hget (name, v) List.mem_cons_self
      obtain ⟨w, hw, heq⟩ := hmatch column List.mem_cons_self p v hfind hv
      exact ⟨w :: literals, .cons ⟨p, hfind, hw⟩ hliterals, .cons heq hequal⟩

variable {table : List StoredRow}

theorem TableFits.key_names (fits : TableFits codec schema table) :
    (schema.partitionKeys.map (·.name)).Nodup := by
  have hnames := fits.names
  rw [List.map_append] at hnames
  exact (List.nodup_append.1 hnames).1

/-- Of the keys that satisfy the predicates, the canonical ones are looked up. -/
theorem mem_keys_iff (fits : TableFits codec schema table) (given : KeysGiven codec schema predicates)
    {keys : List Bytes} (hkeys : LookupKeys codec schema predicates keys) {key : Bytes}
    (hkey : KeySatisfies codec schema display matchLikePattern predicates key) :
    key ∈ keys ↔ CanonicalKey codec schema key := by
  obtain ⟨columns, hcolumns, hleaves⟩ := hkey
  have hnames := decodePartitionKeyColumns_names hcolumns
  constructor
  · intro hmem
    obtain ⟨literals, -, hencode⟩ := hkeys.literals_of key hmem
    exact ⟨columns, hcolumns, encode_of_decoded hencode hcolumns⟩
  · rintro ⟨columns', hcolumns', hencode⟩
    rw [hcolumns] at hcolumns'
    obtain rfl := Except.ok.inj hcolumns'
    obtain ⟨literals, hliterals, hequal⟩ := exists_equal_literals (fun name => columns.lookup name) hnames
      (fun column hmem => lookup_of_mem (hnames ▸ fits.key_names) hmem) given.literals
      (fun column hcolumn p v hp hv => by
        obtain ⟨hmem, htoken, hname, hop⟩ := findKeyPredicate_eq_some hp
        obtain ⟨v', hv', -, hmatch⟩ :=
          (leaf_eq_true htoken).1 (hleaves p hmem htoken (hname ▸ List.mem_map_of_mem hcolumn))
        rw [hname] at hv'
        obtain rfl := Option.some.inj (hv.symm.trans hv')
        exact literal_of_matches hop hmatch)
    obtain ⟨key', hmem, hkey'⟩ := hkeys.of_literals literals hliterals
    have hsame := encode_of_equal fits.notFloat hcolumns hequal hkey'
    rw [hencode] at hsame
    exact Except.ok.inj hsame ▸ hmem

theorem build_values {entry : ScanEntry} {built : QueryRow}
    (h : buildRowFromScan projection entry = some built) :
    ∃ cells, entry.cells = some cells ∧ built.key = entry.key ∧
      ∀ name v, built.values name = some v → cells name = some v := by
  obtain ⟨cells, hcells, rfl⟩ := Option.map_eq_some_iff.1 h
  refine ⟨cells, hcells, rfl, fun name v hv => ?_⟩
  simp only at hv
  split at hv
  · exact hv
  · cases hv

theorem entry_cells {row : StoredRow} {cells : String → Option Value}
    (h : (row.entry codec schema).cells = some cells) :
    ∃ stored, row.cells = some stored ∧ ∀ name, cells name =
      match decodePartitionKeyColumns codec row.key schema.partitionKeys with
      | .ok columns => (columns.lookup name).or (stored name)
      | .error _ => stored name := by
  obtain ⟨stored, hstored, rfl⟩ := Option.map_eq_some_iff.1 h
  exact ⟨stored, hstored, fun _ => rfl⟩

theorem AcceptedRow.keySatisfies (fits : TableFits codec schema table)
    (given : KeysGiven codec schema predicates) {row : StoredRow} (hrow : row ∈ table)
    (h : AcceptedRow codec schema display matchLikePattern predicates projection row) :
    KeySatisfies codec schema display matchLikePattern predicates row.key := by
  obtain ⟨built, hbuilt, haccepted⟩ := h
  obtain ⟨cells, hcells, hkey, hvalues⟩ := build_values hbuilt
  obtain ⟨stored, hstored, hread⟩ := entry_cells hcells
  have hleaf : ∀ p ∈ predicates,
      @evaluateLeaf (sourceOps display matchLikePattern) built p = .true := fun p hmem => by
    simpa using List.all_eq_true.1 haccepted p hmem
  cases hdecode : decodePartitionKeyColumns codec row.key schema.partitionKeys with
  | error e =>
    -- the first column has a predicate, and no value
    obtain ⟨column, hcolumn⟩ := List.exists_mem_of_ne_nil _ given.columns
    have hcount := given.literals column hcolumn
    rw [literalCount] at hcount
    cases hp : findKeyPredicate predicates column with
    | none =>
      rw [hp] at hcount
      exact absurd rfl hcount
    | some p =>
      obtain ⟨hmem, htoken, hname, -⟩ := findKeyPredicate_eq_some hp
      obtain ⟨v, hv, -⟩ := (leaf_eq_true htoken).1 (hleaf p hmem)
      have hcell := hvalues _ _ hv
      rw [hread, hdecode, hname] at hcell
      simp only [fits.payload row hrow stored hstored column hcolumn] at hcell
      cases hcell
  | ok columns =>
    refine ⟨columns, hdecode, fun p hmem htoken hcolumn => (leaf_eq_true htoken).2 ?_⟩
    obtain ⟨v, hv, hnull, hmatch⟩ := (leaf_eq_true htoken).1 (hleaf p hmem)
    refine ⟨v, ?_, hnull, hmatch⟩
    obtain ⟨column, hcolumn, hname⟩ := List.mem_map.1 hcolumn
    have hcell := hvalues _ _ hv
    rw [hread, hdecode, ← hname] at hcell
    simp only [fits.payload row hrow stored hstored column hcolumn, Option.or_none] at hcell
    rw [← hname]
    exact hcell

theorem classifyClusteringSlice_eq_some {slice : ClusteringSlice} :
    classifyClusteringSlice predicates (some schema) = some slice ↔
      ∃ first, SliceGiven schema predicates first ∧
        narrowedSlice first.dataType ⟨none, none⟩ (restrictionsOn predicates first) = slice := by
  rw [classifyClusteringSlice, Option.bind_some]
  cases hkeys : schema.clusteringKeys with
  | nil =>
    simp only
    refine ⟨fun h => (nomatch h), ?_⟩
    rintro ⟨first, ⟨hhead, -, -, -⟩, -⟩
    rw [hkeys] at hhead
    cases hhead
  | cons first others =>
    have halone : (others.any fun ck => predicates.any fun p =>
        p.tokenColumns.isNone && p.column == ck.name) = true ↔
        ¬ ∀ ck ∈ schema.clusteringKeys.tail, restrictionsOn predicates ck = [] := by
      rw [hkeys, List.tail_cons, List.any_eq_true]
      push Not
      refine exists_congr fun ck => and_congr_right fun _ => ?_
      rw [List.any_eq_true, restrictionsOn, Ne, List.filter_eq_nil_iff]
      push Not
      rfl
    have hfirst : ∀ column, SliceGiven schema predicates column → column = first := by
      rintro column ⟨hhead, -, -, -⟩
      rw [hkeys] at hhead
      exact (Option.some.inj hhead).symm
    simp only
    split
    · next hothers =>
      refine ⟨fun h => (nomatch h), ?_⟩
      rintro ⟨column, sliceGiven, -⟩
      exact absurd sliceGiven.alone (halone.1 hothers)
    next hothers =>
    have halone := not_not.1 (mt halone.2 hothers)
    split
    · next hempty =>
      refine ⟨fun h => (nomatch h), ?_⟩
      rintro ⟨column, sliceGiven, -⟩
      obtain rfl := hfirst column sliceGiven
      exact absurd (List.isEmpty_iff.1 hempty) sliceGiven.restricted
    · next hrestricted =>
      change (restrictionsOn predicates first).foldlM _ _ = _ ↔ _
      rw [foldlM_restrict]
      constructor
      · rintro ⟨hnarrows, hslice⟩
        exact ⟨first, ⟨by rw [hkeys]; rfl, halone, fun hnil => hrestricted (by
          rw [restrictionsOn] at hnil; rw [hnil]; rfl), hnarrows⟩, hslice⟩
      · rintro ⟨column, sliceGiven, hslice⟩
        obtain rfl := hfirst column sliceGiven
        exact ⟨sliceGiven.narrows, hslice⟩

/-- Where the other literals keep the value, the last one decides. -/
theorem lastBound_accepts_iff {cqlType : String} {op : SSTableFilterOp} {v : Value}
    {literals : List (Value × Bool)}
    (hkept : ∀ w inclusive c, (w, inclusive) ∈ literals → coerceClusteringValue w cqlType = some c →
      isTimestamp w = isTimestamp c →
      @boundAccepts (sourceOps display matchLikePattern) op v (some (c, inclusive)) = true) :
    @boundAccepts (sourceOps display matchLikePattern) op v (lastBound cqlType none literals) = true ↔
      ConvertedAccepts display matchLikePattern cqlType op v literals := by
  rw [lastBound, ConvertedAccepts]
  cases hlast : literals.getLast? with
  | none => simp [boundAccepts]
  | some bound =>
    obtain ⟨w, inclusive⟩ := bound
    simp only [Option.some.injEq, Prod.mk.injEq]
    cases hc : coerceClusteringValue w cqlType with
    | none =>
      refine ⟨?_, fun _ => rfl⟩
      rintro - w' inclusive' c ⟨rfl, rfl⟩ hc'
      rw [hc] at hc'
      cases hc'
    | some c =>
      constructor
      · rintro haccepts w' inclusive' c' ⟨rfl, rfl⟩ hc' -
        rw [hc] at hc'
        cases hc'
        exact haccepts
      · intro h
        by_cases hsame : isTimestamp w = isTimestamp c
        · exact hkept w inclusive c (List.mem_of_getLast? hlast) hc hsame
        · exact h w inclusive c ⟨rfl, rfl⟩ hc hsame

/-- The first clustering value of an accepted row, which its restrictions accept. -/
theorem AcceptedRow.first_value (fits : TableFits codec schema table) {row : StoredRow}
    (hrow : row ∈ table) {first : KeyColumn} (sliceGiven : SliceGiven schema predicates first)
    (h : AcceptedRow codec schema display matchLikePattern predicates projection row) :
    ∃ stored v, row.cells = some stored ∧ stored first.name = some v ∧ Typed first.dataType v ∧
      ∀ p ∈ restrictionsOn predicates first,
        @matchesColumn (sourceOps display matchLikePattern) p v = true := by
  obtain ⟨built, hbuilt, haccepted⟩ := h
  obtain ⟨cells, hcells, -, hvalues⟩ := build_values hbuilt
  obtain ⟨stored, hstored, hread⟩ := entry_cells hcells
  have hleaf : ∀ p ∈ restrictionsOn predicates first, ∃ v, built.values first.name = some v ∧
      v ≠ .null ∧ @matchesColumn (sourceOps display matchLikePattern) p v = true := by
    intro p hmem
    obtain ⟨hmem, hcond⟩ := List.mem_filter.1 hmem
    simp only [Bool.and_eq_true, Option.isNone_iff_eq_none, beq_iff_eq] at hcond
    rw [← hcond.2]
    exact (leaf_eq_true hcond.1).1 (by simpa using List.all_eq_true.1 haccepted p hmem)
  have hnokey : first.name ∉ schema.partitionKeys.map (·.name) := by
    intro hmem
    have hnames := fits.names
    rw [List.map_append, List.nodup_append] at hnames
    exact hnames.2.2 _ hmem _ (List.mem_map_of_mem (List.mem_of_mem_head? sliceGiven.head)) rfl
  obtain ⟨p, hp⟩ := List.exists_mem_of_ne_nil _ sliceGiven.restricted
  obtain ⟨v, hv, hnull, -⟩ := hleaf p hp
  have hcell := hvalues _ _ hv
  rw [hread] at hcell
  have hstoredv : stored first.name = some v := by
    cases hdecode : decodePartitionKeyColumns codec row.key schema.partitionKeys with
    | error e => simpa only [hdecode] using hcell
    | ok columns =>
      have hnone : columns.lookup first.name = none := by
        rw [List.lookup_eq_none_iff]
        intro column hcolumn
        rw [bne_iff_ne]
        rintro heq
        exact hnokey (decodePartitionKeyColumns_names hdecode ▸ heq ▸ List.mem_map_of_mem hcolumn)
      simpa only [hdecode, hnone, Option.none_or] using hcell
  refine ⟨stored, v, hstored, hstoredv,
    (fits.typed first sliceGiven.head row hrow stored v hstored hstoredv).resolve_left hnull,
    fun q hq => ?_⟩
  obtain ⟨v', hv', -, hmatch⟩ := hleaf q hq
  exact Option.some.inj (hv.symm.trans hv') ▸ hmatch

/-- Whether the slice has an accepted row is a matter of the literals that make or unmake a
    timestamp. -/
theorem covers_iff (fits : TableFits codec schema table) {row : StoredRow} (hrow : row ∈ table)
    {first : KeyColumn} (sliceGiven : SliceGiven schema predicates first)
    (haccepted : AcceptedRow codec schema display matchLikePattern predicates projection row) :
    (narrowedSlice first.dataType ⟨none, none⟩ (restrictionsOn predicates first)).coversRow schema display
        matchLikePattern row = true ↔
      ∀ cells v, row.cells = some cells → cells first.name = some v →
        ConvertedAccepts display matchLikePattern first.dataType .gt v
          ((restrictionsOn predicates first).filterMap startLiteral) ∧
        ConvertedAccepts display matchLikePattern first.dataType .lt v
          ((restrictionsOn predicates first).filterMap stopLiteral) := by
  obtain ⟨stored, v, hstored, hv, htyped, hmatch⟩ := haccepted.first_value fits hrow sliceGiven
  have hstart : ∀ w inclusive c, (w, inclusive) ∈ (restrictionsOn predicates first).filterMap startLiteral →
      coerceClusteringValue w first.dataType = some c → isTimestamp w = isTimestamp c →
      @boundAccepts (sourceOps display matchLikePattern) .gt v (some (c, inclusive)) = true := by
    intro w inclusive c hmem hc hsame
    obtain ⟨p, hp, hliteral⟩ := List.mem_filterMap.1 hmem
    obtain ⟨bounds, hbounds, hw⟩ := Option.bind_eq_some_iff.1 hliteral
    exact (bounds_kept htyped hbounds (hmatch p hp)).1 w inclusive c hw hc hsame
  have hstop : ∀ w inclusive c, (w, inclusive) ∈ (restrictionsOn predicates first).filterMap stopLiteral →
      coerceClusteringValue w first.dataType = some c → isTimestamp w = isTimestamp c →
      @boundAccepts (sourceOps display matchLikePattern) .lt v (some (c, inclusive)) = true := by
    intro w inclusive c hmem hc hsame
    obtain ⟨p, hp, hliteral⟩ := List.mem_filterMap.1 hmem
    obtain ⟨bounds, hbounds, hw⟩ := Option.bind_eq_some_iff.1 hliteral
    exact (bounds_kept htyped hbounds (hmatch p hp)).2 w inclusive c hw hc hsame
  unfold ClusteringSlice.coversRow ClusteringSlice.covers
  rw [sliceGiven.head, hstored]
  simp only [hv, narrowedSlice, Bool.and_eq_true, lastBound_accepts_iff hstart, lastBound_accepts_iff hstop,
    Option.some.injEq]
  constructor
  · rintro h cells v' rfl hv'
    obtain rfl := Option.some.inj (hv.symm.trans hv')
    exact h
  · exact fun h => h stored v rfl hv

theorem acceptedRows_filter {keep : StoredRow → Bool} (hkeep : ∀ row ∈ table,
      AcceptedRow codec schema display matchLikePattern predicates projection row → keep row = true) :
    acceptedRows display matchLikePattern predicates projection
        ((table.filter keep).map (StoredRow.entry codec schema)) =
      acceptedRows display matchLikePattern predicates projection
        (table.map (StoredRow.entry codec schema)) := by
  unfold acceptedRows QueryEnv.accepted
  rw [List.filterMap_map, List.filterMap_map, List.filter_filterMap, List.filter_filterMap,
    List.filterMap_filter]
  refine List.filterMap_congr fun row hrow => ?_
  split
  · rfl
  next hdropped =>
  cases hbuilt : buildRowFromScan projection (row.entry codec schema) with
  | none => simp [hbuilt]
  | some built =>
    simp only [Function.comp_apply, hbuilt, Option.filter_some]
    split
    · next haccepted => exact absurd (hkeep row hrow ⟨built, hbuilt, haccepted⟩) hdropped
    · rfl

/-- A lookup whose keys and slice have every accepted row returns the rows of the scan. -/
theorem lookupExact_of_found (fits : TableFits codec schema table)
    (hkeys : ∀ keys, (classifyPartitionLookup codec predicates (some schema)).keys = some keys →
      keys.Nodup ∧ ∀ row ∈ table,
        AcceptedRow codec schema display matchLikePattern predicates projection row → row.key ∈ keys)
    (hslice : ∀ key slice, classifyPartitionLookup codec predicates (some schema) = .targeted key →
      classifyClusteringSlice predicates (some schema) = some slice → ∀ row ∈ table,
      AcceptedRow codec schema display matchLikePattern predicates projection row →
      slice.coversRow schema display matchLikePattern row = true) :
    LookupExact codec schema display matchLikePattern table predicates projection := by
  intro sliceRead hread
  rw [lookupRows]
  cases hclassify : classifyPartitionLookup codec predicates (some schema) with
  | fallback => rfl
  | multiTargeted keys =>
    obtain ⟨hnodup, hmem⟩ := hkeys keys (by rw [hclassify]; rfl)
    simp only [multiPartition_eq_filter hnodup fits.sorted, List.filter_map]
    exact acceptedRows_filter fun row hrow haccepted => by
      have hkey := hmem row hrow haccepted
      simpa only [Function.comp_apply, StoredRow.entry, List.contains_iff_mem] using hkey
  | targeted key =>
    obtain ⟨-, hmem⟩ := hkeys [key] (by rw [hclassify]; rfl)
    have hkey : ∀ row ∈ table,
        AcceptedRow codec schema display matchLikePattern predicates projection row →
        (row.key == key) = true := fun row hrow haccepted => by
      simpa using hmem row hrow haccepted
    simp only
    cases hrestricted : classifyClusteringSlice predicates (some schema) with
    | none => exact acceptedRows_filter hkey
    | some slice =>
      simp only [List.filter_filter]
      refine acceptedRows_filter fun row hrow haccepted => ?_
      rw [hkey row hrow haccepted,
        hread slice row (hslice key slice hclassify hrestricted row hrow haccepted)]
      rfl

/-- The keys of a lookup come from literals that are all written as one key, if there is one key. -/
theorem oneKey_iff (given : KeysGiven codec schema predicates) {keys : List Bytes}
    (hkeys : LookupKeys codec schema predicates keys) :
    OneKey codec schema predicates ↔ ∃ key, keys = [key] := by
  constructor
  · rintro ⟨key, hone⟩
    have hall : ∀ k ∈ keys, k = key := by
      intro k hmem
      obtain ⟨literals, hliterals, hencode⟩ := hkeys.literals_of k hmem
      rw [hone literals hliterals] at hencode
      exact (Except.ok.inj hencode).symm
    obtain ⟨literals, hliterals⟩ := exists_keyLiterals given.literals
    obtain ⟨k, hmem, -⟩ := hkeys.of_literals literals hliterals
    refine ⟨key, ?_⟩
    have hrepeat := List.eq_replicate_iff.2 ⟨rfl, hall⟩
    have hnodup := hkeys.nodup
    rw [hrepeat, List.nodup_replicate] at hnodup
    have hpos := List.length_pos_of_mem hmem
    rw [hrepeat, show keys.length = 1 by omega]
    rfl
  · rintro ⟨key, rfl⟩
    refine ⟨key, fun literals hliterals => ?_⟩
    obtain ⟨k, hmem, hencode⟩ := hkeys.of_literals literals hliterals
    rwa [List.mem_singleton.1 hmem] at hencode

/-- The lookup is the filtered scan exactly if the keys it should find are canonical, and the
    literals converted to or from a timestamp do not cut off accepted rows. -/
theorem lookupFaithful_iff (codec : ValueCodec) (schema : LookupSchema) (display : Value → String)
    (matchLikePattern : Bytes → Bytes → Bool) (table : List StoredRow)
    (predicates : List SSTablePredicate) (projection : List String)
    (fits : TableFits codec schema table) :
    LookupFaithful codec schema display matchLikePattern predicates projection table ↔
      LookupCondition codec schema display matchLikePattern predicates projection table := by
  have hspec := @classify_spec codec schema predicates
  constructor
  · rintro ⟨-, hkeys, hslice⟩
    refine ⟨fun given row hrow hsatisfies => ?_, fun given hone first sliceGiven row hrow haccepted => ?_⟩
    · obtain ⟨keys, hclassify, -, lookupKeys, -⟩ | ⟨-, hnot⟩ := hspec
      · exact (mem_keys_iff fits given lookupKeys hsatisfies).1
          ((hkeys keys hclassify).2 row hrow hsatisfies)
      · exact absurd given hnot
    · obtain ⟨keys, -, -, lookupKeys, htargeted⟩ | ⟨-, hnot⟩ := hspec
      · obtain ⟨key, hkey⟩ := (oneKey_iff given lookupKeys).1 hone
        refine (covers_iff fits hrow sliceGiven haccepted).1 ?_
        exact hslice key _ (htargeted key hkey)
          (classifyClusteringSlice_eq_some.2 ⟨first, sliceGiven, rfl⟩) row hrow haccepted
      · exact absurd given hnot
  · rintro ⟨hcanonical, hbounds⟩
    have hkeys : ∀ keys, (classifyPartitionLookup codec predicates (some schema)).keys = some keys →
        KeysGiven codec schema predicates ∧ LookupKeys codec schema predicates keys ∧
        ∀ row ∈ table, KeySatisfies codec schema display matchLikePattern predicates row.key →
          row.key ∈ keys := by
      intro keys hclassify
      obtain ⟨keys', hclassify', given, lookupKeys, -⟩ | ⟨hnone, -⟩ := hspec
      · rw [hclassify] at hclassify'
        obtain rfl := Option.some.inj hclassify'
        exact ⟨given, lookupKeys, fun row hrow hsatisfies =>
          (mem_keys_iff fits given lookupKeys hsatisfies).2 (hcanonical given row hrow hsatisfies)⟩
      · rw [hclassify] at hnone
        cases hnone
    have hslice : ∀ key slice, classifyPartitionLookup codec predicates (some schema) = .targeted key →
        classifyClusteringSlice predicates (some schema) = some slice → ∀ row ∈ table,
        AcceptedRow codec schema display matchLikePattern predicates projection row →
        slice.coversRow schema display matchLikePattern row = true := by
      intro key slice hclassify hslice row hrow haccepted
      obtain ⟨given, lookupKeys, -⟩ := hkeys [key] (by rw [hclassify]; rfl)
      obtain ⟨first, sliceGiven, rfl⟩ := classifyClusteringSlice_eq_some.1 hslice
      exact (covers_iff fits hrow sliceGiven haccepted).2
        (hbounds given ((oneKey_iff given lookupKeys).2 ⟨key, rfl⟩) first sliceGiven row hrow haccepted)
    refine ⟨lookupExact_of_found fits (fun keys hclassify => ?_) hslice, fun keys hclassify => ?_, hslice⟩
    · obtain ⟨given, lookupKeys, hmem⟩ := hkeys keys hclassify
      exact ⟨lookupKeys.nodup, fun row hrow haccepted =>
        hmem row hrow (haccepted.keySatisfies fits given hrow)⟩
    · obtain ⟨-, lookupKeys, hmem⟩ := hkeys keys hclassify
      exact ⟨lookupKeys.nodup, hmem⟩

end Rows

/-! ### An event table -/

def bareTypes : ValueCodec :=
  ⟨fun _ => .error (.invalidInput "nested"), fun _ => .error (.invalidInput "nested")⟩

def eventSchema : LookupSchema := ⟨[⟨"id", "int"⟩], [⟨"at", "timestamp"⟩]⟩

/-- The event `5` of partition `1`. -/
def eventRow : StoredRow :=
  ⟨[0, 0, 0, 1], some fun name => if name = "at" then some (.timestamp 5) else none⟩

/-- `id = 1 AND at >= since`. -/
def eventsSince (since : Value) : List SSTablePredicate :=
  [.ofColumn "id" .equal [.bigInt 1], .ofColumn "at" .gte [since]]

theorem eventRow_fits : TableFits bareTypes eventSchema [eventRow] where
  names := by decide
  notFloat column hcolumn := by
    obtain rfl := List.mem_singleton.1 hcolumn
    have hint : ComparatorType.fromDataType bareTypes "int" = .ok .int := rfl
    exact ⟨by rw [hint]; exact fun h => (nomatch h), by rw [hint]; exact fun h => (nomatch h)⟩
  payload row hrow cells hcells column hcolumn := by
    obtain rfl := List.mem_singleton.1 hrow
    obtain rfl := List.mem_singleton.1 hcolumn
    cases hcells
    rfl
  typed first hfirst row hrow cells v hcells hv := by
    obtain rfl := List.mem_singleton.1 hrow
    cases hfirst
    cases hcells
    cases hv
    refine .inr fun t ht => ?_
    have htimestamp : ComparatorType.ofPrimitive (lowercase (trim "timestamp")) = some .timestamp := rfl
    rw [htimestamp] at ht
    cases ht
    rfl
  sorted := List.pairwise_singleton _ _

/-- A timestamp literal is not converted. -/
theorem lookup_since_timestamp :
    LookupFaithful bareTypes eventSchema (fun _ => "") (fun _ _ => false)
      (eventsSince (.timestamp 3)) [] [eventRow] := by
  refine (lookupFaithful_iff _ _ _ _ _ _ _ eventRow_fits).2 ⟨fun _ row hrow _ => ?_, ?_⟩
  · obtain rfl := List.mem_singleton.1 hrow
    exact ⟨[("id", .integer 1)], rfl, rfl⟩
  · rintro - - first ⟨hhead, -, -, -⟩ - - - - v - -
    cases hhead
    refine ⟨fun w inclusive c hlast hc hcross => ?_, fun w inclusive c hlast => ?_⟩
    · have hstart : (restrictionsOn (eventsSince (.timestamp 3)) ⟨"at", "timestamp"⟩).filterMap
          startLiteral = [(.timestamp 3, true)] := rfl
      have hsame : coerceClusteringValue (.timestamp 3) "timestamp" = some (.timestamp 3) := rfl
      rw [hstart] at hlast
      cases hlast
      rw [hsame] at hc
      cases hc
      exact absurd rfl hcross
    · have hstop : (restrictionsOn (eventsSince (.timestamp 3)) ⟨"at", "timestamp"⟩).filterMap
          stopLiteral = [] := rfl
      rw [hstop] at hlast
      cases hlast

/-- With the literal `10` the scan finds the event `5`, and the lookup does not. -/
theorem event_cut_off :
    TableFits bareTypes eventSchema [eventRow] ∧
      ¬ LookupFaithful bareTypes eventSchema (fun _ => "") (fun _ _ => false)
        (eventsSince (.bigInt 10)) [] [eventRow] := by
  refine ⟨eventRow_fits, fun faithful => ?_⟩
  have hrows := faithful.rows
    (fun slice row => slice.coversRow eventSchema (fun _ => "") (fun _ _ => false) row) fun _ _ h => h
  have hread : (acceptedRows (fun _ => "") (fun _ _ => false) (eventsSince (.bigInt 10)) []
      (lookupRows bareTypes eventSchema
        (fun slice row => slice.coversRow eventSchema (fun _ => "") (fun _ _ => false) row) [eventRow]
        (eventsSince (.bigInt 10)))).length = 0 := by decide +kernel
  have hscan : (acceptedRows (fun _ => "") (fun _ _ => false) (eventsSince (.bigInt 10)) []
      ([eventRow].map (StoredRow.entry bareTypes eventSchema))).length = 1 := by decide +kernel
  rw [hrows, hscan] at hread
  cases hread

end Cqlite
