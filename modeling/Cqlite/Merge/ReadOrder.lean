import Cqlite.Merge.ReadAssembly

/-! What a reassembled collection has to be, and when it is.

    The result may not depend on the order in which the cells arrive, and the elements follow their
    declared type: those of a list the times of their paths. It comes down to the paths of each
    column: that the comparison which sorts them is a strict order and goes with that of the type. -/

namespace Cqlite

open StableSort

/-! ### The orders of cell paths -/

/-- Big-endian read of the first 8 bytes. -/
def readBeU64 (bytes : Bytes) : UInt64 := UInt64.ofNat (VInt.fromBe (bytes.take 8))

/-- The time of a version-1 UUID in the order of its significance. -/
def reorderTimestampBytes (input : UInt64) : UInt64 :=
  (input <<< 48) ||| ((input <<< 16) &&& (0xFFFF00000000 : UInt64)) ||| (input >>> 32)

/-- The order of the type `uuid`, in which the writer sorts the elements of a set: the version first,
    then the time of a version 1 and the upper half of the others, then the lower half. -/
def compareUuidCassandra (a b : Bytes) : Ordering :=
  let msb1 := readBeU64 a
  let msb2 := readBeU64 b
  let version1 := (msb1 >>> 12) &&& 0xf
  let version2 := (msb2 >>> 12) &&& 0xf
  if version1 ≠ version2 then compare version1 version2
  else
    (if version1 = 1 then compare (reorderTimestampBytes msb1) (reorderTimestampBytes msb2)
      else compare msb1 msb2).then (compare (readBeU64 (a.drop 8)) (readBeU64 (b.drop 8)))

/-- The order of a scalar type. -/
def CqlType.valueOrder : CqlType → Value → Value → Ordering
  | .boolean => ClusteringType.boolean.order
  | .tinyInt => ClusteringType.tinyInt.order
  | .smallInt => ClusteringType.smallInt.order
  | .int => ClusteringType.int.order
  | .bigInt => ClusteringType.bigInt.order
  | .counter => fun
    | .counter a, .counter b => compare a b
    | _, _ => .eq
  | .float => ClusteringType.float.order
  | .double => ClusteringType.double.order
  | .decimal => ClusteringType.decimal.order
  | .text | .ascii | .varchar => ClusteringType.text.order
  | .blob => ClusteringType.blob.order
  | .timestamp => ClusteringType.timestamp.order
  | .date => ClusteringType.date.order
  | .uuid => fun
    | .uuid a, .uuid b => compareUuidCassandra a b
    | _, _ => .eq
  | .timeUuid => ClusteringType.timeUuid.order
  | .duration => ClusteringType.duration.order
  | .varint => ClusteringType.varint.order
  | _ => fun _ _ => .eq

/-- The order of a type on the bytes of its values; `time` and `inet` are ordered as bytes. -/
def CqlType.pathOrder (t : CqlType) (p q : Bytes) : Ordering :=
  match t with
  | .frozen inner => inner.pathOrder p q
  | .time | .inet | .custom _ => compare p q
  | t =>
    let cmp := ElementComparator.fromCqlType t
    match cmp.deserialize p, cmp.deserialize q with
    | .ok v, .ok w => t.valueOrder v w
    | _, _ => .eq

/-- The comparison that sorts elements. -/
def ElementComparator.comparePaths (cmp : ElementComparator) (p q : Bytes) : Ordering :=
  if cmp.ordersByRawBytes then compare p q
  else
    match cmp.deserialize p, cmp.deserialize q with
    | .ok v, .ok w => (cmp.compareValues v w).getD .eq
    | _, _ => .eq

/-! ### What is expected -/

/-- The live elements of a column. -/
def liveElements (needed : Option (List String)) (cells : List CellData) (name : String) :
    List CellData :=
  (columnCells needed cells name).filter CellData.isComplexElement

/-- Elements in the order of their paths. -/
def InPathOrder (order : Bytes → Bytes → Ordering) (es : List CellData) : Prop :=
  es.Pairwise fun a b => order a.pathBytes b.pathBytes ≠ .gt

/-- The value of a collection: its live elements, in order. -/
def Collects (live : List CellData) (v : Value) : CqlType → Prop
  | .set inner => ∃ es, es.Perm live ∧ InPathOrder inner.pathOrder es ∧ v = .set (es.map CellData.value)
  | .list _ => ∃ es, es.Perm live ∧ InPathOrder timeUuidCmp es ∧ v = .list (es.map CellData.value)
  | .map key _ => ∃ es keys, es.Perm live ∧ InPathOrder key.pathOrder es ∧
      List.Forall₂ (fun e k => (ElementComparator.fromCqlType key).deserialize e.pathBytes = .ok k) es
        keys ∧ v = .map (keys.zip (es.map CellData.value))
  | _ => True

/-- The same values, or an error in both cases. -/
def SameColumns : Except AssemblyError (List (String × Value)) →
    Except AssemblyError (List (String × Value)) → Prop
  | .ok out, .ok out' => ∀ name, out.lookup name = out'.lookup name
  | .error _, .error _ => True
  | _, _ => False

section Assembly

variable (sort : StableSort) (parse : String → Except AssemblyError CqlType)
  (columns : List ReadColumn) (needed : Option (List String))

/-- The cells of a row are reassembled independently of their order, collections in theirs. -/
structure Reassembled (cells : List CellData) : Prop where
  permuted : ∀ cells', cells'.Perm cells →
    SameColumns (assembleReadCells sort parse columns cells' needed)
      (assembleReadCells sort parse columns cells needed)
  collections : ∀ out name dataType cqlType,
    assembleReadCells sort parse columns cells needed = .ok out →
    declaredType columns name = some dataType → parse dataType = .ok cqlType →
    liveElements needed cells name ≠ [] →
      ∃ v, out.lookup name = some v ∧
        Collects (liveElements needed cells name) v cqlType.unwrapFrozen

end Assembly

/-! ### When it is so -/

/-- Whether the cells of a column are elements, and their paths. -/
def layout (cs : List CellData) : List (Bool × Bytes) :=
  cs.map fun c => (c.isComplexElement, c.pathBytes)

/-- The comparison of the code is a strict order on the paths, and that of the type. -/
structure Follows (code order : Bytes → Bytes → Ordering) (paths : List Bytes) : Prop where
  strict : StrictOn code paths
  follows : ∀ p ∈ paths, ∀ q ∈ paths, code p q = .lt → order p q ≠ .gt

def PathsSettled (paths : List Bytes) : CqlType → Prop
  | .set inner => Follows (ElementComparator.fromCqlType inner).comparePaths inner.pathOrder paths
  | .map key _ => Follows (ElementComparator.fromCqlType key).comparePaths key.pathOrder paths
  | .list _ => Follows compare timeUuidCmp paths
  | _ => paths.length ≤ 1

/-- An element or key type without a codec, or a path that does not decode. -/
def PathsRefused (paths : List Bytes) : CqlType → Prop
  | .set inner =>
    let cmp := ElementComparator.fromCqlType inner
    cmp.isOpaqueComposite = true ∨
      (cmp.ordersByRawBytes = false ∧ ∃ p ∈ paths, ∃ e, cmp.deserialize p = .error e)
  | .map key _ =>
    let cmp := ElementComparator.fromCqlType key
    cmp.isOpaqueComposite = true ∨ ∃ p ∈ paths, ∃ e, cmp.deserialize p = .error e
  | _ => False

section Columns

variable (parse : String → Except AssemblyError CqlType) (columns : List ReadColumn)

/-- A column with at most one value, or whose elements are sorted as they should. -/
def ColumnSettled (name : String) (cs : List (Bool × Bytes)) : Prop :=
  if cs.all Prod.fst then
    match declaredType columns name with
    | none => cs.length ≤ 1
    | some dataType => ∀ t, parse dataType = .ok t → PathsSettled (cs.map Prod.snd) t.unwrapFrozen
  else cs.length ≤ 1

/-- A column for which the row is refused. -/
def ColumnRefused (name : String) (cs : List (Bool × Bytes)) : Prop :=
  if cs.all Prod.fst then
    cs ≠ [] ∧ ∃ dataType, declaredType columns name = some dataType ∧
      ((∃ e, parse dataType = .error e) ∨
        ∃ t, parse dataType = .ok t ∧ PathsRefused (cs.map Prod.snd) t.unwrapFrozen)
  else cs.any Prod.fst = true

end Columns

/-! ### Sorting by decoded paths -/

variable {v : Value} {cs : List CellData}

theorem scalar_cases {comparator : ComparatorType} (hv : comparator.holds v = true)
    (hplain : (ElementComparator.scalar comparator).isOpaqueComposite = false)
    (hraw : (ElementComparator.scalar comparator).ordersByRawBytes = false) :
    v.isNull = false ∧ comparator.compareValues v v = some .eq ∧
      ∀ w, comparator.holds w = true → (comparator.compareValues v w).isSome = true := by
  have hfloat : ∀ w m a, cassandraCmp w m a a = .eq := fun w m a => by
    have := cassandraCmp_transCmp w m
    exact Std.ReflCmp.compare_self
  cases comparator with
  | custom name =>
    simp only [ElementComparator.isOpaqueComposite, ElementComparator.ordersByRawBytes,
      Bool.not_eq_eq_eq_not, Bool.not_false] at hplain hraw
    rw [Bool.or_comm, hraw] at hplain
    cases hplain
  | nested dataType => cases hplain
  | _ =>
    cases v <;> first | (cases hv; done) | skip
    refine ⟨rfl, ?_, fun w hw => ?_⟩
    · simp [ComparatorType.compareValues, Value.asBool, Value.asI32, Value.asI64, Value.asF64,
        Value.asBytes, compareDecimal, cassandraFloatCmp, cassandraDoubleCmp, hfloat]
    · cases w <;> first | (cases hw; done) | rfl

variable {cmp : ElementComparator}

theorem scalar_of_deserialize {p : Bytes} (h : cmp.deserialize p = .ok v) :
    ∃ comparator, cmp = .scalar comparator ∧ comparator.holds v = true := by
  cases cmp with
  | scalar comparator => exact ⟨comparator, rfl, holds_of_deserialize h⟩
  | frozen inner => cases h
  | composite => cases h

theorem compareValues_decoded {p q : Bytes} {w : Value} (hplain : cmp.isOpaqueComposite = false)
    (hraw : cmp.ordersByRawBytes = false) (hv : cmp.deserialize p = .ok v)
    (hw : cmp.deserialize q = .ok w) :
    (cmp.compareValues v w).isSome = true := by
  obtain ⟨comparator, rfl, hholds⟩ := scalar_of_deserialize hv
  obtain ⟨hnull, -, hall⟩ := scalar_cases hholds hplain hraw
  obtain ⟨hnull', -⟩ := scalar_cases (holds_of_deserialize hw) hplain hraw
  rw [ElementComparator.compareValues, hnull, hnull']
  exact hall w (holds_of_deserialize hw)

theorem comparePaths_self (hplain : cmp.isOpaqueComposite = false) (p : Bytes) :
    cmp.comparePaths p p = .eq := by
  rw [ElementComparator.comparePaths]
  split
  · exact Std.ReflCmp.compare_self
  · rename_i hraw
    cases hv : cmp.deserialize p with
    | error e => rfl
    | ok v =>
      obtain ⟨comparator, rfl, hholds⟩ := scalar_of_deserialize hv
      obtain ⟨hnull, hself, -⟩ := scalar_cases hholds hplain (Bool.eq_false_iff.2 hraw)
      change (ElementComparator.compareValues _ v v).getD .eq = .eq
      rw [ElementComparator.compareValues, hnull, hself]
      rfl

/-- An element with its decoded path. -/
def keyed (cmp : ElementComparator) (c : CellData) : Value × CellData :=
  ((cmp.deserialize c.pathBytes).toOption.getD .null, c)

def compareKeyed (cmp : ElementComparator) (a b : Value × CellData) : Ordering :=
  (cmp.compareValues a.1 b.1).getD .eq

theorem decodePaths_eq (h : ∀ c ∈ cs, ∃ v, cmp.deserialize c.pathBytes = .ok v) :
    decodePaths cs cmp = .ok (cs.map (keyed cmp)) := by
  refine mapM_eq_ok.2 (List.forall₂_map_right_iff.2 (List.forall₂_same.2 fun c hc => ?_))
  obtain ⟨v, hv⟩ := h c hc
  rw [keyed, hv]
  rfl

theorem compareKeyed_keyed {a b : CellData} (hraw : cmp.ordersByRawBytes = false)
    (ha : ∃ v, cmp.deserialize a.pathBytes = .ok v)
    (hb : ∃ v, cmp.deserialize b.pathBytes = .ok v) :
    compareKeyed cmp (keyed cmp a) (keyed cmp b) = cmp.comparePaths a.pathBytes b.pathBytes := by
  obtain ⟨v, hv⟩ := ha
  obtain ⟨w, hw⟩ := hb
  rw [compareKeyed, keyed, keyed, ElementComparator.comparePaths, hraw, hv, hw]
  rfl

/-- The elements, sorted. -/
def sortedElements (sort : StableSort) (cmp : ElementComparator) (cs : List CellData) :
    List CellData :=
  if cmp.ordersByRawBytes then sort.run compareRawPaths cs
  else (sort.run (compareKeyed cmp) (cs.map (keyed cmp))).map Prod.snd

theorem sortElements_eq (sort : StableSort) (hplain : cmp.isOpaqueComposite = false)
    (h : cmp.ordersByRawBytes = false → ∀ c ∈ cs, ∃ v, cmp.deserialize c.pathBytes = .ok v) :
    sortElementsByCellPath sort cs cmp = .ok (sortedElements sort cmp cs) := by
  rw [sortElementsByCellPath, sortedElements, hplain]
  cases hraw : cmp.ordersByRawBytes with
  | true => rfl
  | false =>
    have hdecodes := h hraw
    have hcompare : ((cs.map (keyed cmp)).all fun a => (cs.map (keyed cmp)).all fun b =>
        (cmp.compareValues a.1 b.1).isSome) = true := by
      simp only [List.all_eq_true, List.forall_mem_map]
      intro a ha b hb
      obtain ⟨v, hv⟩ := hdecodes a ha
      obtain ⟨w, hw⟩ := hdecodes b hb
      rw [keyed, keyed, hv, hw]
      exact compareValues_decoded hplain hraw hv hw
    rw [decodePaths_eq hdecodes]
    change (sortByComparator sort (cs.map (keyed cmp)) cmp >>= fun sorted => _) = _
    rw [sortByComparator, if_pos hcompare]
    rfl

theorem map_snd_keyed (cmp : ElementComparator) (cs : List CellData) :
    (cs.map (keyed cmp)).map Prod.snd = cs := by
  rw [List.map_map]
  exact List.map_id _

theorem sortedElements_perm (sort : StableSort) (cmp : ElementComparator) (cs : List CellData) :
    (sortedElements sort cmp cs).Perm cs := by
  rw [sortedElements]
  split
  · exact sort.perm _ _
  · have := (sort.perm (compareKeyed cmp) (cs.map (keyed cmp))).map Prod.snd
    rwa [map_snd_keyed] at this

section Strict

variable {cmp : ElementComparator} {cs : List CellData}
  (h : cmp.ordersByRawBytes = false → ∀ c ∈ cs, ∃ v, cmp.deserialize c.pathBytes = .ok v)

include h

theorem strictOn_paths :
    StrictOn cmp.comparePaths (cs.map CellData.pathBytes) ↔
      if cmp.ordersByRawBytes then StrictOn compareRawPaths cs
      else StrictOn (compareKeyed cmp) (cs.map (keyed cmp)) := by
  have hpaths : StrictOn cmp.comparePaths (cs.map CellData.pathBytes) ↔
      StrictOn (fun a b : CellData => cmp.comparePaths a.pathBytes b.pathBytes) cs :=
    ⟨StrictOn.of_map, StrictOn.map⟩
  rw [hpaths]
  split
  · rename_i hraw
    have heq : (fun a b : CellData => cmp.comparePaths a.pathBytes b.pathBytes) = compareRawPaths := by
      funext a b
      rw [ElementComparator.comparePaths, if_pos hraw]
      rfl
    rw [heq]
  · rename_i hraw
    have hraw := Bool.eq_false_iff.2 hraw
    have heq : ∀ a ∈ cs, ∀ b ∈ cs, compareKeyed cmp (keyed cmp a) (keyed cmp b) =
        cmp.comparePaths a.pathBytes b.pathBytes :=
      fun a ha b hb => compareKeyed_keyed hraw (h hraw a ha) (h hraw b hb)
    exact ⟨fun hs => StrictOn.map (hs.congr heq),
      fun hs => hs.of_map.congr fun a ha b hb => (heq a ha b hb).symm⟩

/-- Under a strict order every sort gives the same list. -/
theorem sortedElements_strict (sort : StableSort)
    (hstrict : StrictOn cmp.comparePaths (cs.map CellData.pathBytes)) :
    ((sortedElements sort cmp cs).Pairwise fun a b => cmp.comparePaths a.pathBytes b.pathBytes = .lt) ∧
      ∀ cs' : List CellData, cs'.Perm cs → sortedElements sort cmp cs' = sortedElements sort cmp cs := by
  rw [strictOn_paths h] at hstrict
  cases hraw : cmp.ordersByRawBytes with
  | true =>
    rw [hraw] at hstrict
    simp only [sortedElements, hraw, if_true]
    refine ⟨(sort.run_pairwise hstrict).imp fun {a b} hab => ?_, fun cs' hperm =>
      sort.run_of_perm hstrict hperm⟩
    rw [ElementComparator.comparePaths, if_pos hraw]
    exact hab
  | false =>
    rw [hraw] at hstrict
    simp only [sortedElements, hraw, Bool.false_eq_true, if_false] at hstrict ⊢
    constructor
    · rw [List.pairwise_map]
      refine (sort.run_pairwise hstrict).imp_of_mem fun {a b} ha hb hab => ?_
      obtain ⟨c, hc, rfl⟩ := List.mem_map.1 (sort.mem_run.1 ha)
      obtain ⟨d, hd, rfl⟩ := List.mem_map.1 (sort.mem_run.1 hb)
      rw [compareKeyed_keyed hraw (h hraw c hc) (h hraw d hd)] at hab
      exact hab
    · intro cs' hperm
      rw [sort.run_of_perm hstrict (hperm.map _)]

/-- Without a strict order a sort may show in which order the elements arrived. -/
theorem sortedElements_lazy (hplain : cmp.isOpaqueComposite = false) (hnodup : cs.Nodup)
    (hstrict : ¬ StrictOn cmp.comparePaths (cs.map CellData.pathBytes)) :
    sortedElements lazy cmp cs.reverse ≠ sortedElements lazy cmp cs := by
  have hself := comparePaths_self hplain
  rw [strictOn_paths h] at hstrict
  cases hraw : cmp.ordersByRawBytes with
  | true =>
    rw [hraw] at hstrict
    simp only [sortedElements, hraw, if_true]
    refine lazy_reverse_ne hnodup (fun a _ => ?_) hstrict
    rw [compareRawPaths]
    exact Std.ReflCmp.compare_self
  | false =>
    rw [hraw] at hstrict
    simp only [sortedElements, hraw, Bool.false_eq_true, if_false] at hstrict ⊢
    have hinj : ∀ a ∈ cs.map (keyed cmp), a = keyed cmp a.2 := by
      simp only [List.forall_mem_map]
      exact fun a _ => rfl
    intro heq
    refine lazy_reverse_ne (hnodup.map fun a b hab => congrArg Prod.snd hab) (fun a ha => ?_) hstrict ?_
    · obtain ⟨c, hc, rfl⟩ := List.mem_map.1 ha
      rw [compareKeyed_keyed hraw (h hraw c hc) (h hraw c hc)]
      exact hself _
    · rw [← List.map_reverse]
      have hback : ∀ l : List (Value × CellData), (∀ a ∈ l, a = keyed cmp a.2) →
          l = (l.map Prod.snd).map (keyed cmp) := fun l hl => by
        rw [List.map_map]
        exact (List.map_id l).symm.trans (List.map_congr_left hl)
      have hrun : ∀ l, (∀ a ∈ l, a ∈ cs.map (keyed cmp)) → ∀ a ∈ lazy.run (compareKeyed cmp) l,
          a = keyed cmp a.2 := fun l hl a ha => hinj a (hl a (lazy.mem_run.1 ha))
      rw [hback _ (hrun _ fun a ha => by simpa using ha), heq, ← hback _ (hrun _ fun a ha => ha)]

end Strict

/-! ### One collection -/

/-- The comparator of a list's paths. -/
def positionComparator : ElementComparator := .scalar (.custom "inet")

theorem comparePaths_position : positionComparator.comparePaths = compare := rfl

/-- What the code makes of the elements of a column. -/
def assembledValue (sort : StableSort) (cs : List CellData) : CqlType → Value
  | .set inner =>
    .set ((sortedElements sort (ElementComparator.fromCqlType inner) cs).map CellData.value)
  | .list _ => .list ((sortedElements sort positionComparator cs).map CellData.value)
  | .map key _ =>
    let cmp := ElementComparator.fromCqlType key
    .map (((sortedElements sort cmp cs).map (keyed cmp)).map fun e => (e.1, e.2.value))
  | _ => lastValue cs

theorem decodes_of_not (h : ¬ ∃ p ∈ cs.map CellData.pathBytes, ∃ e, cmp.deserialize p = .error e) :
    ∀ c ∈ cs, ∃ v, cmp.deserialize c.pathBytes = .ok v := by
  intro c hc
  cases hd : cmp.deserialize c.pathBytes with
  | ok v => exact ⟨v, rfl⟩
  | error e => exact absurd ⟨_, List.mem_map_of_mem hc, e, hd⟩ h

theorem decodePaths_error {c : CellData} {e : Error} (hc : c ∈ cs)
    (he : cmp.deserialize c.pathBytes = .error e) : ∃ e', decodePaths cs cmp = .error e' := by
  cases hd : decodePaths cs cmp with
  | error e' => exact ⟨e', rfl⟩
  | ok ks =>
    have hall := mapM_eq_ok.1 hd
    clear hd
    induction hall with
    | nil => cases hc
    | cons hk hrest ih =>
      rcases List.mem_cons.1 hc with rfl | hc
      · rw [he] at hk
        cases hk
      · exact (ih hc).elim fun _ h => (nomatch h)

section Collections

variable (sort : StableSort) (name : String) {cs : List CellData}

variable {t : CqlType}

theorem assembleCollection_ok (h : ¬ PathsRefused (cs.map CellData.pathBytes) t) :
    assembleCollection sort name cs t = .ok (assembledValue sort cs t) := by
  cases t with
  | set inner =>
    obtain ⟨hplain, hdecodes⟩ := not_or.1 h
    rw [Bool.not_eq_true] at hplain
    rw [assembleCollection, hplain, sortElements_eq sort hplain fun hraw =>
      decodes_of_not fun hbad => hdecodes ⟨hraw, hbad⟩]
    rfl
  | map key value =>
    obtain ⟨hplain, hdecodes⟩ := not_or.1 h
    have hdecodes := decodes_of_not hdecodes
    rw [Bool.not_eq_true] at hplain
    rw [assembleCollection, hplain, sortElements_eq sort hplain fun _ => hdecodes]
    change (decodePaths (sortedElements sort _ cs) _ >>= fun entries => _) = _
    rw [decodePaths_eq fun c hc => hdecodes c ((sortedElements_perm sort _ cs).subset hc)]
    rfl
  | _ => rfl

/-- A path that does not decode refuses the column. -/
theorem assembleCollection_error (h : PathsRefused (cs.map CellData.pathBytes) t) :
    ∃ e, assembleCollection sort name cs t = .error e := by
  cases t with
  | set inner =>
    rw [assembleCollection]
    rcases h with hplain | ⟨hraw, p, hp, e, he⟩
    · rw [if_pos hplain]
      exact ⟨_, rfl⟩
    · split
      · exact ⟨_, rfl⟩
      · rename_i hplain
        obtain ⟨c, hc, rfl⟩ := List.mem_map.1 hp
        obtain ⟨e', he'⟩ := decodePaths_error hc he
        rw [sortElementsByCellPath, Bool.eq_false_iff.2 hplain, hraw, he']
        exact ⟨e', rfl⟩
  | map key value =>
    rw [assembleCollection]
    rcases h with hplain | ⟨p, hp, e, he⟩
    · rw [if_pos hplain]
      exact ⟨_, rfl⟩
    · split
      · exact ⟨_, rfl⟩
      · rename_i hplain
        obtain ⟨c, hc, rfl⟩ := List.mem_map.1 hp
        rw [sortElementsByCellPath, Bool.eq_false_iff.2 hplain]
        cases hraw : (ElementComparator.fromCqlType key).ordersByRawBytes with
        | true =>
          obtain ⟨e', he'⟩ := decodePaths_error ((sort.perm compareRawPaths cs).symm.subset hc) he
          refine ⟨e', ?_⟩
          change (decodePaths (sort.run compareRawPaths cs) _ >>= fun entries => _) = _
          rw [he']
          rfl
        | false =>
          obtain ⟨e', he'⟩ := decodePaths_error hc he
          rw [he']
          exact ⟨e', rfl⟩
  | _ => exact h.elim

variable {sort name}

theorem inPathOrder_of_follows {cmp : ElementComparator} {order : Bytes → Bytes → Ordering}
    (hdecodes : cmp.ordersByRawBytes = false → ∀ c ∈ cs, ∃ v, cmp.deserialize c.pathBytes = .ok v)
    (h : Follows cmp.comparePaths order (cs.map CellData.pathBytes)) :
    InPathOrder order (sortedElements sort cmp cs) := by
  refine (sortedElements_strict hdecodes sort h.strict).1.imp_of_mem fun {a b} ha hb hab => ?_
  have hmem := fun c hc => List.mem_map_of_mem (f := CellData.pathBytes)
    ((sortedElements_perm sort cmp cs).subset (a := c) hc)
  exact h.follows _ (hmem a ha) _ (hmem b hb) hab

/-- Settled elements make one collection, in the order of its type. -/
theorem assembledValue_settled {t : CqlType} (hrefused : ¬ PathsRefused (cs.map CellData.pathBytes) t)
    (h : PathsSettled (cs.map CellData.pathBytes) t) :
    Collects cs (assembledValue sort cs t) t ∧
      ∀ cs' : List CellData, cs'.Perm cs → assembledValue sort cs' t = assembledValue sort cs t := by
  have hshort : (cs.map CellData.pathBytes).length ≤ 1 →
      ∀ cs' : List CellData, cs'.Perm cs → cs' = cs := fun hlen cs' hperm => by
    rw [List.length_map] at hlen
    match cs, hlen with
    | [], _ => exact hperm.eq_nil
    | [c], _ => exact List.perm_singleton.1 hperm
  cases t with
  | set inner =>
    have hdecodes := fun hraw => decodes_of_not fun hbad => (not_or.1 hrefused).2 ⟨hraw, hbad⟩
    refine ⟨⟨_, sortedElements_perm _ _ _, inPathOrder_of_follows hdecodes h, rfl⟩,
      fun cs' hperm => ?_⟩
    rw [assembledValue, (sortedElements_strict hdecodes sort h.strict).2 cs' hperm]
    rfl
  | list inner =>
    have hdecodes : positionComparator.ordersByRawBytes = false → ∀ c ∈ cs, ∃ v,
        positionComparator.deserialize c.pathBytes = .ok v := fun hraw => by cases hraw
    rw [PathsSettled, ← comparePaths_position] at h
    refine ⟨⟨_, sortedElements_perm _ _ _, inPathOrder_of_follows hdecodes h, rfl⟩,
      fun cs' hperm => ?_⟩
    rw [assembledValue, (sortedElements_strict hdecodes sort h.strict).2 cs' hperm]
    rfl
  | map key value =>
    have hdecodes := decodes_of_not (not_or.1 hrefused).2
    refine ⟨⟨sortedElements sort (ElementComparator.fromCqlType key) cs,
      (sortedElements sort (ElementComparator.fromCqlType key) cs).map
        fun c => (keyed (ElementComparator.fromCqlType key) c).1,
      sortedElements_perm _ _ _, inPathOrder_of_follows (fun _ => hdecodes) h, ?_, ?_⟩,
      fun cs' hperm => ?_⟩
    · refine List.forall₂_map_right_iff.2 (List.forall₂_same.2 fun c hc => ?_)
      obtain ⟨v, hv⟩ := hdecodes c ((sortedElements_perm sort _ cs).subset hc)
      rw [keyed, hv]
      rfl
    · rw [assembledValue, List.zip_map', List.map_map]
      rfl
    · rw [assembledValue, (sortedElements_strict (fun _ => hdecodes) sort h.strict).2 cs' hperm]
      rfl
  | _ => exact ⟨trivial, fun cs' hperm => by rw [hshort h cs' hperm]⟩

theorem eq_of_map_value {xs ys : List CellData} (hnodup : (cs.map CellData.value).Nodup)
    (hxs : xs.Perm cs) (hys : ys.Perm cs)
    (h : xs.map CellData.value = ys.map CellData.value) : xs = ys := by
  refine List.ext_getElem (hxs.length_eq.trans hys.length_eq.symm) fun i hi hi' => ?_
  refine List.inj_on_of_nodup_map hnodup (hxs.subset (List.getElem_mem hi))
    (hys.subset (List.getElem_mem hi')) ?_
  have hat := congrArg (fun l => l[i]?) h
  simpa [hi, hi'] using hat

theorem lastValue_reverse (hnodup : (cs.map CellData.value).Nodup)
    (h : lastValue cs.reverse = lastValue cs) : cs.length ≤ 1 := by
  match cs, hnodup, h with
  | [], _, _ => exact Nat.zero_le _
  | [c], _, _ => exact le_rfl
  | c :: d :: rest, hnodup, h =>
    have hfirst : lastValue (c :: d :: rest).reverse = c.value := by
      rw [lastValue, List.getLast?_reverse]
      rfl
    have hlast : lastValue (c :: d :: rest) = ((d :: rest).getLast (by simp)).value := by
      rw [lastValue, List.getLast?_eq_getLast_of_ne_nil (by simp), List.getLast_cons (by simp)]
      rfl
    rw [hfirst, hlast] at h
    exact absurd (h ▸ List.mem_map_of_mem (List.getLast_mem _)) (List.nodup_cons.1 hnodup).1

/-- Distinct values show the order of the paths. -/
theorem follows_of_sorted {cmp : ElementComparator} {order : Bytes → Bytes → Ordering}
    {es : List CellData} (hnodup : (cs.map CellData.value).Nodup)
    (hplain : cmp.isOpaqueComposite = false)
    (hdecodes : cmp.ordersByRawBytes = false → ∀ c ∈ cs, ∃ v, cmp.deserialize c.pathBytes = .ok v)
    (hreverse : (sortedElements lazy cmp cs.reverse).map CellData.value =
      (sortedElements lazy cmp cs).map CellData.value)
    (hperm : es.Perm cs) (horder : InPathOrder order es)
    (hvalues : (sortedElements lazy cmp cs).map CellData.value = es.map CellData.value) :
    Follows cmp.comparePaths order (cs.map CellData.pathBytes) := by
  have hstrict : StrictOn cmp.comparePaths (cs.map CellData.pathBytes) := by
    by_contra hno
    exact sortedElements_lazy hdecodes hplain (hnodup.of_map _) hno (eq_of_map_value hnodup
      ((sortedElements_perm _ _ _).trans (List.reverse_perm cs)) (sortedElements_perm _ _ _) hreverse)
  refine ⟨hstrict, ?_⟩
  simp only [List.forall_mem_map]
  intro a ha b hb hab hgt
  obtain rfl := eq_of_map_value hnodup (sortedElements_perm lazy cmp cs) hperm hvalues
  have hne : a ≠ b := by
    rintro rfl
    rw [comparePaths_self hplain] at hab
    cases hab
  -- one of the two comes first, and then both orders say so
  have hboth := ((sortedElements_strict hdecodes lazy hstrict).1.and horder).imp
    (S := fun x y : CellData =>
      (cmp.comparePaths x.pathBytes y.pathBytes = .lt ∧ order x.pathBytes y.pathBytes ≠ .gt) ∨
      cmp.comparePaths y.pathBytes x.pathBytes = .lt ∧ order y.pathBytes x.pathBytes ≠ .gt) Or.inl
  have hsymm : Std.Symm fun x y : CellData =>
      (cmp.comparePaths x.pathBytes y.pathBytes = .lt ∧ order x.pathBytes y.pathBytes ≠ .gt) ∨
      cmp.comparePaths y.pathBytes x.pathBytes = .lt ∧ order y.pathBytes x.pathBytes ≠ .gt :=
    ⟨fun _ _ => Or.symm⟩
  have hmem := fun c hc => (sortedElements_perm lazy cmp cs).symm.subset (a := c) hc
  rcases hboth.forall (hmem a ha) (hmem b hb) hne with ⟨-, hle⟩ | ⟨hlt, -⟩
  · exact hle hgt
  · rw [hstrict.total.lt_iff_gt (List.mem_map_of_mem hb) (List.mem_map_of_mem ha), hab] at hlt
    cases hlt

/-- Elements with different values show every way they are not settled. -/
theorem settled_of_assembledValue (hrefused : ¬ PathsRefused (cs.map CellData.pathBytes) t)
    (hnodup : (cs.map CellData.value).Nodup)
    (hreverse : assembledValue lazy cs.reverse t = assembledValue lazy cs t)
    (hcollects : Collects cs (assembledValue lazy cs t) t) :
    PathsSettled (cs.map CellData.pathBytes) t := by
  cases t with
  | set inner =>
    obtain ⟨hplain, hdecodes⟩ := not_or.1 hrefused
    obtain ⟨es, hperm, horder, hvalues⟩ := hcollects
    exact follows_of_sorted hnodup (Bool.eq_false_iff.2 hplain)
      (fun hraw => decodes_of_not fun hbad => hdecodes ⟨hraw, hbad⟩) (Value.set.inj hreverse) hperm
      horder (Value.set.inj hvalues)
  | list inner =>
    obtain ⟨es, hperm, horder, hvalues⟩ := hcollects
    rw [PathsSettled, ← comparePaths_position]
    exact follows_of_sorted hnodup rfl (fun hraw => by cases hraw) (Value.list.inj hreverse) hperm
      horder (Value.list.inj hvalues)
  | map key value =>
    obtain ⟨hplain, hdecodes⟩ := not_or.1 hrefused
    obtain ⟨es, keys, hperm, horder, hkeys, hvalues⟩ := hcollects
    have hsnd : ∀ l : List CellData,
        ((l.map (keyed (ElementComparator.fromCqlType key))).map fun e => (e.1, e.2.value)).map
          Prod.snd = l.map CellData.value := fun l => by
      rw [List.map_map, List.map_map]
      rfl
    refine follows_of_sorted hnodup (Bool.eq_false_iff.2 hplain) (fun _ => decodes_of_not hdecodes)
      ?_ hperm horder ?_
    · rw [← hsnd, ← hsnd, Value.map.inj hreverse]
    · rw [← hsnd, Value.map.inj hvalues, List.map_snd_zip (by simp [hkeys.length_eq])]
  | _ => exact (List.length_map _).trans_le (lastValue_reverse hnodup hreverse)

end Collections

end Cqlite
