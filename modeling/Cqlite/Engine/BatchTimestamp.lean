import Cqlite.Engine.Statements

/-! The timestamp of a batch (`cql_to_mutation/builders.rs`: `batch_to_mutations`).

    The batch overwrites the timestamp of the mutation. The tombstones of a partition or of a range
    were made before with the time of the clock, and keep it. -/

namespace Cqlite

/-! ### Times of effects -/

/-- The time at which one operation of a mutation takes effect. -/
def CellOperation.time (m : Mutation) : CellOperation → Int
  | .write column _ => m.cellWriteTimestamp column
  | .writeWithTtl column _ _ _ => m.cellWriteTimestamp column
  | .delete column _ => m.cellWriteTimestamp column
  | .deleteRow => m.timestampMicros
  | .writeComplexElement _ _ _ timestampMicros _ _ _ => timestampMicros
  | .complexDeletion _ markedForDeleteAt _ => markedForDeleteAt

/-- The times of everything a mutation does, its row included. -/
def Mutation.effectTimes (m : Mutation) : List Int :=
  m.timestampMicros :: (m.operations.map (CellOperation.time m) ++
    m.rowTombstone.toList.map (·.1) ++ m.partitionTombstone.toList.map (·.deletionTime) ++
    m.rangeTombstones.map (·.deletionTime))

/-- All times the builders put into a mutation moved to `t`. -/
def Mutation.at (m : Mutation) (t : Int) : Mutation :=
  { m with
    timestampMicros := t
    partitionTombstone := m.partitionTombstone.map fun pt => { pt with deletionTime := t }
    rangeTombstones := m.rangeTombstones.map fun rt => { rt with deletionTime := t } }

/-- A statement with `USING TIMESTAMP t` in place of its own timestamp. -/
def usingTimestamp (t : Int) (usingClause : Option CqlUsing) : Option CqlUsing :=
  some ⟨usingClause.bind (·.ttl), some (.literal (.integer t))⟩

def CqlBatchStatement.withTimestamp (t : Int) : CqlBatchStatement → CqlBatchStatement
  | .insert ins => .insert { ins with usingClause := usingTimestamp t ins.usingClause }
  | .update upd => .update { upd with usingClause := usingTimestamp t upd.usingClause }
  | .delete del => .delete { del with usingClause := usingTimestamp t del.usingClause }

/-- Whether the operation has a time of its own. -/
def CellOperation.isTimed : CellOperation → Bool
  | .writeComplexElement .. => true
  | .complexDeletion .. => true
  | _ => false

/-- What the builders make: nothing but tombstones has a time of its own. -/
structure Mutation.Built (m : Mutation) : Prop where
  cellTimes : m.cellWriteTimestamps = none
  rowTombstone : m.rowTombstone = none
  operations : ∀ op ∈ m.operations, op.isTimed = false

variable {m : Mutation} {op : CellOperation} {α : Type}

theorem Mutation.Built.time (h : m.Built) (hop : op ∈ m.operations) :
    op.time m = m.timestampMicros := by
  have huntimed := h.operations op hop
  have hcell : ∀ column, m.cellWriteTimestamp column = m.timestampMicros := by
    intro column
    rw [Mutation.cellWriteTimestamp, h.cellTimes]
    rfl
  cases op with
  | write column _ => exact hcell column
  | writeWithTtl column _ _ _ => exact hcell column
  | delete column _ => exact hcell column
  | deleteRow => rfl
  | writeComplexElement => cases huntimed
  | complexDeletion => cases huntimed

section Builders

variable {J : Type} (codec : CqlCodec J) (schema : CqlSchema) (clock : SystemClock)

@[simp] theorem extractTtl_usingTimestamp (t : Int) (usingClause : Option CqlUsing) :
    extractTtl (usingTimestamp t usingClause) = extractTtl usingClause := by
  rw [extractTtl, extractTtl, usingTimestamp]
  rfl

/-! ### One statement -/

variable {codec schema clock}

theorem writeOperation_write {value : α → String → Except Error Value} {name : String} {a : α}
    (h : writeOperation schema value name a = .ok op) : ∃ column v, op = .write column v := by
  rw [writeOperation] at h
  split at h
  · cases h
  · rw [map_eq_ok] at h
    obtain ⟨v, -, rfl⟩ := h
    exact ⟨_, _, rfl⟩

theorem assignmentOperation_write {a : CqlAssignment}
    (h : assignmentOperation codec schema a = .ok op) : ∃ column v, op = .write column v := by
  rw [assignmentOperation] at h
  split at h
  · cases h
  · cases h
  · cases h
  · exact writeOperation_write h

/-- Every element of a list that a fallible function made has what the function gives. -/
theorem forall_of_mapM {β : Type} {f : α → Except Error β} {P : β → Prop}
    (hf : ∀ a b, f a = .ok b → P b) {as : List α} {bs : List β} (h : as.mapM f = .ok bs) :
    ∀ b ∈ bs, P b := by
  have hall := mapM_eq_ok.1 h
  clear h
  induction hall with
  | nil => exact fun b hb => absurd hb List.not_mem_nil
  | cons hab _ ih => exact List.forall_mem_cons.2 ⟨hf _ _ hab, ih⟩

variable {parts : MutationParts} {stmt : CqlBatchStatement} {t : Int}

theorem insertParts_writes {ins : CqlInsert} (h : insertParts codec schema ins = .ok parts) :
    ∀ op ∈ parts.operations, ∃ column v, op = .write column v := by
  rw [insertParts] at h
  split at h
  · cases h
  · rw [bind_eq_ok] at h
    obtain ⟨_, -, h⟩ := h
    split at h
    · simp only [insertJsonParts, bind_eq_ok] at h
      obtain ⟨_, -, _, -, _, -, _, -, _, -, ops, hops, h⟩ := h
      cases h
      exact forall_of_mapM (fun _ _ => writeOperation_write) hops
    · rw [insertValuesParts] at h
      split at h
      · cases h
      · simp only [bind_eq_ok] at h
        obtain ⟨_, -, _, -, ops, hops, h⟩ := h
        cases h
        exact forall_of_mapM (fun _ _ => writeOperation_write) hops

theorem updateParts_writes {upd : CqlUpdate} (h : updateParts codec schema upd = .ok parts) :
    ∀ op ∈ parts.operations, ∃ column v, op = .write column v := by
  rw [updateParts] at h
  split at h
  · cases h
  · simp only [bind_eq_ok] at h
    obtain ⟨_, -, _, -, _, -, ops, hops, h⟩ := h
    cases h
    exact forall_of_mapM (fun _ _ => assignmentOperation_write) hops

theorem finishMutation_built {usingClause : Option CqlUsing}
    (hwrites : ∀ op ∈ parts.operations, ∃ column v, op = .write column v)
    (h : finishMutation clock usingClause parts = .ok m) : m.Built := by
  obtain ⟨timestamp, -, ttl, -, rfl⟩ := finishMutation_eq_ok.1 h
  refine ⟨rfl, rfl, ?_⟩
  intro op hop
  obtain ⟨column, v, rfl⟩ := hwrites op hop
  rfl

theorem deleteMutation_built (del : CqlDelete) (preds : DeletePredicates) (keys : ResolvedKeys)
    (timestamp : Int) (ranges : List RangeTombstone) :
    Mutation.Built { deleteMutation schema clock del preds keys timestamp with
      rangeTombstones := ranges } := by
  refine ⟨rfl, rfl, ?_⟩
  intro op hop
  have hop : op ∈ deleteOperations del preds
      (isPartitionDelete schema del preds (clusteringKeyOfColumns keys.clustering)) := hop
  rw [deleteOperations] at hop
  split at hop
  · exact absurd hop List.not_mem_nil
  split at hop
  · split at hop
    · rw [List.mem_singleton.1 hop]
      rfl
    · exact absurd hop List.not_mem_nil
  · obtain ⟨id, -, rfl⟩ := List.mem_map.1 hop
    rfl

theorem statementToMutation_built (h : statementToMutation codec schema clock stmt = .ok m) :
    m.Built := by
  cases stmt with
  | insert ins =>
    obtain ⟨parts, hparts, h⟩ := bind_eq_ok.1 h
    exact finishMutation_built (insertParts_writes hparts) h
  | update upd =>
    obtain ⟨parts, hparts, h⟩ := bind_eq_ok.1 h
    exact finishMutation_built (updateParts_writes hparts) h
  | delete del =>
    obtain ⟨preds, keys, -, timestamp, -, ranges, -, rfl⟩ := deleteToMutation_eq_ok.1 h
    exact deleteMutation_built _ _ _ _ _

theorem finishMutation_at {usingClause : Option CqlUsing}
    (h : finishMutation clock usingClause parts = .ok m) (t : Int) :
    finishMutation clock (usingTimestamp t usingClause) parts = .ok (m.at t) := by
  obtain ⟨timestamp, -, ttl, httl, rfl⟩ := finishMutation_eq_ok.1 h
  refine finishMutation_eq_ok.2 ⟨t, rfl, ttl, ?_, rfl⟩
  rw [extractTtl_usingTimestamp, httl]

theorem statementToMutation_at (h : statementToMutation codec schema clock stmt = .ok m) (t : Int) :
    statementToMutation codec schema clock (stmt.withTimestamp t) = .ok (m.at t) := by
  cases stmt with
  | insert ins =>
    obtain ⟨parts, hparts, h⟩ := bind_eq_ok.1 h
    exact bind_eq_ok.2 ⟨parts, hparts, finishMutation_at h t⟩
  | update upd =>
    obtain ⟨parts, hparts, h⟩ := bind_eq_ok.1 h
    exact bind_eq_ok.2 ⟨parts, hparts, finishMutation_at h t⟩
  | delete del =>
    obtain ⟨preds, keys, hkeys, timestamp, -, ranges, hranges, rfl⟩ := deleteToMutation_eq_ok.1 h
    refine deleteToMutation_eq_ok.2 ⟨preds, keys, hkeys, t, rfl, _, deleteRanges_move hranges t, ?_⟩
    simp only [Mutation.at, deleteMutation, Mutation.new]
    congr 1
    change (if isPartitionDelete schema del preds _ = true then _ else _) = _
    split <;> rfl

/-! ### Tombstones -/

variable (codec schema) in
/-- Nothing of the statement is a tombstone of a range or of the partition: no range predicate, and
    columns are named, or the table has no clustering columns, or one of them is bound. -/
def CqlBatchStatement.OnlyRows : CqlBatchStatement → Prop
  | .delete del => ∀ preds, extractDeletePredicates codec del.whereClause = .ok preds →
      preds.rangePredicates = [] ∧ (del.columns ≠ [] ∨ schema.clusteringKeys = [] ∨
        ∃ key ∈ schema.clusteringKeys, findBinding codec preds.equalityBindings key ≠ none)
  | _ => True

theorem isPartitionDelete_iff {del : CqlDelete} {preds : DeletePredicates}
    {keys : ResolvedKeys} (hkeys : resolveKeyBindings codec schema preds.equalityBindings = .ok keys)
    (hranges : preds.rangePredicates = []) :
    isPartitionDelete schema del preds (clusteringKeyOfColumns keys.clustering) = false ↔
      del.columns ≠ [] ∨ schema.clusteringKeys = [] ∨
        ∃ key ∈ schema.clusteringKeys, findBinding codec preds.equalityBindings key ≠ none := by
  have hnil := bindOptional_eq_nil (resolveKeyBindings_eq_ok.1 hkeys).2
  have hunbound : clusteringKeyOfColumns keys.clustering = none ↔
      ∀ key ∈ schema.clusteringKeys, findBinding codec preds.equalityBindings key = none := by
    simp only [CqlSchema.orderedClusteringKeys, mem_orderedKeys] at hnil
    rw [← hnil, clusteringKeyOfColumns]
    cases keys.clustering <;> simp
  rw [isPartitionDelete, hranges]
  by_cases hbound : clusteringKeyOfColumns keys.clustering = none
  · rw [hbound]
    have hall := hunbound.1 hbound
    constructor
    · intro h
      by_cases hcolumns : del.columns = []
      · by_cases hclustering : schema.clusteringKeys = []
        · exact .inr (.inl hclustering)
        · simp [hcolumns, hclustering] at h
      · exact .inl hcolumns
    · rintro (hcolumns | hclustering | ⟨key, hkey, hne⟩)
      · simp [hcolumns]
      · simp [hclustering]
      · exact absurd (hall key hkey) hne
  · have hsome : ∃ key ∈ schema.clusteringKeys,
        findBinding codec preds.equalityBindings key ≠ none := by
      by_contra hnone
      push Not at hnone
      exact hbound (hunbound.2 hnone)
    obtain ⟨ck, hck⟩ := Option.ne_none_iff_exists'.1 hbound
    rw [hck]
    exact iff_of_true rfl (.inr (.inr hsome))

theorem onlyRows_iff (h : statementToMutation codec schema clock stmt = .ok m) :
    stmt.OnlyRows codec schema ↔ m.partitionTombstone = none ∧ m.rangeTombstones = [] := by
  cases stmt with
  | insert ins =>
    obtain ⟨parts, -, h⟩ := bind_eq_ok.1 h
    obtain ⟨timestamp, -, ttl, -, rfl⟩ := finishMutation_eq_ok.1 h
    exact iff_of_true trivial ⟨rfl, rfl⟩
  | update upd =>
    obtain ⟨parts, -, h⟩ := bind_eq_ok.1 h
    obtain ⟨timestamp, -, ttl, -, rfl⟩ := finishMutation_eq_ok.1 h
    exact iff_of_true trivial ⟨rfl, rfl⟩
  | delete del =>
    obtain ⟨preds, keys, hdel, timestamp, -, ranges, hranges, rfl⟩ := deleteToMutation_eq_ok.1 h
    obtain ⟨-, -, hpreds, hkeys⟩ := deleteKeys_eq_ok.1 hdel
    have hnil := deleteRanges_eq_nil hranges
    have honly : CqlBatchStatement.OnlyRows codec schema (.delete del) ↔
        preds.rangePredicates = [] ∧ (del.columns ≠ [] ∨ schema.clusteringKeys = [] ∨
          ∃ key ∈ schema.clusteringKeys, findBinding codec preds.equalityBindings key ≠ none) := by
      constructor
      · exact fun hall => hall preds hpreds
      · intro hall other hother
        rw [hpreds] at hother
        cases hother
        exact hall
    have hpartition : (deleteMutation schema clock del preds keys timestamp).partitionTombstone =
        none ↔ isPartitionDelete schema del preds (clusteringKeyOfColumns keys.clustering) = false := by
      change (if isPartitionDelete schema del preds _ = true then _ else _) = none ↔ _
      split
      · rename_i hyes
        rw [hyes]
        exact iff_of_false (by simp) (by simp)
      · rename_i hno
        exact iff_of_true rfl (Bool.eq_false_iff.2 hno)
    rw [honly]
    constructor
    · rintro ⟨hpredsNil, hrows⟩
      exact ⟨hpartition.2 ((isPartitionDelete_iff hkeys hpredsNil).2 hrows), hnil.2 hpredsNil⟩
    · rintro ⟨hnone, hrangesNil⟩
      have hpredsNil := hnil.1 hrangesNil
      exact ⟨hpredsNil, (isPartitionDelete_iff hkeys hpredsNil).1 (hpartition.1 hnone)⟩

/-- Without a timestamp of its own a statement takes every time from the clock. -/
theorem statementToMutation_now (h : statementToMutation codec schema clock stmt = .ok m)
    (hown : stmt.usingClause.bind (·.timestamp) = none) :
    ∃ now, clock.micros = .ok now ∧ (∀ pt ∈ m.partitionTombstone, pt.deletionTime = now) ∧
      ∀ rt ∈ m.rangeTombstones, rt.deletionTime = now := by
  have hclock : ∀ {timestamp}, extractTimestamp clock stmt.usingClause = .ok timestamp →
      clock.micros = .ok timestamp := by
    intro timestamp hts
    rw [extractTimestamp, hown] at hts
    cases hmicros : clock.micros with
    | error e =>
      rw [hmicros] at hts
      cases hts
    | ok now =>
      rw [hmicros] at hts
      rw [Except.ok.inj hts]
  cases stmt with
  | insert ins =>
    obtain ⟨parts, -, h⟩ := bind_eq_ok.1 h
    obtain ⟨timestamp, hts, ttl, -, rfl⟩ := finishMutation_eq_ok.1 h
    exact ⟨timestamp, hclock hts, fun pt hpt => (nomatch hpt), fun rt hrt => absurd hrt List.not_mem_nil⟩
  | update upd =>
    obtain ⟨parts, -, h⟩ := bind_eq_ok.1 h
    obtain ⟨timestamp, hts, ttl, -, rfl⟩ := finishMutation_eq_ok.1 h
    exact ⟨timestamp, hclock hts, fun pt hpt => (nomatch hpt), fun rt hrt => absurd hrt List.not_mem_nil⟩
  | delete del =>
    obtain ⟨preds, keys, -, timestamp, hts, ranges, hranges, rfl⟩ := deleteToMutation_eq_ok.1 h
    refine ⟨timestamp, hclock hts, ?_, deleteRanges_deletionTime hranges⟩
    intro pt hpt
    have hpt : pt ∈ (if isPartitionDelete schema del preds (clusteringKeyOfColumns keys.clustering) =
        true then some (⟨timestamp, clock.seconds⟩ : PartitionTombstone) else none) := hpt
    split at hpt
    · cases hpt
      rfl
    · cases hpt

/-! ### Times -/

theorem mem_effectTimes {x : Int} :
    x ∈ m.effectTimes ↔ x = m.timestampMicros ∨ (∃ op ∈ m.operations, op.time m = x) ∨
      (∃ d ∈ m.rowTombstone, d.1 = x) ∨ (∃ pt ∈ m.partitionTombstone, pt.deletionTime = x) ∨
      ∃ rt ∈ m.rangeTombstones, rt.deletionTime = x := by
  simp only [Mutation.effectTimes, List.mem_cons, List.mem_append, List.mem_map, Option.mem_toList,
    Option.mem_def, or_assoc]

/-- Everything at `t`: the row, the partition tombstone and the ranges. -/
theorem forall_effectTimes (hbuilt : m.Built) :
    (∀ x ∈ m.effectTimes, x = t) ↔ m.timestampMicros = t ∧
      (∀ pt ∈ m.partitionTombstone, pt.deletionTime = t) ∧
      ∀ rt ∈ m.rangeTombstones, rt.deletionTime = t := by
  constructor
  · intro h
    refine ⟨h _ (mem_effectTimes.2 (.inl rfl)), ?_, ?_⟩
    · exact fun pt hpt => h _ (mem_effectTimes.2 (.inr (.inr (.inr (.inl ⟨pt, hpt, rfl⟩)))))
    · exact fun rt hrt => h _ (mem_effectTimes.2 (.inr (.inr (.inr (.inr ⟨rt, hrt, rfl⟩)))))
  · rintro ⟨hrow, hpartition, hranges⟩ x hx
    rcases mem_effectTimes.1 hx with rfl | ⟨op, hop, rfl⟩ | ⟨d, hd, -⟩ | ⟨pt, hpt, rfl⟩ | ⟨rt, hrt, rfl⟩
    · exact hrow
    · rw [hbuilt.time hop, hrow]
    · rw [hbuilt.rowTombstone] at hd
      cases hd
    · exact hpartition pt hpt
    · exact hranges rt hrt

/-- The mutation with its row moved is the one moved as a whole when the tombstones are at `t`. -/
theorem at_eq_of_times (hrow : m.timestampMicros = t)
    (hpartition : ∀ pt ∈ m.partitionTombstone, pt.deletionTime = t)
    (hranges : ∀ rt ∈ m.rangeTombstones, rt.deletionTime = t) : m.at t = m := by
  have hpt : m.partitionTombstone.map (fun pt => { pt with deletionTime := t }) =
      m.partitionTombstone := by
    cases hm : m.partitionTombstone with
    | none => rfl
    | some pt =>
      rw [hm] at hpartition
      obtain rfl := hpartition pt rfl
      rfl
  have hrt : m.rangeTombstones.map (fun rt => { rt with deletionTime := t }) = m.rangeTombstones := by
    refine List.map_congr_left (fun rt hmem => ?_) |>.trans (List.map_id _)
    obtain rfl := hranges rt hmem
    rfl
  rw [Mutation.at, hpt, hrt, ← hrow]

/-! ### The batch -/

theorem batchStatementToMutation_eq_ok {stmt : CqlBatchStatement} {t : Int} {m : Mutation}
    (hown : stmt.usingClause.bind (·.timestamp) = none) :
    batchStatementToMutation codec schema (some t) clock stmt = .ok m ↔
      ∃ alone, statementToMutation codec schema clock stmt = .ok alone ∧
        { alone with timestampMicros := t } = m := by
  simp only [batchStatementToMutation, bind_eq_ok, hown, Option.isSome_none, Bool.false_eq_true,
    if_false, pure, Except.pure, Except.ok.injEq]

/-- Every effect of a statement in the batch is at `t` when it has no tombstones but rows and cells,
    or when the clock reads `t`. -/
theorem batchStatement_times (hown : stmt.usingClause.bind (·.timestamp) = none)
    (h : batchStatementToMutation codec schema (some t) clock stmt = .ok m) :
    (∀ x ∈ m.effectTimes, x = t) ↔ stmt.OnlyRows codec schema ∨ clock.micros = .ok t := by
  obtain ⟨alone, halone, rfl⟩ := (batchStatementToMutation_eq_ok hown).1 h
  obtain ⟨now, hnow, hpartition, hranges⟩ := statementToMutation_now halone hown
  obtain ⟨hcells, hrow, hops⟩ := statementToMutation_built halone
  have hbuilt : Mutation.Built { alone with timestampMicros := t } := ⟨hcells, hrow, hops⟩
  rw [forall_effectTimes hbuilt, onlyRows_iff halone, hnow]
  simp only [true_and, Except.ok.injEq]
  constructor
  · rintro ⟨hpt, hrt⟩
    by_cases hsame : now = t
    · exact .inr hsame
    · refine .inl ⟨?_, ?_⟩
      · cases hm : alone.partitionTombstone with
        | none => rfl
        | some pt => exact absurd ((hpartition pt hm).symm.trans (hpt pt hm)) hsame
      · cases hm : alone.rangeTombstones with
        | nil => rfl
        | cons rt rts =>
          have hmem : rt ∈ alone.rangeTombstones := by
            rw [hm]
            exact List.mem_cons_self
          exact absurd ((hranges rt hmem).symm.trans (hrt rt hmem)) hsame
  · rintro (⟨hnone, hnil⟩ | rfl)
    · rw [hnone, hnil]
      exact ⟨fun pt hpt => (nomatch hpt), fun rt hrt => absurd hrt List.not_mem_nil⟩
    · exact ⟨hpartition, hranges⟩

theorem batchStatement_alone (hown : stmt.usingClause.bind (·.timestamp) = none)
    (h : batchStatementToMutation codec schema (some t) clock stmt = .ok m)
    (htimes : ∀ x ∈ m.effectTimes, x = t) :
    statementToMutation codec schema clock (stmt.withTimestamp t) = .ok m := by
  obtain ⟨alone, halone, rfl⟩ := (batchStatementToMutation_eq_ok hown).1 h
  have hat := statementToMutation_at halone t
  have hsame : Mutation.at { alone with timestampMicros := t } t = { alone with timestampMicros := t } := by
    refine at_eq_of_times rfl ?_ ?_
    · exact fun pt hpt => htimes _ (mem_effectTimes.2 (.inr (.inr (.inr (.inl ⟨pt, hpt, rfl⟩)))))
    · exact fun rt hrt => htimes _ (mem_effectTimes.2 (.inr (.inr (.inr (.inr ⟨rt, hrt, rfl⟩)))))
  rw [hat, ← hsame]
  rfl

end Builders

theorem forall_iff_of_forall₂ {β : Type} {R : α → β → Prop} {P : β → Prop} {Q : α → Prop}
    {as : List α} {bs : List β} (h : List.Forall₂ R as bs) (hR : ∀ a b, R a b → (P b ↔ Q a)) :
    (∀ b ∈ bs, P b) ↔ ∀ a ∈ as, Q a := by
  induction h with
  | nil => exact iff_of_true (fun b hb => absurd hb List.not_mem_nil) fun a ha => absurd ha List.not_mem_nil
  | cons hab _ ih => rw [List.forall_mem_cons, List.forall_mem_cons, hR _ _ hab, ih]

/-- A batch timestamp reaches every effect exactly when each statement is about rows and cells only,
    or finds the clock at that time; then the batch is the statements executed one by one. -/
theorem batch_timestamp_iff {J : Type} {codec : CqlCodec J} {schema : CqlSchema}
    {clocks : Nat → SystemClock} {batch : CqlBatch} {t : Int} {ms : List Mutation}
    (husing : batch.usingClause.bind (·.timestamp) = some (.literal (.integer t)))
    (hown : ∀ stmt ∈ batch.statements, stmt.usingClause.bind (·.timestamp) = none)
    (h : batchToMutations codec schema clocks batch = .ok ms) :
    ((∀ m ∈ ms, ∀ x ∈ m.effectTimes, x = t) ∧
      batch.statements.zipIdx.mapM (fun s =>
        statementToMutation codec schema (clocks s.2) (s.1.withTimestamp t)) = .ok ms) ↔
    ∀ s ∈ batch.statements.zipIdx,
      s.1.OnlyRows codec schema ∨ (clocks s.2).micros = .ok t := by
  have hbatch : batchTimestamp batch = some t := by
    rw [batchTimestamp, husing]
  have howns : ∀ s ∈ batch.statements.zipIdx, s.1.usingClause.bind (·.timestamp) = none :=
    fun s hs => hown s.1 (List.mem_zipIdx' hs |>.2 ▸ List.getElem_mem _)
  rw [batchToMutations] at h
  split at h
  · cases h
  rw [hbatch] at h
  have hall := (List.forall₂_and_left _ _).2 ⟨howns, mapM_eq_ok.1 h⟩
  have htimes : (∀ m ∈ ms, ∀ x ∈ m.effectTimes, x = t) ↔ ∀ s ∈ batch.statements.zipIdx,
      s.1.OnlyRows codec schema ∨ (clocks s.2).micros = .ok t :=
    forall_iff_of_forall₂ hall fun s m hsm => batchStatement_times hsm.1 hsm.2
  constructor
  · exact fun hboth => htimes.1 hboth.1
  · intro hrows
    refine ⟨htimes.2 hrows, mapM_eq_ok.2 ?_⟩
    refine ((List.forall₂_and_left _ _).2 ⟨hrows, hall⟩).imp fun s m hsm => ?_
    exact batchStatement_alone hsm.2.1 hsm.2.2 ((batchStatement_times hsm.2.1 hsm.2.2).2 hsm.1)

/-! ### Runs -/

/-- Integers under the type `int`; no JSON. -/
def intCodec : CqlCodec Unit where
  toLowercase := lowercase
  expressionToValue e dataType :=
    match e with
    | .literal (.integer i) =>
      if dataType ≠ "int" then .error (.invalidInput "Cannot convert integer to the column type")
      else if -(2 ^ 31) ≤ i ∧ i < 2 ^ 31 then .ok (.integer i)
      else .error (.invalidInput "Integer value is out of range for int")
    | _ => .error (.invalidInput "Only literal values are supported in mutations")
  parseJson _ := .error "expected value at line 1 column 1"
  isNull _ := false
  jsonValueToCqlValue _ _ := .error (.invalidInput "Cannot convert JSON value to the column type")

/-- Key `k`, clustering column `c`, value `v`. -/
def eventsTable : CqlSchema :=
  ⟨"ks", "events", [⟨"k", "int", 0, .asc⟩], [⟨"c", "int", 0, .asc⟩],
    [⟨"k", "int", false⟩, ⟨"c", "int", false⟩, ⟨"v", "int", false⟩]⟩

/-- `column operator i`. -/
def compareColumn (column : String) (operator : CqlBinaryOperator) (i : Int) : CqlExpression :=
  .binary (.column ⟨column, false⟩) operator (.literal (.integer i))

def deleteFrom (whereClause : CqlExpression) : CqlDelete :=
  ⟨[], ⟨none, ⟨"events", false⟩⟩, none, whereClause, none⟩

def batchAt (t : Int) (statements : List CqlBatchStatement) : CqlBatch :=
  ⟨.logged, some ⟨none, some (.literal (.integer t))⟩, statements⟩

/-- `DELETE FROM events WHERE k = 1 AND c = 2` in a batch at 500. -/
theorem batch_timestamp_row :
    ∃ ms, batchToMutations intCodec eventsTable (fun _ => ⟨.ok 9000, 9⟩)
      (batchAt 500 [.delete (deleteFrom
        (.binary (compareColumn "k" .eq 1) .and (compareColumn "c" .eq 2)))]) = .ok ms ∧
    (((∀ m ∈ ms, ∀ x ∈ m.effectTimes, x = 500) ∧
      (batchAt 500 [.delete (deleteFrom (.binary (compareColumn "k" .eq 1) .and
        (compareColumn "c" .eq 2)))]).statements.zipIdx.mapM (fun s =>
          statementToMutation intCodec eventsTable ⟨.ok 9000, 9⟩ (s.1.withTimestamp 500)) = .ok ms) ↔
      ∀ s ∈ (batchAt 500 [.delete (deleteFrom (.binary (compareColumn "k" .eq 1) .and
          (compareColumn "c" .eq 2)))]).statements.zipIdx,
        s.1.OnlyRows intCodec eventsTable ∨ (Except.ok 9000 : Except String Int) = .ok 500) := by
  refine ⟨_, rfl, @batch_timestamp_iff _ _ _ (fun _ => ⟨.ok 9000, 9⟩) _ _ _ rfl ?_ rfl⟩
  intro stmt hstmt
  rw [List.mem_singleton.1 hstmt]
  rfl

/-- `DELETE FROM events WHERE k = 1` in a batch at 500: the partition tombstone has the time of the
    clock. -/
theorem batch_timestamp_partition :
    ¬ ∀ ms, batchToMutations intCodec eventsTable (fun _ => ⟨.ok 9000, 9⟩)
      (batchAt 500 [.delete (deleteFrom (compareColumn "k" .eq 1))]) = .ok ms →
        ∀ m ∈ ms, ∀ x ∈ m.effectTimes, x = 500 := by
  intro h
  have htimes := h _ rfl _ List.mem_cons_self 9000 (by decide)
  cases htimes

end Cqlite
