import Cqlite.Engine.BatchTimestamp

/-! Key values and their positions (`cql_to_mutation/builders.rs`, `cql_to_mutation/delta_helpers.rs`).

    Partition columns are all required. Of the clustering columns the builders take those that are
    bound, in schema order, one behind the other: a column left out moves the later ones forward. -/

namespace Cqlite

/-! ### What a statement binds -/

/-- A value as a statement gives it. -/
inductive CqlOperand (J : Type)
  | expression (e : CqlExpression)
  | json (j : J)

section Bindings

variable {J : Type} (codec : CqlCodec J) (schema : CqlSchema)

def CqlCodec.operandToValue : CqlOperand J → String → Except Error Value
  | .expression e => codec.expressionToValue e
  | .json j => codec.jsonValueToCqlValue j

/-- The columns a statement gives values for, in lower case; in a DELETE those it equates. -/
def CqlBatchStatement.keyBindings (stmt : CqlBatchStatement) :
    Except Error (List (String × CqlOperand J)) :=
  match stmt with
  | .insert ins =>
    match ins.values with
    | .values exprs => .ok ((insertBindings codec ins.columns exprs).map fun b => (b.1, .expression b.2))
    | .json text => (jsonMembers codec text).map fun members =>
        (members.filter fun m => !codec.isNull m.2).map fun m => (codec.toLowercase m.1, .json m.2)
  | .update upd => (extractWhereBindings codec upd.whereClause).map fun bs =>
      bs.map fun b => (b.1, .expression b.2)
  | .delete del => (extractDeletePredicates codec del.whereClause).map fun preds =>
      preds.equalityBindings.map fun b => (b.1, .expression b.2)

/-- The statement gives the column this value. -/
def CqlBatchStatement.Binds (stmt : CqlBatchStatement) (key : CqlKeyColumn) (v : Value) : Prop :=
  ∃ bindings, stmt.keyBindings codec = .ok bindings ∧
    ∃ a, (codec.toLowercase key.name, a) ∈ bindings ∧ codec.operandToValue a key.dataType = .ok v

/-- The statement gives the column a value. -/
def CqlBatchStatement.Names (stmt : CqlBatchStatement) (key : CqlKeyColumn) : Prop :=
  ∃ bindings, stmt.keyBindings codec = .ok bindings ∧
    ∃ a, (codec.toLowercase key.name, a) ∈ bindings

/-- Columns, and nothing but static ones. -/
def OnlyStatic (names : List String) : Prop :=
  names ≠ [] ∧ ∀ name ∈ names, ∃ column, schema.getColumn name = some column ∧ column.isStatic = true

/-- The columns an INSERT writes. -/
def writtenColumns (bindings : List (String × CqlOperand J)) : List String :=
  (bindings.map (·.1)).filter fun name =>
    !(schema.partitionKeys ++ schema.clusteringKeys).any fun key => codec.toLowercase key.name == name

/-- The operation cannot do without the clustering column at `i`: it is about a row, of which more
    than static columns are touched, or about a range of a later column. -/
def CqlBatchStatement.Needs (stmt : CqlBatchStatement) (i : Nat) : Prop :=
  match stmt with
  | .insert ins => ∀ bindings, CqlBatchStatement.keyBindings codec (.insert ins) = .ok bindings →
      ¬ OnlyStatic schema (writtenColumns codec schema bindings)
  | .update upd => ¬ OnlyStatic schema (upd.assignments.map fun a => codec.toLowercase a.column.name)
  | .delete del =>
    (del.columns ≠ [] ∧ ¬ OnlyStatic schema (del.columns.map fun id => codec.toLowercase id.name)) ∨
    ∃ preds, extractDeletePredicates codec del.whereClause = .ok preds ∧
      ∃ pred ∈ preds.rangePredicates, ∃ j key, i < j ∧
        schema.orderedClusteringKeys[j]? = some key ∧ pred.column = codec.toLowercase key.name

/-! ### Values in place -/

/-- The columns of the clustering key. -/
def Mutation.clusteringColumns (m : Mutation) : List (String × Value) :=
  (m.clusteringKey.map (·.columns)).getD []

/-- Every key value stands at its column's position, and none that is bound or needed is missing. -/
structure KeysInPlace (stmt : CqlBatchStatement) (m : Mutation) : Prop where
  partition : List.Forall₂ (fun key (c : String × Value) => c.1 = key.name ∧ stmt.Binds codec key c.2)
    schema.orderedPartitionKeys m.partitionKey.columns
  clustering : ∀ (i : Nat) (c : String × Value), m.clusteringColumns[i]? = some c →
    ∃ key, schema.orderedClusteringKeys[i]? = some key ∧ c.1 = key.name ∧ stmt.Binds codec key c.2
  complete : ∀ (i : Nat) key, schema.orderedClusteringKeys[i]? = some key →
    stmt.Names codec key ∨ stmt.Needs codec schema i → i < m.clusteringColumns.length

/-- A clustering column is bound when the operation needs it, and when a later one is bound. -/
structure BoundInOrder (stmt : CqlBatchStatement) : Prop where
  order : schema.orderedClusteringKeys.Pairwise fun a b => stmt.Names codec b → stmt.Names codec a
  needed : ∀ (i : Nat) key, schema.orderedClusteringKeys[i]? = some key → stmt.Needs codec schema i →
    stmt.Names codec key

end Bindings

/-! ### The loops -/

variable {missing : String → Error}

section Loops

variable {J α β : Type} {codec : CqlCodec J} {bindings : List (String × α)}

theorem findBinding_mem {key : CqlKeyColumn} {a : α} (h : findBinding codec bindings key = some a) :
    (codec.toLowercase key.name, a) ∈ bindings := by
  obtain ⟨b, hb, rfl⟩ := Option.map_eq_some_iff.1 h
  have hname : b.1 = codec.toLowercase key.name := by simpa using List.find?_some hb
  rw [← hname]
  exact List.mem_of_find?_eq_some hb

theorem findBinding_isSome {key : CqlKeyColumn} :
    (findBinding codec bindings key).isSome = true ↔
      ∃ a, (codec.toLowercase key.name, a) ∈ bindings := by
  constructor
  · intro h
    obtain ⟨a, ha⟩ := Option.isSome_iff_exists.1 h
    exact ⟨a, findBinding_mem ha⟩
  · rintro ⟨a, ha⟩
    rw [findBinding, Option.isSome_map, List.find?_isSome]
    exact ⟨_, ha, by simp⟩

theorem findBinding_map (f : α → β) (key : CqlKeyColumn) :
    findBinding codec (bindings.map fun b => (b.1, f b.2)) key =
      (findBinding codec bindings key).map f := by
  rw [findBinding, findBinding, List.find?_map, Option.map_map, Option.map_map]
  rfl

variable {value' : β → String → Except Error Value}

theorem bindRequired_map {value : α → String → Except Error Value} {f : α → β}
    (hf : ∀ a, value' (f a) = value a) (missing : String → Error) (keys : List CqlKeyColumn) :
    bindRequired codec value' missing (bindings.map fun b => (b.1, f b.2)) keys =
      bindRequired codec value missing bindings keys := by
  induction keys with
  | nil => rfl
  | cons key keys ih =>
    rw [bindRequired, bindRequired, findBinding_map, ih]
    cases findBinding codec bindings key with
    | none => rfl
    | some a => simp only [Option.map_some, hf]

theorem bindOptional_map {value : α → String → Except Error Value} {f : α → β}
    (hf : ∀ a, value' (f a) = value a) (keys : List CqlKeyColumn) :
    bindOptional codec value' (bindings.map fun b => (b.1, f b.2)) keys =
      bindOptional codec value bindings keys := by
  induction keys with
  | nil => rfl
  | cons key keys ih =>
    rw [bindOptional, bindOptional, findBinding_map, ih]
    cases findBinding codec bindings key with
    | none => rfl
    | some a => simp only [Option.map_some, hf]

/-- The column with a value bound to it. -/
def BoundColumn (codec : CqlCodec J) (value : α → String → Except Error Value)
    (bindings : List (String × α)) (key : CqlKeyColumn) (c : String × Value) : Prop :=
  c.1 = key.name ∧ ∃ a, (codec.toLowercase key.name, a) ∈ bindings ∧ value a key.dataType = .ok c.2

variable {value : α → String → Except Error Value}

theorem bindRequired_spec {keys : List CqlKeyColumn} {columns : List (String × Value)}
    (h : bindRequired codec value missing bindings keys = .ok columns) :
    List.Forall₂ (BoundColumn codec value bindings) keys columns := by
  induction keys generalizing columns with
  | nil =>
    cases h
    exact .nil
  | cons key keys ih =>
    rw [bindRequired] at h
    split at h
    · cases h
    · rename_i a ha
      simp only [bind_eq_ok] at h
      obtain ⟨v, hv, rest, hrest, h⟩ := h
      cases h
      exact .cons ⟨rfl, a, findBinding_mem ha, hv⟩ (ih hrest)

theorem bindOptional_spec {keys : List CqlKeyColumn} {columns : List (String × Value)}
    (h : bindOptional codec value bindings keys = .ok columns) :
    List.Forall₂ (BoundColumn codec value bindings)
      (keys.filter fun key => (findBinding codec bindings key).isSome) columns := by
  induction keys generalizing columns with
  | nil =>
    cases h
    exact .nil
  | cons key keys ih =>
    rw [bindOptional] at h
    split at h
    · rename_i hnone
      rw [List.filter_cons_of_neg (by rw [hnone]; exact Bool.false_ne_true)]
      exact ih h
    · rename_i a ha
      simp only [bind_eq_ok] at h
      obtain ⟨v, hv, rest, hrest, h⟩ := h
      cases h
      rw [List.filter_cons_of_pos (by rw [ha]; rfl)]
      exact .cons ⟨rfl, a, findBinding_mem ha, hv⟩ (ih hrest)

end Loops

/-! ### Accepted statements -/

section Statements

variable {J : Type} {codec : CqlCodec J} {schema : CqlSchema} {clock : SystemClock}

theorem clusteringColumns_eq (columns : List (String × Value)) :
    ((clusteringKeyOfColumns columns).map (·.columns)).getD [] = columns := by
  rw [clusteringKeyOfColumns]
  cases columns <;> rfl

/-- The key columns of a mutation come from the loops over what the statement binds. -/
def KeysFrom (codec : CqlCodec J) (schema : CqlSchema) (stmt : CqlBatchStatement)
    (partition clustering : List (String × Value)) : Prop :=
  ∃ bindings missing, stmt.keyBindings codec = .ok bindings ∧
    bindRequired codec codec.operandToValue missing bindings schema.orderedPartitionKeys =
      .ok partition ∧
    bindOptional codec codec.operandToValue bindings schema.orderedClusteringKeys = .ok clustering

variable {stmt : CqlBatchStatement} {m : Mutation} {α : Type} {i : Nat}

theorem keysFrom_expressions {bindings : List (String × CqlExpression)}
    {partition clustering : List (String × Value)}
    (hbindings : stmt.keyBindings codec =
      .ok (bindings.map fun b => (b.1, CqlOperand.expression b.2)))
    (hpk : bindRequired codec codec.expressionToValue missing bindings schema.orderedPartitionKeys =
      .ok partition)
    (hck : bindOptional codec codec.expressionToValue bindings schema.orderedClusteringKeys =
      .ok clustering) : KeysFrom codec schema stmt partition clustering := by
  refine ⟨_, missing, hbindings, ?_, ?_⟩
  · exact (bindRequired_map (fun _ => rfl) _ _).trans hpk
  · exact (bindOptional_map (fun _ => rfl) _).trans hck

theorem mapM_jsonColumn {members columns : List (String × J)}
    (h : members.mapM (jsonColumn codec schema) = .ok columns) :
    columns = members.map fun m => (codec.toLowercase m.1, m.2) := by
  have hall := mapM_eq_ok.1 h
  clear h
  induction hall with
  | nil => rfl
  | cons hab _ ih =>
    rw [jsonColumn] at hab
    split at hab
    · rw [List.map_cons, ← ih, ← Except.ok.inj hab]
    · cases hab

theorem insertParts_keys {ins : CqlInsert} {parts : MutationParts}
    (h : insertParts codec schema ins = .ok parts) :
    KeysFrom codec schema (.insert ins) parts.partition parts.clustering := by
  rw [insertParts] at h
  split at h
  · cases h
  · rw [bind_eq_ok] at h
    obtain ⟨_, -, h⟩ := h
    split at h
    · rename_i text htext
      simp only [insertJsonParts, bind_eq_ok] at h
      obtain ⟨members, hmembers, _, -, columns, hcolumns, pk, hpk, ck, hck, ops, -, h⟩ := h
      cases h
      have hbindings : CqlBatchStatement.keyBindings codec (.insert ins) =
          .ok (columns.map fun b => (b.1, CqlOperand.json b.2)) := by
        rw [CqlBatchStatement.keyBindings, htext, mapM_jsonColumn hcolumns]
        simp only [hmembers, Except.map, List.map_map]
        rfl
      refine ⟨_, _, hbindings, (bindRequired_map (fun _ => rfl) _ _).trans hpk, ?_⟩
      exact (bindOptional_map (fun _ => rfl) _).trans hck
    · rename_i exprs hexprs
      rw [insertValuesParts] at h
      split at h
      · cases h
      · simp only [bind_eq_ok] at h
        obtain ⟨pk, hpk, ck, hck, ops, -, h⟩ := h
        cases h
        refine keysFrom_expressions ?_ hpk hck
        rw [CqlBatchStatement.keyBindings, hexprs]

theorem resolved_keysFrom {bindings : List (String × CqlExpression)} {keys : ResolvedKeys}
    (hbindings : stmt.keyBindings codec =
      .ok (bindings.map fun b => (b.1, CqlOperand.expression b.2)))
    (hkeys : resolveKeyBindings codec schema bindings = .ok keys) :
    KeysFrom codec schema stmt keys.partition keys.clustering := by
  obtain ⟨hpk, hck⟩ := resolveKeyBindings_eq_ok.1 hkeys
  exact keysFrom_expressions hbindings hpk hck

/-- Where each builder takes its keys from. -/
theorem statementToMutation_keys (h : statementToMutation codec schema clock stmt = .ok m) :
    KeysFrom codec schema stmt m.partitionKey.columns m.clusteringColumns := by
  cases stmt with
  | insert ins =>
    obtain ⟨parts, hparts, h⟩ := bind_eq_ok.1 h
    obtain ⟨timestamp, -, ttl, -, rfl⟩ := finishMutation_eq_ok.1 h
    rw [Mutation.clusteringColumns, Mutation.new, clusteringColumns_eq]
    exact insertParts_keys hparts
  | update upd =>
    obtain ⟨parts, hparts, h⟩ := bind_eq_ok.1 h
    obtain ⟨timestamp, -, ttl, -, rfl⟩ := finishMutation_eq_ok.1 h
    rw [Mutation.clusteringColumns, Mutation.new, clusteringColumns_eq]
    rw [updateParts] at hparts
    split at hparts
    · cases hparts
    · simp only [bind_eq_ok] at hparts
      obtain ⟨_, -, bindings, hbindings, keys, hkeys, ops, -, hparts⟩ := hparts
      cases hparts
      refine resolved_keysFrom ?_ hkeys
      rw [CqlBatchStatement.keyBindings, hbindings]
      rfl
  | delete del =>
    obtain ⟨preds, keys, hdel, timestamp, -, ranges, -, rfl⟩ := deleteToMutation_eq_ok.1 h
    obtain ⟨-, -, hpreds, hkeys⟩ := deleteKeys_eq_ok.1 hdel
    rw [Mutation.clusteringColumns]
    change KeysFrom codec schema _ keys.partition
      (((clusteringKeyOfColumns keys.clustering).map (·.columns)).getD [])
    rw [clusteringColumns_eq]
    refine resolved_keysFrom ?_ hkeys
    rw [CqlBatchStatement.keyBindings, hpreds]
    rfl

/-! ### Positions -/

/-- A property that reaches back selects a front part of the list. -/
theorem filter_eq_takeWhile {p : α → Bool} {l : List α}
    (h : l.Pairwise fun a b => p b = true → p a = true) : l.filter p = l.takeWhile p := by
  induction l with
  | nil => rfl
  | cons a l ih =>
    obtain ⟨hhead, htail⟩ := List.pairwise_cons.1 h
    by_cases ha : p a = true
    · rw [List.filter_cons_of_pos ha, List.takeWhile_cons_of_pos ha, ih htail]
    · rw [List.filter_cons_of_neg ha, List.takeWhile_cons_of_neg ha, List.filter_eq_nil_iff]
      exact fun b hb hpb => ha (hhead b hb hpb)

theorem lt_length_takeWhile {p : α → Bool} {l : List α}
    (h : l.Pairwise fun a b => p b = true → p a = true) {a : α} (ha : l[i]? = some a)
    (hp : p a = true) : i < (l.takeWhile p).length := by
  induction l generalizing i with
  | nil => cases ha
  | cons b l ih =>
    obtain ⟨hhead, htail⟩ := List.pairwise_cons.1 h
    cases i with
    | zero =>
      cases ha
      rw [List.takeWhile_cons_of_pos hp]
      exact Nat.succ_pos _
    | succ i =>
      have hl : l[i]? = some a := ha
      rw [List.takeWhile_cons_of_pos (hhead a (List.mem_of_getElem? hl) hp)]
      exact Nat.succ_lt_succ (ih htail hl)

theorem getElem?_of_forall₂ {β : Type} {R : α → β → Prop} {as : List α} {bs : List β}
    (h : List.Forall₂ R as bs) {b : β} (hb : bs[i]? = some b) : ∃ a, as[i]? = some a ∧ R a b := by
  induction h generalizing i with
  | nil => cases hb
  | cons hab _ ih =>
    cases i with
    | zero =>
      cases hb
      exact ⟨_, rfl, hab⟩
    | succ i => exact ih hb

/-- Values are in place just where they were bound in order. -/
theorem keysInPlace_iff (h : KeysFrom codec schema stmt m.partitionKey.columns m.clusteringColumns) :
    KeysInPlace codec schema stmt m ↔ BoundInOrder codec schema stmt := by
  obtain ⟨bindings, missing, hbindings, hpk, hck⟩ := h
  have hbinds : ∀ {key c}, BoundColumn codec codec.operandToValue bindings key c →
      c.1 = key.name ∧ stmt.Binds codec key c.2 :=
    fun hbound => ⟨hbound.1, bindings, hbindings, hbound.2⟩
  have hnames : ∀ key, stmt.Names codec key ↔ (findBinding codec bindings key).isSome = true := by
    intro key
    rw [findBinding_isSome]
    constructor
    · rintro ⟨others, hothers, ha⟩
      rw [hbindings] at hothers
      cases hothers
      exact ha
    · exact fun ha => ⟨bindings, hbindings, ha⟩
  have hcolumns := bindOptional_spec hck
  have hlen := hcolumns.length_eq
  constructor
  · rintro ⟨-, hplace, hcomplete⟩
    have hnamed : ∀ i key, schema.orderedClusteringKeys[i]? = some key →
        i < m.clusteringColumns.length → stmt.Names codec key := by
      intro i key hkey hi
      obtain ⟨key', hkey', -, bs, hbs, a, ha, -⟩ := hplace i _ (List.getElem?_eq_getElem hi)
      rw [hkey] at hkey'
      cases hkey'
      exact ⟨bs, hbs, a, ha⟩
    constructor
    · rw [List.pairwise_iff_getElem]
      intro i j hi hj hij hj'
      have := hcomplete j _ (List.getElem?_eq_getElem hj) (.inl hj')
      exact hnamed i _ (List.getElem?_eq_getElem hi) (by omega)
    · intro i key hkey hneeds
      exact hnamed i key hkey (hcomplete i key hkey (.inr hneeds))
  · rintro ⟨horder, hneeded⟩
    have hreach : schema.orderedClusteringKeys.Pairwise fun a b =>
        (findBinding codec bindings b).isSome = true →
          (findBinding codec bindings a).isSome = true :=
      horder.imp fun hab hb => (hnames _).1 (hab ((hnames _).2 hb))
    rw [filter_eq_takeWhile hreach] at hcolumns hlen
    obtain ⟨later, hsplit⟩ := @List.takeWhile_prefix _ schema.orderedClusteringKeys fun key =>
      (findBinding codec bindings key).isSome
    refine ⟨(bindRequired_spec hpk).imp fun _ _ => hbinds, ?_, ?_⟩
    · intro i c hc
      obtain ⟨key, hkey, hbound⟩ := getElem?_of_forall₂ hcolumns hc
      refine ⟨key, ?_, hbinds hbound⟩
      rw [← hsplit, List.getElem?_append_left (List.getElem?_eq_some_iff.1 hkey).1, hkey]
    · intro i key hkey hor
      have hname : stmt.Names codec key := hor.elim id (hneeded i key hkey)
      exact (lt_length_takeWhile hreach hkey ((hnames key).1 hname)).trans_eq hlen

/-- The key values of an accepted statement are in place exactly when it binds every clustering
    column it needs and every one before a bound one. -/
theorem keys_in_place_iff {stmt : CqlBatchStatement} {m : Mutation}
    (h : statementToMutation codec schema clock stmt = .ok m) :
    KeysInPlace codec schema stmt m ↔ BoundInOrder codec schema stmt :=
  keysInPlace_iff (statementToMutation_keys h)

end Statements

/-! ### Runs -/

/-- Key `k`, clustering columns `c1` and `c2`, value `v`. -/
def measuresTable : CqlSchema :=
  ⟨"ks", "measures", [⟨"k", "int", 0, .asc⟩], [⟨"c1", "int", 0, .asc⟩, ⟨"c2", "int", 1, .asc⟩],
    [⟨"k", "int", false⟩, ⟨"c1", "int", false⟩, ⟨"c2", "int", false⟩, ⟨"v", "int", false⟩]⟩

/-- `INSERT INTO measures (columns) VALUES (values)`. -/
def insertInts (columns : List (String × Int)) : CqlInsert :=
  ⟨⟨none, ⟨"measures", false⟩⟩, columns.map fun c => ⟨c.1, false⟩,
    .values (columns.map fun c => .literal (.integer c.2)), false, none⟩

/-- Columns in any order. -/
theorem keys_in_place_reordered :
    ∃ m, statementToMutation intCodec measuresTable ⟨.ok 9000, 9⟩
      (.insert (insertInts [("v", 4), ("c2", 3), ("k", 1), ("c1", 2)])) = .ok m ∧
    (KeysInPlace intCodec measuresTable
        (.insert (insertInts [("v", 4), ("c2", 3), ("k", 1), ("c1", 2)])) m ↔
      BoundInOrder intCodec measuresTable
        (.insert (insertInts [("v", 4), ("c2", 3), ("k", 1), ("c1", 2)]))) :=
  ⟨_, rfl, @keys_in_place_iff _ _ _ ⟨.ok 9000, 9⟩ _ _ rfl⟩

/-- Without `c1` the value of `c2` becomes the first of the clustering key. -/
theorem keys_shifted_without_first :
    ¬ ∀ m, statementToMutation intCodec measuresTable ⟨.ok 9000, 9⟩
      (.insert (insertInts [("k", 1), ("c2", 3), ("v", 4)])) = .ok m →
        KeysInPlace intCodec measuresTable (.insert (insertInts [("k", 1), ("c2", 3), ("v", 4)])) m := by
  intro h
  obtain ⟨key, hkey, hname, -⟩ := (h _ rfl).clustering 0 ("c2", .integer 3) rfl
  have hfirst : measuresTable.orderedClusteringKeys[0]? = some ⟨"c1", "int", 0, .asc⟩ := rfl
  rw [hfirst] at hkey
  cases hkey
  exact absurd hname (by decide)

end Cqlite
