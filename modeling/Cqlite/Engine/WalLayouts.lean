import Cqlite.Engine.WalRecord
import Mathlib.Algebra.Order.BigOperators.Group.List

/-! Entries of older layouts (`write_engine/wal.rs`: `decode_mutation`).

    Layouts differ in what stands at the end of a mutation and in two operations, which got a local
    deletion time. An entry that lacks a field at the end is not read under a layout that has it. An
    entry that lacks one in an operation may be: the bytes behind are then taken for it. -/

namespace Cqlite

open Bincode

/-! ### Fields a layout may lack -/

variable {present : Bool} {m : Mutation} {r : TableId × Mutation}

section Fields

variable {α : Type} {c : Format α} {x : Option α}

theorem absent_valid : (Format.absent : Format (Option α)).Valid x ↔ x = none := by
  constructor
  · rintro ⟨_, -, hmk, -⟩
    exact (Option.some.inj hmk).symm
  · rintro rfl
    exact ⟨(), rfl, rfl, trivial⟩

theorem absent_encode : (Format.absent : Format (Option α)).encode x = [] := by
  cases x with
  | none => rfl
  | some a => rfl

theorem fieldFormat_valid :
    (fieldFormat present c).Valid x ↔ (∀ a ∈ x, c.Valid a) ∧ (present = false → x = none) := by
  cases present with
  | true => exact ⟨fun h => ⟨h, by simp⟩, fun h => h.1⟩
  | false =>
    refine absent_valid.trans ⟨?_, fun h => h.2 rfl⟩
    rintro rfl
    exact ⟨by simp, fun _ => rfl⟩

theorem option_encode_pos : 0 < (c.option.encode x).length := by
  cases x with
  | none => exact Nat.one_pos
  | some a => exact Nat.succ_pos _

theorem fieldFormat_length {present' : Bool} (h : present = true → present' = true) :
    ((fieldFormat present c).encode x).length ≤ ((fieldFormat present' c).encode x).length := by
  cases present with
  | true => rw [h rfl]
  | false =>
    rw [fieldFormat, if_neg (by decide), absent_encode]
    exact Nat.zero_le _

end Fields

/-! ### Which operations differ -/

namespace Layout

/-- Both layouts have the same form of the operation. -/
def agreesOn (a b : Layout) : CellOperation → Bool
  | .writeWithTtl _ _ _ _ => a.ttlLdt == b.ttlLdt
  | .delete _ _ => a.deleteLdt == b.deleteLdt
  | _ => true

theorem agree_or_differ (a b : Layout) (ops : List CellOperation) :
    (∀ op ∈ ops, a.agreesOn b op = true) ∨ ∃ op ∈ ops, a.agreesOn b op = false := by
  cases h : ops.all (a.agreesOn b) with
  | true => exact Or.inl (List.all_eq_true.1 h)
  | false => exact Or.inr (List.all_eq_false.1 h |>.imp fun op hop => ⟨hop.1, by simpa using hop.2⟩)

/-- `a` has every field that `b` has. -/
structure Extends (a b : Layout) : Prop where
  ttlLdt : b.ttlLdt = true → a.ttlLdt = true
  deleteLdt : b.deleteLdt = true → a.deleteLdt = true
  localDeletionTime : b.localDeletionTime = true → a.localDeletionTime = true
  rowTombstone : b.rowTombstone = true → a.rowTombstone = true
  cellWriteTimestamps : b.cellWriteTimestamps = true → a.cellWriteTimestamps = true

theorem extends_of_tried {a b : Layout} (h : a ∈ b.triedBefore) : a.Extends b := by
  cases b <;> cases a <;> first | exact absurd h (by decide) | exact ⟨by decide, by decide, by decide, by decide, by decide⟩

theorem later_fields (a : Layout) : (a.localDeletionTime = false → a.rowTombstone = false) ∧
    (a.rowTombstone = false → a.cellWriteTimestamps = false) := by
  cases a <;> decide

end Layout

/-! ### One operation -/

section Operations

variable (json : String → Bytes) (depth : Nat)

variable {json depth} {a b : Layout}

theorem writeWithTtl_encode (column : String) (value : Value) (ttl : Int) (ldt : Option Int) :
    (cellOperationFormat json depth a).encode (.writeWithTtl column value ttl ldt) =
      (Format.number 4).encode 1 ++ (Format.string.encode column ++
        ((valueFormat json depth).encode value ++ (u32Format.encode ttl ++
          (fieldFormat a.ttlLdt (.signed 4)).encode ldt))) := rfl

theorem delete_encode (column : String) (ldt : Option Int) :
    (cellOperationFormat json depth a).encode (.delete column ldt) =
      (Format.number 4).encode 2 ++ (Format.string.encode column ++
        (fieldFormat a.deleteLdt (.signed 4)).encode ldt) := rfl

/-- Operation `t` of both layouts, written by the one and read by the other. -/
theorem operation_decode {t : Nat} {v : Variant CellOperation}
    (hv : cellOperationVariant json depth a t = some v) (ht : t < 256 ^ 4) (rest : Bytes) :
    (cellOperationFormat json depth a).decode ((Format.number 4).encode t ++ rest) =
      (v.format.decode rest).map fun q => (v.make q.1, q.2) :=
  Format.enum_decode hv ht rest

theorem writeWithTtl_valid {column : String} {value : Value} {ttl : Int} {ldt : Option Int} :
    (cellOperationFormat json depth a).Valid (.writeWithTtl column value ttl ldt) ↔
      Format.string.Valid column ∧ (valueFormat json depth).Valid value ∧ u32Format.Valid ttl ∧
        (fieldFormat a.ttlLdt (.signed 4)).Valid ldt := by
  have hv : cellOperationVariant json depth a 1 = some (writeWithTtlVariant json depth a) := rfl
  exact Format.enum_valid hv (by decide) (column, value, ttl, ldt)

theorem delete_valid {column : String} {ldt : Option Int} :
    (cellOperationFormat json depth a).Valid (.delete column ldt) ↔
      Format.string.Valid column ∧ (fieldFormat a.deleteLdt (.signed 4)).Valid ldt := by
  have hv : cellOperationVariant json depth a 2 = some (deleteVariant a) := rfl
  exact Format.enum_valid hv (by decide) (column, ldt)

variable {op : CellOperation}

theorem agrees_encode (h : a.agreesOn b op = true) :
    (cellOperationFormat json depth a).encode op = (cellOperationFormat json depth b).encode op := by
  cases op with
  | writeWithTtl column value ttl ldt =>
    rw [writeWithTtl_encode, writeWithTtl_encode, beq_iff_eq.1 h]
  | delete column ldt => rw [delete_encode, delete_encode, beq_iff_eq.1 h]
  | _ => rfl

theorem agrees_valid (h : a.agreesOn b op = true) :
    (cellOperationFormat json depth a).Valid op ↔ (cellOperationFormat json depth b).Valid op := by
  have hsame : ∀ (t : Nat) (v : Variant CellOperation), t < 256 ^ 4 →
      cellOperationVariant json depth a t = some v → cellOperationVariant json depth b t = some v →
      ∀ p, (cellOperationFormat json depth a).Valid (v.make p) ↔
        (cellOperationFormat json depth b).Valid (v.make p) := fun t v ht ha hb p =>
    (Format.enum_valid ha ht p).trans (Format.enum_valid hb ht p).symm
  cases op with
  | write column value => exact hsame 0 _ (by decide) rfl rfl (column, value)
  | writeWithTtl column value ttl ldt =>
    rw [writeWithTtl_valid, writeWithTtl_valid, beq_iff_eq.1 h]
  | delete column ldt => rw [delete_valid, delete_valid, beq_iff_eq.1 h]
  | deleteRow => exact hsame 3 _ (by decide) rfl rfl ()
  | writeComplexElement column cellPath value timestamp ttl ldt isDeleted =>
    exact hsame 4 _ (by decide) rfl rfl (column, cellPath, value, timestamp, ttl, ldt, isDeleted)
  | complexDeletion column mfda ldt => exact hsame 5 _ (by decide) rfl rfl (column, mfda, ldt)

/-- What a layout reads is valid in the layout of the entry, when its missing fields are not set. -/
theorem upgradeOperation_valid
    (h : (cellOperationFormat json depth a).Valid (b.upgradeOperation op)) :
    (cellOperationFormat json depth b).Valid (b.upgradeOperation op) := by
  cases op with
  | writeWithTtl column value ttl ldt =>
    rw [Layout.upgradeOperation, writeWithTtl_valid, fieldFormat_valid] at h ⊢
    obtain ⟨hcolumn, hvalue, httl, hldt, -⟩ := h
    exact ⟨hcolumn, hvalue, httl, hldt, fun hno => if_neg (by rw [hno]; decide)⟩
  | delete column ldt =>
    rw [Layout.upgradeOperation, delete_valid, fieldFormat_valid] at h ⊢
    obtain ⟨hcolumn, hldt, -⟩ := h
    exact ⟨hcolumn, hldt, fun hno => if_neg (by rw [hno]; decide)⟩
  | write column value => exact (agrees_valid rfl).1 h
  | deleteRow => exact (agrees_valid rfl).1 h
  | writeComplexElement column cellPath value timestamp ttl ldt isDeleted =>
    exact (agrees_valid rfl).1 h
  | complexDeletion column mfda ldt => exact (agrees_valid rfl).1 h

theorem operation_length (h : a.Extends b) (op : CellOperation) :
    ((cellOperationFormat json depth b).encode op).length ≤
      ((cellOperationFormat json depth a).encode op).length := by
  cases op with
  | writeWithTtl column value ttl ldt =>
    have hldt := fieldFormat_length h.ttlLdt (c := Format.signed 4) (x := ldt)
    simp only [writeWithTtl_encode, List.length_append]
    omega
  | delete column ldt =>
    have hldt := fieldFormat_length h.deleteLdt (c := Format.signed 4) (x := ldt)
    simp only [delete_encode, List.length_append]
    omega
  | _ => exact le_rfl

/-- A layout that differs on an operation needs more bytes. -/
theorem operation_length_lt (h : a.Extends b) (hdiff : a.agreesOn b op = false) :
    ((cellOperationFormat json depth b).encode op).length <
      ((cellOperationFormat json depth a).encode op).length := by
  have hfield : ∀ {p q : Bool} {ldt : Option Int}, (q = true → p = true) → (p == q) = false →
      ((fieldFormat q (Format.signed 4)).encode ldt).length <
        ((fieldFormat p (Format.signed 4)).encode ldt).length := by
    intro p q ldt hpq hne
    cases q with
    | true => rw [hpq rfl] at hne; cases hne
    | false =>
      cases p with
      | false => cases hne
      | true =>
        rw [fieldFormat, if_neg (by decide), absent_encode]
        exact option_encode_pos
  cases op with
  | writeWithTtl column value ttl ldt =>
    have hldt := @hfield _ _ ldt h.ttlLdt hdiff
    simp only [writeWithTtl_encode, List.length_append]
    omega
  | delete column ldt =>
    have hldt := @hfield _ _ ldt h.deleteLdt hdiff
    simp only [delete_encode, List.length_append]
    omega
  | _ => cases hdiff

/-- An operation that lacks its time: what stands behind it is read as one. -/
theorem differs_decode (h : a.Extends b) (hdiff : a.agreesOn b op = false)
    (hvalid : (cellOperationFormat json depth b).Valid op) (rest : Bytes) :
    ∃ withLdt : Option Int → CellOperation, (cellOperationFormat json depth a).decode
        ((cellOperationFormat json depth b).encode op ++ rest) =
      ((Format.signed 4).option.decode rest).map fun q => (withLdt q.1, q.2) := by
  have hflags : ∀ {p q : Bool}, (q = true → p = true) → (p == q) = false → p = true ∧ q = false := by
    decide
  cases op with
  | writeWithTtl column value ttl ldt =>
    obtain ⟨hnew, hold⟩ := hflags h.ttlLdt hdiff
    obtain ⟨hcolumn, hvalue, httl, -⟩ := writeWithTtl_valid.1 hvalid
    refine ⟨.writeWithTtl column value ttl, ?_⟩
    have hv : cellOperationVariant json depth a 1 = some (writeWithTtlVariant json depth a) := rfl
    rw [writeWithTtl_encode, hold, fieldFormat, if_neg (by decide), absent_encode, List.append_nil,
      List.append_assoc, operation_decode hv (by decide)]
    simp only [writeWithTtlVariant, List.append_assoc]
    rw [Format.pair_decode _ _ hcolumn, Format.pair_decode _ _ hvalue, Format.pair_decode _ _ httl,
      fieldFormat, hnew, if_pos rfl]
    simp only [Option.map_map]
    rfl
  | delete column ldt =>
    obtain ⟨hnew, hold⟩ := hflags h.deleteLdt hdiff
    obtain ⟨hcolumn, -⟩ := delete_valid.1 hvalid
    refine ⟨.delete column, ?_⟩
    have hv : cellOperationVariant json depth a 2 = some (deleteVariant a) := rfl
    rw [delete_encode, hold, fieldFormat, if_neg (by decide), absent_encode, List.append_nil,
      List.append_assoc, operation_decode hv (by decide)]
    simp only [deleteVariant]
    rw [Format.pair_decode _ _ hcolumn, fieldFormat, hnew, if_pos rfl]
    simp only [Option.map_map]
    rfl
  | _ => cases hdiff

end Operations

/-! ### The operations of an entry -/

section Entries

variable (json : String → Bytes) (depth : Nat) (a b : Layout)

/-- As many operations as there are to be, and the fields behind them. -/
def readsOn (count : Nat) (bytes : Bytes) : Bool :=
  ((Format.decodeMany (cellOperationFormat json depth a) count bytes).bind fun p =>
    (tailFormat json depth a).decode p.2).isSome

/-- Read under layout `a`, the bytes behind the first operation that `b` writes in an older form are
    a local deletion time, the operations that are left, and the fields behind them. -/
def misreads (tail : Bytes) : List CellOperation → Bool
  | [] => false
  | op :: ops =>
    if a.agreesOn b op then misreads tail ops
    else ((Format.signed 4).option.decode
      (ops.flatMap (cellOperationFormat json depth b).encode ++ tail)).any fun p =>
        readsOn json depth a ops.length p.2

variable {json depth a b}

variable {ops : List CellOperation}

theorem misreads_of_agree {tail : Bytes} (h : ∀ op ∈ ops, a.agreesOn b op = true) :
    misreads json depth a b tail ops = false := by
  induction ops with
  | nil => rfl
  | cons op ops ih =>
    rw [misreads, if_pos (h op List.mem_cons_self)]
    exact ih fun op hop => h op (List.mem_cons_of_mem _ hop)

/-- The operations of `b` are read as those of `a` where both agree. -/
theorem decodeMany_agree (h : ∀ op ∈ ops, a.agreesOn b op = true)
    (hvalid : ∀ op ∈ ops, (cellOperationFormat json depth b).Valid op) (rest : Bytes) :
    Format.decodeMany (cellOperationFormat json depth a) ops.length
        (ops.flatMap (cellOperationFormat json depth b).encode ++ rest) = some (ops, rest) := by
  have hencode : ops.flatMap (cellOperationFormat json depth b).encode =
      ops.flatMap (cellOperationFormat json depth a).encode :=
    List.flatMap_congr fun op hop => (agrees_encode (h op hop)).symm
  rw [hencode]
  exact Format.decodeMany_read _ _ (fun op hop => (agrees_valid (h op hop)).2 (hvalid op hop)) rest

/-- Where they do not, the entry is read only if what is behind is misread. -/
theorem readsOn_differ (hext : a.Extends b)
    (hvalid : ∀ op ∈ ops, (cellOperationFormat json depth b).Valid op)
    (hdiff : ∃ op ∈ ops, a.agreesOn b op = false) (tail : Bytes) :
    readsOn json depth a ops.length
        (ops.flatMap (cellOperationFormat json depth b).encode ++ tail) =
      misreads json depth a b tail ops := by
  induction ops with
  | nil =>
    obtain ⟨op, hop, -⟩ := hdiff
    cases hop
  | cons op ops ih =>
    have hfirst := hvalid op List.mem_cons_self
    have hrest : ∀ op' ∈ ops, (cellOperationFormat json depth b).Valid op' :=
      fun op' hop => hvalid op' (List.mem_cons_of_mem _ hop)
    rw [misreads, readsOn, List.length_cons, Format.decodeMany, List.flatMap_cons, List.append_assoc]
    cases hagree : a.agreesOn b op with
    | true =>
      have hdiff' : ∃ op' ∈ ops, a.agreesOn b op' = false := by
        obtain ⟨op', hop', hno⟩ := hdiff
        rcases List.mem_cons.1 hop' with rfl | hop'
        · rw [hagree] at hno
          cases hno
        · exact ⟨op', hop', hno⟩
      rw [← agrees_encode hagree, (cellOperationFormat json depth a).read op
        ((agrees_valid hagree).2 hfirst), Option.bind_some, if_pos rfl, ← ih hrest hdiff', readsOn]
      cases Format.decodeMany (cellOperationFormat json depth a) ops.length
        (ops.flatMap (cellOperationFormat json depth b).encode ++ tail) <;> rfl
    | false =>
      obtain ⟨withLdt, hdecode⟩ := differs_decode hext hagree hfirst
        (ops.flatMap (cellOperationFormat json depth b).encode ++ tail)
      rw [hdecode, if_neg (by decide)]
      cases (Format.signed 4).option.decode
          (ops.flatMap (cellOperationFormat json depth b).encode ++ tail) with
      | none => rfl
      | some q =>
        rw [Option.map_some, Option.bind_some, Option.any_some, readsOn]
        cases Format.decodeMany (cellOperationFormat json depth a) ops.length q.2 <;> rfl

/-! ### The fields at the end -/

theorem fieldFormat_late {α : Type} {c : Format α} {present' : Bool}
    (h : present = true → present' = true) (hne : present' ≠ present) (x : Option α) :
    (fieldFormat present c).encode x = [] ∧ (fieldFormat present' c).decode [] = none := by
  cases present with
  | true => exact absurd (h rfl) hne
  | false =>
    cases present' with
    | false => exact absurd rfl hne
    | true => exact ⟨absent_encode, rfl⟩

/-- The later fields are read as they are or not at all. -/
theorem laterFields_decode (hext : a.Extends b)
    {later : Option Int × Option Deletion × Option (List (String × Int))}
    (hvalid : (laterFieldsFormat b).Valid later) :
    (laterFieldsFormat a).decode ((laterFieldsFormat b).encode later) = some (later, []) ∨
      (laterFieldsFormat a).decode ((laterFieldsFormat b).encode later) = none := by
  obtain ⟨ldt, row, timestamps⟩ := later
  obtain ⟨hldt, hrow, htimestamps⟩ := hvalid
  have habsent : ∀ {α : Type} {c : Format α} {x : Option α} {p : Bool}, p = false →
      (fieldFormat p c).encode x = [] := by
    rintro α c x p rfl
    exact absent_encode
  have hnone : ∀ {α β : Type} {c : Format α} {d : Format β} {bytes : Bytes},
      c.decode bytes = none → (c.pair d).decode bytes = none := by
    intro α β c d bytes h
    change ((c.decode bytes).bind _) = none
    rw [h, Option.bind_none]
  obtain ⟨hrowLater, htimestampsLater⟩ := b.later_fields
  have hencode : (laterFieldsFormat b).encode (ldt, row, timestamps) =
      (fieldFormat b.localDeletionTime (.signed 4)).encode ldt ++
        ((fieldFormat b.rowTombstone ((Format.signed 8).pair (.signed 4))).encode row ++
          (fieldFormat b.cellWriteTimestamps cellTimestampsFormat).encode timestamps) := rfl
  rw [hencode, laterFieldsFormat]
  by_cases h1 : a.localDeletionTime = b.localDeletionTime
  · rw [h1, Format.pair_decode _ _ hldt]
    by_cases h2 : a.rowTombstone = b.rowTombstone
    · rw [h2, Format.pair_decode _ _ hrow]
      by_cases h3 : a.cellWriteTimestamps = b.cellWriteTimestamps
      · left
        rw [h3]
        have hread := (fieldFormat b.cellWriteTimestamps cellTimestampsFormat).read _ htimestamps []
        rw [List.append_nil] at hread
        rw [hread]
        rfl
      · right
        obtain ⟨hempty, hlate⟩ := fieldFormat_late (c := cellTimestampsFormat)
          hext.cellWriteTimestamps h3 timestamps
        rw [hempty, hlate]
        rfl
    · right
      obtain ⟨hempty, hlate⟩ := fieldFormat_late (c := (Format.signed 8).pair (.signed 4))
        hext.rowTombstone h2 row
      have hno : b.rowTombstone = false := by
        cases hb : b.rowTombstone with
        | false => rfl
        | true => exact absurd ((hext.rowTombstone hb).trans hb.symm) h2
      rw [hempty, habsent (htimestampsLater hno), List.append_nil, hnone hlate]
      rfl
  · right
    obtain ⟨hempty, hlate⟩ := fieldFormat_late (c := Format.signed 4) hext.localDeletionTime h1 ldt
    have hno : b.localDeletionTime = false := by
      cases hb : b.localDeletionTime with
      | false => rfl
      | true => exact absurd ((hext.localDeletionTime hb).trans hb.symm) h1
    rw [hempty, habsent (hrowLater hno), habsent (htimestampsLater (hrowLater hno)),
      List.append_nil, List.append_nil, hnone hlate]

theorem tail_decode (hext : a.Extends b) {tail : MutationTail}
    (hvalid : (tailFormat json depth b).Valid tail) :
    (tailFormat json depth a).decode ((tailFormat json depth b).encode tail) = some (tail, []) ∨
      (tailFormat json depth a).decode ((tailFormat json depth b).encode tail) = none := by
  obtain ⟨timestamp, ttl, partitionTombstone, rangeTombstones, later⟩ := tail
  obtain ⟨htimestamp, httl, hpartition, hranges, hlater⟩ := hvalid
  have hencode : (tailFormat json depth b).encode
      (timestamp, ttl, partitionTombstone, rangeTombstones, later) =
      (Format.signed 8).encode timestamp ++ (u32Format.option.encode ttl ++
        (partitionTombstoneFormat.option.encode partitionTombstone ++
          ((rangeTombstoneFormat json depth).list.encode rangeTombstones ++
            (laterFieldsFormat b).encode later))) := rfl
  rw [hencode, tailFormat, Format.pair_decode _ _ htimestamp, Format.pair_decode _ _ httl,
    Format.pair_decode _ _ hpartition, Format.pair_decode _ _ hranges]
  rcases laterFields_decode hext hlater with h | h
  · left
    rw [h]
    rfl
  · right
    rw [h]
    rfl

theorem tail_length (hext : a.Extends b) (tail : MutationTail) :
    ((tailFormat json depth b).encode tail).length ≤
      ((tailFormat json depth a).encode tail).length := by
  have hldt := fieldFormat_length (c := Format.signed 4) (x := tail.2.2.2.2.1) hext.localDeletionTime
  have hrow := fieldFormat_length (c := (Format.signed 8).pair (.signed 4))
    (x := tail.2.2.2.2.2.1) hext.rowTombstone
  have htimestamps := fieldFormat_length (c := cellTimestampsFormat) (x := tail.2.2.2.2.2.2)
    hext.cellWriteTimestamps
  simp only [tailFormat, laterFieldsFormat, Format.pair, List.length_append]
  simp only [Format.pair] at hrow
  omega

/-! ### Entries -/

theorem mutation_valid :
    (mutationFormat json depth a).Valid r ↔ (keysFormat json depth).Valid (recordParts r).1 ∧
      (r.2.operations.length < 256 ^ 8 ∧
        ∀ op ∈ r.2.operations, (cellOperationFormat json depth a).Valid op) ∧
      (tailFormat json depth a).Valid r.2.tail :=
  Format.iso_valid.trans (and_iff_left rfl)

theorem mutation_decode {table : TableId} (hvalid : (mutationFormat json depth b).Valid (table, m)) :
    deserialize json depth a (serializeAs json depth b table m) =
      (Format.decodeMany (cellOperationFormat json depth a) m.operations.length
          (m.operations.flatMap (cellOperationFormat json depth b).encode ++
            (tailFormat json depth b).encode m.tail)).bind fun p =>
        ((tailFormat json depth a).decode p.2).map fun q =>
          recordOf ((recordParts (table, m)).1, p.1, q.1) := by
  obtain ⟨hkeys, ⟨hcount, -⟩, -⟩ := mutation_valid.1 hvalid
  have hencode : serializeAs json depth b table m =
      (keysFormat json depth).encode (recordParts (table, m)).1 ++
        ((Format.number 8).encode m.operations.length ++
          (m.operations.flatMap (cellOperationFormat json depth b).encode ++
            (tailFormat json depth b).encode m.tail)) := by
    rw [← List.append_assoc ((Format.number 8).encode _)]
    rfl
  rw [deserialize, mutationFormat, Format.iso_decode, hencode, Format.pair_decode _ _ hkeys,
    Format.list_decode _ _ hcount]
  cases Format.decodeMany (cellOperationFormat json depth a) m.operations.length
      (m.operations.flatMap (cellOperationFormat json depth b).encode ++
        (tailFormat json depth b).encode m.tail) with
  | none => rfl
  | some p =>
    rw [Option.bind_some, Option.bind_some]
    cases (tailFormat json depth a).decode p.2 <;> rfl

/-- Under a layout that agrees on every operation, the entry is read as it is or not at all. -/
theorem deserialize_agree (hext : a.Extends b) {table : TableId}
    (hvalid : (mutationFormat json depth b).Valid (table, m))
    (hagree : ∀ op ∈ m.operations, a.agreesOn b op = true) :
    deserialize json depth a (serializeAs json depth b table m) = some (table, m) ∨
      deserialize json depth a (serializeAs json depth b table m) = none := by
  obtain ⟨-, ⟨-, hops⟩, htail⟩ := mutation_valid.1 hvalid
  rw [mutation_decode hvalid, decodeMany_agree hagree hops, Option.bind_some]
  rcases tail_decode hext htail with h | h
  · left
    rw [h]
    rfl
  · right
    rw [h]
    rfl

/-- Under another layout it is read only by a misreading, and then as something else. -/
theorem deserialize_differ (hext : a.Extends b) {table : TableId}
    (hvalid : (mutationFormat json depth b).Valid (table, m))
    (hdiff : ∃ op ∈ m.operations, a.agreesOn b op = false) :
    (deserialize json depth a (serializeAs json depth b table m)).isSome =
        misreads json depth a b ((tailFormat json depth b).encode m.tail) m.operations ∧
      deserialize json depth a (serializeAs json depth b table m) ≠ some (table, m) := by
  obtain ⟨-, ⟨-, hops⟩, -⟩ := mutation_valid.1 hvalid
  constructor
  · rw [← readsOn_differ hext hops hdiff, mutation_decode hvalid, readsOn]
    cases Format.decodeMany (cellOperationFormat json depth a) m.operations.length
        (m.operations.flatMap (cellOperationFormat json depth b).encode ++
          (tailFormat json depth b).encode m.tail) with
    | none => rfl
    | some p =>
      rw [Option.bind_some, Option.bind_some]
      cases (tailFormat json depth a).decode p.2 <;> rfl
  · intro h
    obtain ⟨⟨r, rest⟩, hdecode, rfl⟩ := Option.map_eq_some_iff.1 h
    have hwithin := (mutationFormat json depth a).within _ _ _ hdecode
    have hlong : (serializeAs json depth b table m).length <
        ((mutationFormat json depth a).encode (table, m)).length := by
      have htail : ((tailFormat json depth b).encode m.tail).length ≤
          ((tailFormat json depth a).encode m.tail).length := tail_length hext m.tail
      have hmany : (m.operations.flatMap (cellOperationFormat json depth b).encode).length <
          (m.operations.flatMap (cellOperationFormat json depth a).encode).length := by
        rw [List.length_flatMap, List.length_flatMap]
        obtain ⟨op, hop, hno⟩ := hdiff
        exact List.sum_lt_sum _ _ (fun op _ => operation_length hext op)
          ⟨op, hop, operation_length_lt hext hno⟩
      simp only [serializeAs, mutationFormat, Format.iso_encode, Format.pair, Format.list,
        List.length_append, recordParts]
      omega
    omega

end Entries

/-! ### Old entries -/

section Decoding

variable (json : String → Bytes) (depth : Nat)

/-- All layouts, as they are tried. -/
def Layout.tried : List Layout := Layout.legacyMutation.triedBefore ++ [.legacyMutation]

theorem decodeMutation_findSome (bytes : Bytes) :
    decodeMutation json depth bytes =
      Layout.tried.findSome? fun a => deserialize json depth a bytes := by
  simp only [decodeMutation, Layout.tried, Layout.triedBefore, List.cons_append, List.nil_append,
    List.findSome?_cons, List.findSome?_nil]
  cases deserialize json depth .mutation bytes with
  | some r => rfl
  | none =>
  cases deserialize json depth .preCellLdtWriteTtlMutation bytes with
  | some r => rfl
  | none =>
  cases deserialize json depth .preCellWriteTimestampsMutation bytes with
  | some r => rfl
  | none =>
  cases deserialize json depth .preRowTombstoneMutation bytes with
  | some r => rfl
  | none =>
  cases deserialize json depth .legacyMutationWithLdt bytes with
  | some r => rfl
  | none =>
  cases deserialize json depth .legacyMutation bytes with
  | some r => rfl
  | none => rfl

theorem exists_deserialized {bytes : Bytes} (h : decodeMutation json depth bytes = some r) :
    ∃ a, deserialize json depth a bytes = some r := by
  rw [decodeMutation_findSome] at h
  obtain ⟨a, -, ha⟩ := List.exists_of_findSome?_eq_some h
  exact ⟨a, ha⟩

theorem decodeMutation_eq (layout : Layout) {bytes : Bytes}
    (hbefore : ∀ a ∈ layout.triedBefore, ∀ s, deserialize json depth a bytes = some s → s = r)
    (hok : deserialize json depth layout bytes = some r) :
    decodeMutation json depth bytes = some r := by
  obtain ⟨later, hsplit⟩ : ∃ later, Layout.tried = layout.triedBefore ++ layout :: later := by
    cases layout <;> exact ⟨_, rfl⟩
  rw [decodeMutation_findSome, hsplit]
  revert hbefore
  generalize layout.triedBefore = before
  intro hbefore
  induction before with
  | nil => rw [List.nil_append, List.findSome?_cons, hok]
  | cons a before ih =>
    rw [List.cons_append, List.findSome?_cons]
    cases ha : deserialize json depth a bytes with
    | some s => rw [hbefore a List.mem_cons_self s ha]
    | none => exact ih fun b hb => hbefore b (List.mem_cons_of_mem a hb)

variable {json depth}

theorem serializeAs_upgrade (layout : Layout) (table : TableId) (m : Mutation) :
    serializeAs json depth layout table m = serializeAs json depth layout table (layout.upgrade m) := by
  have hfield : ∀ {α : Type} (c : Format α) (present : Bool) (x : Option α),
      (fieldFormat present c).encode x =
        (fieldFormat present c).encode (if present then x else none) := by
    intro α c present x
    cases present with
    | true => rfl
    | false => rw [fieldFormat, if_neg (by decide), absent_encode, absent_encode]
  have hop : ∀ op, (cellOperationFormat json depth layout).encode (layout.upgradeOperation op) =
      (cellOperationFormat json depth layout).encode op := by
    intro op
    cases op with
    | writeWithTtl column value ttl ldt =>
      rw [Layout.upgradeOperation, writeWithTtl_encode, writeWithTtl_encode, ← hfield]
    | delete column ldt => rw [Layout.upgradeOperation, delete_encode, delete_encode, ← hfield]
    | _ => rfl
  have hops : (m.operations.map layout.upgradeOperation).flatMap
      (cellOperationFormat json depth layout).encode =
        m.operations.flatMap (cellOperationFormat json depth layout).encode := by
    rw [List.flatMap_map]
    exact List.flatMap_congr fun op _ => hop op
  simp only [serializeAs, mutationFormat, Format.iso_encode, recordParts, Format.pair, Format.list,
    tailFormat, laterFieldsFormat, Mutation.tail, Layout.upgrade, List.length_map, hops, ← hfield]

/-- What any layout reads is valid in the layout of the entry when its missing fields are not set. -/
theorem upgrade_valid {a layout : Layout} {table : TableId}
    (h : (mutationFormat json depth a).Valid (table, layout.upgrade m)) :
    (mutationFormat json depth layout).Valid (table, layout.upgrade m) := by
  obtain ⟨hkeys, ⟨hcount, hops⟩, htimestamp, httl, hpartition, hranges, hldt, hrow, htimestamps⟩ :=
    mutation_valid.1 h
  have hfield : ∀ {α : Type} {c : Format α} {p q : Bool} {x : Option α},
      (fieldFormat p c).Valid (if q then x else none) →
        (fieldFormat q c).Valid (if q then x else none) := fun hx =>
    fieldFormat_valid.2 ⟨(fieldFormat_valid.1 hx).1, fun hno => if_neg (by rw [hno]; decide)⟩
  refine mutation_valid.2 ⟨hkeys, ⟨hcount, fun op hop => ?_⟩, htimestamp, httl, hpartition, hranges,
    hfield hldt, hfield hrow, hfield htimestamps⟩
  obtain ⟨op', -, rfl⟩ := List.mem_map.1 hop
  exact upgradeOperation_valid (hops _ hop)

variable (json depth)

/-- An entry comes back with the fields its layout lacks at their defaults, and no layout that is
    tried before its own reads anything else. -/
structure DecodesAsWritten (layout : Layout) (table : TableId) (m : Mutation) : Prop where
  decodes : decodeMutation json depth (serializeAs json depth layout table m) =
    some (table, layout.upgrade m)
  unmistaken : ∀ a ∈ layout.triedBefore, ∀ r,
    deserialize json depth a (serializeAs json depth layout table m) = some r →
      r = (table, layout.upgrade m)

/-- Every value of the mutation can be read, and under no layout that is tried before are the bytes
    behind an operation of an older form taken for the field it lacks. -/
structure Unambiguous (layout : Layout) (table : TableId) (m : Mutation) : Prop where
  readable : (mutationFormat json depth layout).Valid (table, layout.upgrade m)
  distinct : ∀ a ∈ layout.triedBefore, misreads json depth a layout
    ((tailFormat json depth layout).encode (layout.upgrade m).tail) (layout.upgrade m).operations = false

/-- An entry reads back just where no layout tried before misreads it. -/
theorem decodesAsWritten_iff (layout : Layout) (table : TableId) (m : Mutation) :
    DecodesAsWritten json depth layout table m ↔ Unambiguous json depth layout table m := by
  constructor
  · rintro ⟨hdecodes, hunmistaken⟩
    have hreadable : (mutationFormat json depth layout).Valid (table, layout.upgrade m) := by
      obtain ⟨a, ha⟩ := exists_deserialized json depth hdecodes
      obtain ⟨⟨r, rest⟩, hdecode, hr⟩ := Option.map_eq_some_iff.1 ha
      have hvalid := (mutationFormat json depth a).valid _ _ _ hdecode
      rw [show r = (table, layout.upgrade m) from hr] at hvalid
      exact upgrade_valid hvalid
    refine ⟨hreadable, fun a ha => ?_⟩
    have hext := Layout.extends_of_tried ha
    rcases a.agree_or_differ layout (layout.upgrade m).operations with hagree | hdiff
    · exact misreads_of_agree hagree
    · obtain ⟨hreads, hother⟩ := deserialize_differ hext hreadable hdiff
      rw [← hreads, ← serializeAs_upgrade]
      rw [← serializeAs_upgrade] at hother
      cases hr : deserialize json depth a (serializeAs json depth layout table m) with
      | none => rfl
      | some r => exact absurd (hr.trans (congrArg some (hunmistaken a ha r hr))) hother
  · rintro ⟨hreadable, hdistinct⟩
    have hunmistaken : ∀ a ∈ layout.triedBefore, ∀ r,
        deserialize json depth a (serializeAs json depth layout table m) = some r →
          r = (table, layout.upgrade m) := by
      intro a ha r hr
      have hext := Layout.extends_of_tried ha
      rw [serializeAs_upgrade] at hr
      rcases a.agree_or_differ layout (layout.upgrade m).operations with hagree | hdiff
      · rcases deserialize_agree hext hreadable hagree with h | h
        · exact Option.some.inj (hr.symm.trans h)
        · rw [h] at hr
          cases hr
      · have hreads := (deserialize_differ hext hreadable hdiff).1
        rw [hr, hdistinct a ha] at hreads
        cases hreads
    refine ⟨decodeMutation_eq json depth layout hunmistaken ?_, hunmistaken⟩
    have hread := (mutationFormat json depth layout).read _ hreadable []
    rw [List.append_nil] at hread
    rw [serializeAs_upgrade, deserialize, serializeAs, hread]
    rfl

end Decoding

/-! ### An entry that is misread -/

/-- An expiring cell last, a timestamp whose low byte is zero, and a write time for the cell. -/
def expiringWrite : Mutation where
  partitionKey := ⟨[("id", .integer 3)]⟩
  clusteringKey := none
  operations := [.writeWithTtl "name" (.integer 7) 60 none]
  timestampMicros := 1700000000000000
  ttlSeconds := none
  partitionTombstone := none
  rangeTombstones := []
  localDeletionTime := none
  rowTombstone := none
  cellWriteTimestamps := some [("name", 1700000000000000)]

theorem expiringWrite_misread :
    (decodeMutation (fun _ => []) 1 (serializeAs (fun _ => []) 1 .preCellLdtWriteTtlMutation
      ⟨"ks", "tbl"⟩ expiringWrite)).map (fun r => (r.2.timestampMicros, r.2.rowTombstone)) =
        some (6640625000000, some (1, 4)) := by
  decide +kernel

/-- A write with a TTL and an older reader of it. -/
theorem expiringWrite_not_as_written :
    ¬ DecodesAsWritten (fun _ => []) 1 .preCellLdtWriteTtlMutation ⟨"ks", "tbl"⟩ expiringWrite := by
  intro h
  have hmisread := expiringWrite_misread
  rw [h.decodes] at hmisread
  exact absurd hmisread (by decide)

end Cqlite
