import Cqlite.Merge.ReadOrder

/-! Whole rows reassembled: column by column, with any values.

    A row is refused, in any order of its cells, when one of its columns is; otherwise it comes out
    right exactly when every column is settled. -/

namespace Cqlite

open StableSort

/-! ### One column -/

theorem all_layout (cs : List CellData) :
    (layout cs).all Prod.fst = cs.all CellData.isComplexElement := List.all_map ..

theorem map_snd_layout (cs : List CellData) :
    (layout cs).map Prod.snd = cs.map CellData.pathBytes := List.map_map ..

section Columns

variable (sort : StableSort) (parse : String → Except AssemblyError CqlType)
  (columns : List ReadColumn) (name : String) {cs : List CellData}

/-- What the code makes of the cells of a column. -/
def columnValue (cs : List CellData) : Value :=
  if cs.all CellData.isComplexElement then
    match (declaredType columns name).map parse with
    | some (.ok t) => assembledValue sort cs t.unwrapFrozen
    | _ => lastValue cs
  else lastValue cs

theorem readColumn_eq (hne : cs ≠ []) (h : ¬ ColumnRefused parse columns name (layout cs)) :
    readColumn sort parse columns name cs = .ok (columnValue sort parse columns name cs) := by
  rw [ColumnRefused, all_layout] at h
  rw [readColumn, columnValue]
  cases hall : cs.all CellData.isComplexElement with
  | true =>
    rw [hall, if_pos rfl, not_and] at h
    have h := h (by simpa [layout] using hne)
    simp only [if_true, assembleComplex]
    cases hdeclared : declaredType columns name with
    | none => rfl
    | some dataType =>
      cases hparse : parse dataType with
      | error e => exact absurd ⟨dataType, hdeclared, Or.inl ⟨e, hparse⟩⟩ h
      | ok t =>
        have hpaths : ¬ PathsRefused (cs.map CellData.pathBytes) t.unwrapFrozen := fun hbad =>
          h ⟨dataType, hdeclared, Or.inr ⟨t, hparse, map_snd_layout cs ▸ hbad⟩⟩
        rw [Option.map_some, hparse]
        change (parse dataType >>= fun cqlType => _) = _
        rw [hparse]
        exact assembleCollection_ok sort name hpaths
  | false =>
    rw [hall] at h
    have hsimple : (cs.all fun c => !c.isComplexElement) = true := by
      simpa [layout, List.any_eq_true] using h
    rw [hsimple]
    rfl

theorem readColumn_error (h : ColumnRefused parse columns name (layout cs)) :
    ∃ e, readColumn sort parse columns name cs = .error e := by
  rw [ColumnRefused, all_layout] at h
  rw [readColumn]
  cases hall : cs.all CellData.isComplexElement with
  | true =>
    rw [hall, if_pos rfl] at h
    obtain ⟨-, dataType, hdeclared, hbad⟩ := h
    simp only [if_true, assembleComplex, hdeclared]
    rcases hbad with ⟨e, hparse⟩ | ⟨t, hparse, hpaths⟩
    · rw [hparse]
      exact ⟨e, rfl⟩
    · rw [hparse]
      exact assembleCollection_error sort name (map_snd_layout cs ▸ hpaths)
  | false =>
    rw [hall] at h
    have hmixed : (cs.all fun c => !c.isComplexElement) = false := by
      simpa [layout, List.any_eq_true] using h
    rw [hmixed]
    exact ⟨_, rfl⟩

theorem columnRefused_perm {l l' : List (Bool × Bytes)} (hperm : l'.Perm l)
    (h : ColumnRefused parse columns name l) : ColumnRefused parse columns name l' := by
  have hpaths : ∀ t, PathsRefused (l.map Prod.snd) t → PathsRefused (l'.map Prod.snd) t := by
    intro t ht
    have hmem : ∀ p ∈ l.map Prod.snd, p ∈ l'.map Prod.snd := fun p hp =>
      (hperm.map Prod.snd).symm.subset hp
    cases t with
    | set inner => exact ht.imp_right fun ⟨hraw, p, hp, he⟩ => ⟨hraw, p, hmem p hp, he⟩
    | map key value => exact ht.imp_right fun ⟨p, hp, he⟩ => ⟨p, hmem p hp, he⟩
    | _ => exact ht
  rw [ColumnRefused, hperm.all_eq, hperm.any_eq]
  rw [ColumnRefused] at h
  split
  · rename_i hall
    rw [if_pos hall] at h
    obtain ⟨hne, dataType, hdeclared, hbad⟩ := h
    refine ⟨fun hnil => hne ((hnil ▸ hperm).nil_eq).symm, dataType, hdeclared, ?_⟩
    exact hbad.imp_right fun ⟨t, hparse, ht⟩ => ⟨t, hparse, hpaths _ ht⟩
  · rename_i hall
    rwa [if_neg hall] at h

variable {sort parse columns name}

theorem eq_of_perm_short {l l' : List CellData} (hlen : l.length ≤ 1) (hperm : l'.Perm l) : l' = l := by
  match l, hlen with
  | [], _ => exact hperm.eq_nil
  | [c], _ => exact List.perm_singleton.1 hperm

/-- The value of a settled column does not depend on the order of its cells. -/
theorem columnValue_settled (hrefused : ¬ ColumnRefused parse columns name (layout cs)) (hne : cs ≠ [])
    (h : ColumnSettled parse columns name (layout cs)) :
    (∀ cs' : List CellData, cs'.Perm cs →
      columnValue sort parse columns name cs' = columnValue sort parse columns name cs) ∧
    ∀ dataType t, declaredType columns name = some dataType → parse dataType = .ok t →
      cs.all CellData.isComplexElement = true →
        Collects cs (columnValue sort parse columns name cs) t.unwrapFrozen := by
  have hshort : (layout cs).length ≤ 1 → ∀ cs' : List CellData, cs'.Perm cs →
      columnValue sort parse columns name cs' = columnValue sort parse columns name cs :=
    fun hlen cs' hperm => by rw [eq_of_perm_short (by simpa [layout] using hlen) hperm]
  rw [ColumnSettled, all_layout] at h
  rw [ColumnRefused, all_layout] at hrefused
  cases hall : cs.all CellData.isComplexElement with
  | false =>
    rw [hall] at h
    exact ⟨hshort h, fun _ _ _ _ hcomplex => (nomatch hcomplex)⟩
  | true =>
    rw [hall, if_pos rfl] at h hrefused
    cases hdeclared : declaredType columns name with
    | none =>
      rw [hdeclared] at h
      exact ⟨hshort h, fun _ _ hsome => (nomatch hsome)⟩
    | some dataType =>
      rw [hdeclared] at h hrefused
      cases hparse : parse dataType with
      | error e => exact absurd ⟨by simpa [layout] using hne, dataType, rfl, Or.inl ⟨e, hparse⟩⟩ hrefused
      | ok t =>
        have hpaths : ¬ PathsRefused (cs.map CellData.pathBytes) t.unwrapFrozen := fun hbad =>
          hrefused ⟨by simpa [layout] using hne, dataType, rfl,
            Or.inr ⟨t, hparse, map_snd_layout cs ▸ hbad⟩⟩
        have hsettled := h t hparse
        rw [map_snd_layout] at hsettled
        obtain ⟨hcollects, hsame⟩ := @assembledValue_settled sort cs _ hpaths hsettled
        have hvalue : ∀ cs' : List CellData, cs'.Perm cs →
            columnValue sort parse columns name cs' = assembledValue sort cs' t.unwrapFrozen := by
          intro cs' hperm
          rw [columnValue, hperm.all_eq, hall, if_pos rfl, hdeclared, Option.map_some, hparse]
        constructor
        · intro cs' hperm
          rw [hvalue cs' hperm, hvalue cs (List.Perm.refl _), hsame cs' hperm]
        · intro dataType' t' hdeclared' hparse' _
          obtain rfl := Option.some.inj hdeclared'
          rw [hparse] at hparse'
          obtain rfl := Except.ok.inj hparse'
          rw [hvalue cs (List.Perm.refl _)]
          exact hcollects

theorem settled_of_columnValue (hrefused : ¬ ColumnRefused parse columns name (layout cs))
    (hne : cs ≠ []) (hnodup : (cs.map CellData.value).Nodup)
    (hreverse : columnValue lazy parse columns name cs.reverse = columnValue lazy parse columns name cs)
    (hcollects : ∀ dataType t, declaredType columns name = some dataType → parse dataType = .ok t →
      cs.all CellData.isComplexElement = true →
        Collects cs (columnValue lazy parse columns name cs) t.unwrapFrozen) :
    ColumnSettled parse columns name (layout cs) := by
  rw [ColumnRefused, all_layout] at hrefused
  rw [ColumnSettled, all_layout]
  rw [columnValue, columnValue, List.all_reverse] at hreverse
  have hlen : (layout cs).length = cs.length := List.length_map _
  cases hall : cs.all CellData.isComplexElement with
  | false =>
    rw [hall] at hreverse
    exact hlen.trans_le (lastValue_reverse hnodup hreverse)
  | true =>
    rw [hall, if_pos rfl] at hrefused
    rw [hall, if_pos rfl, if_pos rfl] at hreverse
    rw [if_pos rfl]
    cases hdeclared : declaredType columns name with
    | none =>
      rw [hdeclared] at hreverse
      exact hlen.trans_le (lastValue_reverse hnodup hreverse)
    | some dataType =>
      intro t hparse
      have hpaths : ¬ PathsRefused (cs.map CellData.pathBytes) t.unwrapFrozen := fun hbad =>
        hrefused ⟨by simpa [layout] using hne, dataType, hdeclared,
          Or.inr ⟨t, hparse, map_snd_layout cs ▸ hbad⟩⟩
      have hc := hcollects dataType t hdeclared hparse hall
      rw [columnValue, hall, if_pos rfl, hdeclared, Option.map_some, hparse] at hc
      rw [hdeclared, Option.map_some, hparse] at hreverse
      rw [map_snd_layout]
      exact settled_of_assembledValue hpaths hnodup hreverse hc

end Columns

/-! ### Rows -/

/-- The same cells with other values. -/
structure Revalued (c c' : CellData) : Prop where
  column : c'.column = c.column
  cellPath : c'.cellPath = c.cellPath
  isComplexElement : c'.isComplexElement = c.isComplexElement
  isDeleted : c'.isDeleted = c.isDeleted
  isTombstone : c'.value.isTombstone = c.value.isTombstone

theorem layout_revalued (needed : Option (List String)) {cells cells' : List CellData}
    (h : List.Forall₂ Revalued cells cells') (name : String) :
    layout (columnCells needed cells' name) = layout (columnCells needed cells name) := by
  induction h with
  | nil => rfl
  | @cons c c' cells cells' hc hrest ih =>
    have hread : c'.isRead needed = c.isRead needed := by
      rw [CellData.isRead, CellData.isRead, hc.column, hc.isTombstone, hc.isComplexElement,
        hc.isDeleted]
    have hcell : (c'.isComplexElement, c'.pathBytes) = (c.isComplexElement, c.pathBytes) := by
      rw [hc.isComplexElement, CellData.pathBytes, CellData.pathBytes, hc.cellPath]
    rw [columnCells, columnCells, List.filter_cons, List.filter_cons, hread, hc.column]
    split
    · rw [layout, layout, List.map_cons, List.map_cons, hcell]
      exact congrArg _ ih
    · exact ih

/-- Every cell that is no tombstone has its number as its value. -/
def numberedFrom : Nat → List CellData → List CellData
  | _, [] => []
  | n, c :: cells =>
    { c with value := if c.value.isTombstone then c.value else .bigInt n } :: numberedFrom (n + 1) cells

theorem numberedFrom_revalued (n : Nat) (cells : List CellData) :
    List.Forall₂ Revalued cells (numberedFrom n cells) := by
  induction cells generalizing n with
  | nil => exact .nil
  | cons c cells ih =>
    refine .cons ⟨rfl, rfl, rfl, rfl, ?_⟩ (ih (n + 1))
    cases h : c.value.isTombstone with
    | true => exact h
    | false => rfl

/-- Numbering the cells tells their values apart. -/
theorem numberedFrom_nodup (needed : Option (List String)) (n : Nat) (cells : List CellData)
    (name : String) :
    ((columnCells needed (numberedFrom n cells) name).map CellData.value).Nodup ∧
      ∀ c ∈ columnCells needed (numberedFrom n cells) name, ∃ k : Nat, n ≤ k ∧ c.value = .bigInt k := by
  induction cells generalizing n with
  | nil => exact ⟨List.nodup_nil, fun c hc => (nomatch hc)⟩
  | cons c cells ih =>
    obtain ⟨hnodup, hvalues⟩ := ih (n + 1)
    have hweaken : ∀ c ∈ columnCells needed (numberedFrom (n + 1) cells) name,
        ∃ k : Nat, n ≤ k ∧ c.value = .bigInt k := fun c hc => by
      obtain ⟨k, hk, hv⟩ := hvalues c hc
      exact ⟨k, by omega, hv⟩
    obtain ⟨d, hcells, hvalue⟩ : ∃ d, numberedFrom n (c :: cells) = d :: numberedFrom (n + 1) cells ∧
        (d.isRead needed = true → d.value = .bigInt n) := by
      refine ⟨_, rfl, fun hread => ?_⟩
      cases ht : c.value.isTombstone with
      | false => rfl
      | true => simp [CellData.isRead, ht] at hread
    rw [hcells, columnCells, List.filter_cons]
    split
    · rename_i hread
      have hvalue := hvalue (Bool.and_eq_true_iff.1 hread).2
      refine ⟨List.nodup_cons.2 ⟨fun hmem => ?_, hnodup⟩,
        List.forall_mem_cons.2 ⟨⟨n, le_rfl, hvalue⟩, hweaken⟩⟩
      obtain ⟨e, he, hev⟩ := List.mem_map.1 hmem
      obtain ⟨k, hk, hv⟩ := hvalues e he
      rw [hv, hvalue] at hev
      have := Value.bigInt.inj hev
      omega
    · exact ⟨hnodup, hweaken⟩

/-- Every row with these columns, paths and deletions is reassembled, whatever its values and
    however the library sorts. -/
def AlwaysReassembled (parse : String → Except AssemblyError CqlType) (columns : List ReadColumn)
    (needed : Option (List String)) (cells : List CellData) : Prop :=
  ∀ (sort : StableSort) (cells' : List CellData), List.Forall₂ Revalued cells cells' →
    Reassembled sort parse columns needed cells'

section Rows

variable {parse : String → Except AssemblyError CqlType} {columns : List ReadColumn}
  {needed : Option (List String)} {cells : List CellData}

theorem columnCells_perm {cells' : List CellData} (h : cells'.Perm cells) (name : String) :
    (columnCells needed cells' name).Perm (columnCells needed cells name) := h.filter _

theorem columnRefused_nil (name : String) : ¬ ColumnRefused parse columns name [] := by
  rintro ⟨h, -⟩
  exact h rfl

variable {name : String}

theorem assemble_refused (sort : StableSort)
    (h : ColumnRefused parse columns name (layout (columnCells needed cells name))) :
    ∃ e, assembleReadCells sort parse columns cells needed = .error e := by
  rcases assembleReadCells_cases sort parse columns needed cells with ⟨out, -, hout⟩ | ⟨herr, -⟩
  · rcases hout name with ⟨hnil, -⟩ | ⟨-, v, hv, -⟩
    · rw [hnil] at h
      exact absurd h (columnRefused_nil name)
    · obtain ⟨e, he⟩ := readColumn_error sort parse columns name h
      rw [he] at hv
      cases hv
  · exact herr

theorem assemble_read (sort : StableSort)
    (h : ∀ name, ¬ ColumnRefused parse columns name (layout (columnCells needed cells name))) :
    ∃ out, assembleReadCells sort parse columns cells needed = .ok out ∧ ∀ name,
      out.lookup name = if columnCells needed cells name = [] then none
        else some (columnValue sort parse columns name (columnCells needed cells name)) := by
  rcases assembleReadCells_cases sort parse columns needed cells with ⟨out, hok, hout⟩ | ⟨-, name, hbad⟩
  · refine ⟨out, hok, fun name => ?_⟩
    rcases hout name with ⟨hnil, hlookup⟩ | ⟨hne, v, hv, hlookup⟩
    · rw [if_pos hnil, hlookup]
    · rw [readColumn_eq sort parse columns name hne (h name)] at hv
      rw [if_neg hne, hlookup, Except.ok.inj hv]
  · refine absurd ?_ hbad
    by_cases hnil : columnCells needed cells name = []
    · exact Or.inl hnil
    · exact Or.inr ⟨_, readColumn_eq sort parse columns name hnil (h name)⟩

theorem columnSettled_nil (name : String) : ColumnSettled parse columns name [] := by
  have hnil : ∀ code order, Follows code order [] := fun _ _ =>
    ⟨⟨⟨by simp, by simp⟩, List.Pairwise.nil⟩, by simp⟩
  rw [ColumnSettled, if_pos (by rfl)]
  cases declaredType columns name with
  | none => exact Nat.zero_le _
  | some dataType =>
    intro t _
    cases t.unwrapFrozen with
    | set | list | map => exact hnil _ _
    | _ => exact Nat.zero_le _

theorem liveElements_eq (h : (columnCells needed cells name).all CellData.isComplexElement = true) :
    liveElements needed cells name = columnCells needed cells name :=
  List.filter_eq_self.2 (List.all_eq_true.1 h)

theorem Reassembled.of_refused (sort : StableSort)
    (h : ColumnRefused parse columns name (layout (columnCells needed cells name))) :
    Reassembled sort parse columns needed cells := by
  obtain ⟨e, he⟩ := assemble_refused sort h
  refine ⟨fun cells' hperm => ?_, fun out _ _ _ hok => ?_⟩
  · obtain ⟨e', he'⟩ := assemble_refused sort
      (columnRefused_perm parse columns name ((columnCells_perm hperm name).map _) h)
    rw [he, he']
    trivial
  · rw [he] at hok
    cases hok

/-- Settled columns are read the same way in any order. -/
theorem Reassembled.of_settled (sort : StableSort)
    (hread : ∀ name, ¬ ColumnRefused parse columns name (layout (columnCells needed cells name)))
    (h : ∀ name, ColumnSettled parse columns name (layout (columnCells needed cells name))) :
    Reassembled sort parse columns needed cells := by
  obtain ⟨out, hok, hout⟩ := assemble_read sort hread
  refine ⟨fun cells' hperm => ?_, fun out' name dataType t hok' hdeclared hparse hlive => ?_⟩
  · obtain ⟨out', hok', hout'⟩ := @assemble_read parse columns needed cells' sort fun name hbad =>
      hread name (columnRefused_perm parse columns name ((columnCells_perm hperm name).symm.map _) hbad)
    rw [hok, hok']
    intro name
    have hcells : (columnCells needed cells' name).Perm (columnCells needed cells name) :=
      columnCells_perm hperm name
    rw [hout, hout']
    by_cases hnil : columnCells needed cells name = []
    · rw [if_pos hnil, if_pos (hnil ▸ hcells).eq_nil]
    · rw [if_neg hnil, if_neg fun hnil' => hnil (hnil' ▸ hcells).symm.eq_nil,
        (columnValue_settled (hread name) hnil (h name)).1 _ hcells]
  · obtain rfl := Except.ok.inj (hok.symm.trans hok')
    have hne : columnCells needed cells name ≠ [] := fun hnil => hlive (by rw [liveElements, hnil]; rfl)
    refine ⟨_, (hout name).trans (if_neg hne), ?_⟩
    have hall : (columnCells needed cells name).all CellData.isComplexElement = true := by
      obtain ⟨c, hc⟩ := List.exists_mem_of_ne_nil _ hlive
      obtain ⟨hc, hcomplex⟩ := List.mem_filter.1 hc
      by_contra hmixed
      have hrefused := hread name
      rw [ColumnRefused, all_layout, if_neg hmixed] at hrefused
      exact hrefused (List.any_eq_true.2 ⟨_, List.mem_map_of_mem hc, hcomplex⟩)
    rw [liveElements_eq hall]
    exact (columnValue_settled (hread name) hne (h name)).2 dataType t hdeclared hparse hall

theorem settled_of_reassembled
    (hread : ∀ name, ¬ ColumnRefused parse columns name (layout (columnCells needed cells name)))
    (hnodup : ((columnCells needed cells name).map CellData.value).Nodup)
    (h : Reassembled lazy parse columns needed cells) :
    ColumnSettled parse columns name (layout (columnCells needed cells name)) := by
  by_cases hne : columnCells needed cells name = []
  · rw [hne]
    exact columnSettled_nil name
  obtain ⟨out, hok, hout⟩ := assemble_read lazy hread
  have hlookup := (hout name).trans (if_neg hne)
  have hperm := List.reverse_perm cells
  obtain ⟨out', hok', hout'⟩ := @assemble_read parse columns needed cells.reverse lazy fun name hbad =>
    hread name (columnRefused_perm parse columns name ((columnCells_perm hperm name).symm.map _) hbad)
  have hback : columnCells needed cells.reverse name = (columnCells needed cells name).reverse :=
    List.filter_reverse ..
  have hsame := h.permuted _ hperm
  rw [hok, hok'] at hsame
  have hsame := hsame name
  rw [hlookup, hout' name, hback, if_neg (by simpa using hne)] at hsame
  refine settled_of_columnValue (hread name) hne hnodup (Option.some.inj hsame)
    fun dataType t hdeclared hparse hall => ?_
  obtain ⟨v, hv, hcollects⟩ := h.collections out name dataType t hok hdeclared hparse
    (by rwa [liveElements_eq hall])
  rw [hlookup] at hv
  rw [liveElements_eq hall, ← Option.some.inj hv] at hcollects
  exact hcollects

/-- A row is reassembled rightly with all values exactly when it is refused or all its columns are
    settled. -/
theorem alwaysReassembled_iff :
    AlwaysReassembled parse columns needed cells ↔
      (∃ name, ColumnRefused parse columns name (layout (columnCells needed cells name))) ∨
        ∀ name, ColumnSettled parse columns name (layout (columnCells needed cells name)) := by
  constructor
  · intro h
    by_contra hno
    obtain ⟨hread, hsettled⟩ := not_or.1 hno
    refine hsettled fun name => ?_
    have hrevalued := numberedFrom_revalued 0 cells
    rw [← layout_revalued needed hrevalued]
    refine settled_of_reassembled (fun name hbad => ?_) (numberedFrom_nodup needed 0 cells name).1
      (h lazy _ hrevalued)
    rw [layout_revalued needed hrevalued] at hbad
    exact hread ⟨name, hbad⟩
  · intro h sort cells' hrevalued
    simp only [← layout_revalued needed hrevalued] at h
    rcases h with ⟨name, hrefused⟩ | hsettled
    · exact Reassembled.of_refused sort hrefused
    · by_cases hread : ∃ name, ColumnRefused parse columns name (layout (columnCells needed cells' name))
      · obtain ⟨name, hrefused⟩ := hread
        exact Reassembled.of_refused sort hrefused
      · exact Reassembled.of_settled sort (fun name hbad => hread ⟨name, hbad⟩) hsettled

end Rows

/-- An element of the list `l`, appended at the time with the given low and middle field. -/
def listElement (low mid : UInt8) (value : Int) : CellData where
  column := "l"
  value := .integer value
  timestamp := 0
  ttl := none
  cellPath := some [0, 0, 0, low, 0, mid, 16, 0, 0x80, 0, 0, 0, 0, 0, 0, 0]
  localDeletionTime := none
  isComplexElement := true
  isDeleted := false
  hasEmptyValue := false

/-- The element that was appended first is read last. -/
theorem appended_order_lost :
    ¬ Reassembled StableSort.merge (fun _ => .ok (.list .int)) [⟨"l", "list<int>"⟩] none
      [listElement 0 1 20, listElement 1 0 10] := by
  intro h
  have hsort : StableSort.merge.run compareRawPaths [listElement 0 1 20, listElement 1 0 10] =
      [listElement 0 1 20, listElement 1 0 10] :=
    List.mergeSort_of_pairwise (by decide)
  have hread : assembleReadCells StableSort.merge (fun _ => .ok (.list .int)) [⟨"l", "list<int>"⟩]
      [listElement 0 1 20, listElement 1 0 10] none =
      .ok [("l", .list [.integer 20, .integer 10])] := by
    change Except.ok [("l", Value.list ((StableSort.merge.run compareRawPaths
      [listElement 0 1 20, listElement 1 0 10]).map CellData.value))] = _
    rw [hsort]
    rfl
  obtain ⟨v, hv, es, hperm, horder, rfl⟩ := h.collections _ "l" "list<int>" (.list .int) hread rfl rfl
    (List.cons_ne_nil _ _)
  have hvalues : [Value.integer 20, Value.integer 10] = es.map CellData.value :=
    Value.list.inj (Option.some.inj hv)
  have hnodup : ([listElement 0 1 20, listElement 1 0 10].map CellData.value).Nodup := by
    simp [listElement]
  obtain rfl := eq_of_map_value hnodup hperm (List.Perm.refl _) hvalues.symm
  exact (List.pairwise_cons.1 horder).1 _ List.mem_cons_self (by decide)

end Cqlite
