import Cqlite.Writer.TrieNodeBytes

/-! The row-index trie in memory (`writer/partitions_writer.rs`: `build_row_trie`, `insert_row`,
    `write_row_node`).

    A separator is inserted byte by byte. One that continues an earlier separator ends its descent at
    that one's leaf, which stays as it is. -/

namespace Cqlite

open Trie TrieStore

structure RowIndexBlock where
  separatorKey : Bytes
  /-- Relative to the partition's start in the data file. -/
  blockOffset : Nat
  /-- Local deletion time and marked-for-delete-at. -/
  openMarker : Option (Int × Int)
  deriving DecidableEq, Repr

def RowIndexBlock.entry (block : RowIndexBlock) : BtiRowIndexEntry :=
  ⟨block.blockOffset, block.openMarker⟩

mutual

inductive RowTrieBuildNode
  | leaf (entry : BtiRowIndexEntry)
  | internal (children : RowChildren)

/-- A `BTreeMap` from bytes to nodes. -/
inductive RowChildren
  | nil
  | cons (byte : UInt8) (child : RowTrieBuildNode) (rest : RowChildren)

end

/-! ### Building -/

/-- `BTreeMap::entry`. -/
def RowChildren.alter (first : UInt8) (f : Option RowTrieBuildNode → Except Error RowTrieBuildNode) :
    RowChildren → Except Error RowChildren
  | .nil => (f none).map (.cons first · .nil)
  | .cons byte child rest =>
    if byte = first then (f (some child)).map (.cons byte · rest)
    else if first < byte then (f none).map (.cons first · (.cons byte child rest))
    else (rest.alter first f).map (.cons byte child)

def insertRow : Bytes → BtiRowIndexEntry → RowTrieBuildNode → Except Error RowTrieBuildNode
  | [], _, .internal _ => .error (.invalidInput
      ("Rows.db row-index separator is empty (ByteComparable.EMPTY): its canonical position is " ++
        "the trie root's own payload, which this writer does not emit — refusing to mis-encode " ++
        "it under transition byte 0x00"))
  | first :: rest, entry, .internal children =>
    (children.alter first fun child =>
      if rest = [] then .ok (.leaf entry)
      else insertRow rest entry (child.getD (.internal .nil))).map .internal
  | _, _, .leaf entry => .ok (.leaf entry)

def buildRowTrie (blocks : List RowIndexBlock) : Except Error RowTrieBuildNode :=
  blocks.foldlM (fun root block => insertRow block.separatorKey block.entry root) (.internal .nil)

/-! ### Writing -/

mutual

def writeRowNode : RowTrieBuildNode → Bytes → Except Error (Nat × Bytes)
  | .leaf entry, buf => writeRowLeaf entry buf
  | .internal children, buf => do
    let (childOffsets, buf) ← writeRowChildren children buf
    emitInternal childOffsets buf

/-- The children, before their parent. -/
def writeRowChildren : RowChildren → Bytes → Except Error (List (UInt8 × Nat) × Bytes)
  | .nil, buf => .ok ([], buf)
  | .cons byte child rest, buf => do
    let (off, buf) ← writeRowNode child buf
    let (childOffsets, buf) ← writeRowChildren rest buf
    return ((byte, off) :: childOffsets, buf)

end

/-! ### As a forest -/

def RowTrieBuildNode.payload : RowTrieBuildNode → Option BtiRowIndexEntry
  | .leaf entry => some entry
  | .internal _ => none

mutual

def RowTrieBuildNode.forest : RowTrieBuildNode → Forest UInt8 BtiRowIndexEntry
  | .leaf _ => .nil
  | .internal children => children.forest

def RowChildren.forest : RowChildren → Forest UInt8 BtiRowIndexEntry
  | .nil => .nil
  | .cons byte child rest => .cons byte child.payload child.forest rest.forest

end

def RowTrieBuildNode.entries (node : RowTrieBuildNode) : List (Bytes × BtiRowIndexEntry) :=
  Forest.nodeEntries node.payload node.forest

/-- Ascending bytes, and below every child an entry. -/
def RowTrieBuildNode.Sound (node : RowTrieBuildNode) : Prop :=
  node.forest.Ascending ∧ node.forest.Productive

def RowTrieBuildNode.Bears (node : RowTrieBuildNode) : Prop :=
  node.Sound ∧ Forest.Fruitful node.payload node.forest

/-- The entry of a key joins those before it, unless one of them is on the key's path. -/
def join (entries : List (Bytes × BtiRowIndexEntry)) (key : Bytes) (entry : BtiRowIndexEntry) :
    List (Bytes × BtiRowIndexEntry) :=
  if ∃ e ∈ entries, e.1 <+: key then entries else entries ++ [(key, entry)]

theorem join_under (first : UInt8) (l : List (Bytes × BtiRowIndexEntry)) (rest : Bytes)
    (entry : BtiRowIndexEntry) :
    join (Forest.under first l) (first :: rest) entry = Forest.under first (join l rest entry) := by
  have hiff : (∃ e ∈ Forest.under first l, e.1 <+: first :: rest) ↔ ∃ e ∈ l, e.1 <+: rest := by
    constructor
    · rintro ⟨e, he, hcont⟩
      obtain ⟨path, hpath, hmem⟩ := Forest.mem_under.1 he
      rw [hpath, List.cons_prefix_cons] at hcont
      exact ⟨_, hmem, hcont.2⟩
    · rintro ⟨e, he, hcont⟩
      exact ⟨_, List.mem_map_of_mem he, List.cons_prefix_cons.2 ⟨rfl, hcont⟩⟩
  by_cases h : ∃ e ∈ l, e.1 <+: rest
  · rw [join, join, if_pos (hiff.2 h), if_pos h]
  · rw [join, join, if_neg (mt hiff.1 h), if_neg h]
    simp [Forest.under]

theorem join_append {first byte : UInt8} (hne : byte ≠ first) (l l' : List (Bytes × BtiRowIndexEntry))
    (rest : Bytes) (entry : BtiRowIndexEntry) :
    join (Forest.under byte l ++ l') (first :: rest) entry =
      Forest.under byte l ++ join l' (first :: rest) entry := by
  have hiff : (∃ e ∈ Forest.under byte l ++ l', e.1 <+: first :: rest) ↔
      ∃ e ∈ l', e.1 <+: first :: rest := by
    constructor
    · rintro ⟨e, he, hcont⟩
      rcases List.mem_append.1 he with he | he
      · obtain ⟨path, hpath, -⟩ := Forest.mem_under.1 he
        rw [hpath, List.cons_prefix_cons] at hcont
        exact absurd hcont.1 hne
      · exact ⟨e, he, hcont⟩
    · rintro ⟨e, he, hcont⟩
      exact ⟨e, List.mem_append_right _ he, hcont⟩
  by_cases h : ∃ e ∈ l', e.1 <+: first :: rest
  · rw [join, join, if_pos (hiff.2 h), if_pos h]
  · rw [join, join, if_neg (mt hiff.1 h), if_neg h, List.append_assoc]

theorem RowTrieBuildNode.Bears.exists_entry {node : RowTrieBuildNode} (h : node.Bears) :
    ∃ e, e ∈ node.entries :=
  List.exists_mem_of_ne_nil _ (Forest.Productive.nodeEntries_ne_nil h.2 h.1.2)

theorem RowTrieBuildNode.bears_leaf (entry : BtiRowIndexEntry) :
    (RowTrieBuildNode.leaf entry).Bears :=
  ⟨⟨trivial, trivial⟩, .inl (by simp [RowTrieBuildNode.payload])⟩

theorem RowChildren.eq_nil_of_forest {children : RowChildren} (h : children.forest = .nil) :
    children = .nil := by
  cases children with
  | nil => rfl
  | cons byte child rest => cases h

theorem RowChildren.entries_single (byte : UInt8) (child : RowTrieBuildNode) :
    (RowChildren.cons byte child .nil).forest.entries = Forest.under byte child.entries :=
  List.append_nil _

/-- An insertion that succeeds and joins the key's entry. -/
def Adds (key : Bytes) (entry : BtiRowIndexEntry) (entries : List (Bytes × BtiRowIndexEntry))
    (result : Except Error RowTrieBuildNode) : Prop :=
  ∃ node, result = .ok node ∧ node.Bears ∧ node.entries = join entries key entry

/-- The new key goes below the last child, or opens one behind it. -/
theorem RowChildren.alter_spec {first : UInt8} {rest : Bytes} {entry : BtiRowIndexEntry}
    {f : Option RowTrieBuildNode → Except Error RowTrieBuildNode} (hnew : Adds rest entry [] (f none))
    (hold : ∀ child : RowTrieBuildNode, child.Bears → (∀ e ∈ child.entries, e.1 < rest) →
      Adds rest entry child.entries (f (some child))) :
    ∀ children : RowChildren, children.forest.Ascending → children.forest.Productive →
      (∀ e ∈ children.forest.entries, e.1 < first :: rest) →
      ∃ children', children.alter first f = .ok children' ∧ children'.forest.Ascending ∧
        children'.forest.Productive ∧ children'.forest ≠ .nil ∧
        children'.forest.entries = join children.forest.entries (first :: rest) entry ∧
        ∀ b ∈ children'.forest.edges, b ∈ children.forest.edges ∨ b = first
  | .nil, _, _, _ => by
    obtain ⟨node, hnode, ⟨⟨ha, hp⟩, hfruit⟩, hentries⟩ := hnew
    refine ⟨.cons first node .nil, by rw [RowChildren.alter, hnode]; rfl, ?_, ?_, by simp [forest], ?_,
      ?_⟩
    · exact ⟨by simp [forest, Forest.edges], ha, trivial⟩
    · exact ⟨hfruit, hp, trivial⟩
    · have hunder := join_under first [] rest entry
      rw [← hentries] at hunder
      rw [entries_single]
      exact hunder.symm
    · intro b hb
      exact .inr (List.mem_singleton.1 hb)
  | .cons byte child more, ha, hp, hlt => by
    obtain ⟨hedge, hac, har⟩ := ha
    obtain ⟨hfruit, hpc, hpr⟩ := hp
    have hbears : child.Bears := ⟨⟨hac, hpc⟩, hfruit⟩
    have hunder : ∀ e ∈ child.entries, byte :: e.1 < first :: rest := by
      intro e he
      exact hlt (byte :: e.1, e.2) (List.mem_append_left _ (List.mem_map.2 ⟨e, he, rfl⟩))
    rw [RowChildren.alter]
    by_cases hbyte : byte = first
    · subst hbyte
      have hmore : more = .nil := by
        refine eq_nil_of_forest (Classical.byContradiction fun hne => ?_)
        obtain ⟨e, he⟩ := List.exists_mem_of_ne_nil _ (Forest.Productive.entries_ne_nil hne hpr)
        obtain ⟨b, hb, path, hpath⟩ := Forest.mem_entries_head he
        have hbound := hlt e (List.mem_append_right _ he)
        rw [hpath, List.cons_lt_cons_iff] at hbound
        have hgt := hedge b hb
        rcases hbound with hbound | ⟨rfl, -⟩
        · exact lt_asymm hbound hgt
        · exact lt_irrefl _ hgt
      subst hmore
      obtain ⟨node, hnode, ⟨⟨ha', hp'⟩, hfruit'⟩, hentries⟩ := hold child hbears fun e he => by
        simpa using hunder e he
      rw [if_pos rfl, hnode]
      refine ⟨.cons byte node .nil, rfl, ?_, ?_, by simp [forest], ?_, ?_⟩
      · exact ⟨by simp [forest, Forest.edges], ha', trivial⟩
      · exact ⟨hfruit', hp', trivial⟩
      · have hjoin := join_under byte child.entries rest entry
        rw [← hentries] at hjoin
        rw [entries_single, entries_single]
        exact hjoin.symm
      · intro b hb
        exact .inr (List.mem_singleton.1 hb)
    · have hless : byte < first := by
        obtain ⟨e, he⟩ := hbears.exists_entry
        rcases List.cons_lt_cons_iff.1 (hunder e he) with h | ⟨h, -⟩
        · exact h
        · exact absurd h hbyte
      obtain ⟨more', hmore', ha', hp', hne', hentries, hedges⟩ := alter_spec hnew hold more har hpr
        fun e he => hlt e (List.mem_append_right _ he)
      rw [if_neg hbyte, if_neg hless.not_gt, hmore']
      refine ⟨.cons byte child more', rfl, ?_, ⟨hfruit, hpc, hp'⟩, by simp [forest], ?_, ?_⟩
      · refine ⟨fun b hb => ?_, hac, ha'⟩
        rcases hedges b hb with hb | rfl
        · exact hedge b hb
        · exact hless
      · rw [forest, forest, Forest.entries_cons, Forest.entries_cons, hentries, join_append hbyte]
      · intro b hb
        rcases List.mem_cons.1 hb with rfl | hb
        · exact .inl List.mem_cons_self
        · exact (hedges b hb).imp_left (List.mem_cons_of_mem _)

/-- Inserting a greater key adds one entry. -/
theorem insertRow_spec {key : Bytes} (hkey : key ≠ []) (entry : BtiRowIndexEntry)
    {node : RowTrieBuildNode} (hsound : node.Sound) (hlt : ∀ e ∈ node.entries, e.1 < key) :
    Adds key entry node.entries (insertRow key entry node) := by
  induction key generalizing node with
  | nil => exact absurd rfl hkey
  | cons first rest ih =>
    cases node with
    | leaf old =>
      refine ⟨.leaf old, rfl, RowTrieBuildNode.bears_leaf old, ?_⟩
      rw [join, if_pos ⟨([], old), by simp [RowTrieBuildNode.entries, Forest.nodeEntries,
        RowTrieBuildNode.payload, Forest.own], List.nil_prefix⟩]
    | internal children =>
      obtain ⟨f, hf⟩ : ∃ f : Option RowTrieBuildNode → Except Error RowTrieBuildNode, f = fun child =>
          if rest = [] then .ok (.leaf entry)
          else insertRow rest entry (child.getD (.internal .nil)) := ⟨_, rfl⟩
      have hnew : Adds rest entry [] (f none) := by
        rw [hf]
        simp only
        split
        · next hrest =>
          rw [hrest]
          exact ⟨.leaf entry, rfl, RowTrieBuildNode.bears_leaf entry, by simp [join]; rfl⟩
        · next hrest => exact @ih hrest (.internal .nil) ⟨trivial, trivial⟩ (by intro e he; cases he)
      have hold : ∀ child : RowTrieBuildNode, child.Bears → (∀ e ∈ child.entries, e.1 < rest) →
          Adds rest entry child.entries (f (some child)) := by
        intro child hbears hchild
        obtain ⟨e, he⟩ := hbears.exists_entry
        have hrest : rest ≠ [] := by
          rintro rfl
          exact List.not_lt_nil _ (hchild e he)
        rw [hf]
        simp only
        rw [if_neg hrest]
        exact ih hrest hbears.1 hchild
      obtain ⟨children', hok, ha, hp, hne, hentries, -⟩ :=
        RowChildren.alter_spec hnew hold children hsound.1 hsound.2 hlt
      refine ⟨.internal children', ?_, ⟨⟨ha, hp⟩, .inr hne⟩, hentries⟩
      rw [insertRow, ← hf, hok]
      rfl

/-! ### All blocks -/

def RowIndexBlock.indexed (block : RowIndexBlock) : Bytes × BtiRowIndexEntry :=
  (block.separatorKey, block.entry)

/-- The entries of the trie: each block joins those before it. -/
def joinAll (blocks : List RowIndexBlock) (entries : List (Bytes × BtiRowIndexEntry)) :
    List (Bytes × BtiRowIndexEntry) :=
  blocks.foldl (fun entries block => join entries block.separatorKey block.entry) entries

theorem mem_join {entries : List (Bytes × BtiRowIndexEntry)} {key : Bytes} {entry : BtiRowIndexEntry}
    {e : Bytes × BtiRowIndexEntry} (h : e ∈ join entries key entry) : e ∈ entries ∨ e = (key, entry) := by
  rw [join] at h
  split at h
  · exact .inl h
  · simpa using h

variable {blocks : List RowIndexBlock}

theorem mem_joinAll {entries : List (Bytes × BtiRowIndexEntry)} {e : Bytes × BtiRowIndexEntry}
    (h : e ∈ joinAll blocks entries) :
    e ∈ entries ∨ ∃ b ∈ blocks, e = b.indexed := by
  induction blocks generalizing entries with
  | nil => exact .inl h
  | cons b blocks ih =>
    rcases ih h with h | ⟨c, hc, rfl⟩
    · rcases mem_join h with h | rfl
      · exact .inl h
      · exact .inr ⟨b, List.mem_cons_self, rfl⟩
    · exact .inr ⟨c, List.mem_cons_of_mem _ hc, rfl⟩

theorem foldlM_insertRow {root : RowTrieBuildNode} (hroot : root.Sound)
    (hne : ∀ b ∈ blocks, b.separatorKey ≠ [])
    (hsorted : blocks.Pairwise fun a b => a.separatorKey < b.separatorKey)
    (hlt : ∀ b ∈ blocks, ∀ e ∈ root.entries, e.1 < b.separatorKey) :
    ∃ node, blocks.foldlM (fun root block => insertRow block.separatorKey block.entry root) root =
        .ok node ∧ node.Sound ∧ node.entries = joinAll blocks root.entries := by
  induction blocks generalizing root with
  | nil => exact ⟨root, rfl, hroot, rfl⟩
  | cons b blocks ih =>
    obtain ⟨node, hnode, hbears, hentries⟩ := insertRow_spec (hne b List.mem_cons_self) b.entry hroot
      (hlt b List.mem_cons_self)
    have hlt' : ∀ c ∈ blocks, ∀ e ∈ node.entries, e.1 < c.separatorKey := by
      intro c hc e he
      rw [hentries] at he
      rcases mem_join he with he | rfl
      · exact hlt c (List.mem_cons_of_mem _ hc) e he
      · exact List.rel_of_pairwise_cons hsorted hc
    obtain ⟨last, hlast, hsound, hall⟩ := ih hbears.1 (fun c hc => hne c (List.mem_cons_of_mem _ hc))
      (List.Pairwise.of_cons hsorted) hlt'
    refine ⟨last, ?_, hsound, ?_⟩
    · rw [List.foldlM_cons, hnode]
      exact hlast
    · rw [hall, hentries]
      rfl

theorem buildRowTrie_spec (hne : ∀ b ∈ blocks, b.separatorKey ≠ [])
    (hsorted : blocks.Pairwise fun a b => a.separatorKey < b.separatorKey) :
    ∃ node, buildRowTrie blocks = .ok node ∧ node.Sound ∧ node.entries = joinAll blocks [] :=
  @foldlM_insertRow _ (.internal .nil) ⟨trivial, trivial⟩ hne hsorted (by intro b hb e he; cases he)

theorem length_joinAll (blocks : List RowIndexBlock) (entries : List (Bytes × BtiRowIndexEntry)) :
    (joinAll blocks entries).length ≤ entries.length + blocks.length := by
  induction blocks generalizing entries with
  | nil => exact Nat.le_refl _
  | cons b blocks ih =>
    have hjoin : (join entries b.separatorKey b.entry).length ≤ entries.length + 1 := by
      rw [join]
      split
      · omega
      · simp
    have := ih (join entries b.separatorKey b.entry)
    rw [List.length_cons]
    exact this.trans (by omega)

/-- Every block is in the trie exactly when no separator continues an earlier one. -/
theorem joinAll_eq_iff (blocks : List RowIndexBlock) (entries : List (Bytes × BtiRowIndexEntry)) :
    joinAll blocks entries = entries ++ blocks.map (·.indexed) ↔
      (∀ b ∈ blocks, ∀ e ∈ entries, ¬ e.1 <+: b.separatorKey) ∧
        blocks.Pairwise fun a b => ¬ a.separatorKey <+: b.separatorKey := by
  induction blocks generalizing entries with
  | nil => simp [joinAll]
  | cons b blocks ih =>
    have hstep : joinAll (b :: blocks) entries =
        joinAll blocks (join entries b.separatorKey b.entry) := rfl
    rw [hstep, join]
    split
    · next hon =>
      obtain ⟨e, he, hcont⟩ := hon
      constructor
      · intro h
        have hlen := length_joinAll blocks entries
        rw [h] at hlen
        simp at hlen
      · intro h
        exact absurd hcont (h.1 b List.mem_cons_self e he)
    · next hoff =>
      have happend : entries ++ (b :: blocks).map (·.indexed) =
          entries ++ [(b.separatorKey, b.entry)] ++ blocks.map (·.indexed) := by
        rw [List.append_assoc]
        rfl
      rw [happend, ih, List.pairwise_cons]
      constructor
      · rintro ⟨hfirst, hrest⟩
        refine ⟨fun c hc e he => ?_, fun c hc => ?_, hrest⟩
        · rcases List.mem_cons.1 hc with rfl | hc
          · exact fun hcont => hoff ⟨e, he, hcont⟩
          · exact hfirst c hc e (List.mem_append_left _ he)
        · exact hfirst c hc _ (List.mem_append_right _ (List.mem_singleton_self _))
      · rintro ⟨hfirst, hpair, hrest⟩
        refine ⟨fun c hc e he => ?_, hrest⟩
        rcases List.mem_append.1 he with he | he
        · exact hfirst c (List.mem_cons_of_mem _ hc) e he
        · rw [List.mem_singleton.1 he]
          exact hpair c hc

/-! ### What is written -/

/-- An entry that a leaf can hold. -/
def BtiRowIndexEntry.Writable (entry : BtiRowIndexEntry) : Prop :=
  entry.dataOffset < 2 ^ 55 ∧ DeletionInRange entry.openMarker ∧ ¬ LiveLike entry.openMarker

/-- Nodes written between two offsets, at an offset that is the last of theirs. -/
structure NodeWritten (buf buf' : Bytes) (off : Nat) (node : RowTrieBuildNode) : Prop where
  grows : ∃ more, buf' = buf ++ more
  offset : buf.length ≤ off ∧ off < buf'.length
  reads : ∃ offs, (∀ x ∈ offs, buf.length ≤ x ∧ x < off) ∧ offs.Nodup ∧
    ∀ post, NodeAt (rowStore (buf' ++ post)) off (node.payload, node.forest) offs

structure ChildrenWritten (buf buf' : Bytes) (cs : List (UInt8 × Nat)) (children : RowChildren) :
    Prop where
  grows : ∃ more, buf' = buf ++ more
  offsets : ∀ c ∈ cs, c.2 < buf'.length
  reads : ∃ offs, (∀ x ∈ offs, buf.length ≤ x ∧ x < buf'.length) ∧ offs.Nodup ∧
    ∀ post, Holds (rowStore (buf' ++ post)) cs children.forest offs

mutual

/-- Children are in the buffer before their parent. -/
theorem writeRowNode_written : ∀ (node : RowTrieBuildNode) {buf buf' : Bytes} {off : Nat},
    writeRowNode node buf = .ok (off, buf') → node.forest.Ascending →
    (∀ e ∈ node.entries, e.2.Writable) → buf'.length < 2 ^ 64 → NodeWritten buf buf' off node
  | .leaf entry, buf, buf', off, h, _, hwritable, _ => by
    obtain ⟨hoffset, hrange, hlive⟩ := hwritable ([], entry) (by
      simp [RowTrieBuildNode.entries, Forest.nodeEntries, RowTrieBuildNode.payload, Forest.own])
    obtain ⟨rfl, node, rfl, hreads⟩ := writeRowLeaf_reads h hoffset hrange hlive
    have hlt := (hreads []).lt
    rw [List.append_nil] at hlt
    exact ⟨⟨node, rfl⟩, ⟨Nat.le_refl _, hlt⟩, [], by simp, .nil, fun post =>
      ⟨(hreads post).lt, [], (hreads post).children, (hreads post).payload, .nil⟩⟩
  | .internal children, buf, buf', off, h, ha, hwritable, hsize => by
    obtain ⟨⟨cs, buf1⟩, hchildren, hemit⟩ := bind_eq_ok.1 h
    obtain ⟨rfl, node, rfl, hinner⟩ := emitInternal_ok hemit hsize
    have hsize1 : buf1.length < 2 ^ 64 := by
      rw [List.length_append] at hsize
      omega
    obtain ⟨⟨more, rfl⟩, hoffsets, offs, hrange, hnodup, hholds⟩ :=
      writeRowChildren_written children hchildren ha hwritable hsize1
    have hsorted : (cs.map (·.1)).Pairwise (· < ·) := by
      rw [(hholds []).edges]
      exact Forest.Ascending.edges_sorted ha
    have hreads := hinner.reads hsorted hoffsets
    have hlt := (hreads []).lt
    rw [List.append_nil] at hlt
    refine ⟨⟨more ++ node, by rw [List.append_assoc]⟩, ⟨by simp, hlt⟩, offs, hrange, hnodup,
      fun post => ⟨(hreads post).lt, cs, (hreads post).children, ?_, ?_⟩⟩
    · exact readPayloadWith_no_flags (hreads post).lt (hreads post).inner (hreads post).noFlags
    · have hsub := hholds (node ++ post)
      rwa [← List.append_assoc] at hsub

/-- Children are written in order, each before the next. -/
theorem writeRowChildren_written : ∀ (children : RowChildren) {buf buf' : Bytes}
    {cs : List (UInt8 × Nat)}, writeRowChildren children buf = .ok (cs, buf') →
    children.forest.Ascending → (∀ e ∈ children.forest.entries, e.2.Writable) →
    buf'.length < 2 ^ 64 → ChildrenWritten buf buf' cs children
  | .nil, buf, buf', cs, h, _, _, _ => by
    obtain ⟨rfl, rfl⟩ := Prod.ext_iff.1 (Except.ok.inj h)
    exact ⟨⟨[], (List.append_nil _).symm⟩, by simp, [], by simp, .nil, fun _ => .nil⟩
  | .cons byte child rest, buf, buf', cs, h, ha, hwritable, hsize => by
    obtain ⟨⟨off, buf1⟩, hchild, h⟩ := bind_eq_ok.1 h
    obtain ⟨⟨cs', buf2⟩, hrest, h⟩ := bind_eq_ok.1 h
    obtain ⟨rfl, rfl⟩ := Prod.ext_iff.1 (Except.ok.inj h)
    obtain ⟨⟨more', rfl⟩, hoffsets', offs', hrange', hnodup', hholds'⟩ :=
      writeRowChildren_written rest hrest ha.2.2
        (fun e he => hwritable e (List.mem_append_right _ he)) hsize
    have hsize1 : buf1.length < 2 ^ 64 := by
      rw [List.length_append] at hsize
      omega
    have hchildEntries : ∀ e ∈ child.entries, e.2.Writable := fun e he =>
      hwritable (byte :: e.1, e.2) (List.mem_append_left _ (List.mem_map.2 ⟨e, he, rfl⟩))
    obtain ⟨⟨more, rfl⟩, hoff, offs, hrange, hnodup, hnode⟩ :=
      writeRowNode_written child hchild ha.2.1 hchildEntries hsize1
    have hgrow : (buf ++ more).length ≤ (buf ++ more ++ more').length := by simp
    have hbase : buf.length ≤ (buf ++ more).length := by simp
    refine ⟨⟨more ++ more', by rw [List.append_assoc]⟩, ?_, off :: (offs ++ offs'), ?_, ?_, ?_⟩
    · intro c hc
      rcases List.mem_cons.1 hc with rfl | hc
      · exact hoff.2.trans_le hgrow
      · exact hoffsets' c hc
    · intro x hx
      rcases List.mem_cons.1 hx with rfl | hx
      · exact ⟨hoff.1, hoff.2.trans_le hgrow⟩
      · rcases List.mem_append.1 hx with hx | hx
        · exact ⟨(hrange x hx).1, ((hrange x hx).2.trans hoff.2).trans_le hgrow⟩
        · exact ⟨hbase.trans (hrange' x hx).1, (hrange' x hx).2⟩
    · rw [List.nodup_cons, List.nodup_append]
      refine ⟨fun hx => ?_, hnodup, hnodup', fun a ha b hb hab => ?_⟩
      · rcases List.mem_append.1 hx with hx | hx
        · exact Nat.lt_irrefl _ (hrange off hx).2
        · exact Nat.lt_irrefl _ (hoff.2.trans_le (hrange' off hx).1)
      · have h1 := (hrange a ha).2.trans hoff.2
        have h2 := (hrange' b hb).1
        omega
    · intro post
      obtain ⟨hlt, below, hbelow, hpayload, hsub⟩ := hnode (more' ++ post)
      rw [← List.append_assoc] at hlt hbelow hpayload hsub
      exact .cons hlt hbelow hpayload hsub (hholds' post)

end

end Cqlite
