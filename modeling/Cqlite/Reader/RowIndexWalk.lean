import Cqlite.Reader.TrieNode

/-! The row index: floor and ceiling against the enumeration
    (`bti/parser/{rows_floor,traversal}.rs`).

    The traversal accepts a trie with a dead end and one with a repeated transition byte; the walks
    fail on the first and lose an entry of the second. On every other trie they find what the
    enumeration has. -/

namespace Cqlite

open Trie TrieStore

/-! ### Neighbours in an enumeration -/

/-- The entry of the greatest separator up to the key. -/
def IsFloor (entries : List (Bytes × BtiRowIndexEntry)) (key : Bytes) :
    Option BtiRowIndexEntry → Prop
  | none => ∀ e ∈ entries, ¬ e.1 ≤ key
  | some v => ∃ sep, (sep, v) ∈ entries ∧ sep ≤ key ∧ ∀ e ∈ entries, e.1 ≤ key → e.1 ≤ sep

/-- The entry of the least separator above the key. -/
def IsCeiling (entries : List (Bytes × BtiRowIndexEntry)) (key : Bytes) :
    Option BtiRowIndexEntry → Prop
  | none => ∀ e ∈ entries, ¬ key < e.1
  | some v => ∃ sep, (sep, v) ∈ entries ∧ key < sep ∧ ∀ e ∈ entries, key < e.1 → sep ≤ e.1

theorem isFloor_lastUpTo {entries : List (Bytes × BtiRowIndexEntry)}
    (h : entries.Pairwise fun a b => a.1 < b.1) (key : Bytes) :
    IsFloor entries key (Forest.lastUpTo entries key) := by
  have hspec := Forest.lastUpTo_spec h key
  cases hlast : Forest.lastUpTo entries key with
  | none =>
    rw [hlast] at hspec
    exact fun e he => not_le.2 (hspec e he)
  | some v =>
    rw [hlast] at hspec
    obtain ⟨sep, hmem, hle, hmax⟩ := hspec
    exact ⟨sep, hmem, not_lt.1 hle, fun e he h => not_lt.1 (hmax e he (not_lt.2 h))⟩

theorem isCeiling_firstAfter {entries : List (Bytes × BtiRowIndexEntry)}
    (h : entries.Pairwise fun a b => a.1 < b.1) (key : Bytes) :
    IsCeiling entries key (Forest.firstAfter entries key) := by
  have hspec := Forest.firstAfter_spec h key
  cases hfirst : Forest.firstAfter entries key with
  | none =>
    rw [hfirst] at hspec
    exact hspec
  | some v =>
    rw [hfirst] at hspec
    obtain ⟨sep, hmem, hlt, hmin⟩ := hspec
    exact ⟨sep, hmem, hlt, fun e he h => not_lt.1 (hmin e he h)⟩

/-- The enumeration ascends, and the walks find every key's neighbours in it. -/
def WalksAgree (trieData : Bytes) (root : Nat) (entries : List (Bytes × BtiRowIndexEntry)) : Prop :=
  (entries.Pairwise fun a b => a.1 < b.1) ∧ ∀ key,
    (∃ floor, rowsFloorBlock trieData root key = .ok floor ∧ IsFloor entries key floor) ∧
    ∃ ceiling, rowsStrictCeilingBlock trieData root key = .ok ceiling ∧ IsCeiling entries key ceiling

/-- Transition bytes that ascend strictly from the root on, and a payload at every end below it. -/
structure SoundTrie (trieData : Bytes) (root : Nat) : Prop where
  strictRoot : StrictAt (rowStore trieData) root
  strictBelow : ∀ off, Below (rowStore trieData) root off → StrictAt (rowStore trieData) off
  paysBelow : ∀ off, Below (rowStore trieData) root off → PaysAt (rowStore trieData) off

/-- Over tries as the writer emits them the walks agree. -/
theorem walksAgree_of_soundTrie {trieData : Bytes} {root : Nat}
    {entries : List (Bytes × BtiRowIndexEntry)}
    (hentries : dfsCollectRowEntries trieData root = .ok entries) (hsound : SoundTrie trieData root) :
    WalksAgree trieData root entries := by
  obtain ⟨node, offs, hnode, hnodup, rfl⟩ := dfsCollectInOrder_iff.1 hentries
  have hwell := wellFormed_of_below hnode hsound.strictRoot hsound.strictBelow hsound.paysBelow
  have hheight := height_le_size hnode hnodup
  have hsorted : (Forest.entriesOf node).Pairwise fun a b => a.1 < b.1 :=
    hwell.ascending.nodeEntries_sorted
  refine ⟨hsorted, fun key => ⟨?_, ?_⟩⟩
  · exact ⟨_, floorBlock_eq hwell hheight key, isFloor_lastUpTo hsorted key⟩
  · exact ⟨_, strictCeilingBlock_eq hwell hheight key, isCeiling_firstAfter hsorted key⟩

/-- A payload on the root and one below it. -/
theorem walksAgree_rootPayload :
    dfsCollectRowEntries [0x01, 5, 0x51, 1, 0x61, 2, 0] 2 =
        .ok [([], ⟨0, none⟩), ([0x61], ⟨5, none⟩)] ∧
      WalksAgree [0x01, 5, 0x51, 1, 0x61, 2, 0] 2 [([], ⟨0, none⟩), ([0x61], ⟨5, none⟩)] := by
  have hleaf : trieChildren [0x01, 5, 0x51, 1, 0x61, 2, 0] 0 = .ok [] := rfl
  have hroot : trieChildren [0x01, 5, 0x51, 1, 0x61, 2, 0] 2 = .ok [(0x61, 0)] := rfl
  have hentries : dfsCollectRowEntries [0x01, 5, 0x51, 1, 0x61, 2, 0] 2 =
      .ok [([], ⟨0, none⟩), ([0x61], ⟨5, none⟩)] := by
    refine dfsCollectInOrder_iff.2 ⟨(some ⟨0, none⟩, .cons 0x61 (some ⟨5, none⟩) .nil .nil), [0], ?_⟩
    refine ⟨⟨by decide, _, hroot, rfl, ?_⟩, by decide, rfl⟩
    exact .cons (by decide) hleaf rfl .nil .nil
  have hbelow : ∀ off, Below (rowStore [0x01, 5, 0x51, 1, 0x61, 2, 0]) 2 off → off = 0 := by
    intro off h
    induction h with
    | child hcs hc =>
      obtain rfl := Except.ok.inj (hcs.symm.trans hroot)
      rw [List.mem_singleton.1 hc]
    | grandchild _ hcs hc ih =>
      rw [ih] at hcs
      obtain rfl := Except.ok.inj (hcs.symm.trans hleaf)
      cases hc
  refine ⟨hentries, walksAgree_of_soundTrie hentries ⟨?_, ?_, ?_⟩⟩
  · intro cs hcs
    obtain rfl := Except.ok.inj (hcs.symm.trans hroot)
    exact List.pairwise_singleton _ _
  · intro off hoff cs hcs
    rw [hbelow off hoff] at hcs
    obtain rfl := Except.ok.inj (hcs.symm.trans hleaf)
    exact .nil
  · intro off hoff _ hnone
    rw [hbelow off hoff] at hnone
    cases hnone

/-- A dense node without children ends a branch without a payload; a sparse node repeats a byte. -/
theorem walks_disagree :
    (¬ ∀ trieData root entries, dfsCollectRowEntries trieData root = .ok entries →
        WalksAgree trieData root entries) ∧
      ∃ trieData root entries, dfsCollectRowEntries trieData root = .ok entries ∧
        ¬ entries.Pairwise fun a b => a.1 < b.1 := by
  constructor
  · intro h
    have hentries : dfsCollectRowEntries [0x01, 5, 0xB0, 0, 0, 0, 0, 0x50, 2, 0x61, 0x62, 5, 7] 7 =
        .ok [([0x62], ⟨5, none⟩)] := by
      refine dfsCollectInOrder_iff.2
        ⟨(none, .cons 0x61 none .nil (.cons 0x62 (some ⟨5, none⟩) .nil .nil)), [2, 0], ?_⟩
      refine ⟨⟨by decide, [(0x61, 2), (0x62, 0)], rfl, rfl, ?_⟩, by decide, rfl⟩
      exact @Holds.cons _ _ _ _ _ _ _ _ _ [] _ (by decide) rfl rfl .nil
        (.cons (by decide) rfl rfl .nil .nil)
    obtain ⟨-, ceiling, hceiling, -⟩ := (h _ _ _ hentries).2 []
    have herror : rowsStrictCeilingBlock [0x01, 5, 0xB0, 0, 0, 0, 0, 0x50, 2, 0x61, 0x62, 5, 7] 7 [] =
        .error "Rows.db ceiling: min leaf carries no row-index payload" := rfl
    rw [herror] at hceiling
    cases hceiling
  · refine ⟨[0x01, 5, 0x01, 6, 0x50, 2, 0x61, 0x61, 4, 2], 4,
      [([0x61], ⟨5, none⟩), ([0x61], ⟨6, none⟩)], ?_, by decide⟩
    refine dfsCollectInOrder_iff.2 ⟨(none, .cons 0x61 (some ⟨5, none⟩) .nil
      (.cons 0x61 (some ⟨6, none⟩) .nil .nil)), [0, 2], ?_⟩
    refine ⟨⟨by decide, [(0x61, 0), (0x61, 2)], rfl, rfl, ?_⟩, by decide, rfl⟩
    exact @Holds.cons _ _ _ _ _ _ _ _ _ [] _ (by decide) rfl rfl .nil
      (.cons (by decide) rfl rfl .nil .nil)

end Cqlite
