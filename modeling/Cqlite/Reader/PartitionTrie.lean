import Mathlib.Tactic.Positivity
import Cqlite.Engine.Murmur3
import Cqlite.Reader.TrieNode

/-! Looking a partition up (`bti/parser/{slice_walk,partitions,partition_successor_walk}.rs`).

    The lookup decodes the one child it follows, with code of its own, and stops at the first leaf
    without comparing what is left of the key. -/

namespace Cqlite

open VInt Trie TrieStore

/-! ### One child -/

inductive PtrWidth
  | fixed (bytes : Nat)
  | packed12

/-- The length of the pointer area of `count` slots. -/
def PtrWidth.area : PtrWidth → Nat → Nat
  | .fixed n, count => count * n
  | .packed12, count => (count * 3 + 1) / 2

/-- The delta in a slot of the pointer area that starts at `start`. -/
def PtrWidth.delta : PtrWidth → Bytes → Nat → Nat → Nat
  | .fixed n, data, start, idx => fromBe ((data.drop (start + idx * n)).take n)
  | .packed12, data, start, idx => read12bitPacked (data.drop start) idx

def requireLen (data : Bytes) (needed : Nat) (what : String) : BtiResult Unit :=
  if data.length < needed then .error (what ++ " BTI node too short") else .ok ()

namespace SliceWalk

def singleChild (data : Bytes) (off ptrBytes : Nat) (searchByte : UInt8) (what : String) :
    BtiResult (Option Nat) := do
  requireLen data (2 + ptrBytes) what
  if byteAt data 1 ≠ searchByte then return none
  else return some (off - fromBe ((data.drop 2).take ptrBytes))

def sparseChild (data : Bytes) (off : Nat) (width : PtrWidth) (searchByte : UInt8) (what : String) :
    BtiResult (Option Nat) := do
  requireLen data 2 what
  let count := (byteAt data 1).toNat
  if count = 0 then .error (what ++ " BTI node must have at least one transition")
  else
    let pointersStart := 2 + count
    requireLen data (pointersStart + width.area count) what
    match BinarySearch.binarySearch ((data.drop 2).take count) searchByte with
    | none => return none
    | some idx => return some (off - width.delta data pointersStart idx)

def denseChild (data : Bytes) (off : Nat) (width : PtrWidth) (searchByte : UInt8) (what : String) :
    BtiResult (Option Nat) := do
  requireLen data 3 what
  let startByte := byteAt data 1
  let rangeLen := (byteAt data 2).toNat + 1
  requireLen data (3 + width.area rangeLen) what
  if searchByte < startByte then return none
  else
    let idx := searchByte.toNat - startByte.toNat
    if rangeLen ≤ idx then return none
    else
      let delta := width.delta data 3 idx
      if delta = 0 then return none else return some (off - delta)

end SliceWalk

def findChildOffset (trieData : Bytes) (nodeOffset : Nat) (searchByte : UInt8) :
    BtiResult (Option Nat) :=
  if trieData.length ≤ nodeOffset then .error "BTI node offset out of bounds"
  else
    let data := trieData.drop nodeOffset
    let header := byteAt data 0
    match nodeOrdinal header with
    | 0 => .ok none
    | 1 => do
      requireLen data 2 "SingleNoPayload4"
      if byteAt data 1 ≠ searchByte then return none
      else return some (nodeOffset - payloadFlags header)
    | 2 => SliceWalk.singleChild data nodeOffset 1 searchByte "Single8"
    | 3 => do
      requireLen data 3 "SingleNoPayload12"
      if byteAt data 2 ≠ searchByte then return none
      else return some (nodeOffset - (payloadFlags header * 256 + (byteAt data 1).toNat))
    | 4 => SliceWalk.singleChild data nodeOffset 2 searchByte "Single16"
    | 5 => SliceWalk.sparseChild data nodeOffset (.fixed 1) searchByte "Sparse8"
    | 6 => SliceWalk.sparseChild data nodeOffset .packed12 searchByte "Sparse12"
    | 7 => SliceWalk.sparseChild data nodeOffset (.fixed 2) searchByte "Sparse16"
    | 8 => SliceWalk.sparseChild data nodeOffset (.fixed 3) searchByte "Sparse24"
    | 9 => SliceWalk.sparseChild data nodeOffset (.fixed 5) searchByte "Sparse40"
    | 10 => SliceWalk.denseChild data nodeOffset .packed12 searchByte "Dense12"
    | 11 => SliceWalk.denseChild data nodeOffset (.fixed 2) searchByte "Dense16"
    | 12 => SliceWalk.denseChild data nodeOffset (.fixed 3) searchByte "Dense24"
    | 13 => SliceWalk.denseChild data nodeOffset (.fixed 4) searchByte "Dense32"
    | 14 => SliceWalk.denseChild data nodeOffset (.fixed 5) searchByte "Dense40"
    | 15 => SliceWalk.denseChild data nodeOffset (.fixed 8) searchByte "LongDense"
    | _ => .ok none

/-! ### The walk -/

def walkBtiTrie (trieData : Bytes) : Nat → Bytes → BtiResult (Option BtiPartitionLocation)
  | currentOffset, [] =>
    if trieData.length ≤ currentOffset then .error "BTI trie walk: offset out of bounds"
    else
      let header := byteAt trieData currentOffset
      if nodeOrdinal header = 0 then readNodePayload trieData currentOffset none
      else if payloadFlags header ≠ 0 then readNodePayload trieData currentOffset none
      else .ok none
  | currentOffset, nextByte :: encodedKey =>
    if trieData.length ≤ currentOffset then .error "BTI trie walk: offset out of bounds"
    else if nodeOrdinal (byteAt trieData currentOffset) = 0 then
      readNodePayload trieData currentOffset none
    else do
      match ← findChildOffset trieData currentOffset nextByte with
      | some childOffset => walkBtiTrie trieData childOffset encodedKey
      | none => return none

/-- The trie and its root, of a whole file. -/
def splitFooter (fileBytes : Bytes) : BtiResult (Bytes × Nat) :=
  if fileBytes.length < 8 then
    .error "BTI Partitions.db is too small (need at least 8 for footer)"
  else
    let trieSize := fileBytes.length - 8
    let rootOffset := fromBe (fileBytes.drop trieSize)
    if trieSize ≤ rootOffset then .error "BTI Partitions.db: root_offset >= trie_size"
    else .ok (fileBytes.take trieSize, rootOffset)

def lookupPartitionInBtiSlice (fileBytes encodedKey : Bytes) :
    BtiResult (Option BtiPartitionLocation) := do
  let (trieData, rootOffset) ← splitFooter fileBytes
  walkBtiTrie trieData rootOffset encodedKey

def partitionSuccessorInBtiSlice (fileBytes encodedKey : Bytes) :
    BtiResult (Option BtiPartitionLocation) := do
  let (trieData, rootOffset) ← splitFooter fileBytes
  partitionStrictCeilingLocation trieData rootOffset encodedKey

/-- A fixed first byte, and the token with its sign bit flipped. -/
def encodeBtiTrieKeyFromToken (token : Int) : Bytes :=
  0x40 :: beBytes 8 ((token % 2 ^ 64).toNat ^^^ 2 ^ 63)

theorem splitFooter_footer {trie : Bytes} {root : Nat} (hroot : root < trie.length)
    (hlt : root < 2 ^ 64) : splitFooter (trie ++ beBytes 8 root) = .ok (trie, root) := by
  have hlen : (trie ++ beBytes 8 root).length - 8 = trie.length := by simp
  have hdrop : fromBe ((trie ++ beBytes 8 root).drop trie.length) = root := by
    rw [List.drop_left, fromBe_beBytes]
    exact Nat.mod_eq_of_lt hlt
  rw [splitFooter, if_neg (by simp)]
  simp only [hlen, hdrop]
  rw [if_neg (by omega), List.take_left]

/-! ### A trie of partitions -/

/-- The lookup's own decoding of a node follows the children. -/
def FindsChildren (trieData : Bytes) (off : Nat) (cs : List (UInt8 × Nat)) : Prop :=
  ∀ b, findChildOffset trieData off b = .ok ((cs.find? (·.1 == b)).map (·.2))

/-- Nodes whose leaves are all so many levels below them. -/
inductive PartitionNodes (trieData : Bytes) :
    Nat → List (UInt8 × Nat) → Forest UInt8 BtiPartitionLocation → List Nat → Prop
  | nil {level : Nat} : PartitionNodes trieData level [] .nil []
  | leaf {b : UInt8} {off : Nat} {rest : List (UInt8 × Nat)} {value : BtiPartitionLocation}
      {siblings : Forest UInt8 BtiPartitionLocation} {offs : List Nat} :
      off < trieData.length → trieChildren trieData off = .ok [] →
      nodeOrdinal (byteAt trieData off) = 0 → readNodePayload trieData off none = .ok (some value) →
      PartitionNodes trieData 0 rest siblings offs →
      PartitionNodes trieData 0 ((b, off) :: rest) (.cons b (some value) .nil siblings) (off :: offs)
  | inner {level : Nat} {b : UInt8} {off : Nat} {below rest : List (UInt8 × Nat)}
      {children siblings : Forest UInt8 BtiPartitionLocation} {offs offs' : List Nat} :
      off < trieData.length → trieChildren trieData off = .ok below →
      nodeOrdinal (byteAt trieData off) ≠ 0 → payloadFlags (byteAt trieData off) = 0 →
      FindsChildren trieData off below → children ≠ .nil →
      PartitionNodes trieData level below children offs →
      PartitionNodes trieData (level + 1) rest siblings offs' →
      PartitionNodes trieData (level + 1) ((b, off) :: rest) (.cons b none children siblings)
        (off :: (offs ++ offs'))

section

variable {trieData : Bytes} {level : Nat} {cs : List (UInt8 × Nat)}
  {f : Forest UInt8 BtiPartitionLocation} {offs : List Nat}

theorem PartitionNodes.holds (h : PartitionNodes trieData level cs f offs) :
    Holds (partitionStore trieData) cs f offs := by
  induction h with
  | nil => exact .nil
  | leaf hlt hchildren hordinal hpayload _ ih =>
    have hcs : (partitionStore trieData).children _ = .ok [] :=
      (if_neg (Nat.not_le.2 hlt)).trans hchildren
    exact @Holds.cons _ _ _ _ _ _ _ _ _ [] _ hlt hcs hpayload .nil ih
  | inner hlt hchildren hordinal hflags _ _ _ _ ih ih' =>
    have hcs : (partitionStore trieData).children _ = .ok _ :=
      (if_neg (Nat.not_le.2 hlt)).trans hchildren
    exact .cons hlt hcs (readPayloadWith_no_flags hlt hordinal hflags) ih ih'

theorem PartitionNodes.productive (h : PartitionNodes trieData level cs f offs) : f.Productive := by
  induction h with
  | nil => trivial
  | leaf _ _ _ _ _ ih => exact ⟨.inl (by simp), trivial, ih⟩
  | inner _ _ _ _ _ hne _ _ ih ih' => exact ⟨.inr hne, ih, ih'⟩

theorem PartitionNodes.append (h : PartitionNodes trieData level cs f offs)
    {cs' : List (UInt8 × Nat)} {f' : Forest UInt8 BtiPartitionLocation} {offs' : List Nat}
    (h' : PartitionNodes trieData level cs' f' offs') :
    PartitionNodes trieData level (cs ++ cs') (f.append f') (offs ++ offs') := by
  induction h with
  | nil => exact h'
  | leaf hlt hchildren hordinal hpayload _ ih => exact .leaf hlt hchildren hordinal hpayload (ih h')
  | inner hlt hchildren hordinal hflags hfinds hne hsub _ _ ih' =>
    rw [List.cons_append, List.cons_append, List.append_assoc]
    exact .inner hlt hchildren hordinal hflags hfinds hne hsub (ih' h')

/-- Following one byte of a key, and then the rest, finds the key's entry. -/
theorem PartitionNodes.walk (h : PartitionNodes trieData level cs f offs) (ha : f.Ascending)
    (b : UInt8) {key : Bytes} (hkey : key.length = level) :
    (match (cs.find? (·.1 == b)).map (·.2) with
      | some childOffset => walkBtiTrie trieData childOffset key
      | none => .ok none) = .ok (Forest.lookup f.entries (b :: key)) := by
  induction h generalizing b key with
  | nil => rfl
  | @leaf c off rest value siblings offs hlt _ hordinal hpayload _ ih =>
    obtain rfl := List.length_eq_zero_iff.1 hkey
    rw [Forest.entries_cons, Forest.lookup_append]
    by_cases hb : c = b
    · subst hb
      rw [List.find?_cons_of_pos (by simp), Forest.lookup_under_self]
      simp only [Option.map_some, walkBtiTrie]
      rw [if_neg (Nat.not_le.2 hlt), if_pos hordinal, hpayload]
      rfl
    · rw [List.find?_cons_of_neg (by simpa using hb), Forest.lookup_under_ne hb, Option.none_or]
      exact ih ha.2.2 b rfl
  | @inner level c off below rest children siblings offs offs' hlt _ hordinal _ hfinds _ _ _ ih ih' =>
    rw [Forest.entries_cons, Forest.lookup_append]
    by_cases hb : c = b
    · subst hb
      have hsiblings : c ∉ siblings.edges := fun hc => lt_irrefl _ (ha.1 c hc)
      rw [List.find?_cons_of_pos (by simp), Forest.lookup_under_self,
        Forest.lookup_entries_not_mem hsiblings, Option.or_none]
      obtain ⟨next, tail, rfl⟩ := List.exists_cons_of_ne_nil (show key ≠ [] by
        rintro rfl
        cases hkey)
      have hsub := ih ha.2.1 next (show tail.length = level by simpa using hkey)
      simp only [Option.map_some, walkBtiTrie]
      rw [if_neg (Nat.not_le.2 hlt), if_neg hordinal, hfinds next]
      simp only [bind, Except.bind]
      refine Eq.trans ?_ hsub
      cases (below.find? (·.1 == next)).map (·.2) <;> rfl
    · rw [List.find?_cons_of_neg (by simpa using hb), Forest.lookup_under_ne hb, Option.none_or]
      exact ih' ha.2.2 b hkey

end

/-! ### A whole trie -/

/-- A root above leaves that all are so many levels below its children. -/
structure PartitionRoot (trieData : Bytes) (root level : Nat)
    (f : Forest UInt8 BtiPartitionLocation) : Prop where
  lt : root < trieData.length
  inner : nodeOrdinal (byteAt trieData root) ≠ 0
  noFlags : payloadFlags (byteAt trieData root) = 0
  ascending : f.Ascending
  nodes : ∃ cs offs, trieChildren trieData root = .ok cs ∧ FindsChildren trieData root cs ∧
    PartitionNodes trieData level cs f offs ∧ (root :: offs).Nodup

section

variable {trieData : Bytes} {root level : Nat} {f : Forest UInt8 BtiPartitionLocation}

section

variable (h : PartitionRoot trieData root level f)

include h

theorem PartitionRoot.nodeAt :
    ∃ offs, NodeAt (partitionStore trieData) root (none, f) offs ∧ (root :: offs).Nodup := by
  obtain ⟨cs, offs, hcs, -, hnodes, hnodup⟩ := h.nodes
  exact ⟨offs, ⟨h.lt, cs, (if_neg (Nat.not_le.2 h.lt)).trans hcs,
    readPayloadWith_no_flags h.lt h.inner h.noFlags, hnodes.holds⟩, hnodup⟩

theorem PartitionRoot.sorted : f.entries.Pairwise fun a b => a.1 < b.1 :=
  @Forest.Ascending.nodeEntries_sorted _ _ _ none _ h.ascending

theorem PartitionRoot.walk {key : Bytes} (hkey : key.length = level + 1) :
    walkBtiTrie trieData root key = .ok (Forest.lookup f.entries key) := by
  obtain ⟨cs, offs, -, hfinds, hnodes, -⟩ := h.nodes
  obtain ⟨b, tail, rfl⟩ := List.exists_cons_of_ne_nil (show key ≠ [] by
    rintro rfl
    cases hkey)
  have hwalk := hnodes.walk h.ascending b (show tail.length = level by simpa using hkey)
  rw [walkBtiTrie, if_neg (Nat.not_le.2 h.lt), if_neg h.inner, hfinds b]
  simp only [bind, Except.bind]
  refine Eq.trans ?_ hwalk
  cases (cs.find? (·.1 == b)).map (·.2) <;> rfl

theorem PartitionRoot.enumerate : dfsCollectPartitionEntries trieData root = .ok f.entries := by
  obtain ⟨offs, hnode, hnodup⟩ := h.nodeAt
  exact dfsCollectInOrder_iff.2 ⟨(none, f), offs, hnode, hnodup, rfl⟩

theorem PartitionRoot.ceiling (key : Bytes) :
    partitionStrictCeilingLocation trieData root key = .ok (Forest.firstAfter f.entries key) := by
  obtain ⟨offs, hnode, hnodup⟩ := h.nodeAt
  obtain ⟨cs, offs', -, -, hnodes, -⟩ := h.nodes
  exact strictCeilingBlock_eq ⟨⟨offs, hnode⟩, h.ascending, hnodes.productive⟩
    (height_le_size hnode hnodup) key

end

end

/-! ### Keys of tokens -/

theorem xor_topBit {k n : Nat} (h : n < 2 ^ (k + 1)) :
    n ^^^ 2 ^ k = if n < 2 ^ k then n + 2 ^ k else n - 2 ^ k := by
  have hdiv : (n ^^^ 2 ^ k) / 2 ^ k = n / 2 ^ k ^^^ 1 := by
    rw [Nat.xor_div_two_pow, Nat.div_self (by positivity)]
  have hmod : (n ^^^ 2 ^ k) % 2 ^ k = n % 2 ^ k := by
    rw [Nat.xor_mod_two_pow, Nat.mod_self, Nat.xor_zero]
  have hsplit := Nat.div_add_mod (n ^^^ 2 ^ k) (2 ^ k)
  rw [hdiv, hmod] at hsplit
  rw [pow_succ] at h
  split
  · next hlt =>
    rw [Nat.div_eq_of_lt hlt, Nat.mod_eq_of_lt hlt, Nat.zero_xor, Nat.mul_one, Nat.add_comm] at hsplit
    exact hsplit.symm
  · next hge =>
    have hone : n / 2 ^ k = 1 := Nat.div_eq_of_lt_le (by omega) (by omega)
    have hrest := Nat.div_add_mod n (2 ^ k)
    rw [hone, Nat.xor_self, Nat.mul_zero, Nat.zero_add] at hsplit
    rw [hone] at hrest
    omega

theorem xor_signBit {n : Nat} (h : n < 2 ^ 64) :
    n ^^^ 2 ^ 63 = if n < 2 ^ 63 then n + 2 ^ 63 else n - 2 ^ 63 := xor_topBit h

/-- Bytes of one length, most significant first, are ordered as the values. -/
theorem beBytes_lt {k a b : Nat} (h : a % 256 ^ k < b % 256 ^ k) : beBytes k a < beBytes k b := by
  induction k with
  | zero => simp [Nat.mod_one] at h
  | succ k ih =>
    have hhead : ∀ n, (UInt8.ofNat (n / 256 ^ k % 256)).toNat = n / 256 ^ k % 256 := fun n => by
      rw [UInt8.toNat_ofNat', Nat.mod_mod]
    rw [pow_succ, Nat.mod_mul, Nat.mod_mul] at h
    have hpos : 0 < 256 ^ k := by positivity
    have hlo := Nat.mod_lt a hpos
    rw [beBytes, beBytes, List.cons_lt_cons_iff]
    rcases Nat.lt_trichotomy (a / 256 ^ k % 256) (b / 256 ^ k % 256) with hlt | heq | hgt
    · refine .inl (UInt8.lt_iff_toNat_lt.2 ?_)
      rwa [hhead, hhead]
    · refine .inr ⟨?_, ih ?_⟩
      · rw [← UInt8.toNat_inj, hhead, hhead, heq]
      · rw [heq] at h
        exact Nat.lt_of_add_lt_add_right h
    · have hmul := Nat.mul_le_mul_left (256 ^ k) (show b / 256 ^ k % 256 + 1 ≤ _ from hgt)
      rw [Nat.mul_add, Nat.mul_one] at hmul
      have hb := Nat.mod_lt b hpos
      omega

/-- The value the last eight bytes of a key hold. -/
theorem tokenBits {token : Int} (hlo : i64Min ≤ token) (hhi : token ≤ i64Max) :
    (((token % 2 ^ 64).toNat ^^^ 2 ^ 63 : Nat) : Int) = token + 2 ^ 63 ∧
      (token % 2 ^ 64).toNat ^^^ 2 ^ 63 < 256 ^ 8 := by
  simp only [i64Min, i64Max] at hlo hhi
  have hlt : (token % 2 ^ 64).toNat < 2 ^ 64 := by omega
  rw [xor_signBit hlt]
  split <;> constructor <;> omega

theorem encodeBtiTrieKey_lt {a b : Int} (ha : i64Min ≤ a) (hb : b ≤ i64Max) (h : a < b) :
    encodeBtiTrieKeyFromToken a < encodeBtiTrieKeyFromToken b := by
  obtain ⟨haval, halt⟩ := tokenBits ha (h.le.trans hb)
  obtain ⟨hbval, hblt⟩ := tokenBits (ha.trans h.le) hb
  refine List.cons_lt_cons_iff.2 (.inr ⟨rfl, beBytes_lt ?_⟩)
  rw [Nat.mod_eq_of_lt halt, Nat.mod_eq_of_lt hblt]
  omega

theorem encodeBtiTrieKey_inj {a b : Int} (ha : i64Min ≤ a) (ha' : a ≤ i64Max) (hb : i64Min ≤ b)
    (hb' : b ≤ i64Max) (h : encodeBtiTrieKeyFromToken a = encodeBtiTrieKeyFromToken b) : a = b := by
  rcases Int.lt_trichotomy a b with hlt | heq | hgt
  · exact absurd h (encodeBtiTrieKey_lt ha hb' hlt).ne
  · exact heq
  · exact absurd h (encodeBtiTrieKey_lt hb ha' hgt).ne'

theorem cassandraMurmur3Token_range (data : Bytes) :
    i64Min ≤ cassandraMurmur3Token data ∧ cassandraMurmur3Token data ≤ i64Max := by
  have hlow := (cassandraMurmur3X64128 data).1.toInt64.le_toInt
  have hhigh := (cassandraMurmur3X64128 data).1.toInt64.toInt_lt
  rw [cassandraMurmur3Token, normalizeToken, i64Min, i64Max]
  split <;> omega

/-- The trie key of a raw partition key. -/
def encodePartitionKeyForBtiTrie (rawKeyBytes : Bytes) : Bytes :=
  encodeBtiTrieKeyFromToken (cassandraMurmur3Token rawKeyBytes)

theorem encodePartitionKeyForBtiTrie_lt_iff {a b : Bytes} :
    encodePartitionKeyForBtiTrie a < encodePartitionKeyForBtiTrie b ↔
      cassandraMurmur3Token a < cassandraMurmur3Token b := by
  obtain ⟨ha, ha'⟩ := cassandraMurmur3Token_range a
  obtain ⟨hb, hb'⟩ := cassandraMurmur3Token_range b
  constructor
  · intro h
    by_contra hle
    rcases (not_lt.1 hle).lt_or_eq with hlt | heq
    · exact lt_asymm h (encodeBtiTrieKey_lt hb ha' hlt)
    · rw [encodePartitionKeyForBtiTrie, encodePartitionKeyForBtiTrie, heq] at h
      exact lt_irrefl _ h
  · exact encodeBtiTrieKey_lt ha hb'

@[simp] theorem length_encodeBtiTrieKey (token : Int) : (encodeBtiTrieKeyFromToken token).length = 9 := by
  rw [encodeBtiTrieKeyFromToken, List.length_cons, length_beBytes]

end Cqlite
