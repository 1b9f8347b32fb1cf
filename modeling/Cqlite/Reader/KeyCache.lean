import Cqlite.Lib.Machine
import Cqlite.Lib.Recency
import Cqlite.Types
import Mathlib.Algebra.BigOperators.Group.Finset.Basic
import Mathlib.Algebra.Order.BigOperators.Group.Finset
import Mathlib.Data.List.AList

/-! The cache of partition offsets (`storage/cache/global_key_offset.rs`).

    One budget bounds the entries of all SSTables. A shard keeps a cache per SSTable and stamps what
    is used with a clock, so that it can throw out what was used least recently in any of them. The
    caches are those of the crate `lru`, of which only the documentation is used. What a thread does
    under the mutex of a shard is one step. Sizes do not saturate and counters do not wrap here; the
    clock does. -/

namespace Cqlite

open Recency

/-! ### A shard -/

structure GenerationIdentity where
  device : Nat
  inode : Nat
  size : Nat
  generation : Nat
  mtimeNs : Int
  deriving DecidableEq

structure PartitionLoc where
  dataOffset : Nat
  dataSize : Nat
  deriving DecidableEq

/-- A location and the time of its last use. -/
structure CacheEntry where
  loc : PartitionLoc
  seq : Nat

/-- `lru::LruCache` without a bound, and what its documentation says of each operation: `iter` visits
    the entries in most-recently used order, `get_mut` and `put` move the key to the front of it,
    `peek_lru` and `pop_lru` are about its end. -/
structure LruCache where
  Cache : Type
  unbounded : Cache
  /-- `get_mut`, and an update of the entry it gives. -/
  getMut : Cache → Bytes → (CacheEntry → CacheEntry) → Option CacheEntry × Cache
  put : Cache → Bytes → CacheEntry → Option CacheEntry × Cache
  peekLru : Cache → Option (Bytes × CacheEntry)
  popLru : Cache → Option (Bytes × CacheEntry) × Cache
  len : Cache → Nat
  isEmpty : Cache → Bool
  iter : Cache → List (Bytes × CacheEntry)
  iter_unbounded : iter unbounded = []
  getMut_fst : ∀ c key f, (getMut c key f).1 = lookup (iter c) key
  iter_getMut : ∀ c key f, iter (getMut c key f).2 =
    ((lookup (iter c) key).map fun entry => touch key (f entry) (iter c)).getD (iter c)
  put_fst : ∀ c key entry, (put c key entry).1 = lookup (iter c) key
  iter_put : ∀ c key entry, iter (put c key entry).2 = touch key entry (iter c)
  peekLru_eq : ∀ c, peekLru c = (iter c).getLast?
  popLru_fst : ∀ c, (popLru c).1 = (iter c).getLast?
  iter_popLru : ∀ c, iter (popLru c).2 = (iter c).dropLast
  len_eq : ∀ c, len c = (iter c).length
  isEmpty_eq : ∀ c, isEmpty c = (iter c).isEmpty

abbrev CacheKey := GenerationIdentity × Bytes

def perEntryOverhead : Nat := 96

def entryCost (keyLen : Nat) : Nat := keyLen + perEntryOverhead

structure Shard (L : LruCache) where
  map : AList fun _ : GenerationIdentity => L.Cache
  currentBytes : Nat
  seq : Nat

namespace Shard

variable {L : LruCache}

def new : Shard L := ⟨∅, 0, 0⟩

/-- `wrapping_add`. -/
def nextSeq (s : Shard L) : Nat := (s.seq + 1) % 2 ^ 64

def totalLen (s : Shard L) : Nat := (s.map.entries.map fun p => L.len p.2).sum

/-- The entries of an SSTable, the last used one first. -/
def entriesOf (s : Shard L) (identity : GenerationIdentity) : List (Bytes × CacheEntry) :=
  ((s.map.lookup identity).map L.iter).getD []

/-- A miss moves the clock too. -/
def get (s : Shard L) (identity : GenerationIdentity) (key : Bytes) :
    Option PartitionLoc × Shard L :=
  let seq := s.nextSeq
  match s.map.lookup identity with
  | none => (none, { s with seq })
  | some inner =>
    let (entry, inner) := L.getMut inner key fun entry => { entry with seq }
    (entry.map CacheEntry.loc, { s with seq, map := s.map.insert identity inner })

/-- A round of the search in `evict_one`: the victim so far and its stamp. -/
def victimStep (best : Option GenerationIdentity × Nat) (p : (_ : GenerationIdentity) × L.Cache) :
    Option GenerationIdentity × Nat :=
  match L.peekLru p.2 with
  | some e => if best.1 = none ∨ e.2.seq < best.2 then (some p.1, e.2.seq) else best
  | none => best

/-- The SSTable whose least recently used entry has the least stamp. -/
def victim (s : Shard L) : Option GenerationIdentity :=
  (s.map.entries.foldl victimStep (none, 2 ^ 64 - 1)).1

/-- `evict_one`; `none` stands for `false`. -/
def evictOne (s : Shard L) : Option (Shard L) := do
  let id ← s.victim
  let inner ← s.map.lookup id
  let e ← (L.popLru inner).1
  let inner := (L.popLru inner).2
  let map := if L.isEmpty inner then s.map.erase id else s.map.insert id inner
  return { s with map, currentBytes := s.currentBytes - entryCost e.1.length }

/-- The loop of `insert`, which removes an entry a round, and the number of its rounds. -/
def evictLoop (perShardBytes : Nat) : Nat → Shard L → Shard L × Nat
  | 0, s => (s, 0)
  | n + 1, s =>
    if perShardBytes < s.currentBytes ∧ 1 < s.totalLen then
      match s.evictOne with
      | some s => ((evictLoop perShardBytes n s).1, (evictLoop perShardBytes n s).2 + 1)
      | none => (s, 0)
    else (s, 0)

/-- `insert`, and the number of entries it evicted. -/
def insert (perShardBytes : Nat) (s : Shard L) (identity : GenerationIdentity) (key : Bytes)
    (loc : PartitionLoc) : Shard L × Nat :=
  let cost := entryCost key.length
  let seq := s.nextSeq
  let (replaced, inner) := L.put ((s.map.lookup identity).getD L.unbounded) key ⟨loc, seq⟩
  let bytes := if replaced.isSome then s.currentBytes - cost else s.currentBytes
  let stored : Shard L := ⟨s.map.insert identity inner, bytes + cost, seq⟩
  evictLoop perShardBytes stored.totalLen stored

/-- `invalidate` in one shard, and the number of entries it dropped. -/
def invalidate (s : Shard L) (identity : GenerationIdentity) : Shard L × Nat :=
  match s.map.lookup identity with
  | none => (s, 0)
  | some inner =>
    ({ s with
        map := s.map.erase identity
        currentBytes := s.currentBytes - ((L.iter inner).map fun e => entryCost e.1.length).sum },
      (L.iter inner).length)

end Shard

/-! ### The cache -/

/-- What a thread does under the lock of a shard: `get` and `insert` lock one, `invalidate` and
    `invalidate_all` one after the other. -/
inductive CacheCall
  | get (identity : GenerationIdentity) (key : Bytes)
  | insert (identity : GenerationIdentity) (key : Bytes) (loc : PartitionLoc)
  | invalidate (shard : Nat) (identity : GenerationIdentity)
  | invalidateAll (shard : Nat)

variable {L : LruCache}

/-- What a call does to a shard it reaches. -/
def Shard.step (perShardBytes : Nat) (s : Shard L) : CacheCall → Shard L
  | .get identity key => (s.get identity key).2
  | .insert identity key loc => (s.insert perShardBytes identity key loc).1
  | .invalidate _ identity => (s.invalidate identity).1
  | .invalidateAll _ => { s with map := ∅, currentBytes := 0 }

structure GlobalKeyOffsetCache (L : LruCache) where
  shards : List (Shard L)
  perShardBytes : Nat
  disabled : Bool
  hits : Nat
  misses : Nat
  evictions : Nat
  invalidations : Nat

namespace GlobalKeyOffsetCache

def withBudgetAndShards (L : LruCache) (totalBudgetBytes shardCount : Nat) :
    GlobalKeyOffsetCache L :=
  let count := (max shardCount 1).nextPowerOfTwo
  ⟨.replicate count .new, max (totalBudgetBytes / count) (entryCost 0), false, 0, 0, 0, 0⟩

variable (hash : GenerationIdentity → Bytes → Nat)

/-- `shard_for`; `hash` is the default hasher. -/
def shardFor (c : GlobalKeyOffsetCache L) (identity : GenerationIdentity) (key : Bytes) : Nat :=
  hash identity key &&& (c.shards.length - 1)

/-- `get`. -/
def get (c : GlobalKeyOffsetCache L) (identity : GenerationIdentity) (key : Bytes) :
    Option PartitionLoc × GlobalKeyOffsetCache L :=
  if c.disabled then (none, c)
  else
    let i := c.shardFor hash identity key
    let found := (c.shards[i]?).bind fun s => (s.get identity key).1
    let shards := c.shards.modify i fun s => (s.get identity key).2
    (found, if found.isSome then { c with shards, hits := c.hits + 1 }
      else { c with shards, misses := c.misses + 1 })

/-- What a call does to the cache. -/
def step (c : GlobalKeyOffsetCache L) (call : CacheCall) : GlobalKeyOffsetCache L :=
  if c.disabled then c
  else match call with
    | .get identity key => (c.get hash identity key).2
    | .insert identity key loc =>
      let i := c.shardFor hash identity key
      { c with
        shards := c.shards.modify i fun s => (s.insert c.perShardBytes identity key loc).1
        evictions := c.evictions +
          ((c.shards[i]?).map fun s => (s.insert c.perShardBytes identity key loc).2).getD 0 }
    | .invalidate i identity =>
      { c with
        shards := c.shards.modify i fun s => (s.invalidate identity).1
        invalidations := c.invalidations +
          ((c.shards[i]?).map fun s => (s.invalidate identity).2).getD 0 }
    | .invalidateAll i =>
      { c with
        shards := c.shards.modify i fun s => s.step c.perShardBytes call
        invalidations := c.invalidations + ((c.shards[i]?).map Shard.totalLen).getD 0 }

end GlobalKeyOffsetCache

/-! ### What a shard keeps -/

/-- The plain cache: all entries in one list. -/
abbrev PlainCache := List (CacheKey × PartitionLoc)

def keyCost (k : CacheKey) : Nat := entryCost k.2.length

def plainStep (perShardBytes : Nat) (l : PlainCache) : CacheCall → PlainCache
  | .get identity key =>
    match lookup l (identity, key) with
    | some loc => touch (identity, key) loc l
    | none => l
  | .insert identity key loc => put keyCost perShardBytes (identity, key) loc l
  | .invalidate _ identity => l.filter fun p => p.1.1 ≠ identity
  | .invalidateAll _ => []

/-- The entries of a shard in the order of their stamps, the last one first. -/
structure Shard.Tracks (s : Shard L) (l : List (CacheKey × CacheEntry)) : Prop where
  inner : ∀ identity, s.entriesOf identity = part identity l
  nodup : (l.map (·.1)).Nodup
  stamped : l.Pairwise fun a b => b.2.seq < a.2.seq
  clock : ∀ p ∈ l, p.2.seq ≤ s.seq
  bytes : s.currentBytes = weigh keyCost l

variable {loc : PartitionLoc}

namespace Shard

variable {s : Shard L} {l : List (CacheKey × CacheEntry)}

theorem Tracks.of_entry (h : s.Tracks l) {p : (_ : GenerationIdentity) × L.Cache}
    (hp : p ∈ s.map.entries) : L.iter p.2 = part p.1 l := by
  rw [← h.inner, entriesOf, AList.mem_lookup_iff.mpr hp]
  rfl

theorem Tracks.totalLen_eq (h : s.Tracks l) : s.totalLen = l.length := by
  have hids : (s.map.entries.map fun p => L.len p.2) =
      s.map.keys.map fun identity => (part identity l).length := by
    rw [AList.keys, List.keys, List.map_map]
    exact List.map_congr_left fun p hp => (L.len_eq _).trans (congrArg List.length (h.of_entry hp))
  rw [totalLen, hids]
  refine sum_length_part s.map.keys_nodup fun p hp => ?_
  have hpart : (p.1.2, p.2) ∈ part p.1.1 l := List.mem_map.mpr ⟨p, by simpa using hp, rfl⟩
  rw [← h.inner, entriesOf] at hpart
  by_contra hnot
  rw [AList.lookup_eq_none.mpr hnot] at hpart
  cases hpart

/-- The least stamp is found wherever it stands. -/
theorem foldl_victimStep {entries : List ((_ : GenerationIdentity) × L.Cache)}
    {best : Option GenerationIdentity × Nat} {identity : GenerationIdentity} {m : Nat}
    (hleast : ∀ p ∈ entries, ∀ e, L.peekLru p.2 = some e →
      (p.1 = identity ∧ e.2.seq = m) ∨ m < e.2.seq)
    (hbest : best = (some identity, m) ∨ ((best.1 = none ∨ m < best.2) ∧
      ∃ p ∈ entries, ∃ e, L.peekLru p.2 = some e ∧ e.2.seq = m)) :
    entries.foldl victimStep best = (some identity, m) := by
  induction entries generalizing best with
  | nil => simpa using hbest
  | cons p entries ih =>
    rw [List.foldl_cons]
    refine ih (fun q hq => hleast q (List.mem_cons_of_mem _ hq)) ?_
    have hp := hleast p List.mem_cons_self
    simp only [List.mem_cons, exists_eq_or_imp] at hbest
    rw [victimStep]
    cases hlast : L.peekLru p.2 with
    | none => simpa [hlast] using hbest
    | some e =>
      rcases hp e hlast with ⟨hid, hseq⟩ | hlt
      · grind
      · grind

/-- The victim is the least recently used entry of the shard. -/
theorem Tracks.evictOne {e : CacheKey × CacheEntry} (h : s.Tracks (l ++ [e])) :
    ∃ s', s.evictOne = some s' ∧ s'.Tracks l ∧ s'.seq = s.seq := by
  have hlast : part e.1.1 (l ++ [e]) = part e.1.1 l ++ [(e.1.2, e.2)] := by simp [part]
  obtain ⟨inner, hmap, hiter⟩ : ∃ inner, s.map.lookup e.1.1 = some inner ∧
      L.iter inner = part e.1.1 l ++ [(e.1.2, e.2)] := by
    have hinner := h.inner e.1.1
    rw [hlast, entriesOf] at hinner
    cases hl : s.map.lookup e.1.1 with
    | none => simp [hl] at hinner
    | some inner => exact ⟨inner, rfl, by simpa [hl] using hinner⟩
  obtain ⟨hstamped, -, hbelow⟩ := List.pairwise_append.mp h.stamped
  have hleast : ∀ p ∈ s.map.entries, ∀ e', L.peekLru p.2 = some e' →
      (p.1 = e.1.1 ∧ e'.2.seq = e.2.seq) ∨ e.2.seq < e'.2.seq := by
    intro p hp e' he'
    rw [L.peekLru_eq, h.of_entry hp] at he'
    rcases List.mem_append.mp (mem_part.mp (List.mem_of_getLast? he')) with hmem | hmem
    · exact .inr (hbelow _ hmem e List.mem_cons_self)
    · obtain rfl := List.mem_singleton.mp hmem
      exact .inl ⟨rfl, rfl⟩
  have hpeek : L.peekLru inner = some (e.1.2, e.2) := by
    rw [L.peekLru_eq, hiter, List.getLast?_concat]
  have hvictim : s.victim = some e.1.1 := by
    rw [victim, foldl_victimStep hleast
      (.inr ⟨.inl rfl, _, AList.mem_lookup_iff.mp hmap, (e.1.2, e.2), hpeek, rfl⟩)]
  have hpop : (L.popLru inner).1 = some (e.1.2, e.2) := by
    rw [L.popLru_fst, hiter, List.getLast?_concat]
  have hrest : L.iter (L.popLru inner).2 = part e.1.1 l := by
    rw [L.iter_popLru, hiter, List.dropLast_concat]
  rw [Shard.evictOne, hvictim, Option.bind_eq_bind, Option.bind_some, hmap]
  simp only [Option.bind_eq_bind, Option.bind_some, hpop]
  refine ⟨_, rfl, ⟨fun identity => ?_, ?_, hstamped, fun p hp => ?_, ?_⟩, rfl⟩
  · rw [entriesOf]
    by_cases hid : identity = e.1.1
    · subst hid
      rw [L.isEmpty_eq, hrest]
      split <;> simp_all
    · have hpart : part identity (l ++ [e]) = part identity l := by simp [part, Ne.symm hid]
      rw [← hpart, ← h.inner, entriesOf]
      split <;> simp [AList.lookup_insert_ne hid, AList.lookup_erase_ne hid]
  · exact h.nodup.sublist ((List.sublist_append_left l [e]).map _)
  · exact h.clock p (List.mem_append_left _ hp)
  · have hbytes := h.bytes
    simp only [weigh, List.map_append, List.sum_append, List.map_singleton, List.sum_singleton,
      keyCost] at hbytes ⊢
    omega

theorem Tracks.evictLoop (perShardBytes n : Nat) (h : s.Tracks l) :
    (s.evictLoop perShardBytes n).1.Tracks (trim keyCost perShardBytes n l) ∧
      (s.evictLoop perShardBytes n).1.seq = s.seq := by
  induction n generalizing s l with
  | zero => exact ⟨h, rfl⟩
  | succ n ih =>
    rw [Shard.evictLoop, trim, h.totalLen_eq, h.bytes]
    split
    · rename_i hover
      obtain ⟨l, e, rfl⟩ := (List.eq_nil_or_concat l).resolve_left (by rintro rfl; simp at hover)
      rw [List.concat_eq_append] at h ⊢
      obtain ⟨s', hevict, htracks, hseq⟩ := h.evictOne
      rw [hevict, List.dropLast_concat, ← hseq]
      exact ih htracks
    · exact ⟨h, rfl⟩

/-- A use puts the entry in front, in its own cache and among all. -/
theorem Tracks.touched (h : s.Tracks l) (hseq : s.seq + 1 < 2 ^ 64) {identity : GenerationIdentity}
    {key : Bytes} {inner : L.Cache}
    (hinner : L.iter inner = touch key ⟨loc, s.nextSeq⟩ (s.entriesOf identity)) :
    Tracks ⟨s.map.insert identity inner,
        weigh keyCost (touch (identity, key) (⟨loc, s.nextSeq⟩ : CacheEntry) l), s.nextSeq⟩
      (touch (identity, key) ⟨loc, s.nextSeq⟩ l) := by
  have hnext : s.nextSeq = s.seq + 1 := Nat.mod_eq_of_lt hseq
  have hbefore : ∀ p ∈ erase (identity, key) l, p.2.seq < s.nextSeq := fun p hp => by
    have := h.clock p (List.mem_of_mem_filter hp)
    omega
  refine ⟨fun identity' => ?_, nodup_touch h.nodup, ?_, fun p hp => ?_, rfl⟩
  · rw [entriesOf]
    by_cases hid : identity' = identity
    · subst hid
      rw [AList.lookup_insert, part_touch_self, ← h.inner, ← hinner]
      rfl
    · rw [AList.lookup_insert_ne hid, part_touch_of_ne hid, ← h.inner, entriesOf]
  · exact List.pairwise_cons.mpr ⟨hbefore, h.stamped.filter _⟩
  · rcases List.mem_cons.mp hp with rfl | hp
    · exact le_rfl
    · exact (hbefore p hp).le

/-- What a plain cache has to say of a shard. -/
def Shows (s : Shard L) (plain : PlainCache) : Prop :=
  ∃ l, s.Tracks l ∧ l.map (fun p => (p.1, p.2.loc)) = plain

theorem Shows.get {plain : PlainCache} (h : s.Shows plain) (identity : GenerationIdentity)
    (key : Bytes) : (s.get identity key).1 = lookup plain (identity, key) := by
  obtain ⟨l, h, rfl⟩ := h
  rw [lookup_map (fun e : CacheEntry => e.loc), ← lookup_part, ← h.inner, Shard.get, entriesOf]
  cases hl : s.map.lookup identity with
  | none => rfl
  | some inner => exact congrArg (Option.map CacheEntry.loc) (L.getMut_fst ..)

/-- Nothing is used, but the clock moves. -/
theorem Tracks.miss (h : s.Tracks l) (hseq : s.seq + 1 < 2 ^ 64)
    {map : AList fun _ : GenerationIdentity => L.Cache}
    (hmap : ∀ identity, ((map.lookup identity).map L.iter).getD [] = s.entriesOf identity) :
    Tracks ⟨map, s.currentBytes, s.nextSeq⟩ l := by
  have hnext : s.nextSeq = s.seq + 1 := Nat.mod_eq_of_lt hseq
  exact ⟨fun identity => (hmap identity).trans (h.inner identity), h.nodup, h.stamped,
    fun p hp => by have := h.clock p hp; simp only [hnext]; omega, h.bytes⟩

/-- A lookup is a touch of the flat list. -/
theorem Tracks.get (h : s.Tracks l) (hseq : s.seq + 1 < 2 ^ 64) (identity : GenerationIdentity)
    (key : Bytes) :
    (lookup l (identity, key) = none → (s.get identity key).2.Tracks l) ∧
      ∀ entry, lookup l (identity, key) = some entry → (s.get identity key).2.Tracks
        (touch (identity, key) ⟨entry.loc, s.nextSeq⟩ l) := by
  have hentries : s.entriesOf identity = ((s.map.lookup identity).map L.iter).getD [] := rfl
  have hweigh : ∀ entry : CacheEntry, weigh keyCost (touch (identity, key) entry l) =
      if (lookup l (identity, key)).isSome then weigh keyCost l
      else weigh keyCost l + keyCost (identity, key) := fun _ => weigh_touch h.nodup
  rw [← lookup_part, ← h.inner] at hweigh ⊢
  rw [Shard.get]
  cases hmap : s.map.lookup identity with
  | none =>
    rw [hentries, hmap]
    exact ⟨fun _ => h.miss hseq fun _ => rfl, fun entry hentry => by cases hentry⟩
  | some inner =>
    have hinner : s.entriesOf identity = L.iter inner := by
      rw [hentries, hmap]
      rfl
    have hiter := L.iter_getMut inner key fun entry => { entry with seq := s.nextSeq }
    rw [← hinner] at hiter
    refine ⟨fun hnone => ?_, fun entry hentry => ?_⟩
    · rw [hnone, Option.map_none, Option.getD_none] at hiter
      refine h.miss hseq fun identity' => ?_
      by_cases hid : identity' = identity
      · subst hid
        rw [AList.lookup_insert, ← hiter]
        rfl
      · rw [AList.lookup_insert_ne hid, entriesOf]
    · rw [hentry, Option.map_some, Option.getD_some] at hiter
      have htouched := h.touched hseq hiter
      rw [hweigh, hentry, ← h.bytes] at htouched
      exact htouched

theorem Tracks.insert (h : s.Tracks l) (hseq : s.seq + 1 < 2 ^ 64) (perShardBytes : Nat)
    (identity : GenerationIdentity) (key : Bytes) (loc : PartitionLoc) :
    (s.insert perShardBytes identity key loc).1.Tracks
        (put keyCost perShardBytes (identity, key) ⟨loc, s.nextSeq⟩ l) ∧
      (s.insert perShardBytes identity key loc).1.seq = s.nextSeq := by
  have hentries : L.iter ((s.map.lookup identity).getD L.unbounded) = s.entriesOf identity := by
    rw [entriesOf]
    cases s.map.lookup identity with
    | none => exact L.iter_unbounded
    | some inner => rfl
  have hiter := L.iter_put ((s.map.lookup identity).getD L.unbounded) key ⟨loc, s.nextSeq⟩
  rw [hentries] at hiter
  have htouched := h.touched hseq hiter
  have hbytes : (if (L.put ((s.map.lookup identity).getD L.unbounded) key ⟨loc, s.nextSeq⟩).1.isSome
      then s.currentBytes - entryCost key.length else s.currentBytes) + entryCost key.length =
      weigh keyCost (touch (identity, key) (⟨loc, s.nextSeq⟩ : CacheEntry) l) := by
    rw [L.put_fst, hentries, h.inner, lookup_part, weigh_touch h.nodup, h.bytes]
    split
    · rename_i hresident
      obtain ⟨entry, hentry⟩ := Option.isSome_iff_exists.mp hresident
      exact Nat.sub_add_cancel
        (List.le_sum_of_mem (List.mem_map_of_mem (mem_of_lookup hentry)))
    · rfl
  rw [Shard.insert]
  simp only [hbytes]
  rw [put, ← htouched.totalLen_eq]
  exact htouched.evictLoop _ _

theorem Tracks.invalidate (h : s.Tracks l) (identity : GenerationIdentity) :
    (s.invalidate identity).1.Tracks (l.filter fun p => p.1.1 ≠ identity) ∧
      (s.invalidate identity).1.seq = s.seq := by
  have hinner := h.inner identity
  rw [entriesOf] at hinner
  rw [Shard.invalidate]
  cases hmap : s.map.lookup identity with
  | none =>
    have hall : (l.filter fun p => p.1.1 ≠ identity) = l := List.filter_eq_self.mpr fun p hp => by
      rw [hmap, Option.map_none, Option.getD_none] at hinner
      simp only [ne_eq, decide_eq_true_eq]
      rintro rfl
      have : (p.1.2, p.2) ∈ part p.1.1 l := mem_part.mpr hp
      rw [← hinner] at this
      cases this
    rw [hall]
    exact ⟨h, rfl⟩
  | some inner =>
    have hiter : L.iter inner = part identity l := by simpa [hmap] using hinner
    refine ⟨⟨fun identity' => ?_, h.nodup.sublist (List.filter_sublist.map _), h.stamped.filter _,
      fun p hp => h.clock p (List.mem_of_mem_filter hp), ?_⟩, rfl⟩
    · rw [entriesOf]
      by_cases hid : identity' = identity
      · subst hid
        simp [part]
      · rw [AList.lookup_erase_ne hid, part_filter_of_ne hid, ← h.inner, entriesOf]
    · simp only [hiter]
      exact Nat.sub_eq_of_eq_add (h.bytes.trans weigh_filter.symm)

theorem Shows.step {plain : PlainCache} (h : s.Shows plain) (hseq : s.seq + 1 < 2 ^ 64)
    (perShardBytes : Nat) (call : CacheCall) :
    (s.step perShardBytes call).Shows (plainStep perShardBytes plain call) ∧
      (s.step perShardBytes call).seq ≤ s.seq + 1 := by
  obtain ⟨l, h, rfl⟩ := h
  have hnext : s.nextSeq = s.seq + 1 := Nat.mod_eq_of_lt hseq
  cases call with
  | get identity key =>
    obtain ⟨hmiss, hhit⟩ := h.get hseq identity key
    have hclock : (s.step perShardBytes (.get identity key)).seq = s.seq + 1 := by
      rw [← hnext, Shard.step, Shard.get]
      split <;> rfl
    rw [plainStep, lookup_map (fun e : CacheEntry => e.loc)]
    cases hfound : lookup l (identity, key) with
    | none => exact ⟨⟨l, hmiss hfound, rfl⟩, hclock.le⟩
    | some entry => exact ⟨⟨_, hhit entry hfound, (touch_map _).symm⟩, hclock.le⟩
  | insert identity key loc =>
    obtain ⟨htracks, hclock⟩ := h.insert hseq perShardBytes identity key loc
    refine ⟨⟨_, htracks, ?_⟩, (hclock.trans hnext).le⟩
    have htouch : touch (identity, key) loc (l.map fun p => (p.1, p.2.loc)) =
        (touch (identity, key) ⟨loc, s.nextSeq⟩ l).map fun p => (p.1, p.2.loc) := by
      rw [← touch_map fun e : CacheEntry => e.loc]
    rw [plainStep, put, put, ← trim_map (fun e : CacheEntry => e.loc), htouch, List.length_map]
  | invalidate i identity =>
    obtain ⟨htracks, hclock⟩ := h.invalidate identity
    exact ⟨⟨_, htracks, by rw [plainStep, List.filter_map]; rfl⟩, hclock.le.trans (Nat.le_succ _)⟩
  | invalidateAll i =>
    exact ⟨⟨[], ⟨fun _ => rfl, .nil, .nil, by simp, rfl⟩, rfl⟩, Nat.le_succ _⟩

theorem Shows.run {perShardBytes : Nat} {plain : PlainCache} (h : s.Shows plain) {calls : List CacheCall}
    (hseq : s.seq + calls.length < 2 ^ 64) :
    (Machine.run (Shard.step perShardBytes) s calls).Shows
      (Machine.run (plainStep perShardBytes) plain calls) := by
  induction calls generalizing s plain with
  | nil => exact h
  | cons call calls ih =>
    rw [List.length_cons] at hseq
    obtain ⟨hstep, hclock⟩ := h.step (by omega) perShardBytes call
    exact ih hstep (by omega)

end Shard

/-! ### The plain caches of a run -/

theorem plainStep_within (perShardBytes : Nat) (l : PlainCache) (call : CacheCall)
    (h : (l.map (·.1)).Nodup ∧ (weigh keyCost l ≤ perShardBytes ∨ l.length ≤ 1)) :
    ((plainStep perShardBytes l call).map (·.1)).Nodup ∧
      (weigh keyCost (plainStep perShardBytes l call) ≤ perShardBytes ∨
        (plainStep perShardBytes l call).length ≤ 1) := by
  obtain ⟨hnodup, hwithin⟩ := h
  cases call with
  | get identity key =>
    rw [plainStep]
    split
    · rename_i loc hfound
      have hlength : (touch (identity, key) loc l).length = l.length := by
        rw [← weigh_one, weigh_touch hnodup, hfound, ← weigh_one]
        rfl
      refine ⟨nodup_touch hnodup, ?_⟩
      rw [weigh_touch hnodup, hfound, hlength]
      exact hwithin
    · exact ⟨hnodup, hwithin⟩
  | insert identity key loc =>
    exact ⟨(nodup_touch hnodup).sublist ((trim_initial _).sublist.map _), trim_within le_rfl⟩
  | invalidate i identity =>
    exact ⟨hnodup.sublist (List.filter_sublist.map _),
      hwithin.imp (Nat.le.intro weigh_filter).trans (List.length_filter_le _ _).trans⟩
  | invalidateAll i => exact ⟨.nil, .inr (Nat.zero_le _)⟩

theorem run_plainStep_within (perShardBytes : Nat) (calls : List CacheCall) :
    ((Machine.run (plainStep perShardBytes) [] calls).map (·.1)).Nodup ∧
      (weigh keyCost (Machine.run (plainStep perShardBytes) [] calls) ≤ perShardBytes ∨
        (Machine.run (plainStep perShardBytes) [] calls).length ≤ 1) :=
  Machine.inv_of_run (plainStep_within perShardBytes) (by simp) calls

def latestStep (shardOf : CacheKey → Nat) (latest : CacheKey → Option PartitionLoc) :
    CacheCall → CacheKey → Option PartitionLoc
  | .get _ _ => latest
  | .insert identity key loc => Function.update latest (identity, key) (some loc)
  | .invalidate i identity => fun k => if k.1 = identity ∧ shardOf k = i then none else latest k
  | .invalidateAll i => fun k => if shardOf k = i then none else latest k

/-- The location a key was given last, if its SSTable was not invalidated in its shard since. -/
def latestLoc (shardOf : CacheKey → Nat) (calls : List CacheCall) : CacheKey → Option PartitionLoc :=
  Machine.run (latestStep shardOf) (fun _ => none) calls

variable {l : PlainCache}

theorem plainStep_latest {shardOf : CacheKey → Nat} {latest : CacheKey → Option PartitionLoc}
    (h : ∀ p ∈ l, latest p.1 = some p.2) (perShardBytes : Nat) (call : CacheCall) :
    ∀ p ∈ plainStep perShardBytes l call, latestStep shardOf latest call p.1 = some p.2 := by
  cases call with
  | get identity key =>
    rw [plainStep]
    split
    · rename_i loc hfound
      rintro p hp
      rcases List.mem_cons.mp hp with rfl | hp
      · exact h _ (mem_of_lookup hfound)
      · exact h p (List.mem_of_mem_filter hp)
    · exact h
  | insert identity key loc =>
    intro p hp
    rcases List.mem_cons.mp ((trim_initial _).subset hp) with rfl | hp
    · exact Function.update_self ..
    · obtain ⟨hp, hne⟩ := List.mem_filter.mp hp
      rw [latestStep, Function.update_of_ne (by simpa using hne)]
      exact h p hp
  | invalidate i identity =>
    intro p hp
    obtain ⟨hp, hne⟩ := List.mem_filter.mp hp
    exact (if_neg fun hid => by simp [hid.1] at hne).trans (h p hp)
  | invalidateAll i => simp [plainStep]

/-- The call uses one of some keys, or another SSTable goes. -/
def CacheCall.Within (used : Finset CacheKey) (k : CacheKey) : CacheCall → Prop
  | .get identity key => (identity, key) = k ∨ (identity, key) ∈ used
  | .insert identity key _ => (identity, key) ∈ used ∧ (identity, key) ≠ k
  | .invalidate _ identity => identity ≠ k.1
  | .invalidateAll _ => False

/-- Some of the used keys were used after `k`, no other. -/
def Kept (used : Finset CacheKey) (k : CacheKey) (loc : PartitionLoc) (l : PlainCache) : Prop :=
  (l.map (·.1)).Nodup ∧ ∃ pre post, l = pre ++ (k, loc) :: post ∧ ∀ p ∈ pre, p.1 ∈ used

variable {k : CacheKey} {used : Finset CacheKey}

theorem Kept.lookup (h : Kept used k loc l) : lookup l k = some loc := by
  obtain ⟨hnodup, pre, post, rfl, -⟩ := h
  exact lookup_of_mem hnodup (by simp)

theorem Kept.touch {k' : CacheKey} {loc' : PartitionLoc} (h : Kept used k loc l) (hk' : k' ∈ used)
    (hne : k' ≠ k) : Kept used k loc (touch k' loc' l) := by
  obtain ⟨hnodup, pre, post, rfl, hpre⟩ := h
  refine ⟨nodup_touch hnodup, (k', loc') :: erase k' pre, erase k' post, ?_, ?_⟩
  · simp [Recency.touch, erase, hne.symm]
  · rintro p hp
    rcases List.mem_cons.mp hp with rfl | hp
    · exact hk'
    · exact hpre p (List.mem_of_mem_filter hp)

theorem Kept.trim {budget : Nat} (h : Kept used k loc l)
    (hfit : keyCost k + ∑ u ∈ used, keyCost u ≤ budget) (n : Nat) :
    Kept used k loc (trim keyCost budget n l) := by
  obtain ⟨hnodup, pre, post, rfl, hpre⟩ := h
  have hlight : weigh keyCost (pre ++ [(k, loc)]) ≤ budget := by
    have hkeys : (pre.map (·.1)).Nodup := by
      rw [List.map_append] at hnodup
      exact hnodup.of_append_left
    have hsum : ((pre.map (·.1)).map keyCost).sum ≤ ∑ u ∈ used, keyCost u := by
      rw [← List.sum_toFinset _ hkeys]
      exact Finset.sum_le_sum_of_subset fun u hu => by
        obtain ⟨p, hp, rfl⟩ := List.mem_map.mp (List.mem_toFinset.mp hu)
        exact hpre p hp
    rw [List.map_map] at hsum
    simp only [weigh, List.map_append, List.sum_append, List.map_singleton, List.sum_singleton]
    exact (Nat.add_comm _ _).le.trans ((Nat.add_le_add_left hsum _).trans hfit)
  rw [List.append_cons] at hnodup ⊢
  obtain ⟨rest, hrest⟩ : pre ++ [(k, loc)] <+: Recency.trim keyCost budget n _ :=
    prefix_trim hlight n
  refine ⟨hnodup.sublist ((trim_initial n).sublist.map _), pre, rest, ?_, hpre⟩
  rw [← hrest, List.append_assoc]
  rfl

theorem Kept.step {budget : Nat} (h : Kept used k loc l)
    (hfit : keyCost k + ∑ u ∈ used, keyCost u ≤ budget) {call : CacheCall}
    (hcall : call.Within used k) : Kept used k loc (plainStep budget l call) := by
  cases call with
  | get identity key =>
    rw [plainStep]
    split
    · rename_i loc' hfound
      by_cases hk : (identity, key) = k
      · subst hk
        obtain rfl : loc = loc' := Option.some.inj (h.lookup.symm.trans hfound)
        exact ⟨nodup_touch h.1, [], _, rfl, by simp⟩
      · exact h.touch (hcall.resolve_left hk) hk
    · exact h
  | insert identity key loc' => exact (h.touch hcall.1 hcall.2).trim hfit _
  | invalidate i identity =>
    obtain ⟨hnodup, pre, post, rfl, hpre⟩ := h
    refine ⟨hnodup.sublist (List.filter_sublist.map _), pre.filter fun p => p.1.1 ≠ identity,
      post.filter fun p => p.1.1 ≠ identity, ?_, fun p hp => hpre p (List.mem_of_mem_filter hp)⟩
    simp [plainStep, Ne.symm hcall]
  | invalidateAll i => cases hcall

namespace GlobalKeyOffsetCache

variable (hash : GenerationIdentity → Bytes → Nat)

/-- The calls that reach shard `i` of so many. -/
def reaches (count i : Nat) : CacheCall → Bool
  | .get identity key => hash identity key &&& (count - 1) = i
  | .insert identity key _ => hash identity key &&& (count - 1) = i
  | .invalidate j _ => j = i
  | .invalidateAll j => j = i

/-- The plain cache fed with the calls that reach a shard. -/
def plain (c : GlobalKeyOffsetCache L) (calls : List CacheCall) (i : Nat) : PlainCache :=
  Machine.run (plainStep c.perShardBytes) [] (calls.filter (reaches hash c.shards.length i))

/-- The state of a fresh cache after some calls. -/
def after (L : LruCache) (totalBudgetBytes shardCount : Nat) (calls : List CacheCall) :
    GlobalKeyOffsetCache L :=
  Machine.run (step hash) (withBudgetAndShards L totalBudgetBytes shardCount) calls

variable {hash} {totalBudgetBytes shardCount : Nat} {calls : List CacheCall}

theorem step_shards (c : GlobalKeyOffsetCache L) (h : c.disabled = false) (call : CacheCall) (i : Nat) :
    (c.step hash call).shards[i]? = (c.shards[i]?).map fun s =>
      if reaches hash c.shards.length i call then s.step c.perShardBytes call else s := by
  unfold step
  rw [if_neg (by simp [h])]
  cases call with
  | get identity key =>
    simp only [get, h, Bool.false_eq_true, if_false]
    split <;> simp [reaches, shardFor, Shard.step, List.getElem?_modify]
  | _ => simp [reaches, shardFor, Shard.step, List.getElem?_modify]

theorem step_frame (c : GlobalKeyOffsetCache L) (call : CacheCall) :
    (c.step hash call).disabled = c.disabled ∧ (c.step hash call).perShardBytes = c.perShardBytes ∧
      (c.step hash call).shards.length = c.shards.length := by
  unfold step
  split
  · exact ⟨rfl, rfl, rfl⟩
  · cases call with
    | get identity key =>
      simp only [get]
      split
      · exact ⟨rfl, rfl, rfl⟩
      · split <;> simp
    | _ => simp

theorem run_shards {c : GlobalKeyOffsetCache L} (h : c.disabled = false) (i : Nat) :
    (Machine.run (step hash) c calls).disabled = false ∧
    (Machine.run (step hash) c calls).perShardBytes = c.perShardBytes ∧
    (Machine.run (step hash) c calls).shards.length = c.shards.length ∧
      (Machine.run (step hash) c calls).shards[i]? = (c.shards[i]?).map fun s =>
        Machine.run (Shard.step c.perShardBytes) s (calls.filter (reaches hash c.shards.length i)) := by
  induction calls generalizing c with
  | nil => simp [Machine.run, h]
  | cons call calls ih =>
    obtain ⟨hdisabled, hbytes, hlength⟩ := @step_frame L hash c call
    have hrest := ih (hdisabled.trans h)
    rw [hbytes, hlength, c.step_shards h, Option.map_map] at hrest
    refine ⟨hrest.1, hrest.2.1, hrest.2.2.1, hrest.2.2.2.trans ?_⟩
    rw [List.filter_cons]
    congr 1
    funext s
    simp only [Function.comp_apply]
    split <;> rfl

theorem after_shards (hcalls : calls.length < 2 ^ 64) :
    let c := after hash L totalBudgetBytes shardCount calls
    c.disabled = false ∧ 0 < c.shards.length ∧
      ∀ i < c.shards.length, ∃ s, c.shards[i]? = some s ∧ s.Shows (c.plain hash calls i) := by
  have hrun := @run_shards L hash calls (withBudgetAndShards L totalBudgetBytes shardCount) rfl
  intro c
  obtain ⟨hdisabled, hbytes, hlength, -⟩ : c.disabled = false ∧ c.perShardBytes = _ ∧
    c.shards.length = _ ∧ _ := hrun 0
  refine ⟨hdisabled, ?_, fun i hi => ?_⟩
  · rw [hlength]
    simpa [withBudgetAndShards] using Nat.pos_of_isPowerOfTwo (Nat.isPowerOfTwo_nextPowerOfTwo _)
  · rw [hlength] at hi
    have hnew : (withBudgetAndShards L totalBudgetBytes shardCount).shards[i]? = some .new := by
      simp only [withBudgetAndShards, List.length_replicate] at hi ⊢
      rw [List.getElem?_replicate, if_pos hi]
    refine ⟨_, (hrun i).2.2.2.trans (by rw [hnew]; rfl), ?_⟩
    rw [plain, hbytes, hlength]
    have hstart : (Shard.new : Shard L).Shows [] := ⟨[], ⟨fun _ => rfl, .nil, .nil, by simp, rfl⟩, rfl⟩
    refine hstart.run ?_
    have := List.length_filter_le (reaches hash
      (withBudgetAndShards L totalBudgetBytes shardCount).shards.length i) calls
    simp only [Shard.new]
    omega

theorem get_after (hcalls : calls.length < 2 ^ 64) (identity : GenerationIdentity) (key : Bytes) :
    let c := after hash L totalBudgetBytes shardCount calls
    (c.get hash identity key).1 =
      lookup (c.plain hash calls (c.shardFor hash identity key)) (identity, key) := by
  obtain ⟨hdisabled, hpos, hshards⟩ := @after_shards L hash totalBudgetBytes shardCount _ hcalls
  intro c
  have hindex : c.shardFor hash identity key < c.shards.length :=
    Nat.lt_of_le_of_lt Nat.and_le_right (Nat.sub_lt hpos Nat.one_pos)
  obtain ⟨s, hs, hshows⟩ := hshards _ hindex
  rw [get, if_neg (by simp [c, hdisabled])]
  simp only [c, hs, Option.bind_some]
  exact hshows.get identity key

/-- A list that does what the crate documents. -/
def listCache : LruCache where
  Cache := List (Bytes × CacheEntry)
  unbounded := []
  getMut c key f :=
    (lookup c key, ((lookup c key).map fun entry => touch key (f entry) c).getD c)
  put c key entry := (lookup c key, touch key entry c)
  peekLru := List.getLast?
  popLru c := (c.getLast?, c.dropLast)
  len := List.length
  isEmpty := List.isEmpty
  iter := id
  iter_unbounded := rfl
  getMut_fst _ _ _ := rfl
  iter_getMut _ _ _ := rfl
  put_fst _ _ _ := rfl
  iter_put _ _ _ := rfl
  peekLru_eq _ := rfl
  popLru_fst _ := rfl
  iter_popLru _ := rfl
  len_eq _ := rfl
  isEmpty_eq _ := rfl

def oldGeneration : GenerationIdentity := ⟨1, 10, 4096, 1, 0⟩

def newGeneration : GenerationIdentity := ⟨1, 11, 4096, 2, 0⟩

/-- Calls on two shards by the length of the key, with a budget for two entries each. -/
def twoGenerations : List CacheCall :=
  [.insert oldGeneration [1] ⟨7, 0⟩, .insert newGeneration [1] ⟨9, 0⟩, .get oldGeneration [1],
    .insert newGeneration [2] ⟨11, 0⟩, .insert oldGeneration [3, 3] ⟨13, 0⟩,
    .invalidate 0 oldGeneration]

/-- Splitting the entries by SSTable and stamping them loses nothing: a lookup answers as the plain
    cache of its shard does, and a shard counts that cache's bytes and entries, which are within its
    budget unless there is only one. -/
theorem cache_is_plain (L : LruCache) (hash : GenerationIdentity → Bytes → Nat)
    (totalBudgetBytes shardCount : Nat) {calls : List CacheCall} (hcalls : calls.length < 2 ^ 64) :
    let c := after hash L totalBudgetBytes shardCount calls
    (∀ identity key, (c.get hash identity key).1 =
      lookup (c.plain hash calls (c.shardFor hash identity key)) (identity, key)) ∧
    ∀ i s, c.shards[i]? = some s →
      s.currentBytes = weigh keyCost (c.plain hash calls i) ∧
        s.totalLen = (c.plain hash calls i).length ∧
        (s.currentBytes ≤ c.perShardBytes ∨ s.totalLen ≤ 1) := by
  obtain ⟨-, -, hshards⟩ := @after_shards L hash totalBudgetBytes shardCount _ hcalls
  intro c
  refine ⟨get_after hcalls, fun i s hs => ?_⟩
  obtain ⟨s', hs', l, htracks, hplain⟩ := hshards i (List.getElem?_eq_some_iff.mp hs).1
  obtain rfl : s = s' := Option.some.inj (hs.symm.trans hs')
  obtain ⟨-, hwithin⟩ := run_plainStep_within c.perShardBytes
    (calls.filter (reaches hash c.shards.length i))
  have hbytes : s.currentBytes = weigh keyCost (c.plain hash calls i) := by
    rw [htracks.bytes, ← hplain, weigh_map fun e : CacheEntry => e.loc]
  have hlen : s.totalLen = (c.plain hash calls i).length := by
    rw [htracks.totalLen_eq, ← hplain, List.length_map]
  exact ⟨hbytes, hlen, by rw [hbytes, hlen]; exact hwithin⟩

/-- The entry used least recently in both generations is gone. -/
theorem new_generation_evicted :
    let c := after (fun _ key => key.length) listCache 400 2 twoGenerations
    (c.get (fun _ key => key.length) newGeneration [1]).1 = none ∧
      c.plain (fun _ key => key.length) twoGenerations 1 =
        [((newGeneration, [2]), ⟨11, 0⟩), ((oldGeneration, [1]), ⟨7, 0⟩)] :=
  ⟨((cache_is_plain listCache (fun _ key => key.length) 400 2 (by decide)).1 newGeneration [1]).trans
    (by decide +kernel), by decide +kernel⟩

theorem run_latestStep {shardOf : CacheKey → Nat} {latest latest' : CacheKey → Option PartitionLoc}
    {count : Nat} (hk : shardOf k = hash k.1 k.2 &&& (count - 1)) (h : latest k = latest' k)
    (calls : List CacheCall) :
    Machine.run (latestStep shardOf) latest (calls.filter (reaches hash count (shardOf k))) k =
      Machine.run (latestStep shardOf) latest' calls k := by
  induction calls generalizing latest latest' with
  | nil => exact h
  | cons call calls ih =>
    rw [List.filter_cons]
    split
    · refine ih ?_
      cases call <;> simp [latestStep, Function.update_apply, h]
    · rename_i hnot
      refine ih (h.trans ?_)
      cases call with
      | get identity key => rfl
      | insert identity key loc =>
        refine (Function.update_of_ne ?_ ..).symm
        rintro rfl
        simp [reaches, hk] at hnot
      | invalidate i identity => exact (if_neg fun hid => hnot (by simp [reaches, hid.2])).symm
      | invalidateAll i => exact (if_neg fun hid => hnot (by simp [reaches, hid])).symm

/-- A hit is the location the key was given last, by a call since which its SSTable was not
    invalidated in its shard; a reader of another identity never gets it. -/
theorem hit_is_latest (L : LruCache) (hash : GenerationIdentity → Bytes → Nat)
    (totalBudgetBytes shardCount : Nat) {calls : List CacheCall} (hcalls : calls.length < 2 ^ 64)
    (identity : GenerationIdentity) (key : Bytes) :
    let c := after hash L totalBudgetBytes shardCount calls
    ∀ loc, (c.get hash identity key).1 = some loc →
      latestLoc (fun k => c.shardFor hash k.1 k.2) calls (identity, key) = some loc := by
  intro c loc hhit
  rw [get_after hcalls] at hhit
  have hstep : ∀ (l : PlainCache) (latest : CacheKey → Option PartitionLoc)
      (call : CacheCall), (∀ p ∈ l, latest p.1 = some p.2) →
      ∀ p ∈ plainStep c.perShardBytes l call,
        latestStep (fun k => c.shardFor hash k.1 k.2) latest call p.1 = some p.2 :=
    fun _ _ call h => plainStep_latest h _ call
  have hrouted : Machine.run (latestStep fun k => c.shardFor hash k.1 k.2) (fun _ => none)
      (calls.filter (reaches hash c.shards.length (c.shardFor hash identity key)))
      (identity, key) = some loc :=
    Machine.rel_of_run hstep (by simp) _ _ (mem_of_lookup hhit)
  rw [← hrouted]
  exact (run_latestStep rfl rfl calls).symm

theorem old_generation_latest :
    let c := after (fun _ key => key.length) listCache 400 2 twoGenerations
    latestLoc (fun k => c.shardFor (fun _ key => key.length) k.1 k.2) twoGenerations
      (oldGeneration, [1]) = some ⟨7, 0⟩ :=
  hit_is_latest listCache (fun _ key => key.length) 400 2 (by decide) oldGeneration [1] ⟨7, 0⟩
    (by decide +kernel)

/-- The working set stays: while the keys of a shard used since an insert fit its budget together
    with the inserted one, and its SSTable is not invalidated, the location is found. -/
theorem working_set_stays (L : LruCache) (hash : GenerationIdentity → Bytes → Nat)
    (totalBudgetBytes shardCount : Nat) (before since : List CacheCall) (k : CacheKey)
    (loc : PartitionLoc) (used : Finset CacheKey)
    (hlen : before.length + since.length + 1 < 2 ^ 64)
    (hfit : keyCost k + ∑ u ∈ used, keyCost u ≤
      (withBudgetAndShards L totalBudgetBytes shardCount).perShardBytes) :
    let c := after hash L totalBudgetBytes shardCount (before ++ .insert k.1 k.2 loc :: since)
    (∀ call ∈ since, reaches hash c.shards.length (c.shardFor hash k.1 k.2) call →
      call.Within used k) → (c.get hash k.1 k.2).1 = some loc := by
  intro c hsince
  rw [get_after (by rw [List.length_append, List.length_cons]; omega)]
  obtain ⟨-, hbytes, -⟩ : c.disabled = false ∧ c.perShardBytes = _ ∧ _ :=
    @run_shards L hash _ (withBudgetAndShards L totalBudgetBytes shardCount) rfl 0
  have hreached : reaches hash c.shards.length (c.shardFor hash k.1 k.2)
      (.insert k.1 k.2 loc) = true := by simp [reaches, shardFor]
  rw [← hbytes] at hfit
  rw [plain, List.filter_append, List.filter_cons, if_pos hreached, Machine.run, List.foldl_append,
    List.foldl_cons, ← Machine.run]
  have hstart : Kept used k loc (touch k loc (Machine.run (plainStep c.perShardBytes) []
      (before.filter (reaches hash c.shards.length (c.shardFor hash k.1 k.2))))) :=
    ⟨nodup_touch (run_plainStep_within _ _).1, [], _, rfl, by simp⟩
  suffices hkept : Kept used k loc _ from hkept.lookup
  exact List.foldlRecOn _ _ (hstart.trim hfit _) fun l h call hcall => h.step hfit
    (hsince call (List.mem_of_mem_filter hcall) (List.mem_filter.mp hcall).2)

/-- One other entry fits. -/
theorem old_generation_stays :
    ((after (fun _ key => key.length) listCache 400 2 [.insert newGeneration [1] ⟨9, 0⟩,
        .insert oldGeneration [1] ⟨7, 0⟩, .insert newGeneration [2] ⟨11, 0⟩]).get
      (fun _ key => key.length) oldGeneration [1]).1 = some ⟨7, 0⟩ :=
  working_set_stays listCache (fun _ key => key.length) 400 2 [.insert newGeneration [1] ⟨9, 0⟩]
    [.insert newGeneration [2] ⟨11, 0⟩] (oldGeneration, [1]) ⟨7, 0⟩ {(newGeneration, [2])}
    (by decide) (by decide +kernel) (by simp [CacheCall.Within, oldGeneration, newGeneration])

end GlobalKeyOffsetCache

end Cqlite
