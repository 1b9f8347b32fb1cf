import Cqlite.Types
import Mathlib.Data.List.Pairwise

/-! The write buffer (`write_engine/memtable.rs`).

    A `BTreeMap` from decorated keys to the mutations of the partition is a list that is sorted by
    key; the field `sorted` keeps it so. The size of a mutation is a parameter: the estimator walks
    the values of a mutation, and nothing here depends on how. The creation time is left out. -/

namespace Cqlite

/-- Decorated keys in map order. -/
def DecoratedKey.Before (a b : DecoratedKey) : Prop := DecoratedKey.cmp a b = .lt

theorem DecoratedKey.cmp_gt {a b : DecoratedKey} : DecoratedKey.cmp a b = .gt ↔ b.Before a := by
  have := decoratedKey_transCmp
  exact Std.OrientedCmp.gt_iff_lt

theorem DecoratedKey.Before.trans {a b c : DecoratedKey} (hab : a.Before b) (hbc : b.Before c) :
    a.Before c := by
  have := decoratedKey_transCmp
  exact Std.TransCmp.lt_trans hab hbc

theorem DecoratedKey.Before.token_le {a b : DecoratedKey} (h : a.Before b) : a.token ≤ b.token := by
  rw [DecoratedKey.Before, DecoratedKey.cmp, Ordering.then_eq_lt] at h
  rcases h with h | ⟨h, -⟩
  · exact Int.le_of_lt (Int.compare_eq_lt.mp h)
  · exact Int.le_of_eq (Int.compare_eq_eq.mp h)

theorem DecoratedKey.Before.ne {a b : DecoratedKey} (h : a.Before b) : a ≠ b := by
  rintro rfl
  rw [DecoratedKey.Before, decoratedKey_cmp_eq.mpr rfl] at h
  cases h

section

variable {μ : Type*}

/-- A partition of the memtable: its key and its mutations in arrival order. -/
abbrev MemPartition (μ : Type*) := DecoratedKey × List μ

/-- Partitions in map order, each key once. -/
def SortedByKey (data : List (MemPartition μ)) : Prop :=
  data.Pairwise fun a b => a.1.Before b.1

/-- `BTreeMap::entry(key).or_default().push(mutation)`. -/
def entryPush : List (MemPartition μ) → DecoratedKey → μ → List (MemPartition μ)
  | [], key, m => [(key, [m])]
  | (k, ms) :: rest, key, m =>
    match DecoratedKey.cmp key k with
    | .lt => (key, [m]) :: (k, ms) :: rest
    | .eq => (k, ms ++ [m]) :: rest
    | .gt => (k, ms) :: entryPush rest key m

theorem mem_keys_entryPush {data : List (MemPartition μ)} {key k : DecoratedKey} {m : μ} :
    k ∈ (entryPush data key m).map (·.1) ↔ k = key ∨ k ∈ data.map (·.1) := by
  induction data with
  | nil => simp [entryPush]
  | cons p rest ih =>
    obtain ⟨k', ms⟩ := p
    rw [entryPush]
    cases hc : DecoratedKey.cmp key k' with
    | lt => simp
    | eq =>
      obtain rfl : key = k' := decoratedKey_cmp_eq.mp hc
      simp
    | gt =>
      rw [List.map_cons, List.mem_cons, ih, List.map_cons, List.mem_cons]
      exact or_left_comm

/-- A push keeps the key order. -/
theorem sortedByKey_entryPush {data : List (MemPartition μ)} (h : SortedByKey data)
    (key : DecoratedKey) (m : μ) : SortedByKey (entryPush data key m) := by
  induction data with
  | nil => simp [entryPush, SortedByKey]
  | cons p rest ih =>
    obtain ⟨k, ms⟩ := p
    obtain ⟨hk, hrest⟩ := List.pairwise_cons.mp h
    rw [entryPush]
    cases hc : DecoratedKey.cmp key k with
    | lt =>
      refine List.pairwise_cons.mpr ⟨fun q hq => ?_, h⟩
      rcases List.mem_cons.mp hq with rfl | hq
      · exact hc
      · exact DecoratedKey.Before.trans hc (hk q hq)
    | eq => exact List.pairwise_cons.mpr ⟨hk, hrest⟩
    | gt =>
      refine List.pairwise_cons.mpr ⟨fun q hq => ?_, ih hrest⟩
      -- a key of the pushed tail is the new one or an old one, and both come after `k`
      rcases mem_keys_entryPush.mp (List.mem_map_of_mem hq) with heq | hmem
      · rw [heq]
        exact DecoratedKey.cmp_gt.mp hc
      · obtain ⟨q', hq', heq⟩ := List.mem_map.mp hmem
        rw [← heq]
        exact hk q' hq'

/-- The memtable: sorted partitions, and the size and row counters. -/
structure Memtable (μ : Type*) where
  data : List (MemPartition μ)
  sizeBytes : Nat
  rowCount : Nat
  sorted : SortedByKey data

namespace Memtable

/-- `usize::saturating_add`. -/
def saturatingAdd (a b : Nat) : Nat := min usizeMax (a + b)

def new : Memtable μ := ⟨[], 0, 0, List.Pairwise.nil⟩

/-- `insert_with_key`, which never fails; `size` is the estimate of the mutation. -/
def insertWithKey (t : Memtable μ) (size : μ → Nat) (key : DecoratedKey) (m : μ) : Memtable μ where
  data := entryPush t.data key m
  sizeBytes := saturatingAdd t.sizeBytes (size m)
  rowCount := saturatingAdd t.rowCount 1
  sorted := sortedByKey_entryPush t.sorted key m

def isEmpty (t : Memtable μ) : Bool := t.data.isEmpty

def shouldFlush (t : Memtable μ) (threshold : Nat) : Bool := threshold ≤ t.sizeBytes

def clear (_ : Memtable μ) : Memtable μ := new

/-- The memtable after a list of inserts. -/
def insertAll (size : μ → Nat) (inserts : List (DecoratedKey × μ)) (t : Memtable μ) : Memtable μ :=
  inserts.foldl (fun t i => t.insertWithKey size i.1 i.2) t

/-- The partitions of a memtable are those it had and those inserted into. -/
theorem mem_keys_insertAll {size : μ → Nat} {inserts : List (DecoratedKey × μ)} {t : Memtable μ}
    {k : DecoratedKey} :
    k ∈ (insertAll size inserts t).data.map (·.1) ↔
      k ∈ inserts.map (·.1) ∨ k ∈ t.data.map (·.1) := by
  induction inserts generalizing t with
  | nil => simp [insertAll]
  | cons i inserts ih =>
    have hstep : insertAll size (i :: inserts) t = insertAll size inserts (t.insertWithKey size i.1 i.2) :=
      rfl
    rw [hstep, ih, insertWithKey, mem_keys_entryPush, List.map_cons, List.mem_cons]
    exact or_left_comm.trans (or_assoc).symm

end Memtable

end

end Cqlite
