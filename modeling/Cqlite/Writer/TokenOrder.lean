import Cqlite.Engine.Memtable
import Cqlite.Engine.Murmur3

/-! The partition order check of the writer (`writer/mod.rs`, `writer/incremental.rs`) and the flush
    loop that feeds it (`write_engine/mod.rs`).

    What a partition puts into the component files is a parameter `emit`, and I/O failures are left
    out: the only error here is the order check. -/

namespace Cqlite

section

variable {μ β : Type}

/-- The part of an `SSTableWriter` the order check reads, and the partitions written so far. -/
structure PartitionLog (β : Type) where
  lastToken : Option Int
  written : List (DecoratedKey × β)

def PartitionLog.fresh : PartitionLog β := ⟨none, []⟩

/-- The check that opens every partition. -/
def checkTokenOrder (lastToken : Option Int) (key : DecoratedKey) : Except Error Unit :=
  match lastToken with
  | some last =>
    if key.token ≤ last then
      .error (.invalidInput ("Partitions must be written in token order: got token " ++
        toString key.token ++ " after " ++ toString last))
    else .ok ()
  | none => .ok ()

/-- Check, remember the token, write. -/
def orderedPartition (emit : DecoratedKey → List μ → β) (w : PartitionLog β) (key : DecoratedKey)
    (mutations : List μ) : Except Error (PartitionLog β) := do
  checkTokenOrder w.lastToken key
  return ⟨some key.token, w.written ++ [(key, emit key mutations)]⟩

/-- `SSTableWriter::write_partition`. -/
def writePartition (emit : DecoratedKey → List μ → β) (w : PartitionLog β) (key : DecoratedKey)
    (mutations : List μ) : Except Error (PartitionLog β) :=
  orderedPartition emit w key mutations

/-- `begin_partition_incremental`, its session fed the mutations and completed. -/
def incrementalPartition (emit : DecoratedKey → List μ → β) (w : PartitionLog β)
    (key : DecoratedKey) (mutations : List μ) : Except Error (PartitionLog β) :=
  orderedPartition emit w key mutations

/-- `begin_streaming_partition`, its session fed the mutations and completed. -/
def streamingPartition (emit : DecoratedKey → List μ → β) (w : PartitionLog β) (key : DecoratedKey)
    (mutations : List μ) : Except Error (PartitionLog β) :=
  orderedPartition emit w key mutations

/-- The three ways into the writer. -/
inductive PartitionEntry where
  | whole
  | incremental
  | streaming

def PartitionEntry.write (emit : DecoratedKey → List μ → β) :
    PartitionEntry → PartitionLog β → DecoratedKey → List μ → Except Error (PartitionLog β)
  | .whole => writePartition emit
  | .incremental => incrementalPartition emit
  | .streaming => streamingPartition emit

theorem PartitionEntry.write_eq (emit : DecoratedKey → List μ → β) (entry : PartitionEntry) :
    entry.write emit = orderedPartition emit := by
  cases entry <;> rfl

/-- The flush loop: one partition after the other, the first error ends it. -/
def writePartitions (emit : DecoratedKey → List μ → β) (entry : PartitionEntry)
    (w : PartitionLog β) (data : List (MemPartition μ)) : Except Error (PartitionLog β) :=
  data.foldlM (fun w p => entry.write emit w p.1 p.2) w

/-- `flush_internal_async` up to `finish`: a fresh writer takes the memtable in map order. -/
def flushPartitions (emit : DecoratedKey → List μ → β) (entry : PartitionEntry) (t : Memtable μ) :
    Except Error (PartitionLog β) :=
  writePartitions emit entry .fresh t.data

/-! ### When the check passes -/

theorem checkTokenOrder_ok_iff {last : Option Int} {key : DecoratedKey} :
    checkTokenOrder last key = .ok () ↔ ∀ t ∈ last, t < key.token := by
  cases last with
  | none => simp [checkTokenOrder]
  | some t =>
    rw [checkTokenOrder]
    split <;> simp <;> omega

/-- A partition is written exactly when its token is above the last one. -/
theorem orderedPartition_ok_iff {emit : DecoratedKey → List μ → β} {w w' : PartitionLog β}
    {key : DecoratedKey} {ms : List μ} :
    orderedPartition emit w key ms = .ok w' ↔
      (∀ t ∈ w.lastToken, t < key.token) ∧
        w' = ⟨some key.token, w.written ++ [(key, emit key ms)]⟩ := by
  rw [← checkTokenOrder_ok_iff, orderedPartition]
  cases checkTokenOrder w.lastToken key with
  | error e => simp [bind, Except.bind]
  | ok u => simp [bind, Except.bind, pure, Except.pure, eq_comm]

/-- What the writer holds once the partitions are in. -/
def PartitionLog.filled (emit : DecoratedKey → List μ → β) (w : PartitionLog β)
    (data : List (MemPartition μ)) : List (DecoratedKey × β) :=
  w.written ++ data.map fun p => (p.1, emit p.1 p.2)

/-- The loop takes all partitions exactly when their tokens increase strictly. -/
theorem writePartitions_ok_iff {emit : DecoratedKey → List μ → β} {entry : PartitionEntry}
    {data : List (MemPartition μ)} {w : PartitionLog β} :
    (∃ w', writePartitions emit entry w data = .ok w' ∧ w'.written = w.filled emit data) ↔
      (∀ t ∈ w.lastToken, ∀ p ∈ data, t < p.1.token) ∧
        data.Pairwise fun a b => a.1.token < b.1.token := by
  induction data generalizing w with
  | nil => simp [writePartitions, PartitionLog.filled, pure, Except.pure]
  | cons p data ih =>
    have hstep : writePartitions emit entry w (p :: data) =
        orderedPartition emit w p.1 p.2 >>= fun w' => writePartitions emit entry w' data := by
      simp only [writePartitions, List.foldlM_cons, PartitionEntry.write_eq]
    have hrest : (∃ w', writePartitions emit entry
          ⟨some p.1.token, w.written ++ [(p.1, emit p.1 p.2)]⟩ data = .ok w' ∧
            w'.written = w.filled emit (p :: data)) ↔
        (∀ q ∈ data, p.1.token < q.1.token) ∧ data.Pairwise fun a b => a.1.token < b.1.token := by
      simpa [PartitionLog.filled] using @ih ⟨some p.1.token, w.written ++ [(p.1, emit p.1 p.2)]⟩
    rw [hstep, List.pairwise_cons]
    constructor
    · rintro ⟨w', hw', hfill⟩
      cases hp : orderedPartition emit w p.1 p.2 with
      | error e => simp [hp, bind, Except.bind] at hw'
      | ok w₁ =>
        obtain ⟨hlast, rfl⟩ := orderedPartition_ok_iff.mp hp
        rw [hp] at hw'
        obtain ⟨htail, hpw⟩ := hrest.mp ⟨w', hw', hfill⟩
        refine ⟨fun t ht q hq => ?_, htail, hpw⟩
        rcases List.mem_cons.mp hq with rfl | hq
        · exact hlast t ht
        · exact Int.lt_trans (hlast t ht) (htail q hq)
    · rintro ⟨hlast, hhead, hpw⟩
      have hp : orderedPartition emit w p.1 p.2 = .ok _ :=
        orderedPartition_ok_iff.mpr ⟨fun t ht => hlast t ht p List.mem_cons_self, rfl⟩
      rw [hp]
      exact hrest.mpr ⟨hhead, hpw⟩

/-- Map order has strictly increasing tokens exactly when no two of its keys share one. -/
theorem SortedByKey.tokens_increase_iff {data : List (MemPartition μ)} (h : SortedByKey data) :
    (data.Pairwise fun a b => a.1.token < b.1.token) ↔
      ∀ a ∈ data.map (·.1), ∀ b ∈ data.map (·.1), a.token = b.token → a = b := by
  constructor
  · intro hlt
    -- both orders of two partitions are covered, since sharing a token is symmetric
    have hsymm : Std.Symm fun a b : DecoratedKey => a.token = b.token → a = b :=
      ⟨fun a b hab heq => (hab heq.symm).symm⟩
    have hne : (data.map (·.1)).Pairwise fun a b => a.token = b.token → a = b :=
      List.pairwise_map.mpr (hlt.imp fun hab heq => absurd heq (Int.ne_of_lt hab))
    intro a ha b hb
    exact hne.forall_of_forall (fun x _ _ => rfl) ha hb
  · intro hinj
    refine h.imp_of_mem fun {a b} ha hb hab => ?_
    have hne : a.1.token ≠ b.1.token := fun heq =>
      hab.ne (hinj a.1 (List.mem_map_of_mem ha) b.1 (List.mem_map_of_mem hb) heq)
    exact Int.lt_iff_le_and_ne.mpr ⟨hab.token_le, hne⟩

/-- A flush of a memtable filled by inserts writes every partition, in key order, exactly when no
    two distinct inserted keys share a token. -/
theorem flush_writes_all_iff (emit : DecoratedKey → List μ → β) (entry : PartitionEntry)
    (size : μ → Nat) (inserts : List (DecoratedKey × μ)) :
    (∃ w, flushPartitions emit entry (Memtable.insertAll size inserts .new) = .ok w ∧
      w.written = (Memtable.insertAll size inserts .new).data.map fun p => (p.1, emit p.1 p.2)) ↔
      ∀ a ∈ inserts.map (·.1), ∀ b ∈ inserts.map (·.1), a.token = b.token → a = b := by
  have hkeys : ∀ k, k ∈ (Memtable.insertAll size inserts .new).data.map (·.1) ↔
      k ∈ inserts.map (·.1) := by
    intro k
    simp [Memtable.mem_keys_insertAll, Memtable.new]
  have hrun := @writePartitions_ok_iff μ β emit entry
    (Memtable.insertAll size inserts .new).data .fresh
  rw [Memtable.sorted _ |>.tokens_increase_iff] at hrun
  simpa [PartitionLog.filled, PartitionLog.fresh, flushPartitions, hkeys] using hrun

end

/-! ### Two keys of one token -/

/-- Two blob keys whose Murmur3 token is 0. -/
def collidingKeys : Bytes × Bytes :=
  ([94, 208, 184, 147, 241, 12, 8, 140, 207, 14, 0, 123, 246, 237, 191, 97],
    [112, 61, 251, 102, 229, 43, 239, 207, 50, 15, 65, 7, 40, 110, 178, 22])

/-- One insert into each of the two partitions. -/
def collidingInserts : List (DecoratedKey × Unit) :=
  [(.fromKeyBytes collidingKeys.1, ()), (.fromKeyBytes collidingKeys.2, ())]

/-- The flush of two partitions of one token is refused, by every way into the writer. -/
theorem colliding_flush_refused :
    collidingKeys.1 ≠ collidingKeys.2 ∧
    ∀ entry : PartitionEntry,
      flushPartitions (fun _ ms => ms.length) entry
        (Memtable.insertAll (fun _ => 1) collidingInserts .new) =
      .error (.invalidInput "Partitions must be written in token order: got token 0 after 0") := by
  have hone : calculateMurmur3Token collidingKeys.1 = 0 := by decide +kernel
  have htwo : calculateMurmur3Token collidingKeys.2 = 0 := by decide +kernel
  refine ⟨by decide, fun entry => ?_⟩
  rw [flushPartitions, writePartitions, PartitionEntry.write_eq, collidingInserts,
    DecoratedKey.fromKeyBytes, DecoratedKey.fromKeyBytes, hone, htwo]
  rfl

end Cqlite
