import Cqlite.Lib.KWay
import Cqlite.Merge.Partition

/-! The k-way merger over its runs (`merge/mod.rs`: `RunReader`, `KWayMerger::step`, and the heap
    order of `merge/schema_order.rs`).

    A reader may fail at any entry, so every operation returns its verdict together with the state
    it leaves behind. The heap holds at most one entry per run, and no two of them compare equal, so
    a list with a minimum stands for it. `current_partition` is never assigned and is left out. -/

namespace Cqlite

/-! ### Reading one run -/

/-- The error of a row iterator. -/
structure ReadError where
  code : Nat
  deriving DecidableEq, Repr

/-- A buffered run: what the iterator will still return, the FIFO buffer and the end flag. -/
structure RunReader where
  source : List (Except ReadError MergeEntry)
  buffer : List MergeEntry
  exhausted : Bool

namespace RunReader

/-- `DEFAULT_BUFFER_SIZE`, in estimated bytes. -/
def bufferSize : Nat := 8 * 1024

/-- A run that has not been read. -/
def new (source : List (Except ReadError MergeEntry)) : RunReader := ⟨source, [], false⟩

/-- `refill_buffer`: read on until the estimate reaches the buffer size. An error leaves the entries
    read before it in the buffer. -/
def refillBuffer (size : MergeEntry → Nat) :
    Nat → List MergeEntry → List (Except ReadError MergeEntry) → Except ReadError Unit × RunReader
  | bytes, buffer, [] =>
    if bytes < bufferSize then (.ok (), ⟨[], buffer, true⟩) else (.ok (), ⟨[], buffer, false⟩)
  | bytes, buffer, .ok entry :: source =>
    if bytes < bufferSize then refillBuffer size (bytes + size entry) (buffer ++ [entry]) source
    else (.ok (), ⟨.ok entry :: source, buffer, false⟩)
  | bytes, buffer, .error x :: source =>
    if bytes < bufferSize then (.error x, ⟨source, buffer, false⟩)
    else (.ok (), ⟨.error x :: source, buffer, false⟩)

/-- `pop_front` on the buffer. -/
def popFront (run : RunReader) : Option MergeEntry × RunReader :=
  match run.buffer with
  | entry :: buffer => (some entry, { run with buffer := buffer })
  | [] => (none, run)

/-- `advance`: the buffer first, then one refill unless the run has ended. -/
def advance (size : MergeEntry → Nat) (run : RunReader) :
    Except ReadError (Option MergeEntry) × RunReader :=
  match run.popFront with
  | (some entry, run) => (.ok (some entry), run)
  | (none, run) =>
    if run.exhausted then (.ok none, run)
    else
      match refillBuffer size 0 [] run.source with
      | (.error x, run) => (.error x, run)
      | (.ok (), run) => (.ok run.popFront.1, run.popFront.2)

def isExhausted (run : RunReader) : Bool := run.exhausted && run.buffer.isEmpty

/-- The entries the run may still deliver. -/
def remaining (run : RunReader) : Nat := run.buffer.length + run.source.length

theorem refillBuffer_remaining (size : MergeEntry → Nat) (bytes : Nat) (buffer : List MergeEntry)
    (source : List (Except ReadError MergeEntry)) :
    (refillBuffer size bytes buffer source).2.remaining ≤ buffer.length + source.length := by
  induction source generalizing bytes buffer with
  | nil => rw [refillBuffer]; split <;> simp [remaining]
  | cons item source ih =>
    cases item with
    | ok entry =>
      rw [refillBuffer]
      split
      · refine (ih _ _).trans ?_
        simp
        omega
      · simp [remaining]
    | error x =>
      rw [refillBuffer]
      split
      · simp [remaining]
      · simp [remaining]

theorem popFront_remaining (run : RunReader) :
    run.popFront.2.remaining + run.popFront.1.toList.length = run.remaining := by
  unfold popFront remaining
  cases hb : run.buffer with
  | nil => simp [hb]
  | cons entry buffer =>
    simp
    omega

/-- Advancing never adds entries, and a returned entry is gone from the run. -/
theorem advance_remaining (size : MergeEntry → Nat) (run : RunReader) :
    (run.advance size).2.remaining +
      (match (run.advance size).1 with
        | .ok (some _) => 1
        | _ => 0) ≤ run.remaining := by
  have hpop := run.popFront_remaining
  unfold advance
  cases hp : run.popFront with
  | mk front rest =>
    rw [hp] at hpop
    cases front with
    | some entry => simpa using hpop.le
    | none =>
      simp only [Option.toList_none, List.length_nil, Nat.add_zero] at hpop
      simp only
      split
      · simpa using hpop.le
      · have hfill := refillBuffer_remaining size 0 [] rest.source
        cases hr : refillBuffer size 0 [] rest.source with
        | mk verdict filled =>
          rw [hr] at hfill
          have hsrc : rest.source.length ≤ rest.remaining := by simp [remaining]
          simp only [List.length_nil, Nat.zero_add] at hfill
          cases verdict with
          | error x => simp only; omega
          | ok u =>
            have hpop' := filled.popFront_remaining
            simp only
            cases hf : filled.popFront.1 with
            | none => rw [hf] at hpop'; simp at hpop' ⊢; omega
            | some entry => rw [hf] at hpop'; simp at hpop' ⊢; omega

end RunReader

/-! ### The heap -/

section Heap

variable [DebugFmt]

/-- `SchemaOrderedEntry::cmp`: partition, clustering key (absent first), run index. -/
def entryCmp (schema : TableSchema) (a b : MergeEntry) : Ordering :=
  (DecoratedKey.cmp a.key b.key).then ((rowCmp schema a b).then (compare a.runIndex b.runIndex))

/-- `pop` of the min-heap: the least entry and the rest. -/
def popMin (schema : TableSchema) (heap : List MergeEntry) : Option (MergeEntry × List MergeEntry) :=
  KWay.popMin (entryCmp schema) heap

end Heap

/-! ### The merger -/

/-- The mutable part of `KWayMerger`. -/
structure MergerState where
  heap : List MergeEntry
  runs : List RunReader

variable {m m' : MergerState} {schema : TableSchema}

namespace MergerState

/-- The entries still to be delivered. -/
def remaining (m : MergerState) : Nat := m.heap.length + (m.runs.map RunReader.remaining).sum

/-- `refill_heap`: one entry of the run moves to the heap. -/
def refillHeap (size : MergeEntry → Nat) (m : MergerState) (runIndex : Nat) :
    Except ReadError Unit × MergerState :=
  match m.runs[runIndex]? with
  | none => (.ok (), m)
  | some run =>
    if run.isExhausted then (.ok (), m)
    else
      match run.advance size with
      | (.error x, run) => (.error x, { m with runs := m.runs.set runIndex run })
      | (.ok none, run) => (.ok (), { m with runs := m.runs.set runIndex run })
      | (.ok (some entry), run) =>
        (.ok (), ⟨m.heap ++ [entry], m.runs.set runIndex run⟩)

/-- `initialize_heap`: refill from every run, stopping at the first error. -/
def initializeHeap (size : MergeEntry → Nat) (m : MergerState) : Except ReadError Unit × MergerState :=
  (List.range m.runs.length).foldl
    (fun (verdict, m) i =>
      match verdict with
      | .ok () => m.refillHeap size i
      | .error x => (.error x, m))
    (.ok (), m)

variable [DebugFmt]

/-- `peek`, `pop` and the refill that follows every pop. -/
def pull (schema : TableSchema) (size : MergeEntry → Nat) (m : MergerState) :
    Option (MergeEntry × Except ReadError Unit × MergerState) :=
  match popMin schema m.heap with
  | none => none
  | some (entry, rest) => some (entry, (MergerState.mk rest m.runs).refillHeap size entry.runIndex)

omit [DebugFmt] in
theorem sum_set_remaining {runs : List RunReader} {i : Nat} {run : RunReader}
    (h : runs[i]? = some run) (run' : RunReader) :
    ((runs.set i run').map RunReader.remaining).sum + run.remaining =
      (runs.map RunReader.remaining).sum + run'.remaining := by
  induction runs generalizing i with
  | nil => simp at h
  | cons a runs ih =>
    cases i with
    | zero =>
      obtain rfl : a = run := by simpa using h
      simp
      omega
    | succ i =>
      have := ih (i := i) (by simpa using h)
      simp only [List.set_cons_succ, List.map_cons, List.sum_cons]
      omega

omit [DebugFmt] in
theorem refillHeap_remaining (size : MergeEntry → Nat) (m : MergerState) (i : Nat) :
    (m.refillHeap size i).2.remaining ≤ m.remaining := by
  unfold refillHeap
  cases hr : m.runs[i]? with
  | none => simp
  | some run =>
    simp only
    split
    · exact le_rfl
    · have hadv := run.advance_remaining size
      cases ha : run.advance size with
      | mk verdict run' =>
        rw [ha] at hadv
        have hsum := sum_set_remaining hr run'
        cases verdict with
        | error x => simp only [remaining] at *; omega
        | ok e =>
          cases e with
          | none => simp only [remaining] at *; omega
          | some e => simp only [remaining, List.length_append, List.length_singleton] at *; omega

theorem pull_remaining {size : MergeEntry → Nat} {entry : MergeEntry}
    {verdict : Except ReadError Unit} (h : m.pull schema size = some (entry, verdict, m')) :
    m'.remaining < m.remaining := by
  unfold pull at h
  cases hp : popMin schema m.heap with
  | none => rw [hp] at h; cases h
  | some q =>
    obtain ⟨least, rest⟩ := q
    rw [hp] at h
    simp only [Option.some.injEq, Prod.mk.injEq] at h
    have hlen := (KWay.popMin_perm hp).length_eq
    have hrefill := refillHeap_remaining size ⟨rest, m.runs⟩ least.runIndex
    rw [h.2] at hrefill
    simp only [remaining, List.length_cons] at *
    omega

end MergerState

/-! ### Buffered steps -/

/-- What `KWayMerger::step` yields. -/
inductive MergeStep
  | partition (key : DecoratedKey) (rows : List MergeEntry)
  | complete

section Step

variable [DebugFmt]

/-- The `while let` loop of `step`: pull every entry of the partition. An error drops the rows
    collected so far. -/
def collectPartition (schema : TableSchema) (size : MergeEntry → Nat) (key : DecoratedKey)
    (m : MergerState) (rows : List MergeEntry) : Except ReadError (List MergeEntry) × MergerState :=
  match _h : m.pull schema size with
  | none => (.ok rows, m)
  | some (entry, verdict, m') =>
    if entry.key = key then
      match verdict with
      | .ok () => collectPartition schema size key m' (rows ++ [entry])
      | .error x => (.error x, m')
    else (.ok rows, m)
termination_by m.remaining
decreasing_by exact MergerState.pull_remaining ‹_›

theorem collectPartition_none {size : MergeEntry → Nat} {key : DecoratedKey}
    {rows : List MergeEntry} (h : m.pull schema size = none) :
    collectPartition schema size key m rows = (.ok rows, m) := by
  rw [collectPartition]
  split
  · rfl
  · rename_i h'
    rw [h] at h'
    cases h'

theorem collectPartition_some {size : MergeEntry → Nat} {key : DecoratedKey}
    {rows : List MergeEntry} {entry : MergeEntry}
    (h : m.pull schema size = some (entry, .ok (), m')) :
    collectPartition schema size key m rows =
      if entry.key = key then collectPartition schema size key m' (rows ++ [entry])
      else (.ok rows, m) := by
  rw [collectPartition]
  split
  · rename_i h'
    rw [h] at h'
    cases h'
  · rename_i h'
    rw [h] at h'
    cases h'
    rfl

/-- The heap is filled when it is found empty. -/
def ensureHeap (size : MergeEntry → Nat) (m : MergerState) : Except ReadError Unit × MergerState :=
  if m.heap.isEmpty then m.initializeHeap size else (.ok (), m)

/-- `KWayMerger::step`. -/
def step (cfg : MergerConfig) (size : MergeEntry → Nat) (m : MergerState) :
    Except ReadError MergeStep × MergerState :=
  match ensureHeap size m with
  | (.error x, m) => (.error x, m)
  | (.ok (), m) =>
    match popMin cfg.schema m.heap with
    | none => (.ok .complete, m)
    | some (top, _) =>
      match collectPartition cfg.schema size top.key m [] with
      | (.ok rows, m) => (.ok (.partition top.key (mergePartitionRows cfg rows)), m)
      | (.error x, m) => (.error x, m)

end Step

end Cqlite
