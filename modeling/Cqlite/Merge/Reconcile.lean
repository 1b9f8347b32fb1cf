import Mathlib.Data.List.MinMax
import Cqlite.Merge.Model

/-! Reconciling one clustering-key group (`merge/reconcile.rs` and
    `reconcile_cluster_with_overlap_counted` in `merge/mod.rs`).

    The working set goes through the source's steps in the source's order: fold the deletions,
    resolve the cell winners, complex deletions, row deletion, dropped columns, TTL expiry, gc purge,
    build. The map of winners and its first-seen key order are one list here, a register per key.
    The purge tallies, which no decision reads, are left out. -/

namespace Cqlite

/-- What the merger hands every group: the effective gc cutoff, the overlap bound, the pinned clock
    and the dropped-column times. -/
structure MergeSettings where
  gcBefore : Option Int
  maxPurgeable : Int
  now : Option Int
  dropped : String → Option Int

namespace MergeSettings

/-- The purge gate shared by all five kinds of deletion: gc grace elapsed on the unsigned clock, and
    older than everything outside the compaction. -/
def purges (s : MergeSettings) (ts ldt : Int) : Bool :=
  s.gcBefore.any (fun gc => asU32 ldt < gc) && ts < s.maxPurgeable

/-- Nothing is purged, expired or dropped. -/
def keepAll : MergeSettings := ⟨none, i64Min, none, fun _ => none⟩

theorem purges_eq_false {s : MergeSettings} (h : s.gcBefore = none) (ts ldt : Int) :
    s.purges ts ldt = false := by simp [purges, h]

theorem lt_maxPurgeable_of_purges {s : MergeSettings} {ts ldt : Int} (h : s.purges ts ldt = true) :
    ts < s.maxPurgeable := by
  simp only [purges, Bool.and_eq_true, decide_eq_true_eq] at h
  exact h.2

end MergeSettings

/-! ### Per-cell decisions -/

/-- Dropped-column filter: only cells written strictly after the drop survive. -/
def survivesDrop (dropped : String → Option Int) (c : CellData) : Bool :=
  (dropped c.column).all (fun dropTime => dropTime < c.timestamp)

/-- An expiring cell whose expiry instant has passed. -/
def cellExpired (now : Option Int) (c : CellData) : Bool :=
  now.any fun n => !isCellTombstone c &&
    (c.ttl.isSome && c.localDeletionTime.any fun ldt => asU32 ldt ≤ n)

/-- The tombstone an expired cell turns into: its own timestamp, `localDeletionTime` at creation. -/
def expiredTombstone (c : CellData) : CellData :=
  let creationSecs := max 0 (asU32 (c.localDeletionTime.getD 0) - c.ttl.getD 0)
  { c with
    value := .tombstone ⟨c.timestamp, .cellTombstone, creationSecs, none, none, none⟩
    ttl := none
    isDeleted := c.isDeleted || c.isComplexElement
    localDeletionTime := some (asI32 creationSecs) }

def expireCell (now : Option Int) (c : CellData) : CellData :=
  if cellExpired now c then expiredTombstone c else c

/-- The gc/overlap purge of a cell tombstone; a cell with an unknown deletion time is kept. -/
def cellPurgeable (s : MergeSettings) (c : CellData) : Bool :=
  (isCellTombstone c || c.isDeleted) && (cellEffectiveLdt c).any (s.purges c.timestamp)

theorem cellPurgeable_eq_false {s : MergeSettings} (h : s.gcBefore = none) (c : CellData) :
    cellPurgeable s c = false := by
  unfold cellPurgeable
  cases cellEffectiveLdt c <;> simp [MergeSettings.purges_eq_false h]

/-- A complex element at or below the marker of its column is covered; a simple cell never is. -/
def survivesComplex (cds : List ComplexDeletion) (c : CellData) : Bool :=
  cds.all fun cd => cd.column ≠ c.column || c.cellPath.isNone ||
    elementSurvivesComplexDeletion c.timestamp cd.markedForDeleteAt

def survivesRowDel (rowDel : Option Int) (c : CellData) : Bool :=
  rowDel.all (fun d => d < c.timestamp)

/-- `iter().map(timestamp).max().unwrap_or(default)`. -/
def maxTimestamp (cells : List CellData) (default : Int) : Int :=
  ((cells.map (·.timestamp)).max?).getD default

/-- Deletions are ordered by `markedForDeleteAt` alone; an equal one does not replace. -/
def deletionSupersedes (a b : Deletion) : Bool := b.1 < a.1

/-! ### The working set -/

/-- The working set of one group. -/
structure ReconcileState where
  clusteringKey : Option ClusteringKey
  key : Option DecoratedKey
  runIndex : Nat
  rowDel : Option Int
  rowDelLdt : Int
  winners : List CellData
  complexDeletions : List ComplexDeletion
  rangeDeletion : Option RangeTombstone
  afterRowDel : List CellData
  surviving : List CellData
  hadDataBefore : Bool
  rowLiveness : RowLiveness

namespace ReconcileState

def new (clusteringKey : Option ClusteringKey) : ReconcileState :=
  ⟨clusteringKey, none, usizeMax, none, 0, [], [], none, [], [], false, .empty⟩

/-- A strictly newer row deletion replaces the current one together with its paired LDT. -/
def foldRowDeletion (st : ReconcileState) (d : Deletion) : ReconcileState :=
  if st.rowDel.all (fun cur => cur < d.1) then { st with rowDel := some d.1, rowDelLdt := d.2 }
  else st

/-- `if !contains(cd) { push(cd) }`. -/
def pushComplex (cds : List ComplexDeletion) (cd : ComplexDeletion) : List ComplexDeletion :=
  if cd ∈ cds then cds else cds ++ [cd]

/-- `rd.deletion_time > current.deletion_time`. -/
def rangeSupersedes (rd current : RangeTombstone) : Bool := current.deletionTime < rd.deletionTime

/-- The part of Step 1 that is not the row deletion: key, run, liveness, complex markers, range. -/
def foldCarried (st : ReconcileState) (entry : MergeEntry) : ReconcileState :=
  { st with
    key := st.key.or (some entry.key)
    runIndex := min st.runIndex entry.runIndex
    rowLiveness := st.rowLiveness.merge entry.rowLiveness
    complexDeletions := entry.complexDeletions.foldl pushComplex st.complexDeletions
    rangeDeletion := entry.rangeDeletion.toList.foldl (Lww.join rangeSupersedes) st.rangeDeletion }

/-- One iteration of Step 1: a deletion riding on a live entry counts before a row tombstone. -/
def foldEntry (st : ReconcileState) (entry : MergeEntry) : ReconcileState :=
  let st := st.foldCarried entry
  let st := entry.rowDeletion.elim st st.foldRowDeletion
  entry.rowTombstone.elim st st.foldRowDeletion

/-- Step 1: deletion metadata, liveness and the carry-through fields. -/
def foldRowDeletions (st : ReconcileState) (rows : List MergeEntry) : ReconcileState :=
  rows.foldl foldEntry st

/-- Step 2: one register per `(column, cell_path)`, entry by entry and cell by cell. -/
def resolveCellWinners (st : ReconcileState) (rows : List MergeEntry) : ReconcileState :=
  { st with
    winners := rows.foldl
      (fun ws entry => entry.cells.foldl (Lww.upsert CellData.cellKey cellWins) ws) st.winners }

/-- `complex_deletion_supersedes` on two markers of one column. -/
def complexSupersedes (cd existing : ComplexDeletion) : Bool :=
  complexDeletionSupersedes cd.markedForDeleteAt existing.markedForDeleteAt

/-- Step 2b: one marker per column (strict supersede), then drop the elements each covers. -/
def applyComplexDeletions (st : ReconcileState) : ReconcileState :=
  let active := Lww.winners ComplexDeletion.column complexSupersedes st.complexDeletions
  { st with
    complexDeletions := active
    winners := active.foldl (fun ws cd => ws.filter (survivesComplex [cd])) st.winners }

/-- Step 3: a cell survives the row deletion only when strictly newer. -/
def shadowByRowDeletion (st : ReconcileState) : ReconcileState :=
  { st with winners := [], afterRowDel := st.winners.filter (survivesRowDel st.rowDel) }

/-- Step 3b, with the phantom-row guard captured before any purge. -/
def filterDroppedColumns (st : ReconcileState) (dropped : String → Option Int) : ReconcileState :=
  { st with
    hadDataBefore := st.afterRowDel.any (isDataCell st.clusteringKey)
    surviving := st.afterRowDel.filter (survivesDrop dropped)
    afterRowDel := [] }

/-- Step 3b′. -/
def expireTtlCells (st : ReconcileState) (now : Option Int) : ReconcileState :=
  { st with surviving := st.surviving.map (expireCell now) }

/-- Step 3c: cell tombstones, the row deletion (LDT `0` is unknown and kept) and complex markers. -/
def purgeGcGrace (st : ReconcileState) (s : MergeSettings) : ReconcileState :=
  { st with
    surviving := st.surviving.filter (fun c => !cellPurgeable s c)
    rowDel := st.rowDel.filter (fun d => !(st.rowDelLdt != 0 && s.purges d st.rowDelLdt))
    complexDeletions := st.complexDeletions.filter
      (fun cd => !s.purges cd.markedForDeleteAt cd.localDeletionTime) }

/-- Step 4: the emitted entry before the carried metadata is attached. -/
def buildRow (st : ReconcileState) (key : DecoratedKey) : Option MergeEntry :=
  let hasDataAfter := st.surviving.any (isDataCell st.clusteringKey)
  let purgedToEmpty := st.hadDataBefore && !hasDataAfter
  if !st.surviving.isEmpty && !purgedToEmpty then
    let live := MergeEntry.new st.runIndex key st.clusteringKey (maxTimestamp st.surviving 0)
      (.live st.surviving)
    some (st.rowDel.elim live (fun dt => live.withRowDeletion dt st.rowDelLdt))
  else
    match st.rowDel with
    | some dt =>
      some (MergeEntry.new st.runIndex key st.clusteringKey dt (.tombstone dt st.rowDelLdt))
    | none =>
      if !st.complexDeletions.isEmpty || st.rangeDeletion.isSome then
        some (MergeEntry.new st.runIndex key st.clusteringKey 0 (.live []))
      else none

/-- Step 4: liveness, complex markers and range deletion are attached to whatever is emitted. -/
def attachMetadata (st : ReconcileState) (entry : MergeEntry) : MergeEntry :=
  let entry := entry.withRowLiveness st.rowLiveness
  let entry := if st.complexDeletions.isEmpty then entry
    else entry.withComplexDeletions st.complexDeletions
  st.rangeDeletion.elim entry entry.withRangeDeletion

def build (st : ReconcileState) : Option MergeEntry :=
  st.key.bind fun key => (st.buildRow key).map st.attachMetadata

end ReconcileState

/-- `KWayMerger::reconcile_cluster_with_overlap_counted`. -/
def reconcileCluster (s : MergeSettings) (clusteringKey : Option ClusteringKey)
    (clusterRows : List MergeEntry) : Option MergeEntry :=
  let st := ReconcileState.new clusteringKey
  let st := st.foldRowDeletions clusterRows
  let st := st.resolveCellWinners clusterRows
  if st.key.isSome then
    ((((st.applyComplexDeletions).shadowByRowDeletion).filterDroppedColumns s.dropped).expireTtlCells
      s.now).purgeGcGrace s |>.build
  else none

end Cqlite
