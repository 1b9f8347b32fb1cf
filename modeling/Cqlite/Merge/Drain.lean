import Cqlite.Merge.Streaming

/-! Draining both mergers over runs that can be read to their end.

    Both mergers pull the same entries in the same order, `popOrder`, and cut it at the same places.
    What either yields for a partition is then a function of the partition's segment alone. -/

namespace Cqlite

open KWay (Feed)

/-! ### Runs without errors -/

/-- The run delivers exactly `l`. -/
def RunReader.Holds (run : RunReader) (l : List MergeEntry) : Prop :=
  ∃ source : List MergeEntry, run.source = source.map .ok ∧ l = run.buffer ++ source ∧
    (run.exhausted = true → source = [])

namespace RunReader

theorem refillBuffer_ok (size : MergeEntry → Nat) (bytes : Nat) (buffer source : List MergeEntry) :
    ∃ run, refillBuffer size bytes buffer (source.map .ok) = (.ok (), run) ∧
      run.Holds (buffer ++ source) ∧
      (bytes < bufferSize → source ≠ [] → run.buffer ≠ []) ∧ (buffer ≠ [] → run.buffer ≠ []) := by
  induction source generalizing bytes buffer with
  | nil =>
    rw [List.map_nil, refillBuffer]
    split
    · exact ⟨_, rfl, ⟨[], rfl, rfl, fun _ => rfl⟩, fun _ h => absurd rfl h, id⟩
    · exact ⟨_, rfl, ⟨[], rfl, rfl, fun _ => rfl⟩, fun _ h => absurd rfl h, id⟩
  | cons entry source ih =>
    rw [List.map_cons, refillBuffer]
    split
    · obtain ⟨run, hrun, hholds, -, hbuf⟩ := ih (bytes + size entry) (buffer ++ [entry])
      exact ⟨run, hrun, by simpa using hholds, fun _ _ => hbuf (by simp), fun _ => hbuf (by simp)⟩
    · rename_i hfull
      refine ⟨_, rfl, ⟨entry :: source, rfl, rfl, fun h => by cases h⟩, fun h => absurd h hfull, id⟩

/-- Refills of the buffer are not seen. -/
theorem Holds.advance {run : RunReader} {l : List MergeEntry} (h : run.Holds l)
    (size : MergeEntry → Nat) :
    ∃ run', run.advance size = (.ok l.head?, run') ∧ run'.Holds l.tail := by
  obtain ⟨source, hsource, rfl, hend⟩ := h
  unfold RunReader.advance popFront
  cases hb : run.buffer with
  | cons entry buffer => exact ⟨_, rfl, source, hsource, rfl, hend⟩
  | nil =>
    simp only [List.nil_append]
    by_cases hex : run.exhausted = true
    · rw [if_pos hex]
      obtain rfl := hend hex
      exact ⟨run, rfl, [], hsource, by simp [hb], hend⟩
    · rw [if_neg hex, hsource]
      obtain ⟨run', hrun, ⟨source', hsource', hl, hend'⟩, hne, -⟩ := refillBuffer_ok size 0 [] source
      rw [hrun]
      simp only [List.nil_append] at hl
      cases hb' : run'.buffer with
      | nil =>
        have hnil : source = [] := by
          by_contra hs
          exact hne (by decide) hs hb'
        subst hnil
        rw [hb', List.nil_append] at hl
        exact ⟨run', by simp [hb'], source', hsource', by simp [hb', ← hl], hend'⟩
      | cons entry buffer =>
        rw [hb'] at hl
        subst hl
        exact ⟨{ run' with buffer := buffer }, by simp [hb'], source', hsource', rfl, hend'⟩

theorem Holds.of_isExhausted {run : RunReader} {l : List MergeEntry} (h : run.Holds l)
    (hex : run.isExhausted = true) : l = [] := by
  obtain ⟨source, -, rfl, hend⟩ := h
  simp only [isExhausted, Bool.and_eq_true, List.isEmpty_iff] at hex
  rw [hex.2, hend hex.1]
  rfl

end RunReader

/-- The merger delivers what the feed delivers. -/
def Delivers (m : MergerState) (s : Feed MergeEntry) : Prop :=
  m.heap = s.heap ∧ List.Forall₂ RunReader.Holds m.runs s.tails

theorem forall₂_set {α β : Type*} {R : α → β → Prop} {xs : List α} {ys : List β}
    (h : List.Forall₂ R xs ys) {i : Nat} {x : α} {y : β} (hxy : R x y) :
    List.Forall₂ R (xs.set i x) (ys.set i y) := by
  induction h generalizing i with
  | nil => exact .nil
  | cons hab hrest ih =>
    cases i with
    | zero => exact .cons hxy hrest
    | succ i => exact .cons hab ih

variable {m : MergerState} {s : Feed MergeEntry} {e : MergeEntry} {rest seg : List MergeEntry}

/-- A refill delivers the next entry of the run. -/
theorem Delivers.refillHeap (h : Delivers m s) (size : MergeEntry → Nat) (i : Nat) :
    ∃ m', m.refillHeap size i = (.ok (), m') ∧ Delivers m' (s.refill i) := by
  obtain ⟨hheap, hruns⟩ := h
  unfold MergerState.refillHeap Feed.refill
  cases hr : m.runs[i]? with
  | none =>
    have ht : s.tails[i]? = none := by
      rw [List.getElem?_eq_none_iff] at hr ⊢
      exact hruns.length_eq ▸ hr
    rw [ht]
    exact ⟨m, rfl, hheap, hruns⟩
  | some run =>
    obtain ⟨t, ht, hholds⟩ : ∃ t, s.tails[i]? = some t ∧ run.Holds t := by
      have hlen := (List.getElem?_eq_some_iff.mp hr).1
      have hlen' : i < s.tails.length := hruns.length_eq ▸ hlen
      refine ⟨s.tails[i], List.getElem?_eq_getElem hlen', ?_⟩
      have := (List.forall₂_iff_get.mp hruns).2 i hlen hlen'
      rw [List.getElem?_eq_getElem hlen] at hr
      cases hr
      exact this
    rw [ht]
    simp only
    by_cases hex : run.isExhausted = true
    · obtain rfl := hholds.of_isExhausted hex
      rw [if_pos hex]
      exact ⟨m, rfl, hheap, hruns⟩
    · rw [if_neg hex]
      obtain ⟨run', hadv, hholds'⟩ := hholds.advance size
      rw [hadv]
      cases t with
      | nil =>
        refine ⟨_, rfl, hheap, ?_⟩
        have hset : s.tails.set i [] = s.tails := by
          obtain ⟨hlt, hget⟩ := List.getElem?_eq_some_iff.mp ht
          rw [← hget]
          exact List.set_getElem_self hlt
        have := forall₂_set (i := i) hruns (x := run') (y := []) hholds'
        rwa [hset] at this
      | cons e t => exact ⟨_, rfl, by rw [hheap], forall₂_set hruns hholds'⟩

theorem Delivers.initializeHeap (h : Delivers m s) (size : MergeEntry → Nat) :
    ∃ m', m.initializeHeap size = (.ok (), m') ∧
      Delivers m' ((List.range s.tails.length).foldl Feed.refill s) := by
  unfold MergerState.initializeHeap
  rw [← h.2.length_eq]
  generalize List.range m.runs.length = is
  induction is generalizing m s with
  | nil => exact ⟨m, rfl, h⟩
  | cons i is ih =>
    obtain ⟨m₁, hm₁, hdel⟩ := h.refillHeap size i
    obtain ⟨m₂, hm₂, hdel₂⟩ := ih hdel
    refine ⟨m₂, ?_, by rwa [List.foldl_cons]⟩
    simp only [List.foldl_cons, hm₁]
    exact hm₂

section Ordered

variable [DebugFmt]

/-- The order in which the entries of the runs are pulled. -/
def popOrder (schema : TableSchema) (runs : List (List MergeEntry)) : List MergeEntry :=
  KWay.popOrder (entryCmp schema) MergeEntry.runIndex runs

/-- The entries the feed still yields. -/
abbrev pops (schema : TableSchema) (s : Feed MergeEntry) : List MergeEntry :=
  s.pops (entryCmp schema) MergeEntry.runIndex

variable {schema : TableSchema}

theorem Delivers.pull (h : Delivers m s) (size : MergeEntry → Nat) {L : List MergeEntry}
    (hpops : pops schema s = e :: L) :
    ∃ m' s', m.pull schema size = some (e, .ok (), m') ∧ Delivers m' s' ∧ pops schema s' = L ∧
      s.pull (entryCmp schema) MergeEntry.runIndex = some (e, s') := by
  obtain ⟨rest, hpop, hL⟩ := Feed.pops_eq_cons hpops
  have hrest : Delivers ⟨rest, m.runs⟩ ⟨rest, s.tails⟩ := ⟨rfl, h.2⟩
  obtain ⟨m', hm', hdel⟩ := hrest.refillHeap size e.runIndex
  refine ⟨m', _, ?_, hdel, hL, Feed.pull_of_popMin hpop⟩
  unfold MergerState.pull popMin
  rw [h.1, hpop]
  simp only [hm']

theorem Delivers.pull_none (h : Delivers m s) (size : MergeEntry → Nat) (hpops : pops schema s = []) :
    m.pull schema size = none ∧ m.heap = [] := by
  have hheap := Feed.heap_of_pops_nil hpops
  refine ⟨?_, h.1.trans hheap⟩
  unfold MergerState.pull popMin
  rw [h.1, KWay.popMin_eq_none.mpr hheap]

theorem Delivers.popMin (h : Delivers m s) {L : List MergeEntry} (hpops : pops schema s = e :: L) :
    ∃ rest, popMin schema m.heap = some (e, rest) := by
  obtain ⟨rest, hpop, -⟩ := Feed.pops_eq_cons hpops
  exact ⟨rest, by rw [Cqlite.popMin, h.1, hpop]⟩

/-- Between partitions: once the heap is ensured, the feed is delivered. -/
def Ready (size : MergeEntry → Nat) (m : MergerState) (s : Feed MergeEntry) : Prop :=
  ∃ m', ensureHeap size m = (.ok (), m') ∧ Delivers m' s

omit [DebugFmt] in
theorem Delivers.ready (h : Delivers m s) (size : MergeEntry → Nat) {runs : List (List MergeEntry)}
    (hinv : KWay.Inv MergeEntry.runIndex runs s) : Ready size m s := by
  unfold Ready ensureHeap
  by_cases hheap : m.heap = []
  · obtain ⟨m', hm', hdel⟩ := h.initializeHeap size
    rw [KWay.foldl_refill_of_ended (hinv.ended (h.1.symm.trans hheap))] at hdel
    exact ⟨m', by simpa [hheap] using hm', hdel⟩
  · exact ⟨m, by simp [hheap], h⟩

/-- The merger over unread runs. -/
def MergerState.ofRuns (runs : List (List MergeEntry)) : MergerState :=
  ⟨[], runs.map fun run => RunReader.new (run.map .ok)⟩

omit [DebugFmt] in
theorem ready_ofRuns (size : MergeEntry → Nat) (runs : List (List MergeEntry)) :
    Ready size (.ofRuns runs) (Feed.start runs) := by
  have hdel : Delivers (.ofRuns runs) ⟨[], runs⟩ := by
    refine ⟨rfl, ?_⟩
    unfold MergerState.ofRuns
    induction runs with
    | nil => exact .nil
    | cons run runs ih => exact .cons ⟨run, rfl, rfl, fun h => by cases h⟩ ih
  obtain ⟨m', hm', hdel'⟩ := hdel.initializeHeap size
  rw [KWay.foldl_refill] at hdel'
  exact ⟨m', hm', hdel'⟩

end Ordered

/-! ### Partitions of the pulled sequence -/

/-- Cut a sequence where the partition key changes. -/
def segments : List MergeEntry → List (DecoratedKey × List MergeEntry)
  | [] => []
  | e :: entries =>
    match segments entries with
    | [] => [(e.key, [e])]
    | (key, seg) :: rest =>
      if e.key = key then (key, e :: seg) :: rest else (e.key, [e]) :: (key, seg) :: rest

/-- The next entry, if any, belongs to another partition. -/
def StopsAt (key : DecoratedKey) (entries : List MergeEntry) : Prop :=
  ∀ e ∈ entries.head?, e.key ≠ key

theorem segments_head {entries : List MergeEntry} :
    ∃ seg rest, segments (e :: entries) = (e.key, e :: seg) :: rest := by
  rw [segments]
  cases segments entries with
  | nil => exact ⟨[], [], rfl⟩
  | cons g rest =>
    obtain ⟨key, seg⟩ := g
    simp only
    split
    · rename_i h
      exact ⟨seg, rest, by rw [h]⟩
    · exact ⟨[], _, rfl⟩

theorem segments_append {key : DecoratedKey} (hkey : ∀ x ∈ e :: seg, x.key = key)
    (hstop : StopsAt key rest) :
    segments (e :: seg ++ rest) = (key, e :: seg) :: segments rest := by
  induction seg generalizing e with
  | nil =>
    obtain rfl : e.key = key := hkey e (by simp)
    rw [List.cons_append, List.nil_append, segments]
    cases rest with
    | nil => simp [segments]
    | cons a rest =>
      obtain ⟨s, r, hs⟩ : ∃ s r, segments (a :: rest) = (a.key, a :: s) :: r := segments_head
      rw [hs]
      exact if_neg fun h => hstop a rfl h.symm
  | cons x seg ih =>
    have he : e.key = key := hkey e (by simp)
    rw [List.cons_append, segments, ih fun y hy => hkey y (List.mem_cons_of_mem _ hy)]
    simp [he]

/-- A non-empty sequence splits into its first segment and the rest. -/
theorem exists_segment (e : MergeEntry) (entries : List MergeEntry) :
    ∃ seg rest, entries = seg ++ rest ∧ (∀ x ∈ e :: seg, x.key = e.key) ∧ StopsAt e.key rest := by
  refine ⟨entries.takeWhile fun x => x.key = e.key, entries.dropWhile fun x => x.key = e.key,
    List.takeWhile_append_dropWhile.symm, fun x hx => ?_, fun x hx => ?_⟩
  · rcases List.mem_cons.mp hx with rfl | hx
    · rfl
    · simpa using List.all_eq_true.mp List.all_takeWhile x hx
  · have := List.head?_dropWhile_not (fun x : MergeEntry => decide (x.key = e.key)) entries
    rw [Option.mem_def.mp hx] at this
    simpa using this

/-! ### The buffered merger -/

section Buffered

variable [DebugFmt] (cfg : MergerConfig) (size : MergeEntry → Nat)

/-- Calling `step` until it is complete yields these partitions. -/
inductive BufferedDrains : MergerState → List (DecoratedKey × List MergeEntry) → Prop
  | complete {m m' : MergerState} (h : step cfg size m = (.ok .complete, m')) : BufferedDrains m []
  | partition {m m' : MergerState} {key : DecoratedKey} {rows : List MergeEntry}
      {out : List (DecoratedKey × List MergeEntry)}
      (h : step cfg size m = (.ok (.partition key rows), m')) (hrest : BufferedDrains m' out) :
      BufferedDrains m ((key, rows) :: out)

variable {cfg size}

theorem BufferedDrains.unique {a b : List (DecoratedKey × List MergeEntry)}
    (ha : BufferedDrains cfg size m a) (hb : BufferedDrains cfg size m b) : a = b := by
  induction ha generalizing b with
  | complete h =>
    cases hb with
    | complete _ => rfl
    | partition h' _ => rw [h] at h'; cases h'
  | partition h _ ih =>
    cases hb with
    | complete h' => rw [h] at h'; cases h'
    | partition h' hrest => rw [h] at h'; cases h'; rw [ih hrest]

theorem collectPartition_eq (size : MergeEntry → Nat) {key : DecoratedKey}
    {runs : List (List MergeEntry)} (hidx : KWay.Indexed MergeEntry.runIndex runs)
    (hdel : Delivers m s) (hinv : KWay.Inv MergeEntry.runIndex runs s)
    (hpops : pops cfg.schema s = seg ++ rest) (hkey : ∀ e ∈ seg, e.key = key)
    (hstop : StopsAt key rest) (rows : List MergeEntry) :
    ∃ m' s', collectPartition cfg.schema size key m rows = (.ok (rows ++ seg), m') ∧
      Delivers m' s' ∧ KWay.Inv MergeEntry.runIndex runs s' ∧ pops cfg.schema s' = rest := by
  induction seg generalizing m s rows with
  | nil =>
    refine ⟨m, s, ?_, hdel, hinv, hpops⟩
    rw [List.append_nil]
    cases rest with
    | nil => exact collectPartition_none (hdel.pull_none size hpops).1
    | cons a rest =>
      obtain ⟨m', s', hpull, -⟩ := hdel.pull size hpops
      rw [collectPartition_some hpull, if_neg (hstop a rfl)]
  | cons e seg ih =>
    obtain ⟨m', s', hpull, hdel', hpops', hspull⟩ := hdel.pull size hpops
    have he : e.key = key := hkey e (by simp)
    obtain ⟨m'', s'', hcol, hrest⟩ := ih hdel' (hinv.pull hidx hspull) hpops'
      (fun x hx => hkey x (List.mem_cons_of_mem _ hx)) (rows ++ [e])
    refine ⟨m'', s'', ?_, hrest⟩
    rw [collectPartition_some hpull, if_pos he, hcol, List.append_assoc]
    rfl

/-- The buffered merger drains one segment after the other. -/
theorem bufferedDrains_of_ready {runs : List (List MergeEntry)}
    (hidx : KWay.Indexed MergeEntry.runIndex runs) (hready : Ready size m s)
    (hinv : KWay.Inv MergeEntry.runIndex runs s) :
    BufferedDrains cfg size m
      ((segments (pops cfg.schema s)).map fun g => (g.1, mergePartitionRows cfg g.2)) := by
  generalize hn : (pops cfg.schema s).length = n
  induction n using Nat.strongRecOn generalizing m s with
  | ind n ih =>
    obtain ⟨m₁, hens, hdel⟩ := hready
    cases hpops : pops cfg.schema s with
    | nil =>
      have hnone : popMin cfg.schema m₁.heap = none :=
        KWay.popMin_eq_none.mpr (hdel.pull_none size hpops).2
      have hstep : step cfg size m = (.ok .complete, m₁) := by simp only [step, hens, hnone]
      exact .complete hstep
    | cons e entries =>
      obtain ⟨seg, rest, rfl, hkey, hstop⟩ := exists_segment e entries
      obtain ⟨_, hpop⟩ := hdel.popMin hpops
      obtain ⟨m₂, s₂, hcol, hdel₂, hinv₂, hpops₂⟩ :=
        collectPartition_eq size hidx hdel hinv hpops hkey hstop []
      rw [← List.cons_append, segments_append hkey hstop, List.map_cons]
      have hstep : step cfg size m =
          (.ok (.partition e.key (mergePartitionRows cfg (e :: seg))), m₂) := by
        simp only [step, hens, hpop, hcol, List.nil_append]
      refine .partition hstep ?_
      rw [← hpops₂]
      refine ih (pops cfg.schema s₂).length ?_ (hdel₂.ready size hinv₂) hinv₂ rfl
      rw [← hn, hpops, hpops₂, List.length_cons, List.length_append]
      omega

end Buffered

/-! ### The streaming merger -/

namespace Checkpoint

variable [DebugFmt] (cfg : MergerConfig)

/-- The same checkpoint with more rows waiting in front. -/
def prepend (rows : List MergeEntry) (c : Checkpoint) : Checkpoint :=
  { c with pendingRows := rows ++ c.pendingRows }

section

variable (rows : List MergeEntry) (c : Checkpoint)

-- The pending rows are an output queue: every operation only appends to it.
omit [DebugFmt] in
theorem resolvePartitionPrefix_prepend :
    (c.prepend rows).resolvePartitionPrefix cfg = (c.resolvePartitionPrefix cfg).prepend rows := by
  unfold resolvePartitionPrefix prepend
  split <;> simp

theorem reshadowAndFlushAwaiting_prepend :
    (c.prepend rows).reshadowAndFlushAwaiting cfg =
      (c.reshadowAndFlushAwaiting cfg).prepend rows := by
  unfold reshadowAndFlushAwaiting prepend
  split <;> simp

theorem flushRangeTombstones_prepend :
    (c.prepend rows).flushRangeTombstones cfg = (c.flushRangeTombstones cfg).prepend rows := by
  simp [flushRangeTombstones, prepend]

omit [DebugFmt] in
theorem routeSurvivor_prepend (e : MergeEntry) :
    (c.prepend rows).routeSurvivor e = (c.routeSurvivor e).prepend rows := by
  unfold routeSurvivor prepend
  split <;> simp

omit [DebugFmt] in
theorem finalizeCurrentCluster_prepend :
    (c.prepend rows).finalizeCurrentCluster cfg = (c.finalizeCurrentCluster cfg).prepend rows := by
  unfold finalizeCurrentCluster
  cases hc : c.currentCluster with
  | none => simpa [prepend, hc] using resolvePartitionPrefix_prepend cfg rows c
  | some cluster =>
    obtain ⟨ck, crows⟩ := cluster
    have hres := resolvePartitionPrefix_prepend cfg rows { c with currentCluster := none }
    have hcur : (c.prepend rows).currentCluster = some (ck, crows) := hc
    have hset : ({ c.prepend rows with currentCluster := none } : Checkpoint) =
        ({ c with currentCluster := none } : Checkpoint).prepend rows := rfl
    simp only [hcur, hset, hres]
    cases reconcileCluster cfg.settings ck crows with
    | none => rfl
    | some e => exact routeSurvivor_prepend rows _ e

theorem acceptRow_prepend (e : MergeEntry) :
    (c.prepend rows).acceptRow cfg e = (c.acceptRow cfg e).prepend rows := by
  have hgrow : ∀ c : Checkpoint, (c.prepend rows).growCluster e = (c.growCluster e).prepend rows := by
    intro c
    unfold growCluster prepend
    cases c.currentCluster <;> rfl
  have hstart : (c.prepend rows).startsNewCluster e = c.startsNewCluster e := rfl
  unfold acceptRow
  rw [hstart]
  split
  · rw [finalizeCurrentCluster_prepend, hgrow]
  · rw [hgrow]

theorem acceptEntry_prepend (e : MergeEntry) :
    (c.prepend rows).acceptEntry cfg e = (c.acceptEntry cfg e).prepend rows := by
  have hrange : ∀ rt, (c.prepend rows).acceptRange cfg e.key rt =
      (c.acceptRange cfg e.key rt).prepend rows := by
    intro rt
    have hpush : (c.prepend rows).pushRange e.key rt = (c.pushRange e.key rt).prepend rows := rfl
    have hres : (c.prepend rows).partitionDeletionResolved = c.partitionDeletionResolved := rfl
    unfold acceptRange
    rw [hpush, hres, reshadowAndFlushAwaiting_prepend]
    split <;> rfl
  unfold acceptEntry
  split
  · rfl
  · split
    · split
      · exact hrange _
      · rfl
    · exact acceptRow_prepend cfg rows c e

theorem endPartition_prepend :
    (c.prepend rows).endPartition cfg = (c.endPartition cfg).prepend rows := by
  unfold endPartition
  rw [finalizeCurrentCluster_prepend, reshadowAndFlushAwaiting_prepend]
  generalize (c.finalizeCurrentCluster cfg).reshadowAndFlushAwaiting cfg = d
  have hrts : (d.prepend rows).rangeTombstones = d.rangeTombstones := rfl
  have hemit : (d.prepend rows).rangeTombstonesEmitted = d.rangeTombstonesEmitted := rfl
  unfold flushRangesOnce
  rw [hrts, hemit, flushRangeTombstones_prepend]
  split <;> rfl

end

/-- Nothing is left to finish. -/
structure Ended (c : Checkpoint) : Prop where
  cluster : c.currentCluster = none
  resolved : c.partitionDeletionResolved = true
  awaiting : c.awaitingFlush = []
  ranges : c.rangeTombstones = [] ∨ c.rangeTombstonesEmitted = true

omit [DebugFmt] in
theorem resolvePartitionPrefix_fields (c : Checkpoint) :
    (c.resolvePartitionPrefix cfg).partitionDeletionResolved = true ∧
      (c.resolvePartitionPrefix cfg).currentCluster = c.currentCluster := by
  unfold resolvePartitionPrefix
  split
  · rename_i h
    exact ⟨h, rfl⟩
  · exact ⟨rfl, rfl⟩

omit [DebugFmt] in
theorem routeSurvivor_fields (c : Checkpoint) (e : MergeEntry) :
    (c.routeSurvivor e).partitionDeletionResolved = c.partitionDeletionResolved ∧
      (c.routeSurvivor e).currentCluster = c.currentCluster := by
  unfold routeSurvivor
  split <;> exact ⟨rfl, rfl⟩

omit [DebugFmt] in
theorem finalizeCurrentCluster_fields (c : Checkpoint) :
    (c.finalizeCurrentCluster cfg).partitionDeletionResolved = true ∧
      (c.finalizeCurrentCluster cfg).currentCluster = none := by
  unfold finalizeCurrentCluster
  cases hc : c.currentCluster with
  | none =>
    have h := resolvePartitionPrefix_fields cfg c
    exact ⟨h.1, h.2.trans hc⟩
  | some cluster =>
    obtain ⟨ck, rows⟩ := cluster
    have h := resolvePartitionPrefix_fields cfg { c with currentCluster := none }
    simp only
    cases reconcileCluster cfg.settings ck rows with
    | none => exact h
    | some e =>
      have h' := routeSurvivor_fields (resolvePartitionPrefix cfg { c with currentCluster := none }) e
      exact ⟨h'.1.trans h.1, h'.2.trans h.2⟩

theorem reshadowAndFlushAwaiting_fields (c : Checkpoint) :
    (c.reshadowAndFlushAwaiting cfg).partitionDeletionResolved = c.partitionDeletionResolved ∧
      (c.reshadowAndFlushAwaiting cfg).currentCluster = c.currentCluster ∧
      (c.reshadowAndFlushAwaiting cfg).awaitingFlush = [] := by
  unfold reshadowAndFlushAwaiting
  split
  · rename_i h
    exact ⟨rfl, rfl, List.isEmpty_iff.mp h⟩
  · exact ⟨rfl, rfl, rfl⟩

theorem endPartition_ended (c : Checkpoint) : (c.endPartition cfg).Ended := by
  have hf := finalizeCurrentCluster_fields cfg c
  have hr := reshadowAndFlushAwaiting_fields cfg (c.finalizeCurrentCluster cfg)
  unfold endPartition
  generalize (c.finalizeCurrentCluster cfg).reshadowAndFlushAwaiting cfg = d at hr
  have hcluster : d.currentCluster = none := hr.2.1.trans hf.2
  have hresolved : d.partitionDeletionResolved = true := hr.1.trans hf.1
  unfold flushRangesOnce
  split
  · exact ⟨hcluster, hresolved, hr.2.2, .inr rfl⟩
  · rename_i h
    refine ⟨hcluster, hresolved, hr.2.2, ?_⟩
    simp only [Bool.and_eq_true, Bool.not_eq_true', not_and, Bool.not_eq_false] at h
    cases hd : d.rangeTombstones with
    | nil => exact .inl rfl
    | cons r rts => exact .inr (h (by simp [hd]))

theorem Ended.endPartition_eq {c : Checkpoint} (h : c.Ended) : c.endPartition cfg = c := by
  have hf : c.finalizeCurrentCluster cfg = c := by
    simp [finalizeCurrentCluster, h.cluster, resolvePartitionPrefix, h.resolved]
  have hr : c.reshadowAndFlushAwaiting cfg = c := by
    simp [reshadowAndFlushAwaiting, h.awaiting]
  unfold endPartition flushRangesOnce
  rw [hf, hr]
  rcases h.ranges with h | h <;> simp [h]

omit [DebugFmt] in
theorem Ended.prepend {c : Checkpoint} (h : c.Ended) (rows : List MergeEntry) :
    ({ c with pendingRows := rows } : Checkpoint).Ended :=
  ⟨h.cluster, h.resolved, h.awaiting, h.ranges⟩

/-- Everything a partition still yields: what is pending and what its entries add. -/
def output (c : Checkpoint) (seg : List MergeEntry) : List MergeEntry :=
  ((seg.foldl (acceptEntry cfg) c).endPartition cfg).pendingRows

theorem output_prepend (rows : List MergeEntry) (c : Checkpoint) (seg : List MergeEntry) :
    (c.prepend rows).output cfg seg = rows ++ c.output cfg seg := by
  unfold output
  induction seg generalizing c with
  | nil => rw [List.foldl_nil, endPartition_prepend]; rfl
  | cons e seg ih => rw [List.foldl_cons, acceptEntry_prepend, ih, List.foldl_cons]

theorem output_of_pending {c : Checkpoint} {row : MergeEntry} {pending : List MergeEntry}
    (hp : c.pendingRows = row :: pending) (seg : List MergeEntry) :
    c.output cfg seg = row :: ({ c with pendingRows := pending } : Checkpoint).output cfg seg := by
  have hc : c = ({ c with pendingRows := pending } : Checkpoint).prepend [row] := by
    simp [prepend, ← hp]
  rw [hc, output_prepend]
  rfl

end Checkpoint

/-- The rows the streaming merger yields for a partition. -/
def streamPartition [DebugFmt] (cfg : MergerConfig) (seg : List MergeEntry) : List MergeEntry :=
  Checkpoint.fresh.output cfg seg

section Streaming

variable [DebugFmt] (cfg : MergerConfig) (size : MergeEntry → Nat)

/-- Calling `step_streaming` until it is complete yields these steps. -/
inductive StreamDrains : StreamingMerger → List StreamingStep → Prop
  | complete {sm sm' : StreamingMerger} (h : sm.stepStreaming cfg size = (.ok .complete, sm')) :
      StreamDrains sm []
  | group {sm sm' : StreamingMerger} {key : DecoratedKey} {row : MergeEntry}
      {out : List StreamingStep} (h : sm.stepStreaming cfg size = (.ok (.clusterGroup key row), sm'))
      (hrest : StreamDrains sm' out) : StreamDrains sm (.clusterGroup key row :: out)
  | partitionEnd {sm sm' : StreamingMerger} {key : DecoratedKey} {out : List StreamingStep}
      (h : sm.stepStreaming cfg size = (.ok (.partitionEnd key), sm'))
      (hrest : StreamDrains sm' out) : StreamDrains sm (.partitionEnd key :: out)

/-- The steps of one partition. -/
def partitionSteps (key : DecoratedKey) (rows : List MergeEntry) : List StreamingStep :=
  rows.map (.clusterGroup key) ++ [.partitionEnd key]

variable {cfg size}

theorem StreamDrains.unique {sm : StreamingMerger} {a b : List StreamingStep}
    (ha : StreamDrains cfg size sm a) (hb : StreamDrains cfg size sm b) : a = b := by
  induction ha generalizing b with
  | complete h => cases hb with
    | complete _ => rfl
    | group h' _ => rw [h] at h'; cases h'
    | partitionEnd h' _ => rw [h] at h'; cases h'
  | group h _ ih => cases hb with
    | complete h' => rw [h] at h'; cases h'
    | group h' hrest => rw [h] at h'; cases h'; rw [ih hrest]
    | partitionEnd h' _ => rw [h] at h'; cases h'
  | partitionEnd h _ ih => cases hb with
    | complete h' => rw [h] at h'; cases h'
    | group h' _ => rw [h] at h'; cases h'
    | partitionEnd h' hrest => rw [h] at h'; cases h'; rw [ih hrest]

variable {out : List StreamingStep}

theorem StreamDrains.of_step_eq {sm sm' : StreamingMerger}
    (h : sm.stepStreaming cfg size = sm'.stepStreaming cfg size)
    (hd : StreamDrains cfg size sm' out) : StreamDrains cfg size sm out := by
  cases hd with
  | complete h' => exact .complete (h.trans h')
  | group h' hrest => exact .group (h.trans h') hrest
  | partitionEnd h' hrest => exact .partitionEnd (h.trans h') hrest

variable {key : DecoratedKey}

theorem StreamDrains.of_pending {m : MergerState} {c : Checkpoint} {row : MergeEntry}
    {pending : List MergeEntry} (hp : c.pendingRows = row :: pending)
    (hd : StreamDrains cfg size ⟨m, some key, { c with pendingRows := pending }⟩ out) :
    StreamDrains cfg size ⟨m, some key, c⟩ (.clusterGroup key row :: out) := by
  refine .group ?_ hd
  simp only [StreamingMerger.stepStreaming, StreamingMerger.yieldPending, hp]

theorem pullLoop_stop (hdel : Delivers m s) (hpops : pops cfg.schema s = rest)
    (hstop : StopsAt key rest) (c : Checkpoint) :
    StreamingMerger.pullLoop cfg size key m c = StreamingMerger.yieldPending m key
      (c.endPartition cfg) (.ok (.partitionEnd key), ⟨m, none, c.endPartition cfg⟩) := by
  cases rest with
  | nil => exact StreamingMerger.pullLoop_none cfg size (hdel.pull_none size hpops).1
  | cons a rest =>
    obtain ⟨m', s', hpull, -⟩ := hdel.pull size hpops
    rw [StreamingMerger.pullLoop_some cfg size hpull, if_neg (hstop a rfl)]

theorem streamDrains_ended {rest : List MergeEntry} {m : MergerState} {s : Feed MergeEntry}
    (hdel : Delivers m s) (hpops : pops cfg.schema s = rest) (hstop : StopsAt key rest)
    {c : Checkpoint} (hended : c.Ended)
    (hout : StreamDrains cfg size ⟨m, none, { c with pendingRows := [] }⟩ out) :
    StreamDrains cfg size ⟨m, some key, c⟩ (partitionSteps key c.pendingRows ++ out) := by
  generalize hp : c.pendingRows = pending
  induction pending generalizing c with
  | nil =>
    have hc : ({ c with pendingRows := [] } : Checkpoint) = c := by rw [← hp]
    rw [hc] at hout
    refine .partitionEnd ?_ hout
    simp only [StreamingMerger.stepStreaming, StreamingMerger.yieldPending, hp]
    rw [pullLoop_stop hdel hpops hstop, hended.endPartition_eq, StreamingMerger.yieldPending, hp]
  | cons row pending ih => exact .of_pending hp (ih (hended.prepend pending) hout rfl)

/-- A partition yields its output and ends, wherever its draining stands. -/
theorem streamDrains_partition {runs : List (List MergeEntry)}
    (hidx : KWay.Indexed MergeEntry.runIndex runs) (hstop : StopsAt key rest)
    (hout : ∀ m s c, Delivers m s → KWay.Inv MergeEntry.runIndex runs s →
      pops cfg.schema s = rest → c.pendingRows = [] → StreamDrains cfg size ⟨m, none, c⟩ out)
    (hkey : ∀ e ∈ seg, e.key = key) (hdel : Delivers m s)
    (hinv : KWay.Inv MergeEntry.runIndex runs s) (hpops : pops cfg.schema s = seg ++ rest)
    (c : Checkpoint) :
    StreamDrains cfg size ⟨m, some key, c⟩ (partitionSteps key (c.output cfg seg) ++ out) := by
  -- pending rows are drained first, then the entries of the segment are accepted one by one
  generalize hp : c.pendingRows = pending
  induction seg generalizing m s c pending with
  | nil =>
    induction pending generalizing c with
    | nil =>
      have hstep : StreamingMerger.stepStreaming cfg size ⟨m, some key, c⟩ =
          StreamingMerger.yieldPending m key (c.endPartition cfg)
            (.ok (.partitionEnd key), ⟨m, none, c.endPartition cfg⟩) := by
        simp only [StreamingMerger.stepStreaming, StreamingMerger.yieldPending, hp]
        rw [pullLoop_stop hdel hpops hstop, StreamingMerger.yieldPending]
      have hended := c.endPartition_ended cfg
      have hend := streamDrains_ended hdel hpops hstop hended
        (hout m s { c.endPartition cfg with pendingRows := [] } hdel hinv hpops rfl)
      refine .of_step_eq ?_ hend
      rw [hstep]
      simp only [StreamingMerger.stepStreaming]
      rw [pullLoop_stop hdel hpops hstop, hended.endPartition_eq]
      unfold StreamingMerger.yieldPending
      cases (c.endPartition cfg).pendingRows <;> rfl
    | cons row pending ih =>
      rw [Checkpoint.output_of_pending cfg hp]
      exact .of_pending hp (ih _ rfl)
  | cons e seg ih =>
    induction pending generalizing c with
    | nil =>
      obtain ⟨m', s', hpull, hdel', hpops', hspull⟩ := hdel.pull size hpops
      have he : e.key = key := hkey e (by simp)
      refine .of_step_eq ?_
        (ih (fun x hx => hkey x (List.mem_cons_of_mem _ hx)) hdel' (hinv.pull hidx hspull) hpops'
          (c.acceptEntry cfg e) _ rfl)
      simp only [StreamingMerger.stepStreaming]
      rw [StreamingMerger.yieldPending, hp]
      simp only
      rw [StreamingMerger.pullLoop_some cfg size hpull, if_pos he]
    | cons row pending ihp =>
      rw [Checkpoint.output_of_pending cfg hp]
      exact .of_pending hp (ihp _ rfl)

theorem streamDrains_of_ready {runs : List (List MergeEntry)}
    (hidx : KWay.Indexed MergeEntry.runIndex runs) (hready : Ready size m s)
    (hinv : KWay.Inv MergeEntry.runIndex runs s) {c : Checkpoint} (hc : c.pendingRows = []) :
    StreamDrains cfg size ⟨m, none, c⟩
      ((segments (pops cfg.schema s)).flatMap fun g =>
        partitionSteps g.1 (streamPartition cfg g.2)) := by
  generalize hn : (pops cfg.schema s).length = n
  induction n using Nat.strongRecOn generalizing m s c with
  | ind n ih =>
    obtain ⟨m₁, hens, hdel⟩ := hready
    cases hpops : pops cfg.schema s with
    | nil =>
      have hnone : popMin cfg.schema m₁.heap = none :=
        KWay.popMin_eq_none.mpr (hdel.pull_none size hpops).2
      have hstep : StreamingMerger.stepStreaming cfg size ⟨m, none, c⟩ =
          (.ok .complete, ⟨m₁, none, c⟩) := by
        simp only [StreamingMerger.stepStreaming, hc, List.isEmpty_nil, Bool.not_true,
          Bool.false_eq_true, if_false, hens, hnone]
      exact .complete hstep
    | cons e entries =>
      obtain ⟨seg, rest, rfl, hkey, hstop⟩ := exists_segment e entries
      obtain ⟨_, hpop⟩ := hdel.popMin hpops
      rw [← List.cons_append, segments_append hkey hstop, List.flatMap_cons]
      refine .of_step_eq ?_
        (streamDrains_partition hidx hstop (fun m₂ s₂ c₂ hdel₂ hinv₂ hpops₂ hc₂ => ?_) hkey hdel hinv
          hpops .fresh)
      · simp only [StreamingMerger.stepStreaming, hc, List.isEmpty_nil, Bool.not_true,
          Bool.false_eq_true, if_false, hens, hpop]
        rfl
      · rw [← hpops₂]
        refine ih (pops cfg.schema s₂).length ?_ (hdel₂.ready size hinv₂) hinv₂ hc₂ rfl
        rw [← hn, hpops, hpops₂, List.length_cons, List.length_append]
        omega

end Streaming

end Cqlite
