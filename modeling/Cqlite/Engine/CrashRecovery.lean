import Cqlite.Engine.WritePath
import Cqlite.Lib.Machine

/-! Acknowledged writes and crashes (`write_engine/mod.rs`, `durability.rs`).

    The table directory is the SSTables published in it, each as the mutations it was written from. A
    crash leaves what of the log was durable, and maybe more; a restart replays it into an empty
    memtable. An append that fails part-way leaves its bytes in the log, and the next one lands behind
    them. -/

namespace Cqlite

/-! ### Flushes -/

/-- The published SSTables, and one that is finished but whose directory entries are not synced. -/
structure TableDir where
  published : List (List Mutation)
  unsynced : Option (List Mutation)

/-- Where a flush fails. The writer may have overwritten an SSTable that was not synced. -/
inductive FlushFault
  | writer (overwritten : Bool) (message : String)
  | syncDir (message : String)
  | truncate (fault : Wal.TruncateFault)

def Memtable.mutations {μ : Type*} (t : Memtable μ) : List μ := t.data.flatMap (·.2)

/-- `Display`. -/
def Error.display : Error → String
  | .invalidInput message => "Invalid input: " ++ message
  | .invalidOperation message => "Invalid operation: " ++ message
  | .storage message => "Storage error: " ++ message

/-- The second half of `finalize_flush_durability`: an empty log is not truncated, and a log that
    could not be is left to be replayed. -/
def truncateFlushed (fault : Option Wal.TruncateFault) (w : Wal) : Except Error Unit × Wal :=
  if w.currentSize = 0 then (.ok (), w)
  else
    match w.truncateChecked fault with
    | (.ok (), w) => (.ok (), w)
    | (.error (.beforeMutation _), w) => (.ok (), w)
    | (.error (.afterMutation e), w) =>
      (.error (.storage ("WAL truncate failed AFTER zeroing the WAL (" ++ e.display ++ "); the WAL is " ++
        "no longer a replayable recovery marker. The flushed SSTable is durable and the generation " ++
        "has been advanced so a retry will not overwrite it.")), w)

/-- `flush_internal_async`. The memtable is cleared once the SSTable is published, whatever becomes
    of the log. -/
def flushInternalAsync (fault : Option FlushFault) (dir : TableDir) (e : Engine) :
    Except Error Unit × TableDir × Engine :=
  if e.memtable.isEmpty then (.ok (), dir, e)
  else
    match fault with
    | some (.writer overwritten message) =>
      (.error (.storage message), { dir with unsynced := if overwritten then none else dir.unsynced }, e)
    | some (.syncDir message) =>
      (.error (.storage message), { dir with unsynced := some e.memtable.mutations }, e)
    | some (.truncate f) => commit (some f)
    | none => commit none
where
  commit (fault : Option Wal.TruncateFault) : Except Error Unit × TableDir × Engine :=
    let (result, wal) := truncateFlushed fault e.wal
    (result, ⟨e.memtable.mutations :: dir.published, none⟩,
      { e with wal := wal, memtable := e.memtable.clear })

section Recovery

variable [Checksum]

/-! ### Restarts -/

/-- What a crash leaves of the log: `cut` bytes of it, at least the durable ones, or the bytes from
    before it was emptied. -/
def Wal.crashFile (w : Wal) (cut : Nat) (stale : Bool) : Bytes :=
  if w.truncated then (if stale then w.durable else w.log.take cut)
  else w.log.take (max cut w.durable.length)

/-- The memtable a replay fills, or the first error of a key. -/
def applyReplayed (env : WriteEnv) : List Mutation → Memtable Mutation → Except Error (Memtable Mutation)
  | [], t => .ok t
  | m :: ms, t =>
    match env.decoratedKey m with
    | .error err => .error err
    | .ok key => applyReplayed env ms (t.insertWithKey env.estimateMutationSize key m)

/-- `WriteEngine::new`: the log is trimmed to its valid entries, whether or not they can be applied. -/
def openLog (env : WriteEnv) (file : Bytes) : Except Error Engine × Bytes :=
  let wal := Wal.openExisting file
  let report := replay env.decode wal.log
  let wal := if report.isClean then wal else wal.resetToValidPrefix
  match applyReplayed env report.mutations .new with
  | .error err => (.error err, wal.log)
  | .ok memtable => (.ok ⟨false, wal, memtable, 0⟩, wal.log)

/-! ### Runs -/

/-- The directory, the log file while no engine is open, and the engine. `acked` is not part of the
    program: the mutations whose write returned `Ok`, in order. -/
structure Store where
  dir : TableDir
  file : Bytes
  engine : Option Engine
  acked : List Mutation

/-- Nothing written yet. -/
def Store.fresh : Store := ⟨⟨[], none⟩, [], none, []⟩

/-- A crash may come between any two operations, also in the middle of a write: the faults say how far
    it went. One in the middle of a flush is a flush with a fault, and then a crash. An engine that is
    dropped without a crash is one with the whole log cut. -/
inductive StoreEvent
  | write (m : Mutation) (faults : WriteFaults) (inRuntime : Bool) (flush : Option FlushFault)
  | flush (fault : Option FlushFault)
  | close (flush : Option FlushFault) (sync : Option String)
  | crash (inFlight : Option (Mutation × WriteFaults)) (cut : Nat) (stale kept : Bool)
  /-- opening may fail, with the log trimmed or not -/
  | reopen (fault : Option Bool)

def TableDir.afterCrash (dir : TableDir) (kept : Bool) : TableDir :=
  match kept, dir.unsynced with
  | true, some sstable => ⟨sstable :: dir.published, none⟩
  | _, _ => ⟨dir.published, none⟩

section Steps

variable (env : WriteEnv)

/-- `write` and `write_async`. -/
def Store.write (s : Store) (e : Engine) (m : Mutation) (faults : WriteFaults) (inRuntime : Bool)
    (flush : Option FlushFault) : Store :=
  match writeIntoMemtable env faults e m with
  | (.error _, e) => { s with engine := some e }
  | (.ok (), e) =>
    if e.memtable.shouldFlush env.memtableFlushThreshold && !inRuntime then
      match flushInternalAsync flush s.dir e with
      | (.error _, dir, e) => { s with dir := dir, engine := some e }
      | (.ok (), dir, e) => { s with dir := dir, engine := some e, acked := s.acked ++ [m] }
    else { s with engine := some e, acked := s.acked ++ [m] }

def Store.flush (s : Store) (e : Engine) (fault : Option FlushFault) : Store :=
  if e.closed then s
  else
    let (_, dir, e) := flushInternalAsync fault s.dir e
    { s with dir := dir, engine := some e }

def Store.close (s : Store) (e : Engine) (flush : Option FlushFault) (sync : Option String) : Store :=
  if e.closed then s
  else
    match flushInternalAsync flush s.dir e with
    | (.error _, dir, e) => { s with dir := dir, engine := some e }
    | (.ok (), dir, e) =>
      { s with dir := dir, engine := some { e with closed := true, wal := (e.wal.sync sync).2 } }

def Store.crash (s : Store) (e : Engine) (inFlight : Option (Mutation × WriteFaults)) (cut : Nat)
    (stale kept : Bool) : Store :=
  let wal := match inFlight with
    | none => e.wal
    | some (m, faults) => (writeIntoMemtable env faults e m).2.wal
  { s with dir := s.dir.afterCrash kept, file := wal.crashFile cut stale, engine := none }

def Store.reopen (s : Store) (fault : Option Bool) : Store :=
  match fault with
  | some false => s
  | some true => { s with file := s.file.take (scanValidPrefix s.file).1 }
  | none =>
    match openLog env s.file with
    | (.error _, file) => { s with file := file }
    | (.ok e, _) => { s with engine := some e }

def storeStep (s : Store) (event : StoreEvent) : Store :=
  match event, s.engine with
  | .write m faults inRuntime flush, some e => s.write env e m faults inRuntime flush
  | .flush fault, some e => s.flush e fault
  | .close flush sync, some e => s.close e flush sync
  | .crash inFlight cut stale kept, some e => s.crash env e inFlight cut stale kept
  | .reopen fault, none => s.reopen env fault
  | _, _ => s

/-! ### What must survive -/

/-- After a crash and a restart every acknowledged mutation is in a published SSTable, or it is
    replayed, in the order of the writes, and in the memtable. -/
def Survives (s : Store) : Prop :=
  ∀ cut stale kept, ∃ e, (storeStep env (storeStep env s (.crash none cut stale kept))
      (.reopen none)).engine = some e ∧
    ∃ flushed pending, s.acked = flushed ++ pending ∧
      (∀ m ∈ flushed, ∃ sstable ∈ (storeStep env s (.crash none cut stale kept)).dir.published,
        m ∈ sstable) ∧
      pending.Sublist (replay env.decode e.wal.log).mutations ∧
      ∀ m ∈ (replay env.decode e.wal.log).mutations, m ∈ e.memtable.mutations

/-- The log ends in bytes of no entry. -/
def Wal.torn (w : Wal) : Bool := !(Framing.scan nextEntry w.log).rest.isEmpty

/-- The write hands `payload` to the file. -/
structure ReachesLog (e : Engine) (m : Mutation) (payload : Bytes) : Prop where
  checked : checkWrite env e m = .ok ()
  usable : e.wal.poisoned = none
  reset : e.wal.pendingValidPrefix = none
  encoded : env.encode m = .ok payload
  appendable : Appendable payload

/-- A write that logs its mutation finds no torn bytes in the log, and the key can be written; one
    that fails part-way does not make an entry of torn bytes. -/
def LogsCleanly (e : Engine) (m : Mutation) (faults : WriteFaults) : Prop :=
  ∀ payload, ReachesLog env e m payload →
    match faults.append with
    | none => e.wal.torn = false ∧ ∃ key, env.decoratedKey m = .ok key
    | some fault => e.wal.torn = true →
      (Framing.scan nextEntry (e.wal.tornAppend payload fault.written).log).items =
        (Framing.scan nextEntry e.wal.log).items

def StepLogsCleanly (s : Store) (event : StoreEvent) : Prop :=
  ∀ e, s.engine = some e →
    match event with
    | .write m faults _ _ => LogsCleanly env e m faults
    | .crash (some (m, faults)) _ _ _ => LogsCleanly env e m faults
    | _ => True

end Steps

/-! ### The entries of a log -/

/-- The mutations of a log's entries. -/
def replayed (env : WriteEnv) (log : Bytes) : List Mutation :=
  (Framing.scan nextEntry log).items.filterMap env.decode

variable {log longer : Bytes} {env : WriteEnv}

theorem replayed_mono (h : log <+: longer) :
    (replayed env log).Sublist (replayed env longer) :=
  (nextEntry_reads.items_mono h).sublist.filterMap _

/-- Every entry of the log decodes, and the key of its mutation can be written. -/
def Replayable (env : WriteEnv) (log : Bytes) : Prop :=
  ∀ p ∈ (Framing.scan nextEntry log).items, ∃ m key, env.decode p = some m ∧ env.decoratedKey m = .ok key

theorem Replayable.mono (h : Replayable env longer) (hpre : log <+: longer) :
    Replayable env log :=
  fun p hp => h p ((nextEntry_reads.items_mono hpre).subset hp)

variable {w : Wal} {faults : WriteFaults} {m : Mutation} {s : Store}

theorem Wal.log_of_whole (h : w.torn = false) :
    (∀ p ∈ (Framing.scan nextEntry w.log).items, Appendable p) ∧
      w.log = Framing.frames walEntry (Framing.scan nextEntry w.log).items := by
  obtain ⟨hok, hlog⟩ := nextEntry_reads.frames_items_append_rest w.log
  have hrest : (Framing.scan nextEntry w.log).rest = [] := by simpa [Wal.torn] using h
  rw [hrest, List.append_nil] at hlog
  exact ⟨hok, hlog⟩

theorem items_appended {payload : Bytes} (h : w.torn = false) (hp : Appendable payload) :
    (Framing.scan nextEntry (w.appended payload).log).items =
      (Framing.scan nextEntry w.log).items ++ [payload] := by
  obtain ⟨hok, hlog⟩ := Wal.log_of_whole h
  have hall : ∀ p ∈ (Framing.scan nextEntry w.log).items ++ [payload], Appendable p := by
    intro p hmem
    rcases List.mem_append.1 hmem with hmem | hmem
    · exact hok p hmem
    · exact List.mem_singleton.1 hmem ▸ hp
  have hframes : (w.appended payload).log =
      Framing.frames walEntry ((Framing.scan nextEntry w.log).items ++ [payload]) := by
    rw [Framing.frames, List.flatMap_append, List.flatMap_singleton]
    change w.log ++ walEntry payload = _
    exact congrArg (· ++ walEntry payload) hlog
  rw [hframes, (nextEntry_reads.scan_frames hall).1]

theorem items_tornAppend {payload : Bytes} {written : Nat} (h : w.torn = false)
    (hp : Appendable payload) :
    (Framing.scan nextEntry (w.tornAppend payload written).log).items =
      (Framing.scan nextEntry w.log).items := by
  obtain ⟨hok, hlog⟩ := Wal.log_of_whole h
  have hpre : (walEntry payload).dropLast.take written <+: walEntry payload :=
    (List.take_prefix _ _).trans (List.dropLast_prefix _)
  have hne : (walEntry payload).dropLast.take written ≠ walEntry payload := by
    intro heq
    have hlen := congrArg List.length heq
    have hpos := List.length_pos_iff.2 (nextEntry_reads.block payload)
    rw [List.length_take, List.length_dropLast] at hlen
    omega
  obtain ⟨s, hs⟩ := nextEntry_torn hp hpre hne
  have hscan := nextEntry_reads.scan_frames_append hok ((walEntry payload).dropLast.take written)
  rw [Framing.Reads.scan_stop hs, ← hlog] at hscan
  change (Framing.scan nextEntry (w.log ++ (walEntry payload).dropLast.take written)).items = _
  rw [hscan]
  exact List.append_nil _

/-! ### What a log holds -/

/-- The log can be replayed, and what is not in an SSTable is durable in it. -/
structure LogHolds (env : WriteEnv) (pending : List Mutation) (w : Wal) : Prop where
  log : Replayable env w.log
  durable : Replayable env w.durable
  written : w.truncated = false → w.durable <+: w.log ∧ pending.Sublist (replayed env w.durable)
  emptied : w.truncated = true → pending = []

variable {w' : Wal} {pending : List Mutation}

theorem LogHolds.grow (h : LogHolds env pending w) (hpre : w.log <+: w'.log)
    (hdurable : w'.durable = w.durable) (htruncated : w'.truncated = w.truncated)
    (hlog : Replayable env w'.log) :
    LogHolds env pending w' where
  log := hlog
  durable := hdurable ▸ h.durable
  written ht := by
    obtain ⟨hdur, hpending⟩ := h.written (htruncated ▸ ht)
    rw [hdurable]
    exact ⟨hdur.trans hpre, hpending⟩
  emptied ht := h.emptied (htruncated ▸ ht)

/-- Before the next fsync the pending mutations are entries of the log. -/
theorem LogHolds.pending_log (h : LogHolds env pending w) :
    pending.Sublist (replayed env w.log) := by
  cases ht : w.truncated with
  | true =>
    rw [h.emptied ht]
    exact List.nil_sublist _
  | false =>
    obtain ⟨hpre, hpending⟩ := h.written ht
    exact hpending.trans (replayed_mono hpre)

omit [Checksum] in
/-- A truncation leaves the log, or it empties it, durably or not. -/
theorem truncateFlushed_cases (fault : Option Wal.TruncateFault) (w : Wal) :
    (truncateFlushed fault w).2 = w ∨
    (let w' := (truncateFlushed fault w).2
     w'.log = [] ∧ (w'.truncated = true ∧ w'.durable = w.durable ∨
      w'.truncated = false ∧ w'.durable = [])) := by
  rw [truncateFlushed]
  split
  · exact .inl rfl
  · unfold Wal.truncateChecked
    cases w.poisoned with
    | some reason => exact .inl rfl
    | none =>
      obtain _ | ⟨_ | _ | _⟩ := fault
      · exact .inr ⟨rfl, .inr ⟨rfl, rfl⟩⟩
      · exact .inl rfl
      · exact .inr ⟨rfl, .inl ⟨rfl, rfl⟩⟩
      · exact .inr ⟨rfl, .inl ⟨rfl, rfl⟩⟩

theorem replayable_nil : Replayable env [] := by
  obtain ⟨s, hs⟩ := nextEntry_reads.empty
  intro p hp
  rw [Framing.Reads.scan_stop hs] at hp
  cases hp

theorem LogHolds.truncateFlushed (h : LogHolds env pending w) (fault : Option Wal.TruncateFault) :
    LogHolds env [] (truncateFlushed fault w).2 := by
  rcases truncateFlushed_cases fault w with heq | ⟨hlog, ⟨ht, hd⟩ | ⟨ht, hd⟩⟩
  · rw [heq]
    exact ⟨h.log, h.durable, fun ht => ⟨(h.written ht).1, List.nil_sublist _⟩, fun _ => rfl⟩
  · refine ⟨hlog ▸ replayable_nil, hd ▸ h.durable, fun hf => ?_, fun _ => rfl⟩
    rw [ht] at hf
    cases hf
  · refine ⟨hlog ▸ replayable_nil, hd ▸ replayable_nil, fun _ => ?_, fun _ => rfl⟩
    rw [hd, hlog]
    exact ⟨List.prefix_rfl, List.nil_sublist _⟩

/-! ### One write -/

section Writes

variable {env : WriteEnv}

variable {t : Memtable Mutation} {dir : TableDir} {fault : Option FlushFault}

omit [Checksum] in
theorem mem_mutations_insertWithKey {size : Mutation → Nat} {key : DecoratedKey} {m' : Mutation} :
    m' ∈ (t.insertWithKey size key m).mutations ↔ m' = m ∨ m' ∈ t.mutations := by
  change m' ∈ (entryPush t.data key m).flatMap (·.2) ↔ m' = m ∨ m' ∈ t.data.flatMap (·.2)
  induction t.data with
  | nil => simp [entryPush]
  | cons p rest ih =>
    obtain ⟨k, ms⟩ := p
    rw [entryPush]
    split
    · simp
    · simp only [List.flatMap_cons, List.mem_append, List.mem_singleton]
      tauto
    · simp only [List.flatMap_cons, List.mem_append, ih]
      tauto

variable {e e' : Engine} {r : Except Error Unit} {pending : List Mutation}

/-- What the log makes of a mutation: it stays as good as it was, and with `Ok` the mutation is
    durable in it. -/
theorem logMutation_holds (hsync : env.durability = .syncEachWrite)
    (hcodec : ∀ m p, env.encode m = .ok p → env.decode p = some m) (h : LogHolds env pending e.wal)
    (hclean : LogsCleanly env e m faults) (hcheck : checkWrite env e m = .ok ())
    (hlog : logMutation env faults e.wal m = (r, w')) :
    LogHolds env pending w' ∧ (r = .ok () → LogHolds env (pending ++ [m]) w' ∧
      ∃ key, env.decoratedKey m = .ok key) := by
  simp only [logMutation, hsync] at hlog
  split at hlog
  · -- the append failed
    next w₁ happend =>
    obtain ⟨rfl, rfl⟩ := Prod.mk.inj hlog
    refine ⟨?_, fun hr => by cases hr⟩
    rcases Wal.append_cases happend with ⟨_, -, rfl⟩ |
      ⟨payload, f, hpoisoned, hreset, hencode, hok, hfault, -, rfl⟩ | ⟨_, -, -, -, -, -, hr, -⟩
    · exact h
    · have hitems : (Framing.scan nextEntry (e.wal.tornAppend payload f.written).log).items =
          (Framing.scan nextEntry e.wal.log).items := by
        have hcase := hclean payload ⟨hcheck, hpoisoned, hreset, hencode, hok⟩
        simp only [hfault] at hcase
        cases htorn : e.wal.torn with
        | true => exact hcase htorn
        | false => exact items_tornAppend htorn hok
      exact h.grow (List.prefix_append _ _) rfl rfl fun p hp => h.log p (hitems ▸ hp)
    · cases hr
  · next w₁ happend =>
    rcases Wal.append_cases happend with ⟨_, hr, -⟩ | ⟨_, _, -, -, -, -, -, hr, -⟩ |
      ⟨payload, hpoisoned, hreset, hencode, hok, hfault, -, rfl⟩
    · cases hr
    · cases hr
    · have hcase := hclean payload ⟨hcheck, hpoisoned, hreset, hencode, hok⟩
      simp only [hfault] at hcase
      obtain ⟨htorn, key, hkey⟩ := hcase
      have hitems := items_appended htorn hok
      have hgrown : LogHolds env pending (e.wal.appended payload) := by
        refine h.grow (List.prefix_append _ _) rfl rfl fun p hp => ?_
        rw [hitems] at hp
        rcases List.mem_append.1 hp with hp | hp
        · exact h.log p hp
        · exact ⟨m, key, List.mem_singleton.1 hp ▸ hcodec m payload hencode, hkey⟩
      have hreplayed : replayed env (e.wal.appended payload).log = replayed env e.wal.log ++ [m] := by
        rw [replayed, hitems, List.filterMap_append, replayed]
        simp [hcodec m payload hencode]
      rcases Wal.sync_cases hlog with ⟨_, rfl, rfl, -⟩ | ⟨rfl, rfl⟩
      · exact ⟨hgrown, fun hr => by cases hr⟩
      · have hsynced : LogHolds env (pending ++ [m]) (e.wal.appended payload).synced := by
          refine ⟨hgrown.log, hgrown.log, fun _ => ⟨List.prefix_rfl, ?_⟩, fun ht => by cases ht⟩
          change (pending ++ [m]).Sublist (replayed env (e.wal.appended payload).log)
          rw [hreplayed]
          exact h.pending_log.append (List.Sublist.refl _)
        refine ⟨⟨hsynced.log, hsynced.durable, fun ht => ⟨(hsynced.written ht).1, ?_⟩,
          fun ht => by cases ht⟩, fun _ => ⟨hsynced, key, hkey⟩⟩
        exact (List.sublist_append_left _ _).trans (hsynced.written ht).2

/-- What a write leaves of the log: the pending mutations, and with `Ok` one more, which is in the
    memtable too. -/
theorem write_holds (hsync : env.durability = .syncEachWrite)
    (hcodec : ∀ m p, env.encode m = .ok p → env.decode p = some m) (h : LogHolds env pending e.wal)
    (hclean : LogsCleanly env e m faults) (hwrite : writeIntoMemtable env faults e m = (r, e')) :
    LogHolds env pending e'.wal ∧ (∀ m' ∈ e.memtable.mutations, m' ∈ e'.memtable.mutations) ∧
      (r = .ok () → LogHolds env (pending ++ [m]) e'.wal ∧ m ∈ e'.memtable.mutations) := by
  rw [writeIntoMemtable] at hwrite
  split at hwrite
  · obtain ⟨rfl, rfl⟩ := Prod.mk.inj hwrite
    exact ⟨h, fun _ hm => hm, fun hr => by cases hr⟩
  next hcheck =>
  split at hwrite
  · next hlog =>
    obtain ⟨rfl, rfl⟩ := Prod.mk.inj hwrite
    obtain ⟨hkept, -⟩ := logMutation_holds hsync hcodec h hclean hcheck hlog
    exact ⟨hkept, fun _ hm => hm, fun hr => by cases hr⟩
  next hlog =>
  obtain ⟨hkept, hmore⟩ := logMutation_holds hsync hcodec h hclean hcheck hlog
  obtain ⟨hgrown, key, hkey⟩ := hmore rfl
  rw [hkey] at hwrite
  obtain ⟨rfl, rfl⟩ := Prod.mk.inj hwrite
  exact ⟨hkept, fun _ hm => mem_mutations_insertWithKey.2 (.inr hm),
    fun _ => ⟨hgrown, mem_mutations_insertWithKey.2 (.inl rfl)⟩⟩

/-! ### One flush -/

/-- The pending mutations are durable in the log and in the memtable. -/
def EngineHolds (env : WriteEnv) (pending : List Mutation) (e : Engine) : Prop :=
  LogHolds env pending e.wal ∧ ∀ m ∈ pending, m ∈ e.memtable.mutations

theorem flush_holds {dir' : TableDir} (h : EngineHolds env pending e)
    (hflush : flushInternalAsync fault dir e = (r, dir', e')) :
    dir'.published = dir.published ∧ EngineHolds env pending e' ∨
      dir'.published = e.memtable.mutations :: dir.published ∧ EngineHolds env [] e' := by
  have hcommit : ∀ fault, flushInternalAsync.commit dir e fault = (r, dir', e') →
      dir'.published = e.memtable.mutations :: dir.published ∧ EngineHolds env [] e' := by
    rintro fault heq
    rw [flushInternalAsync.commit] at heq
    obtain ⟨-, heq⟩ := Prod.mk.inj heq
    obtain ⟨rfl, rfl⟩ := Prod.mk.inj heq
    exact ⟨rfl, h.1.truncateFlushed fault, fun m hm => (nomatch hm)⟩
  unfold flushInternalAsync at hflush
  split at hflush
  · cases hflush
    exact .inl ⟨rfl, h⟩
  · split at hflush
    · cases hflush
      exact .inl ⟨rfl, h⟩
    · cases hflush
      exact .inl ⟨rfl, h⟩
    · exact .inr (hcommit _ hflush)
    · exact .inr (hcommit _ hflush)

/-! ### Crashes and restarts -/

/-- The pending mutations are entries of the log file, and it can be replayed. -/
def FileHolds (env : WriteEnv) (pending : List Mutation) (file : Bytes) : Prop :=
  Replayable env file ∧ pending.Sublist (replayed env file)

theorem crashFile_holds (h : LogHolds env pending w) (cut : Nat) (stale : Bool) :
    FileHolds env pending (w.crashFile cut stale) := by
  rw [Wal.crashFile]
  split
  · next ht =>
    rw [h.emptied ht]
    refine ⟨?_, List.nil_sublist _⟩
    split
    · exact h.durable
    · exact h.log.mono (List.take_prefix _ _)
  · next ht =>
    obtain ⟨hpre, hpending⟩ := h.written (by simpa using ht)
    refine ⟨h.log.mono (List.take_prefix _ _), hpending.trans (replayed_mono ?_)⟩
    rw [List.prefix_take_iff]
    exact ⟨hpre, le_max_right _ _⟩

theorem items_validPrefix (file : Bytes) :
    (Framing.scan nextEntry (file.take (scanValidPrefix file).1)).items =
      (Framing.scan nextEntry file).items := by
  obtain ⟨hok, hfile⟩ := nextEntry_reads.frames_items_append_rest file
  have htake : file.take (scanValidPrefix file).1 =
      Framing.frames walEntry (Framing.scan nextEntry file).items := by
    have hlen := congrArg List.length hfile
    rw [List.length_append] at hlen
    have hend : (scanValidPrefix file).1 =
        (Framing.frames walEntry (Framing.scan nextEntry file).items).length := by
      rw [scanValidPrefix]
      simp only
      omega
    rw [hend]
    exact (List.prefix_iff_eq_take.1 ⟨_, hfile.symm⟩).symm
  rw [htake, (nextEntry_reads.scan_frames hok).1]

theorem openExisting_items (file : Bytes) :
    (Framing.scan nextEntry (Wal.openExisting file).log).items = (Framing.scan nextEntry file).items ∧
      (Wal.openExisting file).durable = (Wal.openExisting file).log ∧
      (Wal.openExisting file).truncated = false ∧
      ∀ n, (Wal.openExisting file).pendingValidPrefix = some n →
        n = (scanValidPrefix file).1 ∧ (Wal.openExisting file).log = file := by
  have hitems := items_validPrefix file
  rw [Wal.openExisting]
  cases hscan : scanValidPrefix file with
  | mk validEnd stop =>
    rw [hscan] at hitems
    cases stop with
    | cleanEof => exact ⟨rfl, rfl, rfl, fun n hn => (nomatch hn)⟩
    | tornTail => exact ⟨hitems, rfl, rfl, fun n hn => (nomatch hn)⟩
    | corruption =>
      refine ⟨rfl, rfl, rfl, fun n hn => ?_⟩
      simp only at hn
      split at hn
      · exact ⟨(Option.some.inj hn).symm, rfl⟩
      · cases hn

omit [Checksum] in
theorem applyReplayed_eq_ok {ms : List Mutation} (h : ∀ m ∈ ms, ∃ key, env.decoratedKey m = .ok key) :
    ∃ t', applyReplayed env ms t = .ok t' ∧ (∀ m ∈ ms, m ∈ t'.mutations) ∧
      ∀ m ∈ t.mutations, m ∈ t'.mutations := by
  induction ms generalizing t with
  | nil => exact ⟨t, rfl, fun m hm => (nomatch hm), fun _ hm => hm⟩
  | cons m ms ih =>
    obtain ⟨key, hkey⟩ := h m List.mem_cons_self
    obtain ⟨t', happly, hms, hold⟩ := ih (t := t.insertWithKey env.estimateMutationSize key m)
      fun m' hm' => h m' (List.mem_cons_of_mem _ hm')
    refine ⟨t', by rw [applyReplayed, hkey]; exact happly, fun m' hm' => ?_, fun m' hm' =>
      hold m' (mem_mutations_insertWithKey.2 (.inr hm'))⟩
    rcases List.mem_cons.1 hm' with rfl | hm'
    · exact hold m' (mem_mutations_insertWithKey.2 (.inl rfl))
    · exact hms m' hm'

/-- A file that can be replayed is opened, and its mutations are in the memtable. -/
theorem openLog_holds {file : Bytes} (h : FileHolds env pending file) :
    ∃ e file', openLog env file = (.ok e, file') ∧
      (replay env.decode e.wal.log).mutations = replayed env file ∧
      (∀ m ∈ replayed env file, m ∈ e.memtable.mutations) ∧ EngineHolds env pending e := by
  obtain ⟨hopened, hdurable, htruncated, hpending⟩ := openExisting_items file
  -- trimming changes no entry
  have hwal : ∃ wal : Wal, wal = (if (replay env.decode (Wal.openExisting file).log).isClean then
        Wal.openExisting file else (Wal.openExisting file).resetToValidPrefix) ∧
      (Framing.scan nextEntry wal.log).items = (Framing.scan nextEntry file).items ∧
      wal.durable = wal.log ∧ wal.truncated = false := by
    refine ⟨_, rfl, ?_⟩
    split
    · exact ⟨hopened, hdurable, htruncated⟩
    · rw [Wal.resetToValidPrefix]
      split
      · exact ⟨hopened, hdurable, htruncated⟩
      · next n hn =>
        obtain ⟨rfl, hlog⟩ := hpending n hn
        split
        · exact ⟨hopened, hdurable, htruncated⟩
        · refine ⟨?_, rfl, htruncated⟩
          change (Framing.scan nextEntry ((Wal.openExisting file).log.take _)).items = _
          rw [hlog, items_validPrefix]
  obtain ⟨wal, hwal, hitems, hsame, hnew⟩ := hwal
  have hmutations : (replay env.decode (Wal.openExisting file).log).mutations = replayed env file := by
    change (Framing.scan nextEntry (Wal.openExisting file).log).items.filterMap env.decode = _
    rw [hopened, replayed]
  have hkeys : ∀ m ∈ replayed env file, ∃ key, env.decoratedKey m = .ok key := by
    intro m hm
    obtain ⟨p, hp, hdecode⟩ := List.mem_filterMap.1 hm
    obtain ⟨m', key, hm', hkey⟩ := h.1 p hp
    rw [hdecode] at hm'
    exact ⟨key, Option.some.inj hm' ▸ hkey⟩
  obtain ⟨t, happly, hin, -⟩ := applyReplayed_eq_ok (t := .new) hkeys
  have hreplayable : Replayable env wal.log := fun p hp => h.1 p (hitems ▸ hp)
  have hlog : replayed env wal.log = replayed env file := by rw [replayed, replayed, hitems]
  refine ⟨⟨false, wal, t, 0⟩, wal.log, ?_, hlog, hin, ⟨hreplayable, hsame ▸ hreplayable, fun _ => ?_,
    fun ht => ?_⟩, fun m hm => hin m (h.2.subset hm)⟩
  · simp only [openLog, hmutations, happly, ← hwal]
  · rw [hsame, hlog]
    exact ⟨List.prefix_rfl, h.2⟩
  · rw [hnew] at ht
    cases ht

/-! ### Runs -/

/-- The acknowledged mutations are published, or pending in the log and the memtable. -/
def StoreHolds (env : WriteEnv) (s : Store) : Prop :=
  ∃ flushed pending, s.acked = flushed ++ pending ∧
    (∀ m ∈ flushed, ∃ sstable ∈ s.dir.published, m ∈ sstable) ∧
    match s.engine with
    | none => FileHolds env pending s.file
    | some e => EngineHolds env pending e

/-- An engine that holds what is pending, over a directory that lost nothing. -/
theorem storeHolds_of_engine {flushed pending : List Mutation} (hengine : s.engine = some e)
    (hacked : s.acked = flushed ++ pending)
    (hflushed : ∀ m ∈ flushed, ∃ sstable ∈ s.dir.published, m ∈ sstable)
    (h : EngineHolds env pending e) : StoreHolds env s :=
  ⟨flushed, pending, hacked, hflushed, by rw [hengine]; exact h⟩

theorem storeHolds_flush {s' : Store} {flushed pending : List Mutation}
    (hflushed : ∀ m ∈ flushed, ∃ sstable ∈ s.dir.published, m ∈ sstable)
    (h : EngineHolds env pending e) (hflush : flushInternalAsync fault s.dir e = (r, dir, e'))
    (hdir : s'.dir = dir) (hengine : s'.engine = some e') (hacked : s'.acked = flushed ++ pending) :
    StoreHolds env s' := by
  rcases flush_holds h hflush with ⟨hpublished, hkept⟩ | ⟨hpublished, hnone⟩
  · refine storeHolds_of_engine hengine hacked ?_ hkept
    rw [hdir, hpublished]
    exact hflushed
  · refine storeHolds_of_engine hengine (hacked.trans (List.append_nil _).symm) ?_ hnone
    rw [hdir, hpublished]
    intro m hm
    rcases List.mem_append.1 hm with hm | hm
    · obtain ⟨sstable, hmem, hm⟩ := hflushed m hm
      exact ⟨sstable, List.mem_cons_of_mem _ hmem, hm⟩
    · exact ⟨_, List.mem_cons_self, h.2 m hm⟩

theorem LogHolds.sync (h : LogHolds env pending w) (fault : Option String) :
    LogHolds env pending (w.sync fault).2 := by
  rcases Wal.sync_cases (Prod.mk.eta.symm : w.sync fault = _) with ⟨_, -, heq, -⟩ | ⟨-, heq⟩
  · rw [heq]
    exact h
  · rw [heq]
    exact ⟨h.log, h.log, fun _ => ⟨List.prefix_rfl, h.pending_log⟩, fun ht => (nomatch ht)⟩

section

variable (hsync : env.durability = .syncEachWrite)
  (hcodec : ∀ m p, env.encode m = .ok p → env.decode p = some m)

include hsync hcodec

theorem storeHolds_crash {inFlight : Option (Mutation × WriteFaults)} {cut : Nat}
    {stale kept : Bool} (h : StoreHolds env s) (hengine : s.engine = some e)
    (hclean : StepLogsCleanly env s (.crash inFlight cut stale kept)) :
    StoreHolds env (s.crash env e inFlight cut stale kept) := by
  obtain ⟨flushed, pending, hacked, hflushed, hholds⟩ := h
  rw [hengine] at hholds
  refine ⟨flushed, pending, hacked, fun m hm => ?_, ?_⟩
  · obtain ⟨sstable, hmem, hm⟩ := hflushed m hm
    refine ⟨sstable, ?_, hm⟩
    change sstable ∈ (s.dir.afterCrash kept).published
    unfold TableDir.afterCrash
    split
    · exact List.mem_cons_of_mem _ hmem
    · exact hmem
  · change FileHolds env pending (Wal.crashFile _ cut stale)
    refine crashFile_holds ?_ cut stale
    cases inFlight with
    | none => exact hholds.1
    | some write =>
      obtain ⟨m, faults⟩ := write
      exact (write_holds hsync hcodec hholds.1 (hclean e hengine) rfl).1

/-- Every step keeps what is acknowledged, if writes find the log without torn bytes and their keys can
    be written. -/
theorem storeHolds_step (s : Store) (event : StoreEvent) (h : StoreHolds env s)
    (hclean : StepLogsCleanly env s event) : StoreHolds env (storeStep env s event) := by
  cases hengine : s.engine with
  | none =>
    obtain ⟨flushed, pending, hacked, hflushed, hholds⟩ := id h
    rw [hengine] at hholds
    cases event with
    | reopen fault =>
      simp only [storeStep, hengine, Store.reopen]
      split
      · exact h
      · refine ⟨flushed, pending, hacked, hflushed, ?_⟩
        simp only [FileHolds, Replayable, replayed, items_validPrefix]
        exact hholds
      · obtain ⟨e, file', hopen, -, -, hopened⟩ := openLog_holds hholds
        rw [hopen]
        exact storeHolds_of_engine rfl hacked hflushed hopened
    | _ => simpa only [storeStep, hengine] using h
  | some e =>
    obtain ⟨flushed, pending, hacked, hflushed, hholds⟩ := id h
    rw [hengine] at hholds
    cases event with
    | reopen fault => simpa only [storeStep, hengine] using h
    | crash inFlight cut stale kept =>
      simp only [storeStep, hengine]
      exact storeHolds_crash hsync hcodec h hengine hclean
    | flush fault =>
      simp only [storeStep, hengine, Store.flush]
      split
      · exact h
      · exact storeHolds_flush hflushed hholds rfl rfl rfl hacked
    | close flush sync =>
      simp only [storeStep, hengine, Store.close]
      split
      · exact h
      split
      · next hflush => exact storeHolds_flush hflushed hholds hflush rfl rfl hacked
      · next dir e' hflush =>
        -- the log is synced last
        have hflushed' : StoreHolds env { s with dir := dir, engine := some e' } :=
          storeHolds_flush hflushed hholds hflush rfl rfl hacked
        obtain ⟨flushed, pending, hacked, hflushed, hholds⟩ := hflushed'
        exact storeHolds_of_engine rfl hacked hflushed ⟨LogHolds.sync hholds.1 sync, hholds.2⟩
    | write m faults inRuntime flush =>
      simp only [storeStep, hengine, Store.write]
      split
      · next e' hwrite =>
        obtain ⟨hkept, hmem, -⟩ := write_holds hsync hcodec hholds.1 (hclean e hengine) hwrite
        exact storeHolds_of_engine rfl hacked hflushed ⟨hkept, fun m' hm' => hmem m' (hholds.2 m' hm')⟩
      next e' hwrite =>
      obtain ⟨hkept, hmem, hmore⟩ := write_holds hsync hcodec hholds.1 (hclean e hengine) hwrite
      obtain ⟨hgrown, hm⟩ := hmore rfl
      have hbefore : EngineHolds env pending e' := ⟨hkept, fun m' hm' => hmem m' (hholds.2 m' hm')⟩
      have hafter : EngineHolds env (pending ++ [m]) e' := by
        refine ⟨hgrown, fun m' hm' => ?_⟩
        rcases List.mem_append.1 hm' with hm' | hm'
        · exact hbefore.2 m' hm'
        · exact List.mem_singleton.1 hm' ▸ hm
      have hacked' : s.acked ++ [m] = flushed ++ (pending ++ [m]) := by rw [hacked, List.append_assoc]
      split
      · split
        · next hflush => exact storeHolds_flush hflushed hbefore hflush rfl rfl hacked
        · next hflush => exact storeHolds_flush hflushed hafter hflush rfl rfl hacked'
      · exact storeHolds_of_engine rfl hacked' hflushed hafter

theorem survives_of_holds (h : StoreHolds env s) : Survives env s := by
  intro cut stale kept
  have hcrashed := storeHolds_step hsync hcodec s (.crash none cut stale kept) h
    fun e _ => trivial
  have hnone : (storeStep env s (.crash none cut stale kept)).engine = none := by
    cases hengine : s.engine <;> simp only [storeStep, hengine, Store.crash]
  have hsame : (storeStep env s (.crash none cut stale kept)).acked = s.acked := by
    cases hengine : s.engine <;> simp only [storeStep, hengine, Store.crash]
  generalize storeStep env s (.crash none cut stale kept) = crashed at *
  obtain ⟨flushed, pending, hacked, hflushed, hholds⟩ := hcrashed
  rw [hnone] at hholds
  obtain ⟨e, file', hopen, hreplayed, hmem, -⟩ := openLog_holds hholds
  refine ⟨e, ?_, flushed, pending, hsame ▸ hacked, hflushed, hreplayed ▸ hholds.2, hreplayed ▸ hmem⟩
  simp only [storeStep, hnone, Store.reopen, hopen]

end

/-- In every run whose writes log cleanly, what was acknowledged survives a crash at any point. -/
theorem acknowledged_writes_survive (env : WriteEnv) (hsync : env.durability = .syncEachWrite)
    (hcodec : ∀ m p, env.encode m = .ok p → env.decode p = some m) (events : List StoreEvent)
    (hrun : Machine.Along (storeStep env) (StepLogsCleanly env) Store.fresh events) :
    Survives env (Machine.run (storeStep env) Store.fresh events) := by
  refine survives_of_holds hsync hcodec (Machine.inv_of_along (storeHolds_step hsync hcodec) ?_ hrun)
  exact ⟨[], [], rfl, fun m hm => (nomatch hm), replayable_nil, List.nil_sublist _⟩

end Writes

/-- Where the log has no torn bytes, a mutation with a proper key logs cleanly. -/
theorem stepLogsCleanly_write {inRuntime : Bool} {flush : Option FlushFault}
    (htorn : (s.engine.map fun e => e.wal.torn) = some false)
    (hkey : ∃ key, env.decoratedKey m = .ok key) :
    StepLogsCleanly env s (.write m faults inRuntime flush) := by
  intro e hengine payload _
  rw [hengine] at htorn
  have hwhole : e.wal.torn = false := Option.some.inj htorn
  cases faults.append with
  | none => exact ⟨hwhole, hkey⟩
  | some fault =>
    intro ht
    rw [hwhole] at ht
    cases ht

end Recovery

/-! ### A log of one-byte mutations -/

/-- A mutation that lacks its key column. -/
def keyless : Mutation := .new ⟨[]⟩ none [] 100 none

/-- The row `id = n` with a note. -/
def noteOf (n : Int) (note : Bytes) : Mutation := rowOf n [.write "note" (.blob note)]

/-- What can be logged are rows with a small key, bare or with a note, and `keyless`. -/
def encodeRow : Mutation → Except Error Bytes
  | ⟨⟨[("id", .integer n)]⟩, none, [], 100, none, none, [], none, none, none⟩ =>
    if 0 ≤ n ∧ n < 256 then .ok [n.toNat.toUInt8] else .error (.storage "not a byte")
  | ⟨⟨[("id", .integer n)]⟩, none, [.write "note" (.blob (b :: note))], 100, none, none, [], none,
      none, none⟩ =>
    if 0 ≤ n ∧ n < 256 then .ok (n.toNat.toUInt8 :: b :: note) else .error (.storage "not a byte")
  | ⟨⟨[]⟩, none, [], 100, none, none, [], none, none, none⟩ => .ok []
  | _ => .error (.storage "not a row")

def decodeRow : Bytes → Option Mutation
  | [] => some keyless
  | [b] => some (rowOf b.toNat [])
  | b :: note => some (noteOf b.toNat note)

def loggedEnv : WriteEnv :=
  { plainEnv with
    durability := .syncEachWrite
    memtableHardLimit := 2 ^ 20
    memtableFlushThreshold := 2 ^ 19
    encode := encodeRow
    decode := decodeRow }

theorem loggedEnv_codec (m : Mutation) (p : Bytes) (h : loggedEnv.encode m = .ok p) :
    loggedEnv.decode p = some m := by
  change encodeRow m = .ok p at h
  unfold encodeRow at h
  have hbyte : ∀ n : Int, 0 ≤ n ∧ n < 256 → ((n.toNat.toUInt8).toNat : Int) = n := by
    intro n hn
    rw [Nat.toUInt8, UInt8.toNat_ofNat']
    omega
  split at h
  · split at h
    · next n hn =>
      cases h
      change some (rowOf ((n.toNat.toUInt8).toNat : Int) []) = _
      rw [hbyte n hn]
      rfl
    · cases h
  · split at h
    · next n b note hn =>
      cases h
      change some (noteOf ((n.toNat.toUInt8).toNat : Int) (b :: note)) = _
      rw [hbyte n hn]
      rfl
    · cases h
  · cases h
    rfl
  · cases h

/-- A row is acknowledged; then a mutation is logged and refused, because its key cannot be written. -/
def keylessAfterRow : List StoreEvent :=
  [.reopen none, .write (rowOf 1 []) .none true none, .write keyless .none true none]

/-- A payload above the 4096 bytes of the write buffer pushes the header out and then fails; a write
    is acknowledged behind the eight bytes. -/
def writeBehindTorn : List StoreEvent :=
  [.reopen none,
    .write (noteOf 1 (List.replicate 4096 0)) ⟨some ⟨8, "no space left"⟩, none⟩ true none,
    .write (rowOf 2 []) .none true none]

/-- In the first run the restart fails; in the second the acknowledged row is in no SSTable, and the
    replay stops before it. -/
theorem acknowledged_writes_lost :
    ¬ Survives loggedEnv (Machine.run (storeStep loggedEnv) Store.fresh keylessAfterRow) ∧
      ¬ Survives loggedEnv (Machine.run (storeStep loggedEnv) Store.fresh writeBehindTorn) := by
  constructor
  · intro h
    obtain ⟨e, hengine, -⟩ := h 100 false false
    have hfails : ((storeStep loggedEnv (storeStep loggedEnv
        (Machine.run (storeStep loggedEnv) Store.fresh keylessAfterRow) (.crash none 100 false false))
        (.reopen none)).engine.isSome) = false := by decide +kernel
    rw [hengine] at hfails
    cases hfails
  · intro h
    obtain ⟨e, hengine, flushed, pending, hacked, hflushed, hpending, -⟩ := h 100 false false
    have hreplay : ((storeStep loggedEnv (storeStep loggedEnv
        (Machine.run (storeStep loggedEnv) Store.fresh writeBehindTorn) (.crash none 100 false false))
        (.reopen none)).engine.map fun e => (replay loggedEnv.decode e.wal.log).mutations.length) =
        some 0 := by decide +kernel
    have hdir : (storeStep loggedEnv (Machine.run (storeStep loggedEnv) Store.fresh writeBehindTorn)
        (.crash none 100 false false)).dir.published.length = 0 := by decide +kernel
    have hcount : (Machine.run (storeStep loggedEnv) Store.fresh writeBehindTorn).acked.length = 1 := by
      decide +kernel
    rw [hengine] at hreplay
    rw [List.length_eq_zero_iff.1 (Option.some.inj hreplay), List.sublist_nil] at hpending
    cases flushed with
    | nil =>
      rw [hacked, hpending] at hcount
      cases hcount
    | cons m flushed =>
      obtain ⟨sstable, hmem, -⟩ := hflushed m List.mem_cons_self
      rw [List.length_eq_zero_iff.1 hdir] at hmem
      cases hmem

/-- One row is flushed and one is not; a crash leaves an SSTable that was not synced. -/
def writeFlushWrite : List StoreEvent :=
  [.reopen none, .write (rowOf 1 []) .none true none, .flush (some (.syncDir "failed")),
    .write (rowOf 2 []) .none true none, .crash none 0 false true, .reopen none,
    .write (rowOf 3 []) .none true none]

/-- A run with a flush and a crash. -/
theorem write_flush_write_survives :
    Survives loggedEnv (Machine.run (storeStep loggedEnv) Store.fresh writeFlushWrite) := by
  refine acknowledged_writes_survive loggedEnv rfl loggedEnv_codec writeFlushWrite
    ⟨?_, ?_, ?_, ?_, ?_, ?_, ?_, trivial⟩
  · exact fun e _ => trivial
  · exact stepLogsCleanly_write (by decide +kernel) ⟨_, rfl⟩
  · exact fun e _ => trivial
  · exact stepLogsCleanly_write (by decide +kernel) ⟨_, rfl⟩
  · exact fun e _ => trivial
  · exact fun e _ => trivial
  · exact stepLogsCleanly_write (by decide +kernel) ⟨_, rfl⟩

end Cqlite
