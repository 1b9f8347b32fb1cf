import Cqlite.Engine.Memtable
import Cqlite.Engine.Mutation
import Cqlite.Engine.Wal

/-! The write path (`write_engine/mod.rs`): checks, log, memtable, and the loop over the statements
    of a batch.

    The observability calls are left out. The value encodings (`bincode`, the partition-key
    serializer), the checksum and the size estimator are parameters. -/

namespace Cqlite

/-- Whether a write goes through the log. -/
inductive Durability
  | syncEachWrite
  | disabled
  deriving DecidableEq, Repr

/-- The configuration of an engine and the encodings it uses. -/
structure WriteEnv where
  durability : Durability
  memtableHardLimit : Nat
  memtableFlushThreshold : Nat
  partitionKeys : List KeyColumn
  encode : Mutation → Except Error Bytes
  decode : Bytes → Option Mutation
  serializeValue : Value → KeyColumn → Except Error Bytes
  estimateMutationSize : Mutation → Nat

/-- The part of a `WriteEngine` that a write changes. -/
structure Engine where
  closed : Bool
  wal : Wal
  memtable : Memtable Mutation
  rowsWritten : Nat

def WriteEnv.decoratedKey (env : WriteEnv) (m : Mutation) : Except Error DecoratedKey :=
  m.partitionKey.toDecoratedKey env.serializeValue env.partitionKeys

/-! ### The checks -/

/-- Whether an operation writes a counter. -/
def writesCounter : CellOperation → Bool
  | .write _ (.counter _) => true
  | .writeWithTtl _ (.counter _) _ _ => true
  | _ => false

def rejectCounterCells (m : Mutation) : Except Error Unit :=
  if m.operations.any writesCounter then
    .error (.invalidOperation ("counter writes are not supported via the standard mutation path; " ++
      "counter columns require server-side distributed increment semantics"))
  else .ok ()

def checkAdmission (env : WriteEnv) (t : Memtable Mutation) (m : Mutation) : Except Error Unit :=
  let hardLimit := env.memtableHardLimit
  let incoming := env.estimateMutationSize m
  if incoming = usizeMax then
    .error (.storage ("Write rejected: mutation size could not be bounded (estimator fail-closed " ++
      "sentinel); refusing admission"))
  else if hardLimit < incoming then
    .error (.storage ("Write rejected: single mutation estimated at " ++ toString incoming ++
      " bytes exceeds memtable hard limit " ++ toString hardLimit ++
      " bytes (a single mutation may not exceed the hard limit)"))
  else if hardLimit < Memtable.saturatingAdd t.sizeBytes incoming then
    .error (.storage ("Write rejected: memtable " ++ toString t.sizeBytes ++ " + mutation " ++
      toString incoming ++ " would exceed hard limit " ++ toString hardLimit))
  else .ok ()

/-- The checks that run before anything is written. -/
def checkWrite (env : WriteEnv) (e : Engine) (m : Mutation) : Except Error Unit := do
  if e.closed then throw (.invalidInput "WriteEngine has been closed")
  rejectCounterCells m
  checkAdmission env e.memtable m

/-! ### One write -/

/-- The faults the file system may raise during one write. -/
structure WriteFaults where
  append : Option Wal.AppendFault
  sync : Option String

def WriteFaults.none : WriteFaults := ⟨Option.none, Option.none⟩

section Writes

variable [Checksum]

/-- Append and fsync, skipped when the log is disabled. -/
def logMutation (env : WriteEnv) (faults : WriteFaults) (w : Wal) (m : Mutation) :
    Except Error Unit × Wal :=
  match env.durability with
  | .disabled => (.ok (), w)
  | .syncEachWrite =>
    match w.append env.encode faults.append m with
    | (.error err, w) => (.error err, w)
    | (.ok (), w) => w.sync faults.sync

/-- `write_into_memtable`. The log comes before the key: a mutation whose key cannot be encoded is
    already in it. -/
def writeIntoMemtable (env : WriteEnv) (faults : WriteFaults) (e : Engine) (m : Mutation) :
    Except Error Unit × Engine :=
  match checkWrite env e m with
  | .error err => (.error err, e)
  | .ok () =>
    match logMutation env faults e.wal m with
    | (.error err, wal) => (.error err, { e with wal := wal })
    | (.ok (), wal) =>
      match env.decoratedKey m with
      | .error err => (.error err, { e with wal := wal })
      | .ok key =>
        (.ok (), { e with
          wal := wal
          memtable := e.memtable.insertWithKey env.estimateMutationSize key m
          rowsWritten := e.rowsWritten + 1 })

/-- A flush, which may fail. -/
abbrev Flush := Engine → Except Error Unit × Engine

/-- The automatic flush after an insert, when the memtable is over its threshold. -/
def autoFlush (env : WriteEnv) (flush : Flush) (e : Engine) : Except Error Unit × Engine :=
  if e.memtable.shouldFlush env.memtableFlushThreshold then flush e else (.ok (), e)

/-- An insert followed by the automatic flush. -/
def writeThenFlush (env : WriteEnv) (flush : Flush) (faults : WriteFaults) (e : Engine)
    (m : Mutation) : Except Error Unit × Engine :=
  match writeIntoMemtable env faults e m with
  | (.error err, e) => (.error err, e)
  | (.ok (), e) => autoFlush env flush e

/-- `write_inner`: inside a runtime the sync path never flushes. -/
def writeInner (env : WriteEnv) (flush : Flush) (inRuntime : Bool) (faults : WriteFaults)
    (e : Engine) (m : Mutation) : Except Error Unit × Engine :=
  writeThenFlush env (if inRuntime then fun e => (.ok (), e) else flush) faults e m

/-- `write_async_inner`. -/
def writeAsyncInner (env : WriteEnv) (flush : Flush) (faults : WriteFaults) (e : Engine)
    (m : Mutation) : Except Error Unit × Engine :=
  writeThenFlush env flush faults e m

/-! ### Batches -/

/-- The loop over the mutations of a statement: the first error ends it. -/
def runBatch (write : Engine → Mutation → Except Error Unit × Engine) :
    Engine → List Mutation → Except Error Unit × Engine
  | e, [] => (.ok (), e)
  | e, m :: ms =>
    match write e m with
    | (.error err, e) => (.error err, e)
    | (.ok (), e) => runBatch write e ms

/-- `execute_inner_counted`, after parsing. -/
def executeInner (env : WriteEnv) (flush : Flush) (inRuntime : Bool) (faults : WriteFaults)
    (e : Engine) (ms : List Mutation) : Except Error Unit × Engine :=
  if e.closed then (.error (.invalidInput "WriteEngine has been closed"), e)
  else runBatch (writeInner env flush inRuntime faults) e ms

/-- `execute_flushing_inner`, after parsing. -/
def executeFlushingInner (env : WriteEnv) (flush : Flush) (faults : WriteFaults) (e : Engine)
    (ms : List Mutation) : Except Error Unit × Engine :=
  if e.closed then (.error (.invalidInput "WriteEngine has been closed"), e)
  else runBatch (writeThenFlush env flush faults) e ms

/-! ### What a failed write leaves behind -/

variable {env : WriteEnv} {err : Error} {m : Mutation} {e e' : Engine}

/-- Without I/O faults a mutation that the log refuses leaves no trace in it. -/
theorem logMutation_error {w w' : Wal} (h : logMutation env .none w m = (.error err, w')) :
    w' = w := by
  rw [logMutation] at h
  split at h
  · cases h
  split at h
  · rename_i w₁ happ
    rcases Wal.append_cases happ with ⟨_, -, rfl⟩ | ⟨_, _, -, -, -, -, hf, -, -⟩ |
      ⟨_, -, -, -, -, -, hr, -⟩
    · exact (Prod.mk.inj h).2.symm
    · cases hf
    · cases hr
  · rename_i w₁ happ
    rcases Wal.append_cases happ with ⟨_, hr, -⟩ | ⟨_, _, -, -, -, -, -, hr, -⟩ |
      ⟨_, hp, -, -, -, -, -, rfl⟩
    · cases hr
    · cases hr
    · -- the append went through, so the handle is not poisoned and the fsync succeeds
      rcases Wal.sync_cases h with ⟨_, -, -, hfault⟩ | ⟨hr, -⟩
      · simp [Wal.appended, hp, WriteFaults.none] at hfault
      · cases hr

/-- A refused write: the memtable and the counters stay, and so does the log unless the key of the
    mutation could not be encoded. -/
def Refused (env : WriteEnv) (e : Engine) (m : Mutation) (e' : Engine) : Prop :=
  e' = { e with wal := e'.wal } ∧ ((∃ key, env.decoratedKey m = .ok key) → e' = e)

omit [Checksum] in
theorem Refused.refl (env : WriteEnv) (e : Engine) (m : Mutation) : Refused env e m e :=
  ⟨rfl, fun _ => rfl⟩

theorem writeIntoMemtable_error (h : writeIntoMemtable env .none e m = (.error err, e')) :
    Refused env e m e' := by
  rw [writeIntoMemtable] at h
  split at h
  · obtain rfl := (Prod.mk.inj h).2
    exact .refl env e m
  split at h
  · rename_i wal hlog
    obtain rfl := logMutation_error hlog
    obtain rfl := (Prod.mk.inj h).2
    exact .refl env e m
  split at h
  · rename_i hkey
    obtain rfl := (Prod.mk.inj h).2
    refine ⟨rfl, ?_⟩
    rintro ⟨key, hok⟩
    rw [hkey] at hok
    cases hok
  · cases h

/-- A write that returns an error was refused, or was applied and then met a failing flush. -/
def WriteFailed (env : WriteEnv) (flush : Flush) (e : Engine) (m : Mutation) (err : Error)
    (e' : Engine) : Prop :=
  Refused env e m e' ∨
    ∃ e₁, writeIntoMemtable env .none e m = (.ok (), e₁) ∧ flush e₁ = (.error err, e')

theorem writeThenFlush_error {flush : Flush}
    (h : writeThenFlush env flush .none e m = (.error err, e')) :
    WriteFailed env flush e m err e' := by
  rw [writeThenFlush] at h
  split at h
  · rename_i hw
    obtain rfl := (Prod.mk.inj h).2
    exact .inl (writeIntoMemtable_error hw)
  · rename_i e₁ hw
    rw [autoFlush] at h
    split at h
    · exact .inr ⟨e₁, hw, h⟩
    · cases h

theorem writeInner_error {flush : Flush} {inRuntime : Bool}
    (h : writeInner env flush inRuntime .none e m = (.error err, e')) :
    WriteFailed env flush e m err e' := by
  rw [writeInner] at h
  rcases writeThenFlush_error h with href | ⟨e₁, hw, hflush⟩
  · exact .inl href
  · cases inRuntime with
    | true => cases hflush
    | false => exact .inr ⟨e₁, hw, hflush⟩

omit [Checksum] in
/-- The mutations before the failing one, and only they, went through. -/
theorem runBatch_error {write : Engine → Mutation → Except Error Unit × Engine} {ms : List Mutation}
    (h : runBatch write e ms = (.error err, e')) :
    ∃ before m after e₁, ms = before ++ m :: after ∧ runBatch write e before = (.ok (), e₁) ∧
      write e₁ m = (.error err, e') := by
  induction ms generalizing e with
  | nil => cases h
  | cons m ms ih =>
    rw [runBatch] at h
    split at h
    · rename_i hw
      exact ⟨[], m, ms, e, rfl, rfl, hw.trans h⟩
    · rename_i e₁ hw
      obtain ⟨before, m', after, e₂, rfl, hrun, hfail⟩ := ih h
      refine ⟨m :: before, m', after, e₂, rfl, ?_, hfail⟩
      rw [runBatch, hw]
      exact hrun

/-- A failed batch: a prefix of it went through as if it had been the whole batch, and the next
    mutation failed. -/
def BatchFailed (env : WriteEnv) (flush : Flush)
    (execute : Engine → List Mutation → Except Error Unit × Engine) (e : Engine)
    (ms : List Mutation) (err : Error) (e' : Engine) : Prop :=
  ∃ before m after e₁, ms = before ++ m :: after ∧ execute e before = (.ok (), e₁) ∧
    WriteFailed env flush e₁ m err e'

/-- A rejected write leaves the engine as it was, a mutation that is logged before its key is found
    to be invalid apart; a batch that fails has applied exactly the mutations before the failing
    one. -/
theorem rejected_write_keeps_engine (env : WriteEnv) (flush : Flush) (inRuntime : Bool)
    (e e' : Engine) (err : Error) :
    (∀ m, writeInner env flush inRuntime .none e m = (.error err, e') →
      WriteFailed env flush e m err e') ∧
    (∀ m, writeAsyncInner env flush .none e m = (.error err, e') →
      WriteFailed env flush e m err e') ∧
    (∀ ms, executeInner env flush inRuntime .none e ms = (.error err, e') → e' = e ∨
      BatchFailed env flush (executeInner env flush inRuntime .none) e ms err e') ∧
    (∀ ms, executeFlushingInner env flush .none e ms = (.error err, e') → e' = e ∨
      BatchFailed env flush (executeFlushingInner env flush .none) e ms err e') := by
  refine ⟨fun m h => writeInner_error h, fun m h => writeThenFlush_error h, ?_, ?_⟩
  · intro ms h
    rw [executeInner] at h
    split at h
    · exact .inl (Prod.mk.inj h).2.symm
    · rename_i hopen
      obtain ⟨before, m, after, e₁, rfl, hrun, hfail⟩ := runBatch_error h
      refine .inr ⟨before, m, after, e₁, rfl, ?_, writeInner_error hfail⟩
      rw [executeInner, if_neg hopen, hrun]
  · intro ms h
    rw [executeFlushingInner] at h
    split at h
    · exact .inl (Prod.mk.inj h).2.symm
    · rename_i hopen
      obtain ⟨before, m, after, e₁, rfl, hrun, hfail⟩ := runBatch_error h
      refine .inr ⟨before, m, after, e₁, rfl, ?_, writeThenFlush_error hfail⟩
      rw [executeFlushingInner, if_neg hopen, hrun]

end Writes

/-! ### A batch with a bad second statement -/

/-- One `int` key column and no log; the estimate is the one of a mutation without operations. -/
def plainEnv : WriteEnv where
  durability := .disabled
  memtableHardLimit := 1024
  memtableFlushThreshold := 512
  partitionKeys := [⟨"id", "int"⟩]
  encode _ := .error (.storage "unused")
  decode _ := none
  serializeValue
    | .integer n, _ => .ok ((leBytes (asU32 n).toNat).reverse)
    | _, _ => .error (.invalidInput "not an int")
  estimateMutationSize m := 48 + (m.partitionKey.columns.map fun c => c.1.length + 4).sum

def plainEngine : Engine := ⟨false, .create, .new, 0⟩

/-- A mutation of the partition `id = n`. -/
def rowOf (n : Int) (operations : List CellOperation) : Mutation :=
  .new ⟨[("id", .integer n)]⟩ none operations 100 none

/-- The second mutation writes a counter. -/
def mixedBatch : List Mutation := [rowOf 1 [], rowOf 2 [.write "hits" (.counter 1)]]

/-- A batch is not atomic: the statement before the rejected one stays applied. -/
theorem mixedBatch_half_applied :
    (executeFlushingInner plainEnv (fun e => (.ok (), e)) .none plainEngine mixedBatch).1.isOk = false ∧
    plainEngine.memtable.rowCount = 0 ∧
    (executeFlushingInner plainEnv (fun e => (.ok (), e)) .none plainEngine
      mixedBatch).2.memtable.rowCount = 1 := by
  decide +kernel

/-- A counter write is refused and leaves the engine as it was. -/
theorem counter_write_refused :
    ∃ err, writeInner plainEnv (fun e => (.ok (), e)) true .none plainEngine
        (rowOf 2 [.write "hits" (.counter 1)]) = (.error err, plainEngine) ∧
      WriteFailed plainEnv (fun e => (.ok (), e)) plainEngine (rowOf 2 [.write "hits" (.counter 1)])
        err plainEngine :=
  ⟨_, rfl, (rejected_write_keeps_engine plainEnv (fun e => (.ok (), e)) true plainEngine plainEngine
    _).1 _ rfl⟩

end Cqlite
