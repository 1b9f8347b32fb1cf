import Cqlite.Engine.MutationSize

/-! The hard limit of the memtable over runs (`write_engine/mod.rs`).

    Admission and accounting use the same estimate, so the counter of the memtable is the sum of the
    estimates of what it stores, and it stays within the limit. It bounds the payload of the memtable
    as far as the fixed overheads make up for what the estimate leaves out. -/

namespace Cqlite

/-! ### Runs -/

/-- An environment whose estimator is the one of the memtable. -/
def WriteEnv.measured (env : WriteEnv) : WriteEnv :=
  { env with estimateMutationSize := Memtable.mutationSize }

/-- The flush of an engine, the table directory apart. -/
def flushOf (fault : Option FlushFault) (dir : TableDir) : Flush := fun e =>
  ((flushInternalAsync fault dir e).1, (flushInternalAsync fault dir e).2.2)

/-- What is done to an engine; the file system may raise faults, and a flush may fail. -/
inductive EngineCall
  | write (m : Mutation) (inRuntime : Bool)
  | writeAsync (m : Mutation)
  | execute (ms : List Mutation) (inRuntime : Bool)
  | executeFlushing (ms : List Mutation)
  | flush

/-- A call with the faults it meets. -/
structure FaultyCall where
  call : EngineCall
  faults : WriteFaults
  flushFault : Option FlushFault
  dir : TableDir

def engineStep [Checksum] (env : WriteEnv) (e : Engine) (c : FaultyCall) : Engine :=
  let flush := flushOf c.flushFault c.dir
  match c.call with
  | .write m inRuntime => (writeInner env flush inRuntime c.faults e m).2
  | .writeAsync m => (writeAsyncInner env flush c.faults e m).2
  | .execute ms inRuntime => (executeInner env flush inRuntime c.faults e ms).2
  | .executeFlushing ms => (executeFlushingInner env flush c.faults e ms).2
  | .flush => if e.closed then e else (flush e).2

/-! ### The ledger -/

variable {limit : Nat} {m : Mutation} {t : Memtable Mutation}

namespace Memtable

/-- `saturating_add` over a list. -/
def saturatingSum (sizes : List Nat) : Nat := sizes.foldl saturatingAdd 0

theorem saturatingSum_eq (sizes : List Nat) : saturatingSum sizes = min usizeMax sizes.sum := by
  have hfold : ∀ x : Nat, x ≤ usizeMax →
      sizes.foldl saturatingAdd x = min usizeMax (x + sizes.sum) := by
    induction sizes with
    | nil => exact fun x hx => by simpa using hx
    | cons size sizes ih =>
      intro x hx
      rw [List.foldl_cons, ih _ (saturatingAdd_le _ _), List.sum_cons, saturatingAdd]
      omega
  rw [saturatingSum, hfold 0 (Nat.zero_le _), Nat.zero_add]

theorem mutations_insertWithKey (t : Memtable Mutation) (size : Mutation → Nat) (key : DecoratedKey)
    (m : Mutation) : (t.insertWithKey size key m).mutations.Perm (m :: t.mutations) := by
  change ((entryPush t.data key m).flatMap (·.2)).Perm (m :: t.data.flatMap (·.2))
  induction t.data with
  | nil => exact .refl _
  | cons p rest ih =>
    obtain ⟨k, ms⟩ := p
    rw [entryPush]
    split
    · exact .refl _
    · rw [List.flatMap_cons, List.flatMap_cons, List.append_assoc]
      exact List.perm_middle
    · rw [List.flatMap_cons, List.flatMap_cons]
      exact (ih.append_left ms).trans List.perm_middle

/-- The counter is the sum of the sizes, it is within the limit, and what is stored could be
    measured. -/
structure Ledger (limit : Nat) (t : Memtable Mutation) : Prop where
  size : t.sizeBytes = saturatingSum (t.mutations.map mutationSize)
  within : t.sizeBytes ≤ limit
  measured : ∀ m ∈ t.mutations, mutationSize m < usizeMax

theorem ledger_new (limit : Nat) : Ledger limit new := ⟨rfl, Nat.zero_le _, by simp [mutations, new]⟩

theorem Ledger.insert (h : Ledger limit t) (hm : mutationSize m < usizeMax)
    (hlimit : saturatingAdd t.sizeBytes (mutationSize m) ≤ limit) (key : DecoratedKey) :
    Ledger limit (t.insertWithKey mutationSize key m) := by
  have hperm := mutations_insertWithKey t mutationSize key m
  refine ⟨?_, hlimit, ?_⟩
  · change saturatingAdd t.sizeBytes (mutationSize m) = _
    rw [saturatingSum_eq, (hperm.map mutationSize).sum_nat, List.map_cons, List.sum_cons, h.size,
      saturatingSum_eq, saturatingAdd]
    omega
  · intro m' hm'
    rcases List.mem_cons.mp (hperm.mem_iff.mp hm') with rfl | hold
    · exact hm
    · exact h.measured m' hold

end Memtable

open Memtable

/-! ### Calls keep the ledger -/

section Calls

variable [Checksum] {env : WriteEnv} {limit : Nat}

variable {e : Engine} {faults : WriteFaults}

/-- A write is refused and leaves the memtable, or its mutation is admitted and inserted. -/
theorem writeIntoMemtable_memtable {e' : Engine} {r : Except Error Unit}
    (h : writeIntoMemtable env faults e m = (r, e')) :
    ((∃ err, r = .error err) ∧ e'.memtable = e.memtable) ∨
      (r = .ok () ∧ checkAdmission env e.memtable m = .ok () ∧
        ∃ key, e'.memtable = e.memtable.insertWithKey env.estimateMutationSize key m) := by
  rw [writeIntoMemtable] at h
  split at h
  · obtain ⟨rfl, rfl⟩ := Prod.mk.inj h
    exact .inl ⟨⟨_, rfl⟩, rfl⟩
  next hcheck =>
  have hadmitted : checkAdmission env e.memtable m = .ok () := by
    rw [checkWrite] at hcheck
    cases hclosed : e.closed with
    | true =>
      rw [hclosed] at hcheck
      cases hcheck
    | false =>
      rw [hclosed] at hcheck
      obtain ⟨-, -, hadmitted⟩ := bind_eq_ok.mp hcheck
      exact hadmitted
  split at h
  · obtain ⟨rfl, rfl⟩ := Prod.mk.inj h
    exact .inl ⟨⟨_, rfl⟩, rfl⟩
  split at h
  · obtain ⟨rfl, rfl⟩ := Prod.mk.inj h
    exact .inl ⟨⟨_, rfl⟩, rfl⟩
  · next key _ =>
    obtain ⟨rfl, rfl⟩ := Prod.mk.inj h
    exact .inr ⟨rfl, hadmitted, key, rfl⟩

omit [Checksum] in
theorem checkAdmission_eq_ok (h : checkAdmission env t m = .ok ()) :
    env.estimateMutationSize m ≠ usizeMax ∧
      saturatingAdd t.sizeBytes (env.estimateMutationSize m) ≤ env.memtableHardLimit := by
  dsimp only [checkAdmission] at h
  split at h
  · cases h
  next hsentinel =>
  split at h
  · cases h
  split at h
  · cases h
  next hlimit => exact ⟨hsentinel, by omega⟩

theorem ledger_writeIntoMemtable {e' : Engine} {r : Except Error Unit}
    (h : Ledger env.memtableHardLimit e.memtable)
    (hwrite : writeIntoMemtable env.measured faults e m = (r, e')) :
    Ledger env.memtableHardLimit e'.memtable := by
  rcases writeIntoMemtable_memtable hwrite with ⟨-, hkept⟩ | ⟨-, hadmitted, key, hnew⟩
  · rw [hkept]
    exact h
  · obtain ⟨hsentinel, hlimit⟩ := checkAdmission_eq_ok hadmitted
    rw [hnew]
    exact h.insert (lt_of_le_of_ne (mutationSize_le m) hsentinel) hlimit key

omit [Checksum] in
theorem ledger_flushOf {fault : Option FlushFault} {dir : TableDir} (h : Ledger limit e.memtable) :
    Ledger limit (flushOf fault dir e).2.memtable := by
  unfold flushOf flushInternalAsync
  split
  · exact h
  split
  · exact h
  · exact h
  · exact ledger_new limit
  · exact ledger_new limit

theorem ledger_writeThenFlush {flush : Flush} (h : Ledger env.memtableHardLimit e.memtable)
    (hflush : ∀ e, Ledger env.memtableHardLimit e.memtable →
      Ledger env.memtableHardLimit (flush e).2.memtable) :
    Ledger env.memtableHardLimit (writeThenFlush env.measured flush faults e m).2.memtable := by
  rw [writeThenFlush]
  split
  · next hwrite => exact ledger_writeIntoMemtable h hwrite
  · next hwrite =>
    have hinserted := ledger_writeIntoMemtable h hwrite
    rw [autoFlush]
    split
    · exact hflush _ hinserted
    · exact hinserted

omit [Checksum] in
theorem ledger_runBatch {write : Engine → Mutation → Except Error Unit × Engine}
    (hwrite : ∀ e m, Ledger limit e.memtable → Ledger limit (write e m).2.memtable)
    (h : Ledger limit e.memtable) (ms : List Mutation) :
    Ledger limit (runBatch write e ms).2.memtable := by
  induction ms generalizing e with
  | nil => exact h
  | cons m ms ih =>
    have hfirst := hwrite e m h
    rw [runBatch]
    split
    · next hfailed =>
      rw [hfailed] at hfirst
      exact hfirst
    · next hok =>
      rw [hok] at hfirst
      exact ih hfirst

/-- The step lemma of the counted bytes. -/
theorem ledger_engineStep (c : FaultyCall) (h : Ledger env.memtableHardLimit e.memtable) :
    Ledger env.memtableHardLimit (engineStep env.measured e c).memtable := by
  have hflush : ∀ e, Ledger env.memtableHardLimit e.memtable →
      Ledger env.memtableHardLimit (flushOf c.flushFault c.dir e).2.memtable :=
    fun _ h => ledger_flushOf h
  have hinner : ∀ inRuntime e m, Ledger env.memtableHardLimit e.memtable →
      Ledger env.memtableHardLimit
        (writeInner env.measured (flushOf c.flushFault c.dir) inRuntime c.faults e m).2.memtable := by
    intro inRuntime e m h
    refine ledger_writeThenFlush h ?_
    cases inRuntime with
    | true => exact fun _ h => h
    | false => exact hflush
  obtain ⟨call, faults, flushFault, dir⟩ := c
  cases call with
  | write m inRuntime => exact hinner inRuntime e m h
  | writeAsync m => exact ledger_writeThenFlush h hflush
  | execute ms inRuntime =>
    change Ledger _ (executeInner _ _ _ _ _ _).2.memtable
    rw [executeInner]
    split
    · exact h
    · exact ledger_runBatch (hinner inRuntime) h ms
  | executeFlushing ms =>
    change Ledger _ (executeFlushingInner _ _ _ _ _).2.memtable
    rw [executeFlushingInner]
    split
    · exact h
    · exact ledger_runBatch (fun _ _ h => ledger_writeThenFlush h hflush) h ms
  | flush =>
    change Ledger _ (if e.closed then e else (flushOf flushFault dir e).2).memtable
    split
    · exact h
    · exact hflush e h

end Calls

/-! ### What the limit bounds -/

/-- The limit bounds what the memtable holds: the payload is at most the counter, the counter is the
    saturating sum of the sizes of the stored mutations, and an admitted write leaves it at most the
    limit. -/
structure LimitBounds [Checksum] (env : WriteEnv) (e : Engine) : Prop where
  payload : (e.memtable.mutations.map payloadBytes).sum ≤ e.memtable.sizeBytes
  ledger : e.memtable.sizeBytes = saturatingSum (e.memtable.mutations.map mutationSize)
  admitted : ∀ faults m e', writeIntoMemtable env faults e m = (.ok (), e') →
    e'.memtable.sizeBytes ≤ env.memtableHardLimit

/-- The overheads of the stored mutations make up for what their sizes leave out, and the payload is
    within `usize`. -/
def OverheadsSuffice (t : Memtable Mutation) : Prop :=
  (t.mutations.map uncountedBytes).sum ≤ (t.mutations.map overheadBytes).sum ∧
    (t.mutations.map payloadBytes).sum ≤ usizeMax

instance (t : Memtable Mutation) : Decidable (OverheadsSuffice t) :=
  inferInstanceAs (Decidable (_ ∧ _))

theorem sum_weight_balance (ms : List Mutation) :
    (ms.map mutationWeight).sum + (ms.map uncountedBytes).sum =
      (ms.map payloadBytes).sum + (ms.map overheadBytes).sum := by
  rw [← sum_map_add_map, ← sum_map_add_map]
  exact congrArg List.sum (List.map_congr_left fun m _ => mutationWeight_balance m)

theorem Memtable.Ledger.sizeBytes_eq (h : Ledger limit t) :
    t.sizeBytes = min usizeMax (t.mutations.map mutationWeight).sum := by
  rw [h.size, saturatingSum_eq]
  congr 2
  exact List.map_congr_left fun m hm => exact_mutationSize m (h.measured m hm)

theorem Memtable.Ledger.payload_le_iff (h : Ledger limit t) :
    (t.mutations.map payloadBytes).sum ≤ t.sizeBytes ↔ OverheadsSuffice t := by
  have hbalance := sum_weight_balance t.mutations
  rw [h.sizeBytes_eq, OverheadsSuffice]
  omega

/-- At every point of a run that starts with an empty memtable, the counter is the sum of the sizes
    and admitted writes stay within the limit; the payload is at most the counter just when the fixed
    overheads of the stored mutations make up for the bytes that their sizes leave out. -/
theorem limit_bounds_iff [Checksum] (env : WriteEnv) (start : Engine) (hstart : start.memtable = .new)
    (calls : List FaultyCall) :
    LimitBounds env.measured (Machine.run (engineStep env.measured) start calls) ↔
      OverheadsSuffice (Machine.run (engineStep env.measured) start calls).memtable := by
  have hledger : Ledger env.memtableHardLimit
      (Machine.run (engineStep env.measured) start calls).memtable := by
    have hnew : Ledger env.memtableHardLimit start.memtable := by
      rw [hstart]
      exact ledger_new _
    have hstep : ∀ e c, Ledger env.memtableHardLimit (e : Engine).memtable →
        Ledger env.memtableHardLimit (engineStep env.measured e c).memtable :=
      fun e c h => ledger_engineStep c h
    exact Machine.inv_of_run hstep hnew calls
  constructor
  · exact fun h => hledger.payload_le_iff.mp h.payload
  · exact fun h => ⟨hledger.payload_le_iff.mpr h, hledger.size,
      fun _ _ _ hwrite => (ledger_writeIntoMemtable hledger hwrite).within⟩

/-! ### A bound that is not counted -/

/-- A mutation of the partition `id = n` that deletes a range with a bound of `k` bytes. -/
def rangeOf (n : Int) (k : Nat) : Mutation :=
  { rowOf n [] with
    rangeTombstones := [⟨.inclusive ⟨[("ck", .blob (List.replicate k 0))]⟩, .top, 100, 0⟩] }

def writeOf (m : Mutation) : FaultyCall := ⟨.writeAsync m, .none, none, ⟨[], none⟩⟩

/-- A bound of 100 bytes weighs nothing: the mutation counts for 54 bytes. -/
theorem long_bound_not_counted :
    ¬ ∀ calls, LimitBounds plainEnv.measured
      (Machine.run (engineStep plainEnv.measured) plainEngine calls) := by
  intro h
  have hpayload := (h [writeOf (rangeOf 1 100)]).payload
  revert hpayload
  decide +kernel

/-- A row and a range with a short bound. -/
theorem short_bound_within :
    LimitBounds plainEnv.measured (Machine.run (engineStep plainEnv.measured) plainEngine
      [writeOf (rowOf 1 [.write "name" (.text [])]), writeOf (rangeOf 2 10)]) :=
  (limit_bounds_iff plainEnv plainEngine rfl _).mpr (by decide +kernel)

end Cqlite
