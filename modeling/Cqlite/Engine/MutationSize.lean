import Cqlite.Engine.CrashRecovery

/-! What a mutation weighs (`write_engine/memtable.rs`), and the bytes it holds.

    The estimator walks the values of a mutation with a worklist and gives up at a cap of nodes. A
    part of its weight are fixed overheads, and some of the bytes of a mutation it does not see. -/

namespace Cqlite

namespace Memtable

/-! ### The estimator -/

def maxEstimateNodes : Nat := 1000000

/-- The values directly inside a value, in the order in which they are pushed. -/
def children : Value → List Value
  | .list items => items
  | .set items => items
  | .tuple items => items
  | .map entries => entries.flatMap fun e => [e.1, e.2]
  | .udt _ _ fields => fields.filterMap (·.2)
  | .frozen inner => [inner]
  | _ => []

/-- The bound on what a value pushes; a scalar pushes nothing and is not checked. -/
def incoming : Value → Option Nat
  | .list items => some items.length
  | .set items => some items.length
  | .tuple items => some items.length
  | .map entries => some (min usizeMax (entries.length * 2))
  | .udt _ _ fields => some fields.length
  | .frozen _ => some 1
  | _ => none

/-- What one node adds to the total. -/
def addNode (total : Nat) : Value → Nat
  | .null => total
  | .boolean _ => saturatingAdd total 1
  | .tinyInt _ => saturatingAdd total 1
  | .smallInt _ => saturatingAdd total 2
  | .integer _ => saturatingAdd total 4
  | .float32 _ => saturatingAdd total 4
  | .date _ => saturatingAdd total 4
  | .bigInt _ => saturatingAdd total 8
  | .counter _ => saturatingAdd total 8
  | .timestamp _ => saturatingAdd total 8
  | .time _ => saturatingAdd total 8
  | .float _ => saturatingAdd total 8
  | .uuid _ => saturatingAdd total 16
  | .duration _ _ _ => saturatingAdd total 16
  | .text s => saturatingAdd total s.length
  | .blob bytes => saturatingAdd total bytes.length
  | .varint bytes => saturatingAdd total bytes.length
  | .inet bytes => saturatingAdd total bytes.length
  | .decimal _ unscaled => saturatingAdd (saturatingAdd total 4) unscaled.length
  | .json repr => saturatingAdd total repr.utf8ByteSize
  | .tombstone _ => saturatingAdd total 24
  | .list _ => saturatingAdd total 16
  | .set _ => saturatingAdd total 16
  | .tuple _ => saturatingAdd total 16
  | .map _ => saturatingAdd total 16
  | .udt _ _ fields =>
    fields.foldl (fun total f => saturatingAdd total f.1.utf8ByteSize) (saturatingAdd total 16)
  | .frozen _ => saturatingAdd total 8

/-- The loop over the worklist, whose top is the head of the list. `left` more nodes may be visited:
    it is the cap less `visited`. -/
def estimateLoop : Nat → Nat → List Value → Nat
  | _, total, [] => total
  | 0, _, _ :: _ => usizeMax
  | left + 1, total, v :: worklist =>
    match incoming v with
    | none => estimateLoop left (addNode total v) worklist
    | some n =>
      if left < worklist.length + n then usizeMax
      else estimateLoop left (addNode total v) ((children v).reverse ++ worklist)

def estimateValueSize (value : Value) : Nat := estimateLoop maxEstimateNodes 0 [value]

def estimateOperationSize : CellOperation → Nat
  | .write column value =>
    saturatingAdd (saturatingAdd column.utf8ByteSize (estimateValueSize value)) 8
  | .writeWithTtl column value _ _ =>
    saturatingAdd (saturatingAdd column.utf8ByteSize (estimateValueSize value)) 16
  | .delete column _ => saturatingAdd column.utf8ByteSize 8
  | .deleteRow => 8
  | .writeComplexElement column cellPath value _ _ _ _ =>
    saturatingAdd (saturatingAdd (saturatingAdd column.utf8ByteSize cellPath.length)
      ((value.map estimateValueSize).getD 0)) 16
  | .complexDeletion column _ _ => saturatingAdd column.utf8ByteSize 16

/-- The columns of a key. -/
def addColumns (size : Nat) (columns : List (String × Value)) : Nat :=
  columns.foldl (fun size c =>
    saturatingAdd (saturatingAdd size c.1.utf8ByteSize) (estimateValueSize c.2)) size

def mutationSize (m : Mutation) : Nat :=
  let size := addColumns 48 m.partitionKey.columns
  let size := match m.clusteringKey with
    | some ck => addColumns size ck.columns
    | none => size
  m.operations.foldl (fun size op => saturatingAdd size (estimateOperationSize op)) size

/-! ### Sums over values -/

theorem sizeOf_children {v child : Value} (h : child ∈ children v) : sizeOf child < sizeOf v := by
  cases v with
  | list items | set items | tuple items =>
    have hmem : child ∈ items := h
    have := List.sizeOf_lt_of_mem hmem
    simp
    omega
  | map entries =>
    obtain ⟨e, he, hmem⟩ := List.mem_flatMap.mp h
    have := List.sizeOf_lt_of_mem he
    obtain ⟨k, v⟩ := e
    rcases List.mem_cons.mp hmem with rfl | hmem
    · simp at this ⊢
      omega
    · obtain rfl := List.mem_singleton.mp hmem
      simp at this ⊢
      omega
  | udt typeName keyspace fields =>
    obtain ⟨f, hf, hsome⟩ := List.mem_filterMap.mp h
    have := List.sizeOf_lt_of_mem hf
    obtain ⟨name, value⟩ := f
    obtain rfl : value = some child := hsome
    simp at this ⊢
    omega
  | frozen inner =>
    obtain rfl := List.mem_singleton.mp h
    simp
  | _ => cases h

/-- The sum of what all nodes of a value contribute. -/
def nodeSum (own : Value → Nat) (v : Value) : Nat :=
  own v + ((children v).attach.map fun child => nodeSum own child.1).sum
termination_by sizeOf v
decreasing_by exact sizeOf_children child.2

theorem nodeSum_eq (own : Value → Nat) (v : Value) :
    nodeSum own v = own v + ((children v).map (nodeSum own)).sum := by
  rw [nodeSum]
  congr 2
  rw [List.map_attach_eq_pmap, List.pmap_eq_map]

theorem sum_map_add_map {α : Type} (f g : α → Nat) (as : List α) :
    (as.map fun a => f a + g a).sum = (as.map f).sum + (as.map g).sum := by
  induction as with
  | nil => rfl
  | cons a as ih =>
    simp only [List.map_cons, List.sum_cons, ih]
    omega

theorem nodeSum_add (f g : Value → Nat) (v : Value) :
    nodeSum (fun v => f v + g v) v = nodeSum f v + nodeSum g v := by
  rw [nodeSum_eq, nodeSum_eq f, nodeSum_eq g]
  have hchildren : (children v).map (nodeSum fun v => f v + g v) =
      (children v).map fun child => nodeSum f child + nodeSum g child :=
    List.map_congr_left fun child hchild => nodeSum_add f g child
  rw [hchildren, sum_map_add_map]
  omega
termination_by sizeOf v
decreasing_by exact sizeOf_children hchild

/-! ### What a node weighs and holds -/

/-- The bytes of a scalar; 24 for the times of a tombstone. -/
def scalarBytes : Value → Nat
  | .boolean _ => 1
  | .tinyInt _ => 1
  | .smallInt _ => 2
  | .integer _ => 4
  | .float32 _ => 4
  | .date _ => 4
  | .bigInt _ => 8
  | .counter _ => 8
  | .timestamp _ => 8
  | .time _ => 8
  | .float _ => 8
  | .uuid _ => 16
  | .duration _ _ _ => 16
  | .text s => s.length
  | .blob bytes => bytes.length
  | .varint bytes => bytes.length
  | .inet bytes => bytes.length
  | .decimal _ unscaled => 4 + unscaled.length
  | .json repr => repr.utf8ByteSize
  | .tombstone _ => 24
  | _ => 0

/-- The field names of a user-defined type. -/
def fieldNames : Value → Nat
  | .udt _ _ fields => (fields.map (·.1.utf8ByteSize)).sum
  | _ => 0

/-- The fixed weight of a container. -/
def containerOverhead : Value → Nat
  | .list _ => 16
  | .set _ => 16
  | .tuple _ => 16
  | .map _ => 16
  | .udt _ _ _ => 16
  | .frozen _ => 8
  | _ => 0

/-- The bytes of a node that the estimator does not see: the names of a user-defined type and of its
    keyspace, and the range of a tombstone. -/
def unseenBytes : Value → Nat
  | .udt typeName keyspace _ => typeName.utf8ByteSize + keyspace.utf8ByteSize
  | .tombstone info => (info.rangeStart.getD []).length + (info.rangeEnd.getD []).length
  | _ => 0

/-- The weight of a node. -/
def ownSize (v : Value) : Nat := scalarBytes v + fieldNames v + containerOverhead v

/-- The bytes of a node. -/
def ownPayload (v : Value) : Nat := scalarBytes v + fieldNames v + unseenBytes v

/-! ### What a mutation weighs and holds -/

/-- The values of an operation, each seen alone. -/
def operationValues : CellOperation → List Value
  | .write _ value => [value]
  | .writeWithTtl _ value _ _ => [value]
  | .writeComplexElement _ _ value _ _ _ _ => value.toList
  | _ => []

/-- The column and the cell path of an operation. -/
def operationNames : CellOperation → Nat
  | .write column _ => column.utf8ByteSize
  | .writeWithTtl column _ _ _ => column.utf8ByteSize
  | .delete column _ => column.utf8ByteSize
  | .deleteRow => 0
  | .writeComplexElement column cellPath _ _ _ _ _ => column.utf8ByteSize + cellPath.length
  | .complexDeletion column _ _ => column.utf8ByteSize

/-- The fixed weight of an operation. -/
def operationOverhead : CellOperation → Nat
  | .write _ _ => 8
  | .writeWithTtl _ _ _ _ => 16
  | .delete _ _ => 8
  | .deleteRow => 8
  | .writeComplexElement _ _ _ _ _ _ _ => 16
  | .complexDeletion _ _ _ => 16

def valueSum (own : Value → Nat) (values : List Value) : Nat := (values.map (nodeSum own)).sum

def columnNames (columns : List (String × Value)) : Nat := (columns.map (·.1.utf8ByteSize)).sum

/-- The columns of the key and of the row. -/
def keyColumns (m : Mutation) : List (String × Value) :=
  m.partitionKey.columns ++ (m.clusteringKey.map (·.columns)).getD []

/-- The values of a mutation that the estimator visits. -/
def mutationValues (m : Mutation) : List Value :=
  (keyColumns m).map (·.2) ++ m.operations.flatMap operationValues

/-- The names of a mutation that the estimator visits. -/
def mutationNames (m : Mutation) : Nat :=
  columnNames (keyColumns m) + (m.operations.map operationNames).sum

/-- The columns of a bound. -/
def boundBytes : ClusteringBound → Nat
  | .inclusive ck => columnNames ck.columns + valueSum ownPayload (ck.columns.map (·.2))
  | .exclusive ck => columnNames ck.columns + valueSum ownPayload (ck.columns.map (·.2))
  | .bottom => 0
  | .top => 0

/-- What the estimator does not visit: the bounds of range tombstones, and the names of columns that
    have a write time of their own. -/
def unvisitedBytes (m : Mutation) : Nat :=
  (m.rangeTombstones.map fun rt => boundBytes rt.startBound + boundBytes rt.endBound).sum +
    ((m.cellWriteTimestamps.getD []).map (·.1.utf8ByteSize)).sum

/-- The payload of a mutation: column names, values at any depth, cell paths and bounds. -/
def payloadBytes (m : Mutation) : Nat :=
  mutationNames m + valueSum ownPayload (mutationValues m) + unvisitedBytes m

/-- The payload that the weight of a mutation leaves out. -/
def uncountedBytes (m : Mutation) : Nat :=
  unvisitedBytes m + valueSum unseenBytes (mutationValues m)

/-- The fixed overheads in the weight of a mutation. -/
def overheadBytes (m : Mutation) : Nat :=
  48 + (m.operations.map operationOverhead).sum + valueSum containerOverhead (mutationValues m)

/-- The weight of a mutation. -/
def mutationWeight (m : Mutation) : Nat :=
  mutationNames m + valueSum ownSize (mutationValues m) +
    (48 + (m.operations.map operationOverhead).sum)

theorem valueSum_append (own : Value → Nat) (as bs : List Value) :
    valueSum own (as ++ bs) = valueSum own as + valueSum own bs := by
  simp [valueSum]

theorem valueSum_flatMap {α : Type} (own : Value → Nat) (f : α → List Value) (as : List α) :
    valueSum own (as.flatMap f) = (as.map fun a => valueSum own (f a)).sum := by
  induction as with
  | nil => rfl
  | cons a as ih => rw [List.flatMap_cons, valueSum_append, ih, List.map_cons, List.sum_cons]

theorem valueSum_add (f g : Value → Nat) (values : List Value) :
    valueSum (fun v => f v + g v) values = valueSum f values + valueSum g values := by
  have hnodes : nodeSum (fun v => f v + g v) = fun v => nodeSum f v + nodeSum g v :=
    funext (nodeSum_add f g)
  rw [valueSum, hnodes]
  exact sum_map_add_map (nodeSum f) (nodeSum g) values

/-- Weight and payload differ by what the weight leaves out and what it adds. -/
theorem mutationWeight_balance (m : Mutation) :
    mutationWeight m + uncountedBytes m = payloadBytes m + overheadBytes m := by
  have hown : (fun v => ownSize v + unseenBytes v) = fun v => ownPayload v + containerOverhead v := by
    funext v
    rw [ownSize, ownPayload]
    omega
  have hvalues := valueSum_add ownSize unseenBytes (mutationValues m)
  rw [hown, valueSum_add] at hvalues
  rw [mutationWeight, uncountedBytes, payloadBytes, overheadBytes]
  omega

/-! ### Sums that stay below the sentinel -/

theorem saturatingAdd_le (a b : Nat) : saturatingAdd a b ≤ usizeMax := Nat.min_le_left _ _

/-- A saturating result that is below the sentinel is exact. -/
def Exact (x n : Nat) : Prop := x < usizeMax → x = n

theorem Exact.refl (n : Nat) : Exact n n := fun _ => rfl

theorem Exact.add {x y n k : Nat} (hx : Exact x n) (hy : Exact y k) :
    Exact (saturatingAdd x y) (n + k) := by
  intro h
  rw [saturatingAdd] at h ⊢
  have hsum : x + y < usizeMax := by omega
  rw [hx (by omega), hy (by omega)] at hsum ⊢
  omega

theorem Exact.foldl {α : Type} {step : Nat → α → Nat} {g : α → Nat}
    (hstep : ∀ {x n} a, Exact x n → Exact (step x a) (n + g a)) (as : List α) {x n : Nat}
    (hx : Exact x n) : Exact (as.foldl step x) (n + (as.map g).sum) := by
  induction as generalizing x n with
  | nil => simpa using hx
  | cons a as ih =>
    rw [List.foldl_cons, List.map_cons, List.sum_cons, ← Nat.add_assoc]
    exact ih (hstep a hx)

theorem exact_addNode {total n : Nat} (h : Exact total n) (v : Value) :
    Exact (addNode total v) (n + ownSize v) := by
  have hadd : ∀ k, Exact (saturatingAdd total k) (n + k) := fun k => h.add (.refl k)
  cases v with
  | null => exact h
  | decimal scale unscaled =>
    have := (hadd 4).add (.refl unscaled.length)
    rwa [Nat.add_assoc] at this
  | udt typeName keyspace fields =>
    have := Exact.foldl (fun (f : String × Option Value) h => h.add (.refl f.1.utf8ByteSize)) fields
      (hadd 16)
    rw [Nat.add_assoc, Nat.add_comm 16] at this
    simpa [addNode, ownSize, scalarBytes, fieldNames, containerOverhead] using this
  | _ => exact hadd _

/-- The worklist sums up every value once. -/
theorem exact_estimateLoop (left : Nat) {total n : Nat} (h : Exact total n) (worklist : List Value) :
    Exact (estimateLoop left total worklist) (n + valueSum ownSize worklist) := by
  induction left generalizing total n worklist with
  | zero =>
    cases worklist with
    | nil => simpa [estimateLoop, valueSum] using h
    | cons v worklist => exact fun hlt => absurd hlt (lt_irrefl _)
  | succ left ih =>
    cases worklist with
    | nil => simpa [estimateLoop, valueSum] using h
    | cons v worklist =>
      rw [estimateLoop, valueSum, List.map_cons, List.sum_cons, nodeSum_eq]
      cases hincoming : incoming v with
      | none =>
        have hchildren : children v = [] := by
          cases v <;> first | rfl | cases hincoming
        have := ih (exact_addNode h v) worklist
        rw [hchildren]
        simpa [valueSum, Nat.add_assoc] using this
      | some k =>
        change Exact (if left < worklist.length + k then usizeMax else _) _
        split
        · exact fun hlt => absurd hlt (lt_irrefl _)
        · have := ih (exact_addNode h v) ((children v).reverse ++ worklist)
          rw [valueSum, List.map_append, List.sum_append, List.map_reverse, List.sum_reverse] at this
          simpa [Nat.add_assoc] using this

theorem exact_estimateValueSize (v : Value) : Exact (estimateValueSize v) (nodeSum ownSize v) := by
  simpa [estimateValueSize, valueSum] using exact_estimateLoop maxEstimateNodes (.refl 0) [v]

theorem exact_addColumns {size n : Nat} (h : Exact size n) (columns : List (String × Value)) :
    Exact (addColumns size columns)
      (n + columnNames columns + valueSum ownSize (columns.map (·.2))) := by
  have hstep : ∀ {x k : Nat} (c : String × Value), Exact x k →
      Exact (saturatingAdd (saturatingAdd x c.1.utf8ByteSize) (estimateValueSize c.2))
        (k + (c.1.utf8ByteSize + nodeSum ownSize c.2)) := by
    intro x k c hx
    rw [← Nat.add_assoc]
    exact (hx.add (.refl _)).add (exact_estimateValueSize c.2)
  have := Exact.foldl hstep columns h
  simpa [addColumns, columnNames, valueSum, sum_map_add_map, Nat.add_assoc,
    Function.comp_def] using this

/-- The estimate of an operation is exact until it saturates. -/
theorem exact_estimateOperationSize (op : CellOperation) :
    Exact (estimateOperationSize op)
      (operationNames op + valueSum ownSize (operationValues op) + operationOverhead op) := by
  have hname : ∀ s : String, Exact s.utf8ByteSize s.utf8ByteSize := fun s => .refl _
  cases op with
  | write column value =>
    have := ((hname column).add (exact_estimateValueSize value)).add (.refl 8)
    simpa [estimateOperationSize, operationNames, operationValues, operationOverhead,
      valueSum] using this
  | writeWithTtl column value ttlSeconds localDeletionTime =>
    have := ((hname column).add (exact_estimateValueSize value)).add (.refl 16)
    simpa [estimateOperationSize, operationNames, operationValues, operationOverhead,
      valueSum] using this
  | delete column localDeletionTime => exact (hname column).add (.refl 8)
  | deleteRow => exact .refl 8
  | writeComplexElement column cellPath value timestampMicros ttlSeconds ldt isDeleted =>
    have hpath := (hname column).add (.refl cellPath.length)
    cases value with
    | none => exact (hpath.add (.refl 0)).add (.refl 16)
    | some value =>
      have := (hpath.add (exact_estimateValueSize value)).add (.refl 16)
      simpa [estimateOperationSize, operationNames, operationValues, operationOverhead,
        valueSum] using this
  | complexDeletion column markedForDeleteAt localDeletionTime => exact (hname column).add (.refl 16)

/-- A mutation that the estimator can measure has its weight for a size. -/
theorem exact_mutationSize (m : Mutation) : Exact (mutationSize m) (mutationWeight m) := by
  have hkeys : Exact (addColumns (addColumns 48 m.partitionKey.columns)
      ((m.clusteringKey.map (·.columns)).getD []))
      (48 + columnNames (keyColumns m) + valueSum ownSize ((keyColumns m).map (·.2))) := by
    have := exact_addColumns (exact_addColumns (.refl 48) m.partitionKey.columns)
      ((m.clusteringKey.map (·.columns)).getD [])
    rw [keyColumns, columnNames, List.map_append, List.sum_append, List.map_append, valueSum_append]
    convert this using 1
    simp only [columnNames]
    omega
  have hops := Exact.foldl (fun op h => h.add (exact_estimateOperationSize op)) m.operations hkeys
  have hsize : mutationSize m = m.operations.foldl
      (fun size op => saturatingAdd size (estimateOperationSize op))
      (addColumns (addColumns 48 m.partitionKey.columns)
        ((m.clusteringKey.map (·.columns)).getD [])) := by
    rw [mutationSize]
    cases m.clusteringKey <;> rfl
  rw [hsize]
  convert hops using 1
  rw [sum_map_add_map, sum_map_add_map, mutationWeight, mutationNames, mutationValues,
    valueSum_append, valueSum_flatMap]
  omega

theorem mutationSize_le (m : Mutation) : mutationSize m ≤ usizeMax := by
  have hfold : ∀ {α : Type} (f : α → Nat) (as : List α) {x : Nat}, x ≤ usizeMax →
      as.foldl (fun size a => saturatingAdd size (f a)) x ≤ usizeMax := by
    intro α f as
    induction as with
    | nil => exact id
    | cons a as ih => exact fun _ => ih (saturatingAdd_le _ _)
  have hcolumns : ∀ (columns : List (String × Value)) {x : Nat}, x ≤ usizeMax →
      addColumns x columns ≤ usizeMax := by
    intro columns
    induction columns with
    | nil => exact id
    | cons c columns ih => exact fun _ => ih (saturatingAdd_le _ _)
  have hpartition := hcolumns m.partitionKey.columns (show 48 ≤ usizeMax by decide)
  rw [mutationSize]
  cases m.clusteringKey with
  | none => exact hfold estimateOperationSize m.operations hpartition
  | some ck => exact hfold estimateOperationSize m.operations (hcolumns ck.columns hpartition)

end Memtable

end Cqlite
