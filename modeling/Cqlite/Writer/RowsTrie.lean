import Cqlite.Writer.RowTrie
import Cqlite.Writer.VIntCodecs

/-! The rows file (`writer/partitions_writer.rs`: `RowsTrieWriter`), written and read back.

    For each wide partition: its row-index trie, and behind it its entry. A separator that continues
    an earlier one loses its block; a deletion whose first byte is the live one reads as none. -/

namespace Cqlite

open VInt Trie TrieStore

/-! ### The writer -/

structure PartitionRowIndex where
  partitionKey : Bytes
  dataPosition : Nat
  blocks : List RowIndexBlock
  /-- Local deletion time and marked-for-delete-at. -/
  partitionDeletion : Option (Int × Int)

/-- `write_trie_index_entry`; the bytes appended at the entry's offset. -/
def trieIndexEntryBytes (entryStart : Nat) (partitionKey : Bytes) (dataPosition trieRoot blockCount : Nat)
    (partitionDeletion : Option (Int × Int)) : Except Error Bytes :=
  let keyLength := partitionKey.length
  if 0xFFFF < keyLength then
    .error (.invalidInput "Rows.db TrieIndexEntry: partition key length exceeds u16")
  else
    let base := entryStart + 2 + keyLength
    let rootDelta : Int := trieRoot - base
    .ok (beBytes 2 keyLength ++ (partitionKey ++ (encodeUnsigned dataPosition ++
      (encodeUnsigned (zigzag rootDelta) ++ (encodeUnsigned blockCount ++
        daDeletionTimeBytes partitionDeletion)))))

/-- Every separator is below the next one. -/
def ascendingBlocks : List RowIndexBlock → Bool
  | a :: b :: blocks => a.separatorKey < b.separatorKey && ascendingBlocks (b :: blocks)
  | _ => true

namespace RowsTrieWriter

/-- One partition: its trie and its entry; the entry's offset and the buffer. -/
def writePartition (part : PartitionRowIndex) (buf : Bytes) : Except Error (Nat × Bytes) :=
  if part.blocks = [] then
    .error (.invalidInput "Rows.db: wide partition must have at least one row-index block")
  else if ¬ ascendingBlocks part.blocks then
    .error (.invalidInput "Rows.db: row-index separators must be strictly ascending")
  else do
    let root ← buildRowTrie part.blocks
    let (trieRoot, buf) ← writeRowNode root buf
    let rowsOffset := buf.length
    let entry ← trieIndexEntryBytes rowsOffset part.partitionKey part.dataPosition trieRoot
      part.blocks.length part.partitionDeletion
    return (rowsOffset, buf ++ entry)

def writePartitions : List PartitionRowIndex → Bytes → Except Error (Bytes × List Nat)
  | [], buf => .ok (buf, [])
  | part :: parts, buf => do
    let (rowsOffset, buf) ← writePartition part buf
    let (buf, rowsOffsets) ← writePartitions parts buf
    return (buf, rowsOffset :: rowsOffsets)

/-- The bytes of the file and each partition's entry. -/
def finish (partitions : List PartitionRowIndex) : Except Error (Bytes × List Nat) :=
  writePartitions partitions []

end RowsTrieWriter

/-! ### Reading an entry back -/

theorem readUnsignedVint_encode {n : Nat} (hn : n < 2 ^ 64) (rest : Bytes) :
    BtiRows.readUnsignedVintFromSlice (encodeUnsigned n ++ rest) =
      .ok (n, (encodeUnsigned n).length) := by
  apply eq_ok_of_toOption
  rw [readUnsignedVintFromSlice_eq, decodeWithLength_encodeUnsigned hn, length_encodeUnsigned]

variable {deletion : Option (Int × Int)} {buf node buf' : Bytes} {cs : List (UInt8 × Nat)}

theorem decodeDaDeletionTime_liveLike (hlive : LiveLike deletion) (front post : Bytes) :
    decodeDaDeletionTime (front ++ (daDeletionTimeBytes deletion ++ post)) front.length =
      .ok (none, 1) := by
  obtain ⟨d, rfl, hhead⟩ := hlive
  have hmfda := length_intBytes 8 d.2
  have hbyte : byteAt (front ++ (daDeletionTimeBytes (some d) ++ post)) front.length = 0x80 := by
    rw [show front.length = front.length + 0 from rfl, byteAt_append_length, daDeletionTimeBytes]
    cases hbytes : intBytes 8 d.2 with
    | nil => rw [hbytes] at hmfda; cases hmfda
    | cons b rest =>
      rw [hbytes] at hhead
      exact Option.some.inj hhead
  rw [decodeDaDeletionTime, if_neg (by simp [daDeletionTimeBytes, length_intBytes]), if_pos hbyte]

theorem decodeDaDeletionTime_written (hrange : DeletionInRange deletion) (front post : Bytes) :
    ∃ read n, decodeDaDeletionTime (front ++ (daDeletionTimeBytes deletion ++ post)) front.length =
      .ok (read, n) ∧ (LiveLike deletion → read = none) ∧ (¬ LiveLike deletion → read = deletion) := by
  by_cases hlive : LiveLike deletion
  · exact ⟨none, 1, decodeDaDeletionTime_liveLike hlive front post, fun _ => rfl,
      fun h => absurd hlive h⟩
  · obtain ⟨p, hp, hread⟩ := map_eq_ok.1 (decodeDaDeletionTime_bytes hrange hlive front post)
    exact ⟨p.1, p.2, hp, fun h => absurd h hlive, fun _ => hread⟩

/-- What is read of an entry: its position, its root to validate, its count and deletion. -/
theorem resolveRowsDbEntry_entry {partitionKey entry : Bytes}
    {dataPosition trieRoot blockCount : Nat} {partitionDeletion : Option (Int × Int)}
    (h : trieIndexEntryBytes buf.length partitionKey dataPosition trieRoot blockCount
      partitionDeletion = .ok entry) (hposition : dataPosition < 2 ^ 64)
    (hroot : trieRoot ≤ buf.length) (hvec : (buf ++ entry).length ≤ isizeMax)
    (hcount : blockCount < 2 ^ 64) (hrange : DeletionInRange partitionDeletion) (post : Bytes) :
    ∃ read, (LiveLike partitionDeletion → read = none) ∧
      (¬ LiveLike partitionDeletion → read = partitionDeletion) ∧
      resolveRowsDbEntry (buf ++ entry ++ post) buf.length =
        if 2 ^ 32 ≤ blockCount then .error "Rows.db entry: implausible block count"
        else .ok ⟨dataPosition, validateRowsTrieRoot (buf ++ entry ++ post) trieRoot buf.length,
          blockCount, read⟩ := by
  rw [trieIndexEntryBytes] at h
  simp only at h
  split at h
  · cases h
  next hkey =>
    obtain ⟨rootDelta, hdelta⟩ : ∃ rootDelta : Int,
        rootDelta = (trieRoot : Int) - (buf.length + 2 + partitionKey.length : Nat) := ⟨_, rfl⟩
    rw [← hdelta] at h
    obtain ⟨data, hdata⟩ : ∃ data, data = buf ++ entry ++ post := ⟨_, rfl⟩
    have hentry := Except.ok.inj h
    rw [← hentry] at hdata hvec
    have hlen := length_beBytes 2 partitionKey.length
    have hbound : buf.length + 2 + partitionKey.length ≤ isizeMax := by
      simp only [List.length_append, hlen] at hvec
      omega
    have hzigzag : zigzag rootDelta < 2 ^ 64 := by
      rw [isizeMax] at hbound
      exact zigzag_lt (by omega) (by omega)
    -- the data, cut before each field
    have hfields : data = buf ++ (beBytes 2 partitionKey.length ++ (partitionKey ++
        (encodeUnsigned dataPosition ++ (encodeUnsigned (zigzag rootDelta) ++
          (encodeUnsigned blockCount ++ (daDeletionTimeBytes partitionDeletion ++ post)))))) := by
      rw [hdata]
      simp only [List.append_assoc]
    obtain ⟨front, hfront⟩ : ∃ front,
        front = buf ++ beBytes 2 partitionKey.length ++ partitionKey ++ encodeUnsigned dataPosition ++
          encodeUnsigned (zigzag rootDelta) ++ encodeUnsigned blockCount := ⟨_, rfl⟩
    have hlast : data = front ++ (daDeletionTimeBytes partitionDeletion ++ post) := by
      rw [hfields, hfront]
      simp only [List.append_assoc]
    obtain ⟨read, n, hdeletion, hlive, hother⟩ := decodeDaDeletionTime_written hrange front post
    refine ⟨read, hlive, hother, ?_⟩
    have hsum : saturatingAdd rootDelta (buf.length + 2 + partitionKey.length : Nat) = trieRoot := by
      rw [isizeMax] at hbound
      rw [saturatingAdd, i64Min, i64Max]
      omega
    have hstart : data.drop (buf.length + 2 + partitionKey.length) = encodeUnsigned dataPosition ++
        (encodeUnsigned (zigzag rootDelta) ++ (encodeUnsigned blockCount ++
          (daDeletionTimeBytes partitionDeletion ++ post))) := by
      rw [hfields, ← List.drop_drop, ← List.drop_drop, List.drop_left, List.drop_left' hlen,
        List.drop_left]
    have hdelta' : data.drop (buf.length + 2 + partitionKey.length +
        (encodeUnsigned dataPosition).length) = encodeUnsigned (zigzag rootDelta) ++
          (encodeUnsigned blockCount ++ (daDeletionTimeBytes partitionDeletion ++ post)) := by
      rw [← List.drop_drop, hstart, List.drop_left]
    have hcount' : data.drop (buf.length + 2 + partitionKey.length +
        (encodeUnsigned dataPosition).length + (encodeUnsigned (zigzag rootDelta)).length) =
          encodeUnsigned blockCount ++ (daDeletionTimeBytes partitionDeletion ++ post) := by
      rw [← List.drop_drop, hdelta', List.drop_left]
    have hkeyLength : fromBe ((data.drop buf.length).take 2) = partitionKey.length := by
      rw [hfields, List.drop_left, List.take_left' hlen, fromBe_beBytes,
        Nat.mod_eq_of_lt (by omega)]
    have hfrontLength : front.length = buf.length + 2 + partitionKey.length +
        (encodeUnsigned dataPosition).length + (encodeUnsigned (zigzag rootDelta)).length +
          (encodeUnsigned blockCount).length := by
      rw [hfront]
      simp only [List.length_append, hlen]
    have hsize : front.length ≤ data.length := by
      rw [hlast, List.length_append]
      exact Nat.le_add_right _ _
    rw [← hentry, ← hdata, resolveRowsDbEntry, if_neg (by omega), hkeyLength]
    simp only
    rw [if_neg (by omega), hstart, readUnsignedVint_encode hposition]
    simp only [bind, Except.bind]
    rw [hdelta', BtiRows.readSignedVintFromSlice, readUnsignedVint_encode hzigzag]
    simp only [Except.map, rows_zigzagDecode_eq hzigzag, unzigzag_zigzag, hsum]
    rw [hcount', readUnsignedVint_encode hcount]
    simp only
    split
    · rfl
    · rw [hlast, ← hfrontLength, hdeletion]
      rfl

/-! ### The root is accepted -/

theorem getByte_append (buf node : Bytes) {i : Nat} {b : UInt8} (h : node[i]? = some b) :
    getByte (buf ++ node) (buf.length + i) = .ok b := by
  rw [getByte, List.getElem?_append_right (by omega), Nat.add_sub_cancel_left, h]

theorem InnerNode.structure_len (h : InnerNode buf.length cs node) (post : Bytes) :
    ∃ header, getByte (buf ++ node ++ post) buf.length = .ok header ∧ payloadFlags header = 0 ∧
      5 ≤ nodeOrdinal header ∧ nodeStructureLen (buf ++ node ++ post) buf.length = .ok node.length := by
  rw [List.append_assoc]
  cases h with
  | @sparse ordinal hlow hhigh hpacked hne hcount hfits =>
    have hheader := @nodeOrdinal_header ordinal (by omega)
    have hfirst := @getByte_append buf (sparseNode ordinal buf.length (pointerBytesForOrdinal ordinal) cs ++
      post) 0 _ rfl
    have hsecond := @getByte_append buf (sparseNode ordinal buf.length (pointerBytesForOrdinal ordinal) cs ++
      post) 1 _ rfl
    have hcountByte : (UInt8.ofNat cs.length).toNat = cs.length := by
      rw [UInt8.toNat_ofNat', Nat.mod_eq_of_lt (show cs.length < 2 ^ 8 by omega)]
    have hpos : 0 < cs.length := List.length_pos_iff.2 hne
    refine ⟨_, hfirst, payloadFlags_header (by omega), by rw [hheader]; exact hlow, ?_⟩
    rw [Nat.add_zero] at hfirst
    rw [nodeStructureLen, hfirst, hsecond]
    simp only [bind, Except.bind, hheader, hcountByte]
    rw [if_neg (by omega), if_neg (by omega), if_neg (by omega), if_neg (by omega), if_neg (by omega),
      if_pos hhigh, if_neg (by omega), pointerArea, if_neg hpacked]
    refine congrArg _ ?_
    rw [sparseNode, List.length_cons, List.length_cons, List.length_append, List.length_map,
      length_deltaBytes]
    omega
  | @dense ordinal hlow hhigh hpacked hlen hfits =>
    have hheader := @nodeOrdinal_header ordinal (by omega)
    have hfirst := @getByte_append buf (denseNode ordinal buf.length (pointerBytesForOrdinal ordinal) cs ++
      post) 0 _ rfl
    have hthird := @getByte_append buf (denseNode ordinal buf.length (pointerBytesForOrdinal ordinal) cs ++
      post) 2 _ rfl
    have hcountByte : (UInt8.ofNat (cs.length - 1)).toNat + 1 = 256 := by
      rw [hlen]
      rfl
    refine ⟨_, hfirst, payloadFlags_header (by omega), by rw [hheader]; omega, ?_⟩
    rw [Nat.add_zero] at hfirst
    rw [nodeStructureLen, hfirst, hthird]
    simp only [bind, Except.bind, hheader, hcountByte]
    rw [if_neg (by omega), if_neg (by omega), if_neg (by omega), if_neg (by omega), if_neg (by omega),
      if_neg (by omega), pointerArea, if_neg hpacked]
    refine congrArg _ ?_
    rw [denseNode, List.length_cons, List.length_cons, List.length_cons, length_deltaBytes, hlen]
    omega

/-- An inner node without a payload is accepted as the root of an entry behind it. -/
theorem InnerNode.validated (h : InnerNode buf.length cs node) (post : Bytes) :
    validateRowsTrieRoot (buf ++ node ++ post) buf.length (buf ++ node).length = .ok ⟨buf.length⟩ := by
  obtain ⟨header, hheader, hflags, hordinal, hlen⟩ := h.structure_len post
  have hpos : 0 < node.length := by
    cases h with
    | sparse => simp [sparseNode]
    | dense => simp [denseNode]
  have hextent : rowsNodeSerializedExtent (buf ++ node ++ post) buf.length =
      .ok ⟨(buf ++ node).length, none⟩ := by
    rw [rowsNodeSerializedExtent, hheader]
    simp only [bind, Except.bind, hlen, hflags]
    rw [if_neg (by simp)]
    simp only [true_or, if_true, Nat.add_zero]
    rw [if_neg (by simp)]
    simp [pure, Except.pure]
  have hends : RowsNodeExtent.endsAt ⟨(buf ++ node).length, none⟩ (buf ++ node).length = true := by
    simp [RowsNodeExtent.endsAt]
  rw [validateRowsTrieRoot]
  simp only [Int.toNat_natCast, hheader, hextent, Except.mapError, bind, Except.bind]
  rw [if_neg (by rw [List.length_append]; omega), if_neg (by omega), if_neg (by omega), if_pos hends]
  rfl

/-! ### What is read of a partition -/

/-- What a partition's writer is given. -/
structure PartitionRowIndex.Given (part : PartitionRowIndex) : Prop where
  blocks : part.blocks ≠ []
  count : part.blocks.length ≤ isizeMax
  separators : ∀ b ∈ part.blocks, b.separatorKey ≠ []
  ascending : part.blocks.Pairwise fun a b => a.separatorKey < b.separatorKey
  entries : ∀ b ∈ part.blocks, b.entry.Writable
  position : part.dataPosition < 2 ^ 64
  deletion : DeletionInRange part.partitionDeletion

/-- The entry at an offset gives back the partition, and its root the blocks. -/
def ReadsBack (rowsDb : Bytes) (part : PartitionRowIndex) (rowsOffset : Nat) : Prop :=
  ∃ header root, resolveRowsDbEntry rowsDb rowsOffset = .ok header ∧
    header.dataPosition = part.dataPosition ∧ header.blockCount = part.blocks.length ∧
    header.partitionDeletion = part.partitionDeletion ∧ header.trieRoot = .ok root ∧
    iterateRowsInBtiTrie rowsDb root.offset = .ok (part.blocks.map (·.indexed))

/-- No separator continues an earlier one, and the deletion does not look like a live one. -/
def PartitionRowIndex.Recoverable (part : PartitionRowIndex) : Prop :=
  (part.blocks.Pairwise fun a b => ¬ a.separatorKey <+: b.separatorKey) ∧
    ¬ LiveLike part.partitionDeletion ∧ part.blocks.length < 2 ^ 32

theorem insertRow_internal {key : Bytes} {entry : BtiRowIndexEntry} {children : RowChildren}
    {node : RowTrieBuildNode} (h : insertRow key entry (.internal children) = .ok node) :
    ∃ children', node = .internal children' := by
  cases key with
  | nil => cases h
  | cons first rest =>
    obtain ⟨children', -, hnode⟩ := map_eq_ok.1 h
    exact ⟨children', hnode.symm⟩

theorem foldlM_internal {blocks : List RowIndexBlock} {children : RowChildren} {node : RowTrieBuildNode}
    (h : blocks.foldlM (fun root block => insertRow block.separatorKey block.entry root)
      (.internal children) = .ok node) : ∃ children', node = .internal children' := by
  induction blocks generalizing children with
  | nil => exact ⟨children, (Except.ok.inj h).symm⟩
  | cons b blocks ih =>
    rw [List.foldlM_cons] at h
    obtain ⟨root, hroot, h⟩ := bind_eq_ok.1 h
    obtain ⟨children', rfl⟩ := insertRow_internal hroot
    exact ih h

/-- A partition's writer appends; what is read back is the partition, if it is recoverable. -/
theorem RowsTrieWriter.writePartition_spec {part : PartitionRowIndex} {rowsOffset : Nat}
    (h : writePartition part buf = .ok (rowsOffset, buf')) (hgiven : part.Given)
    (hvec : buf'.length ≤ isizeMax) :
    (∃ more, buf' = buf ++ more) ∧
      ∀ post, ReadsBack (buf' ++ post) part rowsOffset ↔ part.Recoverable := by
  rw [writePartition, if_neg hgiven.blocks] at h
  split at h
  · cases h
  obtain ⟨root, hbuild, h⟩ := bind_eq_ok.1 h
  obtain ⟨⟨trieRoot, buf2⟩, hwrite, h⟩ := bind_eq_ok.1 h
  obtain ⟨entry, hentry, h⟩ := bind_eq_ok.1 h
  obtain ⟨rfl, rfl⟩ := Prod.ext_iff.1 (Except.ok.inj h)
  obtain ⟨node, hnode, hsound, hentries⟩ := buildRowTrie_spec hgiven.separators hgiven.ascending
  obtain rfl := Except.ok.inj (hnode.symm.trans hbuild)
  have hwritable : ∀ e ∈ node.entries, e.2.Writable := by
    intro e he
    rw [hentries] at he
    rcases mem_joinAll he with he | ⟨b, hb, rfl⟩
    · cases he
    · exact hgiven.entries b hb
  have hsize : buf2.length < 2 ^ 64 := by
    rw [List.length_append, isizeMax] at hvec
    omega
  obtain ⟨⟨more, hmore⟩, hoff, offs, hrange, hnodup, hreads⟩ :=
    writeRowNode_written node hwrite hsound.1 hwritable hsize
  refine ⟨⟨more ++ entry, by simp only [hmore, List.append_assoc]⟩, fun post => ?_⟩
  -- the root is an inner node that ends where the entry starts
  have hvalid : validateRowsTrieRoot (buf2 ++ entry ++ post) trieRoot buf2.length = .ok ⟨trieRoot⟩ := by
    obtain ⟨children, rfl⟩ := foldlM_internal hbuild
    obtain ⟨⟨cs, buf1⟩, -, hemit⟩ := bind_eq_ok.1 hwrite
    obtain ⟨rfl, bytes, rfl, hinner⟩ := emitInternal_ok hemit hsize
    have hvalidated := hinner.validated (entry ++ post)
    rwa [← List.append_assoc] at hvalidated
  have hiterate : iterateRowsInBtiTrie (buf2 ++ entry ++ post) trieRoot =
      .ok (joinAll part.blocks []) := by
    rw [← hentries, iterateRowsInBtiTrie, dfsCollectRowEntries]
    refine dfsCollectInOrder_iff.2 ⟨(node.payload, node.forest), offs, ?_, ?_, rfl⟩
    · rw [List.append_assoc]
      exact hreads (entry ++ post)
    · exact List.nodup_cons.2 ⟨fun hx => Nat.lt_irrefl _ (hrange _ hx).2, hnodup⟩
  have hcount : part.blocks.length < 2 ^ 64 := by
    have := hgiven.count
    rw [isizeMax] at this
    omega
  obtain ⟨read, hlive, hother, hresolve⟩ :=
    resolveRowsDbEntry_entry hentry hgiven.position hoff.2.le hvec hcount hgiven.deletion post
  have hjoin := joinAll_eq_iff part.blocks []
  rw [hvalid] at hresolve
  constructor
  · rintro ⟨header, validated, hheader, -, -, hdeletion, hroot, hiter⟩
    rw [hresolve] at hheader
    split at hheader
    · cases hheader
    · next hfew =>
      obtain rfl := Except.ok.inj hheader
      obtain rfl := Except.ok.inj hroot
      rw [hiterate] at hiter
      refine ⟨(hjoin.1 (Except.ok.inj hiter)).2, fun hlike => ?_, by omega⟩
      have hnone : part.partitionDeletion = none := hdeletion.symm.trans (hlive hlike)
      obtain ⟨d, hd, -⟩ := hlike
      rw [hnone] at hd
      cases hd
  · rintro ⟨hcont, hlike, hfew⟩
    rw [if_neg (by omega)] at hresolve
    refine ⟨_, ⟨trieRoot⟩, hresolve, rfl, rfl, hother hlike, rfl, ?_⟩
    rw [hiterate, hjoin.2 ⟨by simp, hcont⟩]
    rfl

/-! ### The file -/

/-- Every partition is read back at its offset. -/
def RoundTrips (rowsDb : Bytes) : List PartitionRowIndex → List Nat → Prop :=
  List.Forall₂ (ReadsBack rowsDb)

theorem RowsTrieWriter.writePartitions_spec {parts : List PartitionRowIndex} {offsets : List Nat}
    (h : writePartitions parts buf = .ok (buf', offsets)) (hgiven : ∀ part ∈ parts, part.Given)
    (hvec : buf'.length ≤ isizeMax) :
    (∃ more, buf' = buf ++ more) ∧
      ∀ post, RoundTrips (buf' ++ post) parts offsets ↔ ∀ part ∈ parts, part.Recoverable := by
  induction parts generalizing buf buf' offsets with
  | nil =>
    obtain ⟨rfl, rfl⟩ := Prod.ext_iff.1 (Except.ok.inj h)
    exact ⟨⟨[], (List.append_nil _).symm⟩, fun post => ⟨fun _ => by simp, fun _ => .nil⟩⟩
  | cons part parts ih =>
    obtain ⟨⟨rowsOffset, buf1⟩, hpart, h⟩ := bind_eq_ok.1 h
    obtain ⟨⟨buf2, rowsOffsets⟩, hparts, h⟩ := bind_eq_ok.1 h
    obtain ⟨rfl, rfl⟩ := Prod.ext_iff.1 (Except.ok.inj h)
    obtain ⟨⟨more', rfl⟩, hrest⟩ := ih hparts (fun p hp => hgiven p (List.mem_cons_of_mem _ hp)) hvec
    have hvec1 : buf1.length ≤ isizeMax := by
      rw [List.length_append] at hvec
      omega
    obtain ⟨⟨more, rfl⟩, hfirst⟩ := writePartition_spec hpart (hgiven part List.mem_cons_self) hvec1
    refine ⟨⟨more ++ more', by rw [List.append_assoc]⟩, fun post => ?_⟩
    rw [RoundTrips, List.forall₂_cons, List.forall_mem_cons]
    refine and_congr ?_ (hrest post)
    rw [List.append_assoc]
    exact hfirst (more' ++ post)

/-- The second separator continues the first, and its block is lost. -/
theorem RowsTrieWriter.lost_block :
    ¬ ∀ parts bytes rowsOffsets, (∀ part ∈ parts, PartitionRowIndex.Given part) →
      finish parts = .ok (bytes, rowsOffsets) → bytes.length ≤ isizeMax →
        RoundTrips bytes parts rowsOffsets := by
  intro h
  have hgiven : PartitionRowIndex.Given ⟨[7], 5, [⟨[1], 0, none⟩, ⟨[1, 2], 9, none⟩], none⟩ :=
    ⟨by simp, by decide, by simp, by simp, by simp [BtiRowIndexEntry.Writable, RowIndexBlock.entry,
      DeletionInRange, LiveLike], by decide, by simp [DeletionInRange]⟩
  have hwrite : writePartition ⟨[7], 5, [⟨[1], 0, none⟩, ⟨[1, 2], 9, none⟩], none⟩ [] =
      .ok (6, [1, 0, 0x50, 1, 1, 2, 0, 1, 7, 5, 13, 2, 0x80]) := by decide +kernel
  have hfinish : finish [⟨[7], 5, [⟨[1], 0, none⟩, ⟨[1, 2], 9, none⟩], none⟩] =
      .ok ([1, 0, 0x50, 1, 1, 2, 0, 1, 7, 5, 13, 2, 0x80], [6]) := by decide +kernel
  have hround := h _ _ _ (by simpa using hgiven) hfinish (by decide)
  rw [RoundTrips, List.forall₂_cons] at hround
  have hspec := (writePartition_spec hwrite hgiven (by decide)).2 []
  rw [List.append_nil] at hspec
  have hcont := (hspec.1 hround.1).1
  simp at hcont

/-- A file is read back exactly when each of its partitions is recoverable. -/
theorem RowsTrieWriter.finish_roundTrips_iff {parts : List PartitionRowIndex} {bytes : Bytes}
    {rowsOffsets : List Nat} (hgiven : ∀ part ∈ parts, part.Given)
    (h : finish parts = .ok (bytes, rowsOffsets)) (hvec : bytes.length ≤ isizeMax) :
    RoundTrips bytes parts rowsOffsets ↔ ∀ part ∈ parts, part.Recoverable := by
  have hspec := (writePartitions_spec h hgiven hvec).2 []
  rwa [List.append_nil] at hspec

/-- Two blocks with an open marker between them. -/
theorem RowsTrieWriter.finish_two_blocks :
    RoundTrips [1, 0, 0x09, 9, 0, 0, 0, 0, 0, 0, 0, 5, 0, 0, 0, 6, 0x50, 2, 1, 2, 16, 14, 0, 1, 7, 5, 17, 2, 0x80]
      [⟨[7], 5, [⟨[1], 0, none⟩, ⟨[2], 9, some (6, 5)⟩], none⟩] [22] ↔
      ∀ part ∈ [(⟨[7], 5, [⟨[1], 0, none⟩, ⟨[2], 9, some (6, 5)⟩], none⟩ : PartitionRowIndex)],
        part.Recoverable := by
  refine finish_roundTrips_iff ?_ (by decide +kernel) (by decide)
  have hgiven : PartitionRowIndex.Given ⟨[7], 5, [⟨[1], 0, none⟩, ⟨[2], 9, some (6, 5)⟩], none⟩ :=
    ⟨by simp, by decide, by simp, by simp; decide, by
      simp [BtiRowIndexEntry.Writable, RowIndexBlock.entry, DeletionInRange, LiveLike]
      decide, by decide, by simp [DeletionInRange]⟩
  simpa using hgiven

end Cqlite
