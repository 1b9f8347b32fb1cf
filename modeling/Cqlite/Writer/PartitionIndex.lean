import Cqlite.Lib.SparseIndex
import Cqlite.Reader.IndexEntries
import Cqlite.Writer.PartitionSession

/-! Writing `Index.db` and `Summary.db` (`writer/index_writer.rs`: `add_partition_with_promoted`,
    `write_entry`; `writer/summary_writer.rs`: `note_partition`, `add_entry`, `finish`; the part of
    `write_partition` that feeds them).

    Every partition gets an entry in the index; every so many partitions the place of the entry is
    kept in the summary. -/

namespace Cqlite

open VInt SparseIndex

/-! ### The promoted index -/

def indexInfoWidthBase : Nat := 64 * 1024

/-- `serialize_index_info`. -/
def serializeIndexInfo (block : PromotedIndexBlock) : Bytes :=
  block.firstName ++ block.lastName ++ Serialization.encodeUnsigned block.offset ++
    Serialization.encodeSigned ((block.width : Int) - indexInfoWidthBase) ++ [0x00]

/-- The offset of a block among the infos, and its info behind them. -/
def pushIndexInfo (st : List Nat × Bytes) (block : PromotedIndexBlock) : List Nat × Bytes :=
  (st.1 ++ [st.2.length], st.2 ++ serializeIndexInfo block)

def nbDeletionTimeLiveSize : Nat := 12

def nbDeletionTimeLive : Bytes := beBytes 4 (2 ^ 31 - 1) ++ beBytes 8 (2 ^ 63)

/-- `serialize_promoted_index`. -/
def serializePromotedIndex (blocks : List PromotedIndexBlock) (rawKeyLen : Nat) : Bytes :=
  let (blockStartOffsets, indexInfoBytes) := blocks.foldl pushIndexInfo ([], [])
  Serialization.encodeUnsigned (2 + rawKeyLen + nbDeletionTimeLiveSize) ++ nbDeletionTimeLive ++
    Serialization.encodeUnsigned blocks.length ++ indexInfoBytes ++
      blockStartOffsets.flatMap (beBytes 4)

/-- The promoted payload of an entry: none for fewer than two blocks. -/
def promotedPayload (blocks : List PromotedIndexBlock) (rawKeyLen : Nat) : Bytes :=
  if 2 ≤ blocks.length then serializePromotedIndex blocks rawKeyLen else []

/-! ### The index -/

structure IndexWriter where
  buffer : Bytes
  entryCount : Nat

structure IndexEntryInfo where
  indexOffset : Nat
  entrySize : Nat

/-- `write_entry`: the bytes it appends. -/
def writeEntry (key : DecoratedKey) (dataOffset : Nat) (blocks : List PromotedIndexBlock) : Bytes :=
  beBytes 2 key.key.length ++ key.key ++ Serialization.encodeUnsigned dataOffset ++
    if 2 ≤ blocks.length then
      let payload := serializePromotedIndex blocks key.key.length
      Serialization.encodeUnsigned payload.length ++ payload
    else Serialization.encodeUnsigned 0

def IndexWriter.addPartitionWithPromoted (w : IndexWriter) (key : DecoratedKey) (dataOffset : Nat)
    (blocks : List PromotedIndexBlock) : IndexWriter × IndexEntryInfo :=
  let entry := writeEntry key dataOffset blocks
  (⟨w.buffer ++ entry, w.entryCount + 1⟩, ⟨w.buffer.length, entry.length⟩)

/-! ### The summary -/

def baseSamplingLevel : Nat := 128

structure SummaryWriter where
  minIndexInterval : Nat
  totalPartitionCount : Nat
  entries : List SummaryEntry
  firstKey : Option Bytes
  lastKey : Option Bytes

namespace SummaryWriter

def new (minIndexInterval : Nat) : SummaryWriter := ⟨minIndexInterval, 0, [], none, none⟩

def notePartition (w : SummaryWriter) (key : DecoratedKey) : SummaryWriter :=
  { w with
    firstKey := w.firstKey.or (some key.key)
    lastKey := some key.key
    totalPartitionCount := min (w.totalPartitionCount + 1) (2 ^ 32 - 1) }

def addEntry (w : SummaryWriter) (key : DecoratedKey) (indexOffset : Nat) : SummaryWriter :=
  { w with entries := w.entries ++ [⟨key.key, indexOffset⟩] }

def writeHeader (w : SummaryWriter) (entriesCount summaryEntriesSize : Nat) : Bytes :=
  beBytes 4 w.minIndexInterval ++ beBytes 4 entriesCount ++ beBytes 8 summaryEntriesSize ++
    beBytes 4 baseSamplingLevel ++ beBytes 4 entriesCount

end SummaryWriter

/-- `u64::to_le_bytes`. -/
def leBytes64 (n : Nat) : Bytes := (beBytes 8 n).reverse

/-- The key and the position of an entry, without a length. -/
def SummaryEntry.bytes (e : SummaryEntry) : Bytes := e.partitionKey ++ leBytes64 e.position

/-- One entry of the loop of `finish`: its offset, cut to 32 bits, and its bytes. -/
def pushSummaryEntry (offsetTableSize : Nat) (st : List Nat × Bytes) (e : SummaryEntry) :
    List Nat × Bytes :=
  (st.1 ++ [(offsetTableSize + st.2.length) % 2 ^ 32], st.2 ++ e.bytes)

/-- A key of `finish`, if there is one, behind its length. -/
def serializedKey (key : Option Bytes) : Bytes :=
  key.elim [] fun k => beBytes 4 k.length ++ k

/-- Summary.db. -/
def SummaryWriter.finish (w : SummaryWriter) : Bytes :=
  if w.entries.isEmpty then w.writeHeader 0 0
  else
    let offsetTableSize := w.entries.length * 4
    let (entryOffsets, entryData) := w.entries.foldl (pushSummaryEntry offsetTableSize) ([], [])
    let summaryEntriesSize := offsetTableSize + entryData.length
    w.writeHeader w.entries.length summaryEntriesSize ++ entryOffsets.flatMap leBytes ++ entryData ++
      serializedKey w.firstKey ++ serializedKey w.lastKey

/-! ### Both -/

/-- What the two writers are told of a partition. -/
structure IndexedPartition where
  key : DecoratedKey
  dataOffset : Nat
  blocks : List PromotedIndexBlock

structure IndexComponents where
  indexWriter : IndexWriter
  summaryWriter : SummaryWriter
  summarySampleCounter : Nat

namespace IndexComponents

def new (summarySampleInterval : Nat) : IndexComponents :=
  ⟨⟨[], 0⟩, .new summarySampleInterval, 0⟩

/-- The part of `write_partition` after the data is written. -/
def writePartition (summarySampleInterval : Nat) (s : IndexComponents) (p : IndexedPartition) :
    IndexComponents :=
  let (indexWriter, info) := s.indexWriter.addPartitionWithPromoted p.key p.dataOffset p.blocks
  let noted := s.summaryWriter.notePartition p.key
  { indexWriter
    summaryWriter :=
      if s.summarySampleCounter % summarySampleInterval = 0 then noted.addEntry p.key info.indexOffset
      else noted
    summarySampleCounter := s.summarySampleCounter + 1 }

/-- All partitions, in the order given. -/
def writePartitions (summarySampleInterval : Nat) (ps : List IndexedPartition) : IndexComponents :=
  ps.foldl (writePartition summarySampleInterval) (new summarySampleInterval)

end IndexComponents

/-! ### What is written -/

def IndexedPartition.entryBytes (p : IndexedPartition) : Bytes :=
  writeEntry p.key p.dataOffset p.blocks

def indexBytes (ps : List IndexedPartition) : Bytes := ps.flatMap IndexedPartition.entryBytes

/-- The place in the index of the entry of each partition. -/
def places (ps : List IndexedPartition) : List SummaryEntry :=
  ps.mapIdx fun i p => ⟨p.key.key, (indexBytes (ps.take i)).length⟩

/-- The entries of the summary: the places of every `interval`-th partition. -/
def samples (interval : Nat) (ps : List IndexedPartition) : List SummaryEntry :=
  everyNth interval (places ps)

theorem places_concat (ps : List IndexedPartition) (p : IndexedPartition) :
    places (ps ++ [p]) = places ps ++ [⟨p.key.key, (indexBytes ps).length⟩] :=
  mapIdx_take_concat (fun before (q : IndexedPartition) =>
    SummaryEntry.mk q.key.key (indexBytes before).length) ps p

theorem length_places (ps : List IndexedPartition) : (places ps).length = ps.length :=
  List.length_mapIdx

/-- What the components hold after some partitions. -/
structure Holds (interval : Nat) (ps : List IndexedPartition) (s : IndexComponents) : Prop where
  buffer : s.indexWriter.buffer = indexBytes ps
  minIndexInterval : s.summaryWriter.minIndexInterval = interval
  entries : s.summaryWriter.entries = samples interval ps
  firstKey : s.summaryWriter.firstKey = ps.head?.map (·.key.key)
  lastKey : s.summaryWriter.lastKey = ps.getLast?.map (·.key.key)
  counter : s.summarySampleCounter = ps.length

/-- The step lemma of the two index files. -/
theorem Holds.writePartition {interval : Nat} {ps : List IndexedPartition} {s : IndexComponents}
    (hpos : 0 < interval) (h : Holds interval ps s) (p : IndexedPartition) :
    Holds interval (ps ++ [p]) (s.writePartition interval p) where
  buffer := by
    rw [indexBytes, List.flatMap_append, List.flatMap_singleton]
    exact congrArg (· ++ p.entryBytes) h.buffer
  minIndexInterval := by
    simp only [IndexComponents.writePartition]
    split <;> exact h.minIndexInterval
  entries := by
    have hlen : (places ps).length = s.summarySampleCounter := by rw [length_places, h.counter]
    rw [samples, places_concat, everyNth_concat hpos, hlen, ← samples, ← h.entries, ← h.buffer]
    simp only [IndexComponents.writePartition]
    split
    · rfl
    · exact (List.append_nil _).symm
  firstKey := by
    have hfirst : s.summaryWriter.firstKey.or (some p.key.key) =
        (ps ++ [p]).head?.map (·.key.key) := by
      rw [h.firstKey]
      cases ps <;> rfl
    simp only [IndexComponents.writePartition]
    split <;> exact hfirst
  lastKey := by
    rw [List.getLast?_concat]
    simp only [IndexComponents.writePartition]
    split <;> rfl
  counter := by
    rw [List.length_append, List.length_singleton, ← h.counter]
    rfl

theorem writePartitions_holds {interval : Nat} (hpos : 0 < interval) (ps : List IndexedPartition) :
    Holds interval ps (IndexComponents.writePartitions interval ps) := by
  induction ps using List.reverseRecOn with
  | nil => exact ⟨rfl, rfl, by rw [samples, places, List.mapIdx_nil, everyNth_nil]; rfl, rfl, rfl, rfl⟩
  | append_singleton ps p ih =>
    rw [IndexComponents.writePartitions, List.foldl_append]
    exact ih.writePartition hpos p

end Cqlite
