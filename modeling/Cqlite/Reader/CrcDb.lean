import Cqlite.Writer.CrcWriter

/-! The `CRC.db` of an uncompressed Data.db (`reader/crc.rs`): a chunk size and a checksum of every
    chunk. -/

namespace Cqlite

open VInt Blocks

/-! ### Parsing -/

/-- `MIN_CRC_CHUNK_SIZE`. -/
def minCrcChunkSize : Nat := 4096

/-- `MAX_CRC_CHUNK_SIZE`. -/
def maxCrcChunkSize : Nat := 16 * 1024 * 1024

/-- The chunk sizes that are admitted. -/
abbrev CrcChunkSize := { n : Nat // minCrcChunkSize ≤ n ∧ n ≤ maxCrcChunkSize }

/-- `i32::from_be_bytes`. -/
def i32OfBe (bytes : Bytes) : Int := (fromBe bytes : Int).bmod (2 ^ 32)

def validateChunkSize (raw : Int) : Except String CrcChunkSize :=
  if raw ≤ 0 then
    .error ("CRC.db chunk-size header is non-positive (" ++ toString raw ++
      "); expected a positive block size (Cassandra default 65536)")
  else if hmin : raw.toNat < minCrcChunkSize then
    .error ("CRC.db chunk-size header is " ++ toString raw ++ " bytes — below the " ++
      toString minCrcChunkSize ++ "-byte minimum (Cassandra uses 65536); " ++
      "a chunk size this small implies an unbounded CRC entry count")
  else if hmax : maxCrcChunkSize < raw.toNat then
    .error ("CRC.db chunk-size header is " ++ toString raw ++ " bytes — exceeds the " ++
      toString maxCrcChunkSize ++ "-byte maximum (Cassandra default 65536); " ++
      "refusing to allocate an unbounded verification buffer")
  else .ok ⟨raw.toNat, Nat.not_lt.1 hmin, Nat.not_lt.1 hmax⟩

structure CrcDb where
  chunkSize : CrcChunkSize
  crcs : List UInt32

namespace CrcDb

/-- The entries of four bytes. -/
def entries : Bytes → List UInt32
  | a :: b :: c :: d :: rest => UInt32.ofNat (fromBe [a, b, c, d]) :: entries rest
  | _ => []

def parse (bytes : Bytes) : Except String CrcDb :=
  if bytes.length < 4 then
    .error ("CRC.db is " ++ toString bytes.length ++
      " bytes — too short for the 4-byte chunk-size header")
  else
    match validateChunkSize (i32OfBe (bytes.take 4)) with
    | .error e => .error e
    | .ok chunkSize =>
      if (bytes.drop 4).length % 4 ≠ 0 then
        .error ("CRC.db body is " ++ toString (bytes.drop 4).length ++
          " bytes — not a whole number of 4-byte CRC32 entries (truncated)")
      else .ok ⟨chunkSize, entries (bytes.drop 4)⟩

def crcForChunk (crc : CrcDb) (chunkIndex : Nat) : Except String UInt32 :=
  match crc.crcs[chunkIndex]? with
  | some stored => .ok stored
  | none => .error ("CRC.db is truncated: no CRC32 entry for chunk " ++ toString chunkIndex ++
      " (file position " ++ toString (chunkIndex * 4 + 4) ++ "); it has only " ++
      toString crc.crcs.length ++ " entries")

/-! ### What the writer assembles -/

theorem entries_beBytes (n : Nat) (hn : n < 2 ^ 32) (rest : Bytes) :
    entries (beBytes 4 n ++ rest) = UInt32.ofNat n :: entries rest := by
  have hread : fromBe (beBytes 4 n) = n := by
    rw [fromBe_beBytes, Nat.mod_eq_of_lt (by omega)]
  conv_rhs => rw [← hread]
  rfl

theorem entries_flatMap (crcs : List UInt32) :
    entries (crcs.flatMap fun crc => beBytes 4 crc.toNat) = crcs := by
  induction crcs with
  | nil => rfl
  | cons crc crcs ih =>
    rw [List.flatMap_cons, entries_beBytes _ crc.toNat_lt, ih, UInt32.ofNat_toNat]

theorem length_flatMap_beBytes (crcs : List UInt32) :
    (crcs.flatMap fun crc => beBytes 4 crc.toNat).length = 4 * crcs.length := by
  induction crcs with
  | nil => rfl
  | cons crc crcs ih =>
    rw [List.flatMap_cons, List.length_append, length_beBytes, ih, List.length_cons]
    omega

/-- The checksum of the empty chunk behind a compacted file. -/
def trailerCrcs (chunkCrcs : List UInt32) (trailer : CrcTrailer) : List UInt32 :=
  if trailer = .emptyFinalChunk ∧ chunkCrcs ≠ [] then [0] else []

theorem assemble_eq (chunkCrcs : List UInt32) (trailer : CrcTrailer) :
    assembleCrcBytes chunkCrcs trailer = beBytes 4 crcChunkSize ++
      (chunkCrcs ++ trailerCrcs chunkCrcs trailer).flatMap fun crc => beBytes 4 crc.toNat := by
  rw [assembleCrcBytes, trailerCrcs, List.flatMap_append, List.append_assoc]
  split
  · rfl
  · rfl

theorem crcChunkSize_admitted :
    minCrcChunkSize ≤ crcChunkSize ∧ crcChunkSize ≤ maxCrcChunkSize := by
  rw [minCrcChunkSize, crcChunkSize, maxCrcChunkSize]
  omega

theorem validate_crcChunkSize :
    validateChunkSize (i32OfBe (beBytes 4 crcChunkSize)) =
      .ok ⟨crcChunkSize, crcChunkSize_admitted⟩ := by
  have hraw : i32OfBe (beBytes 4 crcChunkSize) = 65536 := by decide
  rw [hraw, validateChunkSize, if_neg (by decide), dif_neg (by decide), dif_neg (by decide)]
  rfl

/-- CRC.db reads back. -/
theorem parse_assemble (chunkCrcs : List UInt32) (trailer : CrcTrailer) :
    parse (assembleCrcBytes chunkCrcs trailer) =
      .ok ⟨⟨crcChunkSize, crcChunkSize_admitted⟩, chunkCrcs ++ trailerCrcs chunkCrcs trailer⟩ := by
  have hheader : (beBytes 4 crcChunkSize).length = 4 := length_beBytes 4 _
  rw [assemble_eq, parse, List.take_left' hheader, List.drop_left' hheader, validate_crcChunkSize,
    List.length_append, hheader, length_flatMap_beBytes, entries_flatMap, if_neg (by omega)]
  dsimp only
  rw [if_neg (by omega)]

end CrcDb

end Cqlite
