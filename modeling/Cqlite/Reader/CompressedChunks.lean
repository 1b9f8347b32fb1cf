import Cqlite.Reader.UncompressedBlocks

/-! Reading a compressed Data.db (`compression_info.rs`, `read_compressed_chunk_at` of
    `reader/block_io.rs`, `compressed_partition_window` of `data_access/big_promoted.rs`).

    A chunk is followed by its checksum; its size is the difference of two offsets of
    `CompressionInfo.db`. The decompressor and the checksum are parameters. A run keeps the chunks
    it has handed to the decompressor. -/

namespace Cqlite

open VInt Blocks FileCursor

/-! ### `CompressionInfo.db` -/

/-- The fields that locate a chunk. -/
structure CompressionInfo where
  chunkLength : Nat
  maxCompressedLength : Nat
  dataLength : Nat
  chunkOffsets : List Nat

namespace CompressionInfo

def compressedChunkOffset (info : CompressionInfo) (chunkIndex : Nat) : Option Nat :=
  info.chunkOffsets[chunkIndex]?

/-- The size of a record, checksum included. -/
def compressedChunkSize (info : CompressionInfo) (chunkIndex totalCompressedSize : Nat) :
    Option Nat := do
  let startOffset ← info.compressedChunkOffset chunkIndex
  let endOffset := (info.compressedChunkOffset (chunkIndex + 1)).getD totalCompressedSize
  if startOffset ≤ endOffset then some (endOffset - startOffset) else none

end CompressionInfo

/-! ### One chunk -/

/-- `read_exact_at`: no position moves. -/
def readExactAt (source : Bytes) (offset n : Nat) : Except String Bytes :=
  if offset + n ≤ source.length then .ok (part offset (offset + n) source)
  else .error ("read_exact_at: reached EOF after " ++ toString (source.length - offset) ++ " of " ++
    toString n ++ " bytes at offset 0x" ++ hex offset)

section

variable (crc32 : Bytes → UInt32) (source : Bytes) (info : CompressionInfo)

/-- The payload of a chunk whose checksum matched; nothing behind the last chunk. -/
def readCompressedChunkAt (chunkIdx fileSize headerOffset : Nat) : Except String (Option Bytes) :=
  if info.chunkOffsets.length ≤ chunkIdx then .ok none
  else match info.compressedChunkOffset chunkIdx with
  | none => .error ("No offset for chunk " ++ toString chunkIdx)
  | some chunkOffset => match info.compressedChunkSize chunkIdx fileSize with
  | none => .error ("Cannot determine size for chunk " ++ toString chunkIdx ++ " (file_size=" ++
      toString fileSize ++ ")")
  | some totalChunkSize =>
    if totalChunkSize < 4 then
      .error ("Chunk " ++ toString chunkIdx ++ " size too small: " ++ toString totalChunkSize ++
        " bytes (minimum 4 for CRC)")
    -- a sum beyond 64 bits is refused like one beyond the file
    else if 2 ^ 64 ≤ chunkOffset + headerOffset + totalChunkSize ∨
        fileSize < chunkOffset + headerOffset + totalChunkSize then
      .error ("Chunk " ++ toString chunkIdx ++ " at offset 0x" ++ hex chunkOffset ++
        " with size " ++ toString totalChunkSize ++ " exceeds Data.db length " ++ toString fileSize ++
        " — corrupt CompressionInfo.db chunk offset")
    else match readExactAt source (chunkOffset + headerOffset) (totalChunkSize - 4 + 4) with
    | .error e => .error ("Failed to read chunk " ++ toString chunkIdx ++ " (" ++
        toString totalChunkSize ++ " bytes at offset 0x" ++ hex (chunkOffset + headerOffset) ++
        "): " ++ e)
    | .ok buf =>
      let chunkDataSize := totalChunkSize - 4
      let expectedCrc := fromBe (buf.drop chunkDataSize)
      let computedCrc := crc32 (buf.take chunkDataSize)
      if computedCrc.toNat ≠ expectedCrc then
        .error ("CRC32 mismatch for chunk " ++ toString chunkIdx ++ " at offset 0x" ++
          hex chunkOffset ++ ": expected=0x" ++ hex8 (UInt32.ofNat expectedCrc) ++
          ", computed=0x" ++ hex8 computedCrc ++ ", chunk_size=" ++ toString chunkDataSize)
      else .ok (some (buf.take chunkDataSize))

/-- The record of a chunk in the file: its payload and the checksum of that. -/
def ChunkVerified (fileSize chunkIdx : Nat) (payload : Bytes) : Prop :=
  ∃ offset size, info.compressedChunkOffset chunkIdx = some offset ∧
    info.compressedChunkSize chunkIdx fileSize = some size ∧
      part offset (offset + size) source = payload ++ beBytes 4 (crc32 payload).toNat

variable {crc32 source info}

/-- A chunk that is returned was checked. -/
theorem readCompressedChunkAt_some {chunkIdx fileSize : Nat} {payload : Bytes}
    (h : readCompressedChunkAt crc32 source info chunkIdx fileSize 0 = .ok (some payload)) :
    chunkIdx < info.chunkOffsets.length ∧
      ChunkVerified crc32 source info fileSize chunkIdx payload := by
  rw [readCompressedChunkAt] at h
  split at h
  · cases h
  rename_i hlt
  split at h
  · cases h
  rename_i chunkOffset hoffset
  split at h
  · cases h
  rename_i size hsize
  split at h
  · cases h
  rename_i hfour
  split at h
  · cases h
  split at h
  · cases h
  rename_i buf hbuf
  dsimp only at h
  split at h
  · cases h
  rename_i hcrc
  obtain rfl := Option.some.inj (Except.ok.inj h)
  refine ⟨Nat.not_le.1 hlt, chunkOffset, size, hoffset, hsize, ?_⟩
  have hsum : size - 4 + 4 = size := by omega
  rw [readExactAt, Nat.add_zero, hsum] at hbuf
  split at hbuf
  · rename_i hle
    obtain rfl := Except.ok.inj hbuf
    have hlength : ((part chunkOffset (chunkOffset + size) source).drop (size - 4)).length = 4 := by
      rw [List.length_drop, length_part]
      omega
    have hback := beBytes_fromBe ((part chunkOffset (chunkOffset + size) source).drop (size - 4))
    rw [hlength, ← not_not.1 hcrc] at hback
    rw [hback, List.take_append_drop]
  · cases hbuf

end

/-! ### The window -/

/-- A computation with the chunks handed to the decompressor so far. -/
abbrev Decompressing := EStateM String (List (Nat × Bytes))

/-- `ChunkSource::decompress_only`. -/
def decompressOnly (compression : Option (Bytes → Except String Bytes)) (compressed : Bytes) :
    Except String Bytes :=
  match compression with
  | none => .ok compressed
  | some decompress =>
    match decompress compressed with
    | .ok bytes => .ok bytes
    | .error e => .error ("ChunkSource: decompress failed (" ++ toString compressed.length ++
        " compressed bytes): " ++ e)

section

variable (crc32 : Bytes → UInt32) (source : Bytes) (info : CompressionInfo)
  (compression : Option (Bytes → Except String Bytes)) (fileSize : Nat)

/-- A chunk as it goes into the window: as it is where it is long enough to be stored raw. -/
def windowChunk (chunkIndex : Nat) (compressed : Bytes) : Decompressing Bytes :=
  if info.maxCompressedLength ≤ compressed.length then pure compressed
  else do
    modify (· ++ [(chunkIndex, compressed)])
    match decompressOnly compression compressed with
    | .ok decompressed => pure decompressed
    | .error e => throw e

/-- The loop over the chunks. -/
def windowLoop (needed within chunkIndex : Nat) (window : Bytes) : Decompressing Bytes :=
  if needed ≤ window.length then pure window
  else match _hread : readCompressedChunkAt crc32 source info chunkIndex fileSize 0 with
  | .error e => throw e
  | .ok (some compressed) => do
    let bytes ← windowChunk info compression chunkIndex compressed
    windowLoop needed within (chunkIndex + 1) (window ++ bytes)
  | .ok none =>
    if window.length < within then
      throw ("BIG clustering/reverse seek: hit EOF at chunk " ++ toString chunkIndex ++ " after " ++
        toString window.length ++ " byte(s), before reaching the resolved intra-window offset " ++
        toString within)
    else pure window
termination_by info.chunkOffsets.length - chunkIndex
decreasing_by
  have := (readCompressedChunkAt_some _hread).1
  omega

/-- The exclusive end of a window: its bound, or else the length of the data. -/
def endOffset (info : CompressionInfo) (offset : Nat) : Option Nat → Option Nat
  | some stop => some stop
  | none => if offset < info.dataLength then some info.dataLength else none

/-- The guard behind the loop: whatever ended it, the window reaches the offset. -/
def guardWindow (within : Nat) (window : Bytes) : Decompressing (Option (Bytes × Nat)) :=
  if window.length < within then
    throw ("BIG clustering/reverse seek: resolved window is " ++ toString window.length ++
      " byte(s) — shorter than the required intra-window offset " ++ toString within ++
      " (corrupt successor/end bound)")
  else pure (some (window, within))

def compressedPartitionWindow (offset : Nat) (endBound : Option Nat) :
    Decompressing (Option (Bytes × Nat)) :=
  let len := info.chunkLength
  if len = 0 then
    throw ("BIG clustering/reverse seek: CompressionInfo chunk_length is zero; cannot map a " ++
      "Data.db offset to a compressed chunk")
  else
    let targetChunk := offset / len
    let windowBase := targetChunk * len
    if offset < windowBase then
      throw ("BIG clustering/reverse seek: resolved offset " ++ toString offset ++
        " precedes window base " ++ toString windowBase)
    else
      let within := offset - windowBase
      match endOffset info offset endBound with
      | none => pure none
      | some endOffset =>
        if info.chunkOffsets.length ≤ targetChunk then
          throw ("BIG clustering/reverse seek: resolved chunk " ++ toString targetChunk ++
            " is out of range (only " ++ toString info.chunkOffsets.length ++
            " compressed chunk(s) in CompressionInfo)")
        else if info.maxCompressedLength = 0 then
          throw ("BIG clustering/reverse seek: CompressionInfo max_compressed_length is zero; " ++
            "cannot distinguish compressed chunks from raw/incompressible ones")
        else do
          let window ← windowLoop crc32 source info compression fileSize (endOffset - windowBase)
            within targetChunk []
          guardWindow within window

/-! ### Any `CompressionInfo.db`, any file -/

variable {crc32 source info compression fileSize}

/-- Whatever has been handed to the decompressor was verified before. -/
def AllVerified (crc32 : Bytes → UInt32) (source : Bytes) (info : CompressionInfo) (fileSize : Nat)
    (log : List (Nat × Bytes)) : Prop :=
  ∀ entry ∈ log, ChunkVerified crc32 source info fileSize entry.1 entry.2

/-- What a computation leaves behind, whether it succeeds or not. -/
def stateOf {α : Type} : EStateM.Result String (List (Nat × Bytes)) α → List (Nat × Bytes)
  | .ok _ log => log
  | .error _ log => log

variable {log : List (Nat × Bytes)}

theorem allVerified_windowChunk {chunkIndex : Nat} {compressed : Bytes}
    (hlog : AllVerified crc32 source info fileSize log)
    (hchunk : ChunkVerified crc32 source info fileSize chunkIndex compressed) :
    AllVerified crc32 source info fileSize
      (stateOf ((windowChunk info compression chunkIndex compressed).run log)) := by
  rw [windowChunk]
  split
  · exact hlog
  · have hmodify : (modify (· ++ [(chunkIndex, compressed)]) : Decompressing Unit).run log =
        .ok () (log ++ [(chunkIndex, compressed)]) := rfl
    have hall : AllVerified crc32 source info fileSize (log ++ [(chunkIndex, compressed)]) := by
      intro entry hmem
      rcases List.mem_append.1 hmem with hmem | hmem
      · exact hlog entry hmem
      · rw [List.mem_singleton.1 hmem]
        exact hchunk
    rw [run_bind_of_ok hmodify]
    split
    · exact hall
    · exact hall

theorem allVerified_bind {α β : Type} {x : Decompressing α} {f : α → Decompressing β}
    (hx : AllVerified crc32 source info fileSize (stateOf (x.run log)))
    (hf : ∀ a log', AllVerified crc32 source info fileSize log' →
      AllVerified crc32 source info fileSize (stateOf ((f a).run log'))) :
    AllVerified crc32 source info fileSize (stateOf ((x >>= f).run log)) := by
  cases hrun : x.run log with
  | ok a log' =>
    rw [hrun] at hx
    rw [run_bind_of_ok hrun]
    exact hf a log' hx
  | error e log' =>
    rw [hrun] at hx
    rw [run_bind_of_error hrun]
    exact hx

theorem allVerified_windowLoop (needed within chunkIndex : Nat) (window : Bytes)
    (hlog : AllVerified crc32 source info fileSize log) :
    AllVerified crc32 source info fileSize (stateOf
      ((windowLoop crc32 source info compression fileSize needed within chunkIndex window).run
        log)) := by
  fun_induction windowLoop crc32 source info compression fileSize needed within chunkIndex window
    generalizing log with
  | case1 => exact hlog
  | case2 => exact hlog
  | case3 chunkIndex window _ compressed hread ih =>
    refine allVerified_bind
      (allVerified_windowChunk hlog (readCompressedChunkAt_some hread).2) fun bytes log' hlog' => ?_
    exact ih bytes hlog'
  | case4 => exact hlog
  | case5 => exact hlog

/-- A chunk is decompressed only when its checksum matched, and the start of the partition lies in
    the window. -/
theorem window_safe (offset : Nat) (endBound : Option Nat) :
    AllVerified crc32 source info fileSize (stateOf
      ((compressedPartitionWindow crc32 source info compression fileSize offset endBound).run [])) ∧
    ∀ window within log,
      (compressedPartitionWindow crc32 source info compression fileSize offset endBound).run [] =
        .ok (some (window, within)) log → within ≤ window.length := by
  have hnone : AllVerified crc32 source info fileSize [] := nofun
  unfold compressedPartitionWindow
  dsimp only
  split
  · exact ⟨hnone, nofun⟩
  split
  · exact ⟨hnone, nofun⟩
  cases endOffset info offset endBound with
  | none => exact ⟨hnone, nofun⟩
  | some endOffset =>
    dsimp only
    split
    · exact ⟨hnone, nofun⟩
    split
    · exact ⟨hnone, nofun⟩
    constructor
    · refine allVerified_bind (allVerified_windowLoop _ _ _ _ hnone) fun window log hlog => ?_
      rw [guardWindow]
      split
      · exact hlog
      · exact hlog
    · intro window within log h
      obtain ⟨window', log', -, h⟩ := run_bind_eq_ok h
      rw [guardWindow] at h
      split at h
      · cases h
      · rename_i hle
        cases h
        exact Nat.not_lt.1 hle

end

end Cqlite
