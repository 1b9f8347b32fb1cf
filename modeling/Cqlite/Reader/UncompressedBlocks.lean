import Cqlite.Reader.CrcDb
import Cqlite.Lib.FileCursor
import Mathlib.Data.List.ReduceOption

/-! Reading an uncompressed Data.db in blocks (`read_uncompressed_data_block` and
    `verify_uncompressed_chunks` of `reader/block_io.rs`).

    A block starts where the file is positioned. Before it is returned, every chunk of `CRC.db` that
    overlaps it is completed from the file and checked. -/

namespace Cqlite

open Blocks FileCursor

/-- A computation over the open file. -/
abbrev BlockIO := EStateM String Nat

/-- The bytes of a Data.db: its length is a `u64`. -/
structure DataFile where
  bytes : Bytes
  fits : bytes.length < 2 ^ 64

/-! ### Reading -/

/-- `u64::saturating_add`. -/
def saturatingAddU64 (a b : Nat) : Nat := min (a + b) (2 ^ 64 - 1)

/-- `u64::saturating_mul`. -/
def saturatingMulU64 (a b : Nat) : Nat := min (a * b) (2 ^ 64 - 1)

/-- `{:x}`. -/
def hex (n : Nat) : String := String.ofList (Nat.toDigits 16 n)

/-- `{:08x}`. -/
def hex8 (n : UInt32) : String :=
  let digits := Nat.toDigits 16 n.toNat
  String.ofList (List.replicate (8 - digits.length) '0' ++ digits)

/-- `UNCOMPRESSED_READ_PIECE_BYTES`. -/
def uncompressedReadPieceBytes : Nat := 64 * 1024

/-- `read_into_vec_capped`. -/
def readIntoVecCapped (file : Bytes) (size bufferSize : Nat) : BlockIO Bytes :=
  if size = 0 then pure []
  else readPieces ("Failed to read uncompressed data block (" ++ toString size ++
    " bytes): early eof") file (max 1 (min bufferSize size)) (Nat.le_max_left 1 _) size

/-- `read_range_into`. -/
def readRangeInto (file : Bytes) (lo hi : Nat) : BlockIO Bytes := do
  set lo
  readExact ("failed to read Data.db bytes [0x" ++ hex lo ++ ", 0x" ++ hex hi ++
    ") for CRC verification: early eof") file (hi - lo)

/-- What is missing of a chunk on one side, if anything. -/
def completeRange (file : Bytes) (lo hi : Nat) : BlockIO Bytes :=
  if lo < hi then readRangeInto file lo hi else pure []

section

variable (hash : Bytes → UInt32) (file : Bytes) (crc : CrcDb)

/-- The loop over the chunks, on the block `data` from `startOffset` to `stop`. The result is
    whether the file was positioned elsewhere. -/
def verifyChunks (data : Bytes) (startOffset stop fileSize : Nat) : List Nat → Bool → BlockIO Bool
  | [], didSeek => pure didSeek
  | chunk :: rest, didSeek =>
    let cs := crc.chunkSize.1
    let lo := saturatingMulU64 chunk cs
    let hi := min (saturatingMulU64 (chunk + 1) cs) fileSize
    if hi ≤ lo then pure didSeek
    else
      let preHi := min startOffset hi
      let midLo := max lo startOffset
      let midHi := min hi stop
      let sufLo := max stop lo
      do
        let pre ← completeRange file lo preHi
        let mid :=
          if midLo < midHi then part (midLo - startOffset) (midHi - startOffset) data else []
        let suf ← completeRange file sufLo hi
        let computed := hash (pre ++ mid ++ suf)
        match crc.crcForChunk chunk with
        | .error e => throw e
        | .ok expected =>
          if computed ≠ expected then
            throw ("uncompressed CRC32 mismatch for chunk " ++ toString chunk ++
              " at Data.db offset 0x" ++ hex lo ++ " (" ++ toString (hi - lo) ++
              " bytes): expected=0x" ++ hex8 expected ++ ", computed=0x" ++ hex8 computed ++
              " (CRC.db)")
          else
            verifyChunks data startOffset stop fileSize rest
              (didSeek || decide (lo < preHi) || decide (sufLo < hi))

def verifyUncompressedChunks (data : Bytes) (startOffset fileSize : Nat) : BlockIO Unit :=
  let cs := crc.chunkSize.1
  if cs = 0 then throw "CRC.db chunk size is zero; cannot verify uncompressed chunks"
  else if data = [] then pure ()
  else
    let stop := saturatingAddU64 startOffset data.length
    let first := startOffset / cs
    let last := (stop - 1) / cs
    do
      let didSeek ← verifyChunks hash file crc data startOffset stop fileSize
        (List.range' first (last + 1 - first)) false
      if didSeek then set stop

end

/-- How much of the `remaining` bytes the next block takes. -/
def blockLength (piecewise : Bool) (crcReader : Option CrcDb) (currentPos fileSize : Nat) : Nat :=
  if piecewise then
    match crcReader with
    | some crc =>
      let cs := crc.chunkSize.1
      let want := max uncompressedReadPieceBytes cs
      let targetEnd := saturatingAddU64 currentPos want
      min (saturatingMulU64 (count cs targetEnd) cs) fileSize - currentPos
    | none => min (fileSize - currentPos) uncompressedReadPieceBytes
  else fileSize - currentPos

/-- The next block; nothing at the end of the file. -/
def readUncompressedDataBlock (hash : Bytes → UInt32) (file : Bytes) (readBufferSize : Nat)
    (crcReader : Option CrcDb) (piecewise : Bool) : BlockIO (Option Bytes) := do
  let currentPos ← get
  if file.length - currentPos = 0 then pure none
  else
    let data ← readIntoVecCapped file (blockLength piecewise crcReader currentPos file.length)
      readBufferSize
    match crcReader with
    | some crc =>
      verifyUncompressedChunks hash file crc data currentPos file.length
      pure (some data)
    | none => pure (some data)

/-- Calls one after another. -/
def readBlocks (hash : Bytes → UInt32) (file : Bytes) (readBufferSize : Nat)
    (crcReader : Option CrcDb) : List Bool → BlockIO (List (Option Bytes))
  | [] => pure []
  | piecewise :: calls => do
    let block ← readUncompressedDataBlock hash file readBufferSize crcReader piecewise
    let rest ← readBlocks hash file readBufferSize crcReader calls
    return block :: rest

/-! ### One chunk -/

variable {chunk : Nat}

section

variable {hash : Bytes → UInt32} {file : Bytes} {crc : CrcDb}

/-- The stored checksum of a chunk is that of its bytes. -/
def ChunkMatches (hash : Bytes → UInt32) (file : Bytes) (crc : CrcDb) (chunk : Nat) : Prop :=
  crc.crcs[chunk]? = some (hash (block crc.chunkSize.1 chunk file))

/-- A chunk has a byte in a range. -/
def Overlaps (crc : CrcDb) (start stop chunk : Nat) : Prop :=
  chunk * crc.chunkSize.1 < stop ∧ start < (chunk + 1) * crc.chunkSize.1

theorem chunkSize_pos (crc : CrcDb) : 0 < crc.chunkSize.1 :=
  Nat.lt_of_lt_of_le (by decide) crc.chunkSize.2.1

variable {hi lo pos : Nat} {results : List (Option Bytes)}

/-- A range is read, and the position moves, where it is not empty. -/
theorem run_completeRange (h : hi ≤ file.length) :
    (completeRange file lo hi).run pos =
      .ok (part lo hi file) (if lo < hi then hi else pos) := by
  rw [completeRange]
  by_cases hlt : lo < hi
  · have hsum : lo + (hi - lo) = hi := by omega
    have hread : ∀ eof : String,
        (readExact eof file (hi - lo)).run lo = .ok (part lo hi file) hi := by
      intro eof
      have hrun := @run_readExact _ _ eof file (hi - lo) lo (by omega)
      rwa [hsum] at hrun
    rw [if_pos hlt, if_pos hlt]
    exact hread _
  · rw [if_neg hlt, if_neg hlt, part_eq_nil (Nat.not_lt.1 hlt)]
    rfl

/-- The three pieces of a chunk: before the block that was read, in it and behind it. -/
theorem chunk_pieces {start stop : Nat} (hstart : start ≤ stop) (hlo : lo ≤ stop) (hhi : start ≤ hi) :
    part lo (min start hi) file ++
        (if max lo start < min hi stop then
          part (max lo start - start) (min hi stop - start) (part start stop file) else []) ++
        part (max stop lo) hi file = part lo hi file := by
  have hmid : (if max lo start < min hi stop then
      part (max lo start - start) (min hi stop - start) (part start stop file) else []) =
      part (max lo start) (min hi stop) file := by
    split
    · rw [part_part (by omega), Nat.add_sub_cancel' (Nat.le_max_right _ _),
        Nat.add_sub_cancel' (Nat.le_min.2 ⟨hhi, hstart⟩)]
    · rename_i h
      rw [part_eq_nil (Nat.not_lt.1 h)]
  rw [hmid, Nat.min_eq_left hhi, Nat.max_eq_left hlo,
    part_append_max (Nat.le_min.2 ⟨hhi, hstart⟩), part_min_append hlo]

variable {start stop : Nat}

variable {a b : Nat}

theorem saturatingMulU64_of_lt (h : a * b < 2 ^ 64) : saturatingMulU64 a b = a * b :=
  Nat.min_eq_left (by omega)

theorem min_saturatingMulU64 {n : Nat} (h : n < 2 ^ 64) :
    min (saturatingMulU64 a b) n = min (a * b) n := by
  rw [saturatingMulU64]
  omega

/-- One chunk of the loop: its checksum decides, and the position moves only where that is
    remembered. -/
theorem run_verifyChunks_cons (hash : Bytes → UInt32) (hfits : file.length < 2 ^ 64)
    (hstart : start < stop) (hstop : stop ≤ file.length) (hover : Overlaps crc start stop chunk)
    (rest : List Nat) (didSeek : Bool) (pos : Nat) :
    ∃ didSeek' pos', (didSeek' = false → didSeek = false ∧ pos' = pos) ∧
      (ChunkMatches hash file crc chunk →
        (verifyChunks hash file crc (part start stop file) start stop file.length (chunk :: rest)
          didSeek).run pos =
        (verifyChunks hash file crc (part start stop file) start stop file.length rest
          didSeek').run pos') ∧
      (¬ ChunkMatches hash file crc chunk → ∃ e,
        (verifyChunks hash file crc (part start stop file) start stop file.length (chunk :: rest)
          didSeek).run pos = .error e pos') := by
  obtain ⟨hlo, hhi⟩ := hover
  have hlo' : saturatingMulU64 chunk crc.chunkSize.1 = chunk * crc.chunkSize.1 :=
    saturatingMulU64_of_lt (by omega)
  have hhi' : min (saturatingMulU64 (chunk + 1) crc.chunkSize.1) file.length = _ :=
    min_saturatingMulU64 hfits
  have hlt : chunk * crc.chunkSize.1 < min ((chunk + 1) * crc.chunkSize.1) file.length := by
    rw [Nat.add_one_mul]
    have := chunkSize_pos crc
    omega
  have hstarthi : start < min ((chunk + 1) * crc.chunkSize.1) file.length := by omega
  have hbytes : block crc.chunkSize.1 chunk file =
      part (chunk * crc.chunkSize.1) (min ((chunk + 1) * crc.chunkSize.1) file.length) file := by
    rw [part_min_length, block]
  rw [ChunkMatches, hbytes]
  generalize min ((chunk + 1) * crc.chunkSize.1) file.length = hi at *
  generalize chunk * crc.chunkSize.1 = lo at *
  have hpre : (completeRange file lo (min start hi)).run pos = _ := run_completeRange (by omega)
  have hsuf : (completeRange file (max stop lo) hi).run
      (if lo < min start hi then min start hi else pos) = _ := run_completeRange (by omega)
  refine ⟨didSeek || decide (lo < min start hi) || decide (max stop lo < hi),
    if max stop lo < hi then hi else if lo < min start hi then min start hi else pos, ?_, ?_⟩
  · intro hseek
    simp only [Bool.or_eq_false_iff, decide_eq_false_iff_not] at hseek
    rw [if_neg hseek.2, if_neg hseek.1.2]
    exact ⟨hseek.1.1, rfl⟩
  rw [verifyChunks]
  dsimp only
  rw [hlo', hhi', if_neg (Nat.not_le.2 hlt), run_bind_of_ok hpre, run_bind_of_ok hsuf,
    chunk_pieces hstart.le hlo.le hstarthi.le, CrcDb.crcForChunk]
  cases hstored : crc.crcs[chunk]? with
  | none => exact ⟨fun h => (by cases h), fun _ => ⟨_, rfl⟩⟩
  | some expected =>
    constructor
    · intro hmatch
      cases hmatch
      dsimp only
      rw [if_neg (not_not.2 rfl)]
    · intro hmatch
      have hne : hash (part lo hi file) ≠ expected := fun heq => hmatch (congrArg some heq.symm)
      dsimp only
      rw [if_pos hne]
      exact ⟨_, rfl⟩

/-- The loop comes through when every chunk matches, and fails at the first that does not. -/
theorem run_verifyChunks (hash : Bytes → UInt32) (hfits : file.length < 2 ^ 64)
    (hstart : start < stop) (hstop : stop ≤ file.length) {chunks : List Nat}
    (hover : ∀ chunk ∈ chunks, Overlaps crc start stop chunk) (didSeek : Bool) (pos : Nat) :
    ((∀ chunk ∈ chunks, ChunkMatches hash file crc chunk) → ∃ didSeek' pos',
      (didSeek' = false → didSeek = false ∧ pos' = pos) ∧
        (verifyChunks hash file crc (part start stop file) start stop file.length chunks
          didSeek).run pos = .ok didSeek' pos') ∧
    ((∃ chunk ∈ chunks, ¬ ChunkMatches hash file crc chunk) → ∃ e pos',
        (verifyChunks hash file crc (part start stop file) start stop file.length chunks
          didSeek).run pos = .error e pos') := by
  induction chunks generalizing didSeek pos with
  | nil => exact ⟨fun _ => ⟨didSeek, pos, fun h => ⟨h, rfl⟩, rfl⟩, nofun⟩
  | cons chunk chunks ih =>
    obtain ⟨hchunk, hchunks⟩ := List.forall_mem_cons.1 hover
    obtain ⟨didSeek', pos', hseek, hok, herror⟩ := run_verifyChunks_cons hash hfits hstart
      hstop hchunk chunks didSeek pos
    obtain ⟨ihok, iherror⟩ := ih hchunks didSeek' pos'
    constructor
    · intro hall
      obtain ⟨hmatch, hall⟩ := List.forall_mem_cons.1 hall
      obtain ⟨didSeek'', pos'', hseek', hrun⟩ := ihok hall
      refine ⟨didSeek'', pos'', fun h => ?_, (hok hmatch).trans hrun⟩
      obtain ⟨h', rfl⟩ := hseek' h
      exact hseek h'
    · rintro ⟨bad, hmem, hbad⟩
      by_cases hmatch : ChunkMatches hash file crc chunk
      · rcases List.mem_cons.1 hmem with rfl | hmem
        · exact absurd hmatch hbad
        · obtain ⟨e, pos'', hrun⟩ := iherror ⟨bad, hmem, hbad⟩
          exact ⟨e, pos'', (hok hmatch).trans hrun⟩
      · obtain ⟨e, hrun⟩ := herror hmatch
        exact ⟨e, pos', hrun⟩

/-! ### A block -/

/-- The chunks the loop goes through are those that overlap the block. -/
theorem mem_chunks_iff (crc : CrcDb) (hstart : start < stop) :
    chunk ∈ List.range' (start / crc.chunkSize.1)
        ((stop - 1) / crc.chunkSize.1 + 1 - start / crc.chunkSize.1) ↔
      Overlaps crc start stop chunk := by
  have hpos := chunkSize_pos crc
  have hle : start / crc.chunkSize.1 ≤ (stop - 1) / crc.chunkSize.1 :=
    Nat.div_le_div_right (by omega)
  have hfirst : start / crc.chunkSize.1 < chunk + 1 ↔ start < (chunk + 1) * crc.chunkSize.1 :=
    Nat.div_lt_iff_lt_mul hpos
  have hlast : chunk ≤ (stop - 1) / crc.chunkSize.1 ↔ chunk * crc.chunkSize.1 ≤ stop - 1 :=
    Nat.le_div_iff_mul_le hpos
  rw [List.mem_range'_1, Overlaps]
  omega

/-- Every chunk that overlaps the range has been compared with its stored checksum, in full. -/
def Covered (hash : Bytes → UInt32) (file : Bytes) (crc : CrcDb) (start stop : Nat) : Prop :=
  ∀ chunk, Overlaps crc start stop chunk → ChunkMatches hash file crc chunk

/-- Checking a block: it passes when it is covered, with the position behind it. -/
theorem run_verify (hash : Bytes → UInt32) (crc : CrcDb) (hfits : file.length < 2 ^ 64)
    (hstart : start < stop) (hstop : stop ≤ file.length) :
    (Covered hash file crc start stop →
      (verifyUncompressedChunks hash file crc (part start stop file) start file.length).run stop =
        .ok () stop) ∧
    (¬ Covered hash file crc start stop → ∃ e pos,
      (verifyUncompressedChunks hash file crc (part start stop file) start file.length).run stop =
        .error e pos) := by
  have hlength : (part start stop file).length = stop - start := by
    rw [length_part, Nat.min_eq_left hstop]
  have hne : part start stop file ≠ [] := List.ne_nil_of_length_pos (by omega)
  have hend : saturatingAddU64 start (part start stop file).length = stop := by
    rw [saturatingAddU64, hlength]
    omega
  obtain ⟨hok, herror⟩ := run_verifyChunks hash hfits hstart hstop
    (fun chunk => (mem_chunks_iff crc hstart).1) false stop
  rw [verifyUncompressedChunks, if_neg (chunkSize_pos crc).ne', if_neg hne, hend]
  constructor
  · intro hcovered
    obtain ⟨didSeek, pos, hseek, hrun⟩ :=
      hok fun chunk hmem => hcovered chunk ((mem_chunks_iff crc hstart).1 hmem)
    rw [run_bind_of_ok hrun]
    cases didSeek with
    | true => rfl
    | false =>
      obtain ⟨-, rfl⟩ := hseek rfl
      rfl
  · intro hbad
    rw [Covered, not_forall] at hbad
    obtain ⟨chunk, hbad⟩ := hbad
    obtain ⟨hover, hbad⟩ := Classical.not_imp.1 hbad
    obtain ⟨e, pos, hrun⟩ := herror ⟨chunk, (mem_chunks_iff crc hstart).2 hover, hbad⟩
    exact ⟨e, pos, run_bind_of_error hrun⟩

theorem run_readIntoVecCapped (bufferSize : Nat) {size : Nat} (h : pos + size ≤ file.length) :
    (readIntoVecCapped file size bufferSize).run pos =
      .ok (part pos (pos + size) file) (pos + size) := by
  rw [readIntoVecCapped]
  split
  · rename_i hzero
    rw [hzero, Nat.add_zero, part_eq_nil (Nat.le_refl _)]
    rfl
  · exact run_readPieces _ h

/-- A block ends further on and no later than at the end of the file. -/
theorem blockLength_bounds (crc : CrcDb) (hfits : file.length < 2 ^ 64) (hpos : pos < file.length)
    (piecewise : Bool) :
    0 < blockLength piecewise (some crc) pos file.length ∧
      pos + blockLength piecewise (some crc) pos file.length ≤ file.length := by
  rw [blockLength]
  cases piecewise with
  | false =>
    rw [if_neg Bool.false_ne_true]
    omega
  | true =>
    have hcs := chunkSize_pos crc
    rw [if_pos rfl]
    dsimp only
    generalize hend : saturatingAddU64 pos (max uncompressedReadPieceBytes crc.chunkSize.1) = target
    have htarget : pos < target ∧ target < 2 ^ 64 := by
      rw [saturatingAddU64] at hend
      omega
    have hround : target ≤ count crc.chunkSize.1 target * crc.chunkSize.1 :=
      Nat.not_lt.1 (mt (lt_count hcs).2 (Nat.lt_irrefl _))
    have hsat : target ≤ saturatingMulU64 (count crc.chunkSize.1 target) crc.chunkSize.1 := by
      rw [saturatingMulU64]
      omega
    omega

theorem run_readBlock_end {bufferSize : Nat} (hpos : file.length ≤ pos) (piecewise : Bool) :
    (readUncompressedDataBlock hash file bufferSize (some crc) piecewise).run pos =
      .ok none pos := by
  have hget : (get : BlockIO Nat).run pos = .ok pos pos := rfl
  rw [readUncompressedDataBlock, run_bind_of_ok hget, if_pos (by omega)]
  rfl

/-- Elsewhere there is one, and it is returned when it is covered. -/
theorem run_readBlock (hash : Bytes → UInt32) (crc : CrcDb) (hfits : file.length < 2 ^ 64)
    (bufferSize : Nat) (hpos : pos < file.length) (piecewise : Bool) :
    ∃ stop, pos < stop ∧ stop ≤ file.length ∧
      (Covered hash file crc pos stop →
        (readUncompressedDataBlock hash file bufferSize (some crc) piecewise).run pos =
          .ok (some (part pos stop file)) stop) ∧
      (¬ Covered hash file crc pos stop → ∃ e pos',
        (readUncompressedDataBlock hash file bufferSize (some crc) piecewise).run pos =
          .error e pos') := by
  obtain ⟨hlt, hle⟩ := blockLength_bounds crc hfits hpos piecewise
  have hget : (get : BlockIO Nat).run pos = .ok pos pos := rfl
  have hread := run_readIntoVecCapped bufferSize hle
  obtain ⟨hok, herror⟩ := run_verify hash crc hfits
    (Nat.lt_add_of_pos_right hlt) hle
  refine ⟨pos + blockLength piecewise (some crc) pos file.length,
    Nat.lt_add_of_pos_right hlt, hle, fun hcovered => ?_, fun hbad => ?_⟩
  · rw [readUncompressedDataBlock, run_bind_of_ok hget, if_neg (by omega), run_bind_of_ok hread]
    dsimp only
    rw [run_bind_of_ok (hok hcovered)]
    rfl
  · obtain ⟨e, pos', hrun⟩ := herror hbad
    refine ⟨e, pos', ?_⟩
    rw [readUncompressedDataBlock, run_bind_of_ok hget, if_neg (by omega), run_bind_of_ok hread]
    dsimp only
    rw [run_bind_of_error hrun]

/-! ### Calls -/

/-- What calls have returned, from `start` on. -/
structure Delivered (hash : Bytes → UInt32) (file : Bytes) (crc : CrcDb) (start : Nat)
    (results : List (Option Bytes)) (stop : Nat) : Prop where
  contents : results.reduceOption.flatten = part start stop file
  nonempty : ∀ piece ∈ results.reduceOption, piece ≠ []
  checked : ∀ before piece after, results.reduceOption = before ++ piece :: after →
    Covered hash file crc (start + before.flatten.length)
      (start + before.flatten.length + piece.length)
  ended : none ∈ results → results.reduceOption.flatten = file.drop start

theorem Delivered.cons {pos : Nat} {results : List (Option Bytes)} (hstart : start < pos)
    (hpos : pos ≤ file.length) (hle : pos ≤ stop) (hcovered : Covered hash file crc start pos)
    (h : Delivered hash file crc pos results stop) :
    Delivered hash file crc start (some (part start pos file) :: results) stop := by
  have hlength : (part start pos file).length = pos - start := by
    rw [length_part, Nat.min_eq_left hpos]
  have hcons : (some (part start pos file) :: results).reduceOption =
      part start pos file :: results.reduceOption := List.reduceOption_cons_of_some _ _
  have hcontents : (part start pos file :: results.reduceOption).flatten =
      part start stop file := by
    rw [List.flatten_cons, h.contents, part_append_part hstart.le hle]
  refine ⟨hcons ▸ hcontents, ?_, ?_, ?_⟩
  · rw [hcons]
    rintro piece hmem
    rcases List.mem_cons.1 hmem with rfl | hmem
    · exact List.ne_nil_of_length_pos (by omega)
    · exact h.nonempty piece hmem
  · rw [hcons]
    rintro before piece after heq
    cases before with
    | nil =>
      obtain ⟨rfl, -⟩ := List.cons.inj heq
      have hend : start + (pos - start) = pos := by omega
      rw [List.flatten_nil, List.length_nil, Nat.add_zero, hlength, hend]
      exact hcovered
    | cons first before =>
      obtain ⟨rfl, hrest⟩ := List.cons.inj heq
      have hnext : start + ((pos - start) + before.flatten.length) =
          pos + before.flatten.length := by omega
      rw [List.flatten_cons, List.length_append, hlength, hnext]
      exact h.checked before piece after hrest
  · intro hmem
    have hrest := h.ended ((List.mem_cons.1 hmem).resolve_left nofun)
    rw [hcons, List.flatten_cons, hrest, ← part_eq_drop pos (Nat.le_refl _),
      part_append_part hstart.le hpos, part_eq_drop start (Nat.le_refl _)]

/-- A call at the end of the file in front of what further calls return. -/
theorem Delivered.cons_none (hstart : file.length ≤ start)
    (h : Delivered hash file crc start results stop) :
    Delivered hash file crc start (none :: results) stop := by
  refine ⟨h.contents, h.nonempty, h.checked, fun _ => ?_⟩
  have hempty : part start stop file = [] := by
    rw [← List.length_eq_zero_iff, length_part]
    omega
  have hcontents : (none :: results).reduceOption.flatten = part start stop file := h.contents
  rw [hcontents, hempty, List.drop_eq_nil_of_le hstart]

theorem readBlocks_delivered (hfits : file.length < 2 ^ 64) {bufferSize : Nat} {calls : List Bool}
    (h : (readBlocks hash file bufferSize (some crc) calls).run start = .ok results stop) :
    start ≤ stop ∧ Delivered hash file crc start results stop := by
  induction calls generalizing start results with
  | nil =>
    cases h
    refine ⟨Nat.le_refl _, (part_eq_nil (Nat.le_refl _)).symm, nofun, ?_, nofun⟩
    intro before piece after heq
    cases before with
    | nil => cases heq
    | cons first before => cases heq
  | cons piecewise calls ih =>
    obtain ⟨block, pos, hblock, h⟩ := run_bind_eq_ok h
    obtain ⟨rest, stop', hrest, hret⟩ := run_bind_eq_ok h
    cases hret
    obtain ⟨hle, hdelivered⟩ := ih hrest
    rcases Nat.lt_or_ge start file.length with hlt | hge
    · obtain ⟨next, hnext, hend, hok, herror⟩ := run_readBlock hash crc hfits bufferSize hlt
        piecewise
      by_cases hcovered : Covered hash file crc start next
      · rw [hok hcovered] at hblock
        cases hblock
        exact ⟨by omega, hdelivered.cons hnext hend hle hcovered⟩
      · obtain ⟨e, pos', hrun⟩ := herror hcovered
        rw [hrun] at hblock
        cases hblock
    · rw [run_readBlock_end hge] at hblock
      cases hblock
      exact ⟨hle, hdelivered.cons_none hge⟩

theorem readBlocks_accepts (hfits : file.length < 2 ^ 64) {bufferSize : Nat}
    (hmatch : ∀ chunk, chunk * crc.chunkSize.1 < file.length → ChunkMatches hash file crc chunk)
    (calls : List Bool) (start : Nat) :
    ∃ results stop,
      (readBlocks hash file bufferSize (some crc) calls).run start = .ok results stop := by
  induction calls generalizing start with
  | nil => exact ⟨_, _, rfl⟩
  | cons piecewise calls ih =>
    have hblock : ∃ block pos, (readUncompressedDataBlock hash file bufferSize (some crc)
        piecewise).run start = .ok block pos := by
      rcases Nat.lt_or_ge start file.length with hlt | hge
      · obtain ⟨next, -, hend, hok, -⟩ := run_readBlock hash crc hfits bufferSize hlt
          piecewise
        exact ⟨_, _, hok fun chunk hover => hmatch chunk (Nat.lt_of_lt_of_le hover.1 hend)⟩
      · exact ⟨_, _, run_readBlock_end hge piecewise⟩
    obtain ⟨block, pos, hblock⟩ := hblock
    obtain ⟨results, stop, hrest⟩ := ih pos
    refine ⟨block :: results, stop, ?_⟩
    rw [readBlocks, run_bind_of_ok hblock, run_bind_of_ok hrest]
    rfl

end

/-- The checksums the writer stores are those of the file's chunks. -/
theorem writer_chunkMatches {hash : Bytes → UInt32} {runs : List Bytes} {trailer : CrcTrailer}
    {crc : CrcDb}
    (hcrc : CrcDb.parse (assembleCrcBytes (StreamingCrc.stream hash runs).2 trailer) = .ok crc)
    (hchunk : chunk * crc.chunkSize.1 < runs.flatten.length) :
    ChunkMatches hash runs.flatten crc chunk := by
  rw [CrcDb.parse_assemble, StreamingCrc.stream_eq] at hcrc
  cases hcrc
  have hblock : ((blocks crcChunkSize runs.flatten).map hash)[chunk]? =
      some (hash (block crcChunkSize chunk runs.flatten)) := by
    rw [List.getElem?_map, getElem?_blocks StreamingCrc.crcChunkSize_pos hchunk]
    rfl
  obtain ⟨hlt, -⟩ := List.getElem?_eq_some_iff.1 hblock
  rw [ChunkMatches, List.getElem?_append_left hlt, hblock]

/-- The checksums of the writer are those of the 64 KiB blocks and of the file, however its output
    is split. Whatever is read against an admitted `CRC.db` is the file from the start offset on, and
    covered. What the writer wrote is read without an error, with either trailer. -/
theorem checksums_cover (hash : Bytes → UInt32) :
    (∀ runs : List Bytes, StreamingCrc.stream hash runs =
      (hash runs.flatten, (blocks crcChunkSize runs.flatten).map hash)) ∧
    (∀ (file : DataFile) (crc : CrcDb) (bufferSize start : Nat) (calls : List Bool)
      (results : List (Option Bytes)) (stop : Nat),
      (readBlocks hash file.bytes bufferSize (some crc) calls).run start = .ok results stop →
        Delivered hash file.bytes crc start results stop) ∧
    (∀ (file : DataFile) (runs : List Bytes) (trailer : CrcTrailer), runs.flatten = file.bytes →
      ∃ crc, CrcDb.parse (assembleCrcBytes (StreamingCrc.stream hash runs).2 trailer) = .ok crc ∧
        ∀ (bufferSize start : Nat) (calls : List Bool), ∃ results stop,
          (readBlocks hash file.bytes bufferSize (some crc) calls).run start =
            .ok results stop) := by
  refine ⟨StreamingCrc.stream_eq, ?_, ?_⟩
  · intro file crc bufferSize start calls results stop h
    exact (readBlocks_delivered file.fits h).2
  · rintro file runs trailer hfile
    refine ⟨_, CrcDb.parse_assemble _ trailer, fun bufferSize start calls => ?_⟩
    refine readBlocks_accepts file.fits (fun chunk hchunk => ?_) calls start
    rw [← hfile] at hchunk ⊢
    exact writer_chunkMatches (CrcDb.parse_assemble _ trailer) hchunk

end Cqlite
