import Cqlite.Types
import Cqlite.Lib.VInt
import Cqlite.Lib.Blocks

/-! The checksums of an uncompressed Data.db (`writer/crc_writer.rs`).

    The writer hands its output over in runs of any length; a checksum is taken of every block of
    64 KiB, wherever the runs end, and of the whole file. A hasher is the bytes it was fed, and the
    checksum of bytes is a parameter. -/

namespace Cqlite

open VInt Blocks

/-- `CRC_CHUNK_SIZE`. -/
def crcChunkSize : Nat := 64 * 1024

inductive CrcTrailer
  | none
  | emptyFinalChunk
  deriving DecidableEq, Repr

/-- The bytes of a `CRC.db`. -/
def assembleCrcBytes (chunkCrcs : List UInt32) (trailer : CrcTrailer) : Bytes :=
  beBytes 4 crcChunkSize ++ chunkCrcs.flatMap (fun crc => beBytes 4 crc.toNat) ++
    if trailer = .emptyFinalChunk ∧ chunkCrcs ≠ [] then beBytes 4 0 else []

/-- The bytes of the open chunk are counted; a full chunk is closed at once. -/
structure StreamingCrc where
  whole : Bytes
  chunk : Bytes
  chunkFilled : Nat
  chunkCrcs : List UInt32
  filled : chunkFilled = chunk.length
  unfinished : chunkFilled < crcChunkSize

namespace StreamingCrc

def new : StreamingCrc := ⟨[], [], 0, [], rfl, by decide⟩

theorem filled_take (s : StreamingCrc) {take : Nat} {bytes : Bytes} (h : take ≤ bytes.length) :
    s.chunkFilled + take = (s.chunk ++ bytes.take take).length := by
  rw [List.length_append, List.length_take, s.filled, Nat.min_eq_left h]

variable (hash : Bytes → UInt32)

/-- The loop of `update`. -/
def fill (s : StreamingCrc) (remaining : Bytes) : StreamingCrc :=
  if hrest : remaining = [] then s
  else
    let take := min (crcChunkSize - s.chunkFilled) remaining.length
    let chunk := s.chunk ++ remaining.take take
    if hfull : s.chunkFilled + take = crcChunkSize then
      fill ⟨s.whole, [], 0, s.chunkCrcs ++ [hash chunk], rfl, by decide⟩ (remaining.drop take)
    else
      fill ⟨s.whole, chunk, s.chunkFilled + take, s.chunkCrcs,
        s.filled_take (Nat.min_le_right _ _), by have := s.unfinished; omega⟩ (remaining.drop take)
termination_by remaining.length
decreasing_by
  all_goals
    have := s.unfinished
    have := List.length_pos_iff.2 hrest
    rw [List.length_drop]
    omega

def update (s : StreamingCrc) (bytes : Bytes) : StreamingCrc :=
  fill hash { s with whole := s.whole ++ bytes } bytes

/-- The digest and the checksums of the chunks. -/
def finalize (s : StreamingCrc) : UInt32 × List UInt32 :=
  (hash s.whole, if 0 < s.chunkFilled then s.chunkCrcs ++ [hash s.chunk] else s.chunkCrcs)

/-- The checksums of a file written in runs. -/
def stream (runs : List Bytes) : UInt32 × List UInt32 :=
  (runs.foldl (update hash) new).finalize hash

/-! ### The grid -/

/-- Behind `fed`, the chunks closed so far are the whole blocks before the open chunk. -/
def OnGrid (s : StreamingCrc) (fed : Bytes) : Prop :=
  ∃ front k, fed = front ++ s.chunk ∧ front.length = crcChunkSize * k ∧
    s.chunkCrcs = (blocks crcChunkSize front).map hash

variable {hash} {s : StreamingCrc} {fed : Bytes}

theorem onGrid_new (hash : Bytes → UInt32) : OnGrid hash new [] := ⟨[], 0, rfl, rfl, rfl⟩

theorem crcChunkSize_pos : 0 < crcChunkSize := by decide

/-- The step lemma of the chunk writer. -/
theorem onGrid_fill (remaining : Bytes) (h : OnGrid hash s fed) :
    OnGrid hash (fill hash s remaining) (fed ++ remaining) ∧
      (fill hash s remaining).whole = s.whole := by
  induction s, remaining using fill.induct hash generalizing fed with
  | case1 s =>
    rw [fill, dif_pos rfl, List.append_nil]
    exact ⟨h, rfl⟩
  | case2 s remaining hrest take chunk hfull =>
    rename_i ih
    obtain ⟨front, k, rfl, hfront, hcrcs⟩ := h
    have hlength : chunk.length = crcChunkSize := by
      rw [← s.filled_take (Nat.min_le_right _ _)]
      exact hfull
    have hgrid : OnGrid hash ⟨s.whole, [], 0, s.chunkCrcs ++ [hash chunk], rfl, by decide⟩
        (front ++ chunk) := by
      refine ⟨front ++ chunk, k + 1, (List.append_nil _).symm, ?_, ?_⟩
      · rw [List.length_append, hfront, hlength, Nat.mul_add_one]
      · have hpos : 0 < chunk.length := hlength ▸ crcChunkSize_pos
        rw [blocks_concat crcChunkSize_pos hfront hpos hlength.le, List.map_append, hcrcs]
        rfl
    have hsplit : front ++ chunk ++ remaining.drop take = front ++ s.chunk ++ remaining := by
      rw [List.append_assoc, List.append_assoc, List.append_assoc, List.take_append_drop]
    rw [fill, dif_neg hrest]
    dsimp only
    rw [dif_pos hfull, ← hsplit]
    exact ih hgrid
  | case3 s remaining hrest take chunk hopen =>
    rename_i ih
    obtain ⟨front, k, rfl, hfront, hcrcs⟩ := h
    have hsplit : front ++ chunk ++ remaining.drop take = front ++ s.chunk ++ remaining := by
      rw [List.append_assoc, List.append_assoc, List.append_assoc, List.take_append_drop]
    rw [fill, dif_neg hrest]
    dsimp only
    rw [dif_neg hopen, ← hsplit]
    exact ih ⟨front, k, rfl, hfront, hcrcs⟩

theorem onGrid_update (bytes : Bytes) (h : OnGrid hash s fed) :
    OnGrid hash (update hash s bytes) (fed ++ bytes) ∧
      (update hash s bytes).whole = s.whole ++ bytes := by
  obtain ⟨front, k, hfed, hfront, hcrcs⟩ := h
  exact onGrid_fill bytes ⟨front, k, hfed, hfront, hcrcs⟩

theorem onGrid_updates (runs : List Bytes) (h : OnGrid hash s fed) :
    OnGrid hash (runs.foldl (update hash) s) (fed ++ runs.flatten) ∧
      (runs.foldl (update hash) s).whole = s.whole ++ runs.flatten := by
  induction runs generalizing s fed with
  | nil =>
    rw [List.flatten_nil, List.append_nil, List.append_nil]
    exact ⟨h, rfl⟩
  | cons bytes runs ih =>
    obtain ⟨hgrid, hwhole⟩ := onGrid_update bytes h
    obtain ⟨hgrid', hwhole'⟩ := ih hgrid
    rw [List.flatten_cons, ← List.append_assoc, ← List.append_assoc, ← hwhole]
    exact ⟨hgrid', hwhole'⟩

theorem finalize_onGrid (h : OnGrid hash s fed) :
    s.finalize hash = (hash s.whole, (blocks crcChunkSize fed).map hash) := by
  obtain ⟨front, k, rfl, hfront, hcrcs⟩ := h
  rw [finalize]
  congr 1
  split
  · rename_i hpos
    rw [s.filled] at hpos
    have hle : s.chunk.length ≤ crcChunkSize := s.filled ▸ s.unfinished.le
    rw [blocks_concat crcChunkSize_pos hfront hpos hle, List.map_append, hcrcs]
    rfl
  · rename_i hzero
    rw [s.filled, Nat.not_lt, Nat.le_zero, List.length_eq_zero_iff] at hzero
    rw [hzero, List.append_nil, hcrcs]

/-- However the output is split, the checksums are those of the blocks and of the whole file. -/
theorem stream_eq (runs : List Bytes) :
    stream hash runs = (hash runs.flatten, (blocks crcChunkSize runs.flatten).map hash) := by
  obtain ⟨hgrid, hwhole⟩ := onGrid_updates runs (onGrid_new hash)
  rw [stream, finalize_onGrid hgrid, hwhole]
  rfl

end StreamingCrc

end Cqlite
