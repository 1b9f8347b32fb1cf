import Cqlite.Reader.CompressedChunks

/-! Windows over a file cut into chunks (`compressed_partition_window`).

    The writer pads a raw chunk that is shorter than `max_compressed_length` with zeros; the reader
    takes the padding for data. -/

namespace Cqlite

open VInt Blocks FileCursor

/-! ### The layout -/

/-- A compressor, and the decompressor of the reader. -/
structure ChunkCodec where
  compress : Bytes → Bytes
  decompress : Option (Bytes → Except String Bytes)
  inverts : ∀ chunk, decompressOnly decompress (compress chunk) = .ok chunk

/-- A byte string to be stored in chunks. Only the last chunk with data is stored raw while shorter
    than `maxCompressedLength`. -/
structure ChunkLayout where
  codec : ChunkCodec
  content : Bytes
  chunkLength : Nat
  maxCompressedLength : Nat
  trailing : Bool
  chunkLength_pos : 0 < chunkLength
  maxCompressedLength_pos : 0 < maxCompressedLength
  raw_fits : ∀ c, (c + 1) * chunkLength < content.length →
    maxCompressedLength ≤ (codec.compress (block chunkLength c content)).length →
      maxCompressedLength ≤ chunkLength

namespace ChunkLayout

variable (l : ChunkLayout) (crc32 : Bytes → UInt32)

/-- The chunks, with the empty one that may end the file. -/
def chunks : List Bytes := blocks l.chunkLength l.content ++ if l.trailing then [[]] else []

/-- What is stored of a chunk: it is compressed, or raw and at least `maxCompressedLength` long. -/
def stored (chunk : Bytes) : Bytes :=
  if (l.codec.compress chunk).length < l.maxCompressedLength then l.codec.compress chunk
  else chunk ++ List.replicate (l.maxCompressedLength - chunk.length) 0

def record (chunk : Bytes) : Bytes :=
  l.stored chunk ++ beBytes 4 (crc32 (l.stored chunk)).toNat

def records : List Bytes := l.chunks.map (l.record crc32)

def file : Bytes := (l.records crc32).flatten

def info : CompressionInfo :=
  ⟨l.chunkLength, l.maxCompressedLength, l.content.length, starts (l.records crc32)⟩

/-- A chunk stored with padding behind it. -/
def Padded (chunk : Bytes) : Prop :=
  l.maxCompressedLength ≤ (l.codec.compress chunk).length ∧ chunk.length < l.maxCompressedLength

/-- What the reader makes of a stored chunk. -/
def asRead (chunk : Bytes) : Bytes :=
  if (l.codec.compress chunk).length < l.maxCompressedLength then chunk
  else chunk ++ List.replicate (l.maxCompressedLength - chunk.length) 0

variable {l} {crc32}

theorem length_record (chunk : Bytes) :
    (l.record crc32 chunk).length = (l.stored chunk).length + 4 := by
  rw [record, List.length_append, length_beBytes]

variable {c : Nat} {chunk : Bytes}

theorem getElem?_chunks (h : l.chunks[c]? = some chunk) :
    chunk = block l.chunkLength c l.content := by
  rw [chunks] at h
  rcases Nat.lt_or_ge c (blocks l.chunkLength l.content).length with hlt | hge
  · rw [List.getElem?_append_left hlt] at h
    rw [length_blocks, lt_count l.chunkLength_pos] at hlt
    rw [getElem?_blocks l.chunkLength_pos hlt] at h
    exact (Option.some.inj h).symm
  · rw [List.getElem?_append_right hge] at h
    rw [length_blocks] at hge
    have hend : l.content.length ≤ c * l.chunkLength :=
      Nat.not_lt.1 (mt (lt_count l.chunkLength_pos).2 (Nat.not_lt.2 hge))
    rw [block_eq_nil hend]
    split at h
    · exact List.mem_singleton.1 (List.mem_of_getElem? h)
    · cases h

theorem content_end (h : l.chunks.length ≤ c) : l.content.length ≤ c * l.chunkLength := by
  rw [chunks, List.length_append, length_blocks] at h
  exact Nat.not_lt.1 (mt (lt_count l.chunkLength_pos).2 (by omega))

theorem lt_length_chunks (h : c * l.chunkLength < l.content.length) : c < l.chunks.length := by
  rw [chunks, List.length_append, length_blocks]
  have := (lt_count l.chunkLength_pos).2 h
  omega

theorem padded_last (h : l.Padded (block l.chunkLength c l.content)) :
    l.content.length ≤ (c + 1) * l.chunkLength := by
  obtain ⟨hraw, hshort⟩ := h
  by_contra hlt
  have hfits := l.raw_fits c (Nat.not_le.1 hlt) hraw
  rw [block, length_part, Nat.add_one_mul] at hshort
  rw [Nat.add_one_mul] at hlt
  omega

theorem asRead_of_not_padded (h : ¬ l.Padded chunk) : l.asRead chunk = chunk := by
  rw [asRead]
  split
  · rfl
  · rename_i hraw
    have hlong : l.maxCompressedLength ≤ chunk.length :=
      Nat.not_lt.1 fun hshort => h ⟨Nat.not_lt.1 hraw, hshort⟩
    rw [Nat.sub_eq_zero_of_le hlong, List.replicate_zero, List.append_nil]

theorem length_asRead_of_padded (h : l.Padded chunk) :
    (l.asRead chunk).length = l.maxCompressedLength := by
  rw [asRead, if_neg (Nat.not_lt.2 h.1), List.length_append, List.length_replicate]
  have := h.2
  omega

/-! ### Reading a chunk -/

theorem readCompressedChunkAt_layout (hfits : (l.file crc32).length < 2 ^ 64)
    (h : l.chunks[c]? = some chunk) :
    readCompressedChunkAt crc32 (l.file crc32) (l.info crc32) c (l.file crc32).length 0 =
      .ok (some (l.stored chunk)) := by
  have hrecord : (l.records crc32)[c]? = some (l.record crc32 chunk) := by
    rw [records, List.getElem?_map, h]
    rfl
  obtain ⟨hlt, -⟩ := List.getElem?_eq_some_iff.1 hrecord
  have hoffset : (l.info crc32).compressedChunkOffset c =
      some ((l.records crc32).take c).flatten.length := getElem?_starts hlt
  have hnext : ((l.info crc32).compressedChunkOffset (c + 1)).getD (l.file crc32).length =
      ((l.records crc32).take c).flatten.length + (l.record crc32 chunk).length :=
    start_next hrecord
  have hsize : (l.info crc32).compressedChunkSize c (l.file crc32).length =
      some ((l.stored chunk).length + 4) := by
    rw [CompressionInfo.compressedChunkSize, hoffset, Option.bind_eq_bind, Option.bind_some, hnext,
      if_pos (Nat.le_add_right _ _), Nat.add_sub_cancel_left, length_record]
  have hpart := part_record hrecord
  rw [length_record] at hpart
  change part _ _ (l.file crc32) = _ at hpart
  have hend : ((l.records crc32).take c).flatten.length + ((l.stored chunk).length + 4) ≤
      (l.file crc32).length := by
    have hlength := congrArg List.length hpart
    rw [length_part, length_record] at hlength
    omega
  have hread : readExactAt (l.file crc32) (((l.records crc32).take c).flatten.length + 0)
      ((l.stored chunk).length + 4 - 4 + 4) = .ok (l.record crc32 chunk) := by
    rw [readExactAt, Nat.add_zero, Nat.add_sub_cancel, if_pos hend, hpart]
  have hcrc : fromBe (beBytes 4 (crc32 (l.stored chunk)).toNat) =
      (crc32 (l.stored chunk)).toNat := by
    rw [fromBe_beBytes]
    exact Nat.mod_eq_of_lt (crc32 (l.stored chunk)).toNat_lt
  have hcount : ¬ (l.info crc32).chunkOffsets.length ≤ c := by
    rw [info, length_starts]
    exact Nat.not_le.2 hlt
  rw [readCompressedChunkAt, if_neg hcount, hoffset, hsize]
  dsimp only
  rw [if_neg (by omega), if_neg (by omega), hread]
  dsimp only
  rw [Nat.add_sub_cancel, record, List.take_left, List.drop_left, hcrc, if_neg (not_not.2 rfl)]

theorem readCompressedChunkAt_end (h : l.chunks.length ≤ c) (fileSize : Nat) :
    readCompressedChunkAt crc32 (l.file crc32) (l.info crc32) c fileSize 0 = .ok none := by
  have hcount : (l.info crc32).chunkOffsets.length ≤ c := by
    rw [info, length_starts, records, List.length_map]
    exact h
  rw [readCompressedChunkAt, if_pos hcount]

/-- A stored chunk goes into the window as the reader makes it out. -/
theorem windowChunk_layout (l : ChunkLayout) (crc32 : Bytes → UInt32) (c : Nat) (chunk : Bytes)
    (log : List (Nat × Bytes)) :
    ∃ log', (windowChunk (l.info crc32) l.codec.decompress c (l.stored chunk)).run log =
      .ok (l.asRead chunk) log' := by
  have hmax : (l.info crc32).maxCompressedLength = l.maxCompressedLength := rfl
  rw [windowChunk, hmax, stored, asRead]
  split
  · rename_i hshort
    have hmodify : (modify (· ++ [(c, l.codec.compress chunk)]) : Decompressing Unit).run log =
        .ok () (log ++ [(c, l.codec.compress chunk)]) := rfl
    rw [if_neg (Nat.not_le.2 hshort), run_bind_of_ok hmodify, l.codec.inverts]
    exact ⟨_, rfl⟩
  · have hlong : l.maxCompressedLength ≤
        (chunk ++ List.replicate (l.maxCompressedLength - chunk.length) 0).length := by
      rw [List.length_append, List.length_replicate]
      omega
    rw [if_pos hlong]
    exact ⟨_, rfl⟩

/-! ### The loop -/

section

variable {needed within : Nat}

/-- The loop over the file of the layout. -/
def loop (l : ChunkLayout) (crc32 : Bytes → UInt32) (needed within chunkIndex : Nat)
    (window : Bytes) : Decompressing Bytes :=
  windowLoop crc32 (l.file crc32) (l.info crc32) l.codec.decompress (l.file crc32).length needed
    within chunkIndex window

variable {window : Bytes}

theorem run_loop_enough (h : needed ≤ window.length) (log : List (Nat × Bytes)) :
    (l.loop crc32 needed within c window).run log = .ok window log := by
  rw [loop, windowLoop, if_pos h]
  rfl

theorem run_loop_end (hend : l.chunks.length ≤ c) (h : within ≤ window.length)
    (log : List (Nat × Bytes)) :
    (l.loop crc32 needed within c window).run log = .ok window log := by
  rw [loop, windowLoop]
  split
  · rfl
  split
  · rename_i hread
    rw [readCompressedChunkAt_end hend] at hread
    cases hread
  · rename_i hread
    rw [readCompressedChunkAt_end hend] at hread
    cases hread
  · rw [if_neg (Nat.not_lt.2 h)]
    rfl

theorem run_loop_step (hfits : (l.file crc32).length < 2 ^ 64) (hchunk : l.chunks[c]? = some chunk)
    (h : window.length < needed) (log : List (Nat × Bytes)) :
    ∃ log', (l.loop crc32 needed within c window).run log =
      (l.loop crc32 needed within (c + 1) (window ++ l.asRead chunk)).run log' := by
  obtain ⟨log', hrun⟩ := windowChunk_layout l crc32 c chunk log
  refine ⟨log', ?_⟩
  rw [loop, windowLoop, if_neg (Nat.not_le.2 h)]
  split
  · rename_i hread
    rw [readCompressedChunkAt_layout hfits hchunk] at hread
    cases hread
  · rename_i hread
    rw [readCompressedChunkAt_layout hfits hchunk] at hread
    cases hread
    rw [run_bind_of_ok hrun]
    rfl
  · rename_i hread
    rw [readCompressedChunkAt_layout hfits hchunk] at hread
    cases hread

variable {base stop : Nat}

/-- With chunks that are not padded the window stays a part of the content. -/
theorem run_loop_exact (hfits : (l.file crc32).length < 2 ^ 64)
    (hbase : base + within < l.content.length) (hc : base ≤ c * l.chunkLength)
    (hplain : ∀ k, c ≤ k → k < l.chunks.length →
      min (k * l.chunkLength) l.content.length < stop →
        ¬ l.Padded (block l.chunkLength k l.content)) (log : List (Nat × Bytes)) :
    ∃ m log', c ≤ m ∧ (stop ≤ m * l.chunkLength ∨ l.content.length ≤ m * l.chunkLength) ∧
      (l.loop crc32 (stop - base) within c (part base (c * l.chunkLength) l.content)).run log =
        .ok (part base (m * l.chunkLength) l.content) log' := by
  induction hd : l.chunks.length - c generalizing c log with
  | zero =>
    have hend : l.chunks.length ≤ c := by omega
    have hdata := content_end hend
    refine ⟨c, log, Nat.le_refl _, .inr hdata, run_loop_end hend ?_ log⟩
    rw [length_part]
    omega
  | succ d ih =>
    by_cases hstop : stop - base ≤ (part base (c * l.chunkLength) l.content).length
    · refine ⟨c, log, Nat.le_refl _, .inl ?_, run_loop_enough hstop log⟩
      rw [length_part] at hstop
      omega
    · have hlt : c < l.chunks.length := by omega
      have hchunk := List.getElem?_eq_getElem hlt
      have hblock := getElem?_chunks hchunk
      have hreach : min (c * l.chunkLength) l.content.length < stop := by
        rw [length_part] at hstop
        omega
      obtain ⟨log₁, hstep⟩ := run_loop_step hfits hchunk (Nat.not_le.1 hstop) log
      rw [hblock, asRead_of_not_padded (hplain c (Nat.le_refl _) hlt hreach),
        part_append_block hc] at hstep
      have hnext : base ≤ (c + 1) * l.chunkLength :=
        hc.trans (Nat.mul_le_mul_right _ (Nat.le_succ c))
      obtain ⟨m, log', hm, hend, hrun⟩ :=
        ih hnext (fun k hk => hplain k (Nat.le_of_succ_le hk)) log₁ (by omega)
      exact ⟨m, log', Nat.le_of_succ_le hm, hend, hstep.trans hrun⟩

theorem run_loop_long (hfits : (l.file crc32).length < 2 ^ 64) {least : Nat}
    (hleast : within ≤ least) (c : Nat) (h : least < window.length) (log : List (Nat × Bytes)) :
    ∃ window' log', least < window'.length ∧
      (l.loop crc32 needed within c window).run log = .ok window' log' := by
  induction hd : l.chunks.length - c generalizing c window log with
  | zero => exact ⟨window, log, h, run_loop_end (by omega) (hleast.trans h.le) log⟩
  | succ d ih =>
    by_cases hneeded : needed ≤ window.length
    · exact ⟨window, log, h, run_loop_enough hneeded log⟩
    · have hlt : c < l.chunks.length := by omega
      obtain ⟨log₁, hstep⟩ := run_loop_step hfits (List.getElem?_eq_getElem hlt)
        (Nat.not_le.1 hneeded) log
      have hlonger : least < (window ++ l.asRead l.chunks[c]).length := by
        rw [List.length_append]
        omega
      obtain ⟨window', log', hlong, hrun⟩ := ih (c + 1) hlonger log₁ (by omega)
      exact ⟨window', log', hlong, hstep.trans hrun⟩

/-- Reading a padded chunk makes the window longer than the content. -/
theorem run_loop_padded_here (hfits : (l.file crc32).length < 2 ^ 64)
    (hbase : base + within < l.content.length) (hc : base ≤ c * l.chunkLength)
    (hlt : c < l.chunks.length) (hreach : min (c * l.chunkLength) l.content.length < stop)
    (hpadded : l.Padded (block l.chunkLength c l.content)) (log : List (Nat × Bytes)) :
    ∃ window log', l.content.length - base < window.length ∧
      (l.loop crc32 (stop - base) within c (part base (c * l.chunkLength) l.content)).run log =
        .ok window log' := by
  have hchunk := List.getElem?_eq_getElem hlt
  have hblock := getElem?_chunks hchunk
  have hshort : (part base (c * l.chunkLength) l.content).length < stop - base := by
    rw [length_part]
    omega
  obtain ⟨log₁, hstep⟩ := run_loop_step hfits hchunk hshort log
  have hlong : l.content.length - base <
      (part base (c * l.chunkLength) l.content ++ l.asRead l.chunks[c]).length := by
    -- the chunk reaches the end of the content, and what is read of it is longer
    have hlast := padded_last hpadded
    have hless := hpadded.2
    rw [block, length_part] at hless
    rw [List.length_append, length_part, hblock, length_asRead_of_padded hpadded]
    omega
  have hleast : within ≤ l.content.length - base := by omega
  obtain ⟨window, log', hlong', hrun⟩ := run_loop_long hfits hleast (c + 1) hlong log₁
  exact ⟨window, log', hlong', hstep.trans hrun⟩

/-- With a padded chunk ahead the window becomes longer than the content. -/
theorem run_loop_padded (hfits : (l.file crc32).length < 2 ^ 64)
    (hbase : base + within < l.content.length) {k : Nat} (hc : base ≤ c * l.chunkLength)
    (hk : c ≤ k) (hlt : k < l.chunks.length)
    (hreach : min (k * l.chunkLength) l.content.length < stop)
    (hpadded : l.Padded (block l.chunkLength k l.content)) (log : List (Nat × Bytes)) :
    ∃ window log', l.content.length - base < window.length ∧
      (l.loop crc32 (stop - base) within c (part base (c * l.chunkLength) l.content)).run log =
        .ok window log' := by
  induction hd : k - c generalizing c log with
  | zero =>
    obtain rfl : c = k := by omega
    exact run_loop_padded_here hfits hbase hc hlt hreach hpadded log
  | succ d ih =>
    have hmono : c * l.chunkLength ≤ k * l.chunkLength := Nat.mul_le_mul_right _ hk
    have hreach' : min (c * l.chunkLength) l.content.length < stop := by omega
    have hlt' : c < l.chunks.length := by omega
    by_cases hhere : l.Padded (block l.chunkLength c l.content)
    · exact run_loop_padded_here hfits hbase hc hlt' hreach' hhere log
    · have hchunk := List.getElem?_eq_getElem hlt'
      have hshort : (part base (c * l.chunkLength) l.content).length < stop - base := by
        rw [length_part]
        omega
      obtain ⟨log₁, hstep⟩ := run_loop_step hfits hchunk hshort log
      rw [getElem?_chunks hchunk, asRead_of_not_padded hhere, part_append_block hc] at hstep
      have hnext : base ≤ (c + 1) * l.chunkLength :=
        hc.trans (Nat.mul_le_mul_right _ (Nat.le_succ c))
      obtain ⟨window, log', hlong, hrun⟩ := ih hnext (by omega) log₁ (by omega)
      exact ⟨window, log', hlong, hstep.trans hrun⟩

end

/-! ### The window -/

/-- Where the window stops at the latest. -/
def stopOf (l : ChunkLayout) (endBound : Option Nat) : Nat := endBound.getD l.content.length

/-- A window over the layout is that of the loop, where it reaches the offset. -/
theorem run_window {offset : Nat} (hoffset : offset < l.content.length) (endBound : Option Nat) :
    compressedPartitionWindow crc32 (l.file crc32) (l.info crc32) l.codec.decompress
        (l.file crc32).length offset endBound =
      (do
        let window ← l.loop crc32 (l.stopOf endBound - offset / l.chunkLength * l.chunkLength)
          (offset - offset / l.chunkLength * l.chunkLength) (offset / l.chunkLength) []
        guardWindow (offset - offset / l.chunkLength * l.chunkLength) window) := by
  have hbase : offset / l.chunkLength * l.chunkLength ≤ offset := Nat.div_mul_le_self _ _
  have hstop : endOffset (l.info crc32) offset endBound = some (l.stopOf endBound) := by
    cases endBound with
    | none => exact if_pos hoffset
    | some stop => rfl
  have hcount : ¬ (l.info crc32).chunkOffsets.length ≤ offset / l.chunkLength := by
    rw [info, length_starts, records, List.length_map, Nat.not_le]
    exact lt_length_chunks (Nat.lt_of_le_of_lt hbase hoffset)
  have hlen : (l.info crc32).chunkLength = l.chunkLength := rfl
  have hmax : (l.info crc32).maxCompressedLength ≠ 0 := l.maxCompressedLength_pos.ne'
  unfold compressedPartitionWindow
  dsimp only
  rw [hlen, if_neg l.chunkLength_pos.ne', if_neg (Nat.not_lt.2 hbase), hstop]
  dsimp only
  rw [if_neg hcount, if_neg hmax]
  rfl

/-- The window is a part of the content in whole chunks, and the content from the offset on. -/
def Reconstructs (l : ChunkLayout) (offset stop : Nat)
    (result : EStateM.Result String (List (Nat × Bytes)) (Option (Bytes × Nat))) : Prop :=
  ∃ window within log, result = .ok (some (window, within)) log ∧
    (∃ m, window = part (offset / l.chunkLength * l.chunkLength) (m * l.chunkLength) l.content) ∧
    offset / l.chunkLength * l.chunkLength + within = offset ∧
    part offset (min stop l.content.length) l.content <+: window.drop within

/-- The bound lies behind the start of the chunk, unless that is where the partition starts, and no
    chunk up to the bound is padded. -/
def Readable (l : ChunkLayout) (offset stop : Nat) : Prop :=
  (offset / l.chunkLength * l.chunkLength < stop ∨
    offset / l.chunkLength * l.chunkLength = offset) ∧
  ∀ k, offset / l.chunkLength ≤ k → k < l.chunks.length →
    min (k * l.chunkLength) l.content.length < stop →
      ¬ l.Padded (block l.chunkLength k l.content)

theorem reconstructs_iff (hfits : (l.file crc32).length < 2 ^ 64) {offset : Nat}
    (hoffset : offset < l.content.length) (endBound : Option Nat) :
    l.Reconstructs offset (l.stopOf endBound)
        ((compressedPartitionWindow crc32 (l.file crc32) (l.info crc32) l.codec.decompress
          (l.file crc32).length offset endBound).run []) ↔
      l.Readable offset (l.stopOf endBound) := by
  rw [run_window hoffset]
  have hbase : offset / l.chunkLength * l.chunkLength ≤ offset := Nat.div_mul_le_self _ _
  have hnext : offset < (offset / l.chunkLength + 1) * l.chunkLength :=
    Nat.lt_mul_of_div_lt (Nat.lt_succ_self _) l.chunkLength_pos
  have hempty : part (offset / l.chunkLength * l.chunkLength)
      (offset / l.chunkLength * l.chunkLength) l.content = [] := part_eq_nil (Nat.le_refl _)
  have hwithin : offset / l.chunkLength * l.chunkLength +
      (offset - offset / l.chunkLength * l.chunkLength) < l.content.length := by omega
  generalize l.stopOf endBound = stop
  by_cases hbound : offset / l.chunkLength * l.chunkLength < stop ∨
      offset / l.chunkLength * l.chunkLength = offset
  · by_cases hplain : ∀ k, offset / l.chunkLength ≤ k → k < l.chunks.length →
        min (k * l.chunkLength) l.content.length < stop →
          ¬ l.Padded (block l.chunkLength k l.content)
    · refine iff_of_true ?_ ⟨hbound, hplain⟩
      obtain ⟨m, log, hm, hend, hloop⟩ := run_loop_exact hfits hwithin (Nat.le_refl _) hplain []
      rw [hempty] at hloop
      have hreach : offset - offset / l.chunkLength * l.chunkLength ≤
          (part (offset / l.chunkLength * l.chunkLength) (m * l.chunkLength) l.content).length := by
        rw [length_part]
        rcases Nat.eq_or_lt_of_le hm with heq | hlt
        · rw [← heq] at hend ⊢
          omega
        · have hmul : (offset / l.chunkLength + 1) * l.chunkLength ≤ m * l.chunkLength :=
            Nat.mul_le_mul_right _ hlt
          omega
      have hsum : offset / l.chunkLength * l.chunkLength +
          (offset - offset / l.chunkLength * l.chunkLength) = offset := by omega
      rw [run_bind_of_ok hloop, guardWindow, if_neg (Nat.not_lt.2 hreach)]
      refine ⟨_, _, _, rfl, ⟨m, rfl⟩, hsum, ?_⟩
      rw [drop_part, hsum]
      rcases hend with hend | hend
      · exact part_prefix offset ((Nat.min_le_left _ _).trans hend) _
      · exact part_prefix offset ((Nat.min_le_right _ _).trans hend) _
    · refine iff_of_false ?_ fun h => hplain h.2
      simp only [not_forall, not_not] at hplain
      obtain ⟨k, hk, hlt, hreach, hpadded⟩ := hplain
      obtain ⟨window, log, hlong, hloop⟩ := run_loop_padded hfits hwithin (Nat.le_refl _) hk hlt
        hreach hpadded []
      rw [hempty] at hloop
      rw [run_bind_of_ok hloop, guardWindow, if_neg (by omega)]
      rintro ⟨_, _, _, hresult, ⟨m, hwindow⟩, -, -⟩
      cases hresult
      rw [hwindow, length_part] at hlong
      omega
  · refine iff_of_false ?_ fun h => hbound h.1
    have hneeded : stop - offset / l.chunkLength * l.chunkLength ≤ ([] : Bytes).length := by
      rw [List.length_nil]
      omega
    have hshort : ([] : Bytes).length < offset - offset / l.chunkLength * l.chunkLength := by
      rw [List.length_nil]
      omega
    rw [run_bind_of_ok (run_loop_enough hneeded []), guardWindow, if_pos hshort]
    rintro ⟨_, _, _, hresult, -⟩
    cases hresult

end ChunkLayout

/-- A stored file: its length is a `u64`. -/
structure ChunkedFile (crc32 : Bytes → UInt32) where
  layout : ChunkLayout
  fits : (layout.file crc32).length < 2 ^ 64

/-- On a file of chunks the window is right exactly when it can be read without padding. On any file
    and any `CompressionInfo.db` a chunk is decompressed only after its checksum matched, and the
    offset lies in the window. -/
theorem window_exact_iff (crc32 : Bytes → UInt32) :
    (∀ (f : ChunkedFile crc32) (offset : Fin f.layout.content.length) (endBound : Option Nat),
      f.layout.Reconstructs offset (f.layout.stopOf endBound)
          ((compressedPartitionWindow crc32 (f.layout.file crc32) (f.layout.info crc32)
            f.layout.codec.decompress (f.layout.file crc32).length offset endBound).run []) ↔
        f.layout.Readable offset (f.layout.stopOf endBound)) ∧
    ∀ (source : Bytes) (info : CompressionInfo)
      (compression : Option (Bytes → Except String Bytes)) (fileSize offset : Nat)
      (endBound : Option Nat),
      AllVerified crc32 source info fileSize (stateOf
        ((compressedPartitionWindow crc32 source info compression fileSize offset endBound).run
          [])) ∧
      ∀ window within log,
        (compressedPartitionWindow crc32 source info compression fileSize offset endBound).run [] =
          .ok (some (window, within)) log → within ≤ window.length :=
  ⟨fun f offset endBound => ChunkLayout.reconstructs_iff f.fits offset.2 endBound,
    fun _ _ _ _ offset endBound => window_safe offset endBound⟩

/-! ### A padded chunk -/

/-- Literals only, as LZ4 stores a short chunk: its length, a token, and the bytes. -/
def literalsCodec : ChunkCodec where
  compress chunk := UInt8.ofNat chunk.length :: 0 :: 0 :: 0 ::
    UInt8.ofNat (16 * chunk.length) :: chunk
  decompress := some fun bytes => .ok (bytes.drop 5)
  inverts _ := rfl

/-- The byte 7 in chunks of 4 bytes, stored raw from 4 bytes on. -/
def oneByteLayout : ChunkLayout where
  codec := literalsCodec
  content := [7]
  chunkLength := 4
  maxCompressedLength := 4
  trailing := false
  chunkLength_pos := by decide
  maxCompressedLength_pos := by decide
  raw_fits c _ _ := Nat.le_refl 4

/-- The window over the one byte holds three zeros that are not in the data. -/
theorem padding_in_window :
    ¬ ∀ (crc32 : Bytes → UInt32) (f : ChunkedFile crc32) (offset : Fin f.layout.content.length)
      (endBound : Option Nat),
      f.layout.Reconstructs offset (f.layout.stopOf endBound)
        ((compressedPartitionWindow crc32 (f.layout.file crc32) (f.layout.info crc32)
          f.layout.codec.decompress (f.layout.file crc32).length offset endBound).run []) := by
  intro h
  have hfits : (oneByteLayout.file fun _ => 0).length < 2 ^ 64 := by decide
  have hpos : 0 < oneByteLayout.content.length := by decide
  have hreadable := (ChunkLayout.reconstructs_iff hfits hpos none).1
    (h (fun _ => 0) ⟨oneByteLayout, hfits⟩ ⟨0, hpos⟩ none)
  exact hreadable.2 0 (Nat.le_refl 0) (by decide) (by decide) ⟨by decide, by decide⟩

end Cqlite
