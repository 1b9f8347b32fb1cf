import Cqlite.Engine.PartitionKeyCodec
import Cqlite.Reader.TrieNode
import Cqlite.Writer.RowMerge

/-! Partition headers (`data_writer/partition.rs`: `write_partition_header`;
    `row_decoder/row_framing.rs`: `partition_header_readiness`, `scan_partition_header`,
    `parse_partition_header_full`).

    The writer puts the length of the key in two bytes. The reader takes the first of them for flags
    and the second for the length, so it reads what was written up to 255 bytes of key. -/

namespace Cqlite

open VInt

/-! ### Writing -/

/-- A live partition has the sentinel of its format. -/
def partitionDeletionBytes (oaPartitionDeletion : Bool) (tombstone : Option PartitionTombstone) :
    Bytes :=
  match oaPartitionDeletion, tombstone with
  | true, some ts => intBytes 8 ts.deletionTime ++ intBytes 4 ts.localDeletionTime
  | true, none => [0x80]
  | false, some ts => intBytes 4 ts.localDeletionTime ++ intBytes 8 ts.deletionTime
  | false, none => intBytes 4 i32Max ++ intBytes 8 i64Min

def writePartitionHeader (oaPartitionDeletion : Bool) (key : Bytes)
    (tombstone : Option PartitionTombstone) : Except Error Bytes :=
  if 65535 < key.length then
    .error (.invalidInput ("Partition key too large: " ++ toString key.length ++
      " bytes (max 65535)"))
  else
    .ok (beBytes 2 key.length ++ key ++ partitionDeletionBytes oaPartitionDeletion tombstone)

/-! ### Reading -/

inductive PartitionHeaderReadiness
  | ready
  | incomplete
  | malformed
  deriving DecidableEq, Repr

def oaIsLiveDeletion : UInt8 := 0x80

/-- Whether the header in front is present in full. -/
def partitionHeaderReadiness (hasUintDeletionTime : Bool) (data : Bytes) :
    PartitionHeaderReadiness :=
  if data.length < 2 then .incomplete
  else
    let keyLen := (byteAt data 1).toNat
    if keyLen = 0 ∨ min 255 65536 < keyLen then .malformed
    else
      let deletionOffset := 2 + keyLen
      let bySize (deletionTimeMin : Nat) : PartitionHeaderReadiness :=
        if data.length < deletionOffset + deletionTimeMin then .incomplete else .ready
      if hasUintDeletionTime then
        match data[deletionOffset]? with
        | none => .incomplete
        | some b => bySize (if b &&& oaIsLiveDeletion ≠ 0 then 1 else 12)
      else bySize 12

structure PartitionHeaderLayout where
  keyStart : Nat
  keyEnd : Nat
  nextOffset : Nat
  partitionDeletion : Option Deletion
  deriving DecidableEq, Repr

/-- A corruption error by its message. -/
abbrev ParseResult (α : Type) := Except String α

def sliceOf (data : Bytes) (start len : Nat) : Bytes := (data.drop start).take len

/-- `{:02x}`. -/
def hexByte (b : UInt8) : String :=
  String.ofList [Nat.digitChar (b.toNat / 16), Nat.digitChar (b.toNat % 16)]

/-- The deletion at `offset` and the offset behind it. -/
def scanPartitionDeletion (hasUintDeletionTime : Bool) (data : Bytes) (offset : Nat) :
    ParseResult (Option Deletion × Nat) :=
  if hasUintDeletionTime then
    match data[offset]? with
    | none => .error "V5CompressedLegacy: Unexpected end at oa partition deletion time byte"
    | some delFlags =>
      if delFlags &&& oaIsLiveDeletion ≠ 0 then
        if delFlags ≠ oaIsLiveDeletion then
          .error ("V5CompressedLegacy: Invalid IS_LIVE_DELETION byte 0x" ++ hexByte delFlags ++
            " at offset " ++ toString offset ++
            " (only 0x80 is valid for oa-format LIVE partitions, per DeletionTime.java:227-229)")
        else .ok (none, offset + 1)
      else if data.length < offset + 12 then
        .error "V5CompressedLegacy: Unexpected end at oa partition deletion time (deleted)"
      else
        .ok (some (intOfBytes (sliceOf data offset 8), intOfBytes (sliceOf data (offset + 8) 4)),
          offset + 12)
  else if data.length < offset + 12 then
    .error "V5CompressedLegacy: Unexpected end at nb partition deletion time"
  else
    let localDeletionTime := intOfBytes (sliceOf data offset 4)
    let mfda := intOfBytes (sliceOf data (offset + 4) 8)
    .ok (if localDeletionTime = i32Max then none else some (mfda, localDeletionTime), offset + 12)

def scanPartitionHeader (hasUintDeletionTime : Bool) (data : Bytes) (startOffset : Nat) :
    ParseResult PartitionHeaderLayout :=
  if data.length ≤ startOffset then
    .error ("V5CompressedLegacy: Partition header offset " ++ toString startOffset ++
      " out of bounds (data len: " ++ toString data.length ++ ")")
  else if data.length ≤ startOffset + 1 then
    .error "V5CompressedLegacy: Unexpected end at partition key length"
  else
    -- the byte at `startOffset` is skipped as flags
    let keyLen := (byteAt data (startOffset + 1)).toNat
    let offset := startOffset + 2
    if keyLen = 0 then
      .error ("V5CompressedLegacy: Invalid partition key length 0 at offset " ++
        toString startOffset ++ " (not a partition header)")
    else if data.length < offset + keyLen then
      .error ("V5CompressedLegacy: Partition key extends beyond data (offset: " ++
        toString offset ++ ", key_len: " ++ toString keyLen ++ ", data_len: " ++
        toString data.length ++ ")")
    else do
      let deletion ← scanPartitionDeletion hasUintDeletionTime data (offset + keyLen)
      return ⟨offset, offset + keyLen, deletion.2, deletion.1⟩

def parsePartitionHeaderFull (hasUintDeletionTime : Bool) (data : Bytes) (offset : Nat) :
    ParseResult (Bytes × Nat × Option Deletion) := do
  let layout ← scanPartitionHeader hasUintDeletionTime data offset
  return (sliceOf data layout.keyStart (layout.keyEnd - layout.keyStart), layout.nextOffset,
    layout.partitionDeletion)

/-! ### What the layouts admit -/

/-- Times of the source's machine types; the local time is not the sentinel of a live partition, and
    the `oa` layout has no room for a sign. -/
structure DeletionAdmitted (oaPartitionDeletion : Bool) (ts : PartitionTombstone) : Prop where
  timestamp : -(2 ^ 63) ≤ ts.deletionTime ∧ ts.deletionTime < 2 ^ 63
  localTime : -(2 ^ 31) ≤ ts.localDeletionTime ∧ ts.localDeletionTime < i32Max
  unsigned : oaPartitionDeletion = true → 0 ≤ ts.deletionTime

theorem intBytes_clear {n : Int} (hlow : 0 ≤ n) (hhigh : n < 2 ^ 63) :
    ∃ first rest, intBytes 8 n = first :: rest ∧ rest.length = 7 ∧ first &&& oaIsLiveDeletion = 0 := by
  refine ⟨_, _, rfl, length_beBytes _ _, ?_⟩
  have hclear : ∀ k : Fin 128, UInt8.ofNat k.1 &&& oaIsLiveDeletion = 0 := by decide
  have hfirst : (n % 256 ^ 8).toNat / 256 ^ 7 % 256 < 128 := by omega
  exact hclear ⟨_, hfirst⟩

theorem sliceOf_append (front rest : Bytes) {mid : Bytes} {k : Nat} (hlen : mid.length = k) :
    sliceOf (front ++ (mid ++ rest)) front.length k = mid := by
  rw [sliceOf, List.drop_left, List.take_left' hlen]

theorem intOfBytes_pair {j k : Nat} {m n : Int} (hm : -(256 ^ j) ≤ 2 * m ∧ 2 * m < 256 ^ j)
    (hn : -(256 ^ k) ≤ 2 * n ∧ 2 * n < 256 ^ k) (front suffix : Bytes) :
    intOfBytes (sliceOf (front ++ (intBytes j m ++ intBytes k n ++ suffix)) front.length j) = m ∧
      intOfBytes (sliceOf (front ++ (intBytes j m ++ intBytes k n ++ suffix)) (front.length + j) k) =
        n := by
  constructor
  · rw [List.append_assoc, sliceOf_append _ _ (length_intBytes _ _), intOfBytes_intBytes hm.1 hm.2]
  · have hregroup : front ++ (intBytes j m ++ intBytes k n ++ suffix) =
        (front ++ intBytes j m) ++ (intBytes k n ++ suffix) := by simp only [List.append_assoc]
    have hoffset : front.length + j = (front ++ intBytes j m).length := by
      rw [List.length_append, length_intBytes]
    rw [hregroup, hoffset, sliceOf_append _ _ (length_intBytes _ _), intOfBytes_intBytes hn.1 hn.2]

theorem scanPartitionDeletion_nb {ldt mfda : Int} (hldt : -(2 ^ 31) ≤ ldt ∧ ldt < 2 ^ 31)
    (hmfda : -(2 ^ 63) ≤ mfda ∧ mfda < 2 ^ 63) (front suffix : Bytes) :
    scanPartitionDeletion false (front ++ (intBytes 4 ldt ++ intBytes 8 mfda ++ suffix)) front.length =
      .ok (if ldt = i32Max then none else some (mfda, ldt), front.length + 12) := by
  have hlong : ¬ (front ++ (intBytes 4 ldt ++ intBytes 8 mfda ++ suffix)).length < front.length + 12 := by
    simp only [List.length_append, length_intBytes]
    omega
  obtain ⟨hfirst, hsecond⟩ :=
    @intOfBytes_pair 4 8 ldt mfda (by constructor <;> omega) (by constructor <;> omega) front suffix
  rw [scanPartitionDeletion, if_neg (by decide), if_neg hlong]
  simp only [hfirst, hsecond]

theorem scanPartitionDeletion_oa {ldt mfda : Int} (hldt : -(2 ^ 31) ≤ ldt ∧ ldt < 2 ^ 31)
    (hmfda : 0 ≤ mfda ∧ mfda < 2 ^ 63) (front suffix : Bytes) :
    scanPartitionDeletion true (front ++ (intBytes 8 mfda ++ intBytes 4 ldt ++ suffix)) front.length =
      .ok (some (mfda, ldt), front.length + 12) := by
  obtain ⟨first, rest, hbytes, -, hclear⟩ := intBytes_clear hmfda.1 hmfda.2
  have hlong : ¬ (front ++ (intBytes 8 mfda ++ intBytes 4 ldt ++ suffix)).length < front.length + 12 := by
    simp only [List.length_append, length_intBytes]
    omega
  have hget : (front ++ (intBytes 8 mfda ++ intBytes 4 ldt ++ suffix))[front.length]? = some first := by
    rw [List.getElem?_append_right le_rfl, Nat.sub_self, hbytes]
    rfl
  obtain ⟨hfirst, hsecond⟩ :=
    @intOfBytes_pair 8 4 mfda ldt (by constructor <;> omega) (by constructor <;> omega) front suffix
  rw [scanPartitionDeletion, if_pos rfl, hget]
  simp only [hclear, ne_eq, not_true, if_false, if_neg hlong, hfirst, hsecond]

variable {oa : Bool} {tombstone : Option PartitionTombstone}

theorem scanPartitionDeletion_written (hadmitted : ∀ ts ∈ tombstone, DeletionAdmitted oa ts)
    (front suffix : Bytes) :
    scanPartitionDeletion oa (front ++ (partitionDeletionBytes oa tombstone ++ suffix)) front.length =
      .ok (tombstone.map fun ts => (ts.deletionTime, ts.localDeletionTime),
        front.length + (partitionDeletionBytes oa tombstone).length) := by
  cases tombstone with
  | none =>
    cases oa with
    | true =>
      have hget : (front ++ (0x80 :: suffix))[front.length]? = some (0x80 : UInt8) := by
        rw [List.getElem?_append_right le_rfl, Nat.sub_self]
        rfl
      rw [scanPartitionDeletion, if_pos rfl]
      simp only [partitionDeletionBytes, List.singleton_append, hget]
      rfl
    | false =>
      rw [partitionDeletionBytes, scanPartitionDeletion_nb (by decide) (by decide)]
      rfl
  | some ts =>
    obtain ⟨⟨htlow, hthigh⟩, ⟨hllow, hlhigh⟩, hunsigned⟩ := hadmitted ts rfl
    have hldt : -(2 ^ 31) ≤ ts.localDeletionTime ∧ ts.localDeletionTime < 2 ^ 31 := by
      rw [i32Max] at hlhigh
      omega
    cases oa with
    | true =>
      rw [partitionDeletionBytes, scanPartitionDeletion_oa hldt ⟨hunsigned rfl, hthigh⟩]
      simp only [Option.map_some, List.length_append, length_intBytes]
    | false =>
      rw [partitionDeletionBytes, scanPartitionDeletion_nb hldt ⟨htlow, hthigh⟩,
        if_neg (ne_of_lt hlhigh)]
      simp only [Option.map_some, List.length_append, length_intBytes]

theorem partitionDeletionBytes_size (hadmitted : ∀ ts ∈ tombstone, DeletionAdmitted oa ts) :
    ∃ first rest, partitionDeletionBytes oa tombstone = first :: rest ∧
      rest.length + 1 = if oa = true ∧ first &&& oaIsLiveDeletion ≠ 0 then 1 else 12 := by
  cases oa with
  | false =>
    cases tombstone with
    | none => exact ⟨_, _, rfl, by decide⟩
    | some ts =>
      refine ⟨_, beBytes 3 (ts.localDeletionTime % 256 ^ 4).toNat ++ intBytes 8 ts.deletionTime,
        rfl, ?_⟩
      rw [if_neg (by simp), List.length_append, length_beBytes, length_intBytes]
  | true =>
    cases tombstone with
    | none => exact ⟨_, _, rfl, by decide⟩
    | some ts =>
      obtain ⟨⟨-, hthigh⟩, -, hunsigned⟩ := hadmitted ts rfl
      obtain ⟨first, rest, hbytes, hlen, hclear⟩ := intBytes_clear (hunsigned rfl) hthigh
      refine ⟨first, rest ++ intBytes 4 ts.localDeletionTime, ?_, ?_⟩
      · rw [partitionDeletionBytes, hbytes, List.cons_append]
      · rw [if_neg (by simp [hclear]), List.length_append, length_intBytes, hlen]

/-! ### The whole header -/

/-- Up to 255 bytes of key the flags byte is zero and the next is the length. -/
theorem beBytes_two {n : Nat} (hn : n ≤ 255) : beBytes 2 n = [0, UInt8.ofNat n] := by
  have hhigh : n / 256 ^ 1 % 256 = 0 := by omega
  have hlow : n / 256 ^ 0 % 256 = n := by omega
  rw [beBytes, beBytes, beBytes, hhigh, hlow]
  rfl

/-- What the header is made of. -/
def headerBytes (oa : Bool) (key : Bytes) (tombstone : Option PartitionTombstone) : Bytes :=
  0 :: UInt8.ofNat key.length :: (key ++ partitionDeletionBytes oa tombstone)

theorem writePartitionHeader_short {key : Bytes} (hlen : key.length ≤ 255) :
    writePartitionHeader oa key tombstone = .ok (headerBytes oa key tombstone) := by
  rw [writePartitionHeader, if_neg (by omega), beBytes_two hlen]
  rfl

/-- A header with a short key reads back. -/
theorem parsePartitionHeaderFull_written {key : Bytes} (hpos : 1 ≤ key.length)
    (hlen : key.length ≤ 255) (hadmitted : ∀ ts ∈ tombstone, DeletionAdmitted oa ts)
    (suffix : Bytes) :
    parsePartitionHeaderFull oa (headerBytes oa key tombstone ++ suffix) 0 =
      .ok (key, (headerBytes oa key tombstone).length,
        tombstone.map fun ts => (ts.deletionTime, ts.localDeletionTime)) := by
  have hbyte : (UInt8.ofNat key.length).toNat = key.length := by
    rw [UInt8.toNat_ofNat']
    exact Nat.mod_eq_of_lt (by omega)
  have hdata : headerBytes oa key tombstone ++ suffix =
      [0, UInt8.ofNat key.length] ++ (key ++ (partitionDeletionBytes oa tombstone ++ suffix)) := by
    simp only [headerBytes, List.cons_append, List.nil_append, List.append_assoc]
  have hgroup : headerBytes oa key tombstone ++ suffix =
      (0 :: UInt8.ofNat key.length :: key) ++ (partitionDeletionBytes oa tombstone ++ suffix) := by
    rw [hdata]
    rfl
  have hlong : 2 + key.length ≤ (headerBytes oa key tombstone ++ suffix).length := by
    rw [hgroup, List.length_append, List.length_cons, List.length_cons]
    omega
  have hscan := scanPartitionDeletion_written hadmitted (0 :: UInt8.ofNat key.length :: key) suffix
  have hfront : (0 :: UInt8.ofNat key.length :: key).length = 2 + key.length := by
    simp only [List.length_cons]
    omega
  rw [← hgroup, hfront] at hscan
  have hkeyLen : (byteAt (headerBytes oa key tombstone ++ suffix) (0 + 1)).toNat = key.length := hbyte
  have hslice : sliceOf (headerBytes oa key tombstone ++ suffix) 2 key.length = key := by
    rw [hdata]
    exact sliceOf_append [0, UInt8.ofNat key.length] _ rfl
  have hend : 2 + key.length + (partitionDeletionBytes oa tombstone).length =
      (headerBytes oa key tombstone).length := by
    simp only [headerBytes, List.length_cons, List.length_append]
    omega
  rw [parsePartitionHeaderFull, scanPartitionHeader, if_neg (by omega), if_neg (by omega)]
  simp only [hkeyLen, Nat.zero_add]
  rw [if_neg (by omega), if_neg (by omega), hscan]
  simp only [bind, Except.bind, pure, Except.pure, Nat.add_sub_cancel_left, hslice, hend]

theorem getElem?_of_overlap {xs ys : Bytes} (h : xs <+: ys ∨ ys <+: xs) {i : Nat}
    (hx : i < xs.length) (hy : i < ys.length) : xs[i]? = ys[i]? := by
  rcases h with ⟨rest, rfl⟩ | ⟨rest, rfl⟩
  · exact (List.getElem?_append_left hx).symm
  · exact List.getElem?_append_left hy

theorem partitionHeaderReadiness_overlap {key data : Bytes} (hpos : 1 ≤ key.length)
    (hlen : key.length ≤ 255) (hadmitted : ∀ ts ∈ tombstone, DeletionAdmitted oa ts)
    (h : data <+: headerBytes oa key tombstone ∨ headerBytes oa key tombstone <+: data) :
    partitionHeaderReadiness oa data =
      if data.length < (headerBytes oa key tombstone).length then .incomplete else .ready := by
  obtain ⟨first, rest, hdeletion, hsize⟩ := partitionDeletionBytes_size hadmitted
  have hheader : (headerBytes oa key tombstone).length = 2 + key.length + (rest.length + 1) := by
    simp only [headerBytes, hdeletion, List.length_cons, List.length_append]
    omega
  rw [partitionHeaderReadiness]
  by_cases hshort : data.length < 2
  · rw [if_pos hshort, if_pos (by omega)]
  · have hkeyLen : (byteAt data 1).toNat = key.length := by
      have hget := getElem?_of_overlap h (i := 1) (by omega) (by omega)
      rw [byteAt, List.getD_eq_getElem?_getD, hget]
      exact (UInt8.toNat_ofNat').trans (Nat.mod_eq_of_lt (by omega))
    rw [if_neg hshort]
    simp only [hkeyLen]
    rw [if_neg (by omega), hheader]
    cases oa with
    | false =>
      have htwelve : rest.length + 1 = 12 := by
        rw [hsize, if_neg (by simp)]
      rw [htwelve, if_neg (by decide)]
    | true =>
      rw [if_pos rfl]
      by_cases hcut : data.length ≤ 2 + key.length
      · rw [List.getElem?_eq_none hcut, if_pos (by omega)]
      · have hget := getElem?_of_overlap h (i := 2 + key.length) (by omega) (by omega)
        have hfirst : (headerBytes true key tombstone)[2 + key.length]? = some first := by
          rw [headerBytes, hdeletion, Nat.add_comm 2, List.getElem?_cons_succ,
            List.getElem?_cons_succ, List.getElem?_append_right le_rfl, Nat.sub_self]
          rfl
        rw [hget, hfirst, hsize]
        simp only [true_and]

/-- The header is read back behind any suffix, and no proper part of it is taken for a header. -/
def HeaderRoundTrips (oa : Bool) (key : Bytes) (tombstone : Option PartitionTombstone) : Prop :=
  ∃ bytes, writePartitionHeader oa key tombstone = .ok bytes ∧
    (∀ suffix, partitionHeaderReadiness oa (bytes ++ suffix) = .ready ∧
      parsePartitionHeaderFull oa (bytes ++ suffix) 0 =
        .ok (key, bytes.length, tombstone.map fun ts => (ts.deletionTime, ts.localDeletionTime))) ∧
    ∀ front rest, bytes = front ++ rest → rest ≠ [] →
      partitionHeaderReadiness oa front = .incomplete

theorem headerRoundTrips_short {key : Bytes} (hpos : 1 ≤ key.length) (hlen : key.length ≤ 255)
    (hadmitted : ∀ ts ∈ tombstone, DeletionAdmitted oa ts) : HeaderRoundTrips oa key tombstone := by
  refine ⟨_, writePartitionHeader_short hlen, ?_, ?_⟩
  · intro suffix
    refine ⟨?_, parsePartitionHeaderFull_written hpos hlen hadmitted suffix⟩
    rw [partitionHeaderReadiness_overlap hpos hlen hadmitted (.inr (List.prefix_append _ _)),
      if_neg (by rw [List.length_append]; omega)]
  · intro front rest hsplit hrest
    have hlt := List.length_pos_of_ne_nil hrest
    rw [partitionHeaderReadiness_overlap hpos hlen hadmitted (.inl ⟨rest, hsplit.symm⟩),
      if_pos (by rw [hsplit, List.length_append]; omega)]

theorem length_of_parsed {data key : Bytes} {offset next : Nat} {deletion : Option Deletion}
    (h : parsePartitionHeaderFull oa data offset = .ok (key, next, deletion)) :
    key.length ≤ 255 := by
  rw [parsePartitionHeaderFull, bind_eq_ok] at h
  obtain ⟨layout, hlayout, h⟩ := h
  rw [scanPartitionHeader] at hlayout
  split at hlayout
  · cases hlayout
  split at hlayout
  · cases hlayout
  simp only at hlayout
  split at hlayout
  · cases hlayout
  split at hlayout
  · cases hlayout
  rw [bind_eq_ok] at hlayout
  obtain ⟨scanned, -, hlayout⟩ := hlayout
  cases hlayout
  cases h
  have hbyte := (byteAt data (offset + 1)).toNat_lt
  refine (List.length_take_le _ _).trans ?_
  simp only [Nat.add_sub_cancel_left]
  omega

/-- A header is read back exactly when the length of its key fits one byte. -/
theorem header_round_trips_iff {oa : Bool} {key : Bytes} {tombstone : Option PartitionTombstone}
    (hkey : 1 ≤ key.length ∧ key.length ≤ 65535)
    (hadmitted : ∀ ts ∈ tombstone, DeletionAdmitted oa ts) :
    HeaderRoundTrips oa key tombstone ↔ key.length ≤ 255 := by
  constructor
  · rintro ⟨bytes, -, hread, -⟩
    exact length_of_parsed (hread []).2
  · intro hlen
    exact headerRoundTrips_short hkey.1 hlen hadmitted

/-- A key of three bytes, deleted. -/
theorem header_round_trips_deleted :
    HeaderRoundTrips true [1, 2, 3] (some ⟨5, 1700000000⟩) ↔ [1, 2, 3].length ≤ 255 := by
  refine header_round_trips_iff ⟨by decide, by decide⟩ ?_
  rintro ts hts
  cases hts
  exact ⟨by decide, by decide, by decide⟩

/-- A key of 256 bytes announces none. -/
theorem header_long_key_malformed : ¬ HeaderRoundTrips false (List.replicate 256 7) none := by
  rintro ⟨bytes, hwrite, hread, -⟩
  have hready := (hread []).1
  have hbytes : bytes = beBytes 2 256 ++ List.replicate 256 7 ++ partitionDeletionBytes false none := by
    rw [writePartitionHeader, if_neg (by rw [List.length_replicate]; decide)] at hwrite
    exact (Except.ok.inj hwrite).symm.trans (by rw [List.length_replicate])
  rw [hbytes] at hready
  revert hready
  decide +kernel

end Cqlite
