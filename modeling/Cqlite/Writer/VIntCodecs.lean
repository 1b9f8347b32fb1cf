import Cqlite.Reader.RowsEntry

/-! The variable-length integers of the repository (`storage/serialization/vint.rs`,
    `parser/vint.rs`, `writer/partitions_writer.rs`, `bti/parser/rows.rs`).

    Three encoders and two decoders of unsigned integers, each written by hand, and the signed ones
    on top of them. All are the one format of the library. -/

namespace Cqlite

open VInt

/-- `leading_zeros` of a `u64`. -/
def leadingZeros (value : Nat) : Nat := if value = 0 then 64 else 63 - Nat.log2 value

/-- `((n << 1) ^ (n >> 63)) as u64`. -/
def zigzagEncode (n : Int) : Nat :=
  ((BitVec.ofInt 64 n <<< 1) ^^^ (BitVec.ofInt 64 n).sshiftRight 63).toNat

/-! ### `serialization/vint.rs` -/

namespace Serialization

/-- `(639 - magnitude * 9) >> 6`. -/
def unsignedLenValue (value : Nat) : Nat := (639 - leadingZeros (value ||| 1) * 9) >>> 6

def encodeExtraBytesToRead (extraBytes : Nat) : UInt8 :=
  if extraBytes = 0 then 0x00
  else if 8 ≤ extraBytes then 0xFF
  else UInt8.ofNat (0xFF <<< (8 - extraBytes))

def encodeUnsigned (value : Nat) : Bytes :=
  let size := unsignedLenValue value
  if size = 1 then [UInt8.ofNat value]
  else if size = 9 then 0xFF :: beBytes 8 value
  else
    let extraBytes := size - 1
    let mask := encodeExtraBytesToRead extraBytes
    let firstByteDataBits := 8 - extraBytes - 1
    let shift := extraBytes * 8
    let firstByteData := UInt8.ofNat ((value >>> shift) &&& ((1 <<< firstByteDataBits) - 1))
    (mask ||| firstByteData) ::
      (List.range extraBytes).reverse.map fun i => UInt8.ofNat ((value >>> (i * 8)) &&& 0xFF)

def encodeSigned (value : Int) : Bytes := encodeUnsigned (zigzagEncode value)

def unsignedLen (value : Nat) : Nat := unsignedLenValue value

def signedLen (value : Int) : Nat := unsignedLenValue (zigzagEncode value)

end Serialization

/-! ### `parser/vint.rs` -/

namespace ParserVInt

inductive VIntError
  | truncated
  deriving DecidableEq, Repr

/-- The nine-way ladder of `encode_vuint` and `encode_vint_zigzag`. -/
def ladder (v : Nat) : Bytes :=
  let byte0 (ones : UInt8) (shift mask : Nat) : UInt8 := ones ||| UInt8.ofNat ((v >>> shift) &&& mask)
  let byte (shift : Nat) : UInt8 := UInt8.ofNat ((v >>> shift) &&& 0xFF)
  if v ≤ 0x7F then [UInt8.ofNat v]
  else if v ≤ 0x3FFF then [byte0 0x80 8 0x3F, byte 0]
  else if v ≤ 0x1FFFFF then [byte0 0xC0 16 0x1F, byte 8, byte 0]
  else if v ≤ 0xFFFFFFF then [byte0 0xE0 24 0x0F, byte 16, byte 8, byte 0]
  else if v ≤ 0x7FFFFFFFF then
    [byte0 0xF0 32 0x07, byte 24, byte 16, byte 8, byte 0]
  else if v ≤ 0x3FFFFFFFFFF then
    [byte0 0xF8 40 0x03, byte 32, byte 24, byte 16, byte 8, byte 0]
  else if v ≤ 0x1FFFFFFFFFFFF then
    [byte0 0xFC 48 0x01, byte 40, byte 32, byte 24, byte 16, byte 8, byte 0]
  else if v ≤ 0xFFFFFFFFFFFFFF then
    [0xFE, byte 48, byte 40, byte 32, byte 24, byte 16, byte 8, byte 0]
  else [0xFF, byte 56, byte 48, byte 40, byte 32, byte 24, byte 16, byte 8, byte 0]

def encodeVuint (value : Nat) : Bytes := ladder value

def encodeVintZigzag (value : Int) : Bytes := ladder (zigzagEncode value)

def encodeVint (value : Int) : Bytes := encodeVintZigzag value

def decodeUnsigned (input : Bytes) : Except VIntError (Nat × Nat) :=
  match input with
  | [] => .error .truncated
  | first :: rest =>
    let extra := leadingOnes first
    let total := extra + 1
    if input.length < total then .error .truncated
    else if extra = 0 then .ok (first.toNat, 1)
    else
      let tail := fromBe (List.replicate (8 - extra) 0 ++ rest.take extra)
      let value :=
        if extra = 8 then tail
        else
          let mask := (1 <<< (7 - extra)) - 1
          ((first.toNat &&& mask) <<< (extra * 8)) ||| tail
      .ok (value, total)

/-- `((value >> 1) ^ ((!0u64).wrapping_mul(value & 1))) as i64`. -/
def zigzagDecode (value : Nat) : Int :=
  ((BitVec.ofNat 64 value >>> 1) ^^^
    (BitVec.allOnes 64 * (BitVec.ofNat 64 value &&& 1#64))).toInt

def decodeSigned (input : Bytes) : Except VIntError (Int × Nat) :=
  (decodeUnsigned input).map fun p => (zigzagDecode p.1, p.2)

end ParserVInt

/-! ### `partitions_writer.rs` -/

namespace PartitionsWriter

/-- The loop over the number of extra bytes. -/
def extraBytesFor (significantBits n : Nat) : Nat :=
  if n < 8 ∧ (7 - n) + 8 * n < significantBits then extraBytesFor significantBits (n + 1) else n
termination_by 8 - n

def writeUnsignedVint (value : Nat) : Bytes :=
  let extraBytes := if value = 0 then 0 else extraBytesFor (64 - leadingZeros value) 0
  if extraBytes = 0 then [UInt8.ofNat value]
  else if 8 ≤ extraBytes then 0xFF :: beBytes 8 value
  else
    let dataBitsFirst := 7 - extraBytes
    let leadingOnes := UInt8.ofNat (0xFF <<< (8 - extraBytes))
    let totalBytes := extraBytes + 1
    let tail := (beBytes 8 value).drop (8 - totalBytes)
    (leadingOnes ||| (tail.headD 0 &&& UInt8.ofNat ((1 <<< dataBitsFirst) - 1))) :: tail.tail

def writeSignedVint (value : Int) : Bytes := writeUnsignedVint (zigzagEncode value)

end PartitionsWriter

/-! ### The length -/

theorem log2_or_one (v : Nat) : Nat.log2 (v ||| 1) = Nat.log2 v := by
  have hne : v ||| 1 ≠ 0 := Nat.ne_of_gt (lt_of_lt_of_le Nat.one_pos Nat.right_le_or)
  by_cases hv : v = 0
  · rw [hv]
    rfl
  · refine le_antisymm ?_ ((Nat.le_log2 hne).2 ((Nat.log2_self_le hv).trans Nat.left_le_or))
    have hlt : v ||| 1 < 2 ^ (Nat.log2 v + 1) :=
      Nat.or_lt_two_pow Nat.lt_log2_self (Nat.one_lt_two_pow (Nat.succ_ne_zero _))
    exact Nat.le_of_lt_succ ((Nat.log2_lt hne).2 hlt)

variable {v extra u : Nat} {n : Int}

theorem unsignedLenValue_eq (hv : v < 2 ^ 64) :
    Serialization.unsignedLenValue v = unsignedLen v := by
  have hne : v ||| 1 ≠ 0 := Nat.ne_of_gt (lt_of_lt_of_le Nat.one_pos Nat.right_le_or)
  have hlog : Nat.log2 v < 64 := by
    by_cases hzero : v = 0
    · rw [hzero]
      decide
    · exact (Nat.log2_lt hzero).2 hv
  have hformula : ∀ l : Fin 64, (639 - (63 - l.1) * 9) >>> 6 = min 9 (l.1 / 7 + 1) := by decide
  rw [Serialization.unsignedLenValue, leadingZeros, if_neg hne, log2_or_one, unsignedLen]
  exact hformula ⟨_, hlog⟩

theorem unsignedLen_eq (hextra : extra ≤ 8) (hlow : extra = 0 ∨ 2 ^ (7 * extra) ≤ v)
    (hhigh : extra = 8 ∨ v < 2 ^ (7 * (extra + 1))) : unsignedLen v = extra + 1 := by
  have hle : extra ≤ Nat.log2 v / 7 := by
    rcases hlow with rfl | hlow
    · exact Nat.zero_le _
    · have hne : v ≠ 0 := Nat.ne_of_gt (lt_of_lt_of_le (Nat.two_pow_pos _) hlow)
      have := (Nat.le_log2 hne).2 hlow
      omega
  rcases hhigh with rfl | hhigh
  · rw [unsignedLen]
    omega
  · have hlt : Nat.log2 v < 7 * (extra + 1) := by
      by_cases hzero : v = 0
      · rw [hzero, Nat.log2_zero]
        omega
      · exact (Nat.log2_lt hzero).2 hhigh
    rw [unsignedLen]
    omega

/-! ### The encoders -/

/-- A byte that a shift and a mask pick. -/
theorem byte_eq (v i : Nat) :
    UInt8.ofNat ((v >>> (i * 8)) &&& 0xFF) = UInt8.ofNat (v / 256 ^ i % 256) := by
  rw [Nat.shiftRight_eq_div_pow, show 0xFF = 2 ^ 8 - 1 from rfl, Nat.and_two_pow_sub_one_eq_mod,
    Nat.mul_comm, pow_mul]
  simp only [Nat.reducePow]

theorem map_byte_eq (k v : Nat) :
    (List.range k).reverse.map (fun i => UInt8.ofNat ((v >>> (i * 8)) &&& 0xFF)) = beBytes k v := by
  induction k with
  | zero => rfl
  | succ k ih =>
    rw [List.range_succ, List.reverse_append, List.reverse_singleton, List.singleton_append,
      List.map_cons, ih, byte_eq, beBytes]

/-- The marker and the high bits do not overlap. -/
theorem lead_eq {high : Nat} (hextra : extra ≤ 8) (hhigh : high < 2 ^ (7 - extra)) :
    UInt8.ofNat (0xFF <<< (8 - extra)) ||| UInt8.ofNat high = UInt8.ofNat (extraMask extra + high) := by
  have hbytes : ∀ e : Fin 9, ∀ h : Fin 128, h.1 < 2 ^ (7 - e.1) →
      UInt8.ofNat (0xFF <<< (8 - e.1)) ||| UInt8.ofNat h.1 = UInt8.ofNat (extraMask e.1 + h.1) := by
    decide +kernel
  have hbound : high < 128 :=
    lt_of_lt_of_le hhigh (Nat.pow_le_pow_right Nat.two_pos (show 7 - extra ≤ 7 by omega))
  exact hbytes ⟨extra, by omega⟩ ⟨high, hbound⟩ hhigh

theorem encodeUnsigned_eq (hextra : extra ≤ 8) (hlen : unsignedLen v = extra + 1) :
    encodeUnsigned v = (UInt8.ofNat (0xFF <<< (8 - extra)) |||
      UInt8.ofNat ((v >>> (extra * 8)) &&& (2 ^ (7 - extra) - 1))) :: beBytes extra v := by
  rw [encodeUnsigned, hlen, Nat.add_sub_cancel, Nat.and_two_pow_sub_one_eq_mod,
    lead_eq hextra (Nat.mod_lt _ (Nat.two_pow_pos _)), Nat.shiftRight_eq_div_pow, Nat.mul_comm,
    pow_mul]
  simp only [Nat.reducePow]

theorem encodeUnsigned_zero (hlen : unsignedLen v = 0 + 1) (hhigh : v / 256 ^ 0 < 2 ^ (7 - 0)) :
    encodeUnsigned v = [UInt8.ofNat v] := by
  rw [encodeUnsigned, hlen, Nat.add_sub_cancel, Nat.mod_eq_of_lt hhigh, pow_zero, Nat.div_one]
  simp [extraMask, beBytes]

theorem serialization_encodeUnsigned_eq (hv : v < 2 ^ 64) :
    Serialization.encodeUnsigned v = encodeUnsigned v := by
  obtain ⟨extra, hextra, hlen, hhigh⟩ := unsignedLen_spec hv
  rw [Serialization.encodeUnsigned, unsignedLenValue_eq hv, hlen]
  simp only [Nat.add_sub_cancel]
  by_cases hone : extra = 0
  · subst hone
    rw [if_pos rfl, encodeUnsigned_zero hlen hhigh]
  · rw [if_neg (by omega)]
    by_cases hnine : extra = 8
    · subst hnine
      rw [if_pos rfl, encodeUnsigned_eq le_rfl hlen]
      simp
    · rw [if_neg (by omega), encodeUnsigned_eq hextra hlen, map_byte_eq,
        Serialization.encodeExtraBytesToRead, if_neg hone, if_neg (by omega), Nat.one_shiftLeft,
        show 8 - extra - 1 = 7 - extra by omega]

/-- A rung of the ladder. -/
theorem rung_eq {v extra : Nat} (hextra : extra ≤ 8) (hlow : extra = 0 ∨ 2 ^ (7 * extra) ≤ v)
    (hhigh : extra = 8 ∨ v < 2 ^ (7 * (extra + 1))) :
    encodeUnsigned v = (UInt8.ofNat (0xFF <<< (8 - extra)) |||
      UInt8.ofNat ((v >>> (extra * 8)) &&& (2 ^ (7 - extra) - 1))) ::
        (List.range extra).reverse.map fun i => UInt8.ofNat ((v >>> (i * 8)) &&& 0xFF) := by
  rw [encodeUnsigned_eq hextra (unsignedLen_eq hextra hlow hhigh), map_byte_eq]

/-- The ladder of the parser is the codec. -/
theorem ladder_eq (hv : v < 2 ^ 64) : ParserVInt.ladder v = encodeUnsigned v := by
  unfold ParserVInt.ladder
  simp only
  split
  · rename_i hle
    rw [encodeUnsigned_zero (unsignedLen_eq (by decide) (.inl rfl) (.inr (by omega))) (by omega)]
  split
  · rw [@rung_eq v 1 (by decide) (.inr (by omega)) (.inr (by omega))]
    rfl
  split
  · rw [@rung_eq v 2 (by decide) (.inr (by omega)) (.inr (by omega))]
    rfl
  split
  · rw [@rung_eq v 3 (by decide) (.inr (by omega)) (.inr (by omega))]
    rfl
  split
  · rw [@rung_eq v 4 (by decide) (.inr (by omega)) (.inr (by omega))]
    rfl
  split
  · rw [@rung_eq v 5 (by decide) (.inr (by omega)) (.inr (by omega))]
    rfl
  split
  · rw [@rung_eq v 6 (by decide) (.inr (by omega)) (.inr (by omega))]
    rfl
  split
  · rw [@rung_eq v 7 (by decide) (.inr (by omega)) (.inr (by omega))]
    simp [List.range_succ]
  · rw [@rung_eq v 8 (by decide) (.inr (by omega)) (.inl rfl)]
    simp [List.range_succ]

theorem extraBytesFor_eq (significantBits n : Nat) (hn : n ≤ 8) :
    PartitionsWriter.extraBytesFor significantBits n = max n (min 8 ((significantBits - 1) / 7)) := by
  fun_induction PartitionsWriter.extraBytesFor significantBits n with
  | case1 n h ih =>
    rw [ih (by omega)]
    omega
  | case2 n h => omega

theorem drop_beBytes (a b v : Nat) : (beBytes (a + b) v).drop a = beBytes b v := by
  induction a with
  | zero => rw [Nat.zero_add, List.drop_zero]
  | succ a ih => rw [Nat.succ_add, beBytes, List.drop_succ_cons, ih]

theorem and_mask_eq (hextra : extra ≤ 8) (high : Nat) :
    UInt8.ofNat (high % 256) &&& UInt8.ofNat (2 ^ (7 - extra) - 1) =
      UInt8.ofNat (high % 2 ^ (7 - extra)) := by
  have hmask : 2 ^ (7 - extra) - 1 < 256 := by
    have := Nat.pow_le_pow_right Nat.two_pos (show 7 - extra ≤ 7 by omega)
    omega
  have hdvd : 2 ^ (7 - extra) ∣ 256 := pow_dvd_pow 2 (show 7 - extra ≤ 8 by omega)
  apply UInt8.toNat_inj.1
  rw [UInt8.toNat_and, UInt8.toNat_ofNat', UInt8.toNat_ofNat', UInt8.toNat_ofNat', Nat.mod_mod,
    Nat.mod_eq_of_lt hmask, Nat.and_two_pow_sub_one_eq_mod, Nat.mod_mod_of_dvd _ hdvd]
  exact (Nat.mod_eq_of_lt ((Nat.mod_lt _ (Nat.two_pow_pos _)).trans_le (by omega))).symm

/-- The encoder of Partitions.db is the codec. -/
theorem writeUnsignedVint_eq (hv : v < 2 ^ 64) :
    PartitionsWriter.writeUnsignedVint v = encodeUnsigned v := by
  obtain ⟨extra, hextra, hlen, hhigh⟩ := unsignedLen_spec hv
  have hloop : (if v = 0 then 0 else PartitionsWriter.extraBytesFor (64 - leadingZeros v) 0) = extra := by
    split
    · rename_i hzero
      rw [hzero, unsignedLen, Nat.log2_zero] at hlen
      omega
    · rename_i hzero
      have hlog : Nat.log2 v < 64 := (Nat.log2_lt hzero).2 hv
      rw [extraBytesFor_eq _ _ (Nat.zero_le _), leadingZeros, if_neg hzero]
      rw [unsignedLen] at hlen
      omega
  rw [PartitionsWriter.writeUnsignedVint, hloop]
  simp only
  by_cases hzero : extra = 0
  · subst hzero
    rw [if_pos rfl, encodeUnsigned_zero hlen hhigh]
  · rw [if_neg hzero, encodeUnsigned_eq hextra hlen]
    by_cases hnine : extra = 8
    · subst hnine
      simp
    · have htail : (beBytes 8 v).drop (8 - (extra + 1)) = beBytes (extra + 1) v := by
        have := drop_beBytes (8 - (extra + 1)) (extra + 1) v
        rwa [show 8 - (extra + 1) + (extra + 1) = 8 by omega] at this
      rw [if_neg (by omega), htail, beBytes, List.headD_cons, List.tail_cons, Nat.one_shiftLeft,
        and_mask_eq hextra, Nat.and_two_pow_sub_one_eq_mod, Nat.shiftRight_eq_div_pow, Nat.mul_comm,
        pow_mul]
      simp only [Nat.reducePow]

/-! ### The decoders -/

/-- The number in front and how many bytes it takes. -/
def decodeWithLength (bytes : Bytes) : Option (Nat × Nat) :=
  (decodeUnsigned bytes).map fun p => (p.1, bytes.length - p.2.length)

theorem decodeWithLength_cons (first : UInt8) (rest : Bytes) :
    decodeWithLength (first :: rest) =
      if rest.length < leadingOnes first then none
      else some (first.toNat % 2 ^ (7 - leadingOnes first) * 256 ^ leadingOnes first +
        fromBe (rest.take (leadingOnes first)), leadingOnes first + 1) := by
  rw [decodeWithLength, decodeUnsigned]
  split
  · rfl
  · simp only [Option.map_some, List.length_cons, List.length_drop]
    congr 2
    omega

theorem leadingOnes_le (b : UInt8) : leadingOnes b ≤ 8 := by
  unfold leadingOnes
  split_ifs <;> omega

/-- Without leading ones a byte is its own number, and with eight it holds none. -/
theorem leadingOnes_zero {b : UInt8} (h : leadingOnes b = 0) : b.toNat % 2 ^ 7 = b.toNat := by
  have hlt : b.toNat < 128 := by
    unfold leadingOnes at h
    split_ifs at h
    omega
  exact Nat.mod_eq_of_lt hlt

theorem fromBe_replicate_append (k : Nat) (bytes : Bytes) :
    fromBe (List.replicate k 0 ++ bytes) = fromBe bytes := by
  induction k with
  | zero => rfl
  | succ k ih =>
    rw [List.replicate_succ, List.cons_append, fromBe_cons, ih]
    simp

/-- The decoder of the parser is the codec. -/
theorem parser_decodeUnsigned_eq (input : Bytes) :
    (ParserVInt.decodeUnsigned input).toOption = decodeWithLength input := by
  cases input with
  | nil => rfl
  | cons first rest =>
    have hextra := leadingOnes_le first
    rw [decodeWithLength_cons, ParserVInt.decodeUnsigned]
    simp only [List.length_cons, Nat.add_lt_add_iff_right]
    by_cases hlen : rest.length < leadingOnes first
    · rw [if_pos hlen, if_pos hlen]
      rfl
    rw [if_neg hlen, if_neg hlen]
    have htake : (rest.take (leadingOnes first)).length = leadingOnes first := by
      rw [List.length_take]
      omega
    by_cases hzero : leadingOnes first = 0
    · rw [if_pos hzero, hzero, Nat.sub_zero, leadingOnes_zero hzero, pow_zero, Nat.mul_one]
      rfl
    · rw [if_neg hzero, fromBe_replicate_append]
      simp only [Except.toOption]
      by_cases height : leadingOnes first = 8
      · rw [if_pos height, height]
        simp [Nat.mod_one]
      · have hlt := fromBe_lt (rest.take (leadingOnes first))
        rw [htake] at hlt
        have hshift : 256 ^ leadingOnes first = 2 ^ (leadingOnes first * 8) := by
          rw [Nat.mul_comm, pow_mul]
          simp only [Nat.reducePow]
        rw [hshift] at hlt ⊢
        rw [if_neg height, Nat.one_shiftLeft, Nat.and_two_pow_sub_one_eq_mod,
          ← Nat.shiftLeft_add_eq_or_of_lt hlt, Nat.shiftLeft_eq]

theorem foldl_shift_eq (bytes : Bytes) (start : Nat) (h : (start + 1) * 256 ^ bytes.length ≤ 2 ^ 64) :
    bytes.foldl (fun value b => (value <<< 8) % 2 ^ 64 ||| b.toNat) start =
      start * 256 ^ bytes.length + fromBe bytes := by
  induction bytes generalizing start with
  | nil => simp [fromBe]
  | cons b bytes ih =>
    have hb : b.toNat < 2 ^ 8 := b.toNat_lt
    have hpow : 0 < 256 ^ bytes.length := Nat.pow_pos (by decide)
    rw [List.length_cons, pow_succ] at h
    have hfit : (start + 1) * 256 ≤ 2 ^ 64 := by
      refine le_trans ?_ h
      rw [← Nat.mul_assoc, Nat.mul_right_comm]
      exact Nat.le_mul_of_pos_right _ hpow
    have hnext : (start <<< 8) % 2 ^ 64 ||| b.toNat = start * 256 + b.toNat := by
      rw [Nat.shiftLeft_eq, Nat.mod_eq_of_lt (by omega), ← Nat.shiftLeft_eq,
        ← Nat.shiftLeft_add_eq_or_of_lt hb, Nat.shiftLeft_eq]
    have hbound : (start * 256 + b.toNat + 1) * 256 ^ bytes.length ≤ 2 ^ 64 := by
      refine le_trans (Nat.mul_le_mul_right _ (show _ ≤ (start + 1) * 256 by omega)) ?_
      rw [Nat.mul_assoc, Nat.mul_comm 256]
      exact h
    rw [List.foldl_cons, hnext, ih _ hbound, fromBe_cons, List.length_cons, pow_succ]
    ring

/-- The bits of the first byte leave room for the bytes it announces. -/
theorem start_fits (first : UInt8) :
    (first.toNat % 2 ^ (7 - leadingOnes first) + 1) * 256 ^ leadingOnes first ≤ 2 ^ 64 := by
  have hextra := leadingOnes_le first
  calc (first.toNat % 2 ^ (7 - leadingOnes first) + 1) * 256 ^ leadingOnes first
      ≤ 2 ^ (7 - leadingOnes first) * 256 ^ leadingOnes first :=
        Nat.mul_le_mul_right _ (Nat.mod_lt _ (Nat.two_pow_pos _))
    _ = 2 ^ (7 - leadingOnes first + 8 * leadingOnes first) := by
        rw [show 256 = 2 ^ 8 from rfl, ← pow_mul, ← pow_add]
    _ ≤ 2 ^ 64 := Nat.pow_le_pow_right Nat.two_pos (by omega)

/-- The reader of Rows.db is the codec. -/
theorem readUnsignedVintFromSlice_eq (data : Bytes) :
    (BtiRows.readUnsignedVintFromSlice data).toOption = decodeWithLength data := by
  cases data with
  | nil => rfl
  | cons first rest =>
    have hextra := leadingOnes_le first
    rw [decodeWithLength_cons, BtiRows.readUnsignedVintFromSlice]
    simp only [List.length_cons, Nat.add_lt_add_iff_right]
    by_cases hlen : rest.length < leadingOnes first
    · rw [if_pos hlen, if_pos hlen]
      rfl
    rw [if_neg hlen, if_neg hlen]
    have htake : (rest.take (leadingOnes first)).length = leadingOnes first := by
      rw [List.length_take]
      omega
    have hstart : (if 8 ≤ leadingOnes first then 0
        else first.toNat &&& (if 8 - leadingOnes first - 1 = 0 then 0
          else (1 <<< (8 - leadingOnes first - 1)) - 1)) =
        first.toNat % 2 ^ (7 - leadingOnes first) := by
      split
      · rw [show 7 - leadingOnes first = 0 by omega, pow_zero, Nat.mod_one]
      · split
        · rw [show 7 - leadingOnes first = 0 by omega, pow_zero, Nat.mod_one, Nat.and_zero]
        · rw [Nat.one_shiftLeft, Nat.and_two_pow_sub_one_eq_mod,
            show 8 - leadingOnes first - 1 = 7 - leadingOnes first by omega]
    have hfit : (first.toNat % 2 ^ (7 - leadingOnes first) + 1) *
        256 ^ (rest.take (leadingOnes first)).length ≤ 2 ^ 64 := by
      rw [htake]
      exact start_fits first
    rw [hstart, foldl_shift_eq _ _ hfit, htake]
    rfl

/-! ### Signed integers -/

theorem sshiftRight_ofInt (hlow : -(2 ^ 63) ≤ n) (hhigh : n < 2 ^ 63) :
    (BitVec.ofInt 64 n).sshiftRight 63 = if n < 0 then BitVec.allOnes 64 else 0#64 := by
  apply BitVec.eq_of_toInt_eq
  have hbmod : n.bmod (2 ^ 64) = n := Int.bmod_eq_of_le (by omega) (by omega)
  rw [BitVec.toInt_sshiftRight, BitVec.toInt_ofInt, hbmod, Int.shiftRight_eq_div_pow]
  split
  · rw [show (BitVec.allOnes 64).toInt = -1 by decide]
    omega
  · rw [show (0#64).toInt = 0 by decide]
    omega

theorem zigzagEncode_eq (hlow : -(2 ^ 63) ≤ n) (hhigh : n < 2 ^ 63) :
    zigzagEncode n = zigzag n := by
  rw [zigzagEncode, sshiftRight_ofInt hlow hhigh, zigzag]
  split
  · rw [BitVec.xor_allOnes, BitVec.toNat_not, BitVec.toNat_shiftLeft, BitVec.toNat_ofInt,
      Nat.shiftLeft_eq]
    omega
  · rw [BitVec.xor_zero, BitVec.toNat_shiftLeft, BitVec.toNat_ofInt, Nat.shiftLeft_eq]
    omega

/-- Either decoder flips the bits of the half when the low bit is set. -/
theorem xor_mask_toInt (hu : u < 2 ^ 64) :
    ((BitVec.ofNat 64 u >>> 1) ^^^ (if u % 2 = 0 then 0#64 else BitVec.allOnes 64)).toInt =
      unzigzag u := by
  have hhalf : (BitVec.ofNat 64 u >>> 1).toNat = u / 2 := by
    rw [BitVec.toNat_ushiftRight, BitVec.toNat_ofNat, Nat.mod_eq_of_lt hu, Nat.shiftRight_one]
  rw [unzigzag]
  split
  · rw [BitVec.xor_zero, BitVec.toInt_eq_toNat_bmod, hhalf]
    exact Int.bmod_eq_of_le (by omega) (by omega)
  · have hwrap : ((2 : Int) ^ 64 - 1 - (u / 2 : Nat)) = -(u / 2 : Nat) - 1 + (2 ^ 64 : Nat) := by omega
    rw [BitVec.xor_allOnes, BitVec.toInt_not, hhalf, hwrap, Int.add_bmod_right]
    exact Int.bmod_eq_of_le (by omega) (by omega)

theorem low_bit (u : Nat) :
    BitVec.ofNat 64 u &&& 1#64 = if u % 2 = 0 then 0#64 else 1#64 := by
  apply BitVec.eq_of_toNat_eq
  rw [BitVec.toNat_and, BitVec.toNat_ofNat, show (1#64).toNat = 1 from rfl, Nat.and_one_is_mod]
  split
  · rw [show (0#64).toNat = 0 from rfl]
    omega
  · rw [show (1#64).toNat = 1 from rfl]
    omega

theorem parser_zigzagDecode_eq (hu : u < 2 ^ 64) : ParserVInt.zigzagDecode u = unzigzag u := by
  rw [← xor_mask_toInt hu, ParserVInt.zigzagDecode, low_bit]
  split
  · rw [BitVec.mul_zero]
  · rw [BitVec.mul_one]

theorem rows_zigzagDecode_eq (hu : u < 2 ^ 64) : BtiRows.zigzagDecode u = unzigzag u := by
  rw [← xor_mask_toInt hu, BtiRows.zigzagDecode, low_bit]
  split
  · rw [BitVec.neg_zero]
  · rw [BitVec.neg_one_eq_allOnes]

theorem decodeWithLength_lt {bytes : Bytes} {value len : Nat}
    (h : decodeWithLength bytes = some (value, len)) : value < 2 ^ 64 := by
  cases bytes with
  | nil => cases h
  | cons first rest =>
    have hextra := leadingOnes_le first
    rw [decodeWithLength_cons] at h
    split at h
    · cases h
    obtain ⟨rfl, -⟩ := Prod.ext_iff.mp (Option.some.inj h)
    have hlow := fromBe_lt (rest.take (leadingOnes first))
    rw [List.length_take, Nat.min_eq_left (by omega)] at hlow
    calc first.toNat % 2 ^ (7 - leadingOnes first) * 256 ^ leadingOnes first +
          fromBe (rest.take (leadingOnes first))
        < (first.toNat % 2 ^ (7 - leadingOnes first) + 1) * 256 ^ leadingOnes first := by
          rw [Nat.add_mul, Nat.one_mul]
          omega
      _ ≤ 2 ^ 64 := start_fits first

/-! ### The codecs agree and invert -/

theorem decodeWithLength_cut (hv : v < 2 ^ 64) {front rest : Bytes} (hrest : rest ≠ [])
    (h : encodeUnsigned v = front ++ rest) : decodeWithLength front = none := by
  cases hdecode : decodeUnsigned front with
  | none => rw [decodeWithLength, hdecode, Option.map_none]
  | some p =>
    have hlong := @decodeUnsigned_append front p.2 p.1 hdecode rest
    have hshort := decodeUnsigned_encodeUnsigned hv []
    rw [List.append_nil, h, hlong] at hshort
    have hempty := (Prod.ext_iff.mp (Option.some.inj hshort)).2
    exact absurd (List.append_eq_nil_iff.1 hempty).2 hrest

theorem decodeWithLength_encodeUnsigned (hv : v < 2 ^ 64) (rest : Bytes) :
    decodeWithLength (encodeUnsigned v ++ rest) = some (v, unsignedLen v) := by
  rw [decodeWithLength, decodeUnsigned_encodeUnsigned hv, Option.map_some, List.length_append,
    Nat.add_sub_cancel, length_encodeUnsigned]

/-- An option of a result says which error it is when there is only one. -/
theorem parser_decodeUnsigned_error {input : Bytes} (h : decodeWithLength input = none) :
    ParserVInt.decodeUnsigned input = .error .truncated := by
  rw [← parser_decodeUnsigned_eq] at h
  cases hdecode : ParserVInt.decodeUnsigned input with
  | error e => cases e; rfl
  | ok p =>
    rw [hdecode] at h
    cases h

theorem eq_ok_of_toOption {ε α : Type} {r : Except ε α} {a : α} (h : r.toOption = some a) :
    r = .ok a := by
  cases r with
  | error e => cases h
  | ok b => exact congrArg _ (Option.some.inj h)

/-- What the reader says of a string that ends early. -/
def truncatedMessage (needed : Nat) (data : Bytes) : String :=
  if data = [] then "Rows.db payload: unexpected end of data reading unsigned vint"
  else "Rows.db payload: unsigned vint needs " ++ toString needed ++ " bytes, have " ++
    toString data.length

theorem readUnsignedVintFromSlice_cut (hv : v < 2 ^ 64) {front rest : Bytes} (hrest : rest ≠ [])
    (h : encodeUnsigned v = front ++ rest) :
    BtiRows.readUnsignedVintFromSlice front = .error (truncatedMessage (unsignedLen v) front) := by
  cases front with
  | nil => rfl
  | cons first tail =>
    obtain ⟨extra, hextra, hlen, hhigh⟩ := unsignedLen_spec hv
    have hcut := decodeWithLength_cut hv hrest h
    rw [encodeUnsigned, hlen, Nat.add_sub_cancel, Nat.mod_eq_of_lt hhigh, List.cons_append] at h
    have hones : leadingOnes first = extra := by
      rw [← (List.cons.inj h).1]
      exact (first_byte hextra hhigh).1
    rw [decodeWithLength_cons] at hcut
    split at hcut
    · rename_i hshort
      rw [BtiRows.readUnsignedVintFromSlice, if_pos (by rw [List.length_cons]; omega), hones,
        truncatedMessage, if_neg (List.cons_ne_nil _ _), hlen]
    · cases hcut

/-- The unsigned codecs on one number. -/
structure UnsignedCodecs (v : Nat) : Prop where
  encodeVuint : ParserVInt.encodeVuint v = Serialization.encodeUnsigned v
  writeUnsignedVint : PartitionsWriter.writeUnsignedVint v = Serialization.encodeUnsigned v
  length : (Serialization.encodeUnsigned v).length = Serialization.unsignedLen v
  decodeUnsigned : ∀ suffix, ParserVInt.decodeUnsigned (Serialization.encodeUnsigned v ++ suffix) =
    .ok (v, Serialization.unsignedLen v)
  readUnsignedVintFromSlice : ∀ suffix,
    BtiRows.readUnsignedVintFromSlice (Serialization.encodeUnsigned v ++ suffix) =
      .ok (v, Serialization.unsignedLen v)
  truncated : ∀ front rest, Serialization.encodeUnsigned v = front ++ rest → rest ≠ [] →
    ParserVInt.decodeUnsigned front = .error .truncated ∧
      BtiRows.readUnsignedVintFromSlice front =
        .error (truncatedMessage (Serialization.unsignedLen v) front)

/-- The signed codecs on one number. -/
structure SignedCodecs (n : Int) : Prop where
  encodeVint : ParserVInt.encodeVint n = Serialization.encodeSigned n
  writeSignedVint : PartitionsWriter.writeSignedVint n = Serialization.encodeSigned n
  length : (Serialization.encodeSigned n).length = Serialization.signedLen n
  decodeSigned : ∀ suffix, ParserVInt.decodeSigned (Serialization.encodeSigned n ++ suffix) =
    .ok (n, Serialization.signedLen n)
  readSignedVintFromSlice : ∀ suffix,
    BtiRows.readSignedVintFromSlice (Serialization.encodeSigned n ++ suffix) =
      .ok (n, Serialization.signedLen n)
  truncated : ∀ front rest, Serialization.encodeSigned n = front ++ rest → rest ≠ [] →
    ParserVInt.decodeSigned front = .error .truncated ∧
      BtiRows.readSignedVintFromSlice front =
        .error (truncatedMessage (Serialization.signedLen n) front)

theorem unsignedCodecs (hv : v < 2 ^ 64) : UnsignedCodecs v where
  encodeVuint := by rw [serialization_encodeUnsigned_eq hv, ParserVInt.encodeVuint, ladder_eq hv]
  writeUnsignedVint := by rw [serialization_encodeUnsigned_eq hv, writeUnsignedVint_eq hv]
  length := by
    rw [serialization_encodeUnsigned_eq hv, length_encodeUnsigned, Serialization.unsignedLen,
      unsignedLenValue_eq hv]
  decodeUnsigned suffix := by
    apply eq_ok_of_toOption
    rw [parser_decodeUnsigned_eq, serialization_encodeUnsigned_eq hv,
      decodeWithLength_encodeUnsigned hv, Serialization.unsignedLen, unsignedLenValue_eq hv]
  readUnsignedVintFromSlice suffix := by
    apply eq_ok_of_toOption
    rw [readUnsignedVintFromSlice_eq, serialization_encodeUnsigned_eq hv,
      decodeWithLength_encodeUnsigned hv, Serialization.unsignedLen, unsignedLenValue_eq hv]
  truncated front rest h hrest := by
    rw [serialization_encodeUnsigned_eq hv] at h
    refine ⟨parser_decodeUnsigned_error (decodeWithLength_cut hv hrest h), ?_⟩
    rw [readUnsignedVintFromSlice_cut hv hrest h, Serialization.unsignedLen, unsignedLenValue_eq hv]

theorem signedCodecs (hlow : -(2 ^ 63) ≤ n) (hhigh : n < 2 ^ 63) : SignedCodecs n := by
  have hzigzag := zigzagEncode_eq hlow hhigh
  have hv : zigzagEncode n < 2 ^ 64 := by
    rw [hzigzag]
    exact zigzag_lt hlow hhigh
  have hunsigned := unsignedCodecs hv
  refine ⟨hunsigned.encodeVuint, hunsigned.writeUnsignedVint, hunsigned.length, ?_, ?_, ?_⟩
  · intro suffix
    rw [ParserVInt.decodeSigned, Serialization.encodeSigned, hunsigned.decodeUnsigned]
    have hback : ParserVInt.zigzagDecode (zigzagEncode n) = n := by
      rw [parser_zigzagDecode_eq hv, hzigzag, unzigzag_zigzag]
    simp only [Except.map, hback]
    rfl
  · intro suffix
    rw [BtiRows.readSignedVintFromSlice, Serialization.encodeSigned,
      hunsigned.readUnsignedVintFromSlice]
    have hback : BtiRows.zigzagDecode (zigzagEncode n) = n := by
      rw [rows_zigzagDecode_eq hv, hzigzag, unzigzag_zigzag]
    simp only [Except.map, hback]
    rfl
  · intro front rest h hrest
    obtain ⟨hparser, hreader⟩ := hunsigned.truncated front rest h hrest
    rw [ParserVInt.decodeSigned, BtiRows.readSignedVintFromSlice, hparser, hreader]
    exact ⟨rfl, rfl⟩

theorem decodeUnsigned_agree (bytes : Bytes) :
    (ParserVInt.decodeUnsigned bytes).toOption =
      (BtiRows.readUnsignedVintFromSlice bytes).toOption := by
  rw [parser_decodeUnsigned_eq, readUnsignedVintFromSlice_eq]

theorem toOption_map {ε α β : Type} (f : α → β) (r : Except ε α) :
    (r.map f).toOption = r.toOption.map f := by
  cases r <;> rfl

theorem decodeSigned_agree (bytes : Bytes) :
    (ParserVInt.decodeSigned bytes).toOption = (BtiRows.readSignedVintFromSlice bytes).toOption := by
  rw [ParserVInt.decodeSigned, BtiRows.readSignedVintFromSlice, toOption_map, toOption_map,
    parser_decodeUnsigned_eq, readUnsignedVintFromSlice_eq]
  apply Option.map_congr
  rintro ⟨value, len⟩ hread
  have hlt := decodeWithLength_lt hread
  rw [parser_zigzagDecode_eq hlt, rows_zigzagDecode_eq hlt]

/-- The hand-written codecs of variable-length integers write the same bytes and read them back. -/
theorem vint_codecs_agree :
    (∀ v : UInt64, UnsignedCodecs v.toNat) ∧ (∀ n : Int64, SignedCodecs n.toInt) ∧
    ∀ bytes : Bytes,
      (ParserVInt.decodeUnsigned bytes).toOption =
        (BtiRows.readUnsignedVintFromSlice bytes).toOption ∧
      (ParserVInt.decodeSigned bytes).toOption =
        (BtiRows.readSignedVintFromSlice bytes).toOption := by
  refine ⟨fun v => unsignedCodecs v.toNat_lt, fun n => signedCodecs n.le_toInt n.toInt_lt, ?_⟩
  intro bytes
  exact ⟨decodeUnsigned_agree bytes, decodeSigned_agree bytes⟩

end Cqlite
