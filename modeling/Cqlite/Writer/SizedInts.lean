import Cqlite.Writer.TrieNodeBytes
import Cqlite.Writer.VIntCodecs
import Mathlib.Tactic.IntervalCases

/-! Signed integers of one to eight bytes in the payloads of the tries (`bti/sized_ints.rs`, with
    the sizer and the writer of `partitions_writer.rs` and the slice reader of
    `bti/parser/partitions.rs`).

    The readers put the bytes together from machine words, so their values are bits of 64 bits. -/

namespace Cqlite.SizedInts
open VInt

/-! ### Sizes and bytes -/

def nonZeroSize (value : Int) : Nat :=
  let absValue := (if value < 0 then -value - 1 else value).toNat
  if absValue = 0 then 1
  else
    let leadingZeros := 63 - Nat.log2 absValue
    let significantBits := 64 - leadingZeros
    (significantBits + 1 + 7) / 8

/-- The last `bytes` of the eight bytes of a value. -/
def writeBeUnsigned (buf : Bytes) (value bytes : Nat) : Bytes :=
  buf ++ (beBytes 8 value).drop (8 - bytes)

def writeSizedIntBe (buf : Bytes) (value : Int) (bytes : Nat) : Bytes :=
  writeBeUnsigned buf (value % 2 ^ 64).toNat bytes

/-! ### Readers -/

/-- `from_be_bytes` of a signed word, widened. -/
def signed (w : Nat) (bytes : Bytes) : BitVec 64 := (BitVec.ofNat w (fromBe bytes)).signExtend 64

/-- `from_be_bytes` of an unsigned word, widened. -/
def unsigned (w : Nat) (bytes : Bytes) : BitVec 64 := (BitVec.ofNat w (fromBe bytes)).setWidth 64

/-- `read_exact` into a buffer of `n` bytes. -/
def readExact (reader : Bytes) (n : Nat) : BtiResult (Bytes × Bytes) :=
  if reader.length < n then .error "failed to fill whole buffer"
  else .ok (reader.take n, reader.drop n)

/-- The value of `bytes` bytes from a stream, and the stream behind them. -/
def read (reader : Bytes) (bytes : Nat) : BtiResult (Int × Bytes) :=
  match bytes with
  | 0 => .ok (0, reader)
  | 1 => do
    let (buf, reader) ← readExact reader 1
    return ((signed 8 buf).toInt, reader)
  | 2 => do
    let (buf, reader) ← readExact reader 2
    return ((signed 16 buf).toInt, reader)
  | 3 => do
    let (buf, reader) ← readExact reader 3
    let high := signed 8 [byteAt buf 0]
    let low := unsigned 16 [byteAt buf 1, byteAt buf 2]
    return ((high <<< 16 ||| low).toInt, reader)
  | 4 => do
    let (buf, reader) ← readExact reader 4
    return ((signed 32 buf).toInt, reader)
  | 5 => do
    let (buf, reader) ← readExact reader 5
    let high := signed 8 [byteAt buf 0]
    let low := unsigned 32 [byteAt buf 1, byteAt buf 2, byteAt buf 3, byteAt buf 4]
    return ((high <<< 32 ||| low).toInt, reader)
  | 6 => do
    let (buf, reader) ← readExact reader 6
    let high := signed 16 [byteAt buf 0, byteAt buf 1]
    let low := unsigned 32 [byteAt buf 2, byteAt buf 3, byteAt buf 4, byteAt buf 5]
    return ((high <<< 32 ||| low).toInt, reader)
  | 7 => do
    let (buf, reader) ← readExact reader 7
    let high1 := signed 8 [byteAt buf 0]
    let high2 := unsigned 16 [byteAt buf 1, byteAt buf 2]
    let low := unsigned 32 [byteAt buf 3, byteAt buf 4, byteAt buf 5, byteAt buf 6]
    return ((high1 <<< 48 ||| high2 <<< 32 ||| low).toInt, reader)
  | 8 => do
    let (buf, reader) ← readExact reader 8
    return ((signed 64 buf).toInt, reader)
  | n => .error ("Invalid SizedInts byte count: " ++ toString n ++ " (expected 0-8)")

/-- The value without its sign extension. -/
def readUnsigned (reader : Bytes) (bytes : Nat) : BtiResult (Nat × Bytes) :=
  if bytes = 8 then do
    let (buf, reader) ← readExact reader 8
    return (fromBe buf, reader)
  else do
    let (value, reader) ← read reader bytes
    let mask : BitVec 64 := if bytes = 0 then 0#64 else (1#64 <<< (bytes * 8)) - 1#64
    return ((BitVec.ofInt 64 value &&& mask).toNat, reader)

/-- The value of all bytes of a slice. -/
def readFromSlice (data : Bytes) : BtiResult Int :=
  match data with
  | [] => .ok 0
  | [a] => .ok (signed 8 [a]).toInt
  | [a, b] => .ok (signed 16 [a, b]).toInt
  | [a, b, c] =>
    let high := signed 8 [a]
    let low := unsigned 16 [b, c]
    .ok (high <<< 16 ||| low).toInt
  | [a, b, c, d] => .ok (signed 32 [a, b, c, d]).toInt
  | [a, b, c, d, e] =>
    let high := signed 8 [a]
    let low := unsigned 32 [b, c, d, e]
    .ok (high <<< 32 ||| low).toInt
  | [a, b, c, d, e, f] =>
    let high := signed 16 [a, b]
    let low := unsigned 32 [c, d, e, f]
    .ok (high <<< 32 ||| low).toInt
  | [a, b, c, d, e, f, g] =>
    let high1 := signed 8 [a]
    let high2 := unsigned 16 [b, c]
    let low := unsigned 32 [d, e, f, g]
    .ok (high1 <<< 48 ||| high2 <<< 32 ||| low).toInt
  | [a, b, c, d, e, f, g, h] => .ok (signed 64 [a, b, c, d, e, f, g, h]).toInt
  | _ => .error "SizedInts: invalid byte count (expected 1–8)"

/-- The slice reader on `width` bytes of a buffer, which its callers check to be there. -/
def readAt (data : Bytes) (width : Nat) : BtiResult Int :=
  if data.length < width then .error "too short" else readFromSlice (data.take width)

/-! ### Words -/

theorem toNat_ofNat_fromBe (bytes : Bytes) :
    (BitVec.ofNat (8 * bytes.length) (fromBe bytes)).toNat = fromBe bytes := by
  rw [BitVec.toNat_ofNat, pow_mul]
  exact Nat.mod_eq_of_lt (fromBe_lt bytes)

theorem toInt_ofNat_fromBe (bytes : Bytes) :
    (BitVec.ofNat (8 * bytes.length) (fromBe bytes)).toInt = intOfBytes bytes := by
  have hpow : (2 : Nat) ^ (8 * bytes.length) = 256 ^ bytes.length := pow_mul 2 8 _
  rw [BitVec.toInt, toNat_ofNat_fromBe, hpow, intOfBytes]
  norm_cast

theorem toInt_signed {bytes : Bytes} (hlen : bytes.length ≤ 8) :
    (signed (8 * bytes.length) bytes).toInt = intOfBytes bytes := by
  rw [signed, BitVec.toInt_signExtend_of_le (by omega), toInt_ofNat_fromBe]

theorem signExtend_or_setWidth {a b : Nat} (ha : 0 < a) (hfits : a + b ≤ 64) (high : BitVec a)
    (low : BitVec b) :
    high.signExtend 64 <<< b ||| low.setWidth 64 = (high ++ low).signExtend 64 := by
  apply BitVec.eq_of_getLsbD_eq
  intro i hi
  simp only [BitVec.getLsbD_or, BitVec.getLsbD_shiftLeft, BitVec.getLsbD_signExtend,
    BitVec.getLsbD_setWidth, BitVec.getLsbD_append, BitVec.msb_append, hi, decide_true,
    Bool.true_and, if_neg ha.ne']
  by_cases hlow : i < b
  · simp [hlow, show i < a + b by omega]
  · have hout : low.getLsbD i = false := BitVec.getLsbD_of_ge _ _ (by omega)
    simp only [hlow, decide_false, Bool.not_false, Bool.true_and, if_false, hout, Bool.or_false,
      show i - b < 64 by omega, decide_true]
    by_cases hmid : i < a + b
    · rw [if_pos (by omega), if_pos hmid]
    · rw [if_neg (by omega), if_neg hmid]

theorem fromBe_append (front back : Bytes) :
    fromBe (front ++ back) = fromBe front * 256 ^ back.length + fromBe back := by
  rw [fromBe, List.foldl_append, foldl_fromBe, ← fromBe]

theorem signed_append {front back : Bytes} (hfront : 0 < front.length)
    (hfits : front.length + back.length ≤ 8) :
    signed (8 * front.length) front <<< (8 * back.length) |||
        unsigned (8 * back.length) back =
      signed (8 * front.length + 8 * back.length) (front ++ back) := by
  rw [signed, unsigned, signExtend_or_setWidth (by omega) (by omega), signed]
  congr 1
  apply BitVec.eq_of_toNat_eq
  have hback : fromBe back < 2 ^ (8 * back.length) := by
    rw [pow_mul]
    exact fromBe_lt back
  have hpow : (2 : Nat) ^ (8 * back.length) = 256 ^ back.length := pow_mul 2 8 _
  have hboth : fromBe (front ++ back) < 2 ^ (8 * front.length + 8 * back.length) := by
    rw [← Nat.mul_add, ← List.length_append, pow_mul]
    exact fromBe_lt _
  rw [BitVec.toNat_append, toNat_ofNat_fromBe, toNat_ofNat_fromBe,
    ← Nat.shiftLeft_add_eq_or_of_lt hback, Nat.shiftLeft_eq, hpow, ← fromBe_append,
    BitVec.toNat_ofNat, Nat.mod_eq_of_lt hboth]

theorem toInt_signed_append {front back : Bytes} (hfront : 0 < front.length)
    (hfits : front.length + back.length ≤ 8) :
    (signed (8 * front.length) front <<< (8 * back.length) |||
      unsigned (8 * back.length) back).toInt = intOfBytes (front ++ back) := by
  rw [signed_append hfront hfits, ← Nat.mul_add, ← List.length_append,
    toInt_signed (by rw [List.length_append]; exact hfits)]

theorem toInt_seven (a b c d e f g : UInt8) :
    (signed 8 [a] <<< 48 ||| unsigned 16 [b, c] <<< 32 ||| unsigned 32 [d, e, f, g]).toInt =
      intOfBytes [a, b, c, d, e, f, g] := by
  have hsplit : signed 8 [a] <<< 48 ||| unsigned 16 [b, c] <<< 32 =
      (signed 8 [a] <<< 16 ||| unsigned 16 [b, c]) <<< 32 := by
    rw [BitVec.shiftLeft_or_distrib, ← BitVec.shiftLeft_add]
  have hupper : signed 8 [a] <<< 16 ||| unsigned 16 [b, c] = signed 24 [a, b, c] :=
    @signed_append [a] [b, c] (by simp) (by simp)
  rw [hsplit, hupper]
  exact @toInt_signed_append [a, b, c] [d, e, f, g] (by simp) (by simp)

/-! ### The readers -/

theorem readFromSlice_eq (data : Bytes) : readFromSlice data = sizedIntsReadFromSlice data := by
  rw [sizedIntsReadFromSlice]
  rcases data with _ | ⟨a, _ | ⟨b, _ | ⟨c, _ | ⟨d, _ | ⟨e, _ | ⟨f, _ | ⟨g, _ | ⟨h, _ | ⟨i, rest⟩⟩⟩⟩⟩⟩⟩⟩⟩
  · rfl
  · exact congrArg Except.ok (@toInt_signed [a] (by simp))
  · exact congrArg Except.ok (@toInt_signed [a, b] (by simp))
  · exact congrArg Except.ok (@toInt_signed_append [a] [b, c] (by simp) (by simp))
  · exact congrArg Except.ok (@toInt_signed [a, b, c, d] (by simp))
  · exact congrArg Except.ok (@toInt_signed_append [a] [b, c, d, e] (by simp) (by simp))
  · exact congrArg Except.ok (@toInt_signed_append [a, b] [c, d, e, f] (by simp) (by simp))
  · exact congrArg Except.ok (toInt_seven a b c d e f g)
  · exact congrArg Except.ok (@toInt_signed [a, b, c, d, e, f, g, h] (by simp))
  · rw [if_neg (by simp)]
    rfl

theorem readExact_append {buf : Bytes} {n : Nat} (hlen : buf.length = n) (rest : Bytes) :
    readExact (buf ++ rest) n = .ok (buf, rest) := by
  rw [readExact, if_neg (by rw [List.length_append]; omega), List.take_left' hlen,
    List.drop_left' hlen]

theorem bind_readExact {α : Type} (buf rest : Bytes) (next : Bytes × Bytes → BtiResult α) :
    (readExact (buf ++ rest) buf.length >>= next) = next (buf, rest) := by
  rw [readExact_append rfl]
  rfl

/-- The stream reader takes the bytes of the value and leaves the rest. -/
theorem read_append {buf : Bytes} (hlen : buf.length ≤ 8) (rest : Bytes) :
    read (buf ++ rest) buf.length = .ok (intOfBytes buf, rest) := by
  have hok : ∀ {n : Int} {bits : BitVec 64}, bits.toInt = n →
      (.ok (bits.toInt, rest) : BtiResult (Int × Bytes)) = .ok (n, rest) := fun h => by rw [h]
  match buf with
  | [] => rfl
  | [a] =>
    exact (bind_readExact [a] rest _).trans
      (hok (@toInt_signed [a] (by simp)))
  | [a, b] =>
    exact (bind_readExact [a, b] rest _).trans
      (hok (@toInt_signed [a, b] (by simp)))
  | [a, b, c] =>
    exact (bind_readExact [a, b, c] rest _).trans
      (hok (@toInt_signed_append [a] [b, c] (by simp) (by simp)))
  | [a, b, c, d] =>
    exact (bind_readExact [a, b, c, d] rest _).trans
      (hok (@toInt_signed [a, b, c, d] (by simp)))
  | [a, b, c, d, e] =>
    exact (bind_readExact [a, b, c, d, e] rest _).trans
      (hok (@toInt_signed_append [a] [b, c, d, e] (by simp) (by simp)))
  | [a, b, c, d, e, f] =>
    exact (bind_readExact [a, b, c, d, e, f] rest _).trans
      (hok (@toInt_signed_append [a, b] [c, d, e, f] (by simp) (by simp)))
  | [a, b, c, d, e, f, g] =>
    exact (bind_readExact [a, b, c, d, e, f, g] rest _).trans
      (hok (toInt_seven a b c d e f g))
  | [a, b, c, d, e, f, g, h] =>
    exact (bind_readExact [a, b, c, d, e, f, g, h] rest _).trans
      (hok (@toInt_signed [a, b, c, d, e, f, g, h] (by simp)))
  | a :: b :: c :: d :: e :: f :: g :: h :: i :: tail =>
    simp only [List.length_cons] at hlen
    omega

theorem readExact_short {reader : Bytes} {n : Nat} (hshort : reader.length < n) :
    readExact reader n = .error "failed to fill whole buffer" := if_pos hshort

/-- The stream reader fails on a stream that is too short and on a width above eight. -/
theorem read_fails {reader : Bytes} {n : Nat} (h : reader.length < n ∨ 8 < n) :
    ∃ e, read reader n = .error e := by
  match n with
  | 0 => omega
  | 1 | 2 | 3 | 4 | 5 | 6 | 7 | 8 =>
    refine ⟨"failed to fill whole buffer", ?_⟩
    rw [read, readExact_short (by omega)]
    rfl
  | n + 9 => exact ⟨_, rfl⟩

/-- Taking the first bytes of a long enough stream. -/
theorem read_eq {reader : Bytes} {n : Nat} (hlen : n ≤ reader.length) (hn : n ≤ 8) :
    read reader n = .ok (intOfBytes (reader.take n), reader.drop n) := by
  have htake : (reader.take n).length = n := List.length_take_of_le hlen
  have h := @read_append (reader.take n) (by omega) (reader.drop n)
  rwa [List.take_append_drop, htake] at h

/-- A two's complement stands for its unsigned value modulo a power of its width. -/
theorem intOfBytes_emod (bytes : Bytes) : intOfBytes bytes % 256 ^ bytes.length = fromBe bytes := by
  have hlt : (fromBe bytes : Int) < 256 ^ bytes.length := by exact_mod_cast fromBe_lt bytes
  rw [intOfBytes]
  split
  · exact Int.emod_eq_of_lt (Int.natCast_nonneg _) hlt
  · rw [Int.sub_emod_right, Int.emod_eq_of_lt (Int.natCast_nonneg _) hlt]

theorem readUnsigned_append {buf : Bytes} (hlen : buf.length ≤ 8) (rest : Bytes) :
    readUnsigned (buf ++ rest) buf.length = .ok (fromBe buf, rest) := by
  rw [readUnsigned]
  by_cases height : buf.length = 8
  · rw [if_pos height, readExact_append height]
    rfl
  · rw [if_neg height, read_append hlen]
    change Except.ok ((BitVec.ofInt 64 (intOfBytes buf) &&&
      if buf.length = 0 then 0#64 else (1#64 <<< (buf.length * 8)) - 1#64).toNat, rest) = _
    have hmask : (if buf.length = 0 then 0#64
        else (1#64 <<< (buf.length * 8)) - 1#64).toNat = 2 ^ (8 * buf.length) - 1 := by
      obtain ⟨n, hn⟩ : ∃ n, buf.length = n := ⟨_, rfl⟩
      rw [hn] at hlen height ⊢
      interval_cases n <;> decide
    have hvalue : (intOfBytes buf % 2 ^ 64).toNat % 2 ^ (8 * buf.length) = fromBe buf := by
      have hdvd : (2 : Int) ^ (8 * buf.length) ∣ 2 ^ 64 := pow_dvd_pow 2 (by omega)
      have hnonneg : 0 ≤ intOfBytes buf % 2 ^ 64 := Int.emod_nonneg _ (by norm_num)
      apply Int.natCast_inj.mp
      rw [Int.natCast_emod, Int.toNat_of_nonneg hnonneg, Nat.cast_pow, Nat.cast_ofNat,
        Int.emod_emod_of_dvd _ hdvd, pow_mul]
      exact intOfBytes_emod buf
    rw [BitVec.toNat_and, hmask, Nat.and_two_pow_sub_one_eq_mod, BitVec.toNat_ofInt]
    exact congrArg (fun n => Except.ok (n, rest)) hvalue

/-! ### Sizes -/

theorem nonZeroSize_eq {value : Int} (hlow : i64Min ≤ value) (hhigh : value ≤ i64Max) :
    nonZeroSize value = sizedIntsNonZeroSize value := by
  rw [i64Min] at hlow
  rw [i64Max] at hhigh
  obtain ⟨a, ha⟩ : ∃ a, a = (if value < 0 then -value - 1 else value).toNat := ⟨_, rfl⟩
  rw [nonZeroSize, sizedIntsNonZeroSize, ← ha]
  by_cases hzero : a = 0
  · rw [if_pos hzero, if_pos hzero]
  · have hlog : Nat.log2 a < 63 := (Nat.log2_lt hzero).2 (by split_ifs at ha <;> omega)
    simp only [if_neg hzero]
    omega

theorem writeSizedIntBe_eq (buf : Bytes) (value : Int) {n : Nat} (hn : n ≤ 8) :
    writeSizedIntBe buf value n = buf ++ sizedIntBe value n := by
  obtain ⟨x, hx⟩ : ∃ x, x = (value % 2 ^ 64).toNat := ⟨_, rfl⟩
  have hlow : x % 256 ^ n = (value % 256 ^ n).toNat := by
    have hdvd : (256 : Int) ^ n ∣ 2 ^ 64 := by
      rw [show (2 : Int) ^ 64 = 256 ^ 8 by norm_num]
      exact pow_dvd_pow 256 hn
    have hnonneg : 0 ≤ value % 2 ^ 64 := Int.emod_nonneg _ (by norm_num)
    have hpos : 0 ≤ value % 256 ^ n := Int.emod_nonneg _ (pow_ne_zero n (by norm_num))
    apply Int.natCast_inj.mp
    rw [hx, Int.natCast_emod, Int.toNat_of_nonneg hnonneg, Int.toNat_of_nonneg hpos, Nat.cast_pow,
      Nat.cast_ofNat, Int.emod_emod_of_dvd _ hdvd]
  have hlast : beBytes n x = beBytes n (value % 256 ^ n).toNat := by
    have h := beBytes_mul_add n (x / 256 ^ n) (x % 256 ^ n)
    rwa [Nat.div_add_mod', hlow] at h
  have hdrop := drop_beBytes (8 - n) n x
  rw [Nat.sub_add_cancel hn] at hdrop
  rw [writeSizedIntBe, writeBeUnsigned, ← hx, hdrop, hlast, sizedIntBe, intBytes]

theorem intOfBytes_range (bytes : Bytes) :
    -(256 ^ bytes.length) ≤ 2 * intOfBytes bytes ∧ 2 * intOfBytes bytes < 256 ^ bytes.length := by
  have hlt : (fromBe bytes : Int) < 256 ^ bytes.length := by exact_mod_cast fromBe_lt bytes
  rw [intOfBytes]
  split_ifs with h
  · have h' : 2 * (fromBe bytes : Int) < 256 ^ bytes.length := by exact_mod_cast h
    omega
  · have h' : 256 ^ bytes.length ≤ 2 * (fromBe bytes : Int) := by exact_mod_cast not_lt.mp h
    omega

/-- A positive width that holds a value is at least the size of the value. -/
theorem sizedIntsNonZeroSize_least {value : Int} {n : Nat} (hn : 0 < n)
    (hlow : -(256 ^ n) ≤ 2 * value) (hhigh : 2 * value < 256 ^ n) :
    sizedIntsNonZeroSize value ≤ n := by
  obtain ⟨a, ha⟩ : ∃ a, a = (if value < 0 then -value - 1 else value).toNat := ⟨_, rfl⟩
  rw [sizedIntsNonZeroSize, ← ha]
  by_cases hzero : a = 0
  · rw [if_pos hzero]
    exact hn
  · have hbits : 256 ^ n = 2 ^ (8 * n - 1) * 2 := by
      rw [← pow_succ, show 256 = 2 ^ 8 from rfl, ← pow_mul, show 8 * n - 1 + 1 = 8 * n by omega]
    have hcast : ((256 ^ n : Nat) : Int) = 256 ^ n := by norm_cast
    have hlog : Nat.log2 a < 8 * n - 1 :=
      (Nat.log2_lt hzero).2 (by split_ifs at ha <;> omega)
    rw [if_neg hzero]
    omega

/-! ### Round trips -/

theorem readers_written {value : Int} {n : Nat} (hn : n ≤ 8) (rest : Bytes) :
    readFromSlice (writeSizedIntBe [] value n) = .ok (intOfBytes (sizedIntBe value n)) ∧
      read (writeSizedIntBe [] value n ++ rest) n =
        .ok (intOfBytes (sizedIntBe value n), rest) ∧
      readUnsigned (writeSizedIntBe [] value n ++ rest) n =
        .ok (fromBe (sizedIntBe value n), rest) := by
  have hlen : (sizedIntBe value n).length = n := length_intBytes n value
  rw [writeSizedIntBe_eq [] value hn, List.nil_append]
  refine ⟨?_, ?_, ?_⟩
  · rw [readFromSlice_eq, sizedIntsReadFromSlice, if_pos (by omega)]
  · have h := read_append (hlen.trans_le hn) rest
    rwa [hlen] at h
  · have h := readUnsigned_append (hlen.trans_le hn) rest
    rwa [hlen] at h

/-- Sized integers round trip: for every value of 64 bits the two sizers agree on a width of one to
    eight bytes, the writer appends that many bytes, both signed readers take them back to the
    value, the unsigned reader to its residue, and no smaller positive width has this. For all
    bytes and widths the stream reader and the slice reader agree or both fail, and the unsigned
    reader fails with them or returns the same bits. -/
theorem sized_ints_round_trip :
    (∀ (v : Int64) (rest : Bytes), ∃ n, nonZeroSize v.toInt = n ∧ sizedIntsNonZeroSize v.toInt = n ∧
      1 ≤ n ∧ n ≤ 8 ∧ (writeSizedIntBe [] v.toInt n).length = n ∧
      readFromSlice (writeSizedIntBe [] v.toInt n) = .ok v.toInt ∧
      read (writeSizedIntBe [] v.toInt n ++ rest) n = .ok (v.toInt, rest) ∧
      readUnsigned (writeSizedIntBe [] v.toInt n ++ rest) n =
        .ok ((v.toInt % 2 ^ (8 * n)).toNat, rest) ∧
      ∀ m, 1 ≤ m → m < n → readFromSlice (writeSizedIntBe [] v.toInt m) ≠ .ok v.toInt ∧
        read (writeSizedIntBe [] v.toInt m ++ rest) m ≠ .ok (v.toInt, rest)) ∧
    ∀ (data : Bytes) (width : Nat),
      (∃ value, readAt data width = .ok value ∧ read data width = .ok (value, data.drop width) ∧
        readUnsigned data width = .ok ((value % 2 ^ (8 * width)).toNat, data.drop width)) ∨
      (∃ e, readAt data width = .error e) ∧ (∃ e, read data width = .error e) ∧
        ∃ e, readUnsigned data width = .error e := by
  have hresidue : ∀ bytes : Bytes,
      fromBe bytes = (intOfBytes bytes % 2 ^ (8 * bytes.length)).toNat := by
    intro bytes
    rw [pow_mul, show (2 : Int) ^ 8 = 256 by norm_num, intOfBytes_emod, Int.toNat_natCast]
  constructor
  · intro v rest
    have hlow : i64Min ≤ v.toInt := v.le_toInt
    have hhigh : v.toInt ≤ i64Max := by
      have := v.toInt_lt
      rw [i64Max]
      omega
    obtain ⟨hpos, hle, hmin, hmax⟩ := sizedIntsNonZeroSize_spec hlow hhigh
    obtain ⟨hslice, hstream, hunsigned⟩ := @readers_written v.toInt _ hle rest
    have hvalue : intOfBytes (sizedIntBe v.toInt (sizedIntsNonZeroSize v.toInt)) = v.toInt :=
      intOfBytes_intBytes hmin hmax
    have hlen : (sizedIntBe v.toInt (sizedIntsNonZeroSize v.toInt)).length =
        sizedIntsNonZeroSize v.toInt := length_intBytes _ _
    refine ⟨_, nonZeroSize_eq hlow hhigh, rfl, hpos, hle, ?_, ?_, ?_, ?_, ?_⟩
    · rw [writeSizedIntBe_eq [] _ hle, List.nil_append, hlen]
    · rw [hslice, hvalue]
    · rw [hstream, hvalue]
    · rw [hunsigned, hresidue, hvalue, hlen]
    · intro m hm hlt
      obtain ⟨hslice, hstream, -⟩ := @readers_written v.toInt m (by omega) rest
      -- a smaller width that holds the value would be at least the size of the value
      have hne : intOfBytes (sizedIntBe v.toInt m) ≠ v.toInt := by
        intro heq
        obtain ⟨hlow, hhigh⟩ := intOfBytes_range (sizedIntBe v.toInt m)
        rw [heq, sizedIntBe, length_intBytes] at hlow hhigh
        have := sizedIntsNonZeroSize_least hm hlow hhigh
        omega
      rw [hslice, hstream]
      exact ⟨fun h => hne (Except.ok.inj h), fun h => hne (Prod.ext_iff.mp (Except.ok.inj h)).1⟩
  · intro data width
    by_cases hfits : width ≤ data.length ∧ width ≤ 8
    · obtain ⟨hlen, hwidth⟩ := hfits
      have htake : (data.take width).length = width := List.length_take_of_le hlen
      refine .inl ⟨intOfBytes (data.take width), ?_, read_eq hlen hwidth, ?_⟩
      · rw [readAt, if_neg (by omega), readFromSlice_eq, sizedIntsReadFromSlice,
          if_pos (by omega)]
      · have h := @readUnsigned_append (data.take width) (by omega) (data.drop width)
        rwa [List.take_append_drop, htake, hresidue, htake] at h
    · obtain ⟨e, he⟩ := @read_fails data width (by omega)
      refine .inr ⟨?_, ⟨e, he⟩, ?_⟩
      · rw [readAt]
        split
        · exact ⟨_, rfl⟩
        · rw [readFromSlice_eq, sizedIntsReadFromSlice,
            if_neg (by rw [List.length_take_of_le (by omega)]; omega)]
          exact ⟨_, rfl⟩
      · rw [readUnsigned]
        split
        · rename_i height
          exact ⟨_, by rw [readExact_short (by omega)]; rfl⟩
        · exact ⟨e, by rw [he]; rfl⟩

/-- Zero takes a byte although the empty slice reads as zero, and the unsigned reader returns 255
    for the byte of -1. -/
theorem zero_fits_nothing :
    ¬ (∀ (v : Int64) (m : Nat), m < nonZeroSize v.toInt →
        readFromSlice (writeSizedIntBe [] v.toInt m) ≠ .ok v.toInt) ∧
      ¬ ∀ v : Int64, (readUnsigned (writeSizedIntBe [] v.toInt (nonZeroSize v.toInt))
        (nonZeroSize v.toInt)).map (fun p => (p.1 : Int)) = .ok v.toInt := by
  constructor
  · intro h
    exact h 0 0 (by decide) rfl
  · intro h
    exact absurd (h (-1)) (by decide)

end Cqlite.SizedInts
