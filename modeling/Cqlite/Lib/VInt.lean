import Mathlib.Algebra.Order.Ring.Int
import Mathlib.Data.List.Basic
import Mathlib.Tactic.Ring

/-! Unsigned integers of variable length.

    The number of leading one bits of the first byte is the number of bytes that follow. The rest of
    the first byte holds the high bits, the following bytes the low ones, most significant first. -/

namespace VInt

/-! ### Big-endian bytes -/

/-- The `k` low bytes of a number, most significant first. -/
def beBytes : Nat → Nat → List UInt8
  | 0, _ => []
  | k + 1, n => UInt8.ofNat (n / 256 ^ k % 256) :: beBytes k n

/-- The number with the given bytes, most significant first. -/
def fromBe (bytes : List UInt8) : Nat := bytes.foldl (fun acc b => acc * 256 + b.toNat) 0

@[simp] theorem length_beBytes (k n : Nat) : (beBytes k n).length = k := by
  induction k with
  | zero => rfl
  | succ k ih => simp [beBytes, ih]

theorem foldl_fromBe (bytes : List UInt8) (acc : Nat) :
    bytes.foldl (fun acc b => acc * 256 + b.toNat) acc = acc * 256 ^ bytes.length + fromBe bytes := by
  induction bytes generalizing acc with
  | nil => simp [fromBe]
  | cons b bytes ih =>
    rw [fromBe, List.foldl_cons, List.foldl_cons, ih, ih (0 * 256 + b.toNat), List.length_cons,
      pow_succ]
    ring

theorem fromBe_cons (b : UInt8) (bytes : List UInt8) :
    fromBe (b :: bytes) = b.toNat * 256 ^ bytes.length + fromBe bytes := by
  rw [fromBe, List.foldl_cons, foldl_fromBe]
  simp

theorem fromBe_beBytes (k n : Nat) : fromBe (beBytes k n) = n % 256 ^ k := by
  induction k with
  | zero => simp [beBytes, fromBe, Nat.mod_one]
  | succ k ih =>
    have hbyte : n / 256 ^ k % 256 < 2 ^ 8 := Nat.mod_lt _ (by decide)
    rw [beBytes, fromBe_cons, ih, length_beBytes, UInt8.toNat_ofNat', Nat.mod_eq_of_lt hbyte,
      Nat.pow_succ, Nat.mod_mul]
    ring

theorem fromBe_lt (bytes : List UInt8) : fromBe bytes < 256 ^ bytes.length := by
  induction bytes with
  | nil => decide
  | cons b bytes ih =>
    rw [fromBe_cons, List.length_cons, pow_succ, Nat.mul_comm (256 ^ _)]
    calc b.toNat * 256 ^ bytes.length + fromBe bytes
        < b.toNat * 256 ^ bytes.length + 256 ^ bytes.length := by omega
      _ = (b.toNat + 1) * 256 ^ bytes.length := by rw [Nat.add_mul, Nat.one_mul]
      _ ≤ 256 * 256 ^ bytes.length := Nat.mul_le_mul_right _ b.toNat_lt

theorem beBytes_mul_add (k m n : Nat) : beBytes k (m * 256 ^ k + n) = beBytes k n := by
  induction k generalizing m n with
  | zero => rfl
  | succ k ih =>
    have hshift : m * 256 ^ (k + 1) + n = m * 256 * 256 ^ k + n := by
      rw [pow_succ, Nat.mul_assoc, Nat.mul_comm 256]
    have hdiv : (m * 256 * 256 ^ k + n) / 256 ^ k % 256 = n / 256 ^ k % 256 := by
      rw [Nat.add_comm, Nat.add_mul_div_right _ _ (Nat.pow_pos (by decide)),
        Nat.add_mul_mod_self_right]
    rw [hshift, beBytes, hdiv, ih, beBytes]

theorem beBytes_fromBe (bytes : List UInt8) : beBytes bytes.length (fromBe bytes) = bytes := by
  induction bytes with
  | nil => rfl
  | cons b bytes ih =>
    have hlt := fromBe_lt bytes
    have hb : b.toNat < 256 := b.toNat_lt
    rw [List.length_cons, fromBe_cons, beBytes, beBytes_mul_add, ih, Nat.add_comm,
      Nat.add_mul_div_right _ _ (Nat.pow_pos (by decide)), Nat.div_eq_of_lt hlt, Nat.zero_add,
      Nat.mod_eq_of_lt hb, UInt8.ofNat_toNat]

/-- The first `k` bytes and the rest, when there are that many. -/
def splitFront (k : Nat) (bytes : List UInt8) : Option (List UInt8 × List UInt8) :=
  if bytes.length < k then none else some (bytes.take k, bytes.drop k)

@[simp] theorem splitFront_append {k : Nat} {front : List UInt8} (hlen : front.length = k)
    (rest : List UInt8) : splitFront k (front ++ rest) = some (front, rest) := by
  rw [splitFront, if_neg (by rw [List.length_append]; omega), List.take_left' hlen,
    List.drop_left' hlen]

/-! ### Encoding and decoding -/

/-- The number of bytes of an encoding: seven bits per byte, and nine bytes at most. -/
def unsignedLen (n : Nat) : Nat := min 9 (Nat.log2 n / 7 + 1)

/-- A first byte that announces `extra` bytes: that many leading ones. -/
def extraMask (extra : Nat) : Nat := 256 - 2 ^ (8 - extra)

def encodeUnsigned (n : Nat) : List UInt8 :=
  let extra := unsignedLen n - 1
  UInt8.ofNat (extraMask extra + n / 256 ^ extra % 2 ^ (7 - extra)) :: beBytes extra n

/-- `leading_ones`. -/
def leadingOnes (b : UInt8) : Nat :=
  if b.toNat < 0x80 then 0 else if b.toNat < 0xC0 then 1 else if b.toNat < 0xE0 then 2
  else if b.toNat < 0xF0 then 3 else if b.toNat < 0xF8 then 4 else if b.toNat < 0xFC then 5
  else if b.toNat < 0xFE then 6 else if b.toNat < 0xFF then 7 else 8

/-- The number in front and the bytes behind it, `none` on truncated input. -/
def decodeUnsigned : List UInt8 → Option (Nat × List UInt8)
  | [] => none
  | first :: rest =>
    let extra := leadingOnes first
    if rest.length < extra then none
    else some (first.toNat % 2 ^ (7 - extra) * 256 ^ extra + fromBe (rest.take extra), rest.drop extra)

/-! ### Round trip -/

/-- The length is the least that has room for the number. -/
theorem unsignedLen_spec {n : Nat} (hn : n < 2 ^ 64) :
    ∃ extra, extra ≤ 8 ∧ unsignedLen n = extra + 1 ∧ n / 256 ^ extra < 2 ^ (7 - extra) := by
  by_cases hlog : Nat.log2 n / 7 < 8
  · refine ⟨Nat.log2 n / 7, by omega, by rw [unsignedLen]; omega, ?_⟩
    have hlt : n < 2 ^ (7 * (Nat.log2 n / 7 + 1)) := by
      by_cases hzero : n = 0
      · rw [hzero]
        exact Nat.two_pow_pos _
      · rw [← Nat.log2_lt hzero]
        omega
    rw [Nat.div_lt_iff_lt_mul (Nat.pow_pos (by decide)), show 256 = 2 ^ 8 from rfl, ← pow_mul,
      ← pow_add]
    refine lt_of_lt_of_eq hlt (congrArg _ ?_)
    omega
  · refine ⟨8, le_rfl, by rw [unsignedLen]; omega, ?_⟩
    rw [Nat.div_eq_of_lt (lt_of_lt_of_eq hn (by norm_num))]
    decide

/-- The first byte tells the number of bytes that follow and the high bits. -/
theorem first_byte {extra high : Nat} (hextra : extra ≤ 8) (hhigh : high < 2 ^ (7 - extra)) :
    leadingOnes (UInt8.ofNat (extraMask extra + high)) = extra ∧
      (UInt8.ofNat (extraMask extra + high)).toNat % 2 ^ (7 - extra) = high := by
  have hbytes : ∀ e : Fin 9, ∀ h : Fin 128, h.1 < 2 ^ (7 - e.1) →
      leadingOnes (UInt8.ofNat (extraMask e.1 + h.1)) = e.1 ∧
        (UInt8.ofNat (extraMask e.1 + h.1)).toNat % 2 ^ (7 - e.1) = h.1 := by decide +kernel
  have hbound : high < 128 := lt_of_lt_of_le hhigh (Nat.pow_le_pow_right Nat.two_pos (show 7 - extra ≤ 7 by omega))
  exact hbytes ⟨extra, by omega⟩ ⟨high, hbound⟩ hhigh

/-- What was encoded is read back, with the bytes behind it left. -/
@[simp] theorem decodeUnsigned_encodeUnsigned {n : Nat} (hn : n < 2 ^ 64) (rest : List UInt8) :
    decodeUnsigned (encodeUnsigned n ++ rest) = some (n, rest) := by
  obtain ⟨extra, hextra, hlen, hhigh⟩ := unsignedLen_spec hn
  rw [encodeUnsigned, hlen, Nat.add_sub_cancel, Nat.mod_eq_of_lt hhigh, List.cons_append,
    decodeUnsigned]
  obtain ⟨hones, hdata⟩ := first_byte hextra hhigh
  simp only [hones, hdata, List.length_append, length_beBytes]
  rw [if_neg (by omega), List.take_left' (length_beBytes _ _), List.drop_left' (length_beBytes _ _),
    fromBe_beBytes]
  exact congrArg some (Prod.ext (Nat.div_add_mod' n _) rfl)

theorem length_encodeUnsigned (n : Nat) : (encodeUnsigned n).length = unsignedLen n := by
  rw [encodeUnsigned, List.length_cons, length_beBytes, unsignedLen]
  omega

theorem encodeUnsigned_ne_nil (n : Nat) : encodeUnsigned n ≠ [] := List.cons_ne_nil _ _

theorem decodeUnsigned_append {xs rest : List UInt8} {n : Nat}
    (h : decodeUnsigned xs = some (n, rest)) (ys : List UInt8) :
    decodeUnsigned (xs ++ ys) = some (n, rest ++ ys) := by
  cases xs with
  | nil => cases h
  | cons first xs =>
    rw [decodeUnsigned] at h
    rw [List.cons_append, decodeUnsigned]
    split at h
    · cases h
    next hlen =>
      obtain ⟨rfl, rfl⟩ := Prod.ext_iff.mp (Option.some.inj h)
      rw [if_neg (by rw [List.length_append]; omega), List.take_append_of_le_length (by omega),
        List.drop_append_of_le_length (by omega)]

/-! ### Signed integers -/

/-- Small numbers of either sign become small unsigned ones: `(n << 1) ^ (n >> 63)`. -/
def zigzag (n : Int) : Nat := if n < 0 then (-2 * n - 1).toNat else (2 * n).toNat

/-- `(u >> 1) ^ -(u & 1)`. -/
def unzigzag (u : Nat) : Int := if u % 2 = 0 then (u / 2 : Nat) else -(u / 2 : Nat) - 1

@[simp] theorem unzigzag_zigzag (n : Int) : unzigzag (zigzag n) = n := by
  rw [zigzag, unzigzag]
  split <;> split <;> omega

theorem zigzag_lt {n : Int} (hlow : -(2 ^ 63) ≤ n) (hhigh : n < 2 ^ 63) : zigzag n < 2 ^ 64 := by
  rw [zigzag]
  split <;> omega

end VInt
