import Cqlite.Merge.ClusteringOrder
import Cqlite.Writer.VIntCodecs
import Mathlib.Algebra.Order.Field.Power
import Mathlib.Data.Nat.Bitwise
import Mathlib.Tactic.Linarith

/-! The order of varint and decimal elements of a collection (`collection_order/scalar.rs`).

    Bodies are two's complement, most significant byte first, of any length. The scales are 32 bits
    wide; what the source computes in 64 bits from them and from the length of a text is far from the
    limits of 64 bits and stands here on the integers. -/

namespace Cqlite

open VInt

namespace ScalarOrder

/-! ### Varints -/

def isNegative (body : Bytes) : Bool := body.head?.any fun b0 => b0 &&& 0x80 != 0

def fillByte (negative : Bool) : UInt8 := if negative then 0xFF else 0x00

/-- The byte at place `i` of a body that is padded on the left to `len` bytes. -/
def alignedByte (body : Bytes) (fill : UInt8) (len i : Nat) : UInt8 :=
  if len - i ≤ body.length then (body[body.length - (len - i)]?).getD fill else fill

/-- The loop over the places: the first difference decides. -/
def alignedLoop (a b : Bytes) (fillA fillB : UInt8) (len : Nat) : List Nat → Ordering
  | [] => .eq
  | i :: places =>
    match compare (alignedByte a fillA len i) (alignedByte b fillB len i) with
    | .eq => alignedLoop a b fillA fillB len places
    | other => other

def compareSignedVarint (a b : Bytes) : Ordering :=
  match isNegative a, isNegative b with
  | false, true => .gt
  | true, false => .lt
  | negA, negB =>
    let len := max a.length b.length
    alignedLoop a b (fillByte negA) (fillByte negB) len (List.range len)

/-! ### Decimals -/

/-- `to_str_radix(10).len()` of the magnitude. -/
def decimalDigitCount (n : Int) : Nat := (Nat.toDigits 10 n.natAbs).length

def pow10 (exp : Nat) : Int := 10 ^ exp

/-- `as u32`. -/
def asU32 (n : Int) : Nat := (n % 2 ^ 32).toNat

/-- The comparison, and the exponents of the powers of ten it builds. -/
def decimalSteps (scaleA : BitVec 32) (unscaledA : Bytes) (scaleB : BitVec 32) (unscaledB : Bytes) :
    Ordering × List Nat :=
  let bigA := intOfBytes unscaledA
  let bigB := intOfBytes unscaledB
  let signA := bigA.sign
  let signB := bigB.sign
  if signA ≠ signB then (compare signA signB, [])
  else if signA = 0 then (.eq, [])
  else
    let adjA : Int := (decimalDigitCount bigA - 1) - scaleA.toInt
    let adjB : Int := (decimalDigitCount bigB - 1) - scaleB.toInt
    let positive := signA == 1
    if adjA ≠ adjB then
      let byMagnitude := compare adjA adjB
      (if positive then byMagnitude else byMagnitude.swap, [])
    else
      let delta := scaleA.toInt - scaleB.toInt
      match compare delta 0 with
      | .gt => (compare bigA (bigB * pow10 (asU32 delta)), [asU32 delta])
      | .lt => (compare (bigA * pow10 (asU32 (-delta))) bigB, [asU32 (-delta)])
      | .eq => (compare bigA bigB, [])

def compareDecimal (scaleA : BitVec 32) (unscaledA : Bytes) (scaleB : BitVec 32)
    (unscaledB : Bytes) : Ordering :=
  (decimalSteps scaleA unscaledA scaleB unscaledB).1

def powersBuilt (scaleA : BitVec 32) (unscaledA : Bytes) (scaleB : BitVec 32) (unscaledB : Bytes) :
    List Nat :=
  (decimalSteps scaleA unscaledA scaleB unscaledB).2

/-! ### Comparisons through a map -/

variable {α β : Type*} {n m s t : Int} {k : Nat}

theorem compare_of_strictMono [LinearOrder α] [LinearOrder β] {f : α → β} (hf : StrictMono f)
    (a b : α) : compare (f a) (f b) = compare a b := by
  rw [← cmp_eq_compare, ← cmp_eq_compare, hf.cmp_map_eq]

theorem compare_of_strictAnti [LinearOrder α] [LinearOrder β] {f : α → β} (hf : StrictAnti f)
    (a b : α) : compare (f a) (f b) = compare b a := by
  rw [← cmp_eq_compare, ← cmp_eq_compare, hf.cmp_map_eq]

/-! ### Padded bodies -/

/-- Aligned bytes compare as numbers. -/
theorem alignedLoop_eq (a b : Bytes) (fillA fillB : UInt8) (len : Nat) (places : List Nat) :
    alignedLoop a b fillA fillB len places =
      compare (fromBe (places.map (alignedByte a fillA len)))
        (fromBe (places.map (alignedByte b fillB len))) := by
  induction places with
  | nil => rfl
  | cons i places ih =>
    obtain ⟨x, hx⟩ : ∃ x, alignedByte a fillA len i = x := ⟨_, rfl⟩
    obtain ⟨y, hy⟩ : ∃ y, alignedByte b fillB len i = y := ⟨_, rfl⟩
    have hltA := fromBe_lt (places.map (alignedByte a fillA len))
    have hltB := fromBe_lt (places.map (alignedByte b fillB len))
    rw [List.length_map] at hltA hltB
    rw [alignedLoop, ih, List.map_cons, List.map_cons, fromBe_cons, fromBe_cons, List.length_map,
      List.length_map, hx, hy]
    cases hc : compare x y with
    | eq =>
      obtain rfl : x = y := compare_eq_iff_eq.1 hc
      simp only [Nat.compare_eq_ite_lt]
      simp
    | lt =>
      have hxy : x.toNat + 1 ≤ y.toNat := compare_lt_iff_lt.1 hc
      have := Nat.mul_le_mul_right (256 ^ places.length) hxy
      refine (compare_lt_iff_lt.2 ?_).symm
      linarith
    | gt =>
      have hxy : y.toNat + 1 ≤ x.toNat := compare_gt_iff_gt.1 hc
      have := Nat.mul_le_mul_right (256 ^ places.length) hxy
      refine (compare_gt_iff_gt.2 ?_).symm
      linarith

variable {body : Bytes}

theorem map_alignedByte {fill : UInt8} {len : Nat} (h : body.length ≤ len) :
    (List.range len).map (alignedByte body fill len) =
      List.replicate (len - body.length) fill ++ body := by
  refine List.ext_getElem (by simp; omega) fun i hi hi' => ?_
  have hlen : i < len := by simpa using hi
  rw [List.getElem_map, List.getElem_range, alignedByte, List.getElem_append]
  simp only [List.length_replicate, List.getElem_replicate]
  split
  · rename_i hin
    have hplace : body.length - (len - i) = i - (len - body.length) := by omega
    rw [dif_neg (by omega), hplace, List.getElem?_eq_getElem (by omega)]
    rfl
  · rw [dif_pos (by omega)]

theorem fromBe_fill_append (k : Nat) (bytes : Bytes) :
    (fromBe (List.replicate k 0xFF ++ bytes) : Int) =
      256 ^ (k + bytes.length) - 256 ^ bytes.length + fromBe bytes := by
  induction k with
  | zero => simp
  | succ k ih =>
    rw [List.replicate_succ, List.cons_append, fromBe_cons]
    push_cast
    rw [ih, List.length_append, List.length_replicate, show k + 1 + bytes.length = k + bytes.length + 1 by
      omega, pow_succ]
    change 255 * (256 : Int) ^ (k + bytes.length) + _ = _
    ring

/-- The sign bit. -/
theorem isNegative_iff (body : Bytes) :
    isNegative body = true ↔ 256 ^ body.length ≤ 2 * fromBe body := by
  cases body with
  | nil => simp [isNegative, fromBe]
  | cons b rest =>
    have hlt := fromBe_lt rest
    have hbit : (b &&& 0x80 != 0) = true ↔ 128 ≤ b.toNat := by
      have hb := b.toNat_lt
      have hand : (b &&& 0x80).toNat = (b.toNat.testBit 7).toNat * 2 ^ 7 := by
        rw [UInt8.toNat_and]
        exact Nat.and_two_pow b.toNat 7
      have htest : b.toNat.testBit 7 = decide (128 ≤ b.toNat) := by
        rw [Nat.testBit_eq_decide_div_mod_eq, decide_eq_decide]
        omega
      rw [bne_iff_ne, ne_eq, ← UInt8.toNat_inj, hand, htest]
      by_cases h : 128 ≤ b.toNat <;> simp [h]
    rw [isNegative, List.head?_cons, Option.any_some, hbit, fromBe_cons, List.length_cons, pow_succ]
    constructor
    · intro h
      have := Nat.mul_le_mul_right (256 ^ rest.length) h
      linarith
    · intro h
      by_contra hno
      have := Nat.mul_le_mul_right (256 ^ rest.length) (show b.toNat + 1 ≤ 128 by omega)
      linarith

theorem intOfBytes_of_negative (h : isNegative body = true) :
    intOfBytes body = fromBe body - 256 ^ body.length := by
  have := (isNegative_iff body).1 h
  rw [intOfBytes, if_neg (by omega)]

theorem intOfBytes_of_nonneg (h : isNegative body = false) :
    intOfBytes body = fromBe body := by
  have := mt (isNegative_iff body).2 (by simp [h])
  rw [intOfBytes, if_pos (by omega)]

theorem intOfBytes_neg (h : isNegative body = true) : intOfBytes body < 0 := by
  have hlt := fromBe_lt body
  rw [intOfBytes_of_negative h]
  have : ((256 ^ body.length : Nat) : Int) = 256 ^ body.length := by push_cast; rfl
  omega

/-- Signed varints compare as numbers. -/
theorem compareSignedVarint_eq (a b : Bytes) :
    compareSignedVarint a b = compare (intOfBytes a) (intOfBytes b) := by
  have hle := le_max_left a.length b.length
  have hle' := le_max_right a.length b.length
  unfold compareSignedVarint
  cases ha : isNegative a <;> cases hb : isNegative b
  · simp only [alignedLoop_eq, map_alignedByte hle, map_alignedByte hle', fillByte,
      Bool.false_eq_true, if_false]
    rw [show (0x00 : UInt8) = 0 from rfl, fromBe_replicate_append, fromBe_replicate_append,
      intOfBytes_of_nonneg ha, intOfBytes_of_nonneg hb]
    exact (compare_of_strictMono Nat.strictMono_cast _ _).symm
  · refine (compare_gt_iff_gt.2 ?_).symm
    have := intOfBytes_neg hb
    rw [intOfBytes_of_nonneg ha]
    omega
  · refine (compare_lt_iff_lt.2 ?_).symm
    have := intOfBytes_neg ha
    rw [intOfBytes_of_nonneg hb]
    omega
  · simp only [alignedLoop_eq, map_alignedByte hle, map_alignedByte hle', fillByte, if_true]
    have hA := fromBe_fill_append (max a.length b.length - a.length) a
    have hB := fromBe_fill_append (max a.length b.length - b.length) b
    rw [Nat.sub_add_cancel hle] at hA
    rw [Nat.sub_add_cancel hle'] at hB
    -- both bodies are padded to one length, so the same power is taken off
    have hmono : StrictMono fun n : Nat => (n : Int) - 256 ^ max a.length b.length := fun m n hmn => by
      have : (m : Int) < n := by exact_mod_cast hmn
      linarith
    have hcmp := compare_of_strictMono hmono
      (fromBe (List.replicate (max a.length b.length - a.length) 0xFF ++ a))
      (fromBe (List.replicate (max a.length b.length - b.length) 0xFF ++ b))
    rw [← hcmp, intOfBytes_of_negative ha, intOfBytes_of_negative hb, hA, hB]
    congr 1 <;> ring

/-! ### Magnitude bands -/

theorem digits_band (h : n ≠ 0) :
    (10 : ℚ) ^ ((decimalDigitCount n : Int) - 1) ≤ |(n : ℚ)| ∧
      |(n : ℚ)| < 10 ^ (decimalDigitCount n : Int) := by
  have hpos : 0 < decimalDigitCount n := Nat.length_toDigits_pos
  have habs : |(n : ℚ)| = (n.natAbs : ℚ) := by
    rw [Nat.cast_natAbs, Int.cast_abs]
  have hupper : n.natAbs < 10 ^ decimalDigitCount n :=
    (Nat.length_toDigits_le_iff (by decide) hpos).1 le_rfl
  have hlower : 10 ^ (decimalDigitCount n - 1) ≤ n.natAbs := by
    by_cases hone : decimalDigitCount n = 1
    · rw [hone]
      exact Nat.one_le_iff_ne_zero.2 (Int.natAbs_ne_zero.2 h)
    · refine le_of_not_gt fun hlt => ?_
      have := (Nat.length_toDigits_le_iff (b := 10) (n := n.natAbs) (by decide)
        (show 0 < decimalDigitCount n - 1 by omega)).2 hlt
      rw [decimalDigitCount] at *
      omega
  rw [habs, show (decimalDigitCount n : Int) - 1 = ((decimalDigitCount n - 1 : Nat) : Int) by omega,
    zpow_natCast, zpow_natCast]
  exact ⟨by exact_mod_cast hlower, by exact_mod_cast hupper⟩

/-- The size of the number with that unscaled value and that scale. -/
def magnitude (n scale : Int) : ℚ := |(n : ℚ)| * 10 ^ (-scale)

/-- A number lies between the power of ten of its adjusted exponent and the next one. -/
theorem magnitude_band (h : n ≠ 0) (scale : Int) :
    (10 : ℚ) ^ ((decimalDigitCount n : Int) - 1 - scale) ≤ magnitude n scale ∧
      magnitude n scale < 10 ^ ((decimalDigitCount n : Int) - 1 - scale + 1) := by
  obtain ⟨hlower, hupper⟩ := digits_band h
  have hscale : (0 : ℚ) < 10 ^ (-scale) := zpow_pos (by norm_num) _
  rw [sub_eq_add_neg _ scale, zpow_add₀ (by norm_num), magnitude,
    show (decimalDigitCount n : Int) - 1 + -scale + 1 = decimalDigitCount n + -scale by ring,
    zpow_add₀ (by norm_num)]
  exact ⟨mul_le_mul_of_nonneg_right hlower hscale.le, mul_lt_mul_of_pos_right hupper hscale⟩

theorem magnitude_lt (hm : m ≠ 0) (hn : n ≠ 0)
    (h : (decimalDigitCount m : Int) - 1 - s < decimalDigitCount n - 1 - t) :
    magnitude m s < magnitude n t :=
  calc magnitude m s < 10 ^ ((decimalDigitCount m : Int) - 1 - s + 1) := (magnitude_band hm s).2
    _ ≤ 10 ^ ((decimalDigitCount n : Int) - 1 - t) := zpow_le_zpow_right₀ (by norm_num) h
    _ ≤ magnitude n t := (magnitude_band hn t).1

theorem compare_magnitude (hm : m ≠ 0) (hn : n ≠ 0)
    (h : (decimalDigitCount m : Int) - 1 - s ≠ decimalDigitCount n - 1 - t) :
    compare (magnitude m s) (magnitude n t) =
      compare ((decimalDigitCount m : Int) - 1 - s) ((decimalDigitCount n : Int) - 1 - t) := by
  rcases lt_or_gt_of_ne h with hlt | hgt
  · rw [compare_lt_iff_lt.2 hlt, compare_lt_iff_lt.2 (magnitude_lt hm hn hlt)]
  · rw [compare_gt_iff_gt.2 hgt, compare_gt_iff_gt.2 (magnitude_lt hn hm hgt)]

theorem compare_aligned (m n : Int) (h : s - t = k) :
    compare (m * (10 : ℚ) ^ (-s)) (n * 10 ^ (-t)) = compare m (n * pow10 k) := by
  have hpos : (0 : ℚ) < 10 ^ (-s) := zpow_pos (by norm_num) _
  have hright : (n : ℚ) * 10 ^ (-t) = ((n * pow10 k : Int) : ℚ) * 10 ^ (-s) := by
    rw [pow10]
    push_cast
    rw [mul_assoc, ← zpow_natCast, ← zpow_add₀ (by norm_num), ← h]
    congr 2
    ring
  rw [hright]
  exact (compare_of_strictMono (strictMono_mul_right_of_pos hpos) _ _).trans
    (compare_of_strictMono Int.cast_strictMono _ _)

/-! ### Exactness -/

theorem asU32_of_scales {s t : BitVec 32} (h : s.toInt - t.toInt = k) : asU32 k = k := by
  have hs := BitVec.toInt_lt (x := s)
  have ht := BitVec.le_toInt (x := t)
  rw [asU32, Int.emod_eq_of_lt (by omega) (by omega), Int.toNat_natCast]

theorem scaled_lt_of_sign (h : m.sign < n.sign) (s t : Int) :
    (m : ℚ) * 10 ^ (-s) < n * 10 ^ (-t) := by
  have hs : (0 : ℚ) < 10 ^ (-s) := zpow_pos (by norm_num) _
  have ht : (0 : ℚ) < 10 ^ (-t) := zpow_pos (by norm_num) _
  rcases lt_trichotomy m 0 with hm | rfl | hm
  · have hn : 0 ≤ n := by
      refine le_of_not_gt fun hn => ?_
      rw [Int.sign_eq_neg_one_of_neg hm, Int.sign_eq_neg_one_of_neg hn] at h
      omega
    calc (m : ℚ) * 10 ^ (-s) < 0 := mul_neg_of_neg_of_pos (by exact_mod_cast hm) hs
      _ ≤ n * 10 ^ (-t) := mul_nonneg (by exact_mod_cast hn) ht.le
  · have hn : 0 < n := Int.sign_pos_iff.1 (by simpa using h)
    rw [Int.cast_zero, zero_mul]
    exact mul_pos (by exact_mod_cast hn) ht
  · rw [Int.sign_eq_one_of_pos hm] at h
    rcases Int.sign_trichotomy n with hn | hn | hn <;> omega

theorem compare_of_sign (h : m.sign ≠ n.sign) (s t : Int) :
    compare (m * (10 : ℚ) ^ (-s)) (n * 10 ^ (-t)) = compare m.sign n.sign := by
  rcases lt_or_gt_of_ne h with hlt | hgt
  · rw [compare_lt_iff_lt.2 hlt, compare_lt_iff_lt.2 (scaled_lt_of_sign hlt s t)]
  · rw [compare_gt_iff_gt.2 hgt, compare_gt_iff_gt.2 (scaled_lt_of_sign hgt t s)]

theorem compare_of_magnitude (hm : m ≠ 0) (h : m.sign = n.sign) (s t : Int) :
    compare (m * (10 : ℚ) ^ (-s)) (n * 10 ^ (-t)) =
      if m.sign == 1 then compare (magnitude m s) (magnitude n t)
      else (compare (magnitude m s) (magnitude n t)).swap := by
  rcases lt_or_gt_of_ne hm with hneg | hpos
  · have hn : n < 0 := Int.sign_eq_neg_one_iff_neg.1 (h ▸ Int.sign_eq_neg_one_of_neg hneg)
    have hvalue : ∀ {k : Int} (u : Int), k < 0 → (k : ℚ) * 10 ^ (-u) = -magnitude k u := fun u hk => by
      rw [magnitude, abs_of_neg (by exact_mod_cast hk)]
      ring
    rw [Int.sign_eq_neg_one_of_neg hneg, hvalue s hneg, hvalue t hn, ← Std.OrientedCmp.eq_swap]
    exact compare_of_strictAnti (fun _ _ => neg_lt_neg) _ _
  · have hn : 0 < n := Int.sign_eq_one_iff_pos.1 (h ▸ Int.sign_eq_one_of_pos hpos)
    rw [Int.sign_eq_one_of_pos hpos, magnitude, magnitude, abs_of_pos (by exact_mod_cast hpos),
      abs_of_pos (by exact_mod_cast hn)]
    rfl

/-- The order of the numbers, over as many digits as they have. -/
theorem decimalSteps_exact (s : BitVec 32) (a : Bytes) (t : BitVec 32) (b : Bytes) :
    (decimalSteps s a t b).1 = compare (decimalValue s.toInt a) (decimalValue t.toInt b) ∧
      ∀ e ∈ (decimalSteps s a t b).2,
        e ≤ max (decimalDigitCount (intOfBytes a)) (decimalDigitCount (intOfBytes b)) := by
  unfold decimalSteps decimalValue
  dsimp only
  generalize intOfBytes a = m
  generalize intOfBytes b = n
  split
  · rename_i hsign
    exact ⟨(compare_of_sign hsign _ _).symm, by simp⟩
  rename_i hsign
  rw [not_not] at hsign
  split
  · rename_i hzero
    obtain rfl : m = 0 := Int.sign_eq_zero_iff_zero.1 hzero
    obtain rfl : n = 0 := Int.sign_eq_zero_iff_zero.1 (hsign ▸ hzero)
    exact ⟨by simp, by simp⟩
  rename_i hzero
  have hm : m ≠ 0 := fun h => hzero (Int.sign_eq_zero_iff_zero.2 h)
  have hn : n ≠ 0 := fun h => hzero (hsign ▸ Int.sign_eq_zero_iff_zero.2 h)
  split
  · rename_i hadj
    refine ⟨?_, by simp⟩
    rw [compare_of_magnitude hm hsign, compare_magnitude hm hn hadj]
  · rename_i hadj
    rw [not_not] at hadj
    rcases lt_trichotomy s.toInt t.toInt with hlt | heq | hgt
    · obtain ⟨k, hk⟩ : ∃ k : Nat, t.toInt - s.toInt = k := ⟨(t.toInt - s.toInt).toNat, by omega⟩
      have hneg : -(s.toInt - t.toInt) = k := by omega
      rw [compare_lt_iff_lt.2 (show s.toInt - t.toInt < 0 by omega)]
      simp only [hneg, asU32_of_scales hk, List.mem_singleton, forall_eq]
      refine ⟨?_, by omega⟩
      have hswap : compare (m * pow10 k) n = (compare n (m * pow10 k)).swap :=
        Std.OrientedCmp.eq_swap
      rw [hswap, ← compare_aligned n m hk, ← Std.OrientedCmp.eq_swap]
    · rw [compare_eq_iff_eq.2 (show s.toInt - t.toInt = 0 by omega), heq]
      refine ⟨?_, by simp⟩
      have halign := compare_aligned m n (k := 0) (sub_self t.toInt)
      have hone : n * pow10 0 = n := by rw [pow10, pow_zero, mul_one]
      rw [halign, hone]
    · obtain ⟨k, hk⟩ : ∃ k : Nat, s.toInt - t.toInt = k := ⟨(s.toInt - t.toInt).toNat, by omega⟩
      rw [compare_gt_iff_gt.2 (show s.toInt - t.toInt > 0 by omega)]
      simp only [hk, asU32_of_scales hk, List.mem_singleton, forall_eq]
      exact ⟨(compare_aligned m n hk).symm, by omega⟩

/-- Varints compare as the integers and decimals as the rationals they stand for, and no power of ten
    is built beyond the digits of the unscaled values. -/
theorem scalar_order_exact :
    (∀ a b : Bytes, compareSignedVarint a b = compare (intOfBytes a) (intOfBytes b)) ∧
    ∀ (s : BitVec 32) (a : Bytes) (t : BitVec 32) (b : Bytes),
      compareDecimal s a t b = compare (decimalValue s.toInt a) (decimalValue t.toInt b) ∧
      ∀ e ∈ powersBuilt s a t b,
        e ≤ max (decimalDigitCount (intOfBytes a)) (decimalDigitCount (intOfBytes b)) :=
  ⟨compareSignedVarint_eq, decimalSteps_exact⟩

end ScalarOrder

end Cqlite
