import Cqlite.Lib.OrderCode
import Cqlite.Reader.PartitionTrie

/-! The byte-comparable encoder of keys (`bti/encoder.rs`).

    Every value is written behind a prefix of its type, so that the bytes compare as the values do. Texts
    and blobs end in a terminator, with escapes in front of the bytes 0x00 and 0xFF. -/

namespace Cqlite

open VInt OrderCode

/-! ### The encoder -/

section Encoder

/-- `EncoderConfig`: the fields the encoder reads. -/
structure EncoderConfig where
  useVarintEncoding : Bool
  maxNestingDepth : Nat

def EncoderConfig.default : EncoderConfig := ⟨true, 32⟩

inductive EncoderError
  | invalidByteComparableKey (message : String)
  /-- `Error::corruption` with the `Utf8Error` of these bytes. -/
  | invalidUtf8 (text : Bytes)

namespace TypePrefix

def null : UInt8 := 0x00
def booleanFalse : UInt8 := 0x01
def booleanTrue : UInt8 := 0x02
def tinyInt : UInt8 := 0x10
def smallInt : UInt8 := 0x11
def integer : UInt8 := 0x12
def bigInt : UInt8 := 0x13
def float : UInt8 := 0x20
def double : UInt8 := 0x21
def text : UInt8 := 0x30
def blob : UInt8 := 0x31
def uuid : UInt8 := 0x40
def timestamp : UInt8 := 0x41
def date : UInt8 := 0x42
def time : UInt8 := 0x43
def duration : UInt8 := 0x44
def list : UInt8 := 0x50
def set : UInt8 := 0x51
def map : UInt8 := 0x52
def tuple : UInt8 := 0x60
def udt : UInt8 := 0x61
def frozen : UInt8 := 0x70
def separator : UInt8 := 0x00
def terminator : UInt8 := 0x01

end TypePrefix

/-- 0x00 and 0xFF stand behind an escape byte. -/
def escapeByte (b : UInt8) : Bytes :=
  if b = 0x00 then [0xFF, 0x00] else if b = 0xFF then [0xFF, 0xFF] else [b]

def escapedBytes (bytes : Bytes) : Bytes := bytes.flatMap escapeByte ++ [TypePrefix.terminator]

def encodeText (text : Bytes) : Bytes := TypePrefix.text :: escapedBytes text

def encodeBlob (bytes : Bytes) : Bytes := TypePrefix.blob :: escapedBytes bytes

def encodeTinyInt (n : Int) : Bytes := TypePrefix.tinyInt :: intBytes 1 (n + 128)

def encodeSmallInt (n : Int) : Bytes := TypePrefix.smallInt :: intBytes 2 (n + 32768)

def encodeInt (n : Int) : Bytes :=
  TypePrefix.integer :: beBytes 4 ((n % 2 ^ 32).toNat ^^^ 2 ^ 31)

/-- The unsigned number of `encode_bigint` and `encode_timestamp`; a negative one is complemented. -/
def orderedBits (n : Int) : Nat :=
  if 0 ≤ n then (n % 2 ^ 64).toNat + 2 ^ 63 else (n % 2 ^ 64).toNat ^^^ (2 ^ 64 - 1)

def encodeBigInt (n : Int) : Bytes := TypePrefix.bigInt :: beBytes 8 (orderedBits n)

def encodeTimestamp (millis : Int) : Bytes := TypePrefix.timestamp :: beBytes 8 (orderedBits millis)

def encodeUuidBytes (uuid : Bytes) : Bytes := TypePrefix.uuid :: uuid

def encodeBoolean (b : Bool) : Bytes :=
  [if b then TypePrefix.booleanTrue else TypePrefix.booleanFalse]

def encodeFloat32 (bits : UInt32) : Bytes :=
  TypePrefix.float ::
    if ieeeNaN 31 23 bits.toNat then [0xFF, 0xFF, 0xFF, 0xFF]
    else beBytes 4 (if bits &&& 0x80000000 = 0 then bits ||| 0x80000000 else ~~~bits).toNat

def encodeDouble (bits : UInt64) : Bytes :=
  TypePrefix.double ::
    if ieeeNaN 63 52 bits.toNat then [0xFF, 0xFF, 0xFF, 0xFF, 0xFF, 0xFF, 0xFF, 0xFF]
    else beBytes 8
      (if bits &&& 0x8000000000000000 = 0 then bits ||| 0x8000000000000000 else ~~~bits).toNat

/-- Seven bits at a time, the low ones first. -/
def encodeVarint (value : Nat) : Bytes :=
  if value < 0x80 then [UInt8.ofNat value]
  else (UInt8.ofNat value ||| 0x80) :: encodeVarint (value / 128)
  termination_by value

variable (config : EncoderConfig)

def encodeLength (n : Nat) : Bytes :=
  if config.useVarintEncoding then encodeVarint n else beBytes 4 n

/-- The count, the parts with separators between them, and the terminator. -/
def encodeParts (typePrefix : UInt8) (parts : List Bytes) : Bytes :=
  typePrefix :: encodeLength config parts.length ++ [TypePrefix.separator].intercalate parts ++
    [TypePrefix.terminator]

mutual

def encodeValueWithDepth (value : Value) (depth : Nat) : Except EncoderError Bytes :=
  if depth > config.maxNestingDepth then
    .error (.invalidByteComparableKey
      ("Maximum nesting depth " ++ toString config.maxNestingDepth ++ " exceeded"))
  else match value with
    | .null => .ok [TypePrefix.null]
    | .boolean b => .ok (encodeBoolean b)
    | .tinyInt n => .ok (encodeTinyInt n)
    | .smallInt n => .ok (encodeSmallInt n)
    | .integer n => .ok (encodeInt n)
    | .bigInt n => .ok (encodeBigInt n)
    | .counter n => .ok (encodeBigInt n)
    | .float32 bits => .ok (encodeFloat32 bits)
    | .float bits => .ok (encodeDouble bits)
    | .text s => if validUtf8 s then .ok (encodeText s) else .error (.invalidUtf8 s)
    | .blob bytes => .ok (encodeBlob bytes)
    | .uuid bytes => .ok (encodeUuidBytes bytes)
    | .timestamp millis => .ok (encodeTimestamp millis)
    | .json text => .ok (encodeText text.toUTF8.toList)
    | .list items => (encodeElements items (depth + 1)).map (encodeParts config TypePrefix.list)
    -- elements of a set, keys and values of a map start again at depth 0
    | .set items => (encodeElements items 0).map fun parts =>
        encodeParts config TypePrefix.set (parts.insertionSort fun a b => (compare a b).isLE)
    | .map entries => (encodeEntries entries).map fun pairs =>
        encodeParts config TypePrefix.map
          ((pairs.insertionSort fun a b => (compare a.1 b.1).isLE).map fun p =>
            p.1 ++ TypePrefix.separator :: p.2)
    | .tuple fields => (encodeElements fields (depth + 1)).map (encodeParts config TypePrefix.tuple)
    | .udt typeName keyspace fields => (encodeFields fields (depth + 1)).map fun parts =>
        TypePrefix.udt :: encodeText keyspace.toUTF8.toList ++ encodeText typeName.toUTF8.toList ++
          encodeLength config parts.length ++ [TypePrefix.separator].intercalate parts ++
          [TypePrefix.terminator]
    | .frozen inner => (encodeValueWithDepth inner (depth + 1)).map (TypePrefix.frozen :: ·)
    | .varint bytes => .ok (encodeBlob bytes)
    | .decimal _ unscaled => .ok (encodeBlob unscaled)
    | .duration months days nanos =>
      .ok (TypePrefix.duration :: encodeInt months ++ encodeInt days ++ encodeBigInt nanos)
    | .tombstone _ => .ok [TypePrefix.null, 0xFF]
    | .date days => .ok (TypePrefix.date :: encodeInt days)
    | .time nanos => .ok (TypePrefix.time :: encodeBigInt nanos)
    | .inet bytes => .ok (encodeBlob bytes)

def encodeElements (items : List Value) (depth : Nat) : Except EncoderError (List Bytes) :=
  match items with
  | [] => .ok []
  | item :: items => do
    let part ← encodeValueWithDepth item depth
    let parts ← encodeElements items depth
    return part :: parts

def encodeEntries (entries : List (Value × Value)) : Except EncoderError (List (Bytes × Bytes)) :=
  match entries with
  | [] => .ok []
  | (key, value) :: entries => do
    let keyBytes ← encodeValueWithDepth key 0
    let valueBytes ← encodeValueWithDepth value 0
    let pairs ← encodeEntries entries
    return (keyBytes, valueBytes) :: pairs

def encodeFields (fields : List (String × Option Value)) (depth : Nat) :
    Except EncoderError (List Bytes) :=
  match fields with
  | [] => .ok []
  | (name, value) :: fields => do
    let bytes ← match value with
      | some value => encodeValueWithDepth value depth
      | none => .ok [TypePrefix.null]
    let parts ← encodeFields fields depth
    return (encodeText name.toUTF8.toList ++ TypePrefix.separator :: bytes) :: parts

end

def encodeValue (value : Value) : Except EncoderError Bytes := encodeValueWithDepth config value 0

/-- A separator stands between components. -/
def encodeCompositeKey (values : List Value) : Except EncoderError Bytes :=
  (encodeElements config values 0).map ([TypePrefix.separator].intercalate ·)

end Encoder

/-! ### Scalar types -/

section Scalar

/-- The scalar types that order keys. -/
inductive ScalarType
  | tinyInt
  | smallInt
  | int
  | bigInt
  | timestamp
  | text
  | blob
  | boolean
  | uuid
  deriving DecidableEq, Repr

/-- A signed integer of `k + 1` bits. -/
def SignedBits (k : Nat) (n : Int) : Prop := -(2 ^ k) ≤ n ∧ n < 2 ^ k

/-- The values of a type. -/
inductive ScalarType.Holds : ScalarType → Value → Prop
  | tinyInt {n : Int} (h : SignedBits 7 n) : Holds .tinyInt (.tinyInt n)
  | smallInt {n : Int} (h : SignedBits 15 n) : Holds .smallInt (.smallInt n)
  | int {n : Int} (h : SignedBits 31 n) : Holds .int (.integer n)
  | bigInt {n : Int} (h : SignedBits 63 n) : Holds .bigInt (.bigInt n)
  | timestamp {millis : Int} (h : SignedBits 63 millis) : Holds .timestamp (.timestamp millis)
  | text {s : Bytes} (h : validUtf8 s = true) : Holds .text (.text s)
  | blob (s : Bytes) : Holds .blob (.blob s)
  | boolean (b : Bool) : Holds .boolean (.boolean b)
  | uuid {s : Bytes} (h : s.length = 16) : Holds .uuid (.uuid s)

/-- The bytes of two values compare as the values do, and differ when these do. -/
def EncodesInOrder (config : EncoderConfig) (v w : Value) : Prop :=
  ∃ xs ys, encodeValue config v = .ok xs ∧ encodeValue config w = .ok ys ∧
    some (compare xs ys) = compareValues v w ∧ (v ≠ w → xs ≠ ys)

/-- The bytes of two keys compare as their components do one after the other. -/
def KeysInOrder (config : EncoderConfig) (vs ws : List Value) : Prop :=
  ∃ xs ys, encodeCompositeKey config vs = .ok xs ∧ encodeCompositeKey config ws = .ok ys ∧
    some (compare xs ys) = compareElements vs ws ∧ (vs ≠ ws → xs ≠ ys)

/-- The escape byte puts a zero behind every byte but 0xFF. -/
def EscapedOutOfOrder (x y : UInt8) : Prop := (x = 0x00 ∧ y ≠ 0xFF) ∨ (y = 0x00 ∧ x ≠ 0xFF)

/-- Two negative bigints or timestamps, or texts or blobs that first differ in a zero byte and one other
    than 0xFF. -/
def Misordered : Value → Value → Prop
  | .bigInt n, .bigInt m => n < 0 ∧ m < 0 ∧ n ≠ m
  | .timestamp n, .timestamp m => n < 0 ∧ m < 0 ∧ n ≠ m
  | .text s, .text t => ∃ x y, FirstDifference s t x y ∧ EscapedOutOfOrder x y
  | .blob s, .blob t => ∃ x y, FirstDifference s t x y ∧ EscapedOutOfOrder x y
  | _, _ => False

end Scalar

/-! ### Bytes and numbers -/

variable {k : Nat} {n : Int} {v w : Value}

section Numbers

theorem compare_of_lt {xs ys : Bytes} (h : xs < ys) : compare xs ys = .lt := by
  induction h with
  | nil => rfl
  | rel h =>
    rw [List.compare_cons_cons, Std.compare_eq_lt.2 h]
    rfl
  | cons _ ih =>
    rw [List.compare_cons_cons, Std.ReflOrd.compare_self, ih]
    rfl

theorem compare_beBytes {a b : Nat} (ha : a < 256 ^ k) (hb : b < 256 ^ k) :
    compare (beBytes k a) (beBytes k b) = compare a b := by
  have hlt : ∀ {a b : Nat}, a < 256 ^ k → b < 256 ^ k → a < b →
      compare (beBytes k a) (beBytes k b) = .lt := by
    intro a b ha hb hab
    refine compare_of_lt (beBytes_lt ?_)
    rwa [Nat.mod_eq_of_lt ha, Nat.mod_eq_of_lt hb]
  rcases Nat.lt_trichotomy a b with hab | rfl | hba
  · rw [hlt ha hb hab, Nat.compare_eq_lt.2 hab]
  · rw [Std.ReflOrd.compare_self, Std.ReflOrd.compare_self]
  · rw [Std.OrientedOrd.eq_swap, hlt hb ha hba, Nat.compare_eq_gt.2 hba]
    rfl

/-- Flipping the sign bit of a signed integer. -/
theorem flipSign (h : SignedBits k n) :
    (n % 2 ^ (k + 1)).toNat ^^^ 2 ^ k = (n + 2 ^ k).toNat ∧ (n + 2 ^ k).toNat < 2 ^ (k + 1) := by
  obtain ⟨hlo, hhi⟩ := h
  have hpow : (2 : Int) ^ (k + 1) = 2 * 2 ^ k := by rw [pow_succ, mul_comm]
  have hnat : ((2 : Nat) ^ k : Int) = 2 ^ k := by push_cast; rfl
  have hnatSucc : (2 : Nat) ^ (k + 1) = 2 * 2 ^ k := by rw [pow_succ, mul_comm]
  refine ⟨?_, by omega⟩
  by_cases hneg : n < 0
  · have hmod : n % 2 ^ (k + 1) = n + 2 ^ (k + 1) := by
      rw [← Int.add_emod_right, Int.emod_eq_of_lt (by omega) (by omega)]
    rw [hmod, xor_topBit (by omega), if_neg (by omega)]
    omega
  · rw [Int.emod_eq_of_lt (by omega) (by omega), xor_topBit (by omega), if_pos (by omega)]
    omega

theorem xor_allOnes {n : Nat} (h : n < 2 ^ k) : n ^^^ (2 ^ k - 1) = 2 ^ k - 1 - n := by
  have hnot := congrArg BitVec.toNat (BitVec.xor_allOnes (x := BitVec.ofNat k n))
  rwa [BitVec.toNat_xor, BitVec.toNat_not, BitVec.toNat_allOnes, BitVec.toNat_ofNat,
    Nat.mod_eq_of_lt h] at hnot

theorem orderedBits_eq (h : SignedBits 63 n) :
    (orderedBits n : Int) = (if 0 ≤ n then n + 2 ^ 63 else -n - 1) ∧ orderedBits n < 256 ^ 8 := by
  obtain ⟨hlo, hhi⟩ := h
  rw [orderedBits]
  split
  · omega
  · rw [xor_allOnes (by omega)]
    omega

end Numbers

/-! ### Escaped bytes -/

section Escapes

/-- The place of a byte among the escaped ones. -/
def escapeRank (b : UInt8) : Nat := if b = 0x00 then 255 else if b = 0xFF then 256 else b.toNat

variable {x y : UInt8}

theorem escapeRank_inj (h : escapeRank x = escapeRank y) : x = y := by
  have hx := x.toNat_lt
  have hy := y.toNat_lt
  rw [← UInt8.toNat_inj]
  simp only [escapeRank, ← UInt8.toNat_inj, UInt8.reduceToNat] at h
  split_ifs at h <;> omega

theorem compare_escapeRank_eq (h : x ≠ y) :
    compare (escapeRank x) (escapeRank y) = compare x y ↔ ¬ EscapedOutOfOrder x y := by
  have hx := x.toNat_lt
  have hy := y.toNat_lt
  rw [← UInt8.toNat_inj.ne] at h
  simp only [escapeRank, EscapedOutOfOrder, ne_eq, ← UInt8.toNat_inj, UInt8.reduceToNat]
  rcases Nat.lt_or_gt_of_ne h with hlt | hgt
  · rw [Std.compare_eq_lt.2 (UInt8.lt_iff_toNat_lt.2 hlt), Nat.compare_eq_lt]
    split_ifs <;> omega
  · rw [Std.compare_eq_gt.2 (UInt8.lt_iff_toNat_lt.2 hgt), Nat.compare_eq_gt]
    split_ifs <;> omega

/-- Escaping keeps the order of unequal bytes. -/
theorem before_escapeByte (h : escapeRank x < escapeRank y) (s t : Bytes) :
    Before (1 : UInt8) (escapeByte x ++ s) (escapeByte y ++ t) := by
  have hplain : ∀ {b : UInt8}, b ≠ 0 → b ≠ 0xFF → escapeByte b = [b] ∧ escapeRank b < 255 := by
    intro b h0 hff
    have hlt := b.toNat_lt
    have hne : b.toNat ≠ 255 := fun heq => hff (UInt8.toNat_inj.1 heq)
    refine ⟨by rw [escapeByte, if_neg h0, if_neg hff], ?_⟩
    rw [escapeRank, if_neg h0, if_neg hff]
    omega
  by_cases hx0 : x = 0
  · subst hx0
    by_cases hyf : y = 0xFF
    · subst hyf
      exact .cons _ (.differ (by decide) s t)
    · by_cases hy0 : y = 0
      · rw [hy0] at h
        exact absurd h (lt_irrefl _)
      · exact absurd h (hplain hy0 hyf).2.le.not_gt
  · by_cases hxf : x = 0xFF
    · subst hxf
      have hy : escapeRank y ≤ 256 := by
        have hlt := y.toNat_lt
        unfold escapeRank
        split_ifs <;> omega
      exact absurd h hy.not_gt
    · rw [(hplain hx0 hxf).1]
      by_cases hy : y = 0 ∨ y = 0xFF
      · obtain ⟨z, hz⟩ : ∃ z, escapeByte y = [0xFF, z] := by
          rcases hy with rfl | rfl
          · exact ⟨0, rfl⟩
          · exact ⟨0xFF, rfl⟩
        rw [hz]
        refine .differ (Std.compare_eq_lt.2 (UInt8.lt_iff_toNat_lt.2 ?_)) s (z :: t)
        have hlt := x.toNat_lt
        have hne : x.toNat ≠ 255 := fun heq => hxf (UInt8.toNat_inj.1 heq)
        change x.toNat < 255
        omega
      · push Not at hy
        rw [(hplain hy.1 hy.2).1]
        refine .differ (Std.compare_eq_lt.2 (UInt8.lt_iff_toNat_lt.2 ?_)) s t
        rwa [escapeRank, if_neg hx0, if_neg hxf, escapeRank, if_neg hy.1, if_neg hy.2] at h

theorem escapedBytes_head (bytes : Bytes) :
    ∃ b rest, escapedBytes bytes = b :: rest ∧ compare (1 : UInt8) b ≠ .gt := by
  cases bytes with
  | nil => exact ⟨1, [], rfl, by decide⟩
  | cons b bytes =>
    rw [escapedBytes, List.flatMap_cons, List.append_assoc]
    by_cases h0 : b = 0
    · subst h0
      exact ⟨0xFF, _, rfl, by decide⟩
    · by_cases hf : b = 0xFF
      · subst hf
        exact ⟨0xFF, _, rfl, by decide⟩
      · refine ⟨b, _, by rw [escapeByte, if_neg h0, if_neg hf]; rfl, ?_⟩
        rw [ne_eq, Std.compare_eq_gt, UInt8.lt_iff_toNat_lt]
        have hne : b.toNat ≠ 0 := fun heq => h0 (UInt8.toNat_inj.1 heq)
        change ¬ b.toNat < 1
        omega

theorem before_escapedBytes_cons (b : UInt8) (bytes : Bytes) :
    Before (1 : UInt8) [1] (escapedBytes (b :: bytes)) := by
  by_cases h1 : b = 1
  · subst h1
    obtain ⟨c, rest, hrest, hc⟩ := escapedBytes_head bytes
    have hcons : escapedBytes (1 :: bytes) = 1 :: escapedBytes bytes := rfl
    rw [hcons, hrest]
    exact .cons 1 (.extend hc rest)
  · obtain ⟨c, rest, hrest, hc⟩ := escapedBytes_head (b :: bytes)
    have hne : c ≠ 1 := by
      rintro rfl
      rw [escapedBytes, List.flatMap_cons, List.append_assoc, escapeByte] at hrest
      split_ifs at hrest
      · cases hrest
      · cases hrest
      · exact h1 (List.cons.inj hrest).1
    rw [hrest]
    refine .differ ?_ [] rest
    cases hcmp : compare (1 : UInt8) c with
    | lt => rfl
    | eq => exact absurd (Std.LawfulEqOrd.eq_of_compare hcmp).symm hne
    | gt => exact absurd hcmp hc

/-- Escaped texts compare as texts. -/
theorem decides_escapedBytes (s t : Bytes) :
    Decides (1 : UInt8) (List.compareLex (compareOn escapeRank) s t) (escapedBytes s)
      (escapedBytes t) := by
  induction s generalizing t with
  | nil =>
    cases t with
    | nil => exact rfl
    | cons y t => exact before_escapedBytes_cons y t
  | cons x s ih =>
    cases t with
    | nil => exact before_escapedBytes_cons x s
    | cons y t =>
      rw [List.compareLex_cons_cons]
      have hcons : ∀ (b : UInt8) (rest : Bytes),
          escapedBytes (b :: rest) = escapeByte b ++ escapedBytes rest := fun b rest => by
        rw [escapedBytes, List.flatMap_cons, List.append_assoc, escapedBytes]
      rw [hcons, hcons]
      cases hcmp : compareOn escapeRank x y with
      | lt => exact before_escapeByte (Nat.compare_eq_lt.1 hcmp) _ _
      | eq =>
        obtain rfl := escapeRank_inj (Nat.compare_eq_eq.1 hcmp)
        exact (ih t).front _
      | gt => exact before_escapeByte (Nat.compare_eq_gt.1 hcmp) _ _

end Escapes

/-! ### The order of the encodings -/

section Encodings

variable {config : EncoderConfig}

/-- How the encodings of two values of a type compare. -/
def encodedOrdering : Value → Value → Ordering
  | .bigInt n, .bigInt m => compare (orderedBits n) (orderedBits m)
  | .timestamp n, .timestamp m => compare (orderedBits n) (orderedBits m)
  | .text s, .text t => List.compareLex (compareOn escapeRank) s t
  | .blob s, .blob t => List.compareLex (compareOn escapeRank) s t
  | v, w => (compareValues v w).getD .eq

theorem decides_beBytes (b : UInt8) {n m : Nat} (hn : n < 256 ^ k) (hm : m < 256 ^ k) :
    Decides (1 : UInt8) (compare n m) (b :: beBytes k n) (b :: beBytes k m) := by
  rw [← compare_beBytes hn hm]
  exact Decides.front [b] (decides_of_length_eq 1 (by rw [length_beBytes, length_beBytes]))

variable {m : Int}

theorem compare_shift {c : Int} (hn : 0 ≤ n + c) (hm : 0 ≤ m + c) :
    compare (n + c).toNat (m + c).toNat = compare n m := by
  rcases lt_trichotomy n m with h | rfl | h
  · rw [compare_lt_iff_lt.2 h, Nat.compare_eq_lt]
    omega
  · rw [Std.ReflOrd.compare_self, Std.ReflOrd.compare_self]
  · rw [compare_gt_iff_gt.2 h, Nat.compare_eq_gt]
    omega

theorem decides_signed (b : UInt8) (j : Nat) (hk : 2 ^ (k + 1) = 256 ^ j) (hn : SignedBits k n)
    (hm : SignedBits k m) :
    Decides (1 : UInt8) (compare n m) (b :: beBytes j ((n + 2 ^ k).toNat))
      (b :: beBytes j ((m + 2 ^ k).toNat)) := by
  have h := decides_beBytes b (hk ▸ (flipSign hn).2) (hk ▸ (flipSign hm).2)
  rwa [compare_shift (by have := hn.1; omega) (by have := hm.1; omega)] at h

theorem intBytes_shift {j : Nat} (hk : 2 ^ (k + 1) = 256 ^ j) (hn : SignedBits k n) :
    intBytes j (n + 2 ^ k) = beBytes j (n + 2 ^ k).toNat := by
  have hlt := (flipSign hn).2
  have hpos := hn.1
  have hcast : (256 : Int) ^ j = ((2 ^ (k + 1) : Nat) : Int) := by
    rw [hk]
    push_cast
    rfl
  rw [intBytes, hcast, Int.emod_eq_of_lt (by omega) (by omega)]

variable (config) in
/-- The encodings of two values of a type are decided, whatever stands behind them. -/
theorem ScalarType.Holds.decides {t : ScalarType} (hv : t.Holds v) (hw : t.Holds w) :
    ∃ xs ys, encodeValue config v = .ok xs ∧ encodeValue config w = .ok ys ∧ xs ≠ [] ∧ ys ≠ [] ∧
      Decides (1 : UInt8) (encodedOrdering v w) xs ys := by
  cases hv with
  | @tinyInt n hn =>
    cases hw with | @tinyInt m hm =>
    refine ⟨encodeTinyInt n, encodeTinyInt m, rfl, rfl, List.cons_ne_nil _ _, List.cons_ne_nil _ _, ?_⟩
    have h := decides_signed TypePrefix.tinyInt 1 rfl hn hm
    rwa [← intBytes_shift rfl hn, ← intBytes_shift rfl hm] at h
  | @smallInt n hn =>
    cases hw with | @smallInt m hm =>
    refine ⟨encodeSmallInt n, encodeSmallInt m, rfl, rfl, List.cons_ne_nil _ _,
      List.cons_ne_nil _ _, ?_⟩
    have h := decides_signed TypePrefix.smallInt 2 rfl hn hm
    rwa [← intBytes_shift rfl hn, ← intBytes_shift rfl hm] at h
  | @int n hn =>
    cases hw with | @int m hm =>
    refine ⟨encodeInt n, encodeInt m, rfl, rfl, List.cons_ne_nil _ _, List.cons_ne_nil _ _, ?_⟩
    have h := decides_signed TypePrefix.integer 4 rfl hn hm
    rwa [← (flipSign hn).1, ← (flipSign hm).1] at h
  | @bigInt n hn =>
    cases hw with | @bigInt m hm =>
    exact ⟨encodeBigInt n, encodeBigInt m, rfl, rfl, List.cons_ne_nil _ _, List.cons_ne_nil _ _,
      decides_beBytes _ (orderedBits_eq hn).2 (orderedBits_eq hm).2⟩
  | @timestamp n hn =>
    cases hw with | @timestamp m hm =>
    exact ⟨encodeTimestamp n, encodeTimestamp m, rfl, rfl, List.cons_ne_nil _ _,
      List.cons_ne_nil _ _, decides_beBytes _ (orderedBits_eq hn).2 (orderedBits_eq hm).2⟩
  | @text a ha =>
    cases hw with | @text b hb =>
    exact ⟨encodeText a, encodeText b, if_pos ha, if_pos hb, List.cons_ne_nil _ _,
      List.cons_ne_nil _ _, (decides_escapedBytes a b).front [TypePrefix.text]⟩
  | blob a =>
    cases hw with | blob b =>
    exact ⟨encodeBlob a, encodeBlob b, rfl, rfl, List.cons_ne_nil _ _, List.cons_ne_nil _ _,
      (decides_escapedBytes a b).front [TypePrefix.blob]⟩
  | boolean a =>
    cases hw with | boolean b =>
    refine ⟨encodeBoolean a, encodeBoolean b, rfl, rfl, List.cons_ne_nil _ _, List.cons_ne_nil _ _, ?_⟩
    cases a <;> cases b
    · exact rfl
    · exact Before.differ (by decide) [] []
    · exact Before.differ (by decide) [] []
    · exact rfl
  | @uuid a ha =>
    cases hw with | @uuid b hb =>
    exact ⟨encodeUuidBytes a, encodeUuidBytes b, rfl, rfl, List.cons_ne_nil _ _,
      List.cons_ne_nil _ _, (decides_of_length_eq 1 (ha.trans hb.symm)).front [TypePrefix.uuid]⟩

/-- The order of two values of a type. -/
def valueOrdering (v w : Value) : Ordering := (compareValues v w).getD .eq

theorem compareLex_escapeRank {s t : Bytes} :
    (List.compareLex (compareOn escapeRank) s t = .eq ↔ s = t) ∧
      (List.compareLex (compareOn escapeRank) s t = compare s t ↔
        ¬ ∃ x y, FirstDifference s t x y ∧ EscapedOutOfOrder x y) := by
  have hrank : EqualAt (compareOn escapeRank) s t := fun _ x y _ _ =>
    ⟨fun h => escapeRank_inj (Nat.compare_eq_eq.1 h), fun h => by
      rw [h]
      exact Std.ReflOrd.compare_self⟩
  have hbyte : EqualAt compare s t := fun _ x y _ _ => Std.LawfulEqOrd.compare_eq_iff_eq
  refine ⟨compareLex_eq_eq hrank, (compareLex_eq_iff hrank hbyte).trans ?_⟩
  push Not
  refine forall_congr' fun x => forall_congr' fun y => ?_
  exact forall_congr' fun hdiff => compare_escapeRank_eq hdiff.1

theorem orderedBits_ordering (hn : SignedBits 63 n) (hm : SignedBits 63 m) :
    (compare (orderedBits n) (orderedBits m) = .eq ↔ n = m) ∧
      (compare (orderedBits n) (orderedBits m) = compare n m ↔ ¬ (n < 0 ∧ m < 0 ∧ n ≠ m)) := by
  obtain ⟨hnbits, -⟩ := orderedBits_eq hn
  obtain ⟨hmbits, -⟩ := orderedBits_eq hm
  obtain ⟨hnlo, hnhi⟩ := hn
  obtain ⟨hmlo, hmhi⟩ := hm
  refine ⟨?_, ?_⟩
  · rw [Nat.compare_eq_eq]
    split_ifs at hnbits hmbits <;> omega
  · rcases lt_trichotomy n m with h | rfl | h
    · rw [compare_lt_iff_lt.2 h, Nat.compare_eq_lt]
      split_ifs at hnbits hmbits <;> omega
    · rw [Std.ReflOrd.compare_self, Std.ReflOrd.compare_self]
      exact iff_of_true rfl fun hno => hno.2.2 rfl
    · rw [compare_gt_iff_gt.2 h, Nat.compare_eq_gt]
      split_ifs at hnbits hmbits <;> omega

/-- Both orders are equal on equal values only, and the encodings' is the values' unless they are
    misordered. -/
theorem ScalarType.Holds.ordering {t : ScalarType} (hv : t.Holds v) (hw : t.Holds w) :
    compareValues v w = some (valueOrdering v w) ∧ (valueOrdering v w = .eq ↔ v = w) ∧
      (encodedOrdering v w = .eq ↔ v = w) ∧
      (encodedOrdering v w = valueOrdering v w ↔ ¬ Misordered v w) := by
  cases hv with
  | @tinyInt n hn =>
    cases hw with | @tinyInt m hm =>
    refine ⟨rfl, ?_, ?_, iff_of_true rfl not_false⟩
    · exact compare_eq_iff_eq.trans (by rw [Value.tinyInt.injEq])
    · exact compare_eq_iff_eq.trans (by rw [Value.tinyInt.injEq])
  | @smallInt n hn =>
    cases hw with | @smallInt m hm =>
    refine ⟨rfl, ?_, ?_, iff_of_true rfl not_false⟩
    · exact compare_eq_iff_eq.trans (by rw [Value.smallInt.injEq])
    · exact compare_eq_iff_eq.trans (by rw [Value.smallInt.injEq])
  | @int n hn =>
    cases hw with | @int m hm =>
    refine ⟨rfl, ?_, ?_, iff_of_true rfl not_false⟩
    · exact compare_eq_iff_eq.trans (by rw [Value.integer.injEq])
    · exact compare_eq_iff_eq.trans (by rw [Value.integer.injEq])
  | @bigInt n hn =>
    cases hw with | @bigInt m hm =>
    obtain ⟨heq, hordering⟩ := orderedBits_ordering hn hm
    refine ⟨rfl, ?_, ?_, hordering⟩
    · exact compare_eq_iff_eq.trans (by rw [Value.bigInt.injEq])
    · exact heq.trans (by rw [Value.bigInt.injEq])
  | @timestamp n hn =>
    cases hw with | @timestamp m hm =>
    obtain ⟨heq, hordering⟩ := orderedBits_ordering hn hm
    refine ⟨rfl, ?_, ?_, hordering⟩
    · exact compare_eq_iff_eq.trans (by rw [Value.timestamp.injEq])
    · exact heq.trans (by rw [Value.timestamp.injEq])
  | @text a ha =>
    cases hw with | @text b hb =>
    obtain ⟨heq, hordering⟩ := @compareLex_escapeRank a b
    refine ⟨rfl, ?_, ?_, hordering⟩
    · exact Std.LawfulEqOrd.compare_eq_iff_eq.trans (by rw [Value.text.injEq])
    · exact heq.trans (by rw [Value.text.injEq])
  | blob a =>
    cases hw with | blob b =>
    obtain ⟨heq, hordering⟩ := @compareLex_escapeRank a b
    refine ⟨rfl, ?_, ?_, hordering⟩
    · exact Std.LawfulEqOrd.compare_eq_iff_eq.trans (by rw [Value.blob.injEq])
    · exact heq.trans (by rw [Value.blob.injEq])
  | boolean a =>
    cases hw with | boolean b =>
    refine ⟨rfl, ?_, ?_, iff_of_true rfl not_false⟩
    · exact Std.LawfulEqOrd.compare_eq_iff_eq.trans (by rw [Value.boolean.injEq])
    · exact Std.LawfulEqOrd.compare_eq_iff_eq.trans (by rw [Value.boolean.injEq])
  | @uuid a ha =>
    cases hw with | @uuid b hb =>
    refine ⟨rfl, ?_, ?_, iff_of_true rfl not_false⟩
    · exact Std.LawfulEqOrd.compare_eq_iff_eq.trans (by rw [Value.uuid.injEq])
    · exact Std.LawfulEqOrd.compare_eq_iff_eq.trans (by rw [Value.uuid.injEq])

end Encodings

/-! ### Composite keys -/

section Composite

variable {config : EncoderConfig}

/-- The values of the columns in front. -/
def KeyOf : List ScalarType → List Value → Prop
  | _, [] => True
  | [], _ :: _ => False
  | t :: types, v :: vs => t.Holds v ∧ KeyOf types vs

variable {types : List ScalarType} {vs ws : List Value}

theorem KeyOf.shared (hv : KeyOf types vs) (hw : KeyOf types ws) (i : Nat) (hvi : vs[i]? = some v)
    (hwi : ws[i]? = some w) : ∃ t : ScalarType, t.Holds v ∧ t.Holds w := by
  induction types generalizing vs ws i with
  | nil =>
    cases vs with
    | nil => cases hvi
    | cons => exact hv.elim
  | cons t types ih =>
    cases vs with
    | nil => cases hvi
    | cons v' vs =>
      cases ws with
      | nil => cases hwi
      | cons w' ws =>
        cases i with
        | zero =>
          cases hvi
          cases hwi
          exact ⟨t, hv.1, hw.1⟩
        | succ i => exact ih hv.2 hw.2 i hvi hwi

theorem encodeElements_cons_eq_ok {d : Nat} {parts : List Bytes} :
    encodeElements config (v :: vs) d = .ok parts ↔
      ∃ x xs, encodeValueWithDepth config v d = .ok x ∧ encodeElements config vs d = .ok xs ∧
        parts = x :: xs := by
  rw [encodeElements, bind_eq_ok]
  constructor
  · rintro ⟨x, hx, h⟩
    rw [bind_eq_ok] at h
    obtain ⟨xs, hxs, h⟩ := h
    cases h
    exact ⟨x, xs, hx, hxs, rfl⟩
  · rintro ⟨x, xs, hx, hxs, rfl⟩
    exact ⟨x, hx, bind_eq_ok.2 ⟨xs, hxs, rfl⟩⟩

theorem encodeElements_ok {types : List ScalarType} {vs : List Value} (hv : KeyOf types vs) :
    ∃ xs, encodeElements config vs 0 = .ok xs ∧ ∀ x ∈ xs, x ≠ [] := by
  induction types generalizing vs with
  | nil =>
    cases vs with
    | nil => exact ⟨[], rfl, fun x hx => (nomatch hx)⟩
    | cons => exact hv.elim
  | cons t types ih =>
    cases vs with
    | nil => exact ⟨[], rfl, fun x hx => (nomatch hx)⟩
    | cons v vs =>
      obtain ⟨xs, hxs, hne⟩ := ih hv.2
      obtain ⟨x, -, hx, -, hxne, -, -⟩ := hv.1.decides config hv.1
      refine ⟨x :: xs, encodeElements_cons_eq_ok.2 ⟨x, xs, hx, hxs, rfl⟩, ?_⟩
      rintro y (_ | ⟨_, hy⟩)
      · exact hxne
      · exact hne y hy

/-- Every part behind a separator. -/
def behindSeparators (parts : List Bytes) : Bytes := parts.flatMap (TypePrefix.separator :: ·)

theorem intercalate_cons (x : Bytes) (xs : List Bytes) :
    [TypePrefix.separator].intercalate (x :: xs) = x ++ behindSeparators xs := by
  induction xs generalizing x with
  | nil => simp [List.intercalate, behindSeparators]
  | cons y ys ih =>
    have hstep : [TypePrefix.separator].intercalate (x :: y :: ys) =
        x ++ TypePrefix.separator :: [TypePrefix.separator].intercalate (y :: ys) := by
      simp [List.intercalate]
    rw [hstep, ih]
    rfl

theorem startsBelow_behindSeparators (parts : List Bytes) :
    StartsBelow 1 (behindSeparators parts) := by
  cases parts with
  | nil => exact startsBelow_nil 1
  | cons x xs => exact startsBelow_cons (by decide) _

/-- Keys compare as their columns do. -/
theorem compare_behindSeparators (hv : KeyOf types vs) (hw : KeyOf types ws) {xs ys : List Bytes}
    (hxs : encodeElements config vs 0 = .ok xs) (hys : encodeElements config ws 0 = .ok ys) :
    compare (behindSeparators xs) (behindSeparators ys) = List.compareLex encodedOrdering vs ws := by
  induction vs generalizing types ws xs ys with
  | nil =>
    cases hxs
    cases ws with
    | nil =>
      cases hys
      rfl
    | cons w ws =>
      obtain ⟨y, ys, -, -, rfl⟩ := encodeElements_cons_eq_ok.1 hys
      rfl
  | cons v vs ih =>
    obtain ⟨x, rest, hx, hrest, rfl⟩ := encodeElements_cons_eq_ok.1 hxs
    cases ws with
    | nil =>
      cases hys
      rfl
    | cons w ws =>
      obtain ⟨y, rest', hy, hrest', rfl⟩ := encodeElements_cons_eq_ok.1 hys
      cases types with
      | nil => exact hv.elim
      | cons t types =>
        obtain ⟨x', y', hx', hy', -, -, hdecides⟩ := hv.1.decides config hw.1
        obtain rfl : x = x' := Except.ok.inj (hx.symm.trans hx')
        obtain rfl : y = y' := Except.ok.inj (hy.symm.trans hy')
        have happend := hdecides.compare_append (startsBelow_behindSeparators rest)
          (startsBelow_behindSeparators rest')
        rw [ih hv.2 hw.2 hrest hrest'] at happend
        rw [List.compareLex_cons_cons, ← happend, behindSeparators, List.flatMap_cons,
          behindSeparators, List.flatMap_cons, List.cons_append, List.cons_append,
          List.compare_cons_cons, Std.ReflOrd.compare_self]
        rfl

theorem compare_intercalate {xs ys : List Bytes} (hxs : ∀ x ∈ xs, x ≠ []) (hys : ∀ y ∈ ys, y ≠ []) :
    compare ([TypePrefix.separator].intercalate xs) ([TypePrefix.separator].intercalate ys) =
      compare (behindSeparators xs) (behindSeparators ys) := by
  cases xs with
  | nil =>
    cases ys with
    | nil => rfl
    | cons y ys =>
      obtain ⟨b, y, rfl⟩ := List.exists_cons_of_ne_nil (hys y List.mem_cons_self)
      rw [intercalate_cons]
      rfl
  | cons x xs =>
    cases ys with
    | nil =>
      obtain ⟨b, x, rfl⟩ := List.exists_cons_of_ne_nil (hxs x List.mem_cons_self)
      rw [intercalate_cons]
      rfl
    | cons y ys =>
      rw [intercalate_cons, intercalate_cons, behindSeparators, behindSeparators, behindSeparators,
        behindSeparators, List.flatMap_cons, List.flatMap_cons, List.cons_append, List.cons_append,
        List.compare_cons_cons, Std.ReflOrd.compare_self]
      rfl

/-- The order of keys is that of their components one after the other. -/
theorem compareElements_typed (hv : KeyOf types vs) (hw : KeyOf types ws) :
    compareElements vs ws = some (List.compareLex valueOrdering vs ws) := by
  induction vs generalizing types ws with
  | nil => cases ws <;> rfl
  | cons v vs ih =>
    cases ws with
    | nil => rfl
    | cons w ws =>
      cases types with
      | nil => exact hv.elim
      | cons t types =>
        rw [compareElements, (hv.1.ordering hw.1).1, List.compareLex_cons_cons]
        cases valueOrdering v w with
        | lt => rfl
        | eq => exact ih hv.2 hw.2
        | gt => rfl

/-- Values of one type are encoded in order unless they are misordered, and keys unless their first
    components that differ are. -/
theorem byteComparable_iff (config : EncoderConfig) :
    (∀ (t : ScalarType) (v w : Value), t.Holds v → t.Holds w →
      (EncodesInOrder config v w ↔ ¬ Misordered v w)) ∧
    ∀ (types : List ScalarType) (vs ws : List Value), KeyOf types vs → KeyOf types ws →
      (KeysInOrder config vs ws ↔ ∀ v w, FirstDifference vs ws v w → ¬ Misordered v w) := by
  refine ⟨?_, ?_⟩
  · intro t v w hv hw
    obtain ⟨xs, ys, hxs, hys, -, -, hdecides⟩ := hv.decides config hw
    obtain ⟨hcompare, -, heq, hordering⟩ := hv.ordering hw
    have hdistinct : v ≠ w → xs ≠ ys := by
      rintro hne rfl
      exact hne (heq.1 (hdecides.compare_eq.symm.trans Std.ReflOrd.compare_self))
    rw [← hordering, ← hdecides.compare_eq]
    constructor
    · rintro ⟨xs', ys', hxs', hys', horder, -⟩
      rw [hxs] at hxs'
      rw [hys] at hys'
      cases hxs'
      cases hys'
      exact Option.some.inj (horder.trans hcompare)
    · exact fun h => ⟨xs, ys, hxs, hys, by rw [h, hcompare], hdistinct⟩
  · intro types vs ws hv hw
    obtain ⟨xs, hxs, hxsne⟩ := @encodeElements_ok config _ _ hv
    obtain ⟨ys, hys, hysne⟩ := @encodeElements_ok config _ _ hw
    have hencoded : EqualAt encodedOrdering vs ws := fun i v w hvi hwi => by
      obtain ⟨t, htv, htw⟩ := hv.shared hw i hvi hwi
      exact (htv.ordering htw).2.2.1
    have hvalues : EqualAt valueOrdering vs ws := fun i v w hvi hwi => by
      obtain ⟨t, htv, htw⟩ := hv.shared hw i hvi hwi
      exact (htv.ordering htw).2.1
    have hcompare := (compare_intercalate hxsne hysne).trans (compare_behindSeparators hv hw hxs hys)
    have hfirst : (∀ v w, FirstDifference vs ws v w → encodedOrdering v w = valueOrdering v w) ↔
        ∀ v w, FirstDifference vs ws v w → ¬ Misordered v w := by
      refine forall_congr' fun v => forall_congr' fun w => forall_congr' fun hdiff => ?_
      obtain ⟨-, front, vs', ws', hvs, hws⟩ := hdiff
      have hat : ∀ (u : Value) rest, (front ++ u :: rest)[front.length]? = some u := fun u rest => by
        rw [List.getElem?_append_right le_rfl, Nat.sub_self, List.getElem?_cons_zero]
      obtain ⟨t, htv, htw⟩ := hv.shared hw front.length (by rw [hvs, hat]) (by rw [hws, hat])
      exact (htv.ordering htw).2.2.2
    rw [← hfirst, ← compareLex_eq_iff hencoded hvalues, ← hcompare]
    constructor
    · rintro ⟨xs', ys', hxs', hys', horder, -⟩
      rw [encodeCompositeKey, hxs] at hxs'
      rw [encodeCompositeKey, hys] at hys'
      cases hxs'
      cases hys'
      exact Option.some.inj (horder.trans (compareElements_typed hv hw))
    · intro h
      refine ⟨[TypePrefix.separator].intercalate xs, [TypePrefix.separator].intercalate ys,
        by rw [encodeCompositeKey, hxs]; rfl, by rw [encodeCompositeKey, hys]; rfl, ?_, ?_⟩
      · rw [compareElements_typed hv hw, ← h]
      · intro hne heq
        refine hne ((compareLex_eq_eq hencoded).1 ?_)
        rw [← hcompare, heq]
        exact Std.ReflOrd.compare_self

/-- Of two negative bigints the greater has the lesser bytes. -/
theorem bigInt_negative_reversed :
    ¬ EncodesInOrder EncoderConfig.default (.bigInt (-2)) (.bigInt (-1)) := by
  rintro ⟨xs, ys, hxs, hys, horder, -⟩
  cases hxs
  cases hys
  revert horder
  decide

end Composite

end Cqlite
