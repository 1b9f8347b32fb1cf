import Cqlite.Types

/-! Partition tokens (`util/cassandra_murmur3.rs`, `calculate_murmur3_token` of `mutation.rs`).

    A port of the 128-bit Murmur3 hash with the sign extension of the tail bytes; `UInt64` wraps
    as `wrapping_add` and `wrapping_mul` do. -/

namespace Cqlite

namespace Murmur3

def c1 : UInt64 := 0x87c37b91114253d5

def c2 : UInt64 := 0x4cf5ad432745937f

def h1Add : UInt64 := 0x52dce729

def h2Add : UInt64 := 0x38495ab5

def fmixC1 : UInt64 := 0xff51afd7ed558ccd

def fmixC2 : UInt64 := 0xc4ceb9fe1a85ec53

def rotateLeft (x n : UInt64) : UInt64 := (x <<< n) ||| (x >>> (64 - n))

def fmix64 (value : UInt64) : UInt64 :=
  let value := value ^^^ (value >>> 33)
  let value := value * fmixC1
  let value := value ^^^ (value >>> 33)
  let value := value * fmixC2
  value ^^^ (value >>> 33)

/-- `u64::from_le_bytes`. -/
def fromLeBytes (bytes : Bytes) : UInt64 :=
  bytes.foldr (fun b acc => (acc <<< 8) ||| b.toUInt64) 0

def mixK1 (k1 : UInt64) : UInt64 := rotateLeft (k1 * c1) 31 * c2

def mixK2 (k2 : UInt64) : UInt64 := rotateLeft (k2 * c2) 33 * c1

/-- One 16-byte block of the body. -/
def mixBlock (h1 h2 : UInt64) (block : Bytes) : UInt64 × UInt64 :=
  let h1 := h1 ^^^ mixK1 (fromLeBytes (block.take 8))
  let h1 := (rotateLeft h1 27 + h2) * 5 + h1Add
  let h2 := h2 ^^^ mixK2 (fromLeBytes ((block.drop 8).take 8))
  let h2 := (rotateLeft h2 31 + h1) * 5 + h2Add
  (h1, h2)

/-- The loop over `chunks_exact(16)`, which also gives back the remainder. -/
def body : Nat → UInt64 → UInt64 → Bytes → (UInt64 × UInt64) × Bytes
  | 0, h1, h2, data => ((h1, h2), data)
  | blocks + 1, h1, h2, data =>
    let (h1, h2) := mixBlock h1 h2 (data.take 16)
    body blocks h1 h2 (data.drop 16)

/-- A byte as Java widens it: signed byte, then `long`. -/
def signed (byte : UInt8) : UInt64 := byte.toInt8.toInt64.toUInt64

/-- A run of tail bytes, each shifted to its position. -/
def tailWord (bytes : Bytes) : UInt64 :=
  (bytes.zipIdx.map fun (byte, pos) => signed byte <<< (8 * pos).toUInt64).foldl (· ^^^ ·) 0

def finalMix (h1 h2 len : UInt64) : UInt64 × UInt64 :=
  let h1 := h1 ^^^ len
  let h2 := h2 ^^^ len
  let h1 := h1 + h2
  let h2 := h2 + h1
  let h1 := fmix64 h1
  let h2 := fmix64 h2
  let h1 := h1 + h2
  (h1, h2 + h1)

end Murmur3

open Murmur3 in
def cassandraMurmur3X64128 (data : Bytes) : UInt64 × UInt64 :=
  let ((h1, h2), tail) := body (data.length / 16) 0 0 data
  -- positions 0..8 of the tail feed `k1`, the others `k2`
  let h2 := if 9 ≤ tail.length then h2 ^^^ mixK2 (tailWord (tail.drop 8)) else h2
  let h1 := if tail.isEmpty then h1 else h1 ^^^ mixK1 (tailWord (tail.take 8))
  finalMix h1 h2 data.length.toUInt64

/-- `normalize`: the smallest token is excluded from the ring. -/
def normalizeToken (h1 : Int) : Int := if h1 = i64Min then i64Max else h1

def cassandraMurmur3Token (data : Bytes) : Int :=
  normalizeToken (cassandraMurmur3X64128 data).1.toInt64.toInt

def calculateMurmur3Token (keyBytes : Bytes) : Int :=
  if keyBytes.isEmpty then i64Min else cassandraMurmur3Token keyBytes

def DecoratedKey.fromKeyBytes (keyBytes : Bytes) : DecoratedKey :=
  ⟨calculateMurmur3Token keyBytes, keyBytes⟩

end Cqlite
