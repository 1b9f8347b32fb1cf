import Cqlite.Reader.SummaryRoundTrip
import Mathlib.Data.Nat.Bitwise

/-! The Bloom filter of a table (`bloom.rs`).

    The two hash words of a key are a parameter, the words of the bit array numbers below `2^64`, and
    `none` is a panic of an operation on machine integers. The target false positive rate and the
    expected number of elements play no part in a lookup and are left out. -/

namespace Cqlite

open VInt Checked

/-! ### Machine integers -/

/-- `abs_i64`. -/
def absI64 (v : BitVec 64) : BitVec 64 :=
  let negbit := v.sshiftRight 63
  (v ^^^ negbit) - negbit

/-- `%` on `i64`: division by zero and `i64::MIN % -1` panic. -/
def remI64 (a b : BitVec 64) : Option (BitVec 64) :=
  if b = 0 ∨ a = BitVec.intMin 64 ∧ b = BitVec.allOnes 64 then none else some (a.srem b)

theorem toNat_absI64 (v : BitVec 64) : (absI64 v).toNat = v.toInt.natAbs := by
  have hlt := v.isLt
  rw [absI64]
  cases hmsb : v.msb with
  | false =>
    have hsmall := BitVec.msb_eq_false_iff_two_mul_lt.1 hmsb
    have hneg : v.sshiftRight 63 = 0 := by
      rw [BitVec.sshiftRight_eq_of_msb_false hmsb]
      refine BitVec.eq_of_toNat_eq ?_
      rw [BitVec.toNat_ushiftRight, Nat.shiftRight_eq_div_pow]
      exact Nat.div_eq_of_lt (by omega)
    rw [hneg, BitVec.toInt_eq_toNat_of_msb hmsb]
    simp
  | true =>
    have hbig := BitVec.msb_eq_true_iff_two_mul_ge.1 hmsb
    have hneg : v.sshiftRight 63 = BitVec.allOnes 64 := by
      have hzero : ~~~v >>> 63 = 0#64 := by
        refine BitVec.eq_of_toNat_eq ?_
        rw [BitVec.toNat_ushiftRight, BitVec.toNat_not, Nat.shiftRight_eq_div_pow]
        exact Nat.div_eq_of_lt (by omega)
      rw [BitVec.sshiftRight_eq_of_msb_true hmsb, hzero]
      rfl
    rw [hneg, BitVec.xor_allOnes, BitVec.toInt_eq_toNat_cond, if_neg (by omega), BitVec.toNat_sub,
      BitVec.toNat_not, BitVec.toNat_allOnes]
    omega

/-! ### Insertion and lookup -/

/-- The hash words `h1` and `h2` of a key. -/
abbrev Hashes := Bytes → BitVec 64 × BitVec 64

section Filter

variable (hashes : Hashes)

/-- The bit a round of the loop goes to. -/
def bitIndex (max base : BitVec 64) : Option Nat :=
  (remI64 base max).map fun r => (absI64 r).toNat

/-- The loop of `insert`. -/
def insertLoop (max inc : BitVec 64) : Nat → BitVec 64 → List Nat → Option (List Nat)
  | 0, _, bits => some bits
  | rounds + 1, base, bits => do
    let bit ← bitIndex max base
    let wordIndex := bit / 64
    let bitOffset := bit % 64
    let bits := if wordIndex < bits.length then bits.modify wordIndex (· ||| 1 <<< bitOffset) else bits
    insertLoop max inc rounds (base + inc) bits

/-- The loop of `contains`. -/
def containsLoop (max inc : BitVec 64) (bits : List Nat) : Nat → BitVec 64 → Option Bool
  | 0, _ => some true
  | rounds + 1, base => do
    let bit ← bitIndex max base
    match bits[bit / 64]? with
    | none => some false
    | some word =>
      if word &&& 1 <<< (bit % 64) = 0 then some false
      else containsLoop max inc bits rounds (base + inc)

def BloomFilter.insert (f : BloomFilter) (key : Bytes) : Option BloomFilter :=
  let (h1, h2) := hashes key
  let max := BitVec.ofNat 64 f.bitCount
  (insertLoop max h1 f.hashCount h2 f.bits).map fun bits => { f with bits }

/-- Whether every bit of the key is set. -/
def BloomFilter.contains (f : BloomFilter) (key : Bytes) : Option Bool :=
  let (h1, h2) := hashes key
  let max := BitVec.ofNat 64 f.bitCount
  containsLoop max h1 f.bits f.hashCount h2

/-- One key after the other. -/
def BloomFilter.insertAll : BloomFilter → List Bytes → Option BloomFilter
  | f, [] => some f
  | f, key :: keys => (f.insert hashes key).bind fun g => g.insertAll keys

end Filter

def BloomFilter.serialize (f : BloomFilter) : Bytes :=
  beBytes 4 f.hashCount ++ beBytes 4 f.bits.length ++ f.bits.flatMap leBytes64

/-! ### The set of bits -/

/-- At least one word of 64 bits, a bit for every index below the bit count, and a hash count that a
    reader accepts. -/
structure BloomFilter.Shaped (f : BloomFilter) : Prop where
  words : 0 < f.bits.length
  wordSize : ∀ w ∈ f.bits, w < 2 ^ 64
  bitCount : f.bitCount = f.bits.length * 64
  bitCountSize : f.bitCount < 2 ^ 64
  hashCount : 1 ≤ f.hashCount ∧ f.hashCount ≤ 1024

/-- The bits that are set in an array of words. -/
def bitSet (bits : List Nat) : Set Nat := {i | ∃ w, bits[i / 64]? = some w ∧ w.testBit (i % 64) = true}

/-- The bits a key goes to. -/
def probes (bitCount : Nat) (inc : BitVec 64) : Nat → BitVec 64 → List Nat
  | 0, _ => []
  | rounds + 1, base =>
    (base.srem (BitVec.ofNat 64 bitCount)).toInt.natAbs :: probes bitCount inc rounds (base + inc)

def BloomFilter.probesOf (hashes : Hashes) (f : BloomFilter) (key : Bytes) : List Nat :=
  probes f.bitCount (hashes key).1 f.hashCount (hashes key).2

section Bits

variable {n : Nat}

theorem bitIndex_eq (hpos : 0 < n) (hsize : n * 64 < 2 ^ 64) (base : BitVec 64) :
    bitIndex (BitVec.ofNat 64 (n * 64)) base =
      some (base.srem (BitVec.ofNat 64 (n * 64))).toInt.natAbs := by
  have hnat : (BitVec.ofNat 64 (n * 64)).toNat = n * 64 := by
    rw [BitVec.toNat_ofNat, Nat.mod_eq_of_lt hsize]
  have hzero : BitVec.ofNat 64 (n * 64) ≠ 0 := fun h => by
    rw [h] at hnat
    simp at hnat
    omega
  have hones : BitVec.ofNat 64 (n * 64) ≠ BitVec.allOnes 64 := fun h => by
    rw [h, BitVec.toNat_allOnes] at hnat
    omega
  rw [bitIndex, remI64, if_neg (by simp only [hzero, hones, and_false, or_self, not_false_eq_true]),
    Option.map_some, toNat_absI64]

theorem natAbs_srem_lt (hpos : 0 < n) (hsize : n * 64 < 2 ^ 64) (base : BitVec 64) :
    (base.srem (BitVec.ofNat 64 (n * 64))).toInt.natAbs < n * 64 := by
  have hnat : (BitVec.ofNat 64 (n * 64)).toNat = n * 64 := by
    rw [BitVec.toNat_ofNat, Nat.mod_eq_of_lt hsize]
  have hmax : 0 < (BitVec.ofNat 64 (n * 64)).toInt.natAbs ∧
      (BitVec.ofNat 64 (n * 64)).toInt.natAbs ≤ n * 64 := by
    rw [BitVec.toInt_eq_toNat_cond, hnat]
    split <;> omega
  rw [BitVec.toInt_srem, Int.natAbs_tmod]
  exact (Nat.mod_lt _ hmax.1).trans_le hmax.2

/-- Every probe goes to a bit of the array. -/
theorem probes_lt (hpos : 0 < n) (hsize : n * 64 < 2 ^ 64) (inc : BitVec 64) (rounds : Nat)
    (base : BitVec 64) : ∀ i ∈ probes (n * 64) inc rounds base, i < n * 64 := by
  induction rounds generalizing base with
  | zero => exact nofun
  | succ rounds ih =>
    intro i hi
    rcases List.mem_cons.1 hi with rfl | hi
    · exact natAbs_srem_lt hpos hsize base
    · exact ih (base + inc) i hi

theorem mem_bitSet_modify {bits : List Nat} {bit : Nat} (hbit : bit / 64 < bits.length) (i : Nat) :
    i ∈ bitSet (bits.modify (bit / 64) (· ||| 1 <<< (bit % 64))) ↔ i = bit ∨ i ∈ bitSet bits := by
  simp only [bitSet, Set.mem_ofPred_eq, List.getElem?_modify, Option.map_eq_map]
  by_cases hword : bit / 64 = i / 64
  · rw [← hword, List.getElem?_eq_getElem hbit]
    simp only [if_pos, Option.map_some, Option.some.injEq, exists_eq_left', Nat.testBit_or,
      Bool.or_eq_true, Nat.one_shiftLeft, Nat.testBit_two_pow, decide_eq_true_eq]
    have : bit % 64 = i % 64 ↔ i = bit := by omega
    rw [this, or_comm]
  · have : i ≠ bit := fun h => hword (by rw [h])
    simp only [if_neg hword, this, false_or, Option.map_id_fun', id_eq]

/-- What one insertion sets. -/
theorem insertLoop_eq (hpos : 0 < n) (hsize : n * 64 < 2 ^ 64) (inc : BitVec 64) (rounds : Nat)
    (base : BitVec 64) {bits : List Nat} (hlen : bits.length = n) (hword : ∀ w ∈ bits, w < 2 ^ 64) :
    ∃ bits', insertLoop (BitVec.ofNat 64 (n * 64)) inc rounds base bits = some bits' ∧
      bits'.length = n ∧ (∀ w ∈ bits', w < 2 ^ 64) ∧
      bitSet bits' = {i | i ∈ probes (n * 64) inc rounds base} ∪ bitSet bits := by
  induction rounds generalizing base bits with
  | zero => exact ⟨bits, rfl, hlen, hword, by simp [probes]⟩
  | succ rounds ih =>
    obtain ⟨bit, hbit⟩ : ∃ bit, bit = (base.srem (BitVec.ofNat 64 (n * 64))).toInt.natAbs := ⟨_, rfl⟩
    have hlt : bit < n * 64 := hbit ▸ natAbs_srem_lt hpos hsize base
    have hin : bit / 64 < bits.length := by omega
    have hlen' : (bits.modify (bit / 64) (· ||| 1 <<< (bit % 64))).length = n := by simpa using hlen
    have hword' : ∀ w ∈ bits.modify (bit / 64) (· ||| 1 <<< (bit % 64)), w < 2 ^ 64 := by
      intro w hw
      obtain ⟨j, hj, rfl⟩ := List.getElem_of_mem hw
      rw [List.getElem_modify]
      split
      · refine Nat.or_lt_two_pow (hword _ (List.getElem_mem _)) ?_
        rw [Nat.one_shiftLeft]
        exact Nat.pow_lt_pow_right (by decide) (by omega)
      · exact hword _ (List.getElem_mem _)
    obtain ⟨bits', hrun, hlen'', hword'', hset⟩ := ih (base + inc) hlen' hword'
    refine ⟨bits', ?_, hlen'', hword'', ?_⟩
    · rw [insertLoop, bitIndex_eq hpos hsize, ← hbit]
      simp only [Option.bind_eq_bind, Option.bind_some, if_pos hin]
      exact hrun
    · rw [hset]
      ext i
      simp only [Set.mem_union, Set.mem_ofPred_eq, mem_bitSet_modify hin, probes, List.mem_cons, ← hbit]
      tauto

theorem containsLoop_eq (hpos : 0 < n) (hsize : n * 64 < 2 ^ 64) (inc : BitVec 64) (rounds : Nat)
    (base : BitVec 64) {bits : List Nat} (hlen : bits.length = n) :
    ∃ answer, containsLoop (BitVec.ofNat 64 (n * 64)) inc bits rounds base = some answer ∧
      (answer = true ↔ ∀ i ∈ probes (n * 64) inc rounds base, i ∈ bitSet bits) := by
  induction rounds generalizing base with
  | zero => exact ⟨true, rfl, by simp [probes]⟩
  | succ rounds ih =>
    obtain ⟨bit, hbit⟩ : ∃ bit, bit = (base.srem (BitVec.ofNat 64 (n * 64))).toInt.natAbs := ⟨_, rfl⟩
    have hlt : bit < n * 64 := hbit ▸ natAbs_srem_lt hpos hsize base
    obtain ⟨word, hword⟩ : ∃ word, bits[bit / 64]? = some word :=
      ⟨_, List.getElem?_eq_getElem (by omega)⟩
    have hset : bit ∈ bitSet bits ↔ word.testBit (bit % 64) = true := by
      simp [bitSet, hword]
    have hand : word &&& 1 <<< (bit % 64) = 0 ↔ word.testBit (bit % 64) = false := by
      rw [Nat.one_shiftLeft, Nat.and_two_pow]
      cases word.testBit (bit % 64) <;> simp
    rw [containsLoop, bitIndex_eq hpos hsize, ← hbit]
    simp only [Option.bind_eq_bind, Option.bind_some, hword, hand, probes, ← hbit,
      List.forall_mem_cons, hset]
    cases word.testBit (bit % 64) with
    | false => exact ⟨false, rfl, by simp⟩
    | true => simpa using ih (base + inc)

end Bits

/-! ### Filters -/

section Shaped

variable (hashes : Hashes) {f : BloomFilter}

theorem BloomFilter.Shaped.size (h : f.Shaped) : f.bits.length * 64 < 2 ^ 64 :=
  h.bitCount ▸ h.bitCountSize

theorem BloomFilter.Shaped.probesOf_lt (h : f.Shaped) (key : Bytes) :
    ∀ i ∈ f.probesOf hashes key, i / 64 < f.bits.length := by
  intro i hi
  rw [BloomFilter.probesOf, h.bitCount] at hi
  have := probes_lt h.words h.size _ _ _ i hi
  omega

/-- An insertion keeps the shape, hash count and bit count, and adds the bits of its key. -/
theorem BloomFilter.Shaped.insert (h : f.Shaped) (key : Bytes) :
    ∃ g, f.insert hashes key = some g ∧ g.Shaped ∧ g.bits.length = f.bits.length ∧
      (∀ k, g.probesOf hashes k = f.probesOf hashes k) ∧
      bitSet g.bits = {i | i ∈ f.probesOf hashes key} ∪ bitSet f.bits := by
  obtain ⟨bits, hrun, hlen, hword, hset⟩ := insertLoop_eq h.words h.size (hashes key).1 f.hashCount
    (hashes key).2 rfl h.wordSize
  rw [← h.bitCount] at hrun hset
  refine ⟨{ f with bits }, ?_, ⟨hlen ▸ h.words, hword, ?_, h.bitCountSize, h.hashCount⟩, hlen,
    fun _ => rfl, hset⟩
  · simp only [BloomFilter.insert, hrun, Option.map_some]
  · exact h.bitCount.trans (congrArg (· * 64) hlen.symm)

theorem BloomFilter.Shaped.contains (h : f.Shaped) (key : Bytes) :
    ∃ answer, f.contains hashes key = some answer ∧
      (answer = true ↔ ∀ i ∈ f.probesOf hashes key, i ∈ bitSet f.bits) := by
  obtain ⟨answer, hrun, hiff⟩ := containsLoop_eq h.words h.size (hashes key).1 f.hashCount
    (hashes key).2 (rfl : f.bits.length = _)
  rw [← h.bitCount] at hrun hiff
  exact ⟨answer, hrun, hiff⟩

/-- The keys whose bits are all set stay so, and every inserted key joins them. -/
theorem BloomFilter.Shaped.insertAll (h : f.Shaped) (keys : List Bytes) :
    ∃ g, f.insertAll hashes keys = some g ∧ g.Shaped ∧ g.bits.length = f.bits.length ∧
      (∀ k, g.probesOf hashes k = f.probesOf hashes k) ∧ bitSet f.bits ⊆ bitSet g.bits ∧
      ∀ key ∈ keys, ∀ i ∈ f.probesOf hashes key, i ∈ bitSet g.bits := by
  induction keys generalizing f with
  | nil => exact ⟨f, rfl, h, rfl, fun _ => rfl, subset_rfl, nofun⟩
  | cons key keys ih =>
    obtain ⟨g, hinsert, hshape, hlen, hprobes, hset⟩ := h.insert hashes key
    obtain ⟨g', hall, hshape', hlen', hprobes', hgrow, hkeys⟩ := ih hshape
    refine ⟨g', ?_, hshape', hlen'.trans hlen, fun k => (hprobes' k).trans (hprobes k), ?_, ?_⟩
    · rw [BloomFilter.insertAll, hinsert, Option.bind_some, hall]
    · exact fun i hi => hgrow (hset ▸ Or.inr hi)
    · intro k hk i hi
      rcases List.mem_cons.1 hk with rfl | hk
      · exact hgrow (hset ▸ Or.inl hi)
      · exact hkeys k hk i ((hprobes k).symm ▸ hi)

end Shaped

/-! ### On disk and back -/

theorem readI32_header {n : Nat} (hn : n < 2 ^ 31) (before after : Bytes) :
    (readI32 (before ++ (beBytes 4 n ++ after)) before.length).outcome = .ok (n : Int) := by
  have hbytes : (beBytes 4 n).length = 4 := length_beBytes 4 n
  have hwindow : ((List.range 4).mapM fun k =>
      index (before ++ (beBytes 4 n ++ after)) (before.length + k) : Run IndexError Bytes).outcome =
        .ok (beBytes 4 n) := hbytes ▸ outcome_mapM_window ..
  refine outcome_bind_ok.2 ⟨_, hwindow, ?_⟩
  have hvalue : intOfBytes (beBytes 4 n) = n := by
    rw [intOfBytes, hbytes, fromBe_beBytes, Nat.mod_eq_of_lt (by omega), if_pos (by omega)]
  rw [hvalue]
  rfl

theorem readWords_written {words : List Nat} (hsize : ∀ w ∈ words, w < 2 ^ 64) {header : Bytes}
    (hheader : header.length = 8) :
    ((List.range words.length).mapM fun i => readWord (header ++ words.flatMap leBytes64)
      (8 + i * 8)).outcome = .ok words := by
  refine outcome_mapM_ok.2 (List.forall₂_iff_get.2 ⟨List.length_range, fun i _ hi => ?_⟩)
  rw [List.get_eq_getElem, List.get_eq_getElem, List.getElem_range]
  have hlength : ∀ w, (leBytes64 w).length = 8 := fun w => by
    rw [leBytes64, List.length_reverse, length_beBytes]
  have hwhole : ∀ ws : List Nat, (ws.flatMap leBytes64).length = ws.length * 8 := fun ws => by
    rw [List.length_flatMap]
    simp [hlength]
  have hsplit : words.flatMap leBytes64 = (words.take i).flatMap leBytes64 ++
      (leBytes64 words[i] ++ (words.drop (i + 1)).flatMap leBytes64) := by
    rw [← List.flatMap_cons, ← List.flatMap_append, ← List.drop_eq_getElem_cons hi,
      List.take_append_drop]
  have hbefore : (header ++ (words.take i).flatMap leBytes64).length = 8 + i * 8 := by
    rw [List.length_append, hheader, hwhole, List.length_take, min_eq_left hi.le]
  have hwindow : ((List.range 8).mapM fun k =>
      index (header ++ words.flatMap leBytes64) (8 + i * 8 + k) : Run IndexError Bytes).outcome =
        .ok (leBytes64 words[i]) := by
    rw [hsplit, ← List.append_assoc, ← hbefore, ← hlength words[i]]
    exact outcome_mapM_window ..
  refine outcome_bind_ok.2 ⟨_, hwindow, ?_⟩
  rw [fromLeBytes_leBytes64 (hsize _ (List.getElem_mem hi))]
  rfl

theorem length_serialize (f : BloomFilter) : f.serialize.length = 8 + f.bits.length * 8 := by
  have hlength : ∀ w, (leBytes64 w).length = 8 := fun w => by
    rw [leBytes64, List.length_reverse, length_beBytes]
  rw [BloomFilter.serialize, List.length_append, List.length_append, length_beBytes, length_beBytes,
    List.length_flatMap]
  simp [hlength]

theorem deserialize_serialize {f : BloomFilter} (h : f.Shaped) (hsmall : f.bits.length < 2 ^ 31) :
    (BloomFilter.deserialize f.serialize).outcome = .ok f := by
  have hlen := length_serialize f
  have hhash := h.hashCount
  have hwords := h.words
  have hcount : (readI32 f.serialize 0).outcome = .ok (f.hashCount : Int) := by
    have := readI32_header (n := f.hashCount) (by omega) []
      (beBytes 4 f.bits.length ++ f.bits.flatMap leBytes64)
    simpa [BloomFilter.serialize] using this
  have hlongs : (readI32 f.serialize 4).outcome = .ok (f.bits.length : Int) := by
    have := readI32_header hsmall (beBytes 4 f.hashCount) (f.bits.flatMap leBytes64)
    rwa [length_beBytes, ← List.append_assoc] at this
  rw [BloomFilter.deserialize, if_neg (by omega)]
  refine outcome_bind_ok.2 ⟨_, hcount, outcome_bind_ok.2 ⟨_, hlongs, ?_⟩⟩
  rw [if_neg (by omega), if_neg (by rw [maxHashCount]; omega), if_neg (by omega), Int.toNat_natCast,
    Int.toNat_natCast, readBits]
  refine outcome_bind_ok.2 ⟨8 + f.bits.length * 8, outcome_add_ok.2 ⟨by omega, rfl⟩, ?_⟩
  rw [if_neg (by omega)]
  refine outcome_bind_ok.2 ⟨(), rfl, outcome_bind_ok.2 ⟨f.bits, ?_, ?_⟩⟩
  · exact readWords_written h.wordSize (by simp)
  · rw [outcome_pure, ← h.bitCount]

theorem small_of_deserialize {f g : BloomFilter}
    (h : (BloomFilter.deserialize f.serialize).outcome = .ok g) : f.bits.length < 2 ^ 31 := by
  have hlen := length_serialize f
  rw [BloomFilter.deserialize, if_neg (by omega)] at h
  obtain ⟨hashCount, -, h⟩ := outcome_bind_ok.1 h
  obtain ⟨numLongs, hlongs, h⟩ := outcome_bind_ok.1 h
  have hsmall := readI32_lt hlongs
  split at h
  · cases h
  split at h
  · cases h
  split at h
  · cases h
  rw [readBits] at h
  obtain ⟨size, hsize, h⟩ := outcome_bind_ok.1 h
  obtain ⟨-, rfl⟩ := outcome_add_ok.1 hsize
  split at h
  · cases h
  omega

/-- No false negatives: a key among the inserted ones is found after them and after any further ones,
    and in the filter read back from disk, which exists below `2^31` words. Every probe of every pair
    of hash words goes to a bit of the array. -/
theorem contains_of_inserted (hashes : Hashes) {f : BloomFilter} (h : f.Shaped)
    (keys more : List Bytes) :
    (∀ key, ∀ i ∈ f.probesOf hashes key, i / 64 < f.bits.length) ∧
    ∃ g g', f.insertAll hashes keys = some g ∧ g.insertAll hashes more = some g' ∧
      (∀ key ∈ keys, g.contains hashes key = some true ∧ g'.contains hashes key = some true) ∧
      (∀ r, (BloomFilter.deserialize g'.serialize).outcome = .ok r →
        ∀ key ∈ keys, r.contains hashes key = some true) ∧
      (f.bits.length < 2 ^ 31 → (BloomFilter.deserialize g'.serialize).outcome = .ok g') := by
  obtain ⟨g, hg, hshape, hlen, hprobes, -, hkeys⟩ := h.insertAll hashes keys
  obtain ⟨g', hg', hshape', hlen', hprobes', hgrow, -⟩ := hshape.insertAll hashes more
  have hfound : ∀ key ∈ keys, g.contains hashes key = some true ∧
      g'.contains hashes key = some true := by
    intro key hkey
    obtain ⟨answer, hrun, hiff⟩ := hshape.contains hashes key
    obtain ⟨answer', hrun', hiff'⟩ := hshape'.contains hashes key
    have hset : ∀ i ∈ f.probesOf hashes key, i ∈ bitSet g.bits := hkeys key hkey
    rw [hprobes key] at hiff
    rw [hprobes' key, hprobes key] at hiff'
    exact ⟨hrun.trans (congrArg some (hiff.2 hset)),
      hrun'.trans (congrArg some (hiff'.2 fun i hi => hgrow (hset i hi)))⟩
  have hback : g'.bits.length < 2 ^ 31 → (BloomFilter.deserialize g'.serialize).outcome = .ok g' :=
    deserialize_serialize hshape'
  refine ⟨fun key => h.probesOf_lt hashes key, g, g', hg, hg', hfound, fun r hr key hkey => ?_, fun hsmall => ?_⟩
  · obtain rfl : g' = r := Outcome.ok.inj ((hback (small_of_deserialize hr)).symm.trans hr)
    exact (hfound key hkey).2
  · exact hback (by rw [hlen', hlen]; exact hsmall)

/-- One word, three rounds, and hash words of which one is `i64::MIN`. -/
theorem contains_of_inserted_min :
    ∃ g g', (BloomFilter.mk [0] 3 64).insertAll (fun key => (5, BitVec.ofNat 64 (2 ^ 63 + key.length)))
        [[1], [2, 2]] = some g ∧
      g.insertAll (fun key => (5, BitVec.ofNat 64 (2 ^ 63 + key.length))) [[]] = some g' ∧
      (BloomFilter.deserialize g'.serialize).outcome = .ok g' := by
  obtain ⟨-, g, g', hg, hg', -, -, hback⟩ := contains_of_inserted
    (fun key => (5, BitVec.ofNat 64 (2 ^ 63 + key.length))) (f := BloomFilter.mk [0] 3 64)
    ⟨by decide, by decide, by decide, by decide, by decide⟩ [[1], [2, 2]] [[]]
  exact ⟨g, g', hg, hg', hback (by decide)⟩

end Cqlite
