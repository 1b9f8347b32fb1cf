import Cqlite.Lib.VInt
import Cqlite.Types
import Mathlib.Data.List.Nodup

/-! Cell paths of list elements (`data_writer/encoding.rs`: `generate_list_cell_path_timeuuid`;
    `data_writer/complex.rs`: `write_list_complex_cells`).

    The path of an element is a version-1 UUID made of the time of the write and the index of the
    element, which is added in units of 100 ns. One microsecond has room for ten elements. -/

namespace Cqlite

open VInt

/-! ### Generating paths -/

/-- From the UUID epoch to the Unix epoch, in units of 100 ns. -/
def uuidEpochOffset : UInt64 := 0x01B21DD213814000

/-- `u64` arithmetic wraps, as it is compiled. -/
def generateListCellPathTimeuuid (timestampMicros : Int) (elementIndex : Nat) : Bytes :=
  let ts100ns := UInt64.ofInt timestampMicros * 10 + UInt64.ofNat elementIndex
  let uuidTs := ts100ns + uuidEpochOffset
  let timeLow := (uuidTs &&& 0xFFFFFFFF).toUInt32
  let timeMid := ((uuidTs >>> 32) &&& 0xFFFF).toUInt16
  let timeHi := ((uuidTs >>> 48) &&& 0x0FFF).toUInt16 ||| 0x1000
  let clockSeq : UInt16 := 0x80
  let node : Bytes := [0, 0, 0, 0, 0, 0]
  beBytes 4 timeLow.toNat ++ beBytes 2 timeMid.toNat ++ beBytes 2 timeHi.toNat ++
    [(clockSeq >>> 8).toUInt8, (clockSeq &&& 0xFF).toUInt8] ++ node

/-- The paths of a list of `length` elements written as a whole. -/
def listCellPaths (timestampMicros : Int) (length : Nat) : List Bytes :=
  (List.range length).map (generateListCellPathTimeuuid timestampMicros)

/-! ### The order of TimeUUIDs -/

/-- The 60 bits of time of a version-1 UUID. -/
def timeUuidTime (uuid : Bytes) : Nat :=
  fromBe (uuid.take 4) + 2 ^ 32 * fromBe ((uuid.drop 4).take 2) +
    2 ^ 48 * (fromBe ((uuid.drop 6).take 2) % 2 ^ 12)

/-- Timestamp first, then the remaining bytes. -/
def timeUuidCmp (a b : Bytes) : Ordering :=
  (compare (timeUuidTime a) (timeUuidTime b)).then (compare (a.drop 8) (b.drop 8))

def timeUuidBefore (a b : Bytes) : Prop := timeUuidCmp a b = .lt

theorem timeUuidBefore_of_rest {a b : Bytes} (h : a.drop 8 = b.drop 8) :
    timeUuidBefore a b ↔ timeUuidTime a < timeUuidTime b := by
  have hrest : compare (b.drop 8) (b.drop 8) = .eq := Std.ReflCmp.compare_self
  rw [timeUuidBefore, timeUuidCmp, h, hrest, Ordering.then_eq, compare_lt_iff_lt]

theorem timeUuidBefore_irrefl (a : Bytes) : ¬ timeUuidBefore a a :=
  fun h => Nat.lt_irrefl _ ((timeUuidBefore_of_rest rfl).1 h)

/-! ### The time of a path -/

/-- Where the time of a path of index 0 stands. -/
def pathTime (timestampMicros : Int) : Int := 10 * timestampMicros + uuidEpochOffset.toNat

theorem timeUuidTime_fields {low mid hi : Nat} (rest : Bytes) (hlow : low < 2 ^ 32)
    (hmid : mid < 2 ^ 16) :
    timeUuidTime (beBytes 4 low ++ beBytes 2 mid ++ beBytes 2 hi ++ rest) =
      low + 2 ^ 32 * mid + 2 ^ 48 * (hi % 2 ^ 12) := by
  have h4 : (beBytes 4 low).length = 4 := length_beBytes _ _
  have h2 : (beBytes 2 mid).length = 2 := length_beBytes _ _
  have h2' : (beBytes 2 hi).length = 2 := length_beBytes _ _
  have hdrop4 : (beBytes 4 low ++ beBytes 2 mid ++ beBytes 2 hi ++ rest).drop 4 =
      beBytes 2 mid ++ (beBytes 2 hi ++ rest) := by
    rw [List.append_assoc, List.append_assoc]
    exact List.drop_left' h4
  have hdrop6 : (beBytes 4 low ++ beBytes 2 mid ++ beBytes 2 hi ++ rest).drop 6 =
      beBytes 2 hi ++ rest := by
    rw [List.append_assoc]
    exact List.drop_left' (by simp)
  rw [timeUuidTime, hdrop4, hdrop6, List.take_left' h2, List.take_left' h2', List.append_assoc,
    List.append_assoc, List.take_left' h4, fromBe_beBytes, fromBe_beBytes, fromBe_beBytes]
  omega

/-- The time of a path: what does not fit into 60 bits is cut off. -/
theorem timeUuidTime_generate (t : Int) (i : Nat) :
    (timeUuidTime (generateListCellPathTimeuuid t i) : Int) = (pathTime t + i) % 2 ^ 60 := by
  set u : UInt64 := UInt64.ofInt t * 10 + UInt64.ofNat i + uuidEpochOffset with hu
  have hlow : (u &&& 0xFFFFFFFF).toUInt32.toNat = u.toNat % 2 ^ 32 := by
    rw [UInt64.toNat_toUInt32, UInt64.toNat_and]
    simp [Nat.and_two_pow_sub_one_eq_mod _ 32]
  have hmid : ((u >>> 32) &&& 0xFFFF).toUInt16.toNat = u.toNat / 2 ^ 32 % 2 ^ 16 := by
    rw [UInt64.toNat_toUInt16, UInt64.toNat_and, UInt64.toNat_shiftRight]
    simp [Nat.and_two_pow_sub_one_eq_mod _ 16, Nat.shiftRight_eq_div_pow]
  have hhi : (((u >>> 48) &&& 0x0FFF).toUInt16 ||| 0x1000).toNat % 2 ^ 12 =
      u.toNat / 2 ^ 48 % 2 ^ 12 := by
    rw [UInt16.toNat_or, UInt64.toNat_toUInt16, UInt64.toNat_and, UInt64.toNat_shiftRight,
      Nat.or_mod_two_pow]
    simp [Nat.and_two_pow_sub_one_eq_mod _ 12, Nat.shiftRight_eq_div_pow]
  have hu64 : (u.toNat : Int) = (pathTime t + i) % 2 ^ 64 := by
    have ht : (UInt64.ofInt t).toNat = (t % 2 ^ 64).toNat := by
      simp only [UInt64.ofInt, UInt64.toNat_ofNat']
      omega
    have hi : (UInt64.ofNat i).toNat = i % 2 ^ 64 := UInt64.toNat_ofNat'
    have h10 : (10 : UInt64).toNat = 10 := rfl
    rw [hu, UInt64.toNat_add, UInt64.toNat_add, UInt64.toNat_mul, ht, hi, h10, pathTime]
    omega
  rw [generateListCellPathTimeuuid, ← hu]
  simp only [List.append_assoc]
  rw [← List.append_assoc, ← List.append_assoc, timeUuidTime_fields _ (by rw [hlow]; omega)
    (by rw [hmid]; omega), hlow, hmid, hhi]
  omega

theorem generate_rest (t t' : Int) (i i' : Nat) :
    (generateListCellPathTimeuuid t i).drop 8 = (generateListCellPathTimeuuid t' i').drop 8 := by
  simp only [generateListCellPathTimeuuid, List.append_assoc]
  rw [← List.append_assoc, ← List.append_assoc, ← List.append_assoc (beBytes 4 _),
    ← List.append_assoc (beBytes 4 _ ++ _), List.drop_left' (by simp), List.drop_left' (by simp)]

theorem before_generate (t t' : Int) (i i' : Nat) :
    timeUuidBefore (generateListCellPathTimeuuid t i) (generateListCellPathTimeuuid t' i') ↔
      (pathTime t + i) % 2 ^ 60 < (pathTime t' + i') % 2 ^ 60 := by
  rw [timeUuidBefore_of_rest (generate_rest t t' i i'), ← timeUuidTime_generate,
    ← timeUuidTime_generate, Int.ofNat_lt]

/-- Along one write the paths ascend as long as the index does not leave the 60 bits. -/
theorem ascending_iff {t : Int} {n : Nat} (h0 : 0 ≤ pathTime t) (ht : pathTime t < 2 ^ 60) :
    (listCellPaths t n).Pairwise timeUuidBefore ↔ (n : Int) ≤ 2 ^ 60 - pathTime t := by
  rw [listCellPaths, List.pairwise_map]
  simp only [before_generate]
  constructor
  · intro h
    by_contra hn
    -- the first index that does not fit starts again at zero
    obtain ⟨k, hk⟩ : ∃ k : Nat, pathTime t + k = 2 ^ 60 - 1 :=
      ⟨(2 ^ 60 - 1 - pathTime t).toNat, by omega⟩
    have hwrap := List.pairwise_iff_getElem.1 h k (k + 1) (by simp; omega) (by simp; omega)
      (Nat.lt_succ_self k)
    simp only [List.getElem_range] at hwrap
    omega
  · intro h
    refine List.pairwise_lt_range.imp_of_mem fun {i j} _ hj hij => ?_
    have := List.mem_range.1 hj
    omega

/-! ### Two writes -/

/-- The paths of two whole-list writes of one column: no two alike, ascending in each write, those
    of the first write before those of the second. -/
structure ListPathsOrdered (t₁ t₂ : Int) (n₁ n₂ : Nat) : Prop where
  distinct : (listCellPaths t₁ n₁ ++ listCellPaths t₂ n₂).Nodup
  first : (listCellPaths t₁ n₁).Pairwise timeUuidBefore
  second : (listCellPaths t₂ n₂).Pairwise timeUuidBefore
  between : ∀ p ∈ listCellPaths t₁ n₁, ∀ q ∈ listCellPaths t₂ n₂, timeUuidBefore p q

theorem nodup_of_before {paths : List Bytes} (h : paths.Pairwise timeUuidBefore) : paths.Nodup := by
  refine List.Pairwise.imp ?_ h
  rintro a _ hab rfl
  exact timeUuidBefore_irrefl a hab

/-- The two writes stay apart exactly when the first list does not run into the microsecond of the
    second write, and neither leaves the 60 bits of time. -/
theorem listPathsOrdered_iff {t₁ t₂ : Int} {n₁ n₂ : Nat} (h0 : 0 ≤ t₁) (hlt : t₁ < t₂)
    (hmax : pathTime t₂ < 2 ^ 60) :
    ListPathsOrdered t₁ t₂ n₁ n₂ ↔
      (n₁ : Int) ≤ 2 ^ 60 - pathTime t₁ ∧ (n₂ : Int) ≤ 2 ^ 60 - pathTime t₂ ∧
        (n₂ = 0 ∨ (n₁ : Int) ≤ 10 * (t₂ - t₁)) := by
  have hoffset : pathTime t₂ - pathTime t₁ = 10 * (t₂ - t₁) := by
    simp only [pathTime]
    omega
  have hpos : 0 ≤ pathTime t₁ := by
    simp only [pathTime]
    omega
  have hfirst := ascending_iff (n := n₁) hpos (by omega)
  have hsecond := ascending_iff (n := n₂) (by omega) hmax
  constructor
  · intro h
    refine ⟨hfirst.1 h.first, hsecond.1 h.second, ?_⟩
    rcases Nat.eq_zero_or_pos n₂ with hn₂ | hn₂
    · exact .inl hn₂
    rcases Nat.eq_zero_or_pos n₁ with hn₁ | hn₁
    · exact .inr (by omega)
    have hlast : generateListCellPathTimeuuid t₁ (n₁ - 1) ∈ listCellPaths t₁ n₁ :=
      List.mem_map_of_mem (List.mem_range.2 (by omega))
    have hhead : generateListCellPathTimeuuid t₂ 0 ∈ listCellPaths t₂ n₂ :=
      List.mem_map_of_mem (List.mem_range.2 hn₂)
    have hbefore := (before_generate ..).1 (h.between _ hlast _ hhead)
    have hroom := hfirst.1 h.first
    exact .inr (by omega)
  · rintro ⟨hroom₁, hroom₂, hapart⟩
    have hbetween : ∀ p ∈ listCellPaths t₁ n₁, ∀ q ∈ listCellPaths t₂ n₂, timeUuidBefore p q := by
      intro p hp q hq
      obtain ⟨i, hi, rfl⟩ := List.mem_map.1 hp
      obtain ⟨j, hj, rfl⟩ := List.mem_map.1 hq
      rw [List.mem_range] at hi hj
      rw [before_generate]
      omega
    have h₁ := hfirst.2 hroom₁
    have h₂ := hsecond.2 hroom₂
    exact ⟨nodup_of_before (List.pairwise_append.2 ⟨h₁, h₂, hbetween⟩), h₁, h₂, hbetween⟩

/-- Ten elements fit between one microsecond and the next. -/
theorem ten_elements_fit : ListPathsOrdered 1704067200000000 1704067200000001 10 25 :=
  (listPathsOrdered_iff (by decide) (by decide) (by decide)).2
    ⟨by decide, by decide, .inr (by decide)⟩

/-- The eleventh element has the path of the first element written a microsecond later. -/
theorem eleventh_path_taken : ¬ ListPathsOrdered 1704067200000000 1704067200000001 11 1 := by
  intro h
  have hsame : generateListCellPathTimeuuid 1704067200000000 10 =
      generateListCellPathTimeuuid 1704067200000001 0 := by decide
  have hlast : generateListCellPathTimeuuid 1704067200000000 10 ∈
      listCellPaths 1704067200000000 11 := List.mem_map_of_mem (by decide)
  have hhead : generateListCellPathTimeuuid 1704067200000001 0 ∈
      listCellPaths 1704067200000001 1 := List.mem_map_of_mem (by decide)
  exact timeUuidBefore_irrefl _ (hsame ▸ h.between _ hlast _ hhead)

end Cqlite
