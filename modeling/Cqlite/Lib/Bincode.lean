import Cqlite.Lib.VInt

/-! Positional binary formats.

    A format has no tags for its fields: a value is its parts one behind the other, numbers are of a
    fixed width with the least significant byte first, a sequence stands behind its length, an option
    behind one byte and a variant behind four. What is read may stand in front of other bytes. -/

namespace Bincode

open VInt

/-- An encoding and its reader. A valid value is read back, whatever follows; what is read is valid
    and takes no fewer bytes than it is written in. -/
structure Format (α : Type) where
  encode : α → List UInt8
  decode : List UInt8 → Option (α × List UInt8)
  Valid : α → Prop
  read : ∀ a, Valid a → ∀ rest, decode (encode a ++ rest) = some (a, rest)
  valid : ∀ bytes a rest, decode bytes = some (a, rest) → Valid a
  within : ∀ bytes a rest, decode bytes = some (a, rest) →
    (encode a).length + rest.length ≤ bytes.length

/-- Some values of a type, and the payload that makes each. -/
structure Variant (α : Type) where
  {Payload : Type}
  format : Format Payload
  get : α → Option Payload
  make : Payload → α
  get_make : ∀ b, get (make b) = some b

namespace Format

variable {α β γ : Type}

/-! ### Numbers -/

/-- `k` bytes, least significant first. -/
def number (k : Nat) : Format Nat where
  encode n := (beBytes k n).reverse
  decode bytes := (splitFront k bytes).map fun p => (fromBe p.1.reverse, p.2)
  Valid n := n < 256 ^ k
  read n hn rest := by
    rw [splitFront_append (by rw [List.length_reverse, length_beBytes]), Option.map_some,
      List.reverse_reverse, fromBe_beBytes, Nat.mod_eq_of_lt hn]
  valid bytes n rest h := by
    obtain ⟨⟨front, rest'⟩, hsplit, hpair⟩ := Option.map_eq_some_iff.1 h
    obtain ⟨rfl, -⟩ := Prod.mk.inj hpair
    rw [splitFront] at hsplit
    split at hsplit
    · cases hsplit
    · rename_i hlen
      obtain ⟨rfl, -⟩ := Prod.mk.inj (Option.some.inj hsplit)
      have hlt := fromBe_lt (bytes.take k).reverse
      rwa [List.length_reverse, List.length_take, Nat.min_eq_left (Nat.le_of_not_lt hlen)] at hlt
  within bytes n rest h := by
    obtain ⟨⟨front, rest'⟩, hsplit, hpair⟩ := Option.map_eq_some_iff.1 h
    obtain ⟨-, rfl⟩ := Prod.mk.inj hpair
    rw [splitFront] at hsplit
    split at hsplit
    · cases hsplit
    · rename_i hlen
      obtain ⟨-, rfl⟩ := Prod.mk.inj (Option.some.inj hsplit)
      rw [List.length_reverse, length_beBytes, List.length_drop]
      exact (Nat.add_sub_cancel' (Nat.le_of_not_lt hlen)).le

/-! ### Parts -/

/-- No bytes. -/
def unit : Format Unit where
  encode _ := []
  decode bytes := some ((), bytes)
  Valid _ := True
  read _ _ _ := rfl
  valid _ _ _ _ := trivial
  within bytes _ rest h := by
    obtain ⟨-, rfl⟩ := Prod.mk.inj (Option.some.inj h)
    rw [List.length_nil, Nat.zero_add]

/-- Nothing is ever read; `encode` is what is written all the same. -/
def never (encode : α → List UInt8) : Format α where
  encode := encode
  decode _ := none
  Valid _ := False
  read _ h := h.elim
  valid _ _ _ h := nomatch h
  within _ _ _ h := nomatch h

/-- One behind the other. -/
def pair (c : Format α) (d : Format β) : Format (α × β) where
  encode p := c.encode p.1 ++ d.encode p.2
  decode bytes := (c.decode bytes).bind fun p => (d.decode p.2).map fun q => ((p.1, q.1), q.2)
  Valid p := c.Valid p.1 ∧ d.Valid p.2
  read p h rest := by
    rw [List.append_assoc, c.read _ h.1, Option.bind_some, d.read _ h.2, Option.map_some]
  valid bytes p rest h := by
    obtain ⟨⟨a, mid⟩, ha, hb⟩ := Option.bind_eq_some_iff.1 h
    obtain ⟨⟨b, rest'⟩, hdecode, hpair⟩ := Option.map_eq_some_iff.1 hb
    obtain ⟨rfl, -⟩ := Prod.mk.inj hpair
    exact ⟨c.valid _ _ _ ha, d.valid _ _ _ hdecode⟩
  within bytes p rest h := by
    obtain ⟨⟨a, mid⟩, ha, hb⟩ := Option.bind_eq_some_iff.1 h
    obtain ⟨⟨b, rest'⟩, hdecode, hpair⟩ := Option.map_eq_some_iff.1 hb
    obtain ⟨rfl, rfl⟩ := Prod.mk.inj hpair
    have hfirst := c.within _ _ _ ha
    have hsecond := d.within _ _ _ hdecode
    rw [List.length_append]
    dsimp only at hsecond ⊢
    omega

/-- The same bytes for another type. `get` takes a value to the one that is written, `mk` makes one
    of what is read, or refuses it; what `mk` makes is written in no more bytes. -/
def via (c : Format α) (get : β → Option α) (mk : α → Option β)
    (h : ∀ a b, c.Valid a → mk a = some b → ∃ a', get b = some a' ∧ mk a' = some b ∧ c.Valid a' ∧
      (c.encode a').length ≤ (c.encode a).length) : Format β where
  encode b := ((get b).map c.encode).getD []
  decode bytes := (c.decode bytes).bind fun p => (mk p.1).map fun b => (b, p.2)
  Valid b := ∃ a, get b = some a ∧ mk a = some b ∧ c.Valid a
  read b hb rest := by
    obtain ⟨a, hget, hmk, hvalid⟩ := hb
    rw [hget, Option.map_some, Option.getD_some, c.read a hvalid, Option.bind_some, hmk,
      Option.map_some]
  valid bytes b rest hok := by
    obtain ⟨⟨a, rest'⟩, ha, hb⟩ := Option.bind_eq_some_iff.1 hok
    obtain ⟨b', hmk, hpair⟩ := Option.map_eq_some_iff.1 hb
    obtain ⟨rfl, -⟩ := Prod.mk.inj hpair
    obtain ⟨a', hget, hmk', hvalid, -⟩ := h a b' (c.valid _ _ _ ha) hmk
    exact ⟨a', hget, hmk', hvalid⟩
  within bytes b rest hok := by
    obtain ⟨⟨a, rest'⟩, ha, hb⟩ := Option.bind_eq_some_iff.1 hok
    obtain ⟨b', hmk, hpair⟩ := Option.map_eq_some_iff.1 hb
    obtain ⟨rfl, rfl⟩ := Prod.mk.inj hpair
    obtain ⟨a', hget, -, -, hlen⟩ := h a b' (c.valid _ _ _ ha) hmk
    have hwithin := c.within _ _ _ ha
    rw [hget, Option.map_some, Option.getD_some]
    dsimp only at hwithin ⊢
    omega

/-- A type with the same values. -/
def iso (c : Format α) (get : β → α) (mk : α → β) (h : ∀ a, c.Valid a → get (mk a) = a) :
    Format β :=
  c.via (fun b => some (get b)) (fun a => some (mk a)) fun a b hvalid hb => by
    obtain rfl := Option.some.inj hb
    exact ⟨a, congrArg some (h a hvalid), rfl, hvalid, le_rfl⟩

/-- Two's complement in `k` bytes. -/
def signed (k : Nat) : Format Int :=
  (number k).iso (fun n => (n % 256 ^ k).toNat)
    (fun u => if 2 * u < 256 ^ k then (u : Int) else u - 256 ^ k) fun u hu => by
      have hcast : ((256 ^ k : Nat) : Int) = 256 ^ k := by norm_cast
      have hu : (u : Int) < 256 ^ k := by
        rw [← hcast]
        exact Int.ofNat_lt.2 hu
      split
      · rw [Int.emod_eq_of_lt (Int.natCast_nonneg u) hu, Int.toNat_natCast]
      · rw [Int.sub_emod_right, Int.emod_eq_of_lt (Int.natCast_nonneg u) hu, Int.toNat_natCast]

/-- One byte, zero or one. -/
def bool : Format Bool :=
  (number 1).via (fun b => some b.toNat)
    (fun n => if n = 0 then some false else if n = 1 then some true else none) fun n b _ hb => by
      refine ⟨b.toNat, rfl, ?_, ?_, ?_⟩
      · cases b <;> rfl
      · show b.toNat < 256 ^ 1
        cases b <;> decide
      · rw [number, List.length_reverse, List.length_reverse, length_beBytes, length_beBytes]

/-- A byte for `none`, or a byte and the value. -/
def option (c : Format α) : Format (Option α) where
  encode
    | none => [0]
    | some a => 1 :: c.encode a
  decode
    | [] => none
    | tag :: bytes =>
      if tag = 0 then some (none, bytes)
      else if tag = 1 then (c.decode bytes).map fun p => (some p.1, p.2)
      else none
  Valid a := ∀ b ∈ a, c.Valid b
  read a h rest := by
    cases a with
    | none => rfl
    | some a =>
      simp [c.read a (h a rfl)]
  valid bytes a rest h := by
    cases bytes with
    | nil => cases h
    | cons tag bytes =>
      dsimp only at h
      split at h
      · obtain ⟨rfl, -⟩ := Prod.mk.inj (Option.some.inj h)
        rintro _ ⟨⟩
      split at h
      · obtain ⟨⟨b, rest'⟩, hdecode, hpair⟩ := Option.map_eq_some_iff.1 h
        obtain ⟨rfl, -⟩ := Prod.mk.inj hpair
        rintro _ ⟨⟩
        exact c.valid _ _ _ hdecode
      · cases h
  within bytes a rest h := by
    cases bytes with
    | nil => cases h
    | cons tag bytes =>
      dsimp only at h
      split at h
      · obtain ⟨rfl, rfl⟩ := Prod.mk.inj (Option.some.inj h)
        exact (Nat.add_comm _ _).le
      split at h
      · obtain ⟨⟨b, rest'⟩, hdecode, hpair⟩ := Option.map_eq_some_iff.1 h
        obtain ⟨rfl, rfl⟩ := Prod.mk.inj hpair
        have hwithin := c.within _ _ _ hdecode
        dsimp only at hwithin ⊢
        rw [List.length_cons, List.length_cons, Nat.add_right_comm]
        exact Nat.succ_le_succ hwithin
      · cases h

/-- A field that is not there. -/
def absent : Format (Option α) :=
  unit.via (fun a => if a.isNone then some () else none) (fun _ => some none) fun _ b _ hb => by
    obtain rfl := Option.some.inj hb
    exact ⟨(), rfl, rfl, trivial, le_rfl⟩

/-! ### Sequences -/

/-- As many values as there are to be. -/
def decodeMany (c : Format α) : Nat → List UInt8 → Option (List α × List UInt8)
  | 0, bytes => some ([], bytes)
  | n + 1, bytes => (c.decode bytes).bind fun p =>
      (decodeMany c n p.2).map fun q => (p.1 :: q.1, q.2)

theorem decodeMany_read (c : Format α) (l : List α) (h : ∀ a ∈ l, c.Valid a) (rest : List UInt8) :
    decodeMany c l.length (l.flatMap c.encode ++ rest) = some (l, rest) := by
  induction l with
  | nil => rfl
  | cons a l ih =>
    rw [List.length_cons, decodeMany, List.flatMap_cons, List.append_assoc,
      c.read a (h a List.mem_cons_self), Option.bind_some,
      ih fun b hb => h b (List.mem_cons_of_mem _ hb), Option.map_some]

/-- What is decoded is valid, and no longer than what was read. -/
theorem decodeMany_valid (c : Format α) {n : Nat} {bytes rest : List UInt8} {l : List α}
    (h : decodeMany c n bytes = some (l, rest)) :
    l.length = n ∧ (∀ a ∈ l, c.Valid a) ∧
      (l.flatMap c.encode).length + rest.length ≤ bytes.length := by
  induction n generalizing bytes l with
  | zero =>
    obtain ⟨rfl, rfl⟩ := Prod.mk.inj (Option.some.inj h)
    exact ⟨rfl, nofun, by simp⟩
  | succ n ih =>
    obtain ⟨⟨a, mid⟩, ha, hl⟩ := Option.bind_eq_some_iff.1 h
    obtain ⟨⟨l', rest'⟩, hmany, hpair⟩ := Option.map_eq_some_iff.1 hl
    obtain ⟨rfl, rfl⟩ := Prod.mk.inj hpair
    obtain ⟨hlen, hvalid, hwithin⟩ := ih hmany
    have hfirst := c.within _ _ _ ha
    refine ⟨by rw [List.length_cons, hlen], fun b hb => ?_, ?_⟩
    · rcases List.mem_cons.1 hb with rfl | hb
      · exact c.valid _ _ _ ha
      · exact hvalid b hb
    · rw [List.flatMap_cons, List.length_append]
      dsimp only at hwithin ⊢
      omega

/-- Behind the length in eight bytes. -/
def list (c : Format α) : Format (List α) where
  encode l := (number 8).encode l.length ++ l.flatMap c.encode
  decode bytes := ((number 8).decode bytes).bind fun p => decodeMany c p.1 p.2
  Valid l := l.length < 256 ^ 8 ∧ ∀ a ∈ l, c.Valid a
  read l h rest := by
    rw [List.append_assoc, (number 8).read _ h.1, Option.bind_some, decodeMany_read c l h.2]
  valid bytes l rest h := by
    obtain ⟨⟨n, mid⟩, hn, hl⟩ := Option.bind_eq_some_iff.1 h
    obtain ⟨hlen, hvalid, -⟩ := decodeMany_valid c hl
    exact ⟨hlen ▸ (number 8).valid _ _ _ hn, hvalid⟩
  within bytes l rest h := by
    obtain ⟨⟨n, mid⟩, hn, hl⟩ := Option.bind_eq_some_iff.1 h
    obtain ⟨hlen, -, hwithin⟩ := decodeMany_valid c hl
    have hfirst := (number 8).within _ _ _ hn
    rw [List.length_append, hlen]
    dsimp only at hfirst hwithin ⊢
    omega

/-- Bytes as they are, behind their number. -/
def blob : Format (List UInt8) where
  encode l := (number 8).encode l.length ++ l
  decode bytes := ((number 8).decode bytes).bind fun p => splitFront p.1 p.2
  Valid l := l.length < 256 ^ 8
  read l h rest := by
    rw [List.append_assoc, (number 8).read _ h, Option.bind_some, splitFront_append rfl]
  valid bytes l rest h := by
    obtain ⟨⟨n, mid⟩, hn, hl⟩ := Option.bind_eq_some_iff.1 h
    rw [splitFront] at hl
    split at hl
    · cases hl
    · obtain ⟨rfl, -⟩ := Prod.mk.inj (Option.some.inj hl)
      have hlt := (number 8).valid _ _ _ hn
      rw [List.length_take]
      exact lt_of_le_of_lt (Nat.min_le_left _ _) hlt
  within bytes l rest h := by
    obtain ⟨⟨n, mid⟩, hn, hl⟩ := Option.bind_eq_some_iff.1 h
    have hfirst := (number 8).within _ _ _ hn
    rw [splitFront] at hl
    split at hl
    · cases hl
    · obtain ⟨rfl, rfl⟩ := Prod.mk.inj (Option.some.inj hl)
      rw [List.length_append, List.length_take, List.length_drop]
      have hsame : ∀ m, ((number 8).encode m).length = 8 := fun m => by
        rw [number, List.length_reverse, length_beBytes]
      rw [hsame] at hfirst ⊢
      dsimp only at hfirst ⊢
      omega

/-- `k` bytes as they are. -/
def fixed (k : Nat) : Format (List UInt8) where
  encode l := l
  decode := splitFront k
  Valid l := l.length = k
  read l h rest := splitFront_append h rest
  valid bytes l rest h := by
    rw [splitFront] at h
    split at h
    · cases h
    · rename_i hlen
      obtain ⟨rfl, -⟩ := Prod.mk.inj (Option.some.inj h)
      rw [List.length_take, Nat.min_eq_left (Nat.le_of_not_lt hlen)]
  within bytes l rest h := by
    rw [splitFront] at h
    split at h
    · cases h
    · obtain ⟨rfl, rfl⟩ := Prod.mk.inj (Option.some.inj h)
      rw [List.length_take, List.length_drop]
      omega

/-- UTF-8 behind the number of its bytes. -/
def string : Format String :=
  blob.via (fun s => some s.toByteArray.data.toList)
    (fun l => if h : (ByteArray.mk l.toArray).IsValidUTF8 then some (.ofByteArray _ h) else none)
    fun l s hl hs => by
      split at hs
      · rename_i h
        obtain rfl := Option.some.inj hs
        exact ⟨l, rfl, by rw [dif_pos h], hl, le_rfl⟩
      · cases hs

/-! ### Variants -/

/-- The number of the variant in four bytes, and its payload. -/
def enum (tag : α → Nat) (variant : Nat → Option (Variant α))
    (htag : ∀ t v, variant t = some v → ∀ b, tag (v.make b) = t) : Format α where
  encode a := (number 4).encode (tag a) ++
    ((variant (tag a)).bind fun v => (v.get a).map v.format.encode).getD []
  decode bytes := ((number 4).decode bytes).bind fun p =>
    (variant p.1).bind fun v => (v.format.decode p.2).map fun q => (v.make q.1, q.2)
  Valid a := ∃ t v, variant t = some v ∧ t < 256 ^ 4 ∧ ∃ b, v.format.Valid b ∧ v.make b = a
  read a h rest := by
    obtain ⟨t, v, hv, ht, b, hb, rfl⟩ := h
    rw [htag t v hv, List.append_assoc, (number 4).read _ ht, Option.bind_some, hv,
      Option.bind_some, Option.bind_some, v.get_make, Option.map_some, Option.getD_some,
      v.format.read b hb, Option.map_some]
  valid bytes a rest h := by
    obtain ⟨⟨t, mid⟩, ht, h⟩ := Option.bind_eq_some_iff.1 h
    obtain ⟨v, hv, h⟩ := Option.bind_eq_some_iff.1 h
    obtain ⟨⟨b, rest'⟩, hb, hpair⟩ := Option.map_eq_some_iff.1 h
    obtain ⟨rfl, -⟩ := Prod.mk.inj hpair
    exact ⟨t, v, hv, (number 4).valid _ _ _ ht, b, v.format.valid _ _ _ hb, rfl⟩
  within bytes a rest h := by
    obtain ⟨⟨t, mid⟩, ht, h⟩ := Option.bind_eq_some_iff.1 h
    obtain ⟨v, hv, h⟩ := Option.bind_eq_some_iff.1 h
    obtain ⟨⟨b, rest'⟩, hb, hpair⟩ := Option.map_eq_some_iff.1 h
    obtain ⟨rfl, rfl⟩ := Prod.mk.inj hpair
    have hfirst := (number 4).within _ _ _ ht
    have hsecond := v.format.within _ _ _ hb
    rw [htag t v hv, hv, Option.bind_some, v.get_make, Option.map_some, Option.getD_some,
      List.length_append]
    dsimp only at hfirst hsecond ⊢
    omega

/-! ### Reading on -/

theorem pair_decode (c : Format α) (d : Format β) {a : α} (ha : c.Valid a) (rest : List UInt8) :
    (c.pair d).decode (c.encode a ++ rest) = (d.decode rest).map fun q => ((a, q.1), q.2) := by
  change ((c.decode (c.encode a ++ rest)).bind fun p =>
    (d.decode p.2).map fun q => ((p.1, q.1), q.2)) = _
  rw [c.read a ha, Option.bind_some]

theorem list_decode (c : Format α) (d : Format β) {n : Nat} (hn : n < 256 ^ 8)
    (rest : List UInt8) : (c.list.pair d).decode ((number 8).encode n ++ rest) =
      (decodeMany c n rest).bind fun p => (d.decode p.2).map fun q => ((p.1, q.1), q.2) := by
  change ((((number 8).decode ((number 8).encode n ++ rest)).bind fun p => decodeMany c p.1 p.2).bind
    fun p => (d.decode p.2).map fun q => ((p.1, q.1), q.2)) = _
  rw [(number 8).read n hn, Option.bind_some]

section Iso

variable {c : Format α} {get : β → α} {mk : α → β} {h : ∀ a, c.Valid a → get (mk a) = a}

theorem iso_encode (b : β) : (c.iso get mk h).encode b = c.encode (get b) := rfl

theorem iso_valid {b : β} : (c.iso get mk h).Valid b ↔ c.Valid (get b) ∧ mk (get b) = b := by
  constructor
  · rintro ⟨a, hget, hmk, hvalid⟩
    obtain rfl := Option.some.inj hget
    exact ⟨hvalid, Option.some.inj hmk⟩
  · rintro ⟨hvalid, hmk⟩
    exact ⟨get b, rfl, congrArg some hmk, hvalid⟩

theorem iso_decode (bytes : List UInt8) :
    (c.iso get mk h).decode bytes = (c.decode bytes).map fun p => (mk p.1, p.2) := by
  change ((c.decode bytes).bind fun p => (some (mk p.1)).map fun b => (b, p.2)) = _
  cases c.decode bytes <;> rfl

end Iso

section Enum

variable {tag : α → Nat} {variant : Nat → Option (Variant α)}
variable {htag : ∀ t v, variant t = some v → ∀ b, tag (v.make b) = t}

theorem enum_decode {t : Nat} {v : Variant α} (hv : variant t = some v) (ht : t < 256 ^ 4)
    (rest : List UInt8) : (enum tag variant htag).decode ((number 4).encode t ++ rest) =
      (v.format.decode rest).map fun q => (v.make q.1, q.2) := by
  change (((number 4).decode ((number 4).encode t ++ rest)).bind fun p =>
    (variant p.1).bind fun v => (v.format.decode p.2).map fun q => (v.make q.1, q.2)) = _
  rw [(number 4).read t ht, Option.bind_some, hv, Option.bind_some]

theorem enum_valid {t : Nat} {v : Variant α} (hv : variant t = some v) (ht : t < 256 ^ 4)
    (b : v.Payload) : (enum tag variant htag).Valid (v.make b) ↔ v.format.Valid b := by
  constructor
  · rintro ⟨t', v', hv', -, b', hb', hmake⟩
    have htags : t' = t := by rw [← htag t' v' hv' b', hmake, htag t v hv]
    subst htags
    obtain rfl : v' = v := Option.some.inj (hv'.symm.trans hv)
    have hget := v'.get_make b'
    rw [hmake, v'.get_make] at hget
    rwa [Option.some.inj hget]
  · exact fun hb => ⟨t, v, hv, ht, b, hb, rfl⟩

end Enum

end Format

end Bincode
