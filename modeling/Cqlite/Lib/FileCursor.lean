import Cqlite.Lib.Blocks

/-! A file under a cursor.

    A computation over a file moves the position and may fail, and then the position stays where it
    failed. -/

namespace FileCursor

open Blocks

variable {ε σ α β : Type}

/-! ### One computation behind another -/

variable {f : α → EStateM ε σ β} {s : σ} {x : EStateM ε σ α}

theorem run_bind_of_ok {t : σ} {a : α} (h : x.run s = .ok a t) : (x >>= f).run s = (f a).run t := by
  change EStateM.bind x f s = f a t
  rw [EStateM.bind, show x s = .ok a t from h]

theorem run_bind_of_error {t : σ} {e : ε} (h : x.run s = .error e t) :
    (x >>= f).run s = .error e t := by
  change EStateM.bind x f s = .error e t
  rw [EStateM.bind, show x s = .error e t from h]

theorem run_bind_eq_ok {u : σ} {b : β} (h : (x >>= f).run s = .ok b u) :
    ∃ a t, x.run s = .ok a t ∧ (f a).run t = .ok b u := by
  cases hx : x.run s with
  | ok a t => exact ⟨a, t, rfl, run_bind_of_ok hx ▸ h⟩
  | error e t =>
    rw [run_bind_of_error hx] at h
    cases h

/-! ### Reading -/

/-- `n` places from the position on; the error `eof` where the file ends before. -/
def readExact (eof : ε) (file : List α) (n : Nat) : EStateM ε Nat (List α) := fun pos =>
  if n ≤ file.length - pos then .ok (part pos (pos + n) file) (pos + n)
  else .error eof (max pos file.length)

theorem run_readExact {eof : ε} {file : List α} {n pos : Nat} (h : pos + n ≤ file.length) :
    (readExact eof file n).run pos = .ok (part pos (pos + n) file) (pos + n) :=
  if_pos (by omega)

/-- The same in pieces of at most `cap` places. -/
def readPieces (eof : ε) (file : List α) (cap : Nat) (hcap : 0 < cap) (n : Nat) :
    EStateM ε Nat (List α) :=
  if n = 0 then pure []
  else do
    let piece ← readExact eof file (min n cap)
    let rest ← readPieces eof file cap hcap (n - min n cap)
    return piece ++ rest
termination_by n

/-- Reading in pieces reads the whole part. -/
theorem run_readPieces {eof : ε} {file : List α} {cap : Nat} (hcap : 0 < cap) {n pos : Nat}
    (h : pos + n ≤ file.length) :
    (readPieces eof file cap hcap n).run pos = .ok (part pos (pos + n) file) (pos + n) := by
  induction n using Nat.strongRecOn generalizing pos with
  | ind n ih =>
    rw [readPieces]
    split
    · rename_i hzero
      subst hzero
      rw [Nat.add_zero, part_eq_nil (Nat.le_refl _)]
      rfl
    · rename_i hpos
      have hfirst : (readExact eof file (min n cap)).run pos = .ok _ (pos + min n cap) :=
        run_readExact (by omega)
      have hrest : (readPieces eof file cap hcap (n - min n cap)).run (pos + min n cap) = _ :=
        ih (n - min n cap) (by omega) (by omega)
      have hend : pos + min n cap + (n - min n cap) = pos + n := by omega
      rw [hend] at hrest
      rw [run_bind_of_ok hfirst, run_bind_of_ok hrest,
        part_append_part (Nat.le_add_right _ _) (by omega)]
      rfl

end FileCursor
