import Mathlib.Data.List.Infix

/-! Logs of framed items.

    A framing turns an item into a block of symbols, and a reader takes one block off the front of a
    log or says why it cannot. Reading a log block by block gives back the items of its complete
    blocks; a log cut anywhere inside a block gives the items before the cut. -/

namespace Framing

variable {α β σ : Type*}

/-- What a reader finds at the front of a log: a stop, or an item and the rest. -/
abbrev Reader (α β σ : Type*) := List α → σ ⊕ β × List α

/-- The items read, why reading stopped, and the symbols not read. -/
structure Scan (α β σ : Type*) where
  items : List β
  stop : Option σ
  rest : List α

/-- Reading with a bound on the number of blocks. -/
def scanFrom (next : Reader α β σ) : Nat → List α → Scan α β σ
  | 0, log => ⟨[], none, log⟩
  | fuel + 1, log =>
    match next log with
    | .inl s => ⟨[], some s, log⟩
    | .inr (b, rest) =>
      let tail := scanFrom next fuel rest
      ⟨b :: tail.items, tail.stop, tail.rest⟩

/-- Reading to the end: every block has a symbol, so the length bounds the blocks. -/
def scan (next : Reader α β σ) (log : List α) : Scan α β σ := scanFrom next (log.length + 1) log

/-- The blocks of a list of items. -/
def frames (frame : β → List α) (items : List β) : List α := items.flatMap frame

/-- A reader that undoes a framing: it takes whole blocks and nothing else, and stops inside a cut
    one. `Ok` are the items the framing is meant for. -/
structure Reads (next : Reader α β σ) (frame : β → List α) (Ok : β → Prop) : Prop where
  block : ∀ b, frame b ≠ []
  sound : ∀ {log b rest}, next log = .inr (b, rest) → Ok b ∧ log = frame b ++ rest
  empty : ∃ s, next [] = .inl s
  whole : ∀ {b log}, Ok b → next (frame b ++ log) = .inr (b, log)
  torn : ∀ {b log}, Ok b → log <+: frame b → log ≠ frame b → ∃ s, next log = .inl s

theorem frames_cons (frame : β → List α) (b : β) (items : List β) :
    frames frame (b :: items) = frame b ++ frames frame items := List.flatMap_cons

namespace Reads

variable {next : Reader α β σ} {frame : β → List α} {Ok : β → Prop}

variable {b : β} {log rest : List α} {items : List β}

theorem shorter (h : Reads next frame Ok) (hx : next log = .inr (b, rest)) :
    rest.length < log.length := by
  have hlen := List.length_pos_iff.mpr (h.block b)
  rw [(h.sound hx).2, List.length_append]
  omega

theorem scanFrom_eq (h : Reads next frame Ok) {n m : Nat} {log : List α} (hn : log.length < n)
    (hm : log.length < m) : scanFrom next n log = scanFrom next m log := by
  induction n generalizing m log with
  | zero => omega
  | succ n ih =>
    cases m with
    | zero => omega
    | succ m =>
      rw [scanFrom, scanFrom]
      cases hx : next log with
      | inl s => rfl
      | inr x =>
        obtain ⟨b, rest⟩ := x
        have := h.shorter hx
        simp only [@ih m rest (by omega) (by omega)]

theorem scan_stop {s : σ} (hx : next log = .inl s) : scan next log = ⟨[], some s, log⟩ := by
  rw [scan, scanFrom, hx]

theorem scan_next (h : Reads next frame Ok) (hx : next log = .inr (b, rest)) :
    scan next log = ⟨b :: (scan next rest).items, (scan next rest).stop, (scan next rest).rest⟩ := by
  have hlt := h.shorter hx
  rw [scan, scanFrom, hx]
  simp only [h.scanFrom_eq hlt (Nat.lt_succ_self rest.length), scan]

/-- The items found, framed again, are the log up to the rest. -/
theorem frames_items_append_rest (h : Reads next frame Ok) (log : List α) :
    (∀ b ∈ (scan next log).items, Ok b) ∧
      log = frames frame (scan next log).items ++ (scan next log).rest := by
  induction hn : log.length using Nat.strong_induction_on generalizing log with
  | h n ih =>
    cases hx : next log with
    | inl s =>
      rw [scan_stop hx]
      exact ⟨by simp, rfl⟩
    | inr x =>
      obtain ⟨b, rest⟩ := x
      obtain ⟨hok, hlog⟩ := h.sound hx
      obtain ⟨hoks, hrest⟩ := ih rest.length (hn ▸ h.shorter hx) rest rfl
      rw [h.scan_next hx]
      refine ⟨fun c hc => ?_, ?_⟩
      · rcases List.mem_cons.mp hc with rfl | hc
        · exact hok
        · exact hoks c hc
      · rw [frames_cons, List.append_assoc]
        exact hlog.trans (congrArg _ hrest)

theorem scan_frames_append (h : Reads next frame Ok) (hok : ∀ b ∈ items, Ok b) (log : List α) :
    scan next (frames frame items ++ log) =
      ⟨items ++ (scan next log).items, (scan next log).stop, (scan next log).rest⟩ := by
  induction items with
  | nil => rfl
  | cons b items ih =>
    have hb : next (frames frame (b :: items) ++ log) = .inr (b, frames frame items ++ log) := by
      rw [frames_cons, List.append_assoc]
      exact h.whole (hok b List.mem_cons_self)
    rw [h.scan_next hb, ih fun c hc => hok c (List.mem_cons_of_mem b hc)]
    rfl

/-- A longer log has the items of a shorter one, and may have more. -/
theorem items_mono (h : Reads next frame Ok) {longer : List α} (hpre : log <+: longer) :
    (scan next log).items <+: (scan next longer).items := by
  induction hn : log.length using Nat.strong_induction_on generalizing log longer with
  | h n ih =>
    cases hx : next log with
    | inl s =>
      rw [scan_stop hx]
      exact List.nil_prefix
    | inr x =>
      obtain ⟨b, rest⟩ := x
      obtain ⟨tail, rfl⟩ := hpre
      obtain ⟨hok, hlog⟩ := h.sound hx
      have hlonger : next (log ++ tail) = .inr (b, rest ++ tail) := by
        rw [hlog, List.append_assoc]
        exact h.whole hok
      rw [h.scan_next hx, h.scan_next hlonger]
      exact (List.prefix_cons_inj b).2
        (ih rest.length (hn ▸ h.shorter hx) (List.prefix_append rest tail) rfl)

theorem scan_frames (h : Reads next frame Ok) (hok : ∀ b ∈ items, Ok b) :
    (scan next (frames frame items)).items = items ∧ (scan next (frames frame items)).rest = [] := by
  obtain ⟨s, hs⟩ := h.empty
  have hscan := h.scan_frames_append hok []
  rw [scan_stop hs, List.append_nil, List.append_nil] at hscan
  rw [hscan]
  exact ⟨rfl, rfl⟩

end Reads

end Framing
