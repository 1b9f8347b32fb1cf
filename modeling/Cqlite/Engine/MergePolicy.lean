import Mathlib.Data.List.Flatten
import Mathlib.Data.List.Perm.Subperm
import Mathlib.Data.Prod.Lex
import Mathlib.Data.Rat.Defs
import Mathlib.Algebra.Order.Ring.Rat
import Mathlib.Order.WithBot
import Mathlib.Tactic.Linarith
import Mathlib.Tactic.NormNum
import Cqlite.Lib.Rank
import Cqlite.Types

/-! Choosing what to compact (`write_engine/merge_policy.rs`).

    Size-tiered compaction groups the SSTables by size into buckets that are keyed by their average.
    Paths are any linear order. The ratios are rationals; sizes are `u64`, so the average is computed
    with saturating operations. The map of buckets is an association list: inserting under a key in
    use drops what was there. -/

namespace Cqlite

/-- `u64::MAX`. -/
def u64Max : Nat := 2 ^ 64 - 1

/-- What the policy knows of an SSTable. -/
structure SSTableMetadata (π : Type) where
  dataPath : π
  dataSize : Nat
  deriving DecidableEq, Repr

structure STCSPolicy where
  minThreshold : Nat
  maxThreshold : Nat
  bucketLow : ℚ
  bucketHigh : ℚ
  minSstableSize : Nat

namespace STCSPolicy

/-- `STCSPolicy::new`, the messages without the values they print. -/
def new (minThreshold maxThreshold : Nat) (bucketLow bucketHigh : ℚ) (minSstableSize : Nat) :
    Except Error STCSPolicy :=
  if minThreshold = 0 then .error (.invalidInput "min_threshold must be greater than 0")
  else if maxThreshold < minThreshold then
    .error (.invalidInput "max_threshold must be >= min_threshold")
  else if bucketHigh ≤ bucketLow then .error (.invalidInput "bucket_high must be > bucket_low")
  else if bucketLow ≤ 0 then .error (.invalidInput "bucket_low must be > 0.0")
  else .ok ⟨minThreshold, maxThreshold, bucketLow, bucketHigh, minSstableSize⟩

/-- `STCSPolicy::default`. -/
def default : STCSPolicy := ⟨4, 32, 1 / 2, 3 / 2, 50 * 1024 * 1024⟩

end STCSPolicy

/-! ### Buckets -/

section Buckets

variable {π : Type} [LinearOrder π]

/-- The order of SSTables: size, then path. -/
def SSTableMetadata.sortKey (f : SSTableMetadata π) : Nat ×ₗ π := toLex (f.dataSize, f.dataPath)

/-- Sorting by size and path. -/
def sortFiles (files : List (SSTableMetadata π)) : List (SSTableMetadata π) :=
  files.insertionSort fun a b => a.sortKey ≤ b.sortKey

/-- Buckets by average size. -/
abbrev BucketMap (π : Type) := List (Nat × List (SSTableMetadata π))

namespace BucketMap

def keys (m : BucketMap π) : List Nat := m.map (·.1)

def remove (m : BucketMap π) (avg : Nat) : BucketMap π := m.filter fun e => e.1 ≠ avg

/-- `HashMap::insert`. -/
def insert (m : BucketMap π) (avg : Nat) (bucket : List (SSTableMetadata π)) : BucketMap π :=
  (avg, bucket) :: m.remove avg

def find? (m : BucketMap π) (avg : Nat) : Option (List (SSTableMetadata π)) :=
  (List.find? (fun e => e.1 = avg) m).map (·.2)

end BucketMap

/-- `saturating_mul` and `saturating_add` on `u64`. -/
def saturate (n : Nat) : Nat := min n u64Max

/-- The average of a bucket with one more SSTable. -/
def newAverage (count oldAverage size : Nat) : Nat :=
  saturate (saturate (count * oldAverage) + size) / (count + 1)

namespace STCSPolicy

variable (policy : STCSPolicy)

/-- The SSTable fits a bucket of this average: inside the ratios, or both are small. -/
def fits (size avg : Nat) : Bool :=
  (avg * policy.bucketLow ≤ (size : ℚ) && (size : ℚ) ≤ avg * policy.bucketHigh) ||
    (size < policy.minSstableSize && avg < policy.minSstableSize)

/-- The smallest average that fits. -/
def firstFit (m : BucketMap π) (size : Nat) : Option Nat :=
  (m.keys.insertionSort (· ≤ ·)).find? (policy.fits size)

/-- One SSTable: into the first bucket that fits, or into a new one. -/
def placeFile (m : BucketMap π) (f : SSTableMetadata π) : BucketMap π :=
  match policy.firstFit m f.dataSize with
  | some avg =>
    match m.find? avg with
    | some bucket =>
      (m.remove avg).insert (newAverage bucket.length avg f.dataSize) (bucket ++ [f])
    | none => m
  | none => m.insert f.dataSize [f]

/-- The order of buckets: that of their first SSTable, empty ones last. -/
def bucketKey (bucket : List (SSTableMetadata π)) : Nat ×ₗ WithBot π :=
  match bucket.head? with
  | some f => toLex (f.dataSize, (f.dataPath : WithBot π))
  | none => toLex (u64Max, ⊥)

/-- The final order; it does not depend on the order in which the map gives its values. -/
def orderBuckets (buckets : List (List (SSTableMetadata π))) : List (List (SSTableMetadata π)) :=
  (buckets.map sortFiles).insertionSort fun a b => bucketKey a ≤ bucketKey b

/-- The map once every SSTable is placed. -/
def bucketsByAverage (files : List (SSTableMetadata π)) : BucketMap π :=
  (sortFiles files).foldl policy.placeFile []

/-- `group_into_buckets`. -/
def groupIntoBuckets (files : List (SSTableMetadata π)) : List (List (SSTableMetadata π)) :=
  orderBuckets ((policy.bucketsByAverage files).map (·.2))

/-- `select_merge_internal` over the candidates with their sizes: the smallest tier with enough
    SSTables. -/
def selectMerge (candidates : List (SSTableMetadata π)) : List π :=
  if candidates.length < policy.minThreshold then []
  else
    match (policy.groupIntoBuckets candidates).find? fun b => policy.minThreshold ≤ b.length with
    | some bucket => (bucket.take policy.maxThreshold).map (·.dataPath)
    | none => []

end STCSPolicy

/-! ### Sorting by a key -/

variable {f g : SSTableMetadata π} {files : List (SSTableMetadata π)}

omit [LinearOrder π] in
theorem SSTableMetadata.sortKey_inj (h : f.sortKey = g.sortKey) : f = g := by
  obtain ⟨p, n⟩ := f
  obtain ⟨q, m⟩ := g
  simp only [SSTableMetadata.sortKey, toLex_inj, Prod.mk.injEq] at h
  rw [h.1, h.2]

theorem SSTableMetadata.dataSize_le (h : f.sortKey ≤ g.sortKey) : f.dataSize ≤ g.dataSize :=
  Prod.Lex.monotone_fst _ _ h

theorem sortFiles_perm (files : List (SSTableMetadata π)) : (sortFiles files).Perm files :=
  List.perm_insertionSort _ _

theorem sortFiles_sorted (files : List (SSTableMetadata π)) :
    (sortFiles files).Pairwise fun a b => a.sortKey ≤ b.sortKey :=
  Rank.sortBy_sorted _ _

theorem sortFiles_eq_of_perm {files' : List (SSTableMetadata π)} (h : files.Perm files') :
    sortFiles files = sortFiles files' :=
  Rank.sortBy_eq_of_perm _ h fun _ _ _ _ => SSTableMetadata.sortKey_inj

/-! ### One bucket is open -/

namespace STCSPolicy

variable {policy : STCSPolicy}

variable {b : List (SSTableMetadata π)} {closed m : BucketMap π} {k : Nat}

section

omit [LinearOrder π]

/-- Where only the first bucket may fit, it is the one that is looked at. -/
theorem firstFit_open {size : Nat} (h : ∀ e ∈ closed, ¬ policy.fits size e.1) :
    policy.firstFit ((k, b) :: closed) size = if policy.fits size k then some k else none := by
  have hmem : ∀ a, a ∈ (BucketMap.keys ((k, b) :: closed)).insertionSort (· ≤ ·) ↔
      a = k ∨ ∃ e ∈ closed, e.1 = a := by
    intro a
    rw [List.mem_insertionSort]
    simp [BucketMap.keys]
  have honly : ∀ a ∈ (BucketMap.keys ((k, b) :: closed)).insertionSort (· ≤ ·),
      policy.fits size a → a = k := by
    intro a ha hfit
    rcases (hmem a).1 ha with rfl | ⟨e, he, rfl⟩
    · rfl
    · exact absurd hfit (h e he)
  unfold firstFit
  split
  · next hk =>
    cases hf : ((BucketMap.keys ((k, b) :: closed)).insertionSort (· ≤ ·)).find? (policy.fits size) with
    | some a => rw [honly a (List.mem_of_find?_eq_some hf) (List.find?_some hf)]
    | none => exact absurd hk (List.find?_eq_none.1 hf k ((hmem k).2 (.inl rfl)))
  · next hk =>
    refine List.find?_eq_none.2 fun a ha hfit => hk ?_
    rwa [← honly a ha hfit]

theorem remove_eq_self (h : ∀ e ∈ m, e.1 < k) : m.remove k = m := by
  refine List.filter_eq_self.2 fun e he => ?_
  simpa using Nat.ne_of_lt (h e he)

theorem placeFile_fits (hclosed : ∀ e ∈ closed, e.1 < k ∧ ¬ policy.fits f.dataSize e.1)
    (hfit : policy.fits f.dataSize k) (hgrow : k ≤ newAverage b.length k f.dataSize) :
    policy.placeFile ((k, b) :: closed) f =
      (newAverage b.length k f.dataSize, b ++ [f]) :: closed := by
  have hremove : BucketMap.remove ((k, b) :: closed) k = closed := by
    rw [BucketMap.remove, List.filter_cons_of_neg (by simp)]
    exact remove_eq_self fun e he => (hclosed e he).1
  rw [placeFile, firstFit_open fun e he => (hclosed e he).2, if_pos hfit]
  simp only [BucketMap.find?, List.find?_cons, decide_true, Option.map_some, hremove]
  rw [BucketMap.insert, remove_eq_self fun e he => lt_of_lt_of_le (hclosed e he).1 hgrow]

theorem placeFile_new (hclosed : ∀ e ∈ closed, e.1 < k ∧ ¬ policy.fits f.dataSize e.1)
    (hfit : ¬ policy.fits f.dataSize k) (hk : k < f.dataSize) :
    policy.placeFile ((k, b) :: closed) f = (f.dataSize, [f]) :: (k, b) :: closed := by
  rw [placeFile, firstFit_open fun e he => (hclosed e he).2, if_neg hfit]
  simp only [BucketMap.insert]
  rw [remove_eq_self]
  intro e he
  rcases List.mem_cons.1 he with rfl | he
  · exact hk
  · exact (hclosed e he).1.trans hk

end

/-! ### The average -/

/-- Without saturation the average lies between the old one and the new size. -/
theorem newAverage_bounds {n size total : Nat} (hn : n * k ≤ total) (hk : k ≤ size)
    (hfit : total + size ≤ u64Max) :
    k ≤ newAverage n k size ∧ newAverage n k size ≤ size ∧
      (n + 1) * newAverage n k size ≤ total + size := by
  have hsat : newAverage n k size = (n * k + size) / (n + 1) := by
    unfold newAverage saturate
    rw [Nat.min_eq_left (by omega), Nat.min_eq_left (by omega)]
  rw [hsat]
  refine ⟨?_, ?_, ?_⟩
  · rw [Nat.le_div_iff_mul_le (Nat.succ_pos n), Nat.mul_add_one, Nat.mul_comm k n]
    omega
  · refine Nat.div_le_of_le_mul ?_
    have := Nat.mul_le_mul_left n hk
    rw [Nat.add_one_mul]
    omega
  · exact (Nat.mul_div_le _ _).trans (by omega)

/-! ### Placing every SSTable -/

/-- A key that an SSTable does not fit lies below its size and fits none of the SSTables after it. -/
def Escapes (policy : STCSPolicy) (sorted : List (SSTableMetadata π)) : Prop :=
  ∀ pre f post, sorted = pre ++ f :: post → ∀ g ∈ pre, ∀ k ≤ g.dataSize,
    ¬ policy.fits f.dataSize k → k < f.dataSize ∧ ∀ h ∈ post, ¬ policy.fits h.dataSize k

/-- The total size. -/
def totalSize (files : List (SSTableMetadata π)) : Nat := (files.map (·.dataSize)).sum

/-- Between two SSTables: one bucket is open, the others are behind for good. -/
structure Placing (policy : STCSPolicy) (m : BucketMap π) (placed rest : List (SSTableMetadata π)) :
    Prop where
  complete : (m.map (·.2)).flatten.Perm placed
  nonempty : ∀ e ∈ m, e.2 ≠ []
  openBucket : ∀ k b closed, m = (k, b) :: closed →
    (∀ e ∈ closed, e.1 < k ∧ ∀ f ∈ rest, ¬ policy.fits f.dataSize e.1) ∧
      b.length * k ≤ totalSize b ∧ ∃ g ∈ placed, k ≤ g.dataSize

omit [LinearOrder π] in
theorem totalSize_append (l l' : List (SSTableMetadata π)) :
    totalSize (l ++ l') = totalSize l + totalSize l' := by
  simp [totalSize]

omit [LinearOrder π] in
theorem totalSize_perm {l l' : List (SSTableMetadata π)} (h : l.Perm l') : totalSize l = totalSize l' :=
  (h.map _).sum_nat

variable {placed bucket : List (SSTableMetadata π)} {avg : Nat}

omit [LinearOrder π] in
/-- The step lemma: `f` joins a bucket or opens one. -/
theorem Placing.step {rest : List (SSTableMetadata π)} (hp : Placing policy m placed (f :: rest))
    (hesc : Escapes policy (placed ++ f :: rest)) (hsorted : ∀ g ∈ placed, g.dataSize ≤ f.dataSize)
    (htotal : totalSize (placed ++ [f]) ≤ u64Max) :
    Placing policy (policy.placeFile m f) (placed ++ [f]) rest := by
  rcases m with - | ⟨⟨k, b⟩, closed⟩
  · have hplaced : placed = [] := by simpa using hp.complete
    have hnew : policy.placeFile ([] : BucketMap π) f = [(f.dataSize, [f])] := rfl
    rw [hnew, hplaced]
    refine ⟨by simp, by simp, ?_⟩
    intro k b closed h
    obtain ⟨⟨rfl, rfl⟩, rfl⟩ : (f.dataSize = k ∧ [f] = b) ∧ [] = closed := by simpa using h
    exact ⟨by simp, by simp [totalSize], f, by simp, le_refl _⟩
  · obtain ⟨hclosed, havg, g, hg, hkg⟩ := hp.openBucket k b closed rfl
    have hk : k ≤ f.dataSize := hkg.trans (hsorted g hg)
    have hbelow : ∀ e ∈ closed, e.1 < k ∧ ¬ policy.fits f.dataSize e.1 :=
      fun e he => ⟨(hclosed e he).1, (hclosed e he).2 f (by simp)⟩
    have hb : totalSize b + f.dataSize ≤ u64Max := by
      have h1 := totalSize_perm hp.complete
      simp only [List.map_cons, List.flatten_cons, totalSize_append] at h1
      rw [totalSize_append] at htotal
      simp only [totalSize, List.map_cons, List.map_nil, List.sum_cons, List.sum_nil] at h1 htotal ⊢
      omega
    by_cases hfit : policy.fits f.dataSize k
    · obtain ⟨hgrow, hsize, hsum⟩ := newAverage_bounds havg hk hb
      rw [placeFile_fits hbelow hfit hgrow]
      refine ⟨?_, ?_, ?_⟩
      · have h := hp.complete
        simp only [List.map_cons, List.flatten_cons, List.append_assoc] at h ⊢
        exact (List.perm_append_comm.append_left b).trans
          (by rw [← List.append_assoc]; exact h.append_right [f])
      · intro e he
        rcases List.mem_cons.1 he with rfl | he
        · simp
        · exact hp.nonempty e (List.mem_cons_of_mem _ he)
      · intro k' b' closed' h
        obtain ⟨⟨rfl, rfl⟩, rfl⟩ : (newAverage b.length k f.dataSize = k' ∧ b ++ [f] = b') ∧
            closed = closed' := by simpa using h
        refine ⟨fun e he => ⟨lt_of_lt_of_le (hclosed e he).1 hgrow,
          fun x hx => (hclosed e he).2 x (List.mem_cons_of_mem _ hx)⟩, ?_, f, by simp, hsize⟩
        rw [List.length_append, totalSize_append]
        simpa [totalSize] using hsum
    · obtain ⟨hlt, hlater⟩ := hesc placed f rest rfl g hg k hkg hfit
      rw [placeFile_new hbelow hfit hlt]
      refine ⟨?_, ?_, ?_⟩
      · rw [List.map_cons, List.flatten_cons]
        exact List.perm_append_comm.trans (hp.complete.append_right [f])
      · intro e he
        rcases List.mem_cons.1 he with rfl | he
        · simp
        · exact hp.nonempty e he
      · intro k' b' closed' h
        obtain ⟨⟨rfl, rfl⟩, rfl⟩ : (f.dataSize = k' ∧ [f] = b') ∧ (k, b) :: closed = closed' := by
          simpa using h
        refine ⟨?_, by simp [totalSize], f, by simp, le_refl _⟩
        intro e he
        rcases List.mem_cons.1 he with rfl | he
        · exact ⟨hlt, hlater⟩
        · exact ⟨(hclosed e he).1.trans hlt,
            fun x hx => (hclosed e he).2 x (List.mem_cons_of_mem _ hx)⟩

omit [LinearOrder π] in
theorem Placing.run (rest : List (SSTableMetadata π)) (hp : Placing policy m placed rest)
    (hesc : Escapes policy (placed ++ rest))
    (hsorted : (placed ++ rest).Pairwise fun a b => a.dataSize ≤ b.dataSize)
    (htotal : totalSize (placed ++ rest) ≤ u64Max) :
    Placing policy (rest.foldl policy.placeFile m) (placed ++ rest) [] := by
  induction rest generalizing m placed with
  | nil => simpa using hp
  | cons f rest ih =>
    rw [List.append_cons] at hesc hsorted htotal ⊢
    refine ih (hp.step (by simpa using hesc) ?_ ?_) hesc hsorted htotal
    · intro g hg
      rw [List.append_assoc] at hsorted
      exact (List.pairwise_append.1 hsorted).2.2 g hg f (by simp)
    · rw [totalSize_append] at htotal
      omega

/-! ### The result -/

/-- Buckets hold every SSTable once, and come in the order of their smallest. -/
structure IsGrouping (files : List (SSTableMetadata π)) (out : List (List (SSTableMetadata π))) :
    Prop where
  complete : out.flatten.Perm files
  nonempty : [] ∉ out
  sorted : ∀ b ∈ out, b.Pairwise fun f g => f.sortKey < g.sortKey
  ordered : out.Pairwise fun a b => ∃ f ∈ a, ∀ g ∈ b, f.sortKey < g.sortKey

theorem bucketKey_le_iff {fs gs : List (SSTableMetadata π)} :
    bucketKey (f :: fs) ≤ bucketKey (g :: gs) ↔ f.sortKey ≤ g.sortKey := by
  simp [bucketKey, SSTableMetadata.sortKey, Prod.Lex.toLex_le_toLex]

theorem eq_of_mem_both {out : List (List (SSTableMetadata π))} (h : out.flatten.Nodup)
    {a : List (SSTableMetadata π)} (ha : a ∈ out) (hb : b ∈ out) (hfa : f ∈ a) (hfb : f ∈ b) :
    a = b := by
  by_contra hne
  have hdisj := (List.nodup_flatten.1 h).2
  have : Std.Symm (@List.Disjoint (SSTableMetadata π)) := ⟨fun _ _ h _ ha hb => h hb ha⟩
  exact hdisj.forall ha hb hne hfa hfb

theorem sorted_values_perm (values : List (List (SSTableMetadata π))) :
    (values.map sortFiles).flatten.Perm values.flatten := by
  induction values with
  | nil => exact .nil
  | cons b values ih =>
    simp only [List.map_cons, List.flatten_cons]
    exact (sortFiles_perm b).append ih

theorem orderBuckets_perm (values : List (List (SSTableMetadata π))) :
    (orderBuckets values).flatten.Perm values.flatten :=
  (List.perm_insertionSort _ _).flatten.trans (sorted_values_perm values)

theorem sortFiles_ne_nil (h : b ≠ []) : sortFiles b ≠ [] :=
  fun hnil => h (List.Perm.nil_eq (hnil ▸ sortFiles_perm b)).symm

theorem orderBuckets_eq_of_perm {values values' : List (List (SSTableMetadata π))}
    (h : values'.Perm values) (hne : ∀ b ∈ values, b ≠ []) (hnodup : values.flatten.Nodup) :
    orderBuckets values' = orderBuckets values := by
  refine (Rank.sortBy_eq_of_perm bucketKey (h.symm.map sortFiles) ?_).symm
  intro a ha b hb hkey
  obtain ⟨a', ha', rfl⟩ := List.mem_map.1 ha
  obtain ⟨b', hb', rfl⟩ := List.mem_map.1 hb
  have hnodup' := (sorted_values_perm values).nodup_iff.2 hnodup
  cases hsa : sortFiles a' with
  | nil => exact absurd hsa (sortFiles_ne_nil (hne a' ha'))
  | cons f fs =>
    cases hsb : sortFiles b' with
    | nil => exact absurd hsb (sortFiles_ne_nil (hne b' hb'))
    | cons g gs =>
      rw [hsa] at ha hkey
      rw [hsb] at hb hkey
      obtain rfl : f = g := SSTableMetadata.sortKey_inj
        (le_antisymm (bucketKey_le_iff.1 hkey.le) (bucketKey_le_iff.1 hkey.ge))
      exact eq_of_mem_both hnodup' ha hb List.mem_cons_self List.mem_cons_self

/-- Ordering the buckets keeps the grouping. -/
theorem isGrouping_orderBuckets {values : List (List (SSTableMetadata π))}
    (hperm : values.flatten.Perm files) (hne : ∀ b ∈ values, b ≠ []) (hnodup : files.Nodup) :
    IsGrouping files (orderBuckets values) := by
  have hflat : (orderBuckets values).flatten.Nodup :=
    (orderBuckets_perm values).nodup_iff.2 (hperm.nodup_iff.2 hnodup)
  have hmem : ∀ b ∈ orderBuckets values, ∃ b' ∈ values, sortFiles b' = b := by
    intro b hb
    exact List.mem_map.1 ((List.mem_insertionSort _).1 hb)
  have hsorted : ∀ b ∈ orderBuckets values, b.Pairwise fun f g => f.sortKey < g.sortKey := by
    intro b hb
    obtain ⟨b', -, rfl⟩ := hmem b hb
    refine ((sortFiles_sorted b').and ((List.nodup_flatten.1 hflat).1 _ hb)).imp ?_
    rintro f g ⟨hle, hfg⟩
    exact lt_of_le_of_ne hle fun h => hfg (SSTableMetadata.sortKey_inj h)
  refine ⟨(orderBuckets_perm values).trans hperm, ?_, hsorted, ?_⟩
  · intro h
    obtain ⟨b', hb', hnil⟩ := hmem [] h
    exact sortFiles_ne_nil (hne b' hb') hnil
  · refine ((Rank.sortBy_sorted bucketKey (values.map sortFiles)).and
      (List.nodup_flatten.1 hflat).2).imp_of_mem ?_
    rintro a b ha hb ⟨hle, hdisj⟩
    obtain ⟨a', ha', rfl⟩ := hmem a ha
    obtain ⟨b', hb', rfl⟩ := hmem b hb
    cases hsa : sortFiles a' with
    | nil => exact absurd hsa (sortFiles_ne_nil (hne a' ha'))
    | cons f fs =>
      cases hsb : sortFiles b' with
      | nil => exact absurd hsb (sortFiles_ne_nil (hne b' hb'))
      | cons g gs =>
        rw [hsa, hsb] at hle hdisj
        have hfirst := bucketKey_le_iff.1 hle
        have hgs := sortFiles_sorted b'
        rw [hsb] at hgs
        refine ⟨f, by simp, fun x hx => lt_of_le_of_ne ?_ fun heq => ?_⟩
        · rcases List.mem_cons.1 hx with rfl | hx'
          · exact hfirst
          · exact hfirst.trans (List.rel_of_pairwise_cons hgs hx')
        · exact hdisj (List.mem_cons_self) (SSTableMetadata.sortKey_inj heq ▸ hx)

/-! ### What a bucket holds -/

/-- The SSTables of all buckets. -/
def values (m : BucketMap π) : List (SSTableMetadata π) := (m.map (·.2)).flatten

omit [LinearOrder π] in
theorem values_remove_sublist (m : BucketMap π) (avg : Nat) :
    (values (m.remove avg)).Sublist (values m) :=
  (List.filter_sublist.map _).flatten

omit [LinearOrder π] in
/-- A bucket taken out of the map and what is left are part of it. -/
theorem values_find_subperm (h : m.find? avg = some bucket) :
    (bucket ++ values (m.remove avg)).Subperm (values m) := by
  obtain ⟨e, he, rfl⟩ := Option.map_eq_some_iff.1 h
  have havg : e.1 = avg := by simpa using List.find?_some he
  obtain ⟨pre, post, rfl⟩ := List.append_of_mem (List.mem_of_find?_eq_some he)
  have hremove : BucketMap.remove (pre ++ e :: post) avg =
      BucketMap.remove pre avg ++ BucketMap.remove post avg := by
    simp [BucketMap.remove, havg]
  have hsplit : values (pre ++ e :: post) = values pre ++ (e.2 ++ values post) := by simp [values]
  rw [hremove, hsplit]
  have hparts : (values (BucketMap.remove pre avg ++ BucketMap.remove post avg)).Sublist
      (values pre ++ values post) := by
    have hboth : values (BucketMap.remove pre avg ++ BucketMap.remove post avg) =
        values (BucketMap.remove pre avg) ++ values (BucketMap.remove post avg) := by simp [values]
    rw [hboth]
    exact (values_remove_sublist pre avg).append (values_remove_sublist post avg)
  refine ((List.subperm_append_left e.2).2 hparts.subperm).trans (List.Perm.subperm ?_)
  rw [← List.append_assoc, ← List.append_assoc]
  exact List.perm_append_comm.append_right _

omit [LinearOrder π] in
theorem values_placeFile_subperm (m : BucketMap π) (f : SSTableMetadata π) :
    (values (policy.placeFile m f)).Subperm (values m ++ [f]) := by
  unfold placeFile
  split
  · split
    · rename_i avg _ _ bucket hfind
      refine ((List.subperm_append_left (bucket ++ [f])).2
        (values_remove_sublist (m.remove avg) _).subperm).trans ?_
      refine List.Subperm.trans (List.Perm.subperm ?_)
        ((List.subperm_append_right [f]).2 (values_find_subperm hfind))
      rw [List.append_assoc, List.append_assoc]
      exact List.perm_append_comm.append_left bucket
    · exact (List.sublist_append_left _ _).subperm
  · refine List.Subperm.trans ?_ (@List.perm_append_comm _ [f] _).subperm
    exact (List.subperm_append_left [f]).2 (values_remove_sublist m f.dataSize).subperm

theorem values_bucketsByAverage_subperm (files : List (SSTableMetadata π)) :
    (values (policy.bucketsByAverage files)).Subperm files := by
  have hrun : ∀ (rest : List (SSTableMetadata π)) (m : BucketMap π),
      (values (rest.foldl policy.placeFile m)).Subperm (values m ++ rest) := by
    intro rest
    induction rest with
    | nil =>
      intro m
      rw [List.append_nil]
      exact List.Subperm.refl _
    | cons f rest ih =>
      intro m
      refine (ih _).trans ?_
      rw [List.append_cons]
      exact (List.subperm_append_right rest).2 (values_placeFile_subperm m f)
  exact (hrun (sortFiles files) []).trans (sortFiles_perm files).subperm

theorem bucket_spec (hnodup : files.Nodup) (h : bucket ∈ policy.groupIntoBuckets files) :
    (∀ f ∈ bucket, f ∈ files) ∧ bucket.Pairwise fun f g => f.sortKey < g.sortKey := by
  obtain ⟨b, hb, rfl⟩ := List.mem_map.1 ((List.mem_insertionSort _).1 h)
  obtain ⟨e, he, rfl⟩ := List.mem_map.1 hb
  have hsub : e.2.Sublist (values (policy.bucketsByAverage files)) :=
    List.sublist_flatten_of_mem (List.mem_map_of_mem he)
  have hall := hsub.subperm.trans (values_bucketsByAverage_subperm files)
  refine ⟨fun f hf => hall.subset ((sortFiles_perm e.2).subset hf), ?_⟩
  have hdistinct : (sortFiles e.2).Nodup := by
    obtain ⟨l, hperm, hsub⟩ := hall
    exact (sortFiles_perm e.2).nodup_iff.2 (hperm.nodup_iff.1 (hsub.nodup hnodup))
  refine ((sortFiles_sorted e.2).and hdistinct).imp ?_
  rintro f g ⟨hle, hfg⟩
  exact lt_of_le_of_ne hle fun heq => hfg (SSTableMetadata.sortKey_inj heq)

/-! ### Which policies partition -/

/-- The result is a grouping, for every order of the input and of the map. -/
structure Partitions (policy : STCSPolicy) (files : List (SSTableMetadata π)) : Prop where
  grouping : IsGrouping files (policy.groupIntoBuckets files)
  anyOrder : ∀ files' : List (SSTableMetadata π), files'.Perm files →
    policy.groupIntoBuckets files' = policy.groupIntoBuckets files
  anyMapOrder : ∀ values : List (List (SSTableMetadata π)),
    values.Perm ((policy.bucketsByAverage files).map (·.2)) →
      orderBuckets values = policy.groupIntoBuckets files

/-- An SSTable fits a bucket of its own size, or all but one SSTable are small. -/
def Covers (policy : STCSPolicy) : Prop :=
  (policy.bucketLow ≤ 1 ∧ 1 ≤ policy.bucketHigh) ∨ 2 ^ 63 ≤ policy.minSstableSize

theorem fits_iff {size : Nat} :
    policy.fits size avg ↔ ((avg : ℚ) * policy.bucketLow ≤ size ∧ (size : ℚ) ≤ avg * policy.bucketHigh) ∨
      (size < policy.minSstableSize ∧ avg < policy.minSstableSize) := by
  simp [fits]

omit [LinearOrder π] in
theorem escapes_of_ratio (hlow : policy.bucketLow ≤ 1) (hhigh : 1 ≤ policy.bucketHigh)
    {sorted : List (SSTableMetadata π)} (hsorted : sorted.Pairwise fun f g => f.dataSize ≤ g.dataSize) :
    Escapes policy sorted := by
  rintro pre f post rfl g hg k hk hfit
  obtain ⟨-, hpost, hcross⟩ := List.pairwise_append.1 hsorted
  have hkf : k ≤ f.dataSize := hk.trans (hcross g hg f (by simp))
  have hbelow : ∀ size : Nat, k ≤ size → (k : ℚ) * policy.bucketLow ≤ size := by
    intro size h
    have hk0 : (0 : ℚ) ≤ k := by positivity
    have hle : (k : ℚ) ≤ size := by exact_mod_cast h
    nlinarith
  rw [fits_iff, not_or, not_and, not_and, not_le, not_lt] at hfit
  have habove := hfit.1 (hbelow _ hkf)
  have hlt : (k : ℚ) < f.dataSize := by
    have hk0 : (0 : ℚ) ≤ k := by positivity
    nlinarith
  refine ⟨by exact_mod_cast hlt, ?_⟩
  intro h hh
  have hfh : f.dataSize ≤ h.dataSize := List.rel_of_pairwise_cons hpost hh
  have hfh' : (f.dataSize : ℚ) ≤ h.dataSize := by exact_mod_cast hfh
  rw [fits_iff, not_or, not_and, not_and, not_le, not_lt]
  exact ⟨fun _ => lt_of_lt_of_le habove hfh', fun hsmall => hfit.2 (lt_of_le_of_lt hfh hsmall)⟩

omit [LinearOrder π] in
theorem dataSize_le_totalSize (h : f ∈ files) : f.dataSize ≤ totalSize files := by
  obtain ⟨l, l', rfl⟩ := List.append_of_mem h
  simp only [totalSize, List.map_append, List.map_cons, List.sum_append, List.sum_cons]
  omega

omit [LinearOrder π] in
theorem escapes_of_small (hmin : 2 ^ 63 ≤ policy.minSstableSize) {sorted : List (SSTableMetadata π)}
    (hsorted : sorted.Pairwise fun f g => f.dataSize ≤ g.dataSize) (htotal : totalSize sorted < 2 ^ 64) :
    Escapes policy sorted := by
  rintro pre f post rfl g hg k hk hfit
  obtain ⟨-, hpost, hcross⟩ := List.pairwise_append.1 hsorted
  have hgf : g.dataSize ≤ f.dataSize := hcross g hg f (by simp)
  have hsum : totalSize (pre ++ f :: post) = totalSize pre + (f.dataSize + totalSize post) := by
    simp [totalSize]
  have hlarge : policy.minSstableSize ≤ f.dataSize := by
    by_contra h
    exact hfit (fits_iff.2 (.inr ⟨by omega, by omega⟩))
  have hg' := dataSize_le_totalSize hg
  refine ⟨by omega, ?_⟩
  intro h hh
  have hfh : f.dataSize ≤ h.dataSize := List.rel_of_pairwise_cons hpost hh
  have hh' := dataSize_le_totalSize hh
  omega

/-- A covering policy partitions the SSTables. -/
theorem partitions_of_covers (hcovers : policy.Covers) (hpaths : (files.map (·.dataPath)).Nodup)
    (htotal : totalSize files < 2 ^ 64) : policy.Partitions files := by
  have hsizes : (sortFiles files).Pairwise fun f g => f.dataSize ≤ g.dataSize :=
    (sortFiles_sorted files).imp SSTableMetadata.dataSize_le
  have htotal' : totalSize (sortFiles files) < 2 ^ 64 := by rwa [totalSize_perm (sortFiles_perm files)]
  have hesc : Escapes policy (sortFiles files) := by
    rcases hcovers with ⟨hlow, hhigh⟩ | hmin
    · exact escapes_of_ratio hlow hhigh hsizes
    · exact escapes_of_small hmin hsizes htotal'
  have hstart : Placing policy ([] : BucketMap π) [] (sortFiles files) :=
    ⟨by simp, by simp, fun _ _ _ h => by cases h⟩
  have hplaced := hstart.run _ hesc hsizes (by rw [u64Max]; simp only [List.nil_append]; omega)
  have hperm : ((policy.bucketsByAverage files).map (·.2)).flatten.Perm files :=
    hplaced.complete.trans (sortFiles_perm files)
  have hne : ∀ b ∈ (policy.bucketsByAverage files).map (·.2), b ≠ [] := by
    intro b hb
    obtain ⟨e, he, rfl⟩ := List.mem_map.1 hb
    exact hplaced.nonempty e he
  have hnodup : files.Nodup := hpaths.of_map
  refine ⟨isGrouping_orderBuckets hperm hne hnodup, ?_, ?_⟩
  · intro files' h
    rw [groupIntoBuckets, bucketsByAverage, sortFiles_eq_of_perm h]
    rfl
  · intro values h
    exact orderBuckets_eq_of_perm h hne (hperm.nodup_iff.2 hnodup)

/-- Two SSTables of one size that fit no bucket of that size: the second takes the key. -/
theorem bucketsByAverage_pair {p q : π} (hpq : p < q) {size : Nat} (h : ¬ policy.fits size size) :
    policy.bucketsByAverage [⟨p, size⟩, ⟨q, size⟩] = [(size, [⟨q, size⟩])] := by
  have hsort : sortFiles [(⟨p, size⟩ : SSTableMetadata π), ⟨q, size⟩] = [⟨p, size⟩, ⟨q, size⟩] := by
    refine List.Pairwise.insertionSort_eq ?_
    simp [SSTableMetadata.sortKey, Prod.Lex.toLex_le_toLex, hpq.le]
  rw [bucketsByAverage, hsort]
  simp [placeFile, firstFit, BucketMap.keys, BucketMap.insert, BucketMap.remove, h]

theorem covers_of_partitions [Nontrivial π]
    (h : ∀ files : List (SSTableMetadata π), (files.map (·.dataPath)).Nodup →
      totalSize files < 2 ^ 64 → policy.Partitions files) : policy.Covers := by
  by_contra hcovers
  rw [Covers, not_or, not_le] at hcovers
  obtain ⟨p, q, hpq⟩ : ∃ p q : π, p < q := by
    obtain ⟨x, y, hxy⟩ := exists_pair_ne π
    rcases lt_or_gt_of_ne hxy with h | h
    · exact ⟨x, y, h⟩
    · exact ⟨y, x, h⟩
  -- both sizes are the least that the small-file rule leaves out
  obtain ⟨size, hpos, hmin, hbound⟩ : ∃ size, 0 < size ∧ policy.minSstableSize ≤ size ∧
      2 * size < 2 ^ 64 :=
    ⟨max policy.minSstableSize 1, by omega, by omega, by omega⟩
  have hfit : ¬ policy.fits size size := by
    rw [fits_iff]
    rintro (⟨hlow, hhigh⟩ | ⟨hsmall, -⟩)
    · have hpos' : (0 : ℚ) < size := by exact_mod_cast hpos
      exact hcovers.1 ⟨by nlinarith, by nlinarith⟩
    · omega
  have hgroup := (h [⟨p, size⟩, ⟨q, size⟩] (by simp [hpq.ne]) (by simp [totalSize]; omega)).grouping
  have hlen := hgroup.complete.length_eq
  rw [groupIntoBuckets, (orderBuckets_perm _).length_eq, bucketsByAverage_pair hpq hfit] at hlen
  simp at hlen

/-- A policy partitions every list of SSTables with distinct paths whose sizes add up in a `u64`
    exactly if an SSTable fits a bucket of its own size, or the small-file rule reaches half of the
    range. -/
theorem partitions_iff [Nontrivial π] :
    (∀ files : List (SSTableMetadata π), (files.map (·.dataPath)).Nodup →
      totalSize files < 2 ^ 64 → policy.Partitions files) ↔ policy.Covers :=
  ⟨covers_of_partitions, fun hcovers _ hpaths htotal => partitions_of_covers hcovers hpaths htotal⟩

end STCSPolicy

end Buckets

namespace STCSPolicy

/-- The default policy covers. -/
theorem partitions_default :
    default.Covers ∧ default.Partitions [⟨1, 100⟩, ⟨0, 100⟩, (⟨2, 2 ^ 30⟩ : SSTableMetadata Nat)] := by
  have hcovers : default.Covers := .inl ⟨by norm_num [default], by norm_num [default]⟩
  exact ⟨hcovers, partitions_iff.2 hcovers _ (by decide) (by decide)⟩

/-- Ratios from 2 to 3 are accepted; two SSTables of 100 bytes then share a key and one is lost. -/
theorem groupIntoBuckets_loses :
    ∃ policy, new 4 32 2 3 0 = .ok policy ∧
      policy.groupIntoBuckets [⟨0, 100⟩, (⟨1, 100⟩ : SSTableMetadata Nat)] = [[⟨1, 100⟩]] ∧
      ¬ policy.Partitions [⟨0, 100⟩, (⟨1, 100⟩ : SSTableMetadata Nat)] := by
  have hout : (STCSPolicy.mk 4 32 2 3 0).groupIntoBuckets [⟨0, 100⟩, (⟨1, 100⟩ : SSTableMetadata Nat)] =
      [[⟨1, 100⟩]] := by decide +kernel
  refine ⟨⟨4, 32, 2, 3, 0⟩, by simp [new]; norm_num, hout, fun h => ?_⟩
  have hlen := h.grouping.complete.length_eq
  rw [hout] at hlen
  simp at hlen

end STCSPolicy

end Cqlite
