import PineForge.IdPair.Index

/-!
# The directory of the slab fold

`IdPairSlabFold` packs its hash slots, the sorted offsets of the rows and the bucket maps into a
region that was sized for an index of 16 bytes a slot. How many buckets there are follows from how
they split: one that outgrows its capacity becomes two halves.
-/

namespace PineForge.IdPair

/-- The layout of the fold over a slab. -/
structure SlabFold where
  width : ℕ
  bucketCapacity : ℕ
  rowsAt : ℕ
  bucketsAt : ℕ
  cachedBuckets : Bool
  bucketLimit : ℕ

/-- `sizeof(Bucket)`. -/
def bucketBytes : ℕ := 2064

namespace SlabFold

/-- `configure`. -/
def configure (dataCapacity keys slots : ℕ) : SlabFold :=
  let width := if dataCapacity ≤ 2 ^ 32 - 1 then 4 else 8
  let bucketCapacity := if width = 4 then 256 else 1024
  let minimum := bucketCapacity / 2
  let cachedBuckets : Bool := keys > bucketCapacity
  { width := width
    bucketCapacity := bucketCapacity
    rowsAt := width * slots
    bucketsAt := width * slots + width * keys
    cachedBuckets := cachedBuckets
    bucketLimit := if cachedBuckets then keys / minimum + (if keys % minimum ≠ 0 then 1 else 0)
      else 0 }

/-- The bytes the fold lays out. -/
def storageBytes (f : SlabFold) : ℕ := f.bucketsAt + f.bucketLimit * bucketBytes

/-- A bucket with one row more. -/
def grown (capacity count : ℕ) : List ℕ :=
  if count + 1 ≤ capacity then [count + 1] else [(count + 1) / 2, count + 1 - (count + 1) / 2]

/-- The counts of the buckets after `update` has appended a row at the sorted position `low`: an
insertion at a boundary belongs to the following bucket, one behind all rows to the last. -/
def append (capacity : ℕ) : List ℕ → ℕ → List ℕ
  | [], _ => grown capacity 0
  | [count], _ => grown capacity count
  | count :: next :: rest, low =>
    if low < count then grown capacity count ++ next :: rest
    else count :: append capacity (next :: rest) (low - count)

/-- The counts after a run of appends. -/
def directory (f : SlabFold) (lows : List ℕ) : List ℕ := lows.foldl (append f.bucketCapacity) []

/-! ## The storage -/

theorem slotsFrom_ge {minimum : ℕ} : ∀ {fuel result n : ℕ}, slotsFrom minimum fuel result = some n →
    minimum ≤ n := by
  intro fuel
  induction fuel with
  | zero =>
    intro result n h
    cases h
  | succ fuel ih =>
    intro result n h
    rw [slotsFrom] at h
    split_ifs at h with hlt hmax
    · exact ih h
    · cases h
      omega

theorem slotsOf_ge {keys slots : ℕ} (h : slotsOf keys = some slots) : 2 * keys ≤ slots := by
  unfold slotsOf at h
  split_ifs at h with hzero hmax
  · omega
  · exact le_trans (le_max_right _ _) (slotsFrom_ge h)

theorem slotsOf_steps {keys slots : ℕ} (h : slotsOf keys = some slots) :
    (256 < keys → 1024 ≤ slots) ∧ (512 < keys → 2048 ≤ slots) := by
  have hge := slotsOf_ge h
  obtain rfl | ⟨k, rfl⟩ := slotsOf_sized h
  · omega
  · constructor
    · intro hkeys
      have hk : 10 ≤ k + 1 := (Nat.pow_lt_pow_iff_right (a := 2) (by norm_num)).mp
        (by omega : 2 ^ 9 < 2 ^ (k + 1))
      exact (Nat.pow_le_pow_right two_pos hk : 2 ^ _ ≤ 2 ^ (k + 1))
    · intro hkeys
      have hk : 11 ≤ k + 1 := (Nat.pow_lt_pow_iff_right (a := 2) (by norm_num)).mp
        (by omega : 2 ^ 10 < 2 ^ (k + 1))
      exact (Nat.pow_le_pow_right two_pos hk : 2 ^ _ ≤ 2 ^ (k + 1))

theorem storageBytes_le {keys slots : ℕ} (h : slotsOf keys = some slots) (dataCapacity : ℕ) :
    (configure dataCapacity keys slots).storageBytes ≤ 16 * slots := by
  have hge := slotsOf_ge h
  obtain ⟨hsmall, hlarge⟩ := slotsOf_steps h
  unfold storageBytes configure bucketBytes
  by_cases hwidth : dataCapacity ≤ 2 ^ 32 - 1
  · simp only [if_pos hwidth, if_true, decide_eq_true_eq]
    split_ifs <;> omega
  · simp only [if_neg hwidth, (by decide : ¬8 = 4), if_false, decide_eq_true_eq]
    split_ifs <;> omega

/-! ## The counts -/

theorem sum_append (capacity : ℕ) : ∀ (counts : List ℕ) (low : ℕ), (append capacity counts low).sum
    = counts.sum + 1
  | [], _ => by
    unfold append grown
    split <;> simp
  | [count], _ => by
    unfold append grown
    split <;> simp
    omega
  | count :: next :: rest, low => by
    unfold append grown
    split_ifs
    · simp only [List.sum_append, List.sum_cons, List.sum_nil]
      omega
    · simp only [List.sum_append, List.sum_cons, List.sum_nil]
      omega
    · rw [List.sum_cons, sum_append capacity (next :: rest), List.sum_cons (a := count),
        Nat.add_assoc]

/-- Between half of the capacity and the capacity. -/
def Filled (capacity count : ℕ) : Prop := capacity / 2 ≤ count ∧ count ≤ capacity

theorem grown_filled {capacity count : ℕ} (hcapacity : 0 < capacity) (h : Filled capacity count) :
    ∀ c ∈ grown capacity count, Filled capacity c := by
  unfold Filled grown at *
  split <;> simp only [List.mem_cons, List.not_mem_nil, or_false, forall_eq_or_imp, forall_eq] <;>
    omega

theorem append_filled {capacity : ℕ} (hcapacity : 0 < capacity) :
    ∀ {counts : List ℕ} {low : ℕ}, counts ≠ [] →
    (∀ c ∈ counts, Filled capacity c) → ∀ c ∈ append capacity counts low, Filled capacity c
  | [], _, hne, _ => absurd rfl hne
  | [count], _, _, h => grown_filled hcapacity (h count List.mem_cons_self)
  | count :: next :: rest, low, _, h => by
    obtain ⟨hcount, hrest⟩ := List.forall_mem_cons.mp h
    unfold append
    split
    · exact List.forall_mem_append.mpr ⟨grown_filled hcapacity hcount, hrest⟩
    · exact List.forall_mem_cons.mpr ⟨hcount, append_filled hcapacity (List.cons_ne_nil _ _) hrest⟩

/-- One bucket within its capacity, or filled ones. -/
def Balanced (capacity : ℕ) (counts : List ℕ) : Prop :=
  (∃ count ≤ capacity, counts = [count]) ∨ ∀ c ∈ counts, Filled capacity c

theorem Balanced.append {capacity : ℕ} {counts : List ℕ} (hcapacity : 0 < capacity)
    (h : Balanced capacity counts)
    (low : ℕ) : Balanced capacity (append capacity counts low) := by
  have hsole : ∀ count ≤ capacity, Balanced capacity (grown capacity count) := by
    intro count hcount
    by_cases hfits : count + 1 ≤ capacity
    · exact Or.inl ⟨count + 1, hfits, if_pos hfits⟩
    · exact Or.inr (grown_filled hcapacity (by unfold Filled; omega))
  obtain ⟨count, hcount, rfl⟩ | hfilled := h
  · exact hsole count hcount
  · cases counts with
    | nil => exact hsole 0 (Nat.zero_le _)
    | cons count rest => exact Or.inr (append_filled hcapacity (List.cons_ne_nil _ _) hfilled)

theorem foldl_append {capacity : ℕ} (hcapacity : 0 < capacity) (lows : List ℕ) :
    ∀ {counts : List ℕ},
    Balanced capacity counts → Balanced capacity (lows.foldl (SlabFold.append capacity) counts) ∧
      (lows.foldl (SlabFold.append capacity) counts).sum = counts.sum + lows.length := by
  induction lows with
  | nil =>
    intro counts h
    exact ⟨h, rfl⟩
  | cons low lows ih =>
    intro counts h
    obtain ⟨hbalanced, hsum⟩ := ih (h.append hcapacity low)
    refine ⟨hbalanced, hsum.trans ?_⟩
    rw [sum_append, List.length_cons]
    omega

/-- No run of appends within the admitted keys makes more buckets than have room: one bucket that is
not over its capacity, or buckets that are all at least half full. -/
theorem directory_fits {keys slots dataCapacity : ℕ} {lows : List ℕ} (hkeys : lows.length ≤ keys)
    (hcached : (configure dataCapacity keys slots).cachedBuckets = true) :
    Balanced (configure dataCapacity keys slots).bucketCapacity
      ((configure dataCapacity keys slots).directory lows) ∧
      ((configure dataCapacity keys slots).directory lows).length
        ≤ (configure dataCapacity keys slots).bucketLimit := by
  set f := configure dataCapacity keys slots with hf
  have hcapacity : f.bucketCapacity = 256 ∨ f.bucketCapacity = 1024 := by
    simp only [hf, configure]
    split_ifs <;> simp
  have hmany : f.bucketCapacity < keys := of_decide_eq_true hcached
  have hlimit : keys / (f.bucketCapacity / 2) ≤ f.bucketLimit := by
    rw [show f.bucketLimit = if f.cachedBuckets then _ else 0 from rfl, if_pos hcached]
    exact Nat.le_add_right _ _
  obtain ⟨hbalanced, hsum⟩ := foldl_append (by omega) lows
    (show Balanced f.bucketCapacity [] from Or.inr fun c hc => absurd hc List.not_mem_nil)
  have hcount : (f.directory lows).length ≤ keys / (f.bucketCapacity / 2) := by
    rw [Nat.le_div_iff_mul_le (by omega)]
    obtain ⟨count, -, hsole⟩ | hfilled := hbalanced
    · rw [show (f.directory lows).length = 1 from congrArg List.length hsole]
      omega
    · have hle := List.card_nsmul_le_sum (f.directory lows) _ fun c hc => (hfilled c hc).1
      rw [smul_eq_mul] at hle
      exact hle.trans (hsum.trans_le (le_of_eq_of_le (Nat.zero_add _) hkeys))
  exact ⟨hbalanced, hcount.trans hlimit⟩

/-- Every admitted layout holds the fold: the region of 16 bytes a slot has room for the slots, the
rows and as many bucket maps as `bucket_limit`. Where bucket maps are kept, no run of appends within
the admitted keys makes more. -/
theorem fold_fits {keys slots dataCapacity : ℕ} (hslots : slotsOf keys = some slots) {lows : List ℕ}
    (hkeys : lows.length ≤ keys) :
    (configure dataCapacity keys slots).storageBytes ≤ slotBytes * slots ∧
      ((configure dataCapacity keys slots).cachedBuckets = true →
        Balanced (configure dataCapacity keys slots).bucketCapacity
            ((configure dataCapacity keys slots).directory lows) ∧
          ((configure dataCapacity keys slots).directory lows).length
            ≤ (configure dataCapacity keys slots).bucketLimit ∧
          (configure dataCapacity keys slots).bucketsAt
              + ((configure dataCapacity keys slots).directory lows).length * bucketBytes
            ≤ slotBytes * slots) := by
  have hstorage := storageBytes_le hslots dataCapacity
  refine ⟨hstorage, fun hcached => ?_⟩
  obtain ⟨hbalanced, hlimit⟩ := directory_fits hkeys hcached
  refine ⟨hbalanced, hlimit, le_trans ?_ hstorage⟩
  exact Nat.add_le_add_left (Nat.mul_le_mul_right _ hlimit) _

/-- Three keys, for which no bucket map is kept, and 300 keys that all come in front. -/
theorem fold_fits_front : (configure 4096 3 64).storageBytes ≤ slotBytes * 64 ∧
    ((configure 4096 300 1024).directory (List.replicate 300 0)).length ≤
    (configure 4096 300 1024).bucketLimit :=
  ⟨(fold_fits (by decide +kernel) (show ([] : List ℕ).length ≤ 3 by decide)).1,
    ((fold_fits (by decide +kernel) (by decide +kernel)).2 (by decide +kernel)).2.1⟩

end SlabFold

end PineForge.IdPair
