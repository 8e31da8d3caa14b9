import Mathlib
import PineForge.Machine.Endian
import PineForge.Machine.Bitmap

/-!
# The chunks of a scratch arena

`scratch_arena.cpp`: the backing file is dealt out in chunks of one mebibyte. A bit for each says
whether it is free, and a hint names the lowest word that may have a free one. A claim takes the
lowest free chunk; a release gives it back and lowers the hint.
-/

namespace PineForge.Arena

open Bitmap

/-- `kChunkBytes`. -/
@[irreducible] def chunkBytes : ℕ := 1048576

theorem chunkBytes_eq : chunkBytes = 1048576 := by
  unfold chunkBytes
  rfl

theorem chunkBytes_pos : 0 < chunkBytes := by
  rw [chunkBytes_eq]
  exact Nat.succ_pos _

/-- The chunks of the arena and their counters. -/
structure Pool where
  freeBits : Words
  searchWord : ℕ := 0
  chunksTotal : ℕ
  chunksFree : ℕ
  bytesUsed : ℕ := 0
  highWater : ℕ := 0
deriving DecidableEq, Repr

namespace Pool

/-- Whether the bit of a chunk is set. -/
def isFree (pool : Pool) (chunk : ℕ) : Bool := holds pool.freeBits chunk

/-- The pool of an attached arena. -/
def initial (chunks : ℕ) : Pool :=
  { freeBits := full chunks
    chunksTotal := chunks
    chunksFree := chunks }

/-- The pool after the claim of the chunk with this word and bit. -/
def claimed (pool : Pool) (word bit : ℕ) : Pool :=
  { pool with
    freeBits := erase pool.freeBits (word * 64 + bit)
    searchWord := word
    chunksFree := pool.chunksFree - 1
    bytesUsed := pool.bytesUsed + chunkBytes
    highWater := max pool.highWater (pool.bytesUsed + chunkBytes) }

/-- The end of `claim_chunk`; none when the scan leaves the words. -/
def claim (pool : Pool) : Option (ℕ × Pool) := do
  let found ← firstFrom pool.freeBits pool.searchWord
  pure (found.1 * 64 + found.2, pool.claimed found.1 found.2)

/-- The end of `release_chunk`. -/
def release (pool : Pool) (chunk : ℕ) : Pool :=
  { pool with
    freeBits := insert pool.freeBits chunk
    searchWord := min pool.searchWord (chunk / 64)
    chunksFree := pool.chunksFree + 1
    bytesUsed := pool.bytesUsed - chunkBytes }

/-- The bits are those of the counters. -/
structure Sound (pool : Pool) : Prop where
  words : pool.freeBits.length = (pool.chunksTotal + 63) / 64
  within : ∀ chunk, pool.isFree chunk = true → chunk < pool.chunksTotal
  counted : pool.chunksFree
    = ((Finset.range pool.chunksTotal).filter fun c => pool.isFree c = true).card
  hint : ∀ chunk, pool.isFree chunk = true → pool.searchWord ≤ chunk / 64
  used : pool.bytesUsed + pool.chunksFree * chunkBytes = pool.chunksTotal * chunkBytes

theorem sound_initial (chunks : ℕ) : (initial chunks).Sound := by
  have hfree : ∀ chunk, (initial chunks).isFree chunk = decide (chunk < chunks) := holds_full chunks
  refine ⟨length_full chunks, fun chunk h => ?_, ?_, fun chunk _ => Nat.zero_le _, ?_⟩
  · rw [hfree] at h
    exact of_decide_eq_true h
  · have hall : ((Finset.range chunks).filter fun c => (initial chunks).isFree c = true)
        = Finset.range chunks := by
      apply Finset.filter_true_of_mem
      intro chunk hmem
      rw [hfree]
      exact decide_eq_true (Finset.mem_range.mp hmem)
    change chunks = ((Finset.range chunks).filter _).card
    rw [hall, Finset.card_range]
  · change 0 + chunks * chunkBytes = chunks * chunkBytes
    rw [Nat.zero_add]

variable {pool : Pool}

/-- A claim takes a free chunk, and no other. -/
theorem claim_spec (hs : pool.Sound) (hfree : 0 < pool.chunksFree) :
    ∃ chunk next, pool.claim = some (chunk, next) ∧ pool.isFree chunk = true ∧ next.Sound ∧
      (∀ j, next.isFree j = (!decide (j = chunk) && pool.isFree j)) ∧
      next.chunksFree + 1 = pool.chunksFree ∧ next.chunksTotal = pool.chunksTotal := by
  have hcount := hs.counted
  obtain ⟨some_free, hmem⟩ : ((Finset.range pool.chunksTotal).filter fun c => pool.isFree c
      = true).Nonempty := by
    rw [← Finset.card_pos, ← hcount]
    exact hfree
  have hheld := (Finset.mem_filter.mp hmem).2
  obtain ⟨⟨word, bit⟩, hfound⟩ := firstFrom_isSome hheld (hs.hint _ hheld)
  obtain ⟨hbit, hset, hlowest⟩ := firstFrom_spec hfound
  have hnext : ∀ j, (pool.claimed word bit).isFree j
      = (!decide (j = word * 64 + bit) && pool.isFree j) :=
    holds_erase pool.freeBits (word * 64 + bit)
  have hkept : ∀ j, (pool.claimed word bit).isFree j = true → pool.isFree j = true := by
    intro j hj
    rw [hnext, Bool.and_eq_true] at hj
    exact hj.2
  refine ⟨word * 64 + bit, pool.claimed word bit, by simp [claim, hfound], hset, ?_, hnext, ?_, rfl⟩
  · refine ⟨?_, fun j hj => hs.within j (hkept j hj), ?_, fun j hj => ?_, ?_⟩
    · rw [claimed, length_erase]
      exact hs.words
    · have herase : ((Finset.range pool.chunksTotal).filter fun c =>
        (pool.claimed word bit).isFree c = true) =
          ((Finset.range pool.chunksTotal).filter fun c => pool.isFree c = true).erase
            (word * 64 + bit) := by
        ext j
        simp only [Finset.mem_filter, Finset.mem_erase, hnext, Bool.and_eq_true, Bool.not_eq_true',
          decide_eq_false_iff_not]
        tauto
      change pool.chunksFree - 1 = ((Finset.range pool.chunksTotal).filter _).card
      rw [herase, Finset.card_erase_of_mem, ← hcount]
      exact Finset.mem_filter.mpr ⟨Finset.mem_range.mpr (hs.within _ hset), hset⟩
    · exact hlowest j (hkept j hj) (hs.hint j (hkept j hj))
    · have hused := hs.used
      change pool.bytesUsed + chunkBytes + (pool.chunksFree - 1) * chunkBytes
        = pool.chunksTotal * chunkBytes
      rw [← hused, Nat.sub_mul, Nat.one_mul]
      have := Nat.le_mul_of_pos_left chunkBytes hfree
      omega
  · change pool.chunksFree - 1 + 1 = pool.chunksFree
    omega

/-- A released chunk is free again. -/
theorem release_spec (hs : pool.Sound) {chunk : ℕ} (hlt : chunk < pool.chunksTotal)
    (hheld : pool.isFree chunk = false) :
    (pool.release chunk).Sound ∧ ∀ j, (pool.release chunk).isFree j
    = (decide (j = chunk) || pool.isFree j) := by
  have hword : chunk / 64 < pool.freeBits.length := by
    rw [hs.words]
    omega
  have hnext : ∀ j, (pool.release chunk).isFree j = (decide (j = chunk) || pool.isFree j) :=
    holds_insert hword
  have hnotMem : chunk ∉ (Finset.range pool.chunksTotal).filter fun c => pool.isFree c = true := by
    simp [hheld]
  have hinsert : ((Finset.range pool.chunksTotal).filter fun c => (pool.release chunk).isFree c
    = true) =
      insert chunk ((Finset.range pool.chunksTotal).filter fun c => pool.isFree c = true) := by
    ext j
    simp only [Finset.mem_filter, Finset.mem_insert, hnext, Bool.or_eq_true, decide_eq_true_eq,
      Finset.mem_range]
    by_cases hj : j = chunk
    · simp [hj, hlt]
    · simp [hj]
  have hcard : pool.chunksFree + 1 =
      ((Finset.range pool.chunksTotal).filter fun c => (pool.release chunk).isFree c
        = true).card := by
    rw [hinsert, Finset.card_insert_of_notMem hnotMem, ← hs.counted]
  refine ⟨⟨?_, fun j hj => ?_, hcard, fun j hj => ?_, ?_⟩, hnext⟩
  · rw [release, length_insert]
    exact hs.words
  · rw [hnext, Bool.or_eq_true] at hj
    rcases hj with hj | hj
    · exact of_decide_eq_true hj ▸ hlt
    · exact hs.within j hj
  · rw [hnext, Bool.or_eq_true] at hj
    rcases hj with hj | hj
    · exact of_decide_eq_true hj ▸ Nat.min_le_right ..
    · exact le_trans (Nat.min_le_left ..) (hs.hint j hj)
  · -- the chunk is used, so the bytes in use cover it
    have hle : pool.chunksFree + 1 ≤ pool.chunksTotal := by
      rw [hcard]
      exact le_trans (Finset.card_filter_le ..) (by rw [Finset.card_range])
    have hused := hs.used
    have hmul : (pool.chunksFree + 1) * chunkBytes ≤ pool.chunksTotal * chunkBytes :=
      Nat.mul_le_mul_right _ hle
    change pool.bytesUsed - chunkBytes + (pool.chunksFree + 1) * chunkBytes
      = pool.chunksTotal * chunkBytes
    rw [Nat.add_mul, Nat.one_mul] at hmul ⊢
    omega

/-- Chunks that are not free are given back one after the other. -/
def releaseAll (pool : Pool) (chunks : List ℕ) : Pool := chunks.foldl release pool

theorem releaseAll_append (pool : Pool) (chunks more : List ℕ) :
    pool.releaseAll (chunks ++ more) = (pool.releaseAll chunks).releaseAll more := List.foldl_append

/-- Chunks are free again, and no others. -/
theorem releaseAll_spec {chunks : List ℕ} (hs : pool.Sound) (hnodup : chunks.Nodup)
    (hheld : ∀ chunk ∈ chunks, chunk < pool.chunksTotal ∧ pool.isFree chunk = false) :
    (pool.releaseAll chunks).Sound ∧
      (∀ j, (pool.releaseAll chunks).isFree j = (decide (j ∈ chunks) || pool.isFree j)) ∧
      (pool.releaseAll chunks).chunksFree = pool.chunksFree + chunks.length ∧
      (pool.releaseAll chunks).chunksTotal = pool.chunksTotal := by
  induction chunks generalizing pool with
  | nil => exact ⟨hs, fun j => by simp [releaseAll], rfl, rfl⟩
  | cons chunk rest ih =>
    obtain ⟨hnotMem, hrest⟩ := List.nodup_cons.mp hnodup
    obtain ⟨hlt, hfree⟩ := hheld chunk List.mem_cons_self
    obtain ⟨hsound, hnext⟩ := release_spec hs hlt hfree
    have hheld' : ∀ c ∈ rest, c < (pool.release chunk).chunksTotal ∧ (pool.release chunk).isFree c
        = false := by
      intro c hc
      obtain ⟨hclt, hcfree⟩ := hheld c (List.mem_cons_of_mem _ hc)
      have hne : c ≠ chunk := by
        rintro rfl
        exact hnotMem hc
      refine ⟨hclt, ?_⟩
      rw [hnext, decide_eq_false hne, hcfree]
      rfl
    obtain ⟨hdone, hfrees, hcount, htotal⟩ := ih hsound hrest hheld'
    refine ⟨hdone, fun j => ?_, ?_, htotal⟩
    · refine (hfrees j).trans ?_
      rw [hnext]
      simp only [List.mem_cons, Bool.decide_or]
      rw [← Bool.or_assoc, Bool.or_comm (decide (j ∈ rest))]
    · refine hcount.trans ?_
      rw [List.length_cons]
      change pool.chunksFree + 1 + rest.length = _
      omega

end Pool

end PineForge.Arena
