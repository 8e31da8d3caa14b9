import Mathlib

/-!
# A set of numbers as words of bits

A list of 64-bit words holds the number `i` where bit `i % 64` of word `i / 64` is set. `insert` and
`erase` write one bit, and `firstFrom` scans for the lowest set bit of the first word that has one,
from a word on. When no word before it has a set bit, no number held lies in an earlier word
(`firstFrom_spec`).
-/

namespace PineForge.Bitmap

/-- Words of bits. -/
abbrev Words := List (BitVec 64)

/-- Whether a bit is set. -/
def holds (words : Words) (i : ℕ) : Bool := (words[i / 64]?).any fun word => word.getLsbD (i % 64)

/-- Set a bit. -/
def insert (words : Words) (i : ℕ) : Words :=
  words.modify (i / 64) fun word => word ||| BitVec.twoPow 64 (i % 64)

/-- Clear a bit. -/
def erase (words : Words) (i : ℕ) : Words :=
  words.modify (i / 64) fun word => word &&& ~~~(BitVec.twoPow 64 (i % 64))

/-- The first `count` numbers: full words, and the rest in the last one. -/
def full (count : ℕ) : Words :=
  if count % 64 = 0 then List.replicate (count / 64) (BitVec.allOnes 64)
  else List.replicate (count / 64) (BitVec.allOnes 64) ++ [BitVec.twoPow 64 (count % 64) - 1]

/-- The lowest set bit of a word. -/
def lowestBit (word : BitVec 64) : Option ℕ := (List.range 64).find? fun bit => word.getLsbD bit

/-- The index of the first word that is not zero, of the words that stand from an index on. -/
def firstWord : Words → ℕ → Option ℕ
  | [], _ => none
  | word :: words, index => if word = 0 then firstWord words (index + 1) else some index

/-- The word and the bit of the scan from a word on. -/
def firstFrom (words : Words) (start : ℕ) : Option (ℕ × ℕ) := do
  let index ← firstWord (words.drop start) start
  let word ← words[index]?
  let bit ← lowestBit word
  pure (index, bit)

/-! ## One bit -/

@[simp] theorem length_insert (words : Words) (i : ℕ) : (insert words i).length = words.length :=
  List.length_modify ..

@[simp] theorem length_erase (words : Words) (i : ℕ) : (erase words i).length = words.length :=
  List.length_modify ..

theorem lt_of_holds {words : Words} {i : ℕ} (h : holds words i = true) : i / 64 < words.length := by
  unfold holds at h
  cases hw : words[i / 64]? with
  | none =>
    rw [hw] at h
    cases h
  | some word => exact (List.getElem?_eq_some_iff.mp hw).1

private theorem holds_modify (words : Words) (i j : ℕ) (f : BitVec 64 → BitVec 64) :
    holds (words.modify (i / 64) f) j =
      (words[j / 64]?).any fun word => (if i / 64 = j / 64 then f word else word).getLsbD
        (j % 64) := by
  unfold holds
  rw [List.getElem?_modify]
  cases words[j / 64]? with
  | none => simp
  | some word => by_cases h : i / 64 = j / 64 <;> simp [h]

theorem holds_insert {words : Words} {i : ℕ} (hi : i / 64 < words.length) (j : ℕ) :
    holds (insert words i) j = (decide (j = i) || holds words j) := by
  rw [insert, holds_modify]
  unfold holds
  by_cases hj : i / 64 = j / 64
  · have hlt : j / 64 < words.length := hj ▸ hi
    rw [List.getElem?_eq_getElem hlt]
    have hbit : j % 64 = i % 64 ↔ j = i := by omega
    have hmod : j % 64 < 64 := Nat.mod_lt _ (by decide)
    simp [hj, hbit, hmod, Bool.or_comm]
  · have hne : j ≠ i := by rintro rfl; exact hj rfl
    simp [hj, hne]

theorem holds_erase (words : Words) (i j : ℕ) :
    holds (erase words i) j = (!decide (j = i) && holds words j) := by
  rw [erase, holds_modify]
  unfold holds
  by_cases hj : i / 64 = j / 64
  · have hbit : j % 64 = i % 64 ↔ j = i := by omega
    have hmod : j % 64 < 64 := Nat.mod_lt _ (by decide)
    cases words[j / 64]? with
    | none => simp
    | some word => simp [hj, hbit, hmod, Bool.and_comm]
  · have hne : j ≠ i := by rintro rfl; exact hj rfl
    simp [hj, hne]

/-! ## The first words -/

private theorem getLsbD_twoPow_sub_one {n bit : ℕ} (hn : n < 64) :
    (BitVec.twoPow 64 n - 1).getLsbD bit = decide (bit < n) := by
  have htoNat : (BitVec.twoPow 64 n - 1).toNat = 2 ^ n - 1 := by
    have hpos : 0 < 2 ^ n := Nat.two_pow_pos n
    have hlt : 2 ^ n < 2 ^ 64 := Nat.pow_lt_pow_right (by decide) hn
    have hpow : (BitVec.twoPow 64 n).toNat = 2 ^ n := by
      rw [BitVec.toNat_twoPow, Nat.mod_eq_of_lt hlt]
    have hone : (1 : BitVec 64).toNat = 1 := by decide
    rw [BitVec.toNat_sub, hpow, hone]
    omega
  rw [BitVec.getLsbD, htoNat, Nat.testBit_two_pow_sub_one]

theorem length_full (count : ℕ) : (full count).length = (count + 63) / 64 := by
  unfold full
  split
  · rw [List.length_replicate]; omega
  · rw [List.length_append, List.length_replicate, List.length_singleton]; omega

theorem holds_full (count i : ℕ) : holds (full count) i = decide (i < count) := by
  have hbit : i % 64 < 64 := Nat.mod_lt _ (by decide)
  unfold holds full
  split
  · next h =>
    rw [List.getElem?_replicate]
    by_cases hi : i / 64 < count / 64
    · rw [if_pos hi, Option.any_some, BitVec.getLsbD_allOnes]
      simp [hbit, show i < count by omega]
    · simp [hi, show ¬ i < count by omega]
  · next h =>
    rcases Nat.lt_trichotomy (i / 64) (count / 64) with hi | hi | hi
    · rw [List.getElem?_append_left (by rwa [List.length_replicate]),
        List.getElem?_replicate, if_pos hi,
        Option.any_some, BitVec.getLsbD_allOnes]
      simp [hbit, show i < count by omega]
    · rw [List.getElem?_append_right (by rw [List.length_replicate]; omega), List.length_replicate,
        hi, Nat.sub_self,
        List.getElem?_cons_zero, Option.any_some, getLsbD_twoPow_sub_one (Nat.mod_lt _ (by decide))]
      exact decide_eq_decide.mpr (by omega)
    · rw [List.getElem?_append_right (by rw [List.length_replicate]; omega),
        List.getElem?_eq_none (by
        rw [List.length_replicate, List.length_singleton]; omega)]
      simp [show ¬ i < count by omega]

/-! ## The scan -/

theorem lowestBit_isSome {word : BitVec 64} (h : word ≠ 0) : ∃ bit, lowestBit word = some bit := by
  rw [← Option.isSome_iff_exists, lowestBit, List.find?_isSome]
  by_contra hnone
  apply h
  apply BitVec.eq_of_getLsbD_eq
  intro bit hbit
  by_contra hset
  exact hnone ⟨bit, List.mem_range.mpr hbit, by simpa using hset⟩

theorem lowestBit_spec {word : BitVec 64} {bit : ℕ} (h : lowestBit word = some bit) :
    bit < 64 ∧ word.getLsbD bit = true ∧ ∀ lower < bit, word.getLsbD lower = false := by
  unfold lowestBit at h
  rw [List.find?_range_eq_some] at h
  obtain ⟨hset, hmem, hlower⟩ := h
  exact ⟨List.mem_range.mp hmem, hset, fun lower hlt => by simpa using hlower lower hlt⟩

theorem firstWord_isSome {words : Words} {word : BitVec 64} (hmem : word ∈ words) (hne : word ≠ 0)
    (index : ℕ) :
    ∃ found, firstWord words index = some found := by
  induction words generalizing index with
  | nil => cases hmem
  | cons head rest ih =>
    rw [firstWord]
    by_cases hzero : head = 0
    · rw [if_pos hzero]
      rcases List.mem_cons.mp hmem with rfl | hrest
      · exact absurd hzero hne
      · exact ih hrest (index + 1)
    · rw [if_neg hzero]
      exact ⟨index, rfl⟩

theorem firstWord_spec {words : Words} {index found : ℕ} (h : firstWord words index = some found) :
    index ≤ found ∧ (∃ word, words[found - index]? = some word ∧ word ≠ 0) ∧
      ∀ k, index ≤ k → k < found → words[k - index]? = some 0 := by
  induction words generalizing index with
  | nil => cases h
  | cons head rest ih =>
    rw [firstWord] at h
    by_cases hzero : head = 0
    · rw [if_pos hzero] at h
      obtain ⟨hle, ⟨word, hword, hne⟩, hbelow⟩ := ih h
      refine ⟨by omega, ⟨word, ?_, hne⟩, fun k hk hlt => ?_⟩
      · rw [show found - index = found - (index + 1) + 1 by omega, List.getElem?_cons_succ, hword]
      · rcases Nat.eq_or_lt_of_le hk with rfl | hk
        · rw [Nat.sub_self, List.getElem?_cons_zero, hzero]
        · rw [show k - index = k - (index + 1) + 1 by omega, List.getElem?_cons_succ]
          exact hbelow k hk hlt
    · rw [if_neg hzero] at h
      cases h
      refine ⟨Nat.le_refl _, ⟨head, ?_, hzero⟩, fun k hk hlt => ?_⟩
      · rw [Nat.sub_self, List.getElem?_cons_zero]
      · exact absurd hk (by omega)

theorem firstFrom_isSome {words : Words} {start i : ℕ} (hheld : holds words i = true)
    (hstart : start ≤ i / 64) :
    ∃ found, firstFrom words start = some found := by
  have hlt : i / 64 < words.length := lt_of_holds hheld
  have hne : words[i / 64] ≠ 0 := by
    intro hzero
    rw [holds, List.getElem?_eq_getElem hlt, hzero] at hheld
    simp at hheld
  have hmem : words[i / 64] ∈ words.drop start :=
    List.mem_of_getElem? (i := i / 64 - start) (by
      rw [List.getElem?_drop, Nat.add_sub_cancel' hstart, List.getElem?_eq_getElem hlt])
  obtain ⟨index, hindex⟩ := firstWord_isSome hmem hne start
  obtain ⟨hle, ⟨word, hword, hnonzero⟩, -⟩ := firstWord_spec hindex
  rw [List.getElem?_drop, Nat.add_sub_cancel' hle] at hword
  obtain ⟨bit, hbit⟩ := lowestBit_isSome hnonzero
  exact ⟨(index, bit), by simp [firstFrom, hindex, hword, hbit]⟩

/-- What the scan finds is held, and no word between the start and it holds a number. -/
theorem firstFrom_spec {words : Words} {start index bit : ℕ}
    (h : firstFrom words start = some (index, bit)) :
    bit < 64 ∧ holds words (index * 64 + bit) = true ∧
      ∀ i, holds words i = true → start ≤ i / 64 → index ≤ i / 64 := by
  unfold firstFrom at h
  simp only [Option.bind_eq_bind, Option.bind_eq_some_iff, Option.pure_def, Option.some.injEq,
    Prod.mk.injEq] at h
  obtain ⟨found, hfound, word, hword, low, hlow, rfl, rfl⟩ := h
  obtain ⟨hbit, hset, -⟩ := lowestBit_spec hlow
  obtain ⟨-, -, hbelow⟩ := firstWord_spec hfound
  refine ⟨hbit, ?_, fun i hi hstart => ?_⟩
  · rw [holds, show (found * 64 + low) / 64 = found by omega, show (found * 64 + low) % 64
      = low by omega, hword]
    exact hset
  · by_contra hlt
    have hzero := hbelow (i / 64) hstart (by omega)
    rw [List.getElem?_drop, Nat.add_sub_cancel' hstart] at hzero
    rw [holds, hzero] at hi
    simp at hi

end PineForge.Bitmap
