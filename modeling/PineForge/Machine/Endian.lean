import Mathlib

/-!
# Words as bytes

Big-endian words have a fixed number of bytes, the highest first. Byte order is numeric order: two
words compare as their bytes do, and strings of parts of equal lengths compare part by part.
-/

namespace PineForge.BigEndian

instance neZero_byte : NeZero 256 := ⟨by decide⟩

/-- Bytes. -/
abbrev Bytes := List (Fin 256)

/-- The low `n` bytes of a word, the highest first. -/
def bytes : ℕ → ℕ → Bytes
  | 0, _ => []
  | n + 1, w => Fin.ofNat 256 (w / 256 ^ n) :: bytes n w

/-- The word of some bytes. -/
def word (bs : Bytes) : ℕ := bs.foldl (fun w b => w * 256 + b.val) 0

@[simp] theorem length_bytes (n w : ℕ) : (bytes n w).length = n := by
  induction n with
  | zero => rfl
  | succ n ih => rw [bytes, List.length_cons, ih]

theorem bytes_mod (n w : ℕ) : bytes n (w % 256 ^ n) = bytes n w := by
  have hmod : ∀ k, k ≤ n → bytes k (w % 256 ^ n) = bytes k w := by
    intro k
    induction k with
    | zero => exact fun _ => rfl
    | succ k ih =>
      intro hk
      have hhead : Fin.ofNat 256 (w % 256 ^ n / 256 ^ k) = Fin.ofNat 256 (w / 256 ^ k) := by
        refine Fin.ext ?_
        show w % 256 ^ n / 256 ^ k % 256 = w / 256 ^ k % 256
        obtain ⟨d, rfl⟩ : ∃ d, n = k + 1 + d := ⟨n - (k + 1), by omega⟩
        rw [show k + 1 + d = k + (1 + d) by ring, pow_add, Nat.mod_mul_right_div_self, pow_add,
          pow_one, Nat.mod_mul_right_mod]
      rw [bytes, bytes, hhead, ih (by omega)]
  exact hmod n le_rfl

theorem word_cons (b : Fin 256) (bs : Bytes) :
    word (b :: bs) = b.val * 256 ^ bs.length + word bs := by
  have hfold : ∀ (bs : Bytes) (w : ℕ), bs.foldl (fun w b => w * 256 + b.val) w
      = w * 256 ^ bs.length + word bs := by
    intro bs
    induction bs with
    | nil =>
      intro w
      simp [word]
    | cons b bs ih =>
      intro w
      have hword : word (b :: bs) = bs.foldl (fun w b => w * 256 + b.val) (0 * 256 + b.val) := rfl
      rw [List.foldl_cons, ih, hword, ih, List.length_cons, pow_succ]
      ring
  show bs.foldl (fun w b => w * 256 + b.val) (0 * 256 + b.val) = _
  rw [hfold, zero_mul, zero_add]

theorem word_bytes {n w : ℕ} (h : w < 256 ^ n) : word (bytes n w) = w := by
  induction n generalizing w with
  | zero =>
    rw [pow_zero] at h
    have hzero : w = 0 := by omega
    subst hzero
    rfl
  | succ n ih =>
    have hhead : w / 256 ^ n < 256 := Nat.div_lt_of_lt_mul (by rw [← pow_succ]; exact h)
    have htail : word (bytes n w) = w % 256 ^ n := by
      rw [← bytes_mod, ih (Nat.mod_lt _ (by positivity))]
    rw [bytes, word_cons, htail, length_bytes]
    show w / 256 ^ n % 256 * 256 ^ n + w % 256 ^ n = w
    rw [Nat.mod_eq_of_lt hhead, Nat.mul_comm]
    exact Nat.div_add_mod w (256 ^ n)

/-- The order of bytes is that of numbers. -/
theorem bytes_lt {n v w : ℕ} (hv : v < 256 ^ n) (hw : w < 256 ^ n) :
    bytes n v < bytes n w ↔ v < w := by
  induction n generalizing v w with
  | zero =>
    rw [pow_zero] at hv hw
    have hv : v = 0 := by omega
    have hw : w = 0 := by omega
    subst hv hw
    exact iff_of_false (lt_irrefl _) (lt_irrefl _)
  | succ n ih =>
    have hpos : 0 < 256 ^ n := by positivity
    have hvhead : v / 256 ^ n < 256 := Nat.div_lt_of_lt_mul (by rw [← pow_succ]; exact hv)
    have hwhead : w / 256 ^ n < 256 := Nat.div_lt_of_lt_mul (by rw [← pow_succ]; exact hw)
    have htail : bytes n v < bytes n w ↔ v % 256 ^ n < w % 256 ^ n := by
      rw [← bytes_mod n v, ← bytes_mod n w]
      exact ih (Nat.mod_lt _ hpos) (Nat.mod_lt _ hpos)
    have hheads : Fin.ofNat 256 (v / 256 ^ n) < Fin.ofNat 256 (w / 256 ^ n)
        ↔ v / 256 ^ n < w / 256 ^ n := by
      rw [Fin.lt_def]
      show v / 256 ^ n % 256 < w / 256 ^ n % 256 ↔ _
      rw [Nat.mod_eq_of_lt hvhead, Nat.mod_eq_of_lt hwhead]
    have hsame : Fin.ofNat 256 (v / 256 ^ n) = Fin.ofNat 256 (w / 256 ^ n)
        ↔ v / 256 ^ n = w / 256 ^ n := by
      rw [Fin.ext_iff]
      show v / 256 ^ n % 256 = w / 256 ^ n % 256 ↔ _
      rw [Nat.mod_eq_of_lt hvhead, Nat.mod_eq_of_lt hwhead]
    rw [bytes, bytes, List.cons_lt_cons_iff, hheads, hsame, htail]
    have hv' := Nat.div_add_mod v (256 ^ n)
    have hw' := Nat.div_add_mod w (256 ^ n)
    have hvm := Nat.mod_lt v hpos
    have hwm := Nat.mod_lt w hpos
    constructor
    · rintro (hlt | ⟨heq, hlt⟩)
      · exact Nat.lt_of_div_lt_div hlt
      · rw [heq] at hv'
        omega
    · intro hlt
      rcases lt_trichotomy (v / 256 ^ n) (w / 256 ^ n) with hlt' | heq | hgt
      · exact Or.inl hlt'
      · refine Or.inr ⟨heq, ?_⟩
        rw [heq] at hv'
        omega
      · exact absurd (Nat.lt_of_div_lt_div hgt) hlt.not_gt

theorem append_lt {a b c d : Bytes} (h : a.length = c.length) :
    a ++ b < c ++ d ↔ a < c ∨ a = c ∧ b < d := by
  induction a generalizing c with
  | nil =>
    have hc : c = [] := List.length_eq_zero_iff.mp h.symm
    subst hc
    simp
  | cons x a ih =>
    obtain ⟨y, c, rfl⟩ : ∃ y c', c = y :: c' := by
      cases c with
      | nil => cases h
      | cons y c => exact ⟨y, c, rfl⟩
    rw [List.cons_append, List.cons_append, List.cons_lt_cons_iff, List.cons_lt_cons_iff,
      ih (by simpa using h), List.cons.injEq]
    constructor
    · rintro (hlt | ⟨rfl, hlt | ⟨rfl, hlt⟩⟩)
      · exact Or.inl (Or.inl hlt)
      · exact Or.inl (Or.inr ⟨rfl, hlt⟩)
      · exact Or.inr ⟨⟨rfl, rfl⟩, hlt⟩
    · rintro ((hlt | ⟨rfl, hlt⟩) | ⟨⟨rfl, rfl⟩, hlt⟩)
      · exact Or.inl hlt
      · exact Or.inr ⟨rfl, Or.inl hlt⟩
      · exact Or.inr ⟨rfl, Or.inr ⟨rfl, hlt⟩⟩

end PineForge.BigEndian

/-!
## Little-endian words

A number as its bytes, the least first. The bytes of a number below the range of the word read back
as it.
-/

namespace PineForge.LittleEndian

/-- The `n` low bytes of a number. -/
def bytes : ℕ → ℕ → List (Fin 256)
  | 0, _ => []
  | n + 1, w => Fin.ofNat 256 w :: bytes n (w / 256)

/-- The number of little-endian bytes. -/
def word (bs : List (Fin 256)) : ℕ := bs.foldr (fun b w => b.val + 256 * w) 0

@[simp] theorem length_bytes (n : ℕ) : ∀ w, (bytes n w).length = n := by
  induction n with
  | zero =>
    intro w
    rfl
  | succ n ih =>
    intro w
    rw [bytes, List.length_cons, ih]

theorem word_bytes {n : ℕ} : ∀ {w : ℕ}, w < 256 ^ n → word (bytes n w) = w := by
  induction n with
  | zero =>
    intro w h
    rw [pow_zero, Nat.lt_one_iff] at h
    rw [h]
    rfl
  | succ n ih =>
    intro w h
    have hrest : w / 256 < 256 ^ n := by
      apply Nat.div_lt_of_lt_mul
      rwa [pow_succ, Nat.mul_comm] at h
    have hsplit : word (bytes (n + 1) w) = w % 256 + 256 * word (bytes n (w / 256)) := rfl
    rw [hsplit, ih hrest, Nat.mod_add_div]

end PineForge.LittleEndian
