import Mathlib

/-!
# The order of doubles is the order of their bits

`Float` is the IEEE binary64 of Lean's own model. The comparisons of two doubles that are no NaN are
those of their ranks, the bit patterns read as sign and magnitude; both zeros have rank zero. The
folded bits of a double, its sign bit flipped or all its bits flipped where it is negative, are in
the order of the ranks, but for the negative zero.
-/

namespace PineForge.FloatOrder

open Float.Model Float.Model.UnpackedFloat

/-- The bits of a double. -/
def bits (x : Float) : ℕ := x.toBits.toNat

/-- Sign and magnitude as an integer. -/
def rank (x : Float) : ℤ := if bits x < 2 ^ 63 then bits x else 2 ^ 63 - (bits x : ℤ)

/-- The exponent's bits. -/
def exponentField (x : Float) : ℕ := bits x / 2 ^ 52 % 2 ^ 11

/-- The mantissa's bits. -/
def mantissaField (x : Float) : ℕ := bits x % 2 ^ 52

/-- The sign of a double. -/
def signOf (x : Float) : Sign := if bits x < 2 ^ 63 then .positive else .negative

theorem bits_lt (x : Float) : bits x < 2 ^ 64 := x.toBits.toNat_lt

/-! ## Fields -/

section

variable (b : BitVec Format.binary64.numBits)

theorem unpackMantissa_toNat : (unpackMantissa b).toNat = b.toNat % 2 ^ 52 := by
  simp [unpackMantissa]

theorem unpackExponent_toNat : (unpackExponent b).toNat = b.toNat / 2 ^ 52 % 2 ^ 11 := by
  simp [unpackExponent, Nat.shiftRight_eq_div_pow]

theorem unpackSign_toNat : (unpackSign b).toNat = b.toNat / 2 ^ 63 % 2 := by
  simp [unpackSign, Nat.shiftRight_eq_div_pow]

end

/-- What a double unpacks to, by its fields. -/
inductive Unpacks (x : Float) : UnpackedFloat → Prop
  | infinity (he : exponentField x = 2047) (hm : mantissaField x = 0) :
    Unpacks x (.infinity (signOf x))
  | nan (he : exponentField x = 2047) (hm : mantissaField x ≠ 0) : Unpacks x .notANumber
  | zero (he : exponentField x = 0) (hm : mantissaField x = 0) : Unpacks x (.zero (signOf x))
  | subnormal (he : exponentField x = 0) (hm : 0 < mantissaField x) :
    Unpacks x (.finite (signOf x) (mantissaField x) (-1074) hm)
  | normal (he : 0 < exponentField x) (he' : exponentField x < 2047)
    (hm : 0 < 2 ^ 52 + mantissaField x) :
    Unpacks x (.finite (signOf x) (2 ^ 52 + mantissaField x) ((exponentField x : ℤ) - 1075) hm)

theorem exponentField_lt (x : Float) : exponentField x < 2 ^ 11 := Nat.mod_lt _ (by norm_num)

theorem mantissaField_lt (x : Float) : mantissaField x < 2 ^ 52 := Nat.mod_lt _ (by norm_num)

theorem bits_eq (x : Float) :
    bits x = (if bits x < 2 ^ 63 then 0 else 2 ^ 63) + exponentField x * 2 ^ 52
      + mantissaField x := by
  have hlt := bits_lt x
  unfold exponentField mantissaField
  split <;> omega

theorem ofBitVec_sign (x : Float) :
    Sign.ofBitVec (@unpackSign Format.binary64 x.toModel.toBits.toBitVec) = signOf x := by
  have hsign : (@unpackSign Format.binary64 x.toModel.toBits.toBitVec).toNat
      = bits x / 2 ^ 63 % 2 :=
    unpackSign_toNat _
  have hlt := bits_lt x
  unfold Sign.ofBitVec signOf
  by_cases hpos : bits x < 2 ^ 63
  · rw [if_pos hpos, if_pos]
    exact BitVec.eq_of_toNat_eq (by rw [hsign]; simp; omega)
  · rw [if_neg hpos, if_neg]
    intro hzero
    rw [hzero] at hsign
    simp at hsign
    omega

/-- The fields say what a double unpacks to. -/
theorem unpacks (x : Float) : Unpacks x x.toModel.unpack := by
  have hmantissa : (@unpackMantissa Format.binary64 x.toModel.toBits.toBitVec).toNat
      = mantissaField x := unpackMantissa_toNat _
  have hexponent : (@unpackExponent Format.binary64 x.toModel.toBits.toBitVec).toNat
      = exponentField x := unpackExponent_toNat _
  have hbias : Format.binary64.exponentBias = 1023 := rfl
  have hlt := exponentField_lt x
  have hmlt := mantissaField_lt x
  unfold Float.Model.unpack UnpackedFloat.unpack
  simp only [ofBitVec_sign, hbias]
  split
  · rename_i he
    have he : exponentField x = 2047 := by rw [← hexponent, he]; rfl
    split
    · rename_i hm
      exact .infinity he (by rw [← hmantissa, hm]; rfl)
    · rename_i hm
      refine .nan he fun hzero => hm (BitVec.eq_of_toNat_eq ?_)
      rw [hmantissa, hzero]
      rfl
  · rename_i he
    have hne : exponentField x ≠ 2047 := fun heq => he (BitVec.eq_of_toNat_eq (by
      rw [hexponent, heq]
      rfl))
    split
    · rename_i hzero
      have hzero : exponentField x = 0 := by rw [← hexponent, hzero]; rfl
      split
      · rename_i hm
        exact .zero hzero (by rw [← hmantissa, hm]; rfl)
      · rename_i hm
        have hpos : 0 < mantissaField x := by
          rw [← hmantissa]
          exact Nat.pos_of_ne_zero fun h0 => hm (BitVec.eq_of_toNat_eq (by rw [h0]; rfl))
        have hexp : ((@unpackExponent Format.binary64 x.toModel.toBits.toBitVec).toNat : ℤ)
            - ((1023 : ℕ) + (52 : ℕ)) + 1 = -1074 := by
          rw [hexponent, hzero]
          norm_num
        convert Unpacks.subnormal hzero hpos using 1
        simp only [hmantissa, hexp]
    · rename_i hzero
      have hpos : 0 < exponentField x :=
        Nat.pos_of_ne_zero fun h0 => hzero (BitVec.eq_of_toNat_eq (by
        rw [hexponent, h0]
        rfl))
      have hone : (1#1 ++ @unpackMantissa Format.binary64 x.toModel.toBits.toBitVec).toNat
          = 2 ^ 52 + mantissaField x := by
        rw [BitVec.toNat_append, ← Nat.shiftLeft_add_eq_or_of_lt
          (@unpackMantissa Format.binary64 x.toModel.toBits.toBitVec).isLt, hmantissa]
        rfl
      convert Unpacks.normal hpos (by omega) (by omega) using 1
      simp only [hone, hexponent]
      norm_num

/-! ## Comparisons -/

/-- The magnitude a finite mantissa and exponent stand for among the bit patterns. -/
def magnitude (m : ℕ) (e : ℤ) : ℤ := (e + 1074) * 2 ^ 52 + m

/-- A mantissa and an exponent as a double has them. -/
structure Canonical (m : ℕ) (e : ℤ) : Prop where
  pos : 0 < m
  lt : m < 2 ^ 53
  least : -1074 ≤ e
  greatest : e ≤ 971
  normal : e = -1074 ∨ 2 ^ 52 ≤ m

theorem Canonical.magnitude_pos {m : ℕ} {e : ℤ} (h : Canonical m e) : 0 < magnitude m e := by
  have := h.pos
  have := h.least
  unfold magnitude
  omega

theorem Canonical.magnitude_lt {m : ℕ} {e : ℤ} (h : Canonical m e) :
    magnitude m e < 2047 * 2 ^ 52 := by
  have := h.lt
  have := h.greatest
  unfold magnitude
  omega

theorem Canonical.compare {m m' : ℕ} {e e' : ℤ} (h : Canonical m e) (h' : Canonical m' e') :
    (compare e e').then (compare m m') = compare (magnitude m e) (magnitude m' e') := by
  have hlt := h.lt
  have hlt' := h'.lt
  have hleast := h.least
  have hleast' := h'.least
  have hnormal := h.normal
  have hnormal' := h'.normal
  rcases lt_trichotomy e e' with he | rfl | he
  · have hmag : magnitude m e < magnitude m' e' := by unfold magnitude; omega
    rw [compare_lt_iff_lt.mpr he, compare_lt_iff_lt.mpr hmag]
    rfl
  · rw [compare_eq_iff_eq.mpr (rfl : e = e), Ordering.eq_then]
    rcases lt_trichotomy m m' with hm | rfl | hm
    · have hmag : magnitude m e < magnitude m' e := by unfold magnitude; omega
      rw [compare_lt_iff_lt.mpr hm, compare_lt_iff_lt.mpr hmag]
    · rw [compare_eq_iff_eq.mpr rfl, compare_eq_iff_eq.mpr rfl]
    · have hmag : magnitude m' e < magnitude m e := by unfold magnitude; omega
      rw [compare_gt_iff_gt.mpr hm, compare_gt_iff_gt.mpr hmag]
  · have hmag : magnitude m' e' < magnitude m e := by unfold magnitude; omega
    rw [compare_gt_iff_gt.mpr he, compare_gt_iff_gt.mpr hmag]
    rfl

theorem compare_neg (a b : ℤ) : compare (-a) (-b) = (compare a b).swap := by
  rcases lt_trichotomy a b with h | rfl | h
  · rw [compare_lt_iff_lt.mpr h, compare_gt_iff_gt.mpr (neg_lt_neg h)]
    rfl
  · rw [compare_eq_iff_eq.mpr rfl, compare_eq_iff_eq.mpr rfl]
    rfl
  · rw [compare_gt_iff_gt.mpr h, compare_lt_iff_lt.mpr (neg_lt_neg h)]
    rfl

/-- Ranks of unpacked doubles. -/
inductive Ranked : UnpackedFloat → ℤ → Prop
  | infinity : Ranked (.infinity .positive) (2047 * 2 ^ 52)
  | negInfinity : Ranked (.infinity .negative) (-(2047 * 2 ^ 52))
  | zero (s : Sign) : Ranked (.zero s) 0
  | finite {m : ℕ} {e : ℤ} (h : Canonical m e) (hm : 0 < m) :
    Ranked (.finite .positive m e hm) (magnitude m e)
  | negFinite {m : ℕ} {e : ℤ} (h : Canonical m e) (hm : 0 < m) :
    Ranked (.finite .negative m e hm) (-magnitude m e)

/-- Comparisons are those of the ranks. -/
theorem Ranked.compare {u v : UnpackedFloat} {r t : ℤ} (hu : Ranked u r) (hv : Ranked v t) :
    u.compare v = some (compare r t) := by
  have hlt : ∀ {a b : ℤ}, a < b → Ord.compare a b = .lt := compare_lt_iff_lt.mpr
  have hgt : ∀ {a b : ℤ}, b < a → Ord.compare a b = .gt := fun h => compare_gt_iff_gt.mpr h
  have heq : ∀ a : ℤ, Ord.compare a a = .eq := fun a => compare_eq_iff_eq.mpr rfl
  cases hu with
  | infinity =>
    cases hv with
    | infinity => rw [heq]; rfl
    | negInfinity => rw [hgt (by norm_num)]; rfl
    | zero s => rw [hgt (by norm_num)]; rfl
    | finite h hm => rw [hgt h.magnitude_lt]; rfl
    | negFinite h hm => rw [hgt (by have := h.magnitude_pos; omega)]; rfl
  | negInfinity =>
    cases hv with
    | infinity => rw [hlt (by norm_num)]; rfl
    | negInfinity => rw [heq]; rfl
    | zero s => rw [hlt (by norm_num)]; rfl
    | finite h hm => rw [hlt (by have := h.magnitude_pos; omega)]; rfl
    | negFinite h hm => rw [hlt (by have := h.magnitude_lt; omega)]; rfl
  | zero s =>
    cases hv with
    | infinity => rw [hlt (by norm_num)]; rfl
    | negInfinity => rw [hgt (by norm_num)]; rfl
    | zero s => rw [heq]; rfl
    | finite h hm => rw [hlt h.magnitude_pos]; rfl
    | negFinite h hm => rw [hgt (by have := h.magnitude_pos; omega)]; rfl
  | finite h hm =>
    cases hv with
    | infinity => rw [hlt h.magnitude_lt]; rfl
    | negInfinity => rw [hgt (by have := h.magnitude_pos; omega)]; rfl
    | zero s => rw [hgt h.magnitude_pos]; rfl
    | finite h' hm' => rw [← h.compare h']; rfl
    | negFinite h' hm' =>
      rw [hgt (by have := h.magnitude_pos; have := h'.magnitude_pos; omega)]
      rfl
  | negFinite h hm =>
    cases hv with
    | infinity => rw [hlt (by have := h.magnitude_pos; omega)]; rfl
    | negInfinity => rw [hgt (by have := h.magnitude_lt; omega)]; rfl
    | zero s => rw [hlt (by have := h.magnitude_pos; omega)]; rfl
    | finite h' hm' =>
      rw [hlt (by have := h.magnitude_pos; have := h'.magnitude_pos; omega)]
      rfl
    | negFinite h' hm' =>
      rw [compare_neg, ← h.compare h']
      rfl

theorem rank_eq (x : Float) (hpos : bits x < 2 ^ 63) :
    rank x = exponentField x * 2 ^ 52 + mantissaField x := by
  have hbits := bits_eq x
  rw [if_pos hpos] at hbits
  unfold rank
  rw [if_pos hpos]
  omega

theorem rank_eq_neg (x : Float) (hneg : ¬bits x < 2 ^ 63) :
    rank x = -(exponentField x * 2 ^ 52 + mantissaField x : ℤ) := by
  have hbits := bits_eq x
  rw [if_neg hneg] at hbits
  unfold rank
  rw [if_neg hneg]
  omega

/-- The rank of a double is that of its fields. -/
theorem ranked {x : Float} (hx : x.isNaN = false) : Ranked x.toModel.unpack (rank x) := by
  have hmlt := mantissaField_lt x
  have hcases := unpacks x
  have hnan : x.toModel.unpack ≠ .notANumber := by
    intro heq
    have : x.isNaN = true := by
      unfold Float.isNaN Float.Model.isNaN
      rw [heq]
      rfl
    rw [hx] at this
    cases this
  by_cases hpos : bits x < 2 ^ 63
  · have hrank := rank_eq x hpos
    have hsign : signOf x = .positive := if_pos hpos
    generalize x.toModel.unpack = u at hcases hnan
    cases hcases with
    | infinity he hm =>
      rw [he, hm] at hrank
      rw [hsign, hrank]
      exact .infinity
    | nan he hm => exact absurd rfl hnan
    | zero he hm =>
      rw [he, hm] at hrank
      rw [hrank]
      exact .zero _
    | subnormal he hm =>
      have hmag : rank x = magnitude (mantissaField x) (-1074) := by
        unfold magnitude
        omega
      rw [hsign, hmag]
      exact .finite ⟨hm, by omega, by omega, by omega, Or.inl rfl⟩ hm
    | normal he he' hm =>
      have hmag : rank x = magnitude (2 ^ 52 + mantissaField x) ((exponentField x : ℤ) - 1075) := by
        unfold magnitude
        push_cast
        omega
      rw [hsign, hmag]
      exact .finite ⟨hm, by omega, by omega, by omega, Or.inr (by omega)⟩ hm
  · have hrank := rank_eq_neg x hpos
    have hsign : signOf x = .negative := if_neg hpos
    generalize x.toModel.unpack = u at hcases hnan
    cases hcases with
    | infinity he hm =>
      rw [he, hm] at hrank
      rw [hsign, hrank]
      exact .negInfinity
    | nan he hm => exact absurd rfl hnan
    | zero he hm =>
      rw [he, hm] at hrank
      rw [hrank]
      exact .zero _
    | subnormal he hm =>
      have hmag : rank x = -magnitude (mantissaField x) (-1074) := by
        unfold magnitude
        omega
      rw [hsign, hmag]
      exact .negFinite ⟨hm, by omega, by omega, by omega, Or.inl rfl⟩ hm
    | normal he he' hm =>
      have hmag : rank x = -magnitude (2 ^ 52 + mantissaField x)
          ((exponentField x : ℤ) - 1075) := by
        unfold magnitude
        push_cast
        omega
      rw [hsign, hmag]
      exact .negFinite ⟨hm, by omega, by omega, by omega, Or.inr (by omega)⟩ hm

theorem le_def (x y : Float) :
    x ≤ y ↔ (x.toModel.unpack.compare y.toModel.unpack).any (·.isLE) = true := by
  show decide (x.toModel ≤ y.toModel) = true ↔ _
  rw [decide_eq_true_iff]
  rfl

theorem le_iff {x y : Float} (hx : x.isNaN = false) (hy : y.isNaN = false) :
    x ≤ y ↔ rank x ≤ rank y := by
  have hcompare := (ranked hx).compare (ranked hy)
  rw [le_def, hcompare, Option.any_some, Ordering.isLE_iff_ne_gt, compare_gt_iff_gt, not_lt]

theorem lt_def (x y : Float) :
    x < y ↔ (x.toModel.unpack.compare y.toModel.unpack == some .lt) = true := by
  show decide (x.toModel < y.toModel) = true ↔ _
  rw [decide_eq_true_iff]
  rfl

theorem lt_iff {x y : Float} (hx : x.isNaN = false) (hy : y.isNaN = false) :
    x < y ↔ rank x < rank y := by
  have hcompare := (ranked hx).compare (ranked hy)
  rw [lt_def, hcompare, beq_iff_eq, Option.some.injEq, compare_lt_iff_lt]

theorem beq_iff {x y : Float} (hx : x.isNaN = false) (hy : y.isNaN = false) :
    (x == y) = true ↔ rank x = rank y := by
  have hcompare := (ranked hx).compare (ranked hy)
  show (x.toModel.unpack.compare y.toModel.unpack == some .eq) = true ↔ _
  rw [hcompare, beq_iff_eq, Option.some.injEq, compare_eq_iff_eq]

theorem unpack_nan {x : Float} (hx : x.isNaN = true) : x.toModel.unpack = .notANumber := by
  have hnan : x.toModel.unpack.isNaN = true := hx
  revert hnan
  generalize x.toModel.unpack = u
  intro hnan
  cases u with
  | notANumber => rfl
  | infinity s => cases hnan
  | zero s => cases hnan
  | finite s m e hm => cases hnan

theorem compare_nan {x y : Float} (h : x.isNaN = true ∨ y.isNaN = true) :
    x.toModel.unpack.compare y.toModel.unpack = none := by
  rcases h with h | h
  · rw [unpack_nan h]
    rfl
  · rw [unpack_nan h]
    cases x.toModel.unpack with
    | notANumber => rfl
    | infinity s => cases s <;> rfl
    | zero s => rfl
    | finite s m e hm => cases s <;> rfl

theorem not_le_nan {x y : Float} (h : x.isNaN = true ∨ y.isNaN = true) : ¬x ≤ y := by
  rw [le_def, compare_nan h]
  exact Bool.false_ne_true

theorem not_lt_nan {x y : Float} (h : x.isNaN = true ∨ y.isNaN = true) : ¬x < y := by
  rw [lt_def, compare_nan h]
  exact Bool.false_ne_true

theorem beq_nan {x y : Float} (h : x.isNaN = true ∨ y.isNaN = true) : (x == y) = false := by
  show (x.toModel.unpack.compare y.toModel.unpack == some .eq) = false
  rw [compare_nan h]
  rfl

theorem le_congr {x y t : Float} (hx : x.isNaN = false) (hy : y.isNaN = false)
    (h : rank x = rank y) : (t ≤ x ↔ t ≤ y) ∧ (x ≤ t ↔ y ≤ t) := by
  cases ht : t.isNaN with
  | true => exact ⟨iff_of_false (not_le_nan (.inl ht)) (not_le_nan (.inl ht)),
      iff_of_false (not_le_nan (.inr ht)) (not_le_nan (.inr ht))⟩
  | false => rw [le_iff ht hx, le_iff ht hy, le_iff hx ht, le_iff hy ht, h]; exact ⟨.rfl, .rfl⟩

theorem le_mono {x y t : Float} (hx : x.isNaN = false) (hy : y.isNaN = false)
    (h : rank x ≤ rank y) : (t ≤ x → t ≤ y) ∧ (y ≤ t → x ≤ t) := by
  cases ht : t.isNaN with
  | true => exact ⟨fun hle => absurd hle (not_le_nan (.inl ht)),
      fun hle => absurd hle (not_le_nan (.inr ht))⟩
  | false =>
    rw [le_iff ht hx, le_iff ht hy, le_iff hx ht, le_iff hy ht]
    exact ⟨fun hle => hle.trans h, fun hle => h.trans hle⟩

theorem isNaN_of_isFinite {x : Float} (h : x.isFinite = true) : x.isNaN = false := by
  have hfinite : x.toModel.unpack.isFinite = true := h
  show x.toModel.unpack.isNaN = false
  revert hfinite
  generalize x.toModel.unpack = u
  intro hfinite
  cases u with
  | notANumber => cases hfinite
  | infinity s => cases hfinite
  | zero s => rfl
  | finite s m e hm => rfl

/-! ## Bits and back -/

/-- The sign bit of a sign. -/
def signBit : Sign → ℕ
  | .positive => 0
  | .negative => 2 ^ 63

theorem packComponents_toNat (sign : Sign) (e : BitVec 11) (m : BitVec 52) :
    (packComponents Format.binary64 sign e m).toNat
      = signBit sign + e.toNat * 2 ^ 52 + m.toNat := by
  unfold packComponents
  rw [BitVec.toNat_append, ← Nat.shiftLeft_add_eq_or_of_lt m.isLt, BitVec.toNat_append,
    ← Nat.shiftLeft_add_eq_or_of_lt e.isLt, Nat.shiftLeft_eq, Nat.shiftLeft_eq]
  cases sign with
  | positive =>
    have : Sign.positive.toBitVec.toNat = 0 := rfl
    rw [this, signBit]
    omega
  | negative =>
    have : Sign.negative.toBitVec.toNat = 1 := rfl
    rw [this, signBit]
    omega

theorem signOf_bits (x : Float) :
    signBit (signOf x) + exponentField x * 2 ^ 52 + mantissaField x = bits x := by
  have hbits := bits_eq x
  unfold signOf
  split at hbits
  · rename_i hpos
    rw [if_pos hpos, signBit]
    omega
  · rename_i hneg
    rw [if_neg hneg, signBit]
    omega

theorem toBits_injective {x y : Float} (h : x.toBits = y.toBits) : x = y := by
  obtain ⟨⟨bits, valid⟩⟩ := x
  obtain ⟨⟨bits', valid'⟩⟩ := y
  have hbits : bits = bits' := h
  subst hbits
  rfl

/-- The bits of a double give it back. -/
theorem ofBits_toBits {x : Float} (hx : x.isNaN = false) : Float.ofBits x.toBits = x := by
  have hbias : Format.binary64.exponentBias = 1023 := rfl
  have hbits := signOf_bits x
  have helt := exponentField_lt x
  have hmlt := mantissaField_lt x
  have hpack : (UnpackedFloat.pack Format.binary64 x.toModel.unpack).toNat = bits x := by
    have hcases := unpacks x
    have hnan : x.toModel.unpack ≠ .notANumber := by
      intro heq
      have : x.toModel.unpack.isNaN = false := hx
      rw [heq] at this
      cases this
    generalize x.toModel.unpack = u at hcases hnan
    cases hcases with
    | infinity he hm =>
      rw [← hbits, he, hm]
      exact packComponents_toNat (signOf x) _ _
    | nan he hm => exact absurd rfl hnan
    | zero he hm =>
      rw [← hbits, he, hm]
      exact packComponents_toNat (signOf x) 0#11 0#52
    | subnormal he hm =>
      have hlog : (mantissaField x).log2 < 52 := (Nat.log2_lt hm.ne').mpr hmlt
      have hpacked : UnpackedFloat.pack Format.binary64
            (.finite (signOf x) (mantissaField x) (-1074) hm)
          = packComponents Format.binary64 (signOf x) 0#11 (BitVec.ofNat 52 (mantissaField x)) := by
        unfold UnpackedFloat.pack
        simp only [hbias]
        rw [if_neg (by norm_num), if_neg]
        have : Format.binary64.mantissaBits = 53 := rfl
        omega
      have hmantissa : (BitVec.ofNat 52 (mantissaField x)).toNat = mantissaField x := by
        rw [BitVec.toNat_ofNat, Nat.mod_eq_of_lt hmlt]
      rw [hpacked, packComponents_toNat, ← hbits, he, hmantissa]
      rfl
    | normal he he' hm =>
      have hlog : (2 ^ 52 + mantissaField x).log2 = 52 := by
        refine (Nat.log2_eq_iff hm.ne').mpr ?_
        omega
      have hexponent : ((exponentField x : ℤ) - 1075 + (1023 : ℕ) + (52 : ℕ)).toNat
          = exponentField x := by omega
      have hpacked : UnpackedFloat.pack Format.binary64
            (.finite (signOf x) (2 ^ 52 + mantissaField x) ((exponentField x : ℤ) - 1075) hm)
          = packComponents Format.binary64 (signOf x) (BitVec.ofNat 11 (exponentField x))
            (BitVec.ofNat 52 (2 ^ 52 + mantissaField x)) := by
        unfold UnpackedFloat.pack
        simp only [hbias, hexponent]
        rw [if_neg (by omega), if_pos]
        have : Format.binary64.mantissaBits = 53 := rfl
        omega
      rw [hpacked, packComponents_toNat, ← hbits, BitVec.toNat_ofNat, BitVec.toNat_ofNat,
        Nat.mod_eq_of_lt helt, Nat.add_mod_left, Nat.mod_eq_of_lt hmlt]
  have hmodel : (Float.ofBits x.toBits).toBits = x.toBits := by
    refine UInt64.toNat_inj.mp ?_
    exact hpack
  exact toBits_injective hmodel

/-! ## Folded bits -/

/-- The bits with the sign bit flipped, or all bits flipped where it is set. -/
def folded (x : Float) : ℕ := if bits x < 2 ^ 63 then bits x + 2 ^ 63 else 2 ^ 64 - 1 - bits x

/-- A double from its folded bits. -/
def unfolded (n : ℕ) : Float :=
  Float.ofBits (UInt64.ofNat (if n < 2 ^ 63 then 2 ^ 64 - 1 - n else n - 2 ^ 63))

theorem folded_lt (x : Float) : folded x < 2 ^ 64 := by
  have := bits_lt x
  unfold folded
  split <;> omega

theorem unfolded_folded {x : Float} (hx : x.isNaN = false) : unfolded (folded x) = x := by
  have hlt := bits_lt x
  have hbits : (if folded x < 2 ^ 63 then 2 ^ 64 - 1 - folded x else folded x - 2 ^ 63)
      = bits x := by
    unfold folded
    split <;> split <;> omega
  have hback : UInt64.ofNat (bits x) = x.toBits := UInt64.ofNat_toNat
  unfold unfolded
  rw [hbits, hback, ofBits_toBits hx]

/-- No negative zero. -/
def Plain (x : Float) : Prop := bits x ≠ 2 ^ 63

theorem folded_le_iff {x y : Float} (hy : Plain y) :
    folded x ≤ folded y ↔ rank x ≤ rank y := by
  have hlt := bits_lt x
  have hlt' := bits_lt y
  unfold Plain at hy
  unfold folded rank
  split <;> split <;> omega

theorem folded_injective {x y : Float} (h : folded x = folded y) : x = y := by
  have hlt := bits_lt x
  have hlt' := bits_lt y
  refine toBits_injective (UInt64.toNat_inj.mp ?_)
  show bits x = bits y
  unfold folded at h
  split at h <;> split at h <;> omega

/-- The zero of a zero, any other double itself. -/
def unsignedZero (x : Float) : Float := if x == 0.0 then 0.0 else x

theorem rank_zero : rank 0.0 = 0 := by decide +kernel

theorem isNaN_zero : (0.0 : Float).isNaN = false := by decide +kernel

theorem plain_zero : Plain 0.0 := by
  unfold Plain
  decide +kernel

theorem isNaN_unsignedZero {x : Float} (hx : x.isNaN = false) : (unsignedZero x).isNaN = false := by
  unfold unsignedZero
  split
  · exact isNaN_zero
  · exact hx

theorem rank_unsignedZero {x : Float} (hx : x.isNaN = false) : rank (unsignedZero x) = rank x := by
  unfold unsignedZero
  split
  · rename_i hzero
    rw [rank_zero, (beq_iff hx isNaN_zero).mp hzero, rank_zero]
  · rfl

theorem plain_unsignedZero {x : Float} (hx : x.isNaN = false) : Plain (unsignedZero x) := by
  unfold unsignedZero
  split
  · exact plain_zero
  · rename_i hzero
    intro hbits
    refine hzero ((beq_iff hx isNaN_zero).mpr ?_)
    rw [rank_zero]
    unfold rank
    rw [hbits]
    norm_num

theorem rank_pos {x : Float} (h : 0.0 < x) : x.isNaN = false ∧ 0 < rank x := by
  have hx : x.isNaN = false := by
    by_contra hnan
    exact not_lt_nan (.inr (Bool.not_eq_false _ ▸ hnan)) h
  exact ⟨hx, rank_zero ▸ (lt_iff isNaN_zero hx).mp h⟩

theorem eq_of_beq_pos {x y : Float} (h : (x == y) = true) (hpos : 0.0 < y) : x = y := by
  obtain ⟨hy, hrankPos⟩ := rank_pos hpos
  have hx : x.isNaN = false := by
    by_contra hnan
    rw [beq_nan (.inl (Bool.not_eq_false _ ▸ hnan))] at h
    exact Bool.false_ne_true h
  have hrank := (beq_iff hx hy).mp h
  have hplain : ∀ z : Float, 0 < rank z → Plain z := by
    intro z hz hbits
    unfold rank at hz
    rw [hbits] at hz
    norm_num at hz
  refine folded_injective (le_antisymm ?_ ?_)
  · exact (folded_le_iff (hplain y hrankPos)).mpr hrank.le
  · exact (folded_le_iff (hplain x (hrank ▸ hrankPos))).mpr hrank.ge

end PineForge.FloatOrder
