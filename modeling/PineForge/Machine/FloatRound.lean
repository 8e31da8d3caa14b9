import PineForge.Machine.FloatOrder
import PineForge.Machine.Nearest

/-!
# Arithmetic of doubles is rounded arithmetic of rationals

The operations of Lean's binary64 model drop bits of a mantissa while two residual bits keep what
was dropped. Here these bits are read as a rational, and an operation on doubles that are not
negative is shown to give the nearest number of the exact result, as long as that is in range.
-/

namespace PineForge.FloatRound

open Float.Model Float.Model.UnpackedFloat Nearest FloatOrder

/-! ## Extended mantissas -/

/-- The mantissa and the residual bits of a rational. -/
structure Extends (em : ExtendedMantissa) (y : ℚ) : Prop where
  low : (em.mantissa : ℚ) ≤ y
  high : y < em.mantissa + 1
  round : em.roundBit = true ↔ 1 / 2 ≤ y - em.mantissa
  sticky : em.stickyBit = true ↔ y - em.mantissa ≠ 0 ∧ y - em.mantissa ≠ 1 / 2

theorem Extends.inexact {em : ExtendedMantissa} {y : ℚ} (h : Extends em y) :
    (em.roundBit || em.stickyBit) = true ↔ y - em.mantissa ≠ 0 := by
  rw [Bool.or_eq_true, h.round, h.sticky]
  constructor
  · intro hor hzero
    rw [hzero] at hor
    obtain hhalf | ⟨hne, -⟩ := hor
    · norm_num at hhalf
    · exact hne rfl
  · intro hne
    by_cases hhalf : y - em.mantissa = 1 / 2
    · exact .inl hhalf.ge
    · exact .inr ⟨hne, hhalf⟩

/-- A shift by one place halves. -/
theorem Extends.shiftRightOne {em : ExtendedMantissa} {y : ℚ} (h : Extends em y) :
    Extends em.shiftRightOne (y / 2) := by
  have hlow := h.low
  have hhigh := h.high
  have hsplit : (em.mantissa : ℚ) = 2 * (em.mantissa / 2 : ℕ) + (em.mantissa % 2 : ℕ) := by
    exact_mod_cast (Nat.div_add_mod em.mantissa 2).symm
  have hinexact := h.inexact
  obtain hparity | hparity := Nat.mod_two_eq_zero_or_one em.mantissa
  · rw [hparity, Nat.cast_zero, add_zero] at hsplit
    have hround : (em.mantissa % 2 != 0) = false := by rw [hparity]; rfl
    refine ⟨?_, ?_, ?_, ?_⟩
    · change ((em.mantissa / 2 : ℕ) : ℚ) ≤ y / 2
      linarith
    · change y / 2 < ((em.mantissa / 2 : ℕ) : ℚ) + 1
      linarith
    · change (em.mantissa % 2 != 0) = true ↔ 1 / 2 ≤ y / 2 - ((em.mantissa / 2 : ℕ) : ℚ)
      rw [hround]
      exact iff_of_false Bool.false_ne_true (by intro hle; linarith)
    · change (em.roundBit || em.stickyBit) = true ↔ _
      rw [hinexact]
      change _ ↔ y / 2 - ((em.mantissa / 2 : ℕ) : ℚ) ≠ 0 ∧
        y / 2 - ((em.mantissa / 2 : ℕ) : ℚ) ≠ 1 / 2
      constructor
      · intro hne
        refine ⟨fun hzero => hne (by linarith), fun hhalf => ?_⟩
        linarith
      · intro hne hzero
        exact hne.1 (by linarith)
  · rw [hparity, Nat.cast_one] at hsplit
    have hround : (em.mantissa % 2 != 0) = true := by rw [hparity]; rfl
    refine ⟨?_, ?_, ?_, ?_⟩
    · change ((em.mantissa / 2 : ℕ) : ℚ) ≤ y / 2
      linarith
    · change y / 2 < ((em.mantissa / 2 : ℕ) : ℚ) + 1
      linarith
    · change (em.mantissa % 2 != 0) = true ↔ 1 / 2 ≤ y / 2 - ((em.mantissa / 2 : ℕ) : ℚ)
      rw [hround]
      exact iff_of_true rfl (by linarith)
    · change (em.roundBit || em.stickyBit) = true ↔ _
      rw [hinexact]
      change _ ↔ y / 2 - ((em.mantissa / 2 : ℕ) : ℚ) ≠ 0 ∧
        y / 2 - ((em.mantissa / 2 : ℕ) : ℚ) ≠ 1 / 2
      constructor
      · intro hne
        refine ⟨fun hzero => ?_, fun hhalf => hne (by linarith)⟩
        linarith
      · intro hne hzero
        exact hne.2 (by linarith)

theorem Extends.shiftRight {em : ExtendedMantissa} {y : ℚ} (h : Extends em y) (n : ℕ) :
    Extends (em >>> n) (y / 2 ^ n) := by
  induction n with
  | zero =>
    rw [pow_zero, div_one]
    exact h
  | succ n ih =>
    have hstep := ih.shiftRightOne
    rw [div_div, ← pow_succ] at hstep
    exact hstep

/-- The rounded mantissa is the even one. -/
theorem Extends.roundedMantissa {em : ExtendedMantissa} {y : ℚ} (h : Extends em y) :
    em.roundedMantissa = roundEven y := by
  have hround := h.round
  have hsticky := h.sticky
  have hfloor : ⌊y⌋₊ = em.mantissa := (Nat.floor_eq_iff (le_trans (Nat.cast_nonneg _) h.low)).mpr
    ⟨h.low, h.high⟩
  obtain ⟨mantissa, roundBit, stickyBit⟩ := em
  change ⌊y⌋₊ = mantissa at hfloor
  dsimp only at hround hsticky
  unfold roundEven
  rw [hfloor]
  cases roundBit with
  | false =>
    have hlow : y - mantissa < 1 / 2 := not_le.mp fun hle => Bool.false_ne_true (hround.mpr hle)
    rw [if_pos hlow]
    cases stickyBit with
    | false => rfl
    | true => rfl
  | true =>
    have hhigh : 1 / 2 ≤ y - mantissa := hround.mp rfl
    rw [if_neg (not_lt.mpr hhigh)]
    cases stickyBit with
    | false =>
      have hhalf : ¬1 / 2 < y - mantissa := by
        intro hlt
        refine Bool.false_ne_true (hsticky.mpr ⟨?_, hlt.ne'⟩)
        linarith
      rw [if_neg hhalf]
      rfl
    | true =>
      have hne := (hsticky.mp rfl).2
      rw [if_pos (lt_of_le_of_ne hhigh hne.symm)]
      rfl

/-- What an accuracy says about the fraction that was dropped. -/
def Drops : Accuracy → ℚ → Prop
  | .exact, θ => θ = 0
  | .inexact o, θ => 0 < θ ∧ θ < 1 ∧ compare θ (1 / 2) = o

/-- A mantissa and what was dropped. -/
theorem extends_ofMantissaAndAccuracy {m : ℕ} {acc : Accuracy} {θ : ℚ} (h : Drops acc θ) :
    Extends (.ofMantissaAndAccuracy m acc) (m + θ) := by
  cases acc with
  | exact =>
    cases h
    refine ⟨?_, ?_, ?_, ?_⟩
    · change (m : ℚ) ≤ m + 0
      linarith
    · change (m : ℚ) + 0 < m + 1
      linarith
    · refine iff_of_false Bool.false_ne_true ?_
      change ¬1 / 2 ≤ (m : ℚ) + 0 - m
      norm_num
    · refine iff_of_false Bool.false_ne_true ?_
      change ¬((m : ℚ) + 0 - m ≠ 0 ∧ _)
      rw [add_zero, sub_self]
      exact fun hne => hne.1 rfl
  | inexact o =>
    obtain ⟨hpos, hlt, hcompare⟩ := h
    have hfract : (m : ℚ) + θ - m = θ := add_sub_cancel_left _ _
    cases o with
    | lt =>
      have hhalf := compare_lt_iff_lt.mp hcompare
      refine ⟨?_, ?_, ?_, ?_⟩
      · exact le_add_of_nonneg_right hpos.le
      · exact add_lt_add_right hlt _
      · refine iff_of_false Bool.false_ne_true ?_
        change ¬1 / 2 ≤ (m : ℚ) + θ - m
        rw [hfract]
        exact not_le.mpr hhalf
      · refine iff_of_true rfl ?_
        change (m : ℚ) + θ - m ≠ 0 ∧ (m : ℚ) + θ - m ≠ 1 / 2
        rw [hfract]
        exact ⟨hpos.ne', hhalf.ne⟩
    | eq =>
      have hhalf := compare_eq_iff_eq.mp hcompare
      refine ⟨?_, ?_, ?_, ?_⟩
      · exact le_add_of_nonneg_right hpos.le
      · exact add_lt_add_right hlt _
      · refine iff_of_true rfl ?_
        change 1 / 2 ≤ (m : ℚ) + θ - m
        rw [hfract]
        exact hhalf.ge
      · refine iff_of_false Bool.false_ne_true ?_
        change ¬((m : ℚ) + θ - m ≠ 0 ∧ (m : ℚ) + θ - m ≠ 1 / 2)
        rw [hfract]
        exact fun hne => hne.2 hhalf
    | gt =>
      have hhalf : 1 / 2 < θ := compare_gt_iff_gt.mp hcompare
      refine ⟨?_, ?_, ?_, ?_⟩
      · exact le_add_of_nonneg_right hpos.le
      · exact add_lt_add_right hlt _
      · refine iff_of_true rfl ?_
        change 1 / 2 ≤ (m : ℚ) + θ - m
        rw [hfract]
        exact hhalf.le
      · refine iff_of_true rfl ?_
        change (m : ℚ) + θ - m ≠ 0 ∧ (m : ℚ) + θ - m ≠ 1 / 2
        rw [hfract]
        exact ⟨hpos.ne', hhalf.ne'⟩

/-! ## Rounding -/

/-- A result of rounding: a mantissa and an exponent of the format, with no bound on the
exponent. -/
inductive Rounded (s : Sign) : UnpackedFloat → ℚ → Prop
  | zero : Rounded s (.zero s) 0
  | finite {m : ℕ} {e : ℤ} (pos : 0 < m) (lt : m < 2 ^ 53) (least : -1074 ≤ e)
    (normal : e = -1074 ∨ 2 ^ 52 ≤ m) : Rounded s (.finite s m e pos) (m * 2 ^ e)

theorem targetExponent_eq (t : ℤ) : Format.binary64.targetExponent t = max (t - 53) (-1074) := rfl

theorem shiftToTargetExponent_fits {m : ℕ} {e : ℤ} (hm : m < 2 ^ 53) (he : -1074 ≤ e) :
    shiftToTargetExponent Format.binary64 m e .exact = (⟨m, false, false⟩, e) := by
  have hlog : m.log2 < 53 := by
    obtain rfl | hpos := Nat.eq_zero_or_pos m
    · rw [Nat.log2_zero]
      norm_num
    · exact (Nat.log2_lt hpos.ne').mpr hm
  have hshift : (Format.binary64.targetExponent (totalExponent m e) - e).toNat = 0 := by
    rw [targetExponent_eq, totalExponent]
    omega
  unfold shiftToTargetExponent shiftToExponent
  dsimp only
  rw [hshift]
  exact Prod.ext rfl (add_zero e)

/-- A mantissa that rounding carried into one bit more is shifted by one. -/
theorem shiftToTargetExponent_carry {e : ℤ} (he : -1074 ≤ e) :
    shiftToTargetExponent Format.binary64 (2 ^ 53) e .exact = (⟨2 ^ 52, false, false⟩, e + 1) := by
  have hshift : (Format.binary64.targetExponent (totalExponent (2 ^ 53) e) - e).toNat = 1 := by
    rw [targetExponent_eq, totalExponent, Nat.log2_two_pow]
    omega
  unfold shiftToTargetExponent shiftToExponent
  dsimp only
  rw [hshift]
  rfl

section

variable {m : ℕ} {e : ℤ} {acc : Accuracy} {θ : ℚ}

theorem log_scaled (hm : 0 < m) (hθ : 0 ≤ θ) (hθ' : θ < 1) :
    Int.log 2 (((m : ℚ) + θ) * 2 ^ e) + 1 = totalExponent m e := by
  have hlow : ((2 ^ m.log2 : ℕ) : ℚ) ≤ m := by exact_mod_cast Nat.log2_self_le hm.ne'
  have hhigh : (m : ℚ) + 1 ≤ (2 ^ (m.log2 + 1) : ℕ) := by exact_mod_cast Nat.lt_log2_self
  have hpos : (0 : ℚ) < 2 ^ e := zpow_pos two_pos e
  have hlog : Int.log 2 (((m : ℚ) + θ) * 2 ^ e) = m.log2 + e := by
    refine log_eq ?_ ?_
    · rw [zpow_add₀ two_ne_zero, zpow_natCast]
      refine mul_le_mul_of_nonneg_right ?_ hpos.le
      push_cast at hlow
      linarith
    · rw [add_right_comm, zpow_add₀ two_ne_zero]
      refine mul_lt_mul_of_pos_right ?_ hpos
      rw [← Nat.cast_succ, zpow_natCast, Nat.succ_eq_add_one]
      push_cast at hhigh
      linarith
  rw [hlog, totalExponent]
  ring

theorem ulpExponent_scaled (hm : 0 < m) (hθ : 0 ≤ θ) (hθ' : θ < 1) :
    ulpExponent (((m : ℚ) + θ) * 2 ^ e) = Format.binary64.targetExponent (totalExponent m e) := by
  rw [targetExponent_eq, ← log_scaled hm hθ hθ', ulpExponent]
  congr 1
  ring

theorem Drops.nonneg (h : Drops acc θ) : 0 ≤ θ := by
  cases acc with
  | exact => exact h.ge
  | inexact o => exact h.1.le

theorem Drops.lt_one (h : Drops acc θ) : θ < 1 := by
  cases acc with
  | exact =>
    rw [h]
    norm_num
  | inexact o => exact h.2.1

/-- Rounding a mantissa that was not shifted too far gives the nearest number. -/
theorem roundWithAccuracy_rounded (s : Sign) (hm : 0 < m) (hdrops : Drops acc θ)
    (he : e ≤ Format.binary64.targetExponent (totalExponent m e)) :
    Rounded s (roundWithAccuracy Format.binary64 s m e acc) (nearest (((m : ℚ) + θ) * 2 ^ e)) := by
  have hulp := ulpExponent_scaled (e := e) hm hdrops.nonneg hdrops.lt_one
  obtain ⟨d, hd⟩ := Int.le.dest he
  have hleast : -1074 ≤ e + d := by
    rw [hd, targetExponent_eq]
    exact le_max_right _ _
  have hq : 0 ≤ ((m : ℚ) + θ) * 2 ^ e :=
    mul_nonneg (add_nonneg (Nat.cast_nonneg m) hdrops.nonneg) (zpow_nonneg zero_le_two e)
  have hcount : ((m : ℚ) + θ) * 2 ^ e / 2 ^ ulpExponent (((m : ℚ) + θ) * 2 ^ e)
      = ((m : ℚ) + θ) / 2 ^ d := by
    rw [hulp, ← hd, zpow_add₀ two_ne_zero, zpow_natCast, mul_comm ((2 : ℚ) ^ e),
      mul_div_mul_right _ _ (zpow_pos two_pos e).ne']
  have hshift : (Format.binary64.targetExponent (totalExponent m e) - e).toNat = d := by omega
  have hextends := (extends_ofMantissaAndAccuracy (m := m) hdrops).shiftRight d
  have hrounded := hextends.roundedMantissa
  have hnearest : nearest (((m : ℚ) + θ) * 2 ^ e)
      = roundEven (((m : ℚ) + θ) / 2 ^ d) * 2 ^ (e + d) := by
    unfold nearest
    rw [hcount, hulp, ← hd]
  have hfirst : shiftToTargetExponent Format.binary64 m e acc
      = (ExtendedMantissa.ofMantissaAndAccuracy m acc >>> d, e + d) := by
    unfold shiftToTargetExponent shiftToExponent
    dsimp only
    rw [hshift]
  have hlt := div_ulp_lt (((m : ℚ) + θ) * 2 ^ e)
  have hnonneg := div_ulp_nonneg hq
  rw [hcount] at hlt hnonneg
  have hle : roundEven (((m : ℚ) + θ) / 2 ^ d) ≤ 2 ^ 53 :=
    roundEven_le hnonneg (by exact_mod_cast hlt.le)
  have hnormal : e + d = -1074 ∨ 2 ^ 52 ≤ roundEven (((m : ℚ) + θ) / 2 ^ d) := by
    have hpos : 0 < ((m : ℚ) + θ) * 2 ^ e :=
      mul_pos (add_pos_of_pos_of_nonneg (by exact_mod_cast hm) hdrops.nonneg) (zpow_pos two_pos e)
    obtain hmin | hbig := le_div_ulp hpos
    · exact .inl (by rw [hd, ← hulp, hmin])
    · rw [hcount] at hbig
      exact .inr (le_roundEven (by exact_mod_cast hbig))
  rw [hnearest]
  unfold roundWithAccuracy
  rw [hfirst]
  dsimp only
  rw [hrounded]
  generalize roundEven (((m : ℚ) + θ) / 2 ^ d) = r at hle hnormal
  obtain hr | rfl := hle.lt_or_eq
  · rw [shiftToTargetExponent_fits hr hleast]
    dsimp only
    split
    · rename_i hzero
      rw [hzero, Nat.cast_zero, zero_mul]
      exact .zero
    · rename_i hne
      exact .finite (Nat.pos_of_ne_zero hne) hr hleast hnormal
  · have hcarry : ((2 ^ 53 : ℕ) : ℚ) * 2 ^ (e + d) = (2 ^ 52 : ℕ) * 2 ^ (e + d + 1) := by
      rw [zpow_add₀ two_ne_zero (e + d) 1]
      norm_num
      ring
    rw [shiftToTargetExponent_carry hleast, hcarry]
    dsimp only
    rw [dif_neg (by norm_num)]
    exact .finite (by norm_num) (by norm_num) (by omega) (.inr le_rfl)

end

/-! ## Packing -/

theorem bits_pack {s : Sign} {m : ℕ} {e : ℤ} (h : Canonical m e) :
    (bits (.ofModel (.pack (.finite s m e h.pos))) : ℤ) = signBit s + magnitude m e := by
  have hbias : Format.binary64.exponentBias = 1023 := rfl
  have hbits : Format.binary64.mantissaBits = 53 := rfl
  have hlt := h.lt
  have hleast := h.least
  have hgreatest := h.greatest
  change ((UnpackedFloat.pack Format.binary64 (.finite s m e h.pos)).toNat : ℤ) = _
  unfold UnpackedFloat.pack magnitude
  simp only [hbias, hbits]
  rw [if_neg (by omega)]
  split
  · rename_i hlog
    have hm : 2 ^ 52 ≤ m := by
      have hself := Nat.log2_self_le h.pos.ne'
      rwa [show m.log2 = 52 by omega] at hself
    rw [packComponents_toNat, BitVec.toNat_ofNat, BitVec.toNat_ofNat]
    push_cast
    omega
  · rename_i hlog
    have hm : m < 2 ^ 52 := by
      by_contra hbig
      exact hlog ((Nat.add_right_cancel_iff).mpr
        ((Nat.log2_eq_iff h.pos.ne').mpr ⟨not_lt.mp hbig, hlt⟩))
    have hnormal := h.normal
    rw [packComponents_toNat, BitVec.toNat_ofNat, BitVec.toNat_ofNat, Nat.mod_eq_of_lt hm]
    push_cast
    omega

/-- A canonical number is unpacked from its bits. -/
theorem unpack_pack {s : Sign} {m : ℕ} {e : ℤ} (h : Canonical m e) :
    (Float.Model.pack (.finite s m e h.pos)).unpack = .finite s m e h.pos := by
  have hbits := bits_pack (s := s) h
  have hunpacks := unpacks (.ofModel (.pack (.finite s m e h.pos)))
  have hpos := h.magnitude_pos
  have hmax := h.magnitude_lt
  have hlt := h.lt
  have hleast := h.least
  have hnormal := h.normal
  have hsign : signOf (.ofModel (.pack (.finite s m e h.pos))) = s := by
    unfold signOf
    cases s with
    | positive =>
      rw [signBit] at hbits
      exact if_pos (by omega)
    | negative =>
      rw [signBit] at hbits
      exact if_neg (by omega)
  have hmag : (signBit s : ℤ) % 2 ^ 63 = 0 := by
    cases s with
    | positive => rfl
    | negative => rfl
  change Unpacks _ (Float.Model.pack (.finite s m e h.pos)).unpack at hunpacks
  generalize (Float.ofModel (.pack (.finite s m e h.pos))) = x at hbits hunpacks hsign
  unfold magnitude at hbits hpos hmax
  generalize (Float.Model.pack (.finite s m e h.pos)).unpack = u at hunpacks
  have hexponent : exponentField x = bits x / 2 ^ 52 % 2 ^ 11 := rfl
  have hmantissa : mantissaField x = bits x % 2 ^ 52 := rfl
  cases hunpacks with
  | infinity he hm => omega
  | nan he hm => omega
  | zero he hm => omega
  | subnormal he hm =>
    have hm' : mantissaField x = m := by omega
    have he' : e = -1074 := by omega
    simp only [hsign, hm', he']
  | normal he he' hm =>
    have hm' : 2 ^ 52 + mantissaField x = m := by omega
    have he' : (exponentField x : ℤ) - 1075 = e := by omega
    simp only [hsign, hm', he']

end PineForge.FloatRound
