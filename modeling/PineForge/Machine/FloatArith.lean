import PineForge.Machine.FloatRound

/-!
# Doubles and their rationals

A double that is not negative denotes a rational, and one of each sum, product, quotient, conversion
and scaling denotes the nearest number of the exact result. The functions of the C library that Lean
keeps opaque are defined here on unpacked doubles.
-/

namespace PineForge.FloatArith

open Float.Model Float.Model.UnpackedFloat Nearest FloatOrder FloatRound

/-- A finite double that is not negative, and its rational. -/
inductive Denotes (x : Float) : ℚ → Prop
  | zero {s : Sign} (hu : x.toModel.unpack = .zero s) : Denotes x 0
  | finite {m : ℕ} {e : ℤ} (h : Canonical m e) (hu : x.toModel.unpack
    = .finite .positive m e h.pos) :
    Denotes x (m * 2 ^ e)

variable {x y : Float} {q r : ℚ}

theorem Denotes.nonneg (h : Denotes x q) : 0 ≤ q := by
  cases h with
  | zero hu => exact le_rfl
  | finite h hu => exact mul_nonneg (Nat.cast_nonneg _) (zpow_nonneg zero_le_two _)

theorem Denotes.isFinite (h : Denotes x q) : x.isFinite = true := by
  change x.toModel.unpack.isFinite = true
  cases h with
  | zero hu =>
    rw [hu]
    rfl
  | finite h hu =>
    rw [hu]
    rfl

theorem Denotes.nearest (h : Denotes x q) : nearest q = q := by
  cases h with
  | zero hu => exact nearest_zero
  | finite h hu => exact nearest_of_scaled h.lt h.least

/-! ## Comparisons -/

theorem scaled_lt {m m' : ℕ} {e e' : ℤ} (h : Canonical m e) (h' : Canonical m' e')
    (hlt : magnitude m e < magnitude m' e') : (m : ℚ) * 2 ^ e < m' * 2 ^ e' := by
  have hm := h.lt
  have hm' := h'.lt
  have hleast := h.least
  unfold magnitude at hlt
  obtain he | rfl | he := lt_trichotomy e e'
  · have hbig : 2 ^ 52 ≤ m' := by
      obtain hmin | hbig := h'.normal
      · omega
      · exact hbig
    have hm₁ : (m : ℚ) < 2 ^ (53 : ℤ) := by exact_mod_cast hm
    have hm₂ : (2 : ℚ) ^ (52 : ℤ) ≤ m' := by exact_mod_cast hbig
    calc (m : ℚ) * 2 ^ e < 2 ^ (53 : ℤ) * 2 ^ e := mul_lt_mul_of_pos_right hm₁ (zpow_pos two_pos e)
      _ = 2 ^ (53 + e) := (zpow_add₀ two_ne_zero _ _).symm
      _ ≤ 2 ^ (52 + e') := zpow_le_zpow_right₀ (by norm_num) (by omega)
      _ = 2 ^ (52 : ℤ) * 2 ^ e' := zpow_add₀ two_ne_zero _ _
      _ ≤ m' * 2 ^ e' := mul_le_mul_of_nonneg_right hm₂ (zpow_nonneg zero_le_two e')
  · have hmm : (m : ℚ) < m' := by exact_mod_cast (by omega : m < m')
    exact mul_lt_mul_of_pos_right hmm (zpow_pos two_pos e)
  · have hbig := h.normal
    have hleast' := h'.least
    omega

theorem scaled_le {m m' : ℕ} {e e' : ℤ} (h : Canonical m e) (h' : Canonical m' e')
    (hle : magnitude m e ≤ magnitude m' e') :
    (m : ℚ) * 2 ^ e ≤ m' * 2 ^ e' := by
  obtain hlt | heq := hle.lt_or_eq
  · exact (scaled_lt h h' hlt).le
  · have hcompare := h.compare h'
    rw [compare_eq_iff_eq.mpr heq, Ordering.then_eq_eq, compare_eq_iff_eq, compare_eq_iff_eq]
      at hcompare
    rw [hcompare.1, hcompare.2]

theorem Denotes.isNaN (h : Denotes x q) : x.isNaN = false := isNaN_of_isFinite h.isFinite

theorem Denotes.rank_lt (hx : Denotes x q) (hy : Denotes y r) (hlt : rank x < rank y) : q < r := by
  have hranked := ranked hx.isNaN
  have hranked' := ranked hy.isNaN
  generalize rank x = a at hranked hlt
  generalize rank y = b at hranked' hlt
  cases hx with
  | zero hu =>
    rw [hu] at hranked
    cases hranked
    cases hy with
    | zero hu' =>
      rw [hu'] at hranked'
      cases hranked'
      exact absurd hlt (lt_irrefl 0)
    | finite h' hu' => exact mul_pos (by exact_mod_cast h'.pos) (zpow_pos two_pos _)
  | finite h hu =>
    rw [hu] at hranked
    cases hranked with
    | finite hc hm =>
      cases hy with
      | zero hu' =>
        rw [hu'] at hranked'
        cases hranked'
        exact absurd hlt (not_lt.mpr h.magnitude_pos.le)
      | finite h' hu' =>
        rw [hu'] at hranked'
        cases hranked' with
        | finite hc' hm' => exact scaled_lt h h' hlt

/-- Doubles of one rank denote one number. -/
theorem Denotes.rank_eq (hx : Denotes x q) (hy : Denotes y r) (heq : rank x = rank y) : q = r := by
  have hranked := ranked hx.isNaN
  have hranked' := ranked hy.isNaN
  rw [heq] at hranked
  generalize rank y = b at hranked hranked'
  cases hx with
  | zero hu =>
    rw [hu] at hranked
    cases hranked
    cases hy with
    | zero hu' => rfl
    | finite h' hu' =>
      rw [hu'] at hranked'
      generalize hzero : (0 : ℤ) = b at hranked'
      cases hranked' with
      | finite hc hm => exact absurd hzero h'.magnitude_pos.ne
  | @finite m e h hu =>
    rw [hu] at hranked
    cases hranked with
    | finite hc hm =>
      generalize hmag : magnitude m e = b at hranked'
      cases hy with
      | zero hu' =>
        rw [hu'] at hranked'
        cases hranked'
        exact absurd hmag h.magnitude_pos.ne'
      | @finite m' e' h' hu' =>
        rw [hu'] at hranked'
        cases hranked' with
        | finite hc' hm' =>
          have hcompare := h.compare h'
          rw [compare_eq_iff_eq.mpr hmag, Ordering.then_eq_eq, compare_eq_iff_eq, compare_eq_iff_eq]
            at hcompare
          rw [hcompare.1, hcompare.2]

theorem Denotes.le_iff (hx : Denotes x q) (hy : Denotes y r) : x ≤ y ↔ q ≤ r := by
  rw [FloatOrder.le_iff hx.isNaN hy.isNaN]
  constructor
  · intro hle
    obtain hlt | heq := hle.lt_or_eq
    · exact (hx.rank_lt hy hlt).le
    · exact (hx.rank_eq hy heq).le
  · intro hle
    by_contra hgt
    exact absurd (hy.rank_lt hx (not_le.mp hgt)) (not_lt.mpr hle)

theorem Denotes.beq_iff (hx : Denotes x q) (hy : Denotes y r) : (x == y) = true ↔ q = r := by
  rw [FloatOrder.beq_iff hx.isNaN hy.isNaN]
  constructor
  · exact hx.rank_eq hy
  · intro heq
    obtain hlt | heq' | hgt := lt_trichotomy (rank x) (rank y)
    · exact absurd heq (hx.rank_lt hy hlt).ne
    · exact heq'
    · exact absurd heq (hy.rank_lt hx hgt).ne'

/-! ## Results of rounding -/

theorem unpack_pack_infinity (s : Sign) :
    (Float.Model.pack (.infinity s)).unpack = .infinity s := by
  cases s with
  | positive => rfl
  | negative => rfl

/-- Past the largest exponent a number packs as infinity. -/
theorem unpack_pack_overflow {s : Sign} {m : ℕ} {e : ℤ} (hm : 0 < m) (he : 972 ≤ e) :
    (Float.Model.pack (.finite s m e hm)).unpack = .infinity s := by
  have hbias : Format.binary64.exponentBias = 1023 := rfl
  have hpack : UnpackedFloat.pack Format.binary64 (.finite s m e hm)
      = UnpackedFloat.pack Format.binary64 (.infinity s) := by
    unfold UnpackedFloat.pack
    simp only [hbias]
    rw [if_pos (by omega)]
  have hmodel : Float.Model.pack (.finite s m e hm) = Float.Model.pack (.infinity s) := by
    unfold Float.Model.pack
    simp only [hpack]
  rw [hmodel, unpack_pack_infinity]

theorem unpack_pack_zero (s : Sign) : (Float.Model.pack (.zero s)).unpack = .zero s := by
  cases s with
  | positive => rfl
  | negative => rfl

theorem denotes_zero (s : Sign) : Denotes (.ofModel (.pack (.zero s))) 0 :=
  .zero (unpack_pack_zero s)

theorem denotes_of_rounded {u : UnpackedFloat} (h : Rounded .positive u q) (hlt : q < 2 ^ 1024) :
    Denotes (.ofModel (.pack u)) q := by
  cases h with
  | zero => exact denotes_zero _
  | @finite m e pos lt least normal =>
    have hcanonical : Canonical m e := by
      refine ⟨pos, lt, least, ?_, normal⟩
      by_contra hbig
      have hm : (2 : ℚ) ^ (52 : ℤ) ≤ m := by
        obtain hmin | hmin := normal
        · omega
        · exact_mod_cast hmin
      have hle : (2 : ℚ) ^ 1024 ≤ m * 2 ^ e := by
        calc (2 : ℚ) ^ 1024 = 2 ^ (1024 : ℤ) := rfl
          _ ≤ 2 ^ (52 + e) := zpow_le_zpow_right₀ (by norm_num) (by omega)
          _ = 2 ^ (52 : ℤ) * 2 ^ e := zpow_add₀ two_ne_zero _ _
          _ ≤ m * 2 ^ e := mul_le_mul_of_nonneg_right hm (zpow_nonneg zero_le_two e)
      exact absurd hlt (not_lt.mpr hle)
    exact .finite hcanonical (unpack_pack hcanonical)

theorem round_rounded (s : Sign) {m : ℕ} (e : ℤ) (hm : 0 < m) :
    Rounded s (UnpackedFloat.round Format.binary64 s m e) (nearest (m * 2 ^ e)) := by
  unfold UnpackedFloat.round decreaseExponent
  dsimp only
  rw [Nat.shiftLeft_eq]
  generalize hk : (e - Format.binary64.targetExponent (totalExponent m e)).toNat = k
  have hlog : (m * 2 ^ k).log2 = m.log2 + k := by
    refine (Nat.log2_eq_iff (by positivity)).mpr ⟨?_, ?_⟩
    · rw [Nat.pow_add]
      exact Nat.mul_le_mul_right _ (Nat.log2_self_le hm.ne')
    · rw [add_right_comm, Nat.pow_add]
      exact Nat.mul_lt_mul_of_pos_right Nat.lt_log2_self (by positivity)
  have htotal : totalExponent (m * 2 ^ k) (e - k) = totalExponent m e := by
    rw [totalExponent, totalExponent, hlog]
    push_cast
    ring
  have hvalue : (m : ℚ) * 2 ^ e = ((m * 2 ^ k : ℕ) + 0) * 2 ^ (e - k) := by
    rw [add_zero, Nat.cast_mul, Nat.cast_pow, mul_assoc, Nat.cast_ofNat, ← zpow_natCast,
      ← zpow_add₀ two_ne_zero, add_sub_cancel]
  rw [hvalue]
  refine roundWithAccuracy_rounded s (by positivity) (show Drops .exact 0 from rfl) ?_
  rw [htotal]
  omega

/-! ## Products -/

theorem unpack_mul (x y : Float) :
    x * y = .ofModel (.pack (UnpackedFloat.mul Format.binary64 x.toModel.unpack
      y.toModel.unpack)) :=
  rfl

theorem mul_target {m₁ m₂ : ℕ} {e₁ e₂ : ℤ} (h₁ : Canonical m₁ e₁) (h₂ : Canonical m₂ e₂) :
    e₁ + e₂ ≤ Format.binary64.targetExponent (totalExponent (m₁ * m₂) (e₁ + e₂)) := by
  rw [targetExponent_eq, totalExponent]
  obtain hsmall | hbig := h₁.normal
  · obtain hsmall' | hbig' := h₂.normal
    · omega
    · have hlog : 52 ≤ (m₁ * m₂).log2 := by
        refine (Nat.le_log2 (Nat.mul_pos h₁.pos h₂.pos).ne').mpr ?_
        exact le_trans hbig' (Nat.le_mul_of_pos_left m₂ h₁.pos)
      omega
  · have hlog : 52 ≤ (m₁ * m₂).log2 := by
      refine (Nat.le_log2 (Nat.mul_pos h₁.pos h₂.pos).ne').mpr ?_
      exact le_trans hbig (Nat.le_mul_of_pos_right m₁ h₂.pos)
    omega

theorem Denotes.mul (hx : Denotes x q) (hy : Denotes y r)
    (hlt : Nearest.nearest (q * r) < 2 ^ 1024) :
    Denotes (x * y) (Nearest.nearest (q * r)) := by
  rw [unpack_mul]
  cases hx with
  | zero hu =>
    rw [zero_mul, nearest_zero, hu]
    cases hy with
    | zero hu' =>
      rw [hu']
      exact denotes_zero _
    | finite h' hu' =>
      rw [hu']
      exact denotes_zero _
  | @finite m₁ e₁ h hu =>
    rw [hu]
    cases hy with
    | zero hu' =>
      rw [hu', mul_zero, nearest_zero]
      exact denotes_zero _
    | @finite m₂ e₂ h' hu' =>
      rw [hu']
      have hproduct : (m₁ : ℚ) * 2 ^ e₁ * (m₂ * 2 ^ e₂) = ((m₁ * m₂ : ℕ) + 0) * 2 ^ (e₁ + e₂) := by
        rw [add_zero, zpow_add₀ two_ne_zero]
        push_cast
        ring
      rw [hproduct] at hlt ⊢
      refine denotes_of_rounded ?_ hlt
      exact roundWithAccuracy_rounded .positive (Nat.mul_pos h.pos h'.pos)
        (show Drops .exact 0 from rfl) (mul_target h h')

/-! ## Quotients -/

theorem unpack_div (x y : Float) :
    x / y = .ofModel (.pack (UnpackedFloat.div Format.binary64 x.toModel.unpack
      y.toModel.unpack)) :=
  rfl

theorem drops_accuracyOfFraction {n d : ℕ} (h : n < d) : Drops (accuracyOfFraction n d)
    ((n : ℚ) / d) := by
  have hd : (0 : ℚ) < d := by exact_mod_cast Nat.zero_lt_of_lt h
  unfold accuracyOfFraction
  split
  · rename_i hzero
    rw [hzero]
    exact zero_div _
  · rename_i hne
    have hn : (0 : ℚ) < n := by exact_mod_cast Nat.pos_of_ne_zero hne
    refine ⟨div_pos hn hd, (div_lt_one hd).mpr (by exact_mod_cast h), ?_⟩
    obtain hlt | heq | hgt := lt_trichotomy (2 * n) d
    · rw [compare_lt_iff_lt.mpr hlt, compare_lt_iff_lt, div_lt_div_iff₀ hd two_pos]
      exact_mod_cast (by omega : n * 2 < 1 * d)
    · rw [compare_eq_iff_eq.mpr heq, compare_eq_iff_eq, div_eq_div_iff hd.ne' two_ne_zero]
      exact_mod_cast (by omega : n * 2 = 1 * d)
    · rw [compare_gt_iff_gt.mpr hgt, compare_gt_iff_gt, div_lt_div_iff₀ two_pos hd]
      exact_mod_cast (by omega : 1 * d < n * 2)

/-- The quotient keeps `2 ^ 52` units of its exponent. -/
theorem div_mantissa {m₁ m₂ k : ℕ} {e t : ℤ} (hm₁ : 0 < m₁) (hlt : m₁ < 2 ^ 53) (hm₂ : 0 < m₂)
    (ht : t = min e (Format.binary64.targetExponent (totalExponent m₁ 0 - totalExponent m₂ 0 + e)))
    (hk : e - t = k) (hnormal : (2 : ℚ) ^ (-1022 : ℤ) ≤ (m₁ : ℚ) / m₂ * 2 ^ e) :
    2 ^ 52 ≤ m₁ * 2 ^ k / m₂ := by
  have hm₂' : (0 : ℚ) < m₂ := by exact_mod_cast hm₂
  rw [Nat.le_div_iff_mul_le hm₂]
  have hlog : m₁.log2 ≤ 52 := by
    have := (Nat.log2_lt hm₁.ne').mpr hlt
    omega
  rw [targetExponent_eq, totalExponent, totalExponent] at ht
  by_cases hsmall : t ≤ -1074
  · have hbig : (2 : ℚ) ^ (52 : ℤ) * m₂ ≤ m₁ * 2 ^ (k : ℤ) := by
      calc (2 : ℚ) ^ (52 : ℤ) * m₂ ≤ (2 : ℚ) ^ (-1022 - t) * m₂ :=
            mul_le_mul_of_nonneg_right (zpow_le_zpow_right₀ (by norm_num) (by omega)) hm₂'.le
        _ = (2 : ℚ) ^ (-1022 : ℤ) * (2 ^ (-t) * m₂) := by
          rw [sub_eq_add_neg, zpow_add₀ two_ne_zero, mul_assoc]
        _ ≤ (m₁ : ℚ) / m₂ * 2 ^ e * (2 ^ (-t) * m₂) :=
          mul_le_mul_of_nonneg_right hnormal (mul_nonneg (zpow_nonneg zero_le_two _) hm₂'.le)
        _ = m₁ * 2 ^ (k : ℤ) := by
          rw [← hk, sub_eq_add_neg, zpow_add₀ two_ne_zero]
          field_simp
    exact_mod_cast hbig
  · have hk' : k + m₁.log2 = m₂.log2 + 53 := by omega
    calc 2 ^ 52 * m₂ ≤ 2 ^ 52 * 2 ^ (m₂.log2 + 1) :=
          Nat.mul_le_mul_left _ Nat.lt_log2_self.le
      _ = 2 ^ m₁.log2 * 2 ^ k := by
        rw [← Nat.pow_add, ← Nat.pow_add]
        congr 1
        omega
      _ ≤ m₁ * 2 ^ k := Nat.mul_le_mul_right _ (Nat.log2_self_le hm₁.ne')

/-- A quotient denotes the nearest number. -/
theorem Denotes.div (hx : Denotes x q) (hy : Denotes y r) (hr : 0 < r)
    (hnormal : q = 0 ∨ (2 : ℚ) ^ (-1022 : ℤ) ≤ q / r) (hlt : Nearest.nearest (q / r) < 2 ^ 1024) :
    Denotes (x / y) (Nearest.nearest (q / r)) := by
  rw [unpack_div]
  cases hy with
  | zero hu => exact absurd hr (lt_irrefl 0)
  | @finite m₂ e₂ h' hu' =>
    rw [hu']
    cases hx with
    | zero hu =>
      rw [hu, zero_div, nearest_zero]
      exact denotes_zero _
    | @finite m₁ e₁ h hu =>
      rw [hu]
      have hm₁ : (0 : ℚ) < m₁ := by exact_mod_cast h.pos
      have hm₂ : (0 : ℚ) < m₂ := by exact_mod_cast h'.pos
      have hquotient : (m₁ : ℚ) * 2 ^ e₁ / (m₂ * 2 ^ e₂) = m₁ / m₂ * 2 ^ (e₁ - e₂) := by
        rw [zpow_sub₀ two_ne_zero]
        field_simp
      have hnormal : (2 : ℚ) ^ (-1022 : ℤ) ≤ (m₁ : ℚ) / m₂ * 2 ^ (e₁ - e₂) := by
        obtain hzero | hnormal := hnormal
        · exact absurd hzero (mul_pos hm₁ (zpow_pos two_pos e₁)).ne'
        · rwa [hquotient] at hnormal
      unfold UnpackedFloat.div divCore
      dsimp only
      rw [Nat.shiftLeft_eq]
      generalize ht : min (e₁ - e₂)
        (Format.binary64.targetExponent (totalExponent m₁ e₁ - totalExponent m₂ e₂)) = t
      generalize hk : (e₁ - e₂ - t).toNat = k
      have htk : e₁ - e₂ - t = k := by
        have := min_le_left (e₁ - e₂)
          (Format.binary64.targetExponent (totalExponent m₁ e₁ - totalExponent m₂ e₂))
        omega
      have htotal : totalExponent m₁ e₁ - totalExponent m₂ e₂
          = totalExponent m₁ 0 - totalExponent m₂ 0 + (e₁ - e₂) := by
        unfold totalExponent
        ring
      rw [htotal] at ht
      have hbig := div_mantissa h.pos h.lt h'.pos ht.symm htk hnormal
      have hvalue : (m₁ : ℚ) * 2 ^ e₁ / (m₂ * 2 ^ e₂)
          = ((m₁ * 2 ^ k / m₂ : ℕ) + ((m₁ * 2 ^ k % m₂ : ℕ) : ℚ) / m₂) * 2 ^ t := by
        have hsplit : ((m₁ * 2 ^ k : ℕ) : ℚ)
            = m₂ * (m₁ * 2 ^ k / m₂ : ℕ) + (m₁ * 2 ^ k % m₂ : ℕ) := by
          exact_mod_cast (Nat.div_add_mod (m₁ * 2 ^ k) m₂).symm
        have hfraction : ((m₁ * 2 ^ k / m₂ : ℕ) : ℚ) + ((m₁ * 2 ^ k % m₂ : ℕ) : ℚ) / m₂
            = (m₁ * 2 ^ k : ℕ) / m₂ := by
          rw [hsplit]
          field_simp
        have hexponent : e₁ - e₂ = k + t := by omega
        rw [hquotient, hfraction, hexponent, zpow_add₀ two_ne_zero, zpow_natCast]
        push_cast
        ring
      rw [hvalue] at hlt ⊢
      refine denotes_of_rounded ?_ hlt
      have hpos : 0 < m₁ * 2 ^ k / m₂ := lt_of_lt_of_le (by norm_num) hbig
      refine roundWithAccuracy_rounded .positive hpos
        (drops_accuracyOfFraction (Nat.mod_lt _ h'.pos)) ?_
      have hlog : 52 ≤ (m₁ * 2 ^ k / m₂).log2 := (Nat.le_log2 hpos.ne').mpr hbig
      rw [targetExponent_eq, totalExponent]
      omega

/-! ## Sums -/

theorem unpack_add (x y : Float) :
    x + y = .ofModel (.pack (UnpackedFloat.add Format.binary64 x.toModel.unpack
      y.toModel.unpack)) :=
  rfl

theorem normalize_rounded {n : ℕ} (e : ℤ) (s : Sign) (hn : 0 < n) :
    Rounded .positive (UnpackedFloat.normalize Format.binary64 n e s)
      (Nearest.nearest (n * 2 ^ e)) := by
  have hcompare : compare (n : ℤ) 0 = .gt := compare_gt_iff_gt.mpr (by exact_mod_cast hn)
  unfold UnpackedFloat.normalize
  rw [hcompare]
  exact round_rounded .positive e hn

/-- A sum denotes the nearest number. -/
theorem Denotes.add (hx : Denotes x q) (hy : Denotes y r)
    (hlt : Nearest.nearest (q + r) < 2 ^ 1024) :
    Denotes (x + y) (Nearest.nearest (q + r)) := by
  rw [unpack_add]
  cases hx with
  | @zero s hu =>
    rw [zero_add, hy.nearest, hu]
    cases hy with
    | @zero s' hu' =>
      rw [hu']
      cases s with
      | positive =>
        cases s' with
        | positive => exact denotes_zero _
        | negative => exact denotes_zero _
      | negative =>
        cases s' with
        | positive => exact denotes_zero _
        | negative => exact denotes_zero _
    | finite h' hu' =>
      rw [hu']
      exact .finite h' (unpack_pack h')
  | @finite m₁ e₁ h hu =>
    rw [hu]
    cases hy with
    | zero hu' =>
      rw [hu', add_zero, nearest_of_scaled h.lt h.least]
      exact .finite h (unpack_pack h)
    | @finite m₂ e₂ h' hu' =>
      rw [hu']
      unfold UnpackedFloat.add decreaseExponent
      dsimp only
      rw [Nat.shiftLeft_eq, Nat.shiftLeft_eq]
      have hk₁ := Int.toNat_of_nonneg (sub_nonneg.mpr (min_le_left e₁ e₂))
      have hk₂ := Int.toNat_of_nonneg (sub_nonneg.mpr (min_le_right e₁ e₂))
      generalize (e₁ - min e₁ e₂).toNat = k₁ at hk₁
      generalize (e₂ - min e₁ e₂).toNat = k₂ at hk₂
      generalize min e₁ e₂ = t at hk₁ hk₂
      have hsum : (m₁ : ℚ) * 2 ^ e₁ + m₂ * 2 ^ e₂ = (m₁ * 2 ^ k₁ + m₂ * 2 ^ k₂ : ℕ) * 2 ^ t := by
        have he₁ : e₁ = k₁ + t := by omega
        have he₂ : e₂ = k₂ + t := by omega
        rw [he₁, he₂, zpow_add₀ two_ne_zero, zpow_add₀ two_ne_zero, zpow_natCast, zpow_natCast]
        push_cast
        ring
      rw [hsum] at hlt ⊢
      refine denotes_of_rounded ?_ hlt
      exact normalize_rounded t .positive
        (Nat.add_pos_left (Nat.mul_pos h.pos (by positivity)) _)

theorem Denotes.add_exact {m : ℕ} {e : ℤ} (hx : Denotes x q) (hy : Denotes y r)
    (hsum : q + r = m * 2 ^ e)
    (hm : m < 2 ^ 53) (he : -1074 ≤ e) (hlt : q + r < 2 ^ 1024) : Denotes (x + y) (q + r) := by
  have hnearest : Nearest.nearest (q + r) = q + r := by
    rw [hsum]
    exact nearest_of_scaled hm he
  have hadd := hx.add hy (by rwa [hnearest])
  rwa [hnearest] at hadd

/-! ## Values and signs -/

/-- The rational of a finite unpacked double. -/
def valueOf : UnpackedFloat → ℚ
  | .finite s m e _ => (s.apply m : ℤ) * 2 ^ e
  | _ => 0

/-- The rational of a double. -/
def value (x : Float) : ℚ := valueOf x.toModel.unpack

theorem Denotes.value (h : Denotes x q) : value x = q := by
  unfold FloatArith.value
  cases h with
  | zero hu =>
    rw [hu]
    rfl
  | finite h hu =>
    rw [hu]
    rfl

/-- `std::signbit`. -/
def signbit (x : Float) : Bool := decide (2 ^ 63 ≤ bits x)

theorem signOf_of_signbit (h : signbit x = false) : signOf x = .positive :=
  if_pos (not_le.mp (of_decide_eq_false h))

theorem signbit_of_signOf (h : signOf x = .positive) : signbit x = false := by
  refine decide_eq_false (not_le.mpr ?_)
  by_contra hbig
  unfold signOf at h
  rw [if_neg hbig] at h
  cases h

theorem Unpacks.signOf_zero {s : Sign} (h : Unpacks x (.zero s)) : signOf x = s := by
  cases h
  rfl

theorem Unpacks.signOf_finite {s : Sign} {m : ℕ} {e : ℤ} {hm : 0 < m}
    (h : Unpacks x (.finite s m e hm)) :
    signOf x = s := by
  cases h with
  | subnormal he hm => rfl
  | normal he he' hm => rfl

theorem canonical_unpack {s : Sign} {m : ℕ} {e : ℤ} {hm : 0 < m}
    (hu : x.toModel.unpack = .finite s m e hm) : Canonical m e := by
  have hunpacks := unpacks x
  rw [hu] at hunpacks
  have hexponent := exponentField_lt x
  have hmantissa := mantissaField_lt x
  cases hunpacks with
  | subnormal he hm => exact ⟨hm, by omega, le_rfl, by norm_num, .inl rfl⟩
  | normal he he' hm => exact ⟨hm, by omega, by omega, by omega, .inr (by omega)⟩

theorem denotes_value (hfinite : x.isFinite = true) (hsign : signbit x = false) :
    Denotes x (value x) := by
  have hpositive := signOf_of_signbit hsign
  have hunpacks := unpacks x
  change x.toModel.unpack.isFinite = true at hfinite
  have hdenotes : ∃ q, Denotes x q := by
    cases hu : x.toModel.unpack with
    | notANumber =>
      rw [hu] at hfinite
      cases hfinite
    | infinity s =>
      rw [hu] at hfinite
      cases hfinite
    | zero s => exact ⟨_, .zero hu⟩
    | finite s m e hm =>
      rw [hu] at hunpacks
      have hs := Unpacks.signOf_finite hunpacks
      rw [hpositive] at hs
      rw [← hs] at hu
      exact ⟨_, .finite (canonical_unpack hu) hu⟩
  obtain ⟨q, hq⟩ := hdenotes
  rwa [hq.value]

theorem Denotes.signbit_of_ne_zero (h : Denotes x q) (hq : q ≠ 0) : signbit x = false := by
  cases h with
  | zero hu => exact absurd rfl hq
  | finite h hu =>
    have hunpacks := unpacks x
    rw [hu] at hunpacks
    exact signbit_of_signOf (Unpacks.signOf_finite hunpacks)

theorem Denotes.eq (hx : Denotes x q) (hy : Denotes y q) (hsx : signbit x = false)
    (hsy : signbit y = false) : x = y := by
  have hrank : rank x = rank y :=
    (FloatOrder.beq_iff hx.isNaN hy.isNaN).mp ((hx.beq_iff hy).mpr rfl)
  have hpx : bits x < 2 ^ 63 := not_le.mp (of_decide_eq_false hsx)
  have hpy : bits y < 2 ^ 63 := not_le.mp (of_decide_eq_false hsy)
  unfold rank at hrank
  rw [if_pos hpx, if_pos hpy] at hrank
  exact toBits_injective (UInt64.toNat_inj.mp (Int.natCast_inj.mp hrank))

theorem signbit_add (hx : Denotes x 0) (hy : Denotes y 0) (hsx : signbit x = false)
    (hsy : signbit y = false) : signbit (x + y) = false := by
  have hzero : signbit (.ofModel (.pack (.zero .positive))) = false := by decide +kernel
  have hunpack : ∀ {z : Float}, Denotes z 0 → signbit z = false → z.toModel.unpack
      = .zero .positive := by
    intro z hz hsz
    have hunpacks := unpacks z
    generalize hq : (0 : ℚ) = q at hz
    cases hz with
    | zero hu =>
      rw [hu] at hunpacks ⊢
      rw [← Unpacks.signOf_zero hunpacks, signOf_of_signbit hsz]
    | finite h hu =>
      exact absurd hq (mul_pos (by exact_mod_cast h.pos) (zpow_pos two_pos _)).ne
  rw [unpack_add, hunpack hx hsx, hunpack hy hsy]
  exact hzero

/-! ## Conversions and scaling -/

/-- `static_cast<double>` of an integer. -/
def fromInt (n : ℤ) : Float := .ofModel (.pack (UnpackedFloat.ofInt Format.binary64 n))

theorem denotes_fromInt {n : ℕ} (hlt : Nearest.nearest n < 2 ^ 1024) :
    Denotes (fromInt n) (Nearest.nearest n) := by
  obtain rfl | hpos := Nat.eq_zero_or_pos n
  · rw [Nat.cast_zero (R := ℚ), nearest_zero]
    exact denotes_zero .positive
  · have hrounded := normalize_rounded 0 .positive hpos
    rw [zpow_zero, mul_one] at hrounded
    exact denotes_of_rounded hrounded hlt

/-- An integer of at most `2 ^ 53` is converted exactly. -/
theorem denotes_fromInt_of_le {n : ℕ} (h : n ≤ 2 ^ 53) : Denotes (fromInt n) n := by
  have hnearest : Nearest.nearest (n : ℚ) = n := by
    have hscaled := nearest_of_scaled_le (e := 0) h (by norm_num)
    rwa [zpow_zero, mul_one] at hscaled
  have hlt : (n : ℚ) < 2 ^ 1024 := by
    calc (n : ℚ) ≤ 2 ^ 53 := by exact_mod_cast h
      _ < 2 ^ 1024 := pow_lt_pow_right₀ (by norm_num) (by norm_num)
  have hdenotes := denotes_fromInt (n := n) (by rwa [hnearest])
  rwa [hnearest] at hdenotes

/-- Scaling of an unpacked double by a power of two. -/
def scaled (n : ℤ) : UnpackedFloat → UnpackedFloat
  | .finite s m e _ => UnpackedFloat.round Format.binary64 s m (e + n)
  | u => u

/-- `std::ldexp`. -/
def ldexp (x : Float) (n : ℤ) : Float := .ofModel (.pack (scaled n x.toModel.unpack))

theorem Denotes.ldexp {n : ℤ} (hx : Denotes x q) (hlt : Nearest.nearest (q * 2 ^ n) < 2 ^ 1024) :
    Denotes (ldexp x n) (Nearest.nearest (q * 2 ^ n)) := by
  unfold FloatArith.ldexp
  cases hx with
  | zero hu =>
    rw [hu, zero_mul, nearest_zero]
    exact denotes_zero _
  | @finite m e h hu =>
    rw [hu]
    rw [mul_assoc, ← zpow_add₀ two_ne_zero] at hlt ⊢
    exact denotes_of_rounded (round_rounded .positive (e + n) h.pos) hlt

theorem lt_of_isFinite {u : UnpackedFloat} (h : Rounded .positive u q)
    (hfinite : (Float.ofModel (.pack u)).isFinite = true) : q < 2 ^ 1024 := by
  cases h with
  | zero => positivity
  | @finite m e pos lt least normal =>
    by_contra hbig
    have he : 972 ≤ e := by
      by_contra hsmall
      have hm : (m : ℚ) < 2 ^ (53 : ℤ) := by exact_mod_cast lt
      refine hbig ?_
      calc (m : ℚ) * 2 ^ e < 2 ^ (53 : ℤ) * 2 ^ e := mul_lt_mul_of_pos_right hm (zpow_pos two_pos e)
        _ = 2 ^ (53 + e) := (zpow_add₀ two_ne_zero _ _).symm
        _ ≤ 2 ^ (1024 : ℤ) := zpow_le_zpow_right₀ (by norm_num) (by omega)
        _ = 2 ^ 1024 := rfl
    change (Float.Model.pack _).unpack.isFinite = true at hfinite
    rw [unpack_pack_overflow pos he] at hfinite
    cases hfinite

theorem Denotes.ldexp_of_isFinite {n : ℤ} (hx : Denotes x q)
    (hfinite : (FloatArith.ldexp x n).isFinite = true) :
    Nearest.nearest (q * 2 ^ n) < 2 ^ 1024 := by
  unfold FloatArith.ldexp at hfinite
  cases hx with
  | zero hu =>
    rw [zero_mul, nearest_zero]
    positivity
  | @finite m e h hu =>
    rw [hu] at hfinite
    rw [mul_assoc, ← zpow_add₀ two_ne_zero]
    exact lt_of_isFinite (round_rounded .positive (e + n) h.pos) hfinite

/-- The exponent of an unpacked double whose fraction is at least a half. -/
def fractionExponent : UnpackedFloat → ℤ
  | .finite _ m e _ => totalExponent m e
  | _ => 0

/-- `std::frexp`. -/
def frexp (x : Float) : Float × ℤ :=
  (ldexp x (-fractionExponent x.toModel.unpack), fractionExponent x.toModel.unpack)

/-- The fraction of a double in units of `2 ^ -53`. -/
theorem Denotes.frexp (hx : Denotes x q) (hq : q ≠ 0) :
    ∃ k : ℕ, 2 ^ 52 ≤ k ∧ k < 2 ^ 53 ∧ Denotes (FloatArith.ldexp (frexp x).1 53) k ∧
      q = k * 2 ^ ((FloatArith.frexp x).2 - 53) := by
  cases hx with
  | zero hu => exact absurd rfl hq
  | @finite m e h hu =>
    have hexponent : fractionExponent x.toModel.unpack = totalExponent m e := by
      rw [hu]
      rfl
    have hlog : m.log2 ≤ 52 := by
      have := (Nat.log2_lt h.pos.ne').mpr h.lt
      omega
    obtain ⟨d, hd⟩ := Nat.exists_eq_add_of_le hlog
    have hscale : ∀ t : ℤ, (m : ℚ) * 2 ^ e * 2 ^ t = m * 2 ^ (e + t) := by
      intro t
      rw [mul_assoc, ← zpow_add₀ two_ne_zero]
    have hfraction : Denotes (FloatArith.frexp x).1 (m * 2 ^ (e + -totalExponent m e)) := by
      have hself := nearest_of_scaled (e := e + -totalExponent m e) h.lt (by
        unfold totalExponent
        omega)
      have hle : (m : ℚ) * 2 ^ (e + -totalExponent m e) ≤ 2 ^ 1000 := by
        have hm : (m : ℚ) ≤ 2 ^ 53 := by exact_mod_cast h.lt.le
        calc (m : ℚ) * 2 ^ (e + -totalExponent m e) ≤ m * 2 ^ (0 : ℤ) := by
              refine mul_le_mul_of_nonneg_left (zpow_le_zpow_right₀ (by norm_num) ?_)
                (Nat.cast_nonneg m)
              unfold totalExponent
              omega
          _ = m := by rw [zpow_zero, mul_one]
          _ ≤ 2 ^ 53 := hm
          _ ≤ 2 ^ 1000 := pow_le_pow_right₀ (by norm_num) (by norm_num)
      have hldexp := (Denotes.finite h hu).ldexp (n := -totalExponent m e) (by
        rw [hscale]
        exact nearest_lt (mul_nonneg (Nat.cast_nonneg m) (zpow_nonneg zero_le_two _)) hle)
      rw [hscale, hself, ← hexponent] at hldexp
      rw [← hexponent]
      exact hldexp
    have hcount : (m : ℚ) * 2 ^ (e + -totalExponent m e) * 2 ^ (53 : ℤ) = (m * 2 ^ d : ℕ) := by
      rw [mul_assoc, ← zpow_add₀ two_ne_zero,
        show e + -totalExponent m e + 53 = d by unfold totalExponent; omega, zpow_natCast]
      push_cast
      rfl
    have hlow : 2 ^ 52 ≤ m * 2 ^ d := by
      calc 2 ^ 52 = 2 ^ m.log2 * 2 ^ d := by rw [← Nat.pow_add, ← hd]
        _ ≤ m * 2 ^ d := Nat.mul_le_mul_right _ (Nat.log2_self_le h.pos.ne')
    have hhigh : m * 2 ^ d < 2 ^ 53 := by
      calc m * 2 ^ d < 2 ^ (m.log2 + 1) * 2 ^ d :=
            Nat.mul_lt_mul_of_pos_right Nat.lt_log2_self (by positivity)
        _ = 2 ^ 53 := by
          rw [← Nat.pow_add]
          congr 1
          omega
    refine ⟨m * 2 ^ d, hlow, hhigh, ?_, ?_⟩
    · have hself : Nearest.nearest ((m * 2 ^ d : ℕ) : ℚ) = (m * 2 ^ d : ℕ) := by
        have hscaled := nearest_of_scaled (e := 0) hhigh (by norm_num)
        rwa [zpow_zero, mul_one] at hscaled
      have hldexp := hfraction.ldexp (n := 53) (by
        rw [hcount, hself]
        calc ((m * 2 ^ d : ℕ) : ℚ) ≤ 2 ^ 53 := by exact_mod_cast hhigh.le
          _ < 2 ^ 1024 := pow_lt_pow_right₀ (by norm_num) (by norm_num))
      rwa [hcount, hself] at hldexp
    · change (m : ℚ) * 2 ^ e = (m * 2 ^ d : ℕ) * 2 ^ (fractionExponent x.toModel.unpack - 53)
      rw [hexponent]
      push_cast
      rw [mul_assoc, ← zpow_natCast, ← zpow_add₀ two_ne_zero]
      congr 2
      unfold totalExponent
      omega

/-- Rounding of an unpacked double to an integer, halves away from zero. -/
def roundedAway : UnpackedFloat → UnpackedFloat
  | .finite s m e h =>
    if 0 ≤ e then .finite s m e h
    else UnpackedFloat.round Format.binary64 s ((m + 2 ^ ((-e).toNat - 1)) / 2 ^ (-e).toNat) 0
  | u => u

/-- `std::round`. -/
def roundAway (x : Float) : Float := .ofModel (.pack (roundedAway x.toModel.unpack))

theorem round_zero (s : Sign) : UnpackedFloat.round Format.binary64 s 0 0 = .zero s := by
  cases s with
  | positive => rfl
  | negative => rfl

/-- Rounding away from zero, on a rational. -/
theorem Denotes.roundAway (hx : Denotes x q) : Denotes (roundAway x) (⌊q + 1 / 2⌋₊ : ℕ) := by
  unfold FloatArith.roundAway
  cases hx with
  | zero hu =>
    rw [hu, zero_add, Nat.floor_eq_zero.mpr (by norm_num), Nat.cast_zero]
    exact denotes_zero _
  | @finite m e h hu =>
    rw [hu]
    change Denotes (.ofModel (.pack (if 0 ≤ e then _ else _))) _
    split
    · rename_i he
      obtain ⟨d, rfl⟩ := Int.eq_ofNat_of_zero_le he
      have hfloor : ⌊(m : ℚ) * 2 ^ (d : ℤ) + 1 / 2⌋₊ = m * 2 ^ d := by
        refine (Nat.floor_eq_iff (by positivity)).mpr ?_
        push_cast
        rw [zpow_natCast]
        constructor <;> linarith
      rw [hfloor]
      push_cast
      rw [← zpow_natCast]
      exact .finite h (unpack_pack h)
    · rename_i he
      obtain ⟨k, hk⟩ : ∃ k : ℕ, e = -((k : ℤ) + 1) := ⟨(-e).toNat - 1, by omega⟩
      have hnat : (-e).toNat = k + 1 := by omega
      rw [hnat, Nat.add_sub_cancel]
      have hvalue : (m : ℚ) * 2 ^ e + 1 / 2 = ((m + 2 ^ k : ℕ) : ℚ) / (2 ^ (k + 1) : ℕ) := by
        have hpow : (2 : ℚ) ^ e = (2 ^ (k + 1))⁻¹ := by
          rw [hk, zpow_neg]
          norm_cast
        rw [hpow]
        push_cast
        field_simp
        ring
      rw [hvalue, Nat.floor_div_eq_div]
      have hlt : (m + 2 ^ k) / 2 ^ (k + 1) < 2 ^ 53 := by
        have hm := h.lt
        have hpos : 1 ≤ 2 ^ k := Nat.one_le_two_pow
        rw [Nat.div_lt_iff_lt_mul (by positivity), Nat.pow_succ 2 k]
        omega
      generalize (m + 2 ^ k) / 2 ^ (k + 1) = n at hlt
      obtain rfl | hpos := Nat.eq_zero_or_pos n
      · rw [round_zero, Nat.cast_zero]
        exact denotes_zero _
      · have hrounded := round_rounded .positive 0 hpos
        have hself := nearest_of_scaled (e := 0) hlt (by norm_num)
        rw [hself, zpow_zero, mul_one] at hrounded
        refine denotes_of_rounded hrounded ?_
        calc (n : ℚ) ≤ 2 ^ 53 := by exact_mod_cast hlt.le
          _ < 2 ^ 1024 := pow_lt_pow_right₀ (by norm_num) (by norm_num)

/-- `static_cast` of a double to an integer; the conversion of a double that is out of range is
undefined. -/
def toInt (x : Float) : ℤ := x.toModel.unpack.toInt 0 0

/-- The integer part, on a rational. -/
theorem Denotes.toInt (hx : Denotes x q) : toInt x = (⌊q⌋₊ : ℕ) := by
  unfold FloatArith.toInt
  cases hx with
  | zero hu =>
    rw [hu, Nat.floor_zero]
    rfl
  | @finite m e h hu =>
    rw [hu]
    change roundToInt .positive m e = _
    unfold roundToInt decreaseExponent shiftToExponent
    dsimp only
    obtain he | he := le_or_gt 0 e
    · obtain ⟨d, rfl⟩ := Int.eq_ofNat_of_zero_le he
      have hfloor : ⌊(m : ℚ) * 2 ^ (d : ℤ)⌋₊ = m * 2 ^ d := by
        rw [zpow_natCast]
        exact_mod_cast Nat.floor_natCast (R := ℚ) (m * 2 ^ d)
      have hshift : ((d : ℤ) - 0).toNat = d := by omega
      have hrest : (0 - ((d : ℤ) - ((d : ℕ) : ℤ))).toNat = 0 := by omega
      rw [hshift, hrest, hfloor, Nat.shiftLeft_eq]
      rfl
    · obtain ⟨d, hd⟩ := Int.eq_ofNat_of_zero_le (neg_nonneg.mpr he.le)
      have hshift : (e - 0).toNat = 0 := by omega
      have hrest : (0 - (e - ((0 : ℕ) : ℤ))).toNat = d := by omega
      rw [hshift, hrest]
      have hvalue : (m : ℚ) * 2 ^ e = (m + 0) / 2 ^ d := by
        rw [show e = -(d : ℤ) by omega, zpow_neg, zpow_natCast, add_zero, div_eq_mul_inv]
      have hextends := (extends_ofMantissaAndAccuracy (m := m)
        (show Drops .exact 0 from rfl)).shiftRight d
      have hfloor := (Nat.floor_eq_iff (by positivity)).mpr ⟨hextends.low, hextends.high⟩
      rw [hvalue, hfloor]
      rfl

end PineForge.FloatArith
