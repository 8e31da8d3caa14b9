import Mathlib

/-!
# The nearest binary64 number

The binary64 numbers that are not negative are the multiples `m * 2 ^ e` with fewer than `2 ^ 53`
units of an exponent of at least `-1074`. Rounding to nearest, ties to even, counts a rational in
units of its last place. Overflow is left to the user: no bound is put on the exponent from above.
-/

namespace PineForge.Nearest

/-! ## Nearest integers -/

/-- The nearest integer of a rational that is not negative; of two the even one. -/
def roundEven (x : ℚ) : ℕ :=
  if x - ⌊x⌋₊ < 1 / 2 then ⌊x⌋₊
  else if 1 / 2 < x - ⌊x⌋₊ then ⌊x⌋₊ + 1
  else ⌊x⌋₊ + ⌊x⌋₊ % 2

theorem roundEven_error {x : ℚ} (hx : 0 ≤ x) : |(roundEven x : ℚ) - x| ≤ 1 / 2 := by
  have hle := Nat.floor_le hx
  have hlt := Nat.lt_floor_add_one x
  unfold roundEven
  rw [abs_le]
  split
  · constructor <;> linarith
  · rename_i hlow
    split
    · push_cast
      constructor <;> linarith
    · rename_i hhigh
      have hhalf : x - ⌊x⌋₊ = 1 / 2 := le_antisymm (not_lt.mp hhigh) (not_lt.mp hlow)
      obtain hparity | hparity := Nat.mod_two_eq_zero_or_one ⌊x⌋₊
      · rw [hparity, Nat.add_zero]
        constructor <;> linarith
      · rw [hparity]
        push_cast
        constructor <;> linarith

theorem roundEven_eq {x : ℚ} {n : ℕ} (hx : 0 ≤ x) (h : |x - n| < 1 / 2) : roundEven x = n := by
  have herror := abs_le.mp (roundEven_error hx)
  have hnear := abs_lt.mp h
  have hlt : (roundEven x : ℚ) < n + 1 := by linarith
  have hgt : (n : ℚ) < roundEven x + 1 := by linarith
  have hlt' : roundEven x < n + 1 := by exact_mod_cast hlt
  have hgt' : n < roundEven x + 1 := by exact_mod_cast hgt
  omega

@[simp]
theorem roundEven_natCast (n : ℕ) : roundEven (n : ℚ) = n :=
  roundEven_eq (Nat.cast_nonneg n) (by rw [sub_self, abs_zero]; norm_num)

theorem roundEven_le {x : ℚ} {n : ℕ} (hx : 0 ≤ x) (h : x ≤ n) : roundEven x ≤ n := by
  have herror := abs_le.mp (roundEven_error hx)
  have hlt : (roundEven x : ℚ) < n + 1 := by linarith
  have hlt' : roundEven x < n + 1 := by exact_mod_cast hlt
  omega

theorem le_roundEven {x : ℚ} {n : ℕ} (h : (n : ℚ) ≤ x) : n ≤ roundEven x := by
  have hx : 0 ≤ x := le_trans (Nat.cast_nonneg n) h
  have herror := abs_le.mp (roundEven_error hx)
  have hgt : (n : ℚ) < roundEven x + 1 := by linarith
  have hgt' : n < roundEven x + 1 := by exact_mod_cast hgt
  omega

theorem roundEven_nearest {x : ℚ} (hx : 0 ≤ x) (n : ℕ) :
    |(roundEven x : ℚ) - x| ≤ |(n : ℚ) - x| := by
  obtain hnear | hfar := lt_or_ge |x - n| (1 / 2)
  · rw [roundEven_eq hx hnear]
  · rw [abs_sub_comm (n : ℚ) x]
    exact le_trans (roundEven_error hx) hfar

theorem roundEven_div {a b : ℕ} (hb : 0 < b) :
    roundEven ((a : ℚ) / b)
      = if 2 * (a % b) < b then a / b
        else if b < 2 * (a % b) then a / b + 1
        else a / b + a / b % 2 := by
  have hb' : (0 : ℚ) < b := by exact_mod_cast hb
  have hfloor : ⌊(a : ℚ) / b⌋₊ = a / b := Nat.floor_div_eq_div a b
  have hsplit : (a : ℚ) = b * (a / b : ℕ) + (a % b : ℕ) := by
    exact_mod_cast (Nat.div_add_mod a b).symm
  have hfract : (a : ℚ) / b - (a / b : ℕ) = (a % b : ℕ) / b := by
    rw [eq_div_iff hb'.ne', sub_mul, div_mul_cancel₀ _ hb'.ne']
    linarith
  have hlow : (a : ℚ) / b - (a / b : ℕ) < 1 / 2 ↔ 2 * (a % b) < b := by
    rw [hfract, div_lt_div_iff₀ hb' two_pos, one_mul, mul_comm]
    exact_mod_cast Iff.rfl
  have hhigh : 1 / 2 < (a : ℚ) / b - (a / b : ℕ) ↔ b < 2 * (a % b) := by
    rw [hfract, div_lt_div_iff₀ two_pos hb', one_mul, mul_comm]
    exact_mod_cast Iff.rfl
  unfold roundEven
  rw [hfloor]
  simp only [hlow, hhigh]

/-! ## Nearest numbers -/

/-- The exponent of the last place of a positive rational. -/
def ulpExponent (q : ℚ) : ℤ := max (Int.log 2 q - 52) (-1074)

/-- The nearest binary64 number of a rational that is not negative, ties to even. -/
def nearest (q : ℚ) : ℚ := roundEven (q / 2 ^ ulpExponent q) * 2 ^ ulpExponent q

theorem nearest_zero : nearest 0 = 0 := by
  unfold nearest
  rw [zero_div, ← Nat.cast_zero, roundEven_natCast, Nat.cast_zero, zero_mul]

variable {q : ℚ}

theorem log_eq {e : ℤ} (hle : 2 ^ e ≤ q) (hlt : q < 2 ^ (e + 1)) : Int.log 2 q = e := by
  have hq : 0 < q := lt_of_lt_of_le (zpow_pos two_pos e) hle
  have h₁ : e ≤ Int.log 2 q := (Int.zpow_le_iff_le_log (by norm_num) hq).mp (by exact_mod_cast hle)
  have h₂ : Int.log 2 q < e + 1 :=
    (Int.lt_zpow_iff_log_lt (by norm_num) hq).mp (by exact_mod_cast hlt)
  omega

theorem zpow_log_le (hq : 0 < q) : (2 : ℚ) ^ Int.log 2 q ≤ q := by
  exact_mod_cast Int.zpow_log_le_self (b := 2) (by norm_num) hq

theorem lt_zpow_log (q : ℚ) : q < (2 : ℚ) ^ (Int.log 2 q + 1) := by
  exact_mod_cast Int.lt_zpow_succ_log_self (b := 2) (by norm_num) q

/-- In units of its last place a rational is less than `2 ^ 53`. -/
theorem div_ulp_lt (q : ℚ) : q / 2 ^ ulpExponent q < 2 ^ 53 := by
  rw [div_lt_iff₀ (zpow_pos two_pos _)]
  calc q < (2 : ℚ) ^ (Int.log 2 q + 1) := lt_zpow_log q
    _ ≤ (2 : ℚ) ^ (53 + ulpExponent q) := by
      refine zpow_le_zpow_right₀ (by norm_num) ?_
      have := le_max_left (Int.log 2 q - 52) (-1074)
      unfold ulpExponent
      omega
    _ = 2 ^ 53 * 2 ^ ulpExponent q := by
      rw [zpow_add₀ two_ne_zero]
      rfl

/-- Unless its last place is the smallest, a rational has `2 ^ 52` units of it. -/
theorem le_div_ulp (hq : 0 < q) : ulpExponent q = -1074 ∨ 2 ^ 52 ≤ q / 2 ^ ulpExponent q := by
  by_cases hleast : ulpExponent q = -1074
  · exact .inl hleast
  · refine .inr ?_
    have hulp : ulpExponent q = Int.log 2 q - 52 := by
      unfold ulpExponent at hleast ⊢
      omega
    rw [le_div_iff₀ (zpow_pos two_pos _), hulp]
    calc (2 : ℚ) ^ 52 * 2 ^ (Int.log 2 q - 52) = 2 ^ Int.log 2 q := by
          rw [zpow_sub₀ two_ne_zero]
          norm_num
          ring
      _ ≤ q := zpow_log_le hq

theorem div_ulp_nonneg (hq : 0 ≤ q) : 0 ≤ q / 2 ^ ulpExponent q :=
  div_nonneg hq (zpow_nonneg zero_le_two _)

theorem nearest_nonneg : 0 ≤ nearest q :=
  mul_nonneg (Nat.cast_nonneg _) (zpow_nonneg zero_le_two _)

theorem nearest_error (hq : 0 ≤ q) : |nearest q - q| ≤ 2 ^ ulpExponent q / 2 := by
  have hpos : (0 : ℚ) < 2 ^ ulpExponent q := zpow_pos two_pos _
  have hsplit : nearest q - q
      = (roundEven (q / 2 ^ ulpExponent q) - q / 2 ^ ulpExponent q) * 2 ^ ulpExponent q := by
    unfold nearest
    rw [sub_mul, div_mul_cancel₀ q hpos.ne']
  rw [hsplit, abs_mul, abs_of_pos hpos]
  calc |(roundEven (q / 2 ^ ulpExponent q) : ℚ) - q / 2 ^ ulpExponent q| * 2 ^ ulpExponent q
      ≤ 1 / 2 * 2 ^ ulpExponent q :=
        mul_le_mul_of_nonneg_right (roundEven_error (div_ulp_nonneg hq)) hpos.le
    _ = 2 ^ ulpExponent q / 2 := by ring

theorem nearest_of_scaled {m : ℕ} {e : ℤ} (hm : m < 2 ^ 53) (he : -1074 ≤ e) :
    nearest (m * 2 ^ e) = m * 2 ^ e := by
  obtain rfl | hpos := Nat.eq_zero_or_pos m
  · rw [Nat.cast_zero, zero_mul, nearest_zero]
  · have hpos' : (0 : ℚ) < m := by exact_mod_cast hpos
    have hlog : Int.log 2 ((m : ℚ) * 2 ^ e) < e + 53 := by
      refine (Int.lt_zpow_iff_log_lt (by norm_num) (mul_pos hpos' (zpow_pos two_pos e))).mp ?_
      have hm' : (m : ℚ) < 2 ^ (53 : ℤ) := by exact_mod_cast hm
      calc (m : ℚ) * 2 ^ e < 2 ^ (53 : ℤ) * 2 ^ e :=
            mul_lt_mul_of_pos_right hm' (zpow_pos two_pos e)
        _ = ((2 : ℕ) : ℚ) ^ (e + 53) := by
          rw [zpow_add₀ (by norm_num), mul_comm]
          norm_num
    have hulp : ulpExponent ((m : ℚ) * 2 ^ e) ≤ e := by
      unfold ulpExponent
      exact max_le (by omega) he
    obtain ⟨d, hd⟩ := Int.le.dest hulp
    have hcount : (m : ℚ) * 2 ^ e / 2 ^ ulpExponent ((m : ℚ) * 2 ^ e) = (m * 2 ^ d : ℕ) := by
      rw [div_eq_iff (zpow_pos two_pos _).ne']
      push_cast
      rw [mul_assoc, ← zpow_natCast, ← zpow_add₀ two_ne_zero, add_comm, hd]
    unfold nearest
    rw [hcount, roundEven_natCast, ← hcount, div_mul_cancel₀ _ (zpow_pos two_pos _).ne']

theorem nearest_of_scaled_le {m : ℕ} {e : ℤ} (hm : m ≤ 2 ^ 53) (he : -1074 ≤ e) :
    nearest (m * 2 ^ e) = m * 2 ^ e := by
  obtain hlt | rfl := hm.lt_or_eq
  · exact nearest_of_scaled hlt he
  · have hcarry : ((2 ^ 53 : ℕ) : ℚ) * 2 ^ e = (2 ^ 52 : ℕ) * 2 ^ (e + 1) := by
      rw [zpow_add_one₀ two_ne_zero]
      norm_num
      ring
    rw [hcarry]
    exact nearest_of_scaled (by norm_num) (by omega)

theorem nearest_error_le_of_le {m : ℕ} {e : ℤ} (hq : 0 ≤ q) (he : ulpExponent q ≤ e) :
    |nearest q - q| ≤ |m * 2 ^ e - q| := by
  obtain ⟨d, hd⟩ := Int.le.dest he
  have hpos : (0 : ℚ) < 2 ^ ulpExponent q := zpow_pos two_pos _
  have hscale : (m : ℚ) * 2 ^ e = (m * 2 ^ d : ℕ) * 2 ^ ulpExponent q := by
    push_cast
    rw [mul_assoc, ← zpow_natCast, ← zpow_add₀ two_ne_zero, add_comm, hd]
  have hcount : ∀ n : ℕ, |(n : ℚ) * 2 ^ ulpExponent q - q|
      = |(n : ℚ) - q / 2 ^ ulpExponent q| * 2 ^ ulpExponent q := by
    intro n
    rw [← abs_of_pos hpos, ← abs_mul, abs_of_pos hpos, sub_mul, div_mul_cancel₀ q hpos.ne']
  unfold nearest
  rw [hscale, hcount, hcount]
  exact mul_le_mul_of_nonneg_right (roundEven_nearest (div_ulp_nonneg hq) _) hpos.le

theorem nearest_error_le {m : ℕ} {e : ℤ} (hq : 0 ≤ q) (hm : m < 2 ^ 53) (he : -1074 ≤ e) :
    |nearest q - q| ≤ |m * 2 ^ e - q| := by
  obtain hle | hlt := le_or_gt (ulpExponent q) e
  · exact nearest_error_le_of_le hq hle
  · -- The number lies below the power of two that starts the binade, a multiple of the last place.
    have hulp : ulpExponent q = Int.log 2 q - 52 := by
      unfold ulpExponent at hlt ⊢
      omega
    obtain rfl | hpos := hq.eq_or_lt
    · rw [nearest_zero, sub_self, abs_zero]
      exact abs_nonneg _
    · have hstart : ((2 ^ 52 : ℕ) : ℚ) * 2 ^ ulpExponent q = 2 ^ Int.log 2 q := by
        rw [hulp, zpow_sub₀ two_ne_zero]
        norm_num
        ring
      have hbelow : (m : ℚ) * 2 ^ e ≤ 2 ^ Int.log 2 q := by
        have hm' : (m : ℚ) ≤ 2 ^ (53 : ℤ) := by exact_mod_cast hm.le
        calc (m : ℚ) * 2 ^ e ≤ 2 ^ (53 : ℤ) * 2 ^ e :=
              mul_le_mul_of_nonneg_right hm' (zpow_nonneg zero_le_two e)
          _ = 2 ^ (53 + e) := (zpow_add₀ two_ne_zero _ _).symm
          _ ≤ 2 ^ Int.log 2 q := zpow_le_zpow_right₀ (by norm_num) (by omega)
      have hle := zpow_log_le hpos
      calc |nearest q - q| ≤ |((2 ^ 52 : ℕ) : ℚ) * 2 ^ ulpExponent q - q| :=
            nearest_error_le_of_le hq le_rfl
        _ = q - 2 ^ Int.log 2 q := by rw [hstart, abs_sub_comm, abs_of_nonneg (sub_nonneg.mpr hle)]
        _ ≤ q - m * 2 ^ e := sub_le_sub_left hbelow q
        _ ≤ |m * 2 ^ e - q| := by
          rw [abs_sub_comm]
          exact le_abs_self _

theorem nearest_le {m : ℕ} {e : ℤ} (hq : 0 ≤ q) (hm : m < 2 ^ 53) (he : -1074 ≤ e)
    (h : q ≤ m * 2 ^ e) : nearest q ≤ m * 2 ^ e := by
  have herror := nearest_error_le hq hm he
  rw [abs_of_nonneg (sub_nonneg.mpr h)] at herror
  linarith [le_abs_self (nearest q - q)]

theorem nearest_lt (hq : 0 ≤ q) (h : q ≤ 2 ^ 1000) : nearest q < 2 ^ 1024 := by
  have hle := nearest_le (m := 1) (e := 1000) hq (by norm_num) (by norm_num)
    (by rw [Nat.cast_one, one_mul]; exact h)
  rw [Nat.cast_one, one_mul] at hle
  exact lt_of_le_of_lt hle (pow_lt_pow_right₀ (by norm_num) (by norm_num))

/-- The error of a normal number is at most `2 ^ -53` of it. -/
theorem nearest_relative (hq : 0 < q) (hnormal : (2 : ℚ) ^ (-1022 : ℤ) ≤ q) :
    |nearest q - q| ≤ q / 2 ^ 53 := by
  have hlog : -1022 ≤ Int.log 2 q :=
    (Int.zpow_le_iff_le_log (by norm_num) hq).mp (by exact_mod_cast hnormal)
  have hulp : ulpExponent q = Int.log 2 q - 52 := max_eq_left (by omega)
  refine le_trans (nearest_error hq.le) ?_
  rw [hulp, le_div_iff₀ (by norm_num)]
  calc (2 : ℚ) ^ (Int.log 2 q - 52) / 2 * 2 ^ 53 = 2 ^ Int.log 2 q := by
        rw [zpow_sub₀ two_ne_zero]
        norm_num
        ring
    _ ≤ q := zpow_log_le hq

end PineForge.Nearest
