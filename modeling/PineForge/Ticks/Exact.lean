import PineForge.Ticks.Volume

/-!
# The volume of decimal ticks is exact

A count of steps is turned into the nearest double of its decimal, bit by bit where it does not fit
a double, and no word overflows on the way. Ticks whose quantities give back their counts are summed
without error, in whatever order they come.
-/

namespace PineForge.Ticks

open FloatArith Nearest

/-- Words that hold what fits them. -/
def Store.Keeps (store : Store) : Prop := ∀ n : ℕ, n < 2 ^ 64 → store n = some n

theorem wrapped_keeps : Store.Keeps wrapped := by
  intro n hn
  change some ((n : ℤ) % 2 ^ 64).toNat = some n
  congr 1
  omega

theorem checked_keeps : Store.Keeps checked := by
  intro n hn
  have hfits : 0 ≤ (n : ℤ) ∧ (n : ℤ) < 2 ^ 64 := by omega
  change (if 0 ≤ (n : ℤ) ∧ (n : ℤ) < 2 ^ 64 then some (n : ℤ).toNat else none) = some n
  rw [if_pos hfits, Int.toNat_natCast]

namespace TickVolume

variable {store : Store}

/-! ## The loops of the division -/

theorem powerOfFive_eq (hstore : store.Keeps) {places : ℕ} (hplaces : places ≤ 22) :
    powerOfFive store places = some (5 ^ places) := by
  induction places with
  | zero => rfl
  | succ places ih =>
    have hlt : 5 ^ places * 5 < 2 ^ 64 := by
      calc 5 ^ places * 5 = 5 ^ (places + 1) := (pow_succ 5 places).symm
        _ ≤ 5 ^ 22 := Nat.pow_le_pow_right (by norm_num) hplaces
        _ < 2 ^ 64 := by norm_num
    have hkeeps := hstore _ hlt
    rw [Nat.cast_mul] at hkeeps
    unfold powerOfFive
    rw [ih (by omega), Option.bind_eq_bind, Option.bind_some, pow_succ]
    exact hkeeps

/-- Raising finds the leading power. -/
theorem raise_eq (hstore : store.Keeps) {numerator fuel denominator j : ℕ} {exponent : ℤ}
    (hfuel : j ≤ fuel)
    (hlow : denominator * 2 ^ j ≤ numerator) (hhigh : numerator < 2 * (denominator * 2 ^ j))
    (hnumerator : numerator < 2 ^ 63) :
    raise store numerator (fuel + 1) denominator exponent
      = some (denominator * 2 ^ j, exponent + j) := by
  induction j generalizing fuel denominator exponent with
  | zero =>
    rw [pow_zero, mul_one] at hlow hhigh ⊢
    unfold raise
    rw [if_neg (by omega), Nat.cast_zero, add_zero]
  | succ j ih =>
    obtain ⟨fuel, rfl⟩ := Nat.exists_eq_add_of_lt (Nat.zero_lt_of_lt hfuel)
    have hpow : denominator * 2 * 2 ^ j = denominator * 2 ^ (j + 1) := by
      rw [mul_assoc, ← pow_succ']
    have hone : 1 ≤ 2 ^ j := Nat.one_le_two_pow
    have hhalf : denominator * 2 ≤ numerator :=
      le_trans (Nat.le_mul_of_pos_right _ hone) (by rwa [hpow])
    have hkeeps := hstore (denominator * 2) (by omega)
    rw [Nat.cast_mul] at hkeeps
    have hih : raise store numerator (fuel + 1) (denominator * 2) (exponent + 1)
        = some (denominator * 2 * 2 ^ j, exponent + 1 + j) :=
      ih (by omega) (by rwa [hpow]) (by rwa [hpow])
    rw [zero_add]
    unfold raise
    rw [if_pos (by omega)]
    change (store _).bind _ = _
    rw [show (denominator : ℤ) * 2 = denominator * (2 : ℕ) from rfl, hkeeps,
      Option.bind_some, hih, hpow]
    congr 2
    push_cast
    ring

theorem exists_raise {numerator denominator : ℕ} (hpos : 0 < denominator)
    (hle : denominator ≤ numerator)
    (hnumerator : numerator < 2 ^ 63) :
    ∃ j ≤ 63, denominator * 2 ^ j ≤ numerator ∧ numerator < 2 * (denominator * 2 ^ j) := by
  have hquotient : numerator / denominator ≠ 0 := (Nat.div_pos hle hpos).ne'
  have hlow : 2 ^ Nat.log 2 (numerator / denominator) ≤ numerator / denominator :=
    Nat.pow_log_le_self 2 hquotient
  have hhigh : numerator / denominator < 2 ^ (Nat.log 2 (numerator / denominator) + 1) :=
    Nat.lt_pow_succ_log_self (by norm_num) _
  refine ⟨Nat.log 2 (numerator / denominator), ?_, ?_, ?_⟩
  · have hlt : Nat.log 2 (numerator / denominator) < 63 := by
      refine Nat.log_lt_of_lt_pow hquotient ?_
      exact lt_of_le_of_lt (Nat.div_le_self _ _) hnumerator
    omega
  · rw [Nat.le_div_iff_mul_le hpos] at hlow
    rwa [mul_comm]
  · rw [Nat.div_lt_iff_lt_mul hpos, pow_succ] at hhigh
    calc numerator < 2 ^ Nat.log 2 (numerator / denominator) * 2 * denominator := hhigh
      _ = 2 * (denominator * 2 ^ Nat.log 2 (numerator / denominator)) := by ring

theorem lower_eq {denominator fuel numerator : ℕ} {exponent : ℤ} (hle : denominator ≤ numerator) :
    lower store denominator (fuel + 1) numerator exponent = some (numerator, exponent) := by
  unfold lower
  rw [if_neg (not_lt.mpr hle)]

/-- The bits divided are the quotient's. -/
theorem divide_eq (hstore : store.Keeps) {denominator : ℕ} (hdenominator : denominator < 2 ^ 63)
    {bits numerator : ℕ} (hpos : 0 < denominator)
    (hfits : numerator * 2 ^ bits / denominator < 2 ^ 53) :
    divide store denominator bits (numerator % denominator) (numerator / denominator)
      = some (numerator * 2 ^ bits % denominator, numerator * 2 ^ bits / denominator) := by
  induction bits generalizing numerator with
  | zero =>
    rw [pow_zero, mul_one]
    rfl
  | succ bits ih =>
    have hpow : numerator * 2 * 2 ^ bits = numerator * 2 ^ (bits + 1) := by
      rw [mul_assoc, ← pow_succ']
    have hih := @ih (numerator * 2) (by rwa [hpow])
    rw [hpow] at hih
    have hremainder := Nat.mod_lt numerator hpos
    have hsplit := Nat.div_add_mod numerator denominator
    have hquotient : numerator / denominator < 2 ^ 53 := by
      refine lt_of_le_of_lt (Nat.div_le_div_right ?_) hfits
      exact Nat.le_mul_of_pos_right numerator (by positivity)
    have hdouble : numerator * 2 = denominator * (2 * (numerator / denominator))
        + 2 * (numerator % denominator) := by
      nlinarith
    have hkeeps₁ := hstore (numerator % denominator * 2) (by omega)
    have hkeeps₂ := hstore (numerator / denominator * 2) (by omega)
    rw [Nat.cast_mul] at hkeeps₁ hkeeps₂
    unfold divide
    change (store _).bind _ = _
    rw [show ((numerator % denominator : ℕ) : ℤ) * 2
      = (numerator % denominator : ℕ) * (2 : ℕ) from rfl,
      hkeeps₁, Option.bind_some]
    change (store _).bind _ = _
    rw [show ((numerator / denominator : ℕ) : ℤ) * 2
      = (numerator / denominator : ℕ) * (2 : ℕ) from rfl,
      hkeeps₂, Option.bind_some]
    split
    · rename_i hbit
      obtain ⟨hquotient', hremainder'⟩ : numerator * 2 / denominator
        = numerator / denominator * 2 + 1 ∧
          numerator * 2 % denominator = numerator % denominator * 2 - denominator := by
        refine (Nat.div_mod_unique hpos).mpr ⟨?_, by omega⟩
        rw [mul_add, mul_one, mul_comm (numerator / denominator)]
        omega
      have hkeeps₃ := hstore (numerator % denominator * 2 - denominator) (by omega)
      have hkeeps₄ := hstore (numerator / denominator * 2 + 1) (by omega)
      rw [Nat.cast_sub hbit] at hkeeps₃
      rw [Nat.cast_add] at hkeeps₄
      change (store _).bind _ = _
      rw [hkeeps₃, Option.bind_some]
      change (store _).bind _ = _
      rw [show ((numerator / denominator * 2 : ℕ) : ℤ) + 1
        = (numerator / denominator * 2 : ℕ) + (1 : ℕ)
        from rfl, hkeeps₄, Option.bind_some]
      rwa [hremainder', hquotient'] at hih
    · rename_i hbit
      obtain ⟨hquotient', hremainder'⟩ : numerator * 2 / denominator = numerator / denominator * 2 ∧
          numerator * 2 % denominator = numerator % denominator * 2 := by
        refine (Nat.div_mod_unique hpos).mpr ⟨?_, by omega⟩
        rw [mul_comm (numerator / denominator)]
        omega
      rwa [hremainder', hquotient'] at hih

theorem roundSignificand_eq (hstore : store.Keeps) {denominator numerator : ℕ}
    (hdenominator : denominator < 2 ^ 63) (hpos : 0 < denominator)
    (hfits : numerator / denominator < 2 ^ 53) :
    roundSignificand store denominator (numerator % denominator) (numerator / denominator)
      = some (roundEven ((numerator : ℚ) / denominator)) := by
  have hremainder := Nat.mod_lt numerator hpos
  have hkeeps := hstore (denominator - numerator % denominator) (by omega)
  rw [Nat.cast_sub hremainder.le] at hkeeps
  have hnext := hstore (numerator / denominator + 1) (by omega)
  unfold roundSignificand
  rw [hkeeps, roundEven_div hpos]
  change (if _ then _ else _) = _
  split
  · rename_i hup
    rw [if_neg (by omega)]
    split
    · exact hnext
    · rw [show numerator / denominator % 2 = 1 by omega]
      exact hnext
  · rename_i hdown
    split
    · rfl
    · rw [if_neg (by omega), show numerator / denominator % 2 = 0 by omega, add_zero]

theorem count_nonneg (count places : ℕ) : 0 ≤ (count : ℚ) / 10 ^ places := by positivity

theorem count_le_cast (count places : ℕ) : (count : ℚ) / 10 ^ places ≤ count :=
  div_le_self (Nat.cast_nonneg count) (one_le_pow₀ (by norm_num))

theorem count_le {count : ℕ} (h : count < 2 ^ 63) (places : ℕ) :
    (count : ℚ) / 10 ^ places ≤ 2 ^ 1000 := by
  calc (count : ℚ) / 10 ^ places ≤ count := count_le_cast count places
    _ ≤ 2 ^ 63 := by exact_mod_cast h.le
    _ ≤ 2 ^ 1000 := pow_le_pow_right₀ (by norm_num) (by norm_num)

/-- The long division is correctly rounded. -/
theorem longDivision_eq {places numerator : ℕ} (hplaces : places ≤ 22) (hlow : 2 ^ 53 < numerator)
    (hhigh : numerator < 2 ^ 63) :
    ∃ x, Denotes x (nearest ((numerator : ℚ) / 10 ^ places)) ∧
      ∀ store : Store, store.Keeps → longDivision store places numerator = some x := by
  have hfive : 5 ^ places ≤ numerator := by
    calc 5 ^ places ≤ 5 ^ 22 := Nat.pow_le_pow_right (by norm_num) hplaces
      _ ≤ numerator := by omega
  obtain ⟨j, hj, hdenominator, htwice⟩ := exists_raise (by positivity) hfive hhigh
  have hpos : 0 < 5 ^ places * 2 ^ j := by positivity
  have hquotient : numerator / (5 ^ places * 2 ^ j) = 1 := by
    refine Nat.div_eq_of_lt_le ?_ ?_
    · rwa [one_mul]
    · exact htwice
  have hfits : numerator * 2 ^ 52 / (5 ^ places * 2 ^ j) < 2 ^ 53 := by
    rw [Nat.div_lt_iff_lt_mul hpos]
    omega
  have hremainder : numerator % (5 ^ places * 2 ^ j) = numerator - 5 ^ places * 2 ^ j := by
    have hsplit := Nat.div_add_mod numerator (5 ^ places * 2 ^ j)
    rw [hquotient, mul_one] at hsplit
    omega
  -- The quotient lies between one and two times a power of two, which is its exponent.
  have hratio : (numerator : ℚ) / 10 ^ places
      = (numerator : ℚ) / (5 ^ places * 2 ^ j : ℕ) * 2 ^ (-(places : ℤ) + j) := by
    rw [zpow_add₀ two_ne_zero, zpow_neg, zpow_natCast, zpow_natCast,
      show (10 : ℚ) = 5 * 2 by norm_num, mul_pow]
    push_cast
    field_simp
  have hden : (0 : ℚ) < (5 ^ places * 2 ^ j : ℕ) := by exact_mod_cast hpos
  have hone : 1 ≤ (numerator : ℚ) / (5 ^ places * 2 ^ j : ℕ) := by
    rw [le_div_iff₀ hden, one_mul]
    exact_mod_cast hdenominator
  have htwo : (numerator : ℚ) / (5 ^ places * 2 ^ j : ℕ) < 2 := by
    rw [div_lt_iff₀ hden]
    exact_mod_cast htwice
  have hlog : Int.log 2 ((numerator : ℚ) / 10 ^ places) = -(places : ℤ) + j := by
    have hunit : (0 : ℚ) < 2 ^ (-(places : ℤ) + j) := zpow_pos two_pos _
    refine log_eq ?_ ?_
    · rw [hratio]
      exact le_mul_of_one_le_left hunit.le hone
    · rw [hratio, zpow_add_one₀ two_ne_zero, mul_comm]
      exact mul_lt_mul_of_pos_left htwo hunit
  have hulp : ulpExponent ((numerator : ℚ) / 10 ^ places) = -(places : ℤ) + j - 52 := by
    unfold ulpExponent
    rw [hlog]
    exact max_eq_left (by omega)
  have hnearest : nearest ((numerator : ℚ) / 10 ^ places)
      = roundEven ((numerator * 2 ^ 52 : ℕ) / (5 ^ places * 2 ^ j : ℕ))
        * 2 ^ (-(places : ℤ) + j - 52) := by
    unfold nearest
    rw [hulp]
    congr 3
    rw [hratio, zpow_sub₀ two_ne_zero, div_div_eq_mul_div, mul_assoc,
      ← mul_comm ((2 : ℚ) ^ (52 : ℤ)),
      ← mul_assoc, mul_div_assoc, div_self (zpow_pos two_pos _).ne', mul_one]
    push_cast
    rw [div_mul_eq_mul_div]
  have hle : roundEven (((numerator * 2 ^ 52 : ℕ) : ℚ) / (5 ^ places * 2 ^ j : ℕ)) ≤ 2 ^ 53 := by
    refine roundEven_le (by positivity) ?_
    rw [div_le_iff₀ hden]
    exact_mod_cast (by omega : numerator * 2 ^ 52 ≤ 2 ^ 53 * (5 ^ places * 2 ^ j))
  have hexact := nearest_of_scaled_le hle (e := -(places : ℤ) + j - 52) (by omega)
  have hlt := nearest_lt (count_nonneg numerator places) (count_le hhigh places)
  refine ⟨ldexp (fromInt (roundEven (((numerator * 2 ^ 52 : ℕ) : ℚ) / (5 ^ places * 2 ^ j : ℕ)) :
    ℕ))
    (-(places : ℤ) + j - 52), ?_, ?_⟩
  · have hldexp := (denotes_fromInt_of_le hle).ldexp (n := -(places : ℤ) + j - 52)
      (by rw [hexact, ← hnearest]; exact hlt)
    rw [hexact, ← hnearest] at hldexp
    exact hldexp
  · intro store hstore
    have hkeeps := hstore (numerator - 5 ^ places * 2 ^ j) (by omega)
    rw [Nat.cast_sub hdenominator] at hkeeps
    unfold longDivision
    rw [powerOfFive_eq hstore hplaces]
    change (raise store numerator 64 (5 ^ places) (-(places : ℤ))).bind _ = _
    rw [raise_eq hstore hj hdenominator htwice hhigh, Option.bind_some]
    change (lower store (5 ^ places * 2 ^ j) 64 numerator (-(places : ℤ) + j)).bind _ = _
    rw [lower_eq hdenominator, Option.bind_some]
    change (store (numerator - (5 ^ places * 2 ^ j : ℕ))).bind _ = _
    rw [hkeeps, Option.bind_some]
    change (divide store (5 ^ places * 2 ^ j) 52 (numerator - 5 ^ places * 2 ^ j) 1).bind _ = _
    have hdivide := divide_eq hstore (by omega) hpos hfits
    rw [hquotient, hremainder] at hdivide
    rw [hdivide, Option.bind_some]
    change (roundSignificand store (5 ^ places * 2 ^ j) _ _).bind _ = _
    rw [roundSignificand_eq hstore (by omega) hpos hfits]
    rfl

/-! ## Decimal places -/

/-- The divisor of a number of decimal places. -/
def scale : ℕ → Float
  | 0 => 1.0
  | places + 1 => scale places * 10.0

theorem denotes_one : Denotes 1.0 1 := by
  have hone : (1.0 : Float) = fromInt (1 : ℕ) := by decide +kernel
  have hdenotes := denotes_fromInt_of_le (n := 1) (by norm_num)
  rw [← hone, Nat.cast_one] at hdenotes
  exact hdenotes

theorem denotes_ten : Denotes 10.0 10 := by
  have hten : (10.0 : Float) = fromInt (10 : ℕ) := by decide +kernel
  have hdenotes := denotes_fromInt_of_le (n := 10) (by norm_num)
  rw [← hten, Nat.cast_ofNat] at hdenotes
  exact hdenotes

theorem nearest_pow_ten {places : ℕ} (hplaces : places ≤ 22) :
    nearest (10 ^ places) = 10 ^ places := by
  have hfive : 5 ^ places < 2 ^ 53 :=
    lt_of_le_of_lt (Nat.pow_le_pow_right (by norm_num) hplaces) (by norm_num)
  have hscaled := nearest_of_scaled (e := places) hfive (by omega)
  have hten : ((5 ^ places : ℕ) : ℚ) * 2 ^ (places : ℤ) = 10 ^ places := by
    rw [zpow_natCast, show (10 : ℚ) = 5 * 2 by norm_num, mul_pow]
    push_cast
    rfl
  rwa [hten] at hscaled

theorem pow_ten_le {places : ℕ} (hplaces : places ≤ 22) : (10 : ℚ) ^ places ≤ 2 ^ 100 := by
  calc (10 : ℚ) ^ places ≤ 10 ^ 22 := pow_le_pow_right₀ (by norm_num) hplaces
    _ ≤ 2 ^ 100 := by norm_num

theorem denotes_scale {places : ℕ} (hplaces : places ≤ 22) :
    Denotes (scale places) (10 ^ places) := by
  induction places with
  | zero =>
    rw [pow_zero]
    exact denotes_one
  | succ places ih =>
    have hnearest := nearest_pow_ten hplaces
    have hmul := (ih (by omega)).mul denotes_ten (by
      rw [← pow_succ]
      refine nearest_lt (by positivity) (le_trans (pow_ten_le hplaces) ?_)
      exact pow_le_pow_right₀ (by norm_num) (by norm_num))
    rw [← pow_succ, hnearest] at hmul
    exact hmul

theorem decimal_normal {count places : ℕ} (hplaces : places ≤ 22) (hcount : 0 < count) :
    (2 : ℚ) ^ (-1022 : ℤ) ≤ (count : ℚ) / 10 ^ places := by
  have hone : (1 : ℚ) ≤ count := by exact_mod_cast hcount
  calc (2 : ℚ) ^ (-1022 : ℤ) ≤ 2 ^ (-100 : ℤ) := zpow_le_zpow_right₀ (by norm_num) (by norm_num)
    _ = 1 / 2 ^ 100 := by rw [zpow_neg, one_div]; rfl
    _ ≤ 1 / 10 ^ places := one_div_le_one_div_of_le (by positivity) (pow_ten_le hplaces)
    _ ≤ (count : ℚ) / 10 ^ places := div_le_div_of_nonneg_right hone (by positivity)

/-- A volume that counts steps of a number of decimal places, and its count. -/
structure Counting (places : ℕ) (v : TickVolume) (count : ℕ) : Prop where
  exact : v.exact = true
  divisor : v.divisor = scale places
  decimalPlaces : v.decimalPlaces = places
  units : v.units = count

variable {places : ℕ} {v : TickVolume}

/-- A count is turned into the nearest double of its decimal, and no word overflows. -/
theorem decimalValue_eq (hplaces : places ≤ 22) (hdivisor : v.divisor = scale places)
    (hdecimal : v.decimalPlaces = places) {count : ℕ} (hcount : count < 2 ^ 63) :
    ∃ x, Denotes x (nearest ((count : ℚ) / 10 ^ places)) ∧
      ∀ store : Store, store.Keeps → v.decimalValue store count = some x := by
  obtain hle | hlt := le_or_gt count (2 ^ 53)
  · refine ⟨fromInt count / scale places, ?_, ?_⟩
    · refine (denotes_fromInt_of_le hle).div (denotes_scale hplaces) (by positivity) ?_
        (nearest_lt (count_nonneg count places) (count_le hcount places))
      obtain rfl | hpos := Nat.eq_zero_or_pos count
      · exact .inl Nat.cast_zero
      · exact .inr (decimal_normal hplaces hpos)
    · intro store hstore
      unfold decimalValue
      rw [if_pos (by exact_mod_cast hle), hdivisor]
  · obtain ⟨x, hx, hdivision⟩ := longDivision_eq hplaces hlt hcount
    refine ⟨x, hx, ?_⟩
    intro store hstore
    unfold decimalValue
    rw [if_neg (by exact_mod_cast not_le.mpr hlt), hdecimal, Int.toNat_natCast]
    exact hdivision store hstore

/-! ## The grid of a step -/

theorem denotes_step (hplaces : places ≤ 22) :
    Denotes (1.0 / scale places) (nearest (1 / 10 ^ places)) := by
  have hnormal := decimal_normal hplaces one_pos
  have hle := count_le (show 1 < 2 ^ 63 by norm_num) places
  have hnonneg := count_nonneg 1 places
  rw [Nat.cast_one] at hnormal hle hnonneg
  exact denotes_one.div (denotes_scale hplaces) (by positivity) (.inr hnormal)
    (nearest_lt hnonneg hle)

theorem nearest_step_lt {places finer : ℕ} (hfiner : finer ≤ 22) (hlt : places < finer) :
    nearest (1 / 10 ^ finer) < nearest (1 / 10 ^ places) := by
  have hnormal := decimal_normal (hlt.le.trans hfiner) one_pos
  have hnormal' := decimal_normal hfiner one_pos
  rw [Nat.cast_one] at hnormal hnormal'
  have herror := abs_le.mp (nearest_relative (by positivity) hnormal)
  have herror' := abs_le.mp (nearest_relative (by positivity) hnormal')
  have hten : (1 : ℚ) / 10 ^ finer ≤ 1 / 10 ^ places / 10 := by
    rw [div_div, ← pow_succ]
    exact one_div_le_one_div_of_le (by positivity) (pow_le_pow_right₀ (by norm_num) hlt)
  have hpos : (0 : ℚ) < 1 / 10 ^ places := by positivity
  generalize (1 : ℚ) / 10 ^ places = a at herror hten hpos
  generalize (1 : ℚ) / 10 ^ finer = b at herror' hten
  linarith [herror.1, herror'.2]

theorem resetFrom_eq {step : Float} (hplaces : places ≤ 22)
    (hstep : Denotes step (nearest (1 / 10 ^ places))) {tried fuel : ℕ} (htried : tried ≤ places)
    (hfuel : places < tried + fuel) :
    resetFrom step fuel tried (scale tried)
      = { new with divisor := scale places, decimalPlaces := places, exact := true } := by
  induction fuel generalizing tried with
  | zero => omega
  | succ fuel ih =>
    unfold resetFrom
    obtain rfl | hlt := htried.eq_or_lt
    · rw [if_pos ((hstep.beq_iff (denotes_step hplaces)).mpr rfl)]
    · rw [if_neg]
      · exact ih hlt (by omega)
      · intro hbeq
        have heq := (hstep.beq_iff (denotes_step (hlt.le.trans hplaces))).mp hbeq
        exact absurd heq (nearest_step_lt hplaces hlt).ne

theorem reset_counting {step : Float} (hplaces : places ≤ 22)
    (hstep : Denotes step (nearest (1 / 10 ^ places))) : Counting places (reset (some step)) 0 := by
  have hreset : reset (some step)
      = { new with divisor := scale places, decimalPlaces := places, exact := true } :=
    resetFrom_eq hplaces hstep (Nat.zero_le places) (by omega)
  rw [hreset]
  exact ⟨rfl, rfl, rfl, rfl⟩

/-! ## Ticks -/

/-- Fewer than `2 ^ 51` steps are given back by their double. -/
theorem floor_steps (hplaces : places ≤ 22) {count : ℕ} (hcount : count < 2 ^ 51) :
    ⌊nearest (nearest ((count : ℚ) / 10 ^ places) * 10 ^ places) + 1 / 2⌋₊ = count := by
  obtain rfl | hpos := Nat.eq_zero_or_pos count
  · rw [Nat.cast_zero, zero_div, nearest_zero, zero_mul, nearest_zero, zero_add]
    exact Nat.floor_eq_zero.mpr (by norm_num)
  · have hone : (1 : ℚ) ≤ count := by exact_mod_cast hpos
    have hcount' : (count : ℚ) ≤ 2 ^ 51 - 1 := by
      have hle : count + 1 ≤ 2 ^ 51 := hcount
      have hle' : (count : ℚ) + 1 ≤ 2 ^ 51 := by exact_mod_cast hle
      linarith
    have hten : (0 : ℚ) < 10 ^ places := by positivity
    -- The decimal is off by a quarter of a step at most, and so is its multiple again.
    have herror := nearest_relative (div_pos (by linarith) hten) (decimal_normal hplaces hpos)
    have hquantity : |nearest ((count : ℚ) / 10 ^ places) * 10 ^ places - count|
        ≤ count / 2 ^ 53 := by
      have hsplit : nearest ((count : ℚ) / 10 ^ places) * 10 ^ places - count
          = (nearest ((count : ℚ) / 10 ^ places) - count / 10 ^ places) * 10 ^ places := by
        rw [sub_mul, div_mul_cancel₀ _ hten.ne']
      rw [hsplit, abs_mul, abs_of_pos hten]
      calc |nearest ((count : ℚ) / 10 ^ places) - count / 10 ^ places| * 10 ^ places
          ≤ count / 10 ^ places / 2 ^ 53 * 10 ^ places := mul_le_mul_of_nonneg_right herror hten.le
        _ = count / 2 ^ 53 := by field_simp
    generalize nearest ((count : ℚ) / 10 ^ places) * 10 ^ places = y at hquantity
    have hnear := abs_le.mp hquantity
    have hy : 1 / 2 ≤ y := by
      norm_num at hnear
      linarith [hnear.1]
    have hnormal : (2 : ℚ) ^ (-1022 : ℤ) ≤ y := by
      calc (2 : ℚ) ^ (-1022 : ℤ) ≤ 2 ^ (-1 : ℤ) := zpow_le_zpow_right₀ (by norm_num) (by norm_num)
        _ ≤ y := by norm_num at hy ⊢; exact hy
    have hagain := abs_le.mp (nearest_relative (by linarith) hnormal)
    norm_num at hnear hagain
    refine (Nat.floor_eq_iff (add_nonneg nearest_nonneg (by norm_num))).mpr ⟨?_, ?_⟩
    · linarith [hnear.1, hagain.1, hnear.2]
    · linarith [hnear.2, hagain.2]

/-- A quantity that gives back its count. -/
structure Tick (places : ℕ) (quantity : Float) (count : ℕ) : Prop where
  denotes : Denotes quantity (nearest ((count : ℚ) / 10 ^ places))
  back : count < 2 ^ 51 ∨ toInt (stepsOf (scale places) quantity) = count

variable {quantity : Float} {count n : ℕ}

theorem Tick.steps (h : Tick places quantity count) (hplaces : places ≤ 22)
    (hcount : count < 2 ^ 63) :
    Denotes (stepsOf (scale places) quantity) count := by
  have hquantity : nearest ((count : ℚ) / 10 ^ places) ≤ 2 ^ 100 := by
    have hle := nearest_le (m := 1) (e := 100) (count_nonneg count places) (by norm_num)
      (by norm_num) (by
      rw [Nat.cast_one, one_mul]
      calc (count : ℚ) / 10 ^ places ≤ count := count_le_cast count places
        _ ≤ 2 ^ 63 := by exact_mod_cast hcount.le
        _ ≤ 2 ^ (100 : ℤ) := by norm_num)
    rw [Nat.cast_one, one_mul] at hle
    exact hle
  have hproduct : nearest ((count : ℚ) / 10 ^ places) * 10 ^ places ≤ 2 ^ 1000 := by
    calc nearest ((count : ℚ) / 10 ^ places) * 10 ^ places ≤ 2 ^ 100 * 2 ^ 100 :=
          mul_le_mul hquantity (pow_ten_le hplaces) (by positivity) (by norm_num)
      _ ≤ 2 ^ 1000 := by
        rw [← pow_add]
        exact pow_le_pow_right₀ (by norm_num) (by norm_num)
  have hmul := h.denotes.mul (denotes_scale hplaces)
    (nearest_lt (mul_nonneg nearest_nonneg (by positivity)) hproduct)
  have hsteps := hmul.roundAway
  change Denotes (stepsOf (scale places) quantity) _ at hsteps
  obtain hsmall | hback := h.back
  · rwa [floor_steps hplaces hsmall] at hsteps
  · rw [hsteps.toInt, Nat.floor_natCast] at hback
    rwa [Int.natCast_inj.mp hback] at hsteps

/-- An added tick is counted. -/
theorem add_counting (hplaces : places ≤ 22) (hv : Counting places v n)
    (h : Tick places quantity count)
    (htotal : n + count < 2 ^ 63) :
    ∃ next, v.add quantity = some next ∧ Counting places next (n + count) := by
  have hcount : count < 2 ^ 63 := by omega
  have hsteps := h.steps hplaces hcount
  have hunits : toInt (stepsOf (scale places) quantity) = count := by
    rw [hsteps.toInt, Nat.floor_natCast]
  have hlimit : ¬ldexp 1.0 63 ≤ stepsOf (scale places) quantity := by
    have hpow : nearest ((1 : ℚ) * 2 ^ (63 : ℤ)) = 2 ^ 63 := by
      have hscaled := nearest_of_scaled (m := 1) (e := 63) (by norm_num) (by norm_num)
      rw [Nat.cast_one] at hscaled
      rw [hscaled, one_mul]
      rfl
    have hldexp := denotes_one.ldexp (n := 63) (by
      rw [hpow]
      exact pow_lt_pow_right₀ (by norm_num) (by norm_num))
    rw [hldexp.le_iff hsteps, hpow, not_le]
    exact_mod_cast hcount
  obtain ⟨back, hback, hdecimal⟩ := decimalValue_eq (v := v.addSum quantity) hplaces hv.divisor
    hv.decimalPlaces hcount
  refine ⟨{ v.addSum quantity with units := n + count }, ?_,
    ⟨hv.exact, hv.divisor, hv.decimalPlaces, ?_⟩⟩
  · have hexact : ¬(v.addSum quantity).exact = false := by
      change ¬v.exact = false
      rw [hv.exact]
      exact Bool.noConfusion
    have hkept : ¬((back == quantity) = false ∨ 2 ^ 63 - 1 - (v.addSum quantity).units
        < (count : ℤ)) := by
      rw [(hback.beq_iff h.denotes).mpr rfl, show (v.addSum quantity).units = (n : ℤ) from hv.units]
      rintro (hne | hfull)
      · cases hne
      · omega
    unfold add
    dsimp only
    rw [if_neg hexact, show (v.addSum quantity).divisor = scale places from hv.divisor,
      if_neg, hunits]
    · rw [hdecimal wrapped wrapped_keeps]
      change (if _ then _ else _) = _
      rw [if_neg hkept, show (v.addSum quantity).units = (n : ℤ) from hv.units]
    · rw [hsteps.isFinite]
      exact fun hor => hor.elim Bool.noConfusion hlimit
  · rfl

theorem addAll_counting (hplaces : places ≤ 22) {ticks : List (Float × ℕ)}
    (hv : Counting places v n)
    (hticks : ∀ tick ∈ ticks, Tick places tick.1 tick.2)
    (htotal : n + (ticks.map Prod.snd).sum < 2 ^ 63) :
    ∃ next, v.addAll (ticks.map Prod.fst) = some next ∧
      Counting places next (n + (ticks.map Prod.snd).sum) := by
  induction ticks generalizing v n with
  | nil => exact ⟨v, rfl, hv⟩
  | cons tick ticks ih =>
    simp only [List.map_cons, List.sum_cons, ← add_assoc] at htotal ⊢
    obtain ⟨mid, hadd, hmid⟩ := add_counting hplaces hv (hticks tick List.mem_cons_self) (by omega)
    obtain ⟨next, hall, hnext⟩ := ih hmid (fun t ht => hticks t (List.mem_cons_of_mem _ ht)) htotal
    refine ⟨next, ?_, hnext⟩
    unfold addAll
    rw [List.foldlM_cons, hadd]
    exact hall

/-- Ticks that give back their counts keep the volume exact: in any order it is the nearest double
of the decimal total. No count overflows a word on its way to a double. -/
theorem decimal_volume_exact {step : Float} {ticks : List (Float × ℕ)} (hplaces : places ≤ 22)
    (hstep : Denotes step (nearest (1 / 10 ^ places)))
    (hticks : ∀ tick ∈ ticks, Tick places tick.1 tick.2)
    (htotal : (ticks.map Prod.snd).sum < 2 ^ 63) :
    (∀ order : List (Float × ℕ), order.Perm ticks →
      ∃ v x, (reset (some step)).addAll (order.map Prod.fst) = some v ∧ v.exact = true ∧
        v.value = some x ∧
        Denotes x (nearest (((ticks.map Prod.snd).sum : ℕ) / 10 ^ places))) ∧
    ∀ count : ℕ, count < 2 ^ 63 →
      ∃ x, (reset (some step)).decimalValue checked count = some x ∧
        (reset (some step)).decimalValue wrapped count = some x ∧
        Denotes x (nearest ((count : ℚ) / 10 ^ places)) := by
  have hreset := reset_counting hplaces hstep
  refine ⟨?_, ?_⟩
  · intro order hperm
    have hsum : (order.map Prod.snd).sum = (ticks.map Prod.snd).sum := (hperm.map Prod.snd).sum_eq
    obtain ⟨v, hall, hv⟩ := addAll_counting hplaces hreset
      (fun t ht => hticks t (hperm.mem_iff.mp ht))
      (by rw [zero_add, hsum]; exact htotal)
    rw [zero_add, hsum] at hv
    obtain ⟨x, hx, hdecimal⟩ := decimalValue_eq hplaces hv.divisor hv.decimalPlaces htotal
    refine ⟨v, x, hall, hv.exact, ?_, hx⟩
    unfold value
    rw [hv.exact, if_pos rfl, hv.units]
    exact hdecimal wrapped wrapped_keeps
  · intro count hcount
    obtain ⟨x, hx, hdecimal⟩ := decimalValue_eq hplaces hreset.divisor hreset.decimalPlaces hcount
    exact ⟨x, hdecimal checked checked_keeps, hdecimal wrapped wrapped_keeps, hx⟩

/-- Two ticks of a tenth. -/
theorem decimal_volume_exact_tenths :
    ∃ v x, (reset (some (1.0 / scale 1))).addAll [1.0 / scale 1, 1.0 / scale 1] = some v ∧
      v.exact = true ∧ v.value = some x ∧ Denotes x (nearest ((2 : ℕ) / 10 ^ 1)) := by
  have hstep := denotes_step (show 1 ≤ 22 by norm_num)
  have htick : Tick 1 (1.0 / scale 1) 1 := by
    refine ⟨?_, .inl (by norm_num)⟩
    rw [Nat.cast_one]
    exact hstep
  have hticks : ∀ tick ∈ [((1.0 / scale 1 : Float), 1), ((1.0 / scale 1 : Float), 1)],
      Tick 1 tick.1 tick.2 := by
    intro tick hmem
    obtain rfl | rfl : tick = (1.0 / scale 1, 1) ∨ tick = (1.0 / scale 1, 1) := by simpa using hmem
    · exact htick
    · exact htick
  exact (decimal_volume_exact (by norm_num) hstep hticks (by norm_num)).1 _ (List.Perm.refl _)

/-- A quantity of a whole number of steps that leaves the exact mode, and quantities that are
nearest to whole numbers of steps whose total is not the volume. -/
theorem decimal_volume_inexact :
    (Denotes (fromInt (3518437208883202 : ℕ) / scale 2)
      (nearest ((3518437208883202 : ℕ) / 10 ^ 2)) ∧
      ((reset (some (1.0 / scale 2))).addAll [fromInt (3518437208883202 : ℕ) / scale 2]).map
        (·.exact)
        = some false) ∧
    (Denotes (fromInt (2 ^ 53 : ℕ)) (nearest ((2 ^ 53 + 1 : ℕ) / 10 ^ 0)) ∧
      ((reset (some (1.0 / scale 0))).addAll (List.replicate 3 (fromInt (2 ^ 53 : ℕ)))).bind value
        = some (fromInt (3 * 2 ^ 53 : ℕ)) ∧
      ¬Denotes (fromInt (3 * 2 ^ 53 : ℕ)) (nearest ((3 * (2 ^ 53 + 1) : ℕ) / 10 ^ 0))) := by
  have hfirst := decimalValue_eq (v := { new with divisor := scale 2, decimalPlaces := 2 })
    (by norm_num)
    rfl rfl (show 3518437208883202 < 2 ^ 63 by norm_num)
  obtain ⟨x, hx, hdecimal⟩ := hfirst
  have hquotient := hdecimal wrapped wrapped_keeps
  change some (fromInt (3518437208883202 : ℕ) / scale 2) = some x at hquotient
  rw [← Option.some.inj hquotient] at hx
  refine ⟨⟨hx, by decide +kernel⟩, ?_, by decide +kernel, ?_⟩
  · have hnearest : nearest ((2 ^ 53 + 1 : ℕ) / 10 ^ 0) = (2 ^ 53 : ℕ) := by decide +kernel
    rw [hnearest]
    exact denotes_fromInt_of_le le_rfl
  · intro hdenotes
    have hself : nearest ((3 * 2 ^ 53 : ℕ) : ℚ) = (3 * 2 ^ 53 : ℕ) := by decide +kernel
    have hother := denotes_fromInt (n := 3 * 2 ^ 53)
      (nearest_lt (Nat.cast_nonneg _) (by
        calc ((3 * 2 ^ 53 : ℕ) : ℚ) ≤ 2 ^ 55 := by norm_num
          _ ≤ 2 ^ 1000 := pow_le_pow_right₀ (by norm_num) (by norm_num)))
    have heq := hdenotes.rank_eq hother rfl
    rw [hself] at heq
    exact absurd heq (by decide +kernel)

end TickVolume

end PineForge.Ticks
