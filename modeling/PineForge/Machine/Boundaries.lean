import PineForge.Machine.Nearest

/-!
# Rounding boundaries

What a correctly rounding conversion reports of a magnitude (its nearest number, an overflow, an
underflow) is decided by the boundaries below the magnitude: multiples of `2 ^ -1076` up to
`2 ^ 1025`. Two magnitudes that no boundary separates convert alike, and an interval between
neighbouring multiples of a fine enough grid holds no boundary.
-/

namespace PineForge.Nearest

/-! ## Conversions -/

/-- Whether a result counts as tiny by its exact magnitude or by the one rounded to 53 places. -/
inductive Tininess
  | beforeRounding
  | afterRounding

/-- The least magnitude that is not tiny. -/
def Tininess.bound : Tininess → ℚ
  | beforeRounding => 1 / 2 ^ 1022
  | afterRounding => 1 / 2 ^ 1022 - 1 / 2 ^ 1076

/-- What a conversion answers. -/
inductive Converted
  | overflow
  | finite (magnitude : ℚ) (underflow : Bool)
deriving DecidableEq

/-- A magnitude, correctly rounded; a result underflows when it is tiny and not exact. -/
def convert (tininess : Tininess) (q : ℚ) : Converted :=
  if 2 ^ 1024 ≤ nearest q then .overflow
  else .finite (nearest q) (q < tininess.bound ∧ nearest q ≠ q)

theorem roundEven_congr {x y : ℚ} (hfloor : ⌊x⌋₊ = ⌊y⌋₊)
    (hlow : x < ⌊x⌋₊ + 1 / 2 ↔ y < ⌊x⌋₊ + 1 / 2)
    (hhigh : ⌊x⌋₊ + 1 / 2 < x ↔ ⌊x⌋₊ + 1 / 2 < y) : roundEven x = roundEven y := by
  unfold roundEven
  rw [← hfloor]
  simp only [sub_lt_iff_lt_add', lt_sub_iff_add_lt', hlow, hhigh]

theorem le_nearest {q : ℚ} (h : 2 ^ 1024 ≤ q) : 2 ^ 1024 ≤ nearest q := by
  have hq : 0 < q := lt_of_lt_of_le (by norm_num) h
  have hlog : 1024 ≤ Int.log 2 q :=
    (Int.zpow_le_iff_le_log (b := 2) one_lt_two hq).mp (by exact_mod_cast h)
  have hulp : 972 ≤ ulpExponent q := by
    unfold ulpExponent
    omega
  have hcount : 2 ^ 52 ≤ roundEven (q / 2 ^ ulpExponent q) := by
    obtain heq | hle := le_div_ulp hq
    · omega
    · exact le_roundEven (by exact_mod_cast hle)
  calc (2 : ℚ) ^ 1024 = 2 ^ 52 * (2 : ℚ) ^ (972 : ℤ) := by
        rw [zpow_ofNat, ← pow_add]
    _ ≤ (roundEven (q / 2 ^ ulpExponent q) : ℚ) * 2 ^ ulpExponent q := by
      refine mul_le_mul (by exact_mod_cast hcount) (zpow_le_zpow_right₀ one_le_two hulp) ?_ ?_
      · exact zpow_nonneg zero_le_two _
      · exact Nat.cast_nonneg _

/-! ## Magnitudes that no boundary separates -/

/-- Doubles and the middles between them. -/
def Boundary (t : ℚ) : Prop := t ≤ 2 ^ 1025 ∧ ∃ m : ℕ, t = m / 2 ^ 1076

/-- No boundary tells two numbers apart. -/
def SameSide (q r : ℚ) : Prop := ∀ t, Boundary t → (t ≤ q ↔ t ≤ r) ∧ (q ≤ t ↔ r ≤ t)

theorem boundary_scaled {n : ℕ} {e : ℤ} (he : -1076 ≤ e) (h : n * 2 ^ e ≤ (2 : ℚ) ^ 1025) :
    Boundary (n * 2 ^ e) := by
  obtain ⟨k, hk⟩ := Int.le.dest he
  refine ⟨h, n * 2 ^ k, ?_⟩
  rw [← hk, zpow_add₀ two_ne_zero, zpow_natCast, Nat.cast_mul, Nat.cast_pow, Nat.cast_ofNat,
    zpow_neg, mul_div_assoc, div_eq_inv_mul]
  rfl

theorem boundary_zpow {e : ℤ} (he : -1076 ≤ e) (h : e ≤ 1025) : Boundary (2 ^ e) := by
  have hle : (2 : ℚ) ^ e ≤ 2 ^ (1025 : ℤ) := zpow_le_zpow_right₀ one_le_two h
  have hscaled := boundary_scaled (n := 1) he (by rw [Nat.cast_one, one_mul]; exact hle)
  rwa [Nat.cast_one, one_mul] at hscaled

theorem boundary_bound (tininess : Tininess) : Boundary tininess.bound := by
  have hle : (1 : ℚ) / 2 ^ 1022 ≤ 2 ^ 1025 :=
    (div_le_one_of_le₀ (one_le_pow₀ one_le_two) (by positivity)).trans (one_le_pow₀ one_le_two)
  have hcount : (1 : ℚ) / 2 ^ 1022 = ((2 ^ 54 : ℕ) : ℚ) / 2 ^ 1076 := by
    rw [show (1076 : ℕ) = 54 + 1022 from rfl, pow_add, Nat.cast_pow, Nat.cast_ofNat, ← div_div,
      div_self (pow_ne_zero 54 two_ne_zero)]
  cases tininess with
  | beforeRounding => exact ⟨hle, 2 ^ 54, hcount⟩
  | afterRounding =>
    refine ⟨(sub_le_self _ (by positivity)).trans hle, 2 ^ 54 - 1, ?_⟩
    rw [Tininess.bound, hcount, ← sub_div]
    norm_num

namespace SameSide

variable {q r : ℚ}

theorem refl (q : ℚ) : SameSide q q := fun _ _ => ⟨Iff.rfl, Iff.rfl⟩

theorem trans {s : ℚ} (h : SameSide q r) (h' : SameSide r s) : SameSide q s := fun t ht =>
  ⟨(h t ht).1.trans (h' t ht).1, (h t ht).2.trans (h' t ht).2⟩

theorem symm (h : SameSide q r) : SameSide r q := fun t ht => ⟨(h t ht).1.symm, (h t ht).2.symm⟩

theorem le_iff (h : SameSide q r) {t : ℚ} (ht : Boundary t) : t ≤ q ↔ t ≤ r := (h t ht).1

theorem lt_iff (h : SameSide q r) {t : ℚ} (ht : Boundary t) : q < t ↔ r < t := by
  rw [← not_le, ← not_le, h.le_iff ht]

theorem gt_iff (h : SameSide q r) {t : ℚ} (ht : Boundary t) : t < q ↔ t < r := by
  rw [← not_le, ← not_le, (h t ht).2]

theorem ulpExponent_eq (h : SameSide q r) (hq : 0 < q) (hr : 0 < r) (hlt : q < 2 ^ 1024) :
    ulpExponent q = ulpExponent r := by
  obtain hlow | hhigh := lt_or_ge q (2 ^ (-1021 : ℤ))
  · -- Both count in the last places of the subnormal numbers.
    have hlow' := (h.lt_iff (boundary_zpow (e := -1021) (by norm_num) (by norm_num))).mp hlow
    have hlog := (Int.lt_zpow_iff_log_lt (b := 2) one_lt_two hq).mp hlow
    have hlog' := (Int.lt_zpow_iff_log_lt (b := 2) one_lt_two hr).mp hlow'
    unfold ulpExponent
    omega
  · have hle := zpow_log_le hq
    have hlt' := lt_zpow_log q
    have hfrom : -1021 ≤ Int.log 2 q := (Int.zpow_le_iff_le_log (b := 2) one_lt_two hq).mp hhigh
    have hto : Int.log 2 q < 1024 :=
      (Int.lt_zpow_iff_log_lt (b := 2) one_lt_two hq).mp (by exact_mod_cast hlt)
    have hlog : Int.log 2 r = Int.log 2 q :=
      log_eq ((h.le_iff (boundary_zpow (by omega) (by omega))).mp hle)
        ((h.lt_iff (boundary_zpow (by omega) (by omega))).mp hlt')
    unfold ulpExponent
    rw [hlog]

theorem floor_eq (h : SameSide q r) (hq : 0 < q) (hr : 0 < r) (hlt : q < 2 ^ 1024)
    (hlt' : r < 2 ^ 1024)
    {u : ℤ} (hu : -1074 ≤ u) : ⌊q / 2 ^ u⌋₊ = ⌊r / 2 ^ u⌋₊ := by
  have hpos : (0 : ℚ) < 2 ^ u := zpow_pos two_pos u
  refine eq_of_forall_le_iff fun n => ?_
  rw [Nat.le_floor_iff (div_pos hq hpos).le, Nat.le_floor_iff (div_pos hr hpos).le,
    le_div_iff₀ hpos,
    le_div_iff₀ hpos]
  obtain hle | hgt := le_or_gt ((n : ℚ) * 2 ^ u) (2 ^ 1024)
  · exact h.le_iff (boundary_scaled (by omega)
      (hle.trans (pow_le_pow_right₀ one_le_two (by norm_num))))
  · exact ⟨fun hle => absurd (hle.trans_lt hlt) hgt.not_gt,
      fun hle => absurd (hle.trans_lt hlt') hgt.not_gt⟩

theorem boundary_middle {f : ℕ} {u : ℤ} (hu : -1074 ≤ u) (hto : u ≤ 1024)
    (hle : f * 2 ^ u ≤ (2 : ℚ) ^ 1024) :
    Boundary ((f + 1 / 2) * 2 ^ u) := by
  have hhalf : (2 : ℚ) ^ u = 2 * 2 ^ (u - 1) := by
    rw [← zpow_one_add₀ two_ne_zero, add_sub_cancel]
  have hmiddle : ((f : ℚ) + 1 / 2) * 2 ^ u = ((2 * f + 1 : ℕ) : ℚ) * 2 ^ (u - 1) := by
    rw [hhalf]
    push_cast
    ring
  have hpow : (2 : ℚ) ^ u ≤ 2 ^ (1024 : ℤ) := zpow_le_zpow_right₀ one_le_two hto
  have hpos : (0 : ℚ) < 2 ^ u := zpow_pos two_pos u
  rw [hmiddle]
  refine boundary_scaled (by omega) ?_
  rw [← hmiddle]
  calc ((f : ℚ) + 1 / 2) * 2 ^ u ≤ f * 2 ^ u + 2 ^ u := by linarith
    _ ≤ 2 ^ 1024 + 2 ^ (1024 : ℤ) := add_le_add hle hpow
    _ = 2 ^ 1025 := (mul_two _).symm.trans (pow_succ 2 1024).symm

theorem nearest_eq (h : SameSide q r) (hq : 0 < q) (hr : 0 < r) (hlt : q < 2 ^ 1024)
    (hlt' : r < 2 ^ 1024) :
    nearest q = nearest r := by
  have hulp := h.ulpExponent_eq hq hr hlt
  have hu : -1074 ≤ ulpExponent q := le_max_right _ _
  have hto : ulpExponent q ≤ 1024 := by
    have hlog : Int.log 2 q < 1024 :=
      (Int.lt_zpow_iff_log_lt (b := 2) one_lt_two hq).mp (by exact_mod_cast hlt)
    unfold ulpExponent
    omega
  have hfloor := h.floor_eq hq hr hlt hlt' hu
  unfold nearest
  rw [← hulp]
  generalize ulpExponent q = u at *
  have hpos : (0 : ℚ) < 2 ^ u := zpow_pos two_pos u
  have hle : (⌊q / 2 ^ u⌋₊ : ℚ) * 2 ^ u ≤ 2 ^ 1024 := by
    rw [← le_div_iff₀ hpos]
    exact (Nat.floor_le (div_pos hq hpos).le).trans (by gcongr)
  have hboundary := boundary_middle hu hto hle
  rw [roundEven_congr hfloor]
  · rw [div_lt_iff₀ hpos, div_lt_iff₀ hpos]
    exact h.lt_iff hboundary
  · rw [lt_div_iff₀ hpos, lt_div_iff₀ hpos]
    exact h.gt_iff hboundary

theorem eq_of_exact (h : SameSide q r) (hlt : q < 2 ^ 1024) (hexact : nearest q = q) : q = r := by
  have hboundary : Boundary q := by
    have hu : -1074 ≤ ulpExponent q := le_max_right _ _
    have heq : q = roundEven (q / 2 ^ ulpExponent q) * 2 ^ ulpExponent q := hexact.symm
    have hscaled := boundary_scaled (n := roundEven (q / 2 ^ ulpExponent q))
      (e := ulpExponent q) (by omega)
      (by rw [← heq]; exact hlt.le.trans (pow_le_pow_right₀ one_le_two (by norm_num)))
    rwa [← heq] at hscaled
  exact le_antisymm ((h.le_iff hboundary).mp le_rfl) ((h q hboundary).2.mp le_rfl)

theorem convert_eq (h : SameSide q r) (hq : 0 ≤ q) (hr : 0 ≤ r) (tininess : Tininess) :
    convert tininess q = convert tininess r := by
  have hzero : Boundary 0 := ⟨by norm_num, 0, by norm_num⟩
  obtain rfl | hq := hq.eq_or_lt
  · rw [le_antisymm hr ((h 0 hzero).2.mp le_rfl)]
  have hr : 0 < r := lt_of_le_of_ne hr fun heq => hq.not_ge ((h 0 hzero).2.mpr heq.ge)
  have htop : Boundary (2 ^ 1024) := boundary_zpow (e := 1024) (by norm_num) (by norm_num)
  obtain hlt | hge := lt_or_ge q (2 ^ 1024)
  · have hlt' := (h.lt_iff htop).mp hlt
    have hnearest := h.nearest_eq hq hr hlt hlt'
    have hexact : nearest r = q ↔ nearest r = r := by
      constructor
      · intro heq
        rw [heq, h.eq_of_exact hlt (hnearest.trans heq)]
      · intro heq
        rw [heq, h.symm.eq_of_exact hlt' heq]
    rw [convert, convert, hnearest]
    simp only [h.lt_iff (boundary_bound tininess), ne_eq, hexact]
  · rw [convert, convert, if_pos (le_nearest hge), if_pos (le_nearest ((h.le_iff htop).mp hge))]

end SameSide

/-! ## Intervals without a boundary -/

section

variable {q r : ℚ}

theorem sameSide_of_large (hq : 2 ^ 1025 < q) (hr : 2 ^ 1025 < r) : SameSide q r := by
  intro t ht
  have hlt := ht.1.trans_lt hq
  have hlt' := ht.1.trans_lt hr
  exact ⟨iff_of_true hlt.le hlt'.le, iff_of_false hlt.not_ge hlt'.not_ge⟩

theorem sameSide_of_gap {n : ℕ} {g : ℚ} (hg : 0 < g)
    (hgrid : ∀ t, Boundary t → t ≤ n * g ∨ ∃ j : ℕ, t = j * g) (hq : n * g < q)
    (hq' : q < (n + 1) * g)
    (hr : n * g < r) (hr' : r < (n + 1) * g) : SameSide q r := by
  intro t ht
  have hbelow : t ≤ n * g → (t ≤ q ↔ t ≤ r) ∧ (q ≤ t ↔ r ≤ t) := fun hle =>
    ⟨iff_of_true (hle.trans hq.le) (hle.trans hr.le),
      iff_of_false (hle.trans_lt hq).not_ge (hle.trans_lt hr).not_ge⟩
  obtain hle | ⟨j, rfl⟩ := hgrid t ht
  · exact hbelow hle
  obtain hle | hgt := Nat.lt_or_ge n j
  · have hge : (n + 1 : ℚ) * g ≤ j * g := mul_le_mul_of_nonneg_right (by exact_mod_cast hle) hg.le
    exact ⟨iff_of_false (hq'.trans_le hge).not_ge (hr'.trans_le hge).not_ge,
      iff_of_true (hq'.le.trans hge) (hr'.le.trans hge)⟩
  · exact hbelow (mul_le_mul_of_nonneg_right (by exact_mod_cast hgt) hg.le)

/-- The grid of the powers of an even radix, below a number of enough digits. -/
theorem grid_of_digits {c n : ℕ} (hc : 0 < c) (hn : 2 ^ 1025 * (2 * c) ^ 1076 ≤ n) (e : ℤ) :
    ∀ t, Boundary t → t ≤ n * (2 * c : ℚ) ^ e ∨ ∃ j : ℕ, t = j * (2 * c : ℚ) ^ e := by
  rintro t ⟨hle, m, rfl⟩
  have hradix : (0 : ℚ) < 2 * c := by positivity
  obtain he | he := le_or_gt (-1076) e
  · left
    refine hle.trans ?_
    have hpow : (2 * c : ℚ) ^ (-1076 : ℤ) ≤ (2 * c) ^ e := by
      refine zpow_le_zpow_right₀ ?_ he
      exact_mod_cast (by omega : 1 ≤ 2 * c)
    calc (2 : ℚ) ^ 1025 = 2 ^ 1025 * (2 * c : ℚ) ^ 1076 * (2 * c : ℚ) ^ (-1076 : ℤ) := by
          rw [zpow_neg, zpow_ofNat, mul_inv_cancel_right₀ (pow_pos hradix 1076).ne']
      _ ≤ (n : ℚ) * (2 * c : ℚ) ^ e :=
        mul_le_mul (by exact_mod_cast hn) hpow (zpow_nonneg hradix.le _) (Nat.cast_nonneg _)
  · right
    obtain ⟨k, hk⟩ := Int.le.dest he.le
    refine ⟨m * c ^ 1076 * (2 * c) ^ k, ?_⟩
    have hsplit : (2 * c : ℚ) ^ (-1076 : ℤ) = (2 * c) ^ e * (2 * c) ^ k := by
      rw [← hk, zpow_add₀ hradix.ne', zpow_natCast]
    have hshift : (1 : ℚ) / 2 ^ 1076 = c ^ 1076 * (2 * c) ^ (-1076 : ℤ) := by
      have hc' : (c : ℚ) ≠ 0 := by exact_mod_cast hc.ne'
      rw [zpow_neg]
      rw [zpow_ofNat, mul_pow, mul_inv, mul_comm (2 ^ 1076 : ℚ)⁻¹,
        mul_inv_cancel_left₀ (pow_ne_zero _ hc'), one_div]
    push_cast
    rw [div_eq_mul_one_div, hshift, hsplit]
    ring

end

end PineForge.Nearest
