import PineForge.Text.Scans

/-!
# Long texts convert exactly

The spelling handed to `strtod` for a text of more than a page has the rounded value of the whole
text and the same verdict on its range. The retained digits are more than any boundary of the
rounding has; a digit for the rest keeps the spelling off the boundaries where the text is off them;
and a scale beyond the bounds decides the verdict whatever the digits are.
-/

namespace PineForge.Text

open Nearest

/-! ## Scales beyond the bounds -/

theorem one_lt_radix (hex : Bool) : 1 < (radix hex : ℚ) := by
  cases hex <;> norm_num [radix]

theorem two_le_radix (hex : Bool) : 2 ≤ (radix hex : ℚ) := by
  cases hex <;> norm_num [radix]

theorem large_of_scale (hex : Bool) {k : ℕ} (hk : 0 < k) {z : ℤ} (hz : 10000 ≤ z) :
    2 ^ 1025 < k * (radix hex : ℚ) ^ z := by
  have hradix := two_le_radix hex
  calc (2 : ℚ) ^ 1025 < 2 ^ 10000 := pow_lt_pow_right₀ one_lt_two (by norm_num)
    _ ≤ (radix hex : ℚ) ^ 10000 := pow_le_pow_left₀ zero_le_two hradix _
    _ = (radix hex : ℚ) ^ (10000 : ℤ) := (zpow_ofNat _ _).symm
    _ ≤ (radix hex : ℚ) ^ z := zpow_le_zpow_right₀ (one_lt_radix hex).le hz
    _ ≤ k * (radix hex : ℚ) ^ z :=
      le_mul_of_one_le_left (zpow_nonneg (by linarith) _) (by exact_mod_cast hk)

/-- With a small exponent not even the digits that are kept reach the first boundary. -/
theorem small_of_scale (hex : Bool) {k : ℕ}
    (hk : k < radix hex ^ (digitPlaces hex * (retained + 1))) {z : ℤ}
    (hz : z ≤ -10000) : k * (radix hex : ℚ) ^ z < 1 / 2 ^ 1076 := by
  have hradix := two_le_radix hex
  have hpos : (0 : ℚ) < radix hex := by linarith
  have hplaces : digitPlaces hex * (retained + 1) ≤ 8196 := by
    cases hex <;> norm_num [digitPlaces, retained]
  have hcount : (k : ℚ) < (radix hex : ℚ) ^ 8196 := by
    calc (k : ℚ) < (radix hex : ℚ) ^ (digitPlaces hex * (retained + 1)) := by exact_mod_cast hk
      _ ≤ (radix hex : ℚ) ^ 8196 := pow_le_pow_right₀ (one_lt_radix hex).le hplaces
  calc (k : ℚ) * (radix hex : ℚ) ^ z < (radix hex : ℚ) ^ 8196 * (radix hex : ℚ) ^ z :=
        mul_lt_mul_of_pos_right hcount (zpow_pos hpos z)
    _ ≤ (radix hex : ℚ) ^ 8196 * (radix hex : ℚ) ^ (-9272 : ℤ) :=
      mul_le_mul_of_nonneg_left (zpow_le_zpow_right₀ (one_lt_radix hex).le (by omega))
        (pow_nonneg hpos.le _)
    _ = 1 / (radix hex : ℚ) ^ 1076 := by
      rw [zpow_neg, zpow_ofNat, show (9272 : ℕ) = 8196 + 1076 from rfl, pow_add, mul_inv,
        mul_inv_cancel_left₀ (pow_pos hpos 8196).ne', one_div]
    _ ≤ 1 / 2 ^ 1076 := one_div_le_one_div_of_le (by positivity)
      (pow_le_pow_left₀ zero_le_two hradix _)

theorem sameSide_clamp (hex : Bool) {k : ℕ} (hpos : 0 < k)
    (hlt : k < radix hex ^ (digitPlaces hex * (retained + 1))) (z : ℤ) :
    SameSide (k * (radix hex : ℚ) ^ z) (k * (radix hex : ℚ) ^ Scale.clamp z) := by
  have hradix : (0 : ℚ) < radix hex := by linarith [one_lt_radix hex]
  by_cases hhigh : 10000 < z
  · exact sameSide_of_large (large_of_scale hex hpos hhigh.le)
      (large_of_scale hex hpos (by unfold Scale.clamp; omega))
  by_cases hlow : z < -10000
  · have hk : (0 : ℚ) < k := by exact_mod_cast hpos
    refine sameSide_of_gap (n := 0) (g := 1 / 2 ^ 1076) (by positivity) ?_ ?_ ?_ ?_ ?_
    · rintro t ⟨-, m, rfl⟩
      exact Or.inr ⟨m, div_eq_mul_one_div _ _⟩
    · rw [Nat.cast_zero, zero_mul]
      exact mul_pos hk (zpow_pos hradix _)
    · rw [Nat.cast_zero, zero_add, one_mul]
      exact small_of_scale hex hlt hlow.le
    · rw [Nat.cast_zero, zero_mul]
      exact mul_pos hk (zpow_pos hradix _)
    · rw [Nat.cast_zero, zero_add, one_mul]
      exact small_of_scale hex hlt (by unfold Scale.clamp; omega)
  · have hsame : Scale.clamp z = z := by
      unfold Scale.clamp
      omega
    rw [hsame]
    exact SameSide.refl _

/-! ## Digits for the rest -/

theorem digitBase_cast (hex : Bool) (n : ℕ) :
    ((digitBase hex : ℕ) : ℚ) ^ n = (radix hex : ℚ) ^ (digitPlaces hex * n : ℕ) := by
  rw [digitBase, Nat.cast_pow, ← pow_mul]

/-- The digits that are kept pass the boundaries that are not multiples of their last place. -/
theorem grid_of_kept (hex : Bool) {k : ℕ} (hk : digitBase hex ^ (retained - 1) ≤ k) (z : ℤ) :
    ∀ t, Boundary t → t ≤ k * (radix hex : ℚ) ^ z ∨ ∃ j : ℕ, t = j * (radix hex : ℚ) ^ z := by
  cases hex with
  | false =>
    have hdigits : 2 ^ 1025 * (2 * 5) ^ 1076 ≤ k := le_trans (by decide +kernel) hk
    have hgrid := grid_of_digits (c := 5) (by norm_num) hdigits z
    norm_num at hgrid
    exact_mod_cast hgrid
  | true =>
    have hdigits : 2 ^ 1025 * (2 * 1) ^ 1076 ≤ k := le_trans (by decide +kernel) hk
    have hgrid := grid_of_digits (c := 1) (by norm_num) hdigits z
    norm_num at hgrid
    exact_mod_cast hgrid

/-- A tail that is not zero and a digit in its place lie between the same boundaries. -/
theorem sameSide_sticky (hex : Bool) {k tail omitted : ℕ} (hk : digitBase hex ^ (retained - 1) ≤ k)
    (hpos : 0 < tail) (hlt : tail < digitBase hex ^ omitted) (z : ℤ) :
    SameSide ((k * digitBase hex ^ omitted + tail : ℕ)
      * (radix hex : ℚ) ^ (z - (digitPlaces hex * omitted : ℕ)))
      ((k * digitBase hex + 1 : ℕ) * (radix hex : ℚ) ^ (z - digitPlaces hex)) := by
  have hradix : (0 : ℚ) < radix hex := by linarith [one_lt_radix hex]
  have hg : (0 : ℚ) < (radix hex : ℚ) ^ z := zpow_pos hradix z
  have hbase : (1 : ℚ) < digitBase hex := by
    rw [digitBase_eq]
    split <;> norm_num
  -- Both numbers are the kept digits and a proper part of their last place.
  have hpart : ∀ n part : ℕ, ((k * digitBase hex ^ n + part : ℕ) : ℚ)
    * (radix hex : ℚ) ^ (z - (digitPlaces hex * n : ℕ))
      = (k + part / (digitBase hex : ℚ) ^ n) * (radix hex : ℚ) ^ z := by
    intro n part
    have hpow : (0 : ℚ) < (digitBase hex : ℚ) ^ n := by positivity
    rw [zpow_sub₀ hradix.ne', zpow_natCast, ← digitBase_cast]
    push_cast
    field_simp
  have hone := hpart 1 1
  rw [pow_one, mul_one, Nat.cast_one, pow_one] at hone
  have hpow : (0 : ℚ) < (digitBase hex : ℚ) ^ omitted := by positivity
  have htail : (0 : ℚ) < tail / (digitBase hex : ℚ) ^ omitted :=
    div_pos (by exact_mod_cast hpos) hpow
  have htail' : (tail : ℚ) / (digitBase hex : ℚ) ^ omitted < 1 := by
    rw [div_lt_one hpow]
    exact_mod_cast hlt
  have hdigit : (0 : ℚ) < 1 / digitBase hex := by positivity
  have hdigit' : (1 : ℚ) / digitBase hex < 1 := (div_lt_one (by linarith)).mpr hbase
  rw [hpart, hone]
  refine sameSide_of_gap hg (grid_of_kept hex hk z) ?_ ?_ ?_ ?_
  · exact mul_lt_mul_of_pos_right (by linarith) hg
  · exact mul_lt_mul_of_pos_right (by linarith) hg
  · exact mul_lt_mul_of_pos_right (by linarith) hg
  · exact mul_lt_mul_of_pos_right (by linarith) hg

/-! ## The shortened spelling -/

/-- The digits that are kept. -/
def keptOf (ds : List ℕ) : List ℕ := (significantOf ds).take retained

/-- The digits that are dropped. -/
def droppedOf (ds : List ℕ) : List ℕ := (significantOf ds).drop retained

/-- The digits of the spelling. -/
def spelledDigits (ds : List ℕ) : List ℕ :=
  if (droppedOf ds).any (· ≠ 0) then keptOf ds ++ [1] else keptOf ds

/-- The scale of the spelling before it is bounded. -/
def spelledScale (hex : Bool) (ds : List ℕ) (fraction : ℕ) (exponent : ℤ) : ℤ :=
  exponent + (digitPlaces hex * (droppedOf ds).length : ℕ) - (digitPlaces hex * fraction : ℕ)
    - if (droppedOf ds).any (· ≠ 0) then (digitPlaces hex : ℤ) else 0

theorem length_significantOf (ds : List ℕ) : (significantOf ds).length ≤ ds.length :=
  (List.dropWhile_sublist _).length_le

theorem kept_append_dropped (ds : List ℕ) : keptOf ds ++ droppedOf ds = significantOf ds :=
  List.take_append_drop _ _

/-- The short text spells the kept digits. -/
theorem shorten_eq (negative hex : Bool) {m : Mantissa} {ds : List ℕ} {fraction : ℕ}
    (h : Scanned m ds fraction)
    (hlength : ds.length < 2 ^ 64) (hfraction : fraction ≤ ds.length) (rest : Bytes) :
    shorten negative hex m rest
      = spell negative hex ((spelledDigits ds).map digitChar)
        (Scale.clamp (spelledScale hex ds fraction (readExponent hex rest))) := by
  have homitted : m.significantDigits - m.digits.length = (droppedOf ds).length := by
    rw [h.count, h.digits, List.length_map, List.length_take, droppedOf, List.length_drop]
    omega
  have hdropped : (droppedOf ds).length ≤ ds.length :=
    (List.drop_sublist _ _).length_le.trans (length_significantOf ds)
  have hplaces : digitPlaces hex ≤ 4 := by cases hex <;> norm_num [digitPlaces]
  have hterm : ∀ count ≤ ds.length, digitPlaces hex * count ≤ 2 ^ 66 := fun count hcount =>
    le_trans (Nat.mul_le_mul hplaces hcount) (by omega)
  have homittedTerm := hterm _ hdropped
  have hfractionTerm := hterm _ hfraction
  -- Each term of the scale is exact, up to the bound on the exponent's own digits.
  obtain ⟨hlow₀, hle₀, hexponent⟩ := exponentScale_toInt hex rest
  obtain ⟨hlowOmitted, hvalueOmitted⟩ := places_value hex (lt_of_le_of_lt hdropped hlength)
  obtain ⟨hlow₁, hle₁, hscale₁⟩ := Scale.accumulate_toInt hlow₀ hlowOmitted (by omega) false
  obtain ⟨hlowFraction, hvalueFraction⟩ := places_value hex (lt_of_le_of_lt hfraction hlength)
  obtain ⟨hlow₂, hle₂, hscale₂⟩ := Scale.accumulate_toInt hlow₁ hlowFraction (by omega) true
  have honeTerm : (⟨0, if hex then 4 else 1⟩ : Magnitude).value = digitPlaces hex := by
    cases hex <;> rfl
  have honeLow : (⟨0, if hex then 4 else 1⟩ : Magnitude).low < 2 ^ 64 := by
    cases hex <;> norm_num
  obtain ⟨hlow₃, -, hscale₃⟩ := Scale.accumulate_toInt hlow₂ honeLow (by omega) true
  rw [if_neg Bool.false_ne_true] at hscale₁
  rw [if_pos rfl] at hscale₂ hscale₃
  unfold shorten spelledDigits spelledScale
  rw [homitted, h.fraction, h.digits, h.sticky]
  change (if (droppedOf ds).any (· ≠ 0) = true then _ else _) = _
  split
  · rw [Scale.bounded_eq hlow₃, List.map_append]
    congr 1
    unfold Scale.clamp
    omega
  · rw [Scale.bounded_eq hlow₂]
    congr 1
    unfold Scale.clamp
    omega

section

variable {hex : Bool} {ds : List ℕ}

theorem digitBase_pos (hex : Bool) : 0 < digitBase hex := by
  rw [digitBase_eq]
  split <;> norm_num

theorem number_eq_kept (hex : Bool) (ds : List ℕ) :
    number (digitBase hex) ds
      = number (digitBase hex) (keptOf ds) * digitBase hex ^ (droppedOf ds).length
      + number (digitBase hex) (droppedOf ds) := by
  rw [← number_significantOf, ← kept_append_dropped, number_append]

/-- The spelling starts with a digit that is not zero, and its digits are those of the base. -/
theorem spelledDigits_cons (hlt : ∀ d ∈ ds, d < digitBase hex) (hsome : significantOf ds ≠ []) :
    ∃ d more, spelledDigits ds = d :: more ∧ d ≠ 0 ∧ (∀ x ∈ d :: more, x < digitBase hex) ∧
      more.length ≤ retained := by
  obtain ⟨d, rest, hcons⟩ := List.exists_cons_of_ne_nil hsome
  have hkept : keptOf ds = d :: rest.take (retained - 1) := by
    rw [keptOf, hcons]
    rfl
  have hbase : ∀ x ∈ keptOf ds, x < digitBase hex := fun x hx =>
    hlt x ((List.dropWhile_sublist _).subset (List.mem_of_mem_take hx))
  have hone : 1 < digitBase hex := by
    rw [digitBase_eq]
    split <;> norm_num
  unfold spelledDigits
  split
  · refine ⟨d, rest.take (retained - 1) ++ [1], by rw [hkept]; rfl,
      head_significantOf hcons, ?_, ?_⟩
    · intro x hx
      rw [← List.cons_append, ← hkept] at hx
      rcases List.mem_append.mp hx with hx | hx
      · exact hbase x hx
      · rw [List.mem_singleton.mp hx]
        exact hone
    · rw [List.length_append, List.length_take, List.length_singleton, retained]
      omega
  · refine ⟨d, rest.take (retained - 1), hkept, head_significantOf hcons, ?_, ?_⟩
    · rw [← hkept]
      exact hbase
    · rw [List.length_take]
      omega

/-- The kept digits round to the same side. -/
theorem sameSide_spelled (hlt : ∀ d ∈ ds, d < digitBase hex) (hsome : significantOf ds ≠ [])
    (fraction : ℕ)
    (exponent : ℤ) :
    SameSide (number (digitBase hex) ds
      * (radix hex : ℚ) ^ (exponent - (digitPlaces hex * fraction : ℕ)))
      (number (digitBase hex) (spelledDigits ds)
        * (radix hex : ℚ) ^ spelledScale hex ds fraction exponent) := by
  have hradix : (0 : ℚ) < radix hex := by linarith [one_lt_radix hex]
  have hnumber := number_eq_kept hex ds
  unfold spelledDigits spelledScale
  by_cases hsticky : (droppedOf ds).any (· ≠ 0) = true
  · have hpos := (number_any (digitBase_pos hex) (droppedOf ds)).mp hsticky
    have htail : number (digitBase hex) (droppedOf ds) < digitBase hex ^ (droppedOf ds).length :=
      number_lt fun d hd => hlt d ((List.dropWhile_sublist _).subset (List.mem_of_mem_drop hd))
    have hkept : digitBase hex ^ (retained - 1) ≤ number (digitBase hex) (keptOf ds) := by
      obtain ⟨d, rest, hcons⟩ := List.exists_cons_of_ne_nil hsome
      have hfull : retained < (significantOf ds).length := by
        by_contra hshort
        rw [droppedOf, List.drop_of_length_le (Nat.not_lt.mp hshort)] at hsticky
        cases hsticky
      have hlength : (rest.take (retained - 1)).length = retained - 1 := by
        rw [hcons, List.length_cons] at hfull
        rw [List.length_take, retained] at *
        omega
      have hd := Nat.pos_of_ne_zero (head_significantOf hcons)
      rw [show keptOf ds = d :: rest.take (retained - 1) by rw [keptOf, hcons]; rfl,
        number_cons, hlength]
      exact le_trans (Nat.le_mul_of_pos_left _ hd) (Nat.le_add_right _ _)
    rw [if_pos hsticky, if_pos hsticky, hnumber, number_append, number_singleton,
      List.length_singleton, pow_one]
    have hside := sameSide_sticky hex hkept hpos htail
      (exponent + (digitPlaces hex * (droppedOf ds).length : ℕ) - (digitPlaces hex * fraction : ℕ))
    have hshift : exponent + (digitPlaces hex * (droppedOf ds).length : ℕ)
      - (digitPlaces hex * fraction : ℕ)
        - (digitPlaces hex * (droppedOf ds).length : ℕ)
          = exponent - (digitPlaces hex * fraction : ℕ) := by
      ring
    rw [hshift] at hside
    exact hside
  · have hzero : number (digitBase hex) (droppedOf ds) = 0 := by
      rw [number_any (digitBase_pos hex)] at hsticky
      omega
    have hsame : (number (digitBase hex) ds : ℚ)
      * (radix hex : ℚ) ^ (exponent - (digitPlaces hex * fraction : ℕ))
        = number (digitBase hex) (keptOf ds) * (radix hex : ℚ) ^ (exponent
          + (digitPlaces hex * (droppedOf ds).length : ℕ)
            - (digitPlaces hex * fraction : ℕ) - 0) := by
      rw [hnumber, hzero, Nat.add_zero, Nat.cast_mul, Nat.cast_pow, digitBase_cast, mul_assoc,
        ← zpow_natCast,
        ← zpow_add₀ hradix.ne']
      congr 2
      ring
    rw [if_neg hsticky, if_neg hsticky, hsame]
    exact SameSide.refl _

end

/-! ## Whole texts -/

theorem length_signed (text : Bytes) : (signed text).2.length ≤ text.length := by
  have hspaces := (List.dropWhile_sublist isSpace (l := text)).length_le
  unfold signed takeSign
  dsimp only
  split
  · rw [List.length_tail]
    omega
  · exact hspaces

/-- The number at the start of a text, behind its sign. -/
def subjectOf (text : Bytes) : Subject :=
  readSubject (hexPrefixed (signed text).2)
    (if hexPrefixed (signed text).2 then (signed text).2.drop 2 else (signed text).2)

theorem length_subjectOf (text : Bytes) : (subjectOf text).digits.length ≤ text.length := by
  refine (length_readSubject _ _).trans (le_trans ?_ (length_signed text))
  split
  · exact (List.drop_sublist _ _).length_le
  · exact le_rfl

theorem subjectOf_lt (text : Bytes) :
    ∀ d ∈ (subjectOf text).digits, d < digitBase (subjectOf text).hex := by
  rw [show (subjectOf text).hex = hexPrefixed (signed text).2 from readSubject_hex _ _]
  exact readSubject_lt _ _

/-- The exponent of the spelling. -/
def spelledExponent (n : Subject) : ℤ :=
  Scale.clamp (spelledScale n.hex n.digits n.fraction.length n.exponent)

theorem readNumber_eq (text : Bytes) :
    readNumber text = if (subjectOf text).digits ≠ [] then
      some ((signed text).1, (subjectOf text).magnitude)
      else if hexPrefixed (signed text).2 then some ((signed text).1, 0) else none := rfl

theorem convert_zero (tininess : Tininess) : convert tininess 0 = .finite 0 false := by
  simp [convert, nearest_zero]

theorem magnitude_of_zeros {text : Bytes} (h : significantOf (subjectOf text).digits = []) :
    (subjectOf text).magnitude = 0 := by
  have hzero : number (digitBase (subjectOf text).hex) (subjectOf text).digits = 0 := by
    rw [← number_significantOf, h]
    rfl
  rw [Subject.magnitude, hzero, Nat.cast_zero, zero_mul]

/-- What a text that is handed over holds, and the spelling it is handed over as. -/
theorem handed_cases (text : Bytes) (hsize : text.length < 2 ^ 64) :
    ((subjectOf text).digits = [] ∧
        handed text = .answer (if hexPrefixed (signed text).2 then
          .finite (signed text).1 0 else na)) ∨
      ((subjectOf text).digits ≠ [] ∧ significantOf (subjectOf text).digits = [] ∧
        handed text = .answer (.finite (signed text).1 0)) ∨
      ((subjectOf text).digits ≠ [] ∧ significantOf (subjectOf text).digits ≠ [] ∧
        handed text = .spelled (spell (signed text).1 (subjectOf text).hex
          ((spelledDigits (subjectOf text).digits).map digitChar)
            (spelledExponent (subjectOf text)))) := by
  have hhex : (subjectOf text).hex = hexPrefixed (signed text).2 := readSubject_hex _ _
  obtain ⟨hscanned, hexponent⟩ := scan_readSubject (hexPrefixed (signed text).2)
    (if hexPrefixed (signed text).2 then (signed text).2.drop 2 else (signed text).2)
  change Scanned _ (subjectOf text).digits (subjectOf text).fraction.length at hscanned
  change (subjectOf text).exponent = _ at hexponent
  have hlength := lt_of_le_of_lt (length_subjectOf text) hsize
  have hfraction : (subjectOf text).fraction.length ≤ (subjectOf text).digits.length := by
    rw [Subject.digits, List.length_append]
    exact Nat.le_add_left _ _
  have hshorten := shorten_eq (signed text).1 (hexPrefixed (signed text).2) hscanned
    hlength hfraction
  unfold handed
  dsimp only
  rw [hscanned.any, hscanned.significant]
  by_cases hnone : (subjectOf text).digits = []
  · left
    simp [hnone]
  · right
    by_cases hzeros : significantOf (subjectOf text).digits = []
    · left
      simp [hnone, hzeros]
    · right
      refine ⟨hnone, hzeros, ?_⟩
      rw [spelledExponent, hexponent, hhex, ← hshorten]
      simp [hnone, hzeros]

theorem ofNumber_spelled (tininess : Tininess) {text : Bytes} (hnone : (subjectOf text).digits ≠ [])
    (hsome : significantOf (subjectOf text).digits ≠ []) {spelling : Bytes}
    (h : spelling = spell (signed text).1 (subjectOf text).hex
      ((spelledDigits (subjectOf text).digits).map digitChar) (spelledExponent (subjectOf text))) :
    isSpecial spelling = false ∧
      Parsed.ofNumber tininess (readNumber spelling)
        = Parsed.ofNumber tininess (readNumber text) := by
  have hside := sameSide_spelled (subjectOf_lt text) hsome (subjectOf text).fraction.length
    (subjectOf text).exponent
  obtain ⟨d, more, hcons, hd, hbase, hlength⟩ := spelledDigits_cons (subjectOf_lt text) hsome
  have hpos : 0 < number (digitBase (subjectOf text).hex)
      (spelledDigits (subjectOf text).digits) := by
    rw [← number_any (digitBase_pos _), hcons, List.any_cons, decide_eq_true hd, Bool.true_or]
  have hbound : number (digitBase (subjectOf text).hex) (spelledDigits (subjectOf text).digits)
      < radix (subjectOf text).hex ^ (digitPlaces (subjectOf text).hex * (retained + 1)) := by
    rw [hcons, Nat.pow_mul]
    refine lt_of_lt_of_le (number_lt hbase) (Nat.pow_le_pow_right (digitBase_pos _) ?_)
    exact Nat.succ_le_succ hlength
  have hwhole := hside.trans (sameSide_clamp (subjectOf text).hex hpos hbound _)
  obtain ⟨hspecial, hread⟩ :=
    readNumber_spell (signed text).1 hd hbase (spelledExponent (subjectOf text))
  rw [hcons] at hwhole h
  rw [h]
  refine ⟨hspecial, ?_⟩
  rw [hread, readNumber_eq, if_pos hnone]
  have hradix : ∀ z : ℤ, (0 : ℚ) ≤ (radix (subjectOf text).hex : ℚ) ^ z := fun z =>
    zpow_nonneg (Nat.cast_nonneg _) z
  have hconvert := hwhole.convert_eq (mul_nonneg (Nat.cast_nonneg _) (hradix _))
    (mul_nonneg (Nat.cast_nonneg _) (hradix _)) tininess
  exact congrArg (Parsed.ofConverted (signed text).1) hconvert.symm

/-- A text of more than a page: the spelling handed to `strtod` has the value and the verdict of the
whole text, and the answer is the one `strtod` gives for the whole text. -/
theorem long_text_exact {tininess : Tininess} {strtod : Bytes → Parsed}
    (hstrtod : CorrectlyRounding tininess strtod) {text : Bytes} (hlong : chunkBytes < text.length)
    (hsize : text.length < 2 ^ 64) (hnumber : isSpecial text = false) :
    (∀ spelling, handed text = .spelled spelling → strtod spelling = strtod text) ∧
      strToNumber strtod text = parseBuffer strtod text := by
  have htext := hstrtod text hnumber
  have hto : strToNumber strtod text = (handed text).parse strtod := by
    rw [strToNumber, if_neg (Nat.not_le.mpr hlong), hnumber, if_neg Bool.false_ne_true]
  obtain ⟨hnone, hhanded⟩ | ⟨hnone, hzeros, hhanded⟩ | ⟨hnone, hsome, hhanded⟩ :=
    handed_cases text hsize
  · constructor
    · intro spelling heq
      rw [hhanded] at heq
      cases heq
    · rw [hto, hhanded, Handed.parse, parseBuffer, htext, readNumber_eq, if_neg (not_not.mpr hnone)]
      cases hexPrefixed (signed text).2 with
      | false => rfl
      | true => simp [Parsed.ofNumber, convert_zero, Parsed.ofConverted]
  · constructor
    · intro spelling heq
      rw [hhanded] at heq
      cases heq
    · rw [hto, hhanded, Handed.parse, parseBuffer, htext, readNumber_eq, if_pos hnone,
        magnitude_of_zeros hzeros]
      simp [Parsed.ofNumber, convert_zero, Parsed.ofConverted]
  · obtain ⟨hspecial, hsame⟩ := ofNumber_spelled tininess hnone hsome rfl
    have hspelling := (hstrtod _ hspecial).trans (hsame.trans htext.symm)
    refine ⟨fun spelling heq => ?_, ?_⟩
    · rw [hhanded] at heq
      cases heq
      exact hspelling
    · rw [hto, hhanded, Handed.parse, parseBuffer, parseBuffer, hspelling]

/-- A conversion that rounds correctly and takes special texts for infinities. -/
def roundingStrtod (tininess : Tininess) (text : Bytes) : Parsed :=
  if isSpecial text then .value (.infinite (signed text).1) false
    else .ofNumber tininess (readNumber text)

theorem roundingStrtod_correct (tininess : Tininess) :
    CorrectlyRounding tininess (roundingStrtod tininess) := by
  intro text hnumber
  rw [roundingStrtod, hnumber, if_neg Bool.false_ne_true]

/-- A one behind five thousand zeros of a fraction, with an exponent that takes them back. -/
def oneBehindZeros : Bytes := chars "0." ++ List.replicate 5000 (ch '0') ++ chars "1e5001"

theorem long_text_exact_oneBehindZeros :
    oneBehindZeros.length = 5008 ∧
      strToNumber (roundingStrtod .afterRounding) oneBehindZeros
        = parseBuffer (roundingStrtod .afterRounding) oneBehindZeros :=
  ⟨by decide +kernel, (long_text_exact (roundingStrtod_correct .afterRounding) (by decide +kernel)
    (by decide +kernel) (by decide +kernel)).2⟩

/-! ## The buffer of a spelling -/

theorem length_decimal {n digits : ℕ} (hdigits : 0 < digits) (h : n < 10 ^ digits) :
    (decimal n).length ≤ digits := by
  unfold decimal
  split
  · exact hdigits
  · rw [List.length_map, List.length_reverse]
    exact (Nat.digits_length_le_iff (by norm_num) _).mpr h

theorem length_toChars {n : ℤ} (h : n.natAbs ≤ 10000) : (toChars n).length ≤ 6 := by
  have hdecimal : (decimal n.natAbs).length ≤ 5 := length_decimal (by norm_num) (by omega)
  unfold toChars
  split
  · exact Nat.succ_le_succ hdecimal
  · exact hdecimal.trans (Nat.le_succ 5)

/-- Whatever a text holds, its spelling and the byte behind it fit into the page buffer. -/
theorem handed_fits {text spelling : Bytes} (hsize : text.length < 2 ^ 64)
    (h : handed text = .spelled spelling) : spelling.length + 1 ≤ chunkBytes + 1 := by
  obtain ⟨-, heq⟩ | ⟨-, -, heq⟩ | ⟨-, hsome, heq⟩ := handed_cases text hsize
  · rw [heq] at h
    cases h
  · rw [heq] at h
    cases h
  · rw [heq] at h
    cases h
    obtain ⟨d, more, hcons, -, -, hlength⟩ := spelledDigits_cons (subjectOf_lt text) hsome
    have hscale := length_toChars (n := spelledExponent (subjectOf text)) (by
      unfold spelledExponent Scale.clamp
      omega)
    unfold spell
    rw [hcons]
    simp only [List.length_append, List.length_cons, List.length_map]
    unfold retained at hlength
    unfold chunkBytes
    split_ifs <;> simp only [List.length_cons, List.length_nil] <;> omega

/-- A payload stays a number of 64 bits. -/
theorem scanPayload_value {base : ℕ} (hbase : base ≤ 16) : ∀ (text : Bytes) (p : Payload),
    p.value < 2 ^ 64 → (scanPayload base p text).value < 2 ^ 64 := by
  intro text
  induction text with
  | nil => exact fun p h => h
  | cons b rest ih =>
    intro p h
    unfold scanPayload
    dsimp only
    split
    · exact h
    · split
      · exact h
      · split
        · next hnumeric =>
          refine ih _ ?_
          dsimp only
          split
          · norm_num
          · next hoverflow =>
            -- a digit that does not overflow leaves the payload below the bound
            simp only [decide_eq_true_eq, not_or, gt_iff_lt, Nat.not_lt] at hoverflow
            obtain ⟨d, hd, hlt⟩ := (Option.any_eq_true _ _).mp hnumeric.2
            have hle := Nat.mul_le_of_le_div base _ _ hoverflow.2
            have hdigit := of_decide_eq_true hlt
            rw [hd, Option.getD_some] at hle ⊢
            omega
        · exact ih _ h

theorem readPayload_value (s : Bytes) : (readPayload s).value < 2 ^ 64 := by
  unfold readPayload
  dsimp only
  split
  · refine scanPayload_value ?_ _ _ (by norm_num)
    split_ifs
    · norm_num
    · norm_num
    · norm_num
  · norm_num

theorem length_payload {p : Payload} (h : p.value < 2 ^ 64) : p.spelling.length ≤ 24 := by
  have hdecimal : (decimal p.value).length ≤ 20 :=
    length_decimal (by norm_num) (h.trans (by norm_num))
  unfold Payload.spelling
  split_ifs
  all_goals
    simp only [List.length_append, List.length_cons, List.length_nil]
    omega

/-- The buffer of `long_special`. -/
def specialBytes : ℕ := 64

theorem longSpecial_fits (s : Bytes) (negative : Bool) : ∃ h : Handed,
    (∀ strtod, longSpecial strtod s negative = h.parse strtod) ∧
      ∀ spelling, h = .spelled spelling → spelling.length + 1 ≤ specialBytes := by
  unfold longSpecial
  split
  · exact ⟨.answer (.infinite negative), fun _ => rfl, fun spelling h => by cases h⟩
  · split
    · exact ⟨.answer na, fun _ => rfl, fun spelling h => by cases h⟩
    · refine ⟨.spelled _, fun _ => rfl, fun spelling h => ?_⟩
      obtain rfl := Handed.spelled.inj h
      have hpayload := length_payload (readPayload_value (s.drop 3))
      have hnan : (chars "nan").length = 3 := rfl
      have hsign : (if negative then [ch '-'] else []).length ≤ 1 := by
        split
        · exact le_rfl
        · exact Nat.zero_le 1
      unfold specialBytes
      rw [List.length_append, List.length_append]
      omega

/-- The bytes of the buffer that a text's spelling is put into, its last zero byte included. -/
def bufferBytes (text : Bytes) : ℕ :=
  if chunkBytes < text.length ∧ isSpecial text = true then specialBytes else chunkBytes + 1

/-- Whatever text it is given, `str_tonumber` answers without `strtod`, or with what `strtod` makes
of one spelling: the text, a normalized payload or a shortened number. The spelling and the byte
behind it fit into the buffer. -/
theorem spelling_fits {text : Bytes} (hsize : text.length < 2 ^ 64) : ∃ h : Handed,
    (∀ strtod, strToNumber strtod text = h.parse strtod) ∧
      ∀ spelling, h = .spelled spelling → spelling.length + 1 ≤ bufferBytes text := by
  unfold bufferBytes
  by_cases hshort : text.length ≤ chunkBytes
  · refine ⟨.spelled text, fun strtod => if_pos hshort, fun spelling h => ?_⟩
    obtain rfl := Handed.spelled.inj h
    rw [if_neg fun hlong => Nat.not_lt.mpr hshort hlong.1]
    exact Nat.succ_le_succ hshort
  · have hlong : chunkBytes < text.length := Nat.lt_of_not_le hshort
    cases hspecial : isSpecial text with
    | true =>
      obtain ⟨h, hparse, hfits⟩ := longSpecial_fits (signed text).2 (signed text).1
      refine ⟨h, fun strtod => ?_, fun spelling heq => ?_⟩
      · rw [← hparse, strToNumber, if_neg hshort, hspecial, if_pos rfl]
      · rw [if_pos ⟨hlong, rfl⟩]
        exact hfits spelling heq
    | false =>
      refine ⟨handed text, fun strtod => ?_, fun spelling heq => ?_⟩
      · rw [strToNumber, if_neg hshort, hspecial, if_neg Bool.false_ne_true]
      · rw [if_neg fun hboth => Bool.false_ne_true hboth.2]
        exact handed_fits hsize heq

/-- A number with five thousand spaces behind it. -/
def padded : Bytes := chars "-12.5e3" ++ List.replicate 5000 (ch ' ')

theorem spelling_fits_padded :
    (chunkBytes < padded.length ∧ handed padded = .spelled (chars "-125e2")) ∧ ∃ h : Handed,
      (∀ strtod, strToNumber strtod padded = h.parse strtod) ∧
        ∀ spelling, h = .spelled spelling → spelling.length + 1 ≤ bufferBytes padded :=
  ⟨by decide +kernel, spelling_fits (by decide +kernel)⟩

end PineForge.Text
