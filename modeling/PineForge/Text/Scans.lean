import PineForge.Text.Numbers

/-!
# Scans of long texts

What the scan of a mantissa, the scan of an exponent and the scale keep of the number at the start
of a text, and how `strtod` reads the spelling that is made of them.
-/

namespace PineForge.Text

open Nearest

/-! ## Digits -/

theorem digitBase_eq (hex : Bool) : digitBase hex = if hex then 16 else 10 := by
  cases hex <;> rfl

theorem digit_false (b : UInt8) :
    digit b false = if ch '0' ≤ b ∧ b ≤ ch '9' then some (b.toNat - 48) else none := by
  simp [digit]

theorem digit_lt {b : UInt8} {hex : Bool} {d : ℕ} (h : digit b hex = some d) :
    d < digitBase hex := by
  rw [digitBase_eq]
  unfold digit at h
  simp only [UInt8.le_iff_toNat_le] at h
  have hzero : (ch '0').toNat = 48 := rfl
  have hnine : (ch '9').toNat = 57 := rfl
  have ha : (ch 'a').toNat = 97 := rfl
  have hf : (ch 'f').toNat = 102 := rfl
  have hA : (ch 'A').toNat = 65 := rfl
  have hF : (ch 'F').toNat = 70 := rfl
  split at h
  · cases h
    split <;> omega
  · split at h
    · next hhex =>
      cases h
      rw [if_pos hhex.1]
      omega
    · split at h
      · next hhex =>
        cases h
        rw [if_pos hhex.1]
        omega
      · cases h

theorem digit_digitChar {d : ℕ} {hex : Bool} (h : d < digitBase hex) :
    digit (digitChar d) hex = some d := by
  rw [digitBase_eq] at h
  cases hex with
  | false =>
    simp only [Bool.false_eq_true, if_false] at h
    interval_cases d <;> rfl
  | true =>
    simp only [if_true] at h
    interval_cases d <;> rfl

/-! ## Numbers of digits -/

theorem number_append (base : ℕ) (a b : List ℕ) :
    number base (a ++ b) = number base a * base ^ b.length + number base b := by
  unfold number
  rw [List.reverse_append, Nat.ofDigits_append, List.length_reverse]
  ring

theorem number_singleton (base d : ℕ) : number base [d] = d := Nat.ofDigits_singleton

theorem number_cons (base d : ℕ) (ds : List ℕ) :
    number base (d :: ds) = d * base ^ ds.length + number base ds := by
  rw [← List.singleton_append, number_append, number_singleton]

theorem number_lt {hex : Bool} {ds : List ℕ} (h : ∀ d ∈ ds, d < digitBase hex) :
    number (digitBase hex) ds < digitBase hex ^ ds.length := by
  rw [← List.length_reverse]
  refine Nat.ofDigits_lt_base_pow_length ?_ fun d hd => h d (List.mem_reverse.mp hd)
  rw [digitBase_eq]
  split <;> norm_num

theorem number_any {base : ℕ} (hbase : 0 < base) (ds : List ℕ) :
    ds.any (· ≠ 0) = true ↔ 0 < number base ds := by
  induction ds with
  | nil => simp [number]
  | cons d ds ih =>
    rw [List.any_cons, Bool.or_eq_true, ih, number_cons, decide_eq_true_eq]
    constructor
    · rintro (hd | hds)
      · exact Nat.add_pos_left (Nat.mul_pos (Nat.pos_of_ne_zero hd) (Nat.pow_pos hbase)) _
      · exact Nat.add_pos_right _ hds
    · intro hpos
      rcases Nat.add_pos_iff_pos_or_pos.mp hpos with hd | hds
      · exact Or.inl fun hzero => by simp [hzero] at hd
      · exact Or.inr hds

/-- The significant digits: those from the first that is not zero. -/
def significantOf (ds : List ℕ) : List ℕ := ds.dropWhile (· = 0)

theorem number_significantOf (base : ℕ) (ds : List ℕ) :
    number base (significantOf ds) = number base ds := by
  induction ds with
  | nil => rfl
  | cons d ds ih =>
    unfold significantOf at ih ⊢
    rw [List.dropWhile_cons]
    split
    · next hzero =>
      rw [ih, number_cons, of_decide_eq_true hzero, Nat.zero_mul, Nat.zero_add]
    · rfl

theorem significantOf_snoc (ds : List ℕ) (d : ℕ) :
    significantOf (ds ++ [d])
      = if significantOf ds = [] then if d = 0 then [] else [d] else significantOf ds ++ [d] := by
  unfold significantOf
  rw [List.dropWhile_append]
  simp only [List.isEmpty_iff, List.dropWhile_cons, List.dropWhile_nil, decide_eq_true_eq]

theorem head_significantOf {ds : List ℕ} {d : ℕ} {rest : List ℕ}
    (h : significantOf ds = d :: rest) : d ≠ 0 := by
  have hhead := List.head_dropWhile_not (p := fun d => decide (d = 0)) (l := ds)
    (by unfold significantOf at h; rw [h]; exact List.cons_ne_nil _ _)
  unfold significantOf at h
  simpa [h] using hhead

/-! ## Leading digits -/

theorem leadingDigits_lt (hex : Bool) (s : Bytes) :
    ∀ d ∈ (leadingDigits hex s).1, d < digitBase hex := by
  induction s with
  | nil =>
    intro d hd
    cases hd
  | cons b s ih =>
    unfold leadingDigits
    split
    · next hdigit =>
      exact List.forall_mem_cons.mpr ⟨digit_lt hdigit, ih⟩
    · intro d hd
      cases hd

theorem length_leadingDigits (hex : Bool) (s : Bytes) :
    (leadingDigits hex s).1.length + (leadingDigits hex s).2.length = s.length := by
  induction s with
  | nil => rfl
  | cons b s ih =>
    unfold leadingDigits
    split
    · simp only [List.length_cons]
      omega
    · simp only [List.length_nil, Nat.zero_add]

theorem leadingDigits_of_none {hex : Bool} {s : Bytes} (h : digit (peek s) hex = none) :
    leadingDigits hex s = ([], s) := by
  cases s with
  | nil => rfl
  | cons b s =>
    unfold leadingDigits
    split
    · next hdigit =>
      rw [show peek (b :: s) = b from rfl, hdigit] at h
      cases h
    · rfl

theorem leadingDigits_map {hex : Bool} {ds : List ℕ} (h : ∀ d ∈ ds, d < digitBase hex)
    {rest : Bytes}
    (hrest : digit (peek rest) hex = none) :
    leadingDigits hex (ds.map digitChar ++ rest) = (ds, rest) := by
  induction ds with
  | nil => exact leadingDigits_of_none hrest
  | cons d ds ih =>
    obtain ⟨hd, hds⟩ := List.forall_mem_cons.mp h
    rw [List.map_cons, List.cons_append, leadingDigits, digit_digitChar hd]
    simp only [ih hds]

/-! ## The scan of a mantissa -/

/-- What a mantissa keeps of the digits it was given. -/
structure Scanned (m : Mantissa) (ds : List ℕ) (fraction : ℕ) : Prop where
  any : m.any = !ds.isEmpty
  fraction : m.fraction = fraction
  significant : m.significant = !(significantOf ds).isEmpty
  count : m.significantDigits = (significantOf ds).length
  digits : m.digits = ((significantOf ds).take retained).map digitChar
  sticky : m.sticky = ((significantOf ds).drop retained).any (· ≠ 0)

/-- A digit taken extends what is scanned. -/
theorem Scanned.takeDigit {m : Mantissa} {ds : List ℕ} {fraction : ℕ}
    (h : Scanned m ds fraction) (d : ℕ) :
    Scanned (m.takeDigit d) (ds ++ [d]) (if m.afterPoint then fraction + 1 else fraction) := by
  have hsnoc := significantOf_snoc ds d
  have hlength : m.digits.length = min retained (significantOf ds).length := by
    rw [h.digits, List.length_map, List.length_take]
  have hfraction : (m.takeDigit d).fraction = if m.afterPoint then fraction + 1 else fraction := by
    simp only [Mantissa.takeDigit, h.fraction]
  have hany : (m.takeDigit d).any = !(ds ++ [d]).isEmpty := by
    simp [Mantissa.takeDigit]
  by_cases hnone : significantOf ds = []
  · have hsignificant : m.significant = false := by rw [h.significant, hnone]; rfl
    have hdigits : m.digits = [] := by rw [h.digits, hnone]; rfl
    have hcount : m.significantDigits = 0 := by rw [h.count, hnone]; rfl
    have hsticky : m.sticky = false := by rw [h.sticky, hnone]; rfl
    rw [if_pos hnone] at hsnoc
    by_cases hd : d = 0
    · subst hd
      rw [if_pos rfl] at hsnoc
      refine ⟨hany, hfraction, ?_, ?_, ?_, ?_⟩ <;>
        simp [Mantissa.takeDigit, hsnoc, hsignificant, hdigits, hcount, hsticky]
    · rw [if_neg hd] at hsnoc
      refine ⟨hany, hfraction, ?_, ?_, ?_, ?_⟩ <;>
        simp [Mantissa.takeDigit, hsnoc, hsignificant, hdigits, hcount, hsticky, hd, retained]
  · have hsignificant : m.significant = true := by
      rw [h.significant, Bool.not_eq_true', List.isEmpty_eq_false_iff]
      exact hnone
    rw [if_neg hnone] at hsnoc
    by_cases hfull : (significantOf ds).length < retained
    · -- There is room for the digit, and nothing was dropped yet.
      have hkeeps : m.digits.length < retained := by omega
      have htake : (significantOf ds).take retained = significantOf ds :=
        List.take_of_length_le hfull.le
      have hdrop : (significantOf ds).drop retained = [] := List.drop_of_length_le hfull.le
      have hnew : (significantOf ds ++ [d]).length ≤ retained := by
        rw [List.length_append, List.length_singleton]
        exact hfull
      refine ⟨hany, hfraction, ?_, ?_, ?_, ?_⟩
      · simp [Mantissa.takeDigit, hsnoc, hsignificant]
      · simp [Mantissa.takeDigit, hsnoc, hsignificant, h.count]
      · simp only [Mantissa.takeDigit, hsignificant, hkeeps, Bool.true_or, decide_true,
          Bool.and_true, if_true]
        rw [hsnoc, List.take_of_length_le hnew, h.digits, htake, List.map_append]
        rfl
      · simp only [Mantissa.takeDigit, hsignificant, hkeeps, Bool.true_or, decide_true,
          Bool.not_true,
          Bool.and_false, Bool.false_eq_true, if_false]
        rw [hsnoc, List.drop_of_length_le hnew, h.sticky, hdrop]
    · have hkeeps : ¬m.digits.length < retained := by omega
      have hle : retained ≤ (significantOf ds).length := Nat.not_lt.mp hfull
      refine ⟨hany, hfraction, ?_, ?_, ?_, ?_⟩
      · simp [Mantissa.takeDigit, hsnoc, hsignificant]
      · simp [Mantissa.takeDigit, hsnoc, hsignificant, h.count]
      · simp only [Mantissa.takeDigit, hsignificant, hkeeps, Bool.true_or, decide_false,
          Bool.and_false,
          Bool.false_eq_true, if_false]
        rw [hsnoc, List.take_append_of_le_length hle, h.digits]
      · simp only [Mantissa.takeDigit, hsignificant, hkeeps, Bool.true_or, decide_false,
          Bool.not_false,
          Bool.and_true, if_true]
        rw [hsnoc, List.drop_append_of_le_length hle, List.any_append, h.sticky]
        simp

theorem Scanned.foldl {m : Mantissa} {ds : List ℕ} {fraction : ℕ} (h : Scanned m ds fraction)
    (more : List ℕ) :
    Scanned (more.foldl Mantissa.takeDigit m) (ds ++ more)
      (if m.afterPoint then fraction + more.length else fraction) := by
  induction more generalizing m ds fraction with
  | nil =>
    rw [List.append_nil, List.length_nil, Nat.add_zero, ite_self]
    exact h
  | cons d more ih =>
    have hstep := ih (h.takeDigit d)
    rw [List.append_assoc, List.singleton_append] at hstep
    rw [List.foldl_cons, List.length_cons]
    have hpoint : (m.takeDigit d).afterPoint = m.afterPoint := rfl
    rw [hpoint] at hstep
    cases hafter : m.afterPoint with
    | false =>
      rw [hafter] at hstep
      exact hstep
    | true =>
      rw [hafter, if_pos rfl, if_pos rfl, Nat.add_assoc, Nat.add_comm 1] at hstep
      exact hstep

theorem scan_fraction {hex : Bool} (s : Bytes) : ∀ {m : Mantissa}, m.afterPoint = true →
    scan hex m s = ((leadingDigits hex s).1.foldl Mantissa.takeDigit m,
      (leadingDigits hex s).2) := by
  induction s with
  | nil =>
    intro m h
    rfl
  | cons b s ih =>
    intro m h
    unfold scan leadingDigits
    cases digit b hex with
    | some d => exact ih h
    | none => simp [h]

theorem scan_whole {hex : Bool} (s : Bytes) : ∀ {m : Mantissa}, m.afterPoint = false →
    scan hex m s =
      if peek (leadingDigits hex s).2 = point then
        scan hex { (leadingDigits hex s).1.foldl Mantissa.takeDigit m with afterPoint := true }
          (leadingDigits hex s).2.tail
      else ((leadingDigits hex s).1.foldl Mantissa.takeDigit m, (leadingDigits hex s).2) := by
  induction s with
  | nil =>
    intro m h
    rfl
  | cons b s ih =>
    intro m h
    rw [scan, leadingDigits]
    cases digit b hex with
    | some d => exact ih h
    | none => simp [h, peek]

theorem scan_readSubject (hex : Bool) (s : Bytes) :
    Scanned (scan hex {} s).1 (readSubject hex s).digits (readSubject hex s).fraction.length ∧
      (readSubject hex s).exponent = readExponent hex (scan hex {} s).2 := by
  have hstart : Scanned {} [] 0 := ⟨rfl, rfl, rfl, rfl, rfl, rfl⟩
  have hwhole := hstart.foldl (leadingDigits hex s).1
  rw [List.nil_append, if_neg Bool.false_ne_true] at hwhole
  rw [scan_whole s rfl]
  unfold readSubject
  dsimp only
  split
  · rw [scan_fraction _ rfl]
    have hpoint : Scanned
        { (leadingDigits hex s).1.foldl Mantissa.takeDigit {} with afterPoint := true }
        (leadingDigits hex s).1 0 := ⟨hwhole.1, hwhole.2, hwhole.3, hwhole.4, hwhole.5, hwhole.6⟩
    have hfraction := hpoint.foldl (leadingDigits hex (leadingDigits hex s).2.tail).1
    rw [if_pos rfl, Nat.zero_add] at hfraction
    exact ⟨hfraction, rfl⟩
  · refine ⟨?_, rfl⟩
    unfold Subject.digits
    rw [List.append_nil]
    exact hwhole

theorem readSubject_hex (hex : Bool) (s : Bytes) : (readSubject hex s).hex = hex := by
  unfold readSubject
  dsimp only
  split <;> rfl

theorem readSubject_lt (hex : Bool) (s : Bytes) :
    ∀ d ∈ (readSubject hex s).digits, d < digitBase hex := by
  unfold readSubject
  dsimp only
  split
  · exact List.forall_mem_append.mpr ⟨leadingDigits_lt hex s, leadingDigits_lt hex _⟩
  · exact List.forall_mem_append.mpr ⟨leadingDigits_lt hex s, nofun⟩

theorem length_readSubject (hex : Bool) (s : Bytes) :
    (readSubject hex s).digits.length ≤ s.length := by
  have hwhole := length_leadingDigits hex s
  have hfraction := length_leadingDigits hex (leadingDigits hex s).2.tail
  have htail := List.length_tail (l := (leadingDigits hex s).2)
  unfold readSubject
  dsimp only
  split
  · simp only [Subject.digits, List.length_append]
    omega
  · simp only [Subject.digits, List.append_nil]
    omega

/-! ## Magnitudes and scales -/

namespace Magnitude

/-- The number of a magnitude. -/
def value (m : Magnitude) : ℕ := m.high * 2 ^ 64 + m.low

theorem decimalDigit_value {m : Magnitude} {d : ℕ} (hlow : m.low < 2 ^ 64) (hle : m.value ≤ 2 ^ 68)
    (hd : d < 10) :
    (m.decimalDigit d).low < 2 ^ 64 ∧ (m.decimalDigit d).value = min (m.value * 10 + d)
    (2 ^ 68) := by
  unfold decimalDigit value at *
  split
  · constructor
    · norm_num
    · dsimp only
      omega
  · dsimp only
    have hsplit : m.low * 10 + d
      = (m.low / 2 ^ 32 * 10 + (m.low % 2 ^ 32 * 10 + d) / 2 ^ 32) * 2 ^ 32
        + (m.low % 2 ^ 32 * 10 + d) % 2 ^ 32 := by omega
    generalize m.low / 2 ^ 32 * 10 + (m.low % 2 ^ 32 * 10 + d) / 2 ^ 32 = upper at *
    generalize m.low % 2 ^ 32 * 10 + d = lower at *
    have hor : upper * 2 ^ 32 % 2 ^ 64 ||| lower % 2 ^ 32
        = upper % 2 ^ 32 * 2 ^ 32 + lower % 2 ^ 32 := by
      have hmod : upper * 2 ^ 32 % 2 ^ 64 = 2 ^ 32 * (upper % 2 ^ 32) := by omega
      rw [hmod, ← Nat.two_pow_add_eq_or_of_lt (Nat.mod_lt _ (by norm_num)), Nat.mul_comm]
    split
    · constructor
      · norm_num
      · dsimp only
        omega
    · rw [hor]
      dsimp only
      omega

theorem add_value {a b : Magnitude} (ha : a.low < 2 ^ 64) (hb : b.low < 2 ^ 64)
    (h : a.value + b.value < 2 ^ 128) :
    (a.add b).low < 2 ^ 64 ∧ (a.add b).value = a.value + b.value := by
  unfold add value at *
  dsimp only
  split <;> omega

theorem subtract_value {a b : Magnitude} (ha : a.low < 2 ^ 64) (hb : b.low < 2 ^ 64)
    (hle : b.value ≤ a.value)
    (h : a.value < 2 ^ 128) : (a.subtract b).low < 2 ^ 64 ∧ (a.subtract b).value
    = a.value - b.value := by
  unfold subtract value at *
  dsimp only
  split <;> omega

theorem compare_nonneg {a b : Magnitude} (ha : a.low < 2 ^ 64) (hb : b.low < 2 ^ 64) :
    a.compare b ≥ 0 ↔ b.value ≤ a.value := by
  unfold compare value
  repeat' split
  all_goals omega

end Magnitude

namespace Scale

/-- The integer of a scale. -/
def toInt (s : Scale) : ℤ := if s.negative then -(s.value.value : ℤ) else s.value.value

/-- The accumulated scale is the exact sum. -/
theorem accumulate_toInt {s : Scale} {term : Magnitude} (hs : s.value.low < 2 ^ 64)
    (ht : term.low < 2 ^ 64)
    (h : s.value.value + term.value < 2 ^ 128) (minus : Bool) :
    (s.accumulate term minus).value.low < 2 ^ 64 ∧
      (s.accumulate term minus).value.value ≤ s.value.value + term.value ∧
      (s.accumulate term minus).toInt = s.toInt + if minus then -(term.value : ℤ)
        else term.value := by
  unfold accumulate
  split
  · next hsame =>
    obtain ⟨hlow, hvalue⟩ := Magnitude.add_value hs ht h
    refine ⟨hlow, hvalue.le, ?_⟩
    simp only [toInt, hvalue, hsame]
    split <;> omega
  · next hother =>
    split
    · next hge =>
      have hle := (Magnitude.compare_nonneg hs ht).mp hge
      obtain ⟨hlow, hvalue⟩ := Magnitude.subtract_value hs ht hle (by omega)
      refine ⟨hlow, by rw [hvalue]; omega, ?_⟩
      simp only [toInt, hvalue]
      cases hnegative : s.negative <;> cases minus <;> simp_all
      all_goals omega
    · next hlt =>
      have hle : s.value.value ≤ term.value := by
        rw [Magnitude.compare_nonneg hs ht] at hlt
        omega
      obtain ⟨hlow, hvalue⟩ := Magnitude.subtract_value ht hs hle (by omega)
      refine ⟨hlow, by rw [hvalue]; omega, ?_⟩
      simp only [toInt, hvalue]
      cases hnegative : s.negative <;> cases minus <;> simp_all
      all_goals omega

/-- An exponent between `-10000` and `10000`. -/
def clamp (n : ℤ) : ℤ := max (-10000) (min 10000 n)

theorem bounded_eq {s : Scale} (hs : s.value.low < 2 ^ 64) : s.bounded = clamp s.toInt := by
  unfold bounded clamp toInt Magnitude.value
  dsimp only
  split <;> split <;> omega

end Scale

theorem places_value (hex : Bool) {count : ℕ} (h : count < 2 ^ 64) :
    (places hex count).low < 2 ^ 64 ∧ (places hex count).value = digitPlaces hex * count := by
  unfold places digitPlaces
  cases hex with
  | false =>
    simp only [Bool.false_eq_true, if_false, Magnitude.value]
    omega
  | true =>
    simp only [if_true, Magnitude.timesFour, Magnitude.value]
    omega

theorem scanExponent_value (s : Bytes) : ∀ {m : Magnitude} {n : ℕ}, m.low < 2 ^ 64 →
    m.value = min n (2 ^ 68) →
    (scanExponent m s).low < 2 ^ 64 ∧
      (scanExponent m s).value
        = min (n * 10 ^ (leadingDigits false s).1.length + number 10 (leadingDigits false s).1)
          (2 ^ 68) := by
  induction s with
  | nil =>
    intro m n hlow hvalue
    refine ⟨hlow, hvalue.trans ?_⟩
    simp [leadingDigits, number]
  | cons b s ih =>
    intro m n hlow hvalue
    rw [scanExponent, leadingDigits, digit_false]
    by_cases hdigit : ch '0' ≤ b ∧ b ≤ ch '9'
    · simp only [if_pos hdigit]
      have hd : b.toNat - 48 < 10 := by
        have hle := UInt8.le_iff_toNat_le.mp hdigit.2
        have hnine : (ch '9').toNat = 57 := rfl
        omega
      obtain ⟨hlow', hvalue'⟩ := Magnitude.decimalDigit_value hlow (by omega) hd
      obtain ⟨hlow'', hvalue''⟩ := ih (n := n * 10 + (b.toNat - 48)) hlow' (by omega)
      refine ⟨hlow'', hvalue''.trans ?_⟩
      rw [number_cons, List.length_cons, pow_succ]
      congr 1
      ring
    · simp only [if_neg hdigit]
      refine ⟨hlow, hvalue.trans ?_⟩
      simp [number]

theorem exponentScale_toInt (hex : Bool) (s : Bytes) :
    (exponentScale hex s).value.low < 2 ^ 64 ∧ (exponentScale hex s).value.value ≤ 2 ^ 68 ∧
      (exponentScale hex s).toInt = max (-2 ^ 68) (min (2 ^ 68) (readExponent hex s)) := by
  unfold exponentScale readExponent
  split
  · obtain ⟨hlow, hvalue⟩ :=
      scanExponent_value (takeSign s.tail).2 (m := ⟨0, 0⟩) (n := 0) (by norm_num)
      (by simp [Magnitude.value])
    rw [Nat.zero_mul, Nat.zero_add] at hvalue
    refine ⟨hlow, hvalue.trans_le (min_le_right _ _), ?_⟩
    simp only [Scale.toInt, hvalue]
    split <;> omega
  · refine ⟨by norm_num, by simp [Magnitude.value], ?_⟩
    simp [Scale.toInt, Magnitude.value]

/-! ## Spellings -/

theorem decimal_spells (n : ℕ) :
    ∃ ds : List ℕ, decimal n = ds.map digitChar ∧ (∀ d ∈ ds, d < digitBase false) ∧
      number 10 ds = n := by
  unfold decimal
  split
  · next hzero => exact ⟨[0], rfl, by simp [digitBase_eq], by rw [number_singleton, hzero]⟩
  · refine ⟨(Nat.digits 10 n).reverse, rfl, fun d hd => ?_, ?_⟩
    · exact Nat.digits_lt_base (b := 10) (by norm_num) (List.mem_reverse.mp hd)
    · rw [number, List.reverse_reverse, Nat.ofDigits_digits]

/-- Nothing stands before a number that starts with a digit. -/
structure StartsWithDigit (s : Bytes) : Prop where
  spaces : s.dropWhile isSpace = s
  sign : takeSign s = (false, s)
  infinity : token s (chars "inf") = false
  nan : token s (chars "nan") = false

theorem startsWithDigit {s : Bytes} {d : ℕ} (hd : d < 16) (h : peek s = digitChar d) :
    StartsWithDigit s := by
  have hspace : isSpace (peek s) = false := by
    rw [h]
    interval_cases d <;> rfl
  have hsign : peek s ≠ ch '-' ∧ peek s ≠ ch '+' := by
    rw [h]
    interval_cases d <;> decide
  have hlower : toLower (peek s) ≠ ch 'i' ∧ toLower (peek s) ≠ ch 'n' := by
    rw [h]
    interval_cases d <;> decide
  constructor
  · cases s with
    | nil => rfl
    | cons b s =>
      rw [List.dropWhile_cons, if_neg]
      rw [show isSpace b = false from hspace]
      exact Bool.false_ne_true
  · simp [takeSign, hsign]
  · exact Bool.and_eq_false_iff.mpr (Or.inl (decide_eq_false hlower.1))
  · exact Bool.and_eq_false_iff.mpr (Or.inl (decide_eq_false hlower.2))

theorem readExponent_toChars {hex : Bool} {marker : UInt8}
    (hmarker : exponentMarker hex marker = true) (e : ℤ) :
    readExponent hex (marker :: toChars e) = e := by
  obtain ⟨ds, hdecimal, hlt, hnumber⟩ := decimal_spells e.natAbs
  have hdigits : leadingDigits false (decimal e.natAbs) = (ds, []) := by
    have hmap : leadingDigits false (ds.map digitChar ++ []) = (ds, []) := leadingDigits_map hlt rfl
    rwa [List.append_nil, ← hdecimal] at hmap
  have hunsigned : takeSign (decimal e.natAbs) = (false, decimal e.natAbs) := by
    cases ds with
    | nil =>
      rw [hdecimal]
      rfl
    | cons d ds =>
      have hd : d < 10 := hlt d List.mem_cons_self
      exact (startsWithDigit (d := d) (by omega) (by rw [hdecimal]; rfl)).sign
  unfold readExponent toChars
  rw [if_pos (show exponentMarker hex (peek (marker :: _)) = true from hmarker), List.tail_cons]
  by_cases he : e < 0
  · have hminus : takeSign (ch '-' :: decimal e.natAbs) = (true, decimal e.natAbs) := rfl
    simp only [if_pos he, hminus, hdigits, hnumber, if_true]
    omega
  · simp only [if_neg he, hunsigned, hdigits, hnumber, Bool.false_eq_true, if_false]
    omega

/-- The spelled number is read back. -/
theorem readNumber_spell (negative : Bool) {hex : Bool} {d : ℕ} {ds : List ℕ} (hd : d ≠ 0)
    (hlt : ∀ x ∈ d :: ds, x < digitBase hex) (e : ℤ) :
    isSpecial (spell negative hex ((d :: ds).map digitChar) e) = false ∧
      readNumber (spell negative hex ((d :: ds).map digitChar) e)
        = some (negative, number (digitBase hex) (d :: ds) * (radix hex : ℚ) ^ e) := by
  set tail : Bytes := (if hex then ch 'p' else ch 'e') :: toChars e with htail
  set mantissa : Bytes := (d :: ds).map digitChar ++ tail with hmantissa
  set body : Bytes := (if hex then [ch '0', ch 'x'] else []) ++ mantissa with hbody
  have hspell : spell negative hex ((d :: ds).map digitChar) e
      = (if negative then [ch '-'] else []) ++ body := by
    simp only [spell, hbody, hmantissa, htail, List.append_assoc]
  have hdlt : d < 16 := by
    have hbound := hlt d List.mem_cons_self
    rw [digitBase_eq] at hbound
    split at hbound <;> omega
  have hstarts : StartsWithDigit body := by
    cases hex with
    | false => exact startsWithDigit hdlt rfl
    | true => exact startsWithDigit (d := 0) (by norm_num) rfl
  have hsigned : signed (spell negative hex ((d :: ds).map digitChar) e) = (negative, body) := by
    rw [hspell]
    cases negative with
    | false => exact (congrArg takeSign hstarts.spaces).trans hstarts.sign
    | true => rfl
  have hhex : hexPrefixed body = hex := by
    cases hex with
    | false =>
      have hfirst : peek body ≠ ch '0' := by
        have hbound : d < 10 := hlt d List.mem_cons_self
        have hpos := Nat.pos_of_ne_zero hd
        rw [show peek body = digitChar d from rfl]
        interval_cases d <;> decide
      simp [hexPrefixed, hfirst]
    | true => rfl
  have hrest : (if hex then body.drop 2 else body) = mantissa := by
    cases hex <;> rfl
  have hmarker : exponentMarker hex (if hex then ch 'p' else ch 'e') = true := by
    cases hex <;> rfl
  have hsubject : readSubject hex mantissa = ⟨hex, d :: ds, [], e⟩ := by
    have hdigits : leadingDigits hex mantissa = (d :: ds, tail) :=
      leadingDigits_map hlt (by cases hex <;> rfl)
    have hpoint : (if hex then ch 'p' else ch 'e') ≠ point := by cases hex <;> decide
    unfold readSubject
    rw [hdigits]
    dsimp only
    rw [if_neg (show ¬peek tail = point from hpoint), readExponent_toChars hmarker]
  constructor
  · unfold isSpecial
    rw [hsigned, hstarts.infinity, hstarts.nan]
    rfl
  · unfold readNumber
    rw [hsigned]
    dsimp only
    rw [hhex, hrest, hsubject]
    simp [Subject.magnitude, Subject.digits]

end PineForge.Text
