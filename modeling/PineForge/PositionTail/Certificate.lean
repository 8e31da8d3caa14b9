import PineForge.Machine.FloatArith
import PineForge.Machine.Arith

/-!
# Certificates of exact sums

A certificate counts the terms of a sum in units of a power of two. While it is valid the whole
count is below `2 ^ 53`, so that every term and every partial sum is a number of the format.
-/

namespace PineForge.PositionTail

open FloatArith Nearest

/-- A sum in units of a quantum, or none. -/
structure PositionTailExact where
  magnitude : ℕ
  quantum : ℤ
  valid : Bool
deriving DecidableEq

/-- The largest exact magnitude. -/
def maximum : ℕ := 2 ^ 53 - 1

namespace PositionTailExact

/-- The sum of nothing. -/
def new : PositionTailExact where
  magnitude := 0
  quantum := 0
  valid := true

/-- `value <<= bits` where nothing is lost. -/
def shift (value bits : ℕ) : Option ℕ :=
  if 53 ≤ bits ∨ maximum / 2 ^ bits < value then none else some (value * 2 ^ bits)

/-- The sum of two counts in a common unit. -/
def align (c other : PositionTailExact) : Option PositionTailExact :=
  let common := min c.quantum other.quantum
  (shift c.magnitude (c.quantum - common).toNat).bind fun left =>
    (shift other.magnitude (other.quantum - common).toNat).bind fun right =>
      if maximum - left < right then none
      else some { magnitude := left + right, quantum := common, valid := true }

/-- The sum of two sums. -/
def merge (c other : PositionTailExact) : PositionTailExact :=
  if c.valid = false ∨ other.valid = false then { c with valid := false }
  else if other.magnitude = 0 then c
  else if c.magnitude = 0 then other
  else (c.align other).getD { c with valid := false }

/-- `while ((integer & 1) == 0)`: the integer and the exponent. -/
def strip : ℕ → ℕ → ℤ → ℕ × ℤ
  | 0, integer, exponent => (integer, exponent)
  | fuel + 1, integer, exponent =>
    if integer % 2 = 0 then strip fuel (integer / 2) (exponent + 1) else (integer, exponent)

/-- The certificate of one positive double. A word has no more than 64 bits to strip. -/
def term (value : Float) : PositionTailExact :=
  let parts := frexp value
  let stripped := strip 64 (toInt (ldexp parts.1 53)).toNat (parts.2 - 53)
  { magnitude := stripped.1, quantum := stripped.2, valid := true }

/-- Add a quantity. -/
def add (c : PositionTailExact) (value : Float) : PositionTailExact :=
  if c.valid = false then c
  else if value.isFinite = false ∨ signbit value = true then { c with valid := false }
  else if value == 0.0 then c
  else c.merge (term value)

/-- The sum as a double. -/
def read (c : PositionTailExact) : Option Float :=
  if c.valid = false then none
  else
    let value := ldexp (fromInt c.magnitude) c.quantum
    if value.isFinite = false then none else some value

/-! ## What a certificate says -/

/-- The terms are whole numbers of units, and the count is that of all of them. -/
structure Certifies (c : PositionTailExact) (terms : List Float) : Prop where
  bound : c.magnitude < 2 ^ 53
  least : -1074 ≤ c.quantum
  unsigned : ∀ x ∈ terms, signbit x = false
  whole : ∀ x ∈ terms, ∃ n : ℕ, Denotes x (n * 2 ^ c.quantum)
  total : (terms.map value).sum = c.magnitude * 2 ^ c.quantum

/-- What is known of a certificate that may have been given up. -/
def Sound (c : PositionTailExact) (terms : List Float) : Prop := c.valid = true → c.Certifies terms

variable {c other : PositionTailExact} {terms others : List Float} {x : Float}

theorem new_sound : new.Sound [] := by
  intro _
  refine ⟨by norm_num [new], by norm_num [new], ?_, ?_, ?_⟩
  · intro x hx
    cases hx
  · intro x hx
    cases hx
  · rw [List.map_nil, List.sum_nil, show new.magnitude = 0 from rfl, Nat.cast_zero, zero_mul]

theorem Certifies.perm (h : c.Certifies terms) (hperm : terms.Perm others) :
    c.Certifies others := by
  refine ⟨h.bound, h.least, ?_, ?_, ?_⟩
  · intro x hx
    exact h.unsigned x (hperm.mem_iff.mpr hx)
  · intro x hx
    exact h.whole x (hperm.mem_iff.mpr hx)
  · rw [← h.total]
    exact ((hperm.map value).sum_eq).symm

theorem Sound.perm (h : c.Sound terms) (hperm : terms.Perm others) : c.Sound others :=
  fun hvalid => (h hvalid).perm hperm

theorem Certifies.value_nonneg (h : c.Certifies terms) {x : Float} (hx : x ∈ terms) :
    0 ≤ value x := by
  obtain ⟨n, hn⟩ := h.whole x hx
  rw [hn.value]
  exact hn.nonneg

theorem Certifies.zero (h : c.Certifies terms) (hzero : c.magnitude = 0) {x : Float}
    (hx : x ∈ terms) :
    Denotes x 0 := by
  have htotal := h.total
  rw [hzero, Nat.cast_zero, zero_mul] at htotal
  have hvalue : value x = 0 := by
    refine List.all_zero_of_le_zero_le_of_sum_eq_zero ?_ htotal (List.mem_map_of_mem hx)
    intro q hq
    obtain ⟨y, hy, rfl⟩ := List.mem_map.mp hq
    exact h.value_nonneg hy
  obtain ⟨n, hn⟩ := h.whole x hx
  rwa [← hn.value, hvalue] at hn

theorem Certifies.append_zeros (h : c.Certifies terms) (hunsigned : ∀ x ∈ others, signbit x = false)
    (hzero : ∀ x ∈ others, Denotes x 0) : c.Certifies (terms ++ others) := by
  refine ⟨h.bound, h.least, ?_, ?_, ?_⟩
  · intro x hx
    obtain hx | hx := List.mem_append.mp hx
    · exact h.unsigned x hx
    · exact hunsigned x hx
  · intro x hx
    obtain hx | hx := List.mem_append.mp hx
    · exact h.whole x hx
    · exact ⟨0, by rw [Nat.cast_zero, zero_mul]; exact hzero x hx⟩
  · have hsum : (others.map value).sum = 0 := by
      refine List.sum_eq_zero ?_
      intro q hq
      obtain ⟨y, hy, rfl⟩ := List.mem_map.mp hq
      exact (hzero y hy).value
    rw [List.map_append, List.sum_append, hsum, add_zero, h.total]

theorem Certifies.finer (h : c.Certifies terms) {d : ℕ} (hbound : c.magnitude * 2 ^ d < 2 ^ 53)
    (hleast : -1074 ≤ c.quantum - d) :
    Certifies { magnitude := c.magnitude * 2 ^ d, quantum := c.quantum - d,
                valid := true } terms := by
  have hscale : ∀ n : ℕ, (n : ℚ) * 2 ^ c.quantum = (n * 2 ^ d : ℕ) * 2 ^ (c.quantum - d) := by
    intro n
    push_cast
    rw [mul_assoc, ← zpow_natCast, ← zpow_add₀ two_ne_zero, add_sub_cancel]
  refine ⟨hbound, hleast, h.unsigned, ?_, ?_⟩
  · intro x hx
    obtain ⟨n, hn⟩ := h.whole x hx
    rw [hscale] at hn
    exact ⟨_, hn⟩
  · rw [h.total]
    exact hscale c.magnitude

theorem shift_eq {value bits shifted : ℕ} (h : shift value bits = some shifted) :
    shifted = value * 2 ^ bits ∧ shifted < 2 ^ 53 := by
  unfold shift at h
  split at h
  · cases h
  · rename_i hfits
    rw [not_or, not_lt] at hfits
    cases h
    have hle := (Nat.le_div_iff_mul_le (by positivity)).mp hfits.2
    refine ⟨rfl, ?_⟩
    unfold maximum at hle
    omega

/-- Two certified sums merge. -/
theorem Certifies.merge (h : c.Certifies terms) (h' : other.Certifies others) (hc : c.valid = true)
    (hother : other.valid = true) (hvalid : (c.merge other).valid = true) :
    (c.merge other).Certifies (terms ++ others) := by
  have hvalids : ¬(c.valid = false ∨ other.valid = false) := by
    rw [hc, hother]
    rintro (h | h) <;> cases h
  unfold PositionTailExact.merge at hvalid ⊢
  rw [if_neg hvalids] at hvalid ⊢
  split
  · rename_i hzero
    exact h.append_zeros h'.unsigned fun x hx => h'.zero hzero hx
  · rename_i hne
    rw [if_neg hne] at hvalid
    split
    · rename_i hzero
      exact (h'.append_zeros h.unsigned fun x hx => h.zero hzero hx).perm List.perm_append_comm
    · rename_i hne'
      rw [if_neg hne'] at hvalid
      cases halign : c.align other with
      | none =>
        rw [halign] at hvalid
        cases hvalid
      | some next =>
        change next.Certifies _
        unfold align at halign
        dsimp only at halign
        obtain ⟨left, hleft, halign⟩ := Option.bind_eq_some_iff.mp halign
        obtain ⟨right, hright, halign⟩ := Option.bind_eq_some_iff.mp halign
        split at halign
        · cases halign
        · rename_i hfits
          cases halign
          obtain ⟨rfl, hleft⟩ := shift_eq hleft
          obtain ⟨rfl, hright⟩ := shift_eq hright
          have hleast := le_min h.least h'.least
          have hk := Int.toNat_of_nonneg (sub_nonneg.mpr (min_le_left c.quantum other.quantum))
          have hk' := Int.toNat_of_nonneg (sub_nonneg.mpr (min_le_right c.quantum other.quantum))
          generalize (c.quantum - min c.quantum other.quantum).toNat = d at *
          generalize (other.quantum - min c.quantum other.quantum).toNat = d' at *
          generalize min c.quantum other.quantum = common at *
          have hc₁ := h.finer hleft (by omega)
          have hc₂ := h'.finer hright (by omega)
          rw [show c.quantum - d = common by omega] at hc₁
          rw [show other.quantum - d' = common by omega] at hc₂
          refine ⟨?_, hleast, ?_, ?_, ?_⟩
          · change c.magnitude * 2 ^ d + other.magnitude * 2 ^ d' < 2 ^ 53
            unfold maximum at hfits
            omega
          · intro x hx
            exact (List.mem_append.mp hx).elim (h.unsigned x) (h'.unsigned x)
          · intro x hx
            exact (List.mem_append.mp hx).elim (hc₁.whole x) (hc₂.whole x)
          · rw [List.map_append, List.sum_append, hc₁.total, hc₂.total]
            push_cast
            ring

/-! ## One term -/

/-- Stripping keeps the value, and ends at an odd integer when the fuel exceeds the bits. -/
theorem strip_spec {fuel integer : ℕ} {exponent : ℤ} (hpos : 0 < integer)
    (hfuel : integer < 2 ^ fuel) :
    (strip fuel integer exponent).1 % 2 = 1 ∧ (strip fuel integer exponent).1 ≤ integer ∧
      ((strip fuel integer exponent).1 : ℚ) * 2 ^ (strip fuel integer exponent).2
        = integer * 2 ^ exponent := by
  induction fuel generalizing integer exponent with
  | zero => omega
  | succ fuel ih =>
    unfold strip
    split
    · rename_i heven
      obtain ⟨hodd, hle, hvalue⟩ := @ih (integer / 2) (exponent + 1) (by omega) (by omega)
      refine ⟨hodd, by omega, ?_⟩
      have hhalf : (integer : ℚ) = (integer / 2 : ℕ) * 2 := by exact_mod_cast (by omega)
      rw [hvalue, hhalf, zpow_add_one₀ two_ne_zero]
      ring
    · rename_i hodd
      exact ⟨by omega, le_rfl, rfl⟩

/-- One quantity is certified. -/
theorem term_certifies {q : ℚ} (hx : Denotes x q) (hq : q ≠ 0) : (term x).Certifies [x] := by
  obtain ⟨k, hlow, hhigh, hfraction, hvalue⟩ := hx.frexp hq
  have hinteger : (toInt (ldexp (frexp x).1 53)).toNat = k := by
    rw [hfraction.toInt, Nat.floor_natCast, Int.toNat_natCast]
  obtain ⟨hodd, hle, hstrip⟩ := @strip_spec 64 k ((frexp x).2 - 53) (by omega) (by omega)
  have hterm : term x = ⟨(strip 64 k ((frexp x).2 - 53)).1,
      (strip 64 k ((frexp x).2 - 53)).2, true⟩ := by
    unfold term
    dsimp only
    rw [hinteger]
  rw [← hvalue] at hstrip
  generalize (strip 64 k ((frexp x).2 - 53)).1 = n at hterm hodd hle hstrip
  generalize (strip 64 k ((frexp x).2 - 53)).2 = t at hterm hstrip
  rw [hterm]
  refine ⟨lt_of_le_of_lt hle hhigh, ?_, ?_, ?_, ?_⟩
  · -- A smaller unit would make the odd count a multiple of two.
    change -1074 ≤ t
    generalize hq' : q = r at hx
    cases hx with
    | zero hu => exact absurd hq' hq
    | @finite m e h hu =>
      by_contra hlt
      have hleast := h.least
      obtain ⟨d, hd⟩ := Int.le.dest (show t + 1 ≤ e by omega)
      have hmultiple : (n : ℚ) = (m * 2 ^ (d + 1) : ℕ) := by
        have hn : (n : ℚ) * 2 ^ t = m * 2 ^ (d + 1) * 2 ^ t := by
          rw [hstrip, hq', ← hd, mul_assoc, ← zpow_natCast, ← zpow_add₀ two_ne_zero]
          congr 2
          push_cast
          ring
        push_cast
        exact mul_right_cancel₀ (zpow_pos two_pos t).ne' hn
      have hmultiple' : n = m * 2 ^ (d + 1) := by exact_mod_cast hmultiple
      rw [hmultiple', pow_succ, ← mul_assoc, Nat.mul_mod_left] at hodd
      cases hodd
  · intro y hy
    rw [List.mem_singleton.mp hy]
    exact hx.signbit_of_ne_zero hq
  · intro y hy
    rw [List.mem_singleton.mp hy]
    exact ⟨n, hstrip ▸ hx⟩
  · rw [List.map_singleton, List.sum_singleton, hx.value]
    exact hstrip.symm

theorem merge_valid (h : (c.merge other).valid = true) : c.valid = true ∧ other.valid = true := by
  unfold merge at h
  split at h
  · cases h
  · rename_i hvalids
    rw [not_or, Bool.not_eq_false, Bool.not_eq_false] at hvalids
    exact hvalids

theorem denotes_zero_float : Denotes 0.0 0 := .zero (s := .positive) rfl

/-- Adding keeps a certificate, or there is none. -/
theorem Sound.add (h : c.Sound terms) (x : Float) : (c.add x).Sound (terms ++ [x]) := by
  intro hvalid
  unfold PositionTailExact.add at hvalid ⊢
  split
  · rename_i hinvalid
    rw [if_pos hinvalid, hinvalid] at hvalid
    cases hvalid
  · rename_i hc
    rw [if_neg hc] at hvalid
    rw [Bool.not_eq_false] at hc
    split
    · rename_i hbad
      rw [if_pos hbad] at hvalid
      cases hvalid
    · rename_i hgood
      rw [if_neg hgood] at hvalid
      rw [not_or, Bool.not_eq_false, Bool.not_eq_true] at hgood
      have hx := denotes_value hgood.1 hgood.2
      split
      · rename_i hzero
        have hvalue := (hx.beq_iff denotes_zero_float).mp hzero
        rw [hvalue] at hx
        refine (h hc).append_zeros ?_ ?_
        · intro y hy
          rw [List.mem_singleton.mp hy]
          exact hgood.2
        · intro y hy
          rw [List.mem_singleton.mp hy]
          exact hx
      · rename_i hnonzero
        rw [if_neg hnonzero] at hvalid
        have hvalue : value x ≠ 0 := by
          intro hzero
          exact hnonzero ((hx.beq_iff denotes_zero_float).mpr hzero)
        exact (h hc).merge (term_certifies hx hvalue) hc rfl hvalid

/-! ## Reading -/

/-- Some of the terms of a certificate whose total is in range sum exactly, in any order. -/
theorem Certifies.foldl (h : c.Certifies terms)
    (hrange : (c.magnitude : ℚ) * 2 ^ c.quantum < 2 ^ 1024)
    {start : Float} {n : ℕ} (hstart : Denotes start (n * 2 ^ c.quantum))
    (hsign : signbit start = false)
    {rest : List Float} (hmem : ∀ x ∈ rest, x ∈ terms)
    (hle : (n : ℚ) * 2 ^ c.quantum + (rest.map value).sum ≤ c.magnitude * 2 ^ c.quantum) :
    Denotes (rest.foldl (· + ·) start) (n * 2 ^ c.quantum + (rest.map value).sum) ∧
      signbit (rest.foldl (· + ·) start) = false := by
  induction rest generalizing start n with
  | nil =>
    rw [List.map_nil, List.sum_nil, add_zero]
    exact ⟨hstart, hsign⟩
  | cons x rest ih =>
    obtain ⟨k, hk⟩ := h.whole x (hmem x List.mem_cons_self)
    have hunit : (0 : ℚ) < 2 ^ c.quantum := zpow_pos two_pos _
    rw [List.map_cons, List.sum_cons, hk.value, ← add_assoc, ← add_mul, ← Nat.cast_add] at hle ⊢
    have hrest : 0 ≤ (rest.map value).sum := by
      refine List.sum_nonneg ?_
      intro q hq
      obtain ⟨y, hy, rfl⟩ := List.mem_map.mp hq
      exact h.value_nonneg (hmem y (List.mem_cons_of_mem _ hy))
    have hpartial : ((n + k : ℕ) : ℚ) * 2 ^ c.quantum ≤ c.magnitude * 2 ^ c.quantum := by linarith
    have hcount : n + k ≤ c.magnitude := by exact_mod_cast le_of_mul_le_mul_right hpartial hunit
    have hsum : (n : ℚ) * 2 ^ c.quantum + k * 2 ^ c.quantum = (n + k : ℕ) * 2 ^ c.quantum := by
      push_cast
      ring
    have hadd := hstart.add_exact hk hsum (lt_of_le_of_lt hcount h.bound) h.least
      (by rw [hsum]; exact lt_of_le_of_lt hpartial hrange)
    rw [hsum] at hadd
    have hsign' : signbit (start + x) = false := by
      by_cases hzero : ((n + k : ℕ) : ℚ) * 2 ^ c.quantum = 0
      · have hnk : n + k = 0 := by
          have hcast := (mul_eq_zero.mp hzero).resolve_right hunit.ne'
          exact_mod_cast hcast
        have hn : n = 0 := by omega
        have hk' : k = 0 := by omega
        rw [hn, Nat.cast_zero, zero_mul] at hstart
        rw [hk', Nat.cast_zero, zero_mul] at hk
        exact signbit_add hstart hk hsign (h.unsigned x (hmem x List.mem_cons_self))
      · exact hadd.signbit_of_ne_zero hzero
    exact ih hadd hsign' (fun y hy => hmem y (List.mem_cons_of_mem _ hy)) hle

theorem signbit_zero : signbit 0.0 = false := by decide +kernel

theorem Certifies.fold (h : c.Certifies terms)
    (hrange : (c.magnitude : ℚ) * 2 ^ c.quantum < 2 ^ 1024)
    {chosen : List Float} (hsub : chosen.Subperm terms) :
    Denotes (chosen.foldl (· + ·) 0.0) (chosen.map value).sum ∧
      signbit (chosen.foldl (· + ·) 0.0) = false := by
  have hle : (chosen.map value).sum ≤ c.magnitude * 2 ^ c.quantum := by
    rw [← h.total]
    obtain ⟨sorted, hperm, hsublist⟩ := hsub
    rw [← (hperm.map value).sum_eq]
    refine List.Sublist.sum_le_sum (hsublist.map value) ?_
    intro q hq
    obtain ⟨y, hy, rfl⟩ := List.mem_map.mp hq
    exact h.value_nonneg hy
  have hzero : Denotes 0.0 ((0 : ℕ) * 2 ^ c.quantum) := by
    rw [Nat.cast_zero, zero_mul]
    exact denotes_zero_float
  have hfold := h.foldl hrange hzero signbit_zero (fun x hx => hsub.subset hx) (by
    rw [Nat.cast_zero, zero_mul, zero_add]
    exact hle)
  rwa [Nat.cast_zero, zero_mul, zero_add] at hfold

theorem signbit_ldexp_zero (n : ℤ) : signbit (ldexp (fromInt (0 : ℕ)) n) = false := by
  have hunpack : (fromInt (0 : ℕ)).toModel.unpack = .zero .positive := unpack_pack_zero .positive
  have hzero : signbit (.ofModel (.pack (.zero .positive))) = false := by decide +kernel
  unfold ldexp
  rw [hunpack]
  exact hzero

theorem read_eq_fold (h : c.Sound terms) {result : Float} (hread : c.read = some result)
    (hperm : others.Perm terms) : result = others.foldl (· + ·) 0.0 := by
  unfold read at hread
  split at hread
  · cases hread
  · rename_i hvalid
    rw [Bool.not_eq_false] at hvalid
    have hc := h hvalid
    dsimp only at hread
    split at hread
    · cases hread
    · rename_i hfinite
      rw [Bool.not_eq_false] at hfinite
      cases hread
      have hmagnitude := denotes_fromInt_of_le hc.bound.le
      have hself := nearest_of_scaled hc.bound hc.least
      have hrange := hmagnitude.ldexp_of_isFinite hfinite
      have hldexp := hmagnitude.ldexp hrange
      rw [hself] at hrange hldexp
      obtain ⟨hfold, hsign⟩ := hc.fold hrange hperm.subperm
      rw [(hperm.map value).sum_eq, hc.total] at hfold
      refine hldexp.eq hfold ?_ hsign
      by_cases hzero : (c.magnitude : ℚ) * 2 ^ c.quantum = 0
      · have hcount : c.magnitude = 0 := by
          have hcast := (mul_eq_zero.mp hzero).resolve_right (zpow_pos two_pos _).ne'
          exact_mod_cast hcast
        rw [hcount]
        exact signbit_ldexp_zero _
      · exact hldexp.signbit_of_ne_zero hzero

end PositionTailExact

end PineForge.PositionTail
