import PineForge.Machine.Arith
import PineForge.Machine.FloatArith

/-!
# Binary64

`Float` as a reading of the arithmetic signature: every operation is the correctly rounded one of
IEEE binary64, a literal is the quotient of its two integers, and the successor of a value moves
its bit pattern. The laws of a correctly rounded format hold of it: a comparison with zero reads
the shape a double unpacks to, and the shape of a result follows from those of the operands.
-/

namespace PineForge

namespace Binary64

/-- `std::nextafter(x, infinity())`. -/
def nextUp (x : Float) : Float :=
  if x.isNaN then x
  else if x == 0 then Float.ofBits 1
  else if 0 < x then (if x.isInf then x else Float.ofBits (x.toBits + 1))
  else Float.ofBits (x.toBits - 1)

/-- A decimal literal, rounded once when its numerator and denominator are exact. -/
def lit (q : ℚ) : Float := Float.ofInt q.num / Float.ofNat q.den

end Binary64

instance : Arith Float where
  zero := 0
  one := 1
  decLt := inferInstance
  decLe := inferInstance
  abs := Float.abs
  isFinite := Float.isFinite
  nan := 0 / 0
  inf := 1 / 0
  nextUp := Binary64.nextUp
  lit := Binary64.lit

example : (Arith.lit (1 / 10) : Float) + Arith.lit (2 / 10) = 0.30000000000000004 := by
  decide +kernel

namespace Binary64

open Float.Model Float.Model.UnpackedFloat FloatOrder FloatRound FloatArith

/-! ## Comparisons with zero -/

/-- How a double lies to zero. A NaN does not. -/
def side (x : Float) : Option Ordering := x.toModel.unpack.compare (.zero .positive)

variable {x y : Float}

theorem unpack_zero : (0 : Float).toModel.unpack = .zero .positive := rfl

theorem zero_compare (u : UnpackedFloat) :
    (UnpackedFloat.zero .positive).compare u = (u.compare (.zero .positive)).map Ordering.swap := by
  cases u with
  | notANumber => rfl
  | zero s => rfl
  | infinity s => cases s <;> rfl
  | finite s m e hm => cases s <;> rfl

theorem lt_zero_iff : x < 0 ↔ side x = some .lt := by
  rw [lt_def, unpack_zero, beq_iff_eq]
  rfl

theorem zero_lt_iff : 0 < x ↔ side x = some .gt := by
  rw [lt_def, unpack_zero, zero_compare, beq_iff_eq]
  change (side x).map _ = _ ↔ _
  cases side x with
  | none => simp
  | some o => cases o <;> simp

theorem le_zero_iff : x ≤ 0 ↔ side x = some .lt ∨ side x = some .eq := by
  rw [le_def, unpack_zero]
  change (side x).any _ = _ ↔ _
  cases side x with
  | none => simp
  | some o => cases o <;> simp

theorem zero_le_iff : 0 ≤ x ↔ side x = some .gt ∨ side x = some .eq := by
  rw [le_def, unpack_zero, zero_compare]
  change ((side x).map _).any _ = _ ↔ _
  cases side x with
  | none => simp
  | some o => cases o <;> simp

theorem beq_zero_iff : (x == 0) = true ↔ side x = some .eq := by
  change (x.toModel.unpack.compare (0 : Float).toModel.unpack == some .eq) = true ↔ _
  rw [unpack_zero, beq_iff_eq]
  rfl

theorem side_of_isFinite (h : x.isFinite = true) : side x ≠ none := by
  change x.toModel.unpack.isFinite = true at h
  unfold side
  cases hu : x.toModel.unpack with
  | notANumber => rw [hu] at h; cases h
  | infinity s => rw [hu] at h; cases h
  | zero s => exact Option.some_ne_none _
  | finite s m e hm => cases s <;> exact Option.some_ne_none _

/-! ## Results -/

/-- A number past the largest exponent packs as infinity, any other as itself. -/
theorem unpack_rounded {s : Sign} {u : UnpackedFloat} {q : ℚ} (h : Rounded s u q) :
    (Float.Model.pack u).unpack = u ∨ (Float.Model.pack u).unpack = .infinity s := by
  cases h with
  | zero => exact .inl (unpack_pack_zero s)
  | @finite m e pos lt least normal =>
    by_cases he : e ≤ 971
    · exact .inl (unpack_pack ⟨pos, lt, least, he, normal⟩)
    · exact .inr (unpack_pack_overflow pos (by omega))

/-- What a double unpacks to packs and unpacks to itself. -/
theorem unpack_pack_unpack (x : Float) :
    (Float.Model.pack x.toModel.unpack).unpack = x.toModel.unpack := by
  cases hu : x.toModel.unpack with
  | notANumber => rfl
  | infinity s => exact unpack_pack_infinity s
  | zero s => exact unpack_pack_zero s
  | finite s m e hm => exact unpack_pack (canonical_unpack hu)

theorem unpack_sub (x y : Float) :
    x - y = .ofModel (.pack (UnpackedFloat.sub Format.binary64 x.toModel.unpack
      y.toModel.unpack)) :=
  rfl

theorem unpack_abs (x : Float) : x.abs = .ofModel (.pack x.toModel.unpack.abs) := rfl

protected theorem add_comm (x y : Float) : x + y = y + x := by
  rw [unpack_add, unpack_add]
  congr 2
  generalize x.toModel.unpack = u
  generalize y.toModel.unpack = v
  cases u with
  | notANumber => cases v <;> rfl
  | infinity s =>
    cases v with
    | infinity s' => cases s <;> cases s' <;> rfl
    | notANumber => rfl
    | zero s' => rfl
    | finite s' m' e' hm' => rfl
  | zero s =>
    cases v with
    | zero s' => cases s <;> cases s' <;> rfl
    | notANumber => rfl
    | infinity s' => rfl
    | finite s' m' e' hm' => rfl
  | finite s m e hm =>
    cases v with
    | finite s' m' e' hm' =>
      unfold UnpackedFloat.add
      simp only [min_comm e e', Int.add_comm]
    | notANumber => rfl
    | infinity s' => rfl
    | zero s' => rfl

theorem sub_self_side (x : Float) : side (x - x) ≠ some .gt := by
  rw [unpack_sub]
  unfold side
  change (Float.Model.pack _).unpack.compare _ ≠ _
  generalize x.toModel.unpack = u
  cases u with
  | notANumber => exact (Option.some_ne_none _).symm
  | infinity s => cases s <;> exact (Option.some_ne_none _).symm
  | zero s => cases s <;> exact fun h => Ordering.noConfusion (Option.some.inj h)
  | finite s m e hm =>
    unfold UnpackedFloat.sub UnpackedFloat.normalize
    simp only [sub_self, compare_eq_iff_eq.mpr (rfl : (0 : ℤ) = 0)]
    exact fun h => Ordering.noConfusion (Option.some.inj h)

/-- Zero plus a double unpacks as the double does, but for the sign of a zero. -/
theorem unpack_zero_add (x : Float) : (0 + x).toModel.unpack = x.toModel.unpack ∨
    ∃ s, x.toModel.unpack = .zero s := by
  have hunpack : (0 + x).toModel.unpack = (Float.Model.pack (UnpackedFloat.add Format.binary64
    (.zero .positive) x.toModel.unpack)).unpack := rfl
  have hagain := unpack_pack_unpack x
  rw [hunpack]
  cases hu : x.toModel.unpack with
  | zero s => exact .inr ⟨s, rfl⟩
  | notANumber => exact .inl rfl
  | infinity s =>
    rw [hu] at hagain
    exact .inl hagain
  | finite s m e hm =>
    rw [hu] at hagain
    exact .inl hagain

theorem side_zero_add (x : Float) (h : side (0 + x) = some .eq) : side x = some .eq := by
  obtain hsame | ⟨s, hzero⟩ := unpack_zero_add x
  · unfold side at h ⊢
    rwa [← hsame]
  · unfold side
    rw [hzero]
    rfl

protected theorem zero_add (h : 0 < x) : 0 + x = x := by
  obtain ⟨hnan, hpos⟩ := rank_pos h
  have hrank := ranked hnan
  refine eq_of_beq_pos ?_ h
  change (UnpackedFloat.compare _ _ == _) = _
  obtain hsame | ⟨s, hzero⟩ := unpack_zero_add x
  · rw [hsame, hrank.compare hrank, compare_eq_iff_eq.mpr rfl]
    rfl
  · rw [hzero] at hrank
    generalize rank x = r at hpos hrank
    cases hrank
    exact absurd hpos (lt_irrefl 0)

/-! ## Finite results -/

theorem isFinite_pack {u : UnpackedFloat} (h : (Float.Model.pack u).unpack.isFinite = true) :
    u.isFinite = true := by
  cases u with
  | notANumber => exact h
  | infinity s =>
    rw [unpack_pack_infinity] at h
    exact h
  | zero s => rfl
  | finite s m e hm => rfl

/-- An operation that no operand makes finite again. -/
def Strict (op : UnpackedFloat → UnpackedFloat → UnpackedFloat) : Prop :=
  ∀ u v, u.isFinite = false ∨ v.isFinite = false → (op u v).isFinite = false

theorem Strict.finite {op : UnpackedFloat → UnpackedFloat → UnpackedFloat} (hop : Strict op)
    (h : (Float.ofModel (.pack (op x.toModel.unpack y.toModel.unpack))).isFinite = true) :
    x.isFinite = true ∧ y.isFinite = true := by
  have hresult := isFinite_pack h
  constructor
  · by_contra hx
    rw [hop _ _ (.inl (Bool.not_eq_true _ ▸ hx))] at hresult
    cases hresult
  · by_contra hy
    rw [hop _ _ (.inr (Bool.not_eq_true _ ▸ hy))] at hresult
    cases hresult

theorem strict_add : Strict (UnpackedFloat.add Format.binary64) := by
  intro u v h
  cases u with
  | notANumber => rfl
  | infinity s =>
    cases v with
    | infinity s' => cases s <;> cases s' <;> rfl
    | _ => rfl
  | _ =>
    cases v with
    | notANumber => rfl
    | infinity s' => rfl
    | _ => rcases h with h | h <;> cases h

theorem strict_sub : Strict (UnpackedFloat.sub Format.binary64) := by
  intro u v h
  cases u with
  | notANumber => rfl
  | infinity s =>
    cases v with
    | infinity s' => cases s <;> cases s' <;> rfl
    | _ => rfl
  | _ =>
    cases v with
    | notANumber => rfl
    | infinity s' => rfl
    | _ => rcases h with h | h <;> cases h

theorem strict_mul : Strict (UnpackedFloat.mul Format.binary64) := by
  intro u v h
  cases u with
  | notANumber => rfl
  | infinity s => cases v <;> rfl
  | _ =>
    cases v with
    | notANumber => rfl
    | infinity s' => rfl
    | _ => rcases h with h | h <;> cases h

/-! ## Signs of results -/

theorem side_abs (x : Float) : side x.abs ≠ some .lt := by
  rw [unpack_abs]
  unfold side
  change (Float.Model.pack _).unpack.compare _ ≠ _
  cases hu : x.toModel.unpack with
  | notANumber => exact (Option.some_ne_none _).symm
  | infinity s =>
    unfold UnpackedFloat.abs
    rw [unpack_pack_infinity]
    exact fun h => Ordering.noConfusion (Option.some.inj h)
  | zero s =>
    unfold UnpackedFloat.abs
    rw [unpack_pack_zero]
    exact fun h => Ordering.noConfusion (Option.some.inj h)
  | finite s m e hm =>
    unfold UnpackedFloat.abs
    rw [unpack_pack (canonical_unpack hu)]
    exact fun h => Ordering.noConfusion (Option.some.inj h)

/-- A rounded number that is not negative lies so. -/
theorem side_rounded {u : UnpackedFloat} {q : ℚ} (h : Rounded .positive u q) :
    side (.ofModel (.pack u)) = some .gt ∨ side (.ofModel (.pack u)) = some .eq ∧ q = 0 := by
  have hpack := unpack_rounded h
  unfold side
  change (Float.Model.pack u).unpack.compare _ = _ ∨ (Float.Model.pack u).unpack.compare _ = _ ∧ _
  cases h with
  | zero => exact .inr ⟨rfl, rfl⟩
  | finite pos lt least normal =>
    refine .inl ?_
    obtain hsame | hinfinite := hpack
    · rw [hsame]
      rfl
    · rw [hinfinite]
      rfl

theorem apply_shifted (s : Sign) {m : ℕ} {e t : ℤ} (h : t ≤ e) :
    ((s.apply (decreaseExponent m e t).1 : ℤ) : ℚ) * 2 ^ t = (s.apply m : ℤ) * 2 ^ e := by
  unfold decreaseExponent
  dsimp only
  rw [Nat.shiftLeft_eq]
  have hk := Int.toNat_of_nonneg (sub_nonneg.mpr h)
  generalize (e - t).toNat = k at hk
  have he : e = k + t := by omega
  rw [he, zpow_add₀ two_ne_zero, zpow_natCast]
  cases s with
  | positive =>
    change (((m * 2 ^ k : ℕ) : ℤ) : ℚ) * _ = ((m : ℤ) : ℚ) * _
    push_cast
    ring
  | negative =>
    change ((-((m * 2 ^ k : ℕ) : ℤ) : ℤ) : ℚ) * _ = ((-(m : ℤ) : ℤ) : ℚ) * _
    push_cast
    ring

/-- A whole mantissa that is not negative normalizes to a double that is not. -/
theorem side_normalize {n : ℤ} (t : ℤ) (hn : 0 ≤ n) :
    side (.ofModel (.pack (UnpackedFloat.normalize Format.binary64 n t .positive))) = some .gt ∨
      side (.ofModel (.pack (UnpackedFloat.normalize Format.binary64 n t .positive)))
        = some .eq := by
  obtain rfl | hpos := hn.eq_or_lt
  · refine .inr ?_
    unfold UnpackedFloat.normalize side
    simp only [compare_eq_iff_eq.mpr (rfl : (0 : ℤ) = 0), unpack_pack_zero]
    rfl
  · lift n to ℕ using hn
    obtain hgt | ⟨heq, -⟩ := side_rounded (normalize_rounded t .positive (by exact_mod_cast hpos))
    · exact .inl hgt
    · exact .inr heq

variable {m m' : ℕ} {e e' : ℤ}

/-- Nothing that a number of the format is below rounds to zero. -/
theorem nearest_pos (h : Canonical m e) {q : ℚ} (hle : m * 2 ^ e ≤ q) : 0 < Nearest.nearest q := by
  have hpos : (0 : ℚ) < m * 2 ^ e := mul_pos (by exact_mod_cast h.pos) (zpow_pos two_pos e)
  have herror := Nearest.nearest_error_le (hpos.le.trans hle) h.lt h.least
  rw [abs_of_nonpos (sub_nonpos.mpr hle)] at herror
  have hlow := (abs_le.mp herror).1
  linarith

theorem value_le {s s' : Sign} {hm : 0 < m} {hm' : 0 < m'} {r t : ℤ}
    (hr : Ranked (.finite s m e hm) r) (ht : Ranked (.finite s' m' e' hm') t) (hle : t ≤ r) :
    ((s'.apply m' : ℤ) : ℚ) * 2 ^ e' ≤ (s.apply m : ℤ) * 2 ^ e := by
  have hpos : (0 : ℚ) ≤ m * 2 ^ e := mul_nonneg (Nat.cast_nonneg _) (zpow_nonneg zero_le_two _)
  have hpos' : (0 : ℚ) ≤ m' * 2 ^ e' := mul_nonneg (Nat.cast_nonneg _) (zpow_nonneg zero_le_two _)
  cases hr with
  | finite h =>
    cases ht with
    | finite h' => exact scaled_le h' h hle
    | negFinite h' =>
      change ((-(m' : ℤ) : ℤ) : ℚ) * _ ≤ ((m : ℤ) : ℚ) * _
      push_cast
      linarith
  | negFinite h =>
    cases ht with
    | finite h' =>
      have := h.magnitude_pos
      have := h'.magnitude_pos
      omega
    | negFinite h' =>
      have hscaled := scaled_le h h' (by omega)
      change ((-(m' : ℤ) : ℤ) : ℚ) * _ ≤ ((-(m : ℤ) : ℤ) : ℚ) * _
      push_cast
      linarith

theorem side_infinity : side (.ofModel (.pack (.infinity .positive))) = some .gt := rfl

theorem side_finite (h : Canonical m e) :
    side (.ofModel (.pack (.finite .positive m e h.pos))) = some .gt := by
  unfold side
  simp only [unpack_pack h]
  rfl

theorem side_finite_add (h : Canonical m e) (h' : Canonical m' e') :
    side (.ofModel (.pack (UnpackedFloat.add Format.binary64 (.finite .positive m e h.pos)
      (.finite .positive m' e' h'.pos)))) = some .gt := by
  have hsum := apply_shifted .positive (m := m) (min_le_left e e')
  have hsum' := apply_shifted .positive (m := m') (min_le_right e e')
  unfold UnpackedFloat.add
  dsimp only
  generalize (decreaseExponent m e (min e e')).1 = n at hsum
  generalize (decreaseExponent m' e' (min e e')).1 = n' at hsum'
  change ((n : ℤ) : ℚ) * _ = ((m : ℤ) : ℚ) * _ at hsum
  change ((n' : ℤ) : ℚ) * _ = ((m' : ℤ) : ℚ) * _ at hsum'
  push_cast at hsum hsum'
  have hpos' : (0 : ℚ) ≤ m' * 2 ^ e' := mul_nonneg (Nat.cast_nonneg _) (zpow_nonneg zero_le_two _)
  have hnearest : 0 < Nearest.nearest ((n + n' : ℕ) * 2 ^ min e e') := by
    refine nearest_pos h ?_
    push_cast
    linarith
  have hn : 0 < n + n' := by
    by_contra hzero
    rw [Nat.eq_zero_of_not_pos hzero, Nat.cast_zero, zero_mul, Nearest.nearest_zero] at hnearest
    exact lt_irrefl 0 hnearest
  obtain hgt | ⟨-, hzero⟩ := side_rounded (normalize_rounded (min e e') .positive hn)
  · exact hgt
  · exact absurd hzero hnearest.ne'

theorem side_finite_sub {s s' : Sign} {hm : 0 < m} {hm' : 0 < m'} {r t : ℤ}
    (hr : Ranked (.finite s m e hm) r) (ht : Ranked (.finite s' m' e' hm') t) (hle : t ≤ r) :
    0 ≤ Float.ofModel (.pack (UnpackedFloat.sub Format.binary64 (.finite s m e hm)
      (.finite s' m' e' hm'))) := by
  have hvalue := value_le hr ht hle
  rw [← apply_shifted s (min_le_left e e'), ← apply_shifted s' (min_le_right e e')] at hvalue
  have hn := le_of_mul_le_mul_right hvalue (zpow_pos two_pos _)
  exact zero_le_iff.mpr (side_normalize _ (sub_nonneg.mpr (by exact_mod_cast hn)))

/-- What a double above zero unpacks to. -/
theorem unpack_of_pos (h : 0 < x) : x.toModel.unpack = .infinity .positive ∨
    ∃ m e, ∃ hc : Canonical m e, x.toModel.unpack = .finite .positive m e hc.pos := by
  have hside := zero_lt_iff.mp h
  unfold side at hside
  cases hu : x.toModel.unpack with
  | notANumber => rw [hu] at hside; cases hside
  | zero s => rw [hu] at hside; cases hside
  | infinity s =>
    rw [hu] at hside
    cases s with
    | negative => cases hside
    | positive => exact .inl rfl
  | finite s m e hm =>
    rw [hu] at hside
    cases s with
    | negative => cases hside
    | positive => exact .inr ⟨m, e, canonical_unpack hu, rfl⟩

theorem unpack_of_beq (h : side x = some .eq) : ∃ s, x.toModel.unpack = .zero s := by
  unfold side at h
  cases hu : x.toModel.unpack with
  | notANumber => rw [hu] at h; cases h
  | zero s => exact ⟨s, rfl⟩
  | infinity s => rw [hu] at h; cases s <;> cases h
  | finite s m e hm => rw [hu] at h; cases s <;> cases h

protected theorem add_pos (ha : 0 ≤ x) (hb : 0 < y) : 0 < x + y := by
  rw [zero_lt_iff, unpack_add]
  have hy := unpack_of_pos hb
  obtain hpos | hzero := zero_le_iff.mp ha
  · obtain hu | ⟨m, e, hc, hu⟩ := unpack_of_pos (zero_lt_iff.mpr hpos)
    · obtain hv | ⟨m', e', hc', hv⟩ := hy
      · rw [hu, hv]
        exact side_infinity
      · rw [hu, hv]
        exact side_infinity
    · obtain hv | ⟨m', e', hc', hv⟩ := hy
      · rw [hu, hv]
        exact side_infinity
      · rw [hu, hv]
        exact side_finite_add hc hc'
  · obtain ⟨s, hu⟩ := unpack_of_beq hzero
    obtain hv | ⟨m', e', hc', hv⟩ := hy
    · rw [hu, hv]
      exact side_infinity
    · rw [hu, hv]
      exact side_finite hc'

/-- A difference of ordered doubles is not negative. -/
protected theorem sub_nonneg (hx : x.isFinite = true) (hy : y.isFinite = true) (h : ¬y < x) :
    0 ≤ y - x := by
  have hrank := ranked (isNaN_of_isFinite hx)
  have hrank' := ranked (isNaN_of_isFinite hy)
  have hle := not_lt.mp (mt (lt_iff (isNaN_of_isFinite hy) (isNaN_of_isFinite hx)).mpr h)
  change x.toModel.unpack.isFinite = true at hx
  change y.toModel.unpack.isFinite = true at hy
  rw [unpack_sub]
  rw [lt_def] at h
  generalize rank x = t at hrank hle
  generalize rank y = r at hrank' hle
  cases hv : y.toModel.unpack with
  | notANumber => rw [hv] at hy; cases hy
  | infinity s => rw [hv] at hy; cases hy
  | zero s =>
    cases hu : x.toModel.unpack with
    | notANumber => rw [hu] at hx; cases hx
    | infinity s' => rw [hu] at hx; cases hx
    | zero s' => cases s <;> cases s' <;> exact zero_le_iff.mpr (.inr rfl)
    | finite s' m e hm =>
      rw [hv, hu] at h
      cases s' with
      | positive => exact absurd rfl h
      | negative => exact zero_le_iff.mpr (.inl (side_finite (canonical_unpack hu)))
  | finite s m e hm =>
    cases hu : x.toModel.unpack with
    | notANumber => rw [hu] at hx; cases hx
    | infinity s' => rw [hu] at hx; cases hx
    | zero s' =>
      rw [hv, hu] at h
      cases s with
      | positive => exact zero_le_iff.mpr (.inl (side_finite (canonical_unpack hv)))
      | negative => exact absurd rfl h
    | finite s' m' e' hm' =>
      rw [hv] at hrank'
      rw [hu] at hrank
      exact side_finite_sub hrank' hrank hle

theorem not_pos_of_beq (h : (x == 0) = true) : ¬0 < x := by
  rw [zero_lt_iff, beq_zero_iff.mp h]
  decide

theorem beq_of_not_le (h : ¬x ≤ 0) : (x == 0) = false := by
  by_contra hbeq
  exact h (le_zero_iff.mpr (.inr (beq_zero_iff.mp (Bool.not_eq_false _ ▸ hbeq))))

theorem pos_of_nonneg (h : 0 ≤ x) (hne : (x == 0) = false) : 0 < x := by
  obtain hpos | hzero := zero_le_iff.mp h
  · exact zero_lt_iff.mpr hpos
  · rw [beq_zero_iff.mpr hzero] at hne
    cases hne

theorem side_cases (h : x.isFinite = true) :
    side x = some .lt ∨ side x = some .eq ∨ side x = some .gt := by
  cases hside : side x with
  | none => exact absurd hside (side_of_isFinite h)
  | some o => cases o <;> simp

theorem not_le_of_pos (h : 0 < x) : ¬x ≤ 0 := by
  rw [le_zero_iff, zero_lt_iff.mp h]
  decide

theorem nonneg_of_not_neg (hx : x.isFinite = true) (h : ¬x < 0) : 0 ≤ x := by
  obtain hlt | hrest := side_cases hx
  · exact absurd (lt_zero_iff.mpr hlt) h
  · exact zero_le_iff.mpr hrest.symm

theorem pos_of_not_le (hx : x.isFinite = true) (h : ¬x ≤ 0) : 0 < x := by
  obtain hlt | heq | hgt := side_cases hx
  · exact absurd (le_zero_iff.mpr (.inl hlt)) h
  · exact absurd (le_zero_iff.mpr (.inr heq)) h
  · exact zero_lt_iff.mpr hgt

end Binary64

open Binary64 in
instance : Arith.Lawful Float where
  zero_beq := beq_zero_iff.mpr rfl
  not_pos_of_beq := not_pos_of_beq
  beq_of_not_le := beq_of_not_le
  sub_self_not_pos x := mt zero_lt_iff.mp (sub_self_side x)
  zero_add_beq h := beq_zero_iff.mpr (side_zero_add _ (beq_zero_iff.mp h))
  add_comm := Binary64.add_comm
  zero_add := Binary64.zero_add
  finite_of_add := strict_add.finite
  finite_of_sub := strict_sub.finite
  finite_of_mul := strict_mul.finite
  finite_zero := rfl
  not_finite_nan _ := rfl
  zero_le_zero := zero_le_iff.mpr (.inr rfl)
  le_of_pos h := zero_le_iff.mpr (.inl (zero_lt_iff.mp h))
  pos_of_nonneg := pos_of_nonneg
  nonneg_of_not_neg := nonneg_of_not_neg
  pos_of_not_le := pos_of_not_le
  not_le_of_pos := not_le_of_pos
  not_abs_neg x := mt lt_zero_iff.mp (side_abs x)
  add_pos := Binary64.add_pos
  sub_nonneg := Binary64.sub_nonneg

end PineForge
