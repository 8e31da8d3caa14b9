import Mathlib.Algebra.Order.Field.Basic
import Mathlib.Data.Prod.Lex
import Mathlib.Order.Bounds.Basic
import Mathlib.Tactic.Linarith
import Mathlib.Tactic.LinearCombination

/-!
  Piecewise linear paths and the points at which they are first somewhere.

  A path is a list of legs: prints that stand alone and linear segments. A
  place on it is a leg's index with a fraction of the leg, and places are
  ordered lexicographically, so "the first place in `S`" is `IsLeast S`. The
  legs may be joined by jumps. The lemmas take a set of places apart into its
  part on the head leg and its part on the rest, which is how an induction
  over the legs finds a first place.
-/

namespace PineForge.Path

/-- A place on a path: the leg's index, then the fraction of the leg. -/
abbrev Place (K : Type*) := ℕ ×ₗ K

variable {K : Type*}

/-- The place `t` of the `i`-th leg. -/
def place (i : ℕ) (t : K) : Place K := toLex (i, t)

/-- The same place once a leg has been put before the path. -/
def later (q : Place K) : Place K := place ((ofLex q).1 + 1) (ofLex q).2

@[simp] theorem place_inj {i j : ℕ} {t u : K} : place i t = place j u ↔ i = j ∧ t = u := by
  simp [place]

@[simp] theorem later_place (i : ℕ) (t : K) : later (place i t) = place (i + 1) t := rfl

@[simp] theorem place_ofLex (q : Place K) : place (ofLex q).1 (ofLex q).2 = q := rfl

theorem place_cases (q : Place K) : (∃ t, q = place 0 t) ∨ ∃ r, q = later r := by
  obtain ⟨i, t⟩ := q
  cases i with
  | zero => exact .inl ⟨t, rfl⟩
  | succ i => exact .inr ⟨place i t, rfl⟩

/-! ## Sets of places, leg by leg -/

/-- The part of a set of places on the head leg. -/
def onHead (S : Set (Place K)) : Set K := {t | place 0 t ∈ S}

/-- The part of a set of places on the legs after the head. -/
def onRest (S : Set (Place K)) : Set (Place K) := {q | later q ∈ S}

theorem eq_empty_of_parts {S : Set (Place K)} (he : onHead S = ∅) (hr : onRest S = ∅) :
    S = ∅ := by
  refine Set.eq_empty_of_forall_notMem fun q hq => ?_
  obtain ⟨u, rfl⟩ | ⟨r, rfl⟩ := place_cases q
  · exact absurd (show u ∈ onHead S from hq) (by simp [he])
  · exact absurd (show r ∈ onRest S from hq) (by simp [hr])

section Order

variable [LinearOrder K] {S : Set (Place K)}

@[simp] theorem place_le_place {i j : ℕ} {t u : K} :
    place i t ≤ place j u ↔ i < j ∨ i = j ∧ t ≤ u :=
  Prod.Lex.toLex_le_toLex

@[simp] theorem place_lt_place {i j : ℕ} {t u : K} :
    place i t < place j u ↔ i < j ∨ i = j ∧ t < u :=
  Prod.Lex.toLex_lt_toLex

@[simp] theorem later_le_later {q r : Place K} : later q ≤ later r ↔ q ≤ r := by
  obtain ⟨i, t⟩ := q
  obtain ⟨j, u⟩ := r
  change place (i + 1) t ≤ place (j + 1) u ↔ place i t ≤ place j u
  simp

@[simp] theorem later_lt_later {q r : Place K} : later q < later r ↔ q < r := by
  rw [← not_le, ← not_le, later_le_later]

theorem head_lt_later (t : K) (q : Place K) : place 0 t < later q := by
  simp [later]

theorem head_le_later (t : K) (q : Place K) : place 0 t ≤ later q := (head_lt_later t q).le

theorem not_later_le_head (t : K) (q : Place K) : ¬ later q ≤ place 0 t :=
  not_le.mpr (head_lt_later t q)

theorem isLeast_of_head {t : K} (h : IsLeast (onHead S) t) : IsLeast S (place 0 t) := by
  refine ⟨h.1, fun q hq => ?_⟩
  obtain ⟨u, rfl⟩ | ⟨r, rfl⟩ := place_cases q
  · exact place_le_place.mpr (.inr ⟨rfl, h.2 hq⟩)
  · exact head_le_later t r

theorem isLeast_of_rest {r : Place K} (he : onHead S = ∅) (h : IsLeast (onRest S) r) :
    IsLeast S (later r) := by
  refine ⟨h.1, fun q hq => ?_⟩
  obtain ⟨u, rfl⟩ | ⟨q, rfl⟩ := place_cases q
  · exact absurd (show u ∈ onHead S from hq) (by simp [he])
  · exact later_le_later.mpr (h.2 hq)

theorem isGLB_of_head {t : K} (hn : (onHead S).Nonempty) (h : IsGLB (onHead S) t) :
    IsGLB S (place 0 t) := by
  refine ⟨fun q hq => ?_, fun q hq => ?_⟩
  · obtain ⟨u, rfl⟩ | ⟨r, rfl⟩ := place_cases q
    · exact place_le_place.mpr (.inr ⟨rfl, h.1 hq⟩)
    · exact head_le_later t r
  · obtain ⟨u, rfl⟩ | ⟨r, rfl⟩ := place_cases q
    · refine place_le_place.mpr (.inr ⟨rfl, h.2 fun v hv => ?_⟩)
      simpa using hq hv
    · obtain ⟨v, hv⟩ := hn
      exact absurd (hq hv) (not_later_le_head v r)

theorem isGLB_of_rest {r : Place K} (he : onHead S = ∅) (h : IsGLB (onRest S) r) :
    IsGLB S (later r) := by
  refine ⟨fun q hq => ?_, fun q hq => ?_⟩
  · obtain ⟨u, rfl⟩ | ⟨q, rfl⟩ := place_cases q
    · exact absurd (show u ∈ onHead S from hq) (by simp [he])
    · exact later_le_later.mpr (h.1 hq)
  · obtain ⟨u, rfl⟩ | ⟨q, rfl⟩ := place_cases q
    · exact head_le_later u r
    · exact later_le_later.mpr (h.2 fun v hv => later_le_later.mp (hq hv))

end Order

/-! ## Legs and the price along them -/

/-- A print that stands alone, or a linear move. -/
inductive Leg (K : Type*) where
  | point (price : K)
  | segment (start stop : K)
  deriving DecidableEq, Repr

namespace Leg

/-- The price the leg starts from. -/
def start : Leg K → K
  | point p => p
  | segment a _ => a

/-- The price the leg ends at. -/
def stop : Leg K → K
  | point p => p
  | segment _ b => b

/-- Whether the leg moves through its fractions. -/
def continuous : Leg K → Bool
  | point _ => false
  | segment _ _ => true

@[simp] theorem start_point (p : K) : (point p).start = p := rfl

@[simp] theorem stop_point (p : K) : (point p).stop = p := rfl

@[simp] theorem start_segment (a b : K) : (segment a b).start = a := rfl

@[simp] theorem stop_segment (a b : K) : (segment a b).stop = b := rfl

@[simp] theorem continuous_point (p : K) : (point p).continuous = false := rfl

@[simp] theorem continuous_segment (a b : K) : (segment a b).continuous = true := rfl

variable [Field K]

/-- The price at a fraction of the leg. -/
def price (leg : Leg K) (t : K) : K := leg.start + t * (leg.stop - leg.start)

@[simp] theorem price_zero (leg : Leg K) : leg.price 0 = leg.start := by
  simp [price]

@[simp] theorem price_one (leg : Leg K) : leg.price 1 = leg.stop := by
  simp [price]

theorem price_of_flat {leg : Leg K} (h : leg.start = leg.stop) (t : K) :
    leg.price t = leg.start := by
  simp [price, h]

variable [LinearOrder K]

/-- The fractions of a leg: the whole unit interval of a segment, and the start
of a print. -/
def Has : Leg K → K → Prop
  | point _, t => t = 0
  | segment _ _, t => 0 ≤ t ∧ t ≤ 1

@[simp] theorem has_point {p t : K} : (point p).Has t ↔ t = 0 := Iff.rfl

@[simp] theorem has_segment {a b t : K} : (segment a b).Has t ↔ 0 ≤ t ∧ t ≤ 1 := Iff.rfl

theorem Has.nonneg {leg : Leg K} {t : K} (h : leg.Has t) : 0 ≤ t := by
  cases leg with
  | point p => exact ge_of_eq h
  | segment a b => exact h.1

variable [IsStrictOrderedRing K]

@[simp] theorem has_zero (leg : Leg K) : leg.Has 0 := by
  cases leg <;> simp

theorem Has.le_one {leg : Leg K} {t : K} (h : leg.Has t) : t ≤ 1 := by
  cases leg with
  | point p => exact (le_of_eq h).trans zero_le_one
  | segment a b => exact h.2

theorem price_between (leg : Leg K) {t u v : K} (htu : t ≤ u) (huv : u ≤ v) :
    (leg.price t ≤ leg.price u ∧ leg.price u ≤ leg.price v) ∨
      (leg.price v ≤ leg.price u ∧ leg.price u ≤ leg.price t) := by
  unfold price
  rcases le_total 0 (leg.stop - leg.start) with h | h
  · exact .inl ⟨by nlinarith, by nlinarith⟩
  · exact .inr ⟨by nlinarith, by nlinarith⟩

/-! ### Where a leg's line stands at a level -/

/-- The fraction at which the line of a moving leg stands at a level. -/
def crossing (leg : Leg K) (level : K) : K := (level - leg.start) / (leg.stop - leg.start)

section Crossing

variable {leg : Leg K} (hm : leg.start ≠ leg.stop) {level t : K}

include hm

omit [LinearOrder K] [IsStrictOrderedRing K] in
theorem price_sub_level :
    leg.price t - level = (t - leg.crossing level) * (leg.stop - leg.start) := by
  have hd : leg.stop - leg.start ≠ 0 := sub_ne_zero.mpr hm.symm
  have hc : leg.crossing level * (leg.stop - leg.start) = level - leg.start :=
    div_mul_cancel₀ _ hd
  unfold price
  linear_combination hc

omit [LinearOrder K] [IsStrictOrderedRing K] in
theorem price_eq_level : leg.price t = level ↔ t = leg.crossing level := by
  rw [← sub_eq_zero, price_sub_level hm, mul_eq_zero, or_iff_left (sub_ne_zero.mpr hm.symm),
    sub_eq_zero]

/-- A line is below a level before crossing it upwards and after crossing it
downwards. -/
theorem price_lt_level : leg.price t < level ↔
    (t < leg.crossing level ∧ leg.start < leg.stop) ∨
      (leg.crossing level < t ∧ leg.stop < leg.start) := by
  rw [← sub_neg, price_sub_level hm, mul_neg_iff, sub_neg, sub_neg, sub_pos, sub_pos]
  exact or_comm

theorem level_lt_price : level < leg.price t ↔
    (t < leg.crossing level ∧ leg.stop < leg.start) ∨
      (leg.crossing level < t ∧ leg.start < leg.stop) := by
  rw [← sub_pos, price_sub_level hm, mul_pos_iff, sub_neg, sub_neg, sub_pos, sub_pos]
  exact or_comm

end Crossing

end Leg

/-! ## Paths -/

section Points

variable [Field K]

/-- The price at a place of a path. -/
def priceAt (legs : List (Leg K)) (q : Place K) : K :=
  (legs[(ofLex q).1]?).elim 0 (·.price (ofLex q).2)

/-- The first place of a path. -/
def origin : Place K := place 0 0

variable (leg : Leg K) (legs : List (Leg K))

@[simp] theorem priceAt_head (t : K) : priceAt (leg :: legs) (place 0 t) = leg.price t := by
  simp [priceAt, place]

@[simp] theorem priceAt_later (q : Place K) :
    priceAt (leg :: legs) (later q) = priceAt legs q := by
  simp [priceAt, later, place]

variable [LinearOrder K]

/-- The places of a path. -/
def points : Set (Place K) :=
  {q | ∃ leg, legs[(ofLex q).1]? = some leg ∧ leg.Has (ofLex q).2}

@[simp] theorem not_mem_points_nil (q : Place K) : q ∉ points ([] : List (Leg K)) := by
  simp [points]

@[simp] theorem head_mem_points {t : K} : place 0 t ∈ points (leg :: legs) ↔ leg.Has t := by
  simp [points, place]

@[simp] theorem later_mem_points {q : Place K} :
    later q ∈ points (leg :: legs) ↔ q ∈ points legs := by
  simp [points, later, place]

theorem origin_le {q : Place K} (h : q ∈ points legs) : origin ≤ q := by
  obtain ⟨leg, _, hq⟩ := h
  obtain ⟨i, t⟩ := q
  change place 0 0 ≤ place i t
  rcases Nat.eq_zero_or_pos i with rfl | hi
  · exact place_le_place.mpr (.inr ⟨rfl, hq.nonneg⟩)
  · exact place_le_place.mpr (.inl hi)

/-- The places from `start` on whose price lies in `R`. -/
def reach (start : Place K) (R : K → Prop) : Set (Place K) :=
  {q | q ∈ points legs ∧ start ≤ q ∧ R (priceAt legs q)}

variable {leg legs} {R : K → Prop} {t₀ : K}

theorem onHead_reach :
    onHead (reach (leg :: legs) (place 0 t₀) R) = {t | leg.Has t ∧ t₀ ≤ t ∧ R (leg.price t)} := by
  ext t
  change place 0 t ∈ points (leg :: legs) ∧ place 0 t₀ ≤ place 0 t ∧
    R (priceAt (leg :: legs) (place 0 t)) ↔ leg.Has t ∧ t₀ ≤ t ∧ R (leg.price t)
  simp

theorem onRest_reach :
    onRest (reach (leg :: legs) (place 0 t₀) R) = reach legs origin R := by
  ext q
  change later q ∈ points (leg :: legs) ∧ place 0 t₀ ≤ later q ∧
    R (priceAt (leg :: legs) (later q)) ↔ q ∈ points legs ∧ origin ≤ q ∧ R (priceAt legs q)
  rw [later_mem_points, priceAt_later]
  constructor
  · rintro ⟨hq, _, hR⟩
    exact ⟨hq, origin_le legs hq, hR⟩
  · rintro ⟨hq, _, hR⟩
    exact ⟨hq, head_le_later t₀ q, hR⟩

end Points

end PineForge.Path
