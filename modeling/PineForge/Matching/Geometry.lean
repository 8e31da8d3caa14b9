import PineForge.Path.Linear
import Mathlib.Data.Rat.Lemmas
import Mathlib.Algebra.Order.Field.Rat
import Mathlib.Tactic.Linarith

/-!
  The matcher's geometry (`native_matching.hpp`): where the rest of a linear
  segment enters a closed price region, and where a trailing stop is hit.

  Prices and path fractions are read as exact rationals, every one of them
  finite, and the run has no price grid: the threshold of a region is its
  level, a reached print is the price itself, and a trailing stop is the plain
  difference.
-/

namespace PineForge.Matching

open PineForge.Path

/-! ## The functions -/

/-- A place on a segment: its fraction, the price there, and whether the price
is the level that was crossed. -/
structure GeometricHit where
  t : ℚ
  price : ℚ
  atLevel : Bool := false
  deriving DecidableEq, Repr

/-- `price_at`. -/
def priceAt (fromPrice toPrice t : ℚ) : ℚ :=
  if t = 0 then fromPrice
  else if t = 1 then toPrice
  else fromPrice + t * (toPrice - fromPrice)

/-- `t_for_price`. -/
def tForPrice (fromPrice toPrice price : ℚ) : Option ℚ :=
  if toPrice - fromPrice = 0 then
    if price = fromPrice then some 0 else none
  else some ((price - fromPrice) / (toPrice - fromPrice))

/-- `in_region`: at or below the level when `le`, at or above it otherwise. -/
def inRegion (price level : ℚ) (le : Bool) : Prop :=
  if le then price ≤ level else level ≤ price

instance (price level : ℚ) (le : Bool) : Decidable (inRegion price level le) :=
  inferInstanceAs (Decidable (if le then price ≤ level else level ≤ price))

/-- `first_region_entry`: the cursor itself when it is already inside and may
count, else the later crossing of the level. -/
def firstRegionEntry (fromPrice toPrice : ℚ) (start : GeometricHit) (level : ℚ) (le : Bool)
    (includeCurrent : Bool) : Option GeometricHit :=
  if start.t < 0 ∨ 1 < start.t then none
  else if includeCurrent = true ∧ inRegion start.price level le then
    some ⟨start.t, start.price, false⟩
  else if fromPrice = toPrice then none
  else match tForPrice fromPrice toPrice level with
    | none => none
    | some tCross =>
      if ¬ start.t < tCross ∨ 1 < tCross then none
      else if ¬ inRegion (priceAt fromPrice toPrice tCross) level le ∧
          ¬ inRegion level level le then none
      else some ⟨tCross, level, true⟩

/-- `checked_trail_stop`: the stop `offset` behind the best, strictly beyond it
unless the offset is zero. -/
def checkedTrailStop (best offset : ℚ) (buy : Bool) : Option ℚ :=
  if offset < 0 then none
  else
    let stop := if buy then best + offset else best - offset
    if offset ≠ 0 ∧ ¬ (if buy then best < stop else stop < best) then none
    else some stop

/-- `trail_best_improves`. -/
def trailBestImproves (best price : ℚ) (buy : Bool) : Bool :=
  if buy then price < best else best < price

/-- A price strictly on the adverse side of a best. -/
def past (best price : ℚ) (buy : Bool) : Prop := if buy then best < price else price < best

instance (best price : ℚ) (buy : Bool) : Decidable (past best price buy) :=
  inferInstanceAs (Decidable (if buy then best < price else price < best))

/-- `trail_zero_stop_hit`: only a move strictly past the best exits. -/
def trailZeroStopHit (fromPrice toPrice : ℚ) (start : GeometricHit) (best : ℚ) (buy : Bool) :
    Option GeometricHit :=
  if start.t < 0 ∨ 1 < start.t then none
  else if past best start.price buy then
    some ⟨start.t, start.price, false⟩
  else if fromPrice = toPrice then none
  else if ¬ past best toPrice buy then none
  else match tForPrice fromPrice toPrice best with
    | none => none
    | some tLevel =>
      let tHit := if start.t < tLevel then tLevel else start.t
      if 1 < tHit then none else some ⟨tHit, best, true⟩

/-- `trail_stop_hit`: the remaining suffix against a frozen best. -/
def trailStopHit (fromPrice toPrice : ℚ) (start : GeometricHit) (best offset : ℚ) (buy : Bool) :
    Option GeometricHit :=
  match checkedTrailStop best offset buy with
  | none => none
  | some stop =>
    if start.t < 0 ∨ 1 < start.t then none
    else if offset = 0 then trailZeroStopHit fromPrice toPrice start best buy
    else firstRegionEntry fromPrice toPrice start stop (!buy) true

/-! ## What the functions answer on a leg

The cursor stands on the leg, at the leg's own price there. -/

@[simp] theorem inRegion_true {price level : ℚ} : inRegion price level true ↔ price ≤ level := by
  simp [inRegion]

@[simp] theorem inRegion_false {price level : ℚ} : inRegion price level false ↔ level ≤ price := by
  simp [inRegion]

theorem inRegion_self (level : ℚ) (le : Bool) : inRegion level level le := by
  cases le <;> simp

theorem priceAt_leg (leg : Leg ℚ) (t : ℚ) : priceAt leg.start leg.stop t = leg.price t := by
  unfold priceAt
  split
  · next h => rw [h, Leg.price_zero]
  · split
    · next h => rw [h, Leg.price_one]
    · rfl

theorem tForPrice_leg {leg : Leg ℚ} (hm : leg.start ≠ leg.stop) (price : ℚ) :
    tForPrice leg.start leg.stop price = some (leg.crossing price) := by
  unfold tForPrice
  rw [if_neg (sub_ne_zero.mpr hm.symm)]
  rfl

theorem firstRegionEntry_leg (leg : Leg ℚ) {start : GeometricHit} (ht : leg.Has start.t)
    (level : ℚ) (le includeCurrent : Bool) :
    firstRegionEntry leg.start leg.stop start level le includeCurrent =
      if includeCurrent = true ∧ inRegion start.price level le then
        some ⟨start.t, start.price, false⟩
      else if leg.start ≠ leg.stop ∧ start.t < leg.crossing level ∧ leg.crossing level ≤ 1 then
        some ⟨leg.crossing level, level, true⟩
      else none := by
  have hrange : ¬ (start.t < 0 ∨ 1 < start.t) := by
    have := ht.nonneg
    have := ht.le_one
    grind
  unfold firstRegionEntry
  rw [if_neg hrange]
  split
  · rfl
  · by_cases hm : leg.start = leg.stop
    · rw [if_pos hm, if_neg (by simp [hm])]
    · rw [if_neg hm, tForPrice_leg hm]
      simp only [inRegion_self, not_true_eq_false, and_false, if_false]
      grind

/-- The fractions of a leg from the cursor on whose price lies in a region. -/
def insideFrom (leg : Leg ℚ) (t₀ level : ℚ) (le : Bool) : Set ℚ :=
  {t | leg.Has t ∧ t₀ ≤ t ∧ inRegion (leg.price t) level le}

/-- What a search that may count the cursor answers: the first place inside, at
the level when it is reached by motion. -/
structure Entry (leg : Leg ℚ) (t₀ level : ℚ) (le : Bool) (hit : GeometricHit) : Prop where
  first : IsLeast (insideFrom leg t₀ level le) hit.t
  price : hit.price = leg.price hit.t
  atLevel : hit.atLevel = true ↔ t₀ < hit.t
  level : t₀ < hit.t → hit.price = level

section Cursor

variable {leg : Leg ℚ} {start : GeometricHit} (ht : leg.Has start.t)
  (hp : start.price = leg.price start.t) {level : ℚ} {le : Bool}

include hp

/-- From a cursor outside a region, the rest of the leg is inside from the
crossing on or nowhere. -/
theorem outside_until_crossing (ho : ¬ inRegion start.price level le) (hm : leg.start ≠ leg.stop)
    {t : ℚ} (hst : start.t ≤ t) :
    inRegion (leg.price t) level le ↔ start.t < leg.crossing level ∧ leg.crossing level ≤ t := by
  rw [hp] at ho
  cases le with
  | true =>
    simp only [inRegion_true, not_le, Leg.level_lt_price hm] at ho ⊢
    rw [← not_lt, Leg.level_lt_price hm]
    grind
  | false =>
    simp only [inRegion_false, not_le, Leg.price_lt_level hm] at ho ⊢
    rw [← not_lt, Leg.price_lt_level hm]
    grind

include ht

/-- **A search that may count the cursor finds the first place inside.** -/
theorem firstRegionEntry_some {hit : GeometricHit}
    (h : firstRegionEntry leg.start leg.stop start level le true = some hit) :
    Entry leg start.t level le hit := by
  rw [firstRegionEntry_leg leg ht] at h
  by_cases hin : inRegion start.price level le
  · rw [if_pos ⟨rfl, hin⟩, Option.some.injEq] at h
    subst h
    exact ⟨⟨⟨ht, le_rfl, hp ▸ hin⟩, fun u hu => hu.2.1⟩, hp, by simp, by simp⟩
  · rw [if_neg (by simp [hin])] at h
    by_cases hc : leg.start ≠ leg.stop ∧ start.t < leg.crossing level ∧ leg.crossing level ≤ 1
    · rw [if_pos hc, Option.some.injEq] at h
      subst h
      obtain ⟨hm, hlt, hle⟩ := hc
      have hprice : leg.price (leg.crossing level) = level := (Leg.price_eq_level hm).mpr rfl
      refine ⟨⟨⟨?_, hlt.le, ?_⟩, ?_⟩, hprice.symm, by simp [hlt], fun _ => rfl⟩
      · cases leg with
        | point p => exact absurd rfl hm
        | segment a b => exact ⟨ht.nonneg.trans hlt.le, hle⟩
      · simpa only [hprice] using inRegion_self level le
      · rintro u ⟨_, hsu, hu⟩
        exact ((outside_until_crossing hp hin hm hsu).mp hu).2
    · rw [if_neg hc] at h
      exact absurd h (by simp)

theorem firstRegionEntry_none
    (h : firstRegionEntry leg.start leg.stop start level le true = none) :
    insideFrom leg start.t level le = ∅ := by
  rw [firstRegionEntry_leg leg ht] at h
  by_cases hin : inRegion start.price level le
  · rw [if_pos ⟨rfl, hin⟩] at h
    exact absurd h (by simp)
  · rw [if_neg (by simp [hin])] at h
    refine Set.eq_empty_of_forall_notMem fun t ⟨hht, hst, hu⟩ => ?_
    by_cases hm : leg.start = leg.stop
    · rw [Leg.price_of_flat hm, ← Leg.price_of_flat hm start.t, ← hp] at hu
      exact hin hu
    · have hcross := (outside_until_crossing hp hin hm hst).mp hu
      rw [if_pos ⟨hm, hcross.1, hcross.2.trans hht.le_one⟩] at h
      exact absurd h (by simp)

end Cursor

/-! ## Trailing stops -/

/-- The level `offset` on the adverse side of a best. -/
def trailLevel (best offset : ℚ) (buy : Bool) : ℚ := if buy then best + offset else best - offset

/-- A price at least the offset adverse of a best; strictly past it when the
trail rides the best. -/
def standsOff (best offset price : ℚ) (buy : Bool) : Prop :=
  if offset = 0 then past best price buy else inRegion price (trailLevel best offset buy) (!buy)

theorem checkedTrailStop_eq {offset : ℚ} (h : 0 ≤ offset) (best : ℚ) (buy : Bool) :
    checkedTrailStop best offset buy = some (trailLevel best offset buy) := by
  unfold checkedTrailStop trailLevel
  rw [if_neg (not_lt.mpr h)]
  have hpos : offset ≠ 0 → 0 < offset := fun hne => lt_of_le_of_ne h (Ne.symm hne)
  cases buy <;> simp <;> exact hpos

/-- The fractions of a leg from the cursor on that stand off a best. -/
def offFrom (leg : Leg ℚ) (t₀ best offset : ℚ) (buy : Bool) : Set ℚ :=
  {t | leg.Has t ∧ t₀ ≤ t ∧ standsOff best offset (leg.price t) buy}

/-- What a trail's search answers on a leg against a frozen best: the place from
which on the leg stands off the best. It stands off there already, unless the
trail rides the best and leaves it there. -/
structure StopHit (leg : Leg ℚ) (t₀ best offset : ℚ) (buy : Bool) (hit : GeometricHit) : Prop where
  has : leg.Has hit.t
  after : t₀ ≤ hit.t
  price : hit.price = leg.price hit.t
  nonempty : (offFrom leg t₀ best offset buy).Nonempty
  first : IsGLB (offFrom leg t₀ best offset buy) hit.t
  stands : hit.t ∈ offFrom leg t₀ best offset buy ∨ offset = 0 ∧ hit.price = best
  level : t₀ < hit.t → hit.price = trailLevel best offset buy

section Trail

variable {leg : Leg ℚ} {start : GeometricHit} (ht : leg.Has start.t)
  (hp : start.price = leg.price start.t) {best offset : ℚ} {buy : Bool}

theorem offFrom_of_offset (h : offset ≠ 0) :
    offFrom leg start.t best offset buy =
      insideFrom leg start.t (trailLevel best offset buy) (!buy) := by
  simp only [offFrom, insideFrom, standsOff, if_neg h]

include hp

/-- A leg that is not past a best at the cursor and ends past it is past it
from the crossing on, which is at the cursor or later. -/
theorem past_iff_crossing (hs : start.t ≤ 1) (ho : ¬ past best start.price buy)
    (hm : leg.start ≠ leg.stop) (he : past best leg.stop buy) :
    start.t ≤ leg.crossing best ∧ leg.crossing best < 1 ∧
      ∀ t, past best (leg.price t) buy ↔ leg.crossing best < t := by
  rw [hp] at ho
  rw [← Leg.price_one leg] at he
  cases buy with
  | true =>
    simp only [past, if_true, Leg.level_lt_price hm] at ho he ⊢
    grind
  | false =>
    simp only [past, Bool.false_eq_true, if_false, Leg.price_lt_level hm] at ho he ⊢
    grind

/-- A leg that is past a best neither at the cursor nor at its end is not past
it in between. -/
theorem not_past_between {t : ℚ} (ho : ¬ past best start.price buy)
    (he : ¬ past best leg.stop buy) (hst : start.t ≤ t) (ht1 : t ≤ 1) :
    ¬ past best (leg.price t) buy := by
  rw [hp] at ho
  rw [← Leg.price_one leg] at he
  have hb := leg.price_between hst ht1
  cases buy with
  | true =>
    simp only [past, if_true, not_lt] at ho he ⊢
    rcases hb with h | h <;> linarith
  | false =>
    simp only [past, Bool.false_eq_true, if_false, not_lt] at ho he ⊢
    rcases hb with h | h <;> linarith

include ht

/-- A trail without offset stops at the best price. -/
theorem trailZeroStopHit_some {hit : GeometricHit}
    (h : trailZeroStopHit leg.start leg.stop start best buy = some hit) :
    StopHit leg start.t best 0 buy hit := by
  have hoff : offFrom leg start.t best 0 buy =
      {t | leg.Has t ∧ start.t ≤ t ∧ past best (leg.price t) buy} := by
    simp only [offFrom, standsOff, if_true]
  unfold trailZeroStopHit at h
  rw [if_neg (by simp [ht.nonneg, ht.le_one])] at h
  by_cases hin : past best start.price buy
  · -- the cursor is already past the best
    rw [if_pos hin, Option.some.injEq] at h
    subst h
    have hmem : start.t ∈ offFrom leg start.t best 0 buy := by
      rw [hoff]
      exact ⟨ht, le_rfl, hp ▸ hin⟩
    exact ⟨ht, le_rfl, hp, ⟨_, hmem⟩, IsLeast.isGLB ⟨hmem, fun u hu => hu.2.1⟩, .inl hmem,
      fun hlt => absurd hlt (lt_irrefl _)⟩
  rw [if_neg hin] at h
  by_cases hm : leg.start = leg.stop
  · rw [if_pos hm] at h
    exact absurd h (by simp)
  rw [if_neg hm] at h
  by_cases he : past best leg.stop buy
  · -- the leg leaves the best at its crossing
    obtain ⟨hsc, hc1, hpast⟩ := past_iff_crossing hp ht.le_one hin hm he
    rw [if_neg (not_not.mpr he), tForPrice_leg hm] at h
    have htHit : (if start.t < leg.crossing best then leg.crossing best else start.t) =
        leg.crossing best := by
      split
      · rfl
      · next hlt => exact le_antisymm hsc (not_lt.mp hlt)
    simp only [htHit, not_lt.mpr hc1.le, if_false, Option.some.injEq] at h
    subst h
    have hprice : leg.price (leg.crossing best) = best := (Leg.price_eq_level hm).mpr rfl
    obtain ⟨a, b, rfl⟩ : ∃ a b, leg = .segment a b := by
      cases leg with
      | point p => exact absurd rfl hm
      | segment a b => exact ⟨a, b, rfl⟩
    have hmem : ∀ u, (Leg.segment a b).crossing best < u → u ≤ 1 →
        u ∈ offFrom (.segment a b) start.t best 0 buy := by
      intro u hu hu1
      rw [hoff]
      exact ⟨⟨(ht.nonneg.trans hsc).trans hu.le, hu1⟩, hsc.trans hu.le, (hpast u).mpr hu⟩
    refine ⟨⟨ht.nonneg.trans hsc, hc1.le⟩, hsc, hprice.symm, ⟨1, hmem 1 hc1 le_rfl⟩, ?_,
      .inr ⟨rfl, rfl⟩, fun _ => by cases buy <;> simp [trailLevel]⟩
    refine ⟨fun u hu => ?_, fun x hx => ?_⟩
    · rw [hoff] at hu
      exact ((hpast u).mp hu.2.2).le
    · -- a lower bound past the crossing would exceed the places right after it
      by_contra hlt
      rw [not_le] at hlt
      obtain ⟨u, hu, hux⟩ := exists_between (lt_min hlt hc1)
      exact absurd (hx (hmem u hu (hux.le.trans (min_le_right _ _))))
        (not_le.mpr (hux.trans_le (min_le_left _ _)))
  · rw [if_pos he] at h
    exact absurd h (by simp)

theorem trailZeroStopHit_none
    (h : trailZeroStopHit leg.start leg.stop start best buy = none) :
    offFrom leg start.t best 0 buy = ∅ := by
  refine Set.eq_empty_of_forall_notMem fun t ⟨hht, hst, hu⟩ => ?_
  rw [standsOff, if_pos rfl] at hu
  unfold trailZeroStopHit at h
  rw [if_neg (by simp [ht.nonneg, ht.le_one])] at h
  by_cases hin : past best start.price buy
  · rw [if_pos hin] at h
    exact absurd h (by simp)
  rw [if_neg hin] at h
  by_cases he : past best leg.stop buy
  · by_cases hm : leg.start = leg.stop
    · rw [Leg.price_of_flat hm, ← Leg.price_of_flat hm start.t, ← hp] at hu
      exact hin hu
    · obtain ⟨hsc, hc1, _⟩ := past_iff_crossing hp ht.le_one hin hm he
      rw [if_neg hm, if_neg (not_not.mpr he), tForPrice_leg hm] at h
      have hle : (if start.t < leg.crossing best then leg.crossing best else start.t) ≤ 1 := by
        split
        · exact hc1.le
        · exact ht.le_one
      simp only [not_lt.mpr hle, if_false] at h
      exact absurd h (by simp)
  · exact not_past_between hp hin he hst hht.le_one hu

variable (ho : 0 ≤ offset)

include ho

/-- **A trail's search finds the place from which on the leg stands off the
best.** -/
theorem trailStopHit_some {hit : GeometricHit}
    (h : trailStopHit leg.start leg.stop start best offset buy = some hit) :
    StopHit leg start.t best offset buy hit := by
  unfold trailStopHit at h
  rw [checkedTrailStop_eq ho] at h
  simp only [ht.nonneg, ht.le_one, not_lt.mpr, or_self, if_false] at h
  by_cases hz : offset = 0
  · subst hz
    rw [if_pos rfl] at h
    exact trailZeroStopHit_some ht hp h
  · rw [if_neg hz] at h
    have entry := firstRegionEntry_some ht hp h
    refine ⟨entry.first.1.1, entry.first.1.2.1, entry.price, ?_, ?_, ?_, entry.level⟩
    · rw [offFrom_of_offset hz]
      exact ⟨_, entry.first.1⟩
    · rw [offFrom_of_offset hz]
      exact entry.first.isGLB
    · rw [offFrom_of_offset hz]
      exact .inl entry.first.1

theorem trailStopHit_none
    (h : trailStopHit leg.start leg.stop start best offset buy = none) :
    offFrom leg start.t best offset buy = ∅ := by
  unfold trailStopHit at h
  rw [checkedTrailStop_eq ho] at h
  simp only [ht.nonneg, ht.le_one, not_lt.mpr, or_self, if_false] at h
  by_cases hz : offset = 0
  · subst hz
    rw [if_pos rfl] at h
    exact trailZeroStopHit_none ht hp h
  · rw [if_neg hz] at h
    rw [offFrom_of_offset hz]
    exact firstRegionEntry_none ht hp h

end Trail

end PineForge.Matching
