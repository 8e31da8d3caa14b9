import PineForge.Path.Linear

/-!
  The best price a path has shown: the lowest or the highest of a set of
  prices, and the prices a path shows between two places.
-/

namespace PineForge.Path

variable {K : Type*} [LinearOrder K]

/-- The favourable one of two prices: the lower one when `low`, else the higher. -/
def favourable (low : Bool) (x y : K) : K := if low then min x y else max x y

/-- A price that is no better than `b`. -/
def NoBetter (low : Bool) (b p : K) : Prop := if low then b ≤ p else p ≤ b

/-- `b` is the best price of a set. -/
def IsBest (low : Bool) (S : Set K) (b : K) : Prop := b ∈ S ∧ ∀ p ∈ S, NoBetter low b p

section Best

variable {low : Bool} {a b c x y : K} {S T : Set K}

@[simp] theorem noBetter_true : NoBetter true b c ↔ b ≤ c := by simp [NoBetter]

@[simp] theorem noBetter_false : NoBetter false b c ↔ c ≤ b := by simp [NoBetter]

theorem NoBetter.refl (low : Bool) (b : K) : NoBetter low b b := by
  cases low <;> simp

theorem NoBetter.trans (hab : NoBetter low a b) (hbc : NoBetter low b c) : NoBetter low a c := by
  cases low with
  | true => exact noBetter_true.mpr ((noBetter_true.mp hab).trans (noBetter_true.mp hbc))
  | false => exact noBetter_false.mpr ((noBetter_false.mp hbc).trans (noBetter_false.mp hab))

theorem favourable_noBetter_left (low : Bool) (x y : K) : NoBetter low (favourable low x y) x := by
  cases low <;> simp [favourable]

theorem favourable_noBetter_right (low : Bool) (x y : K) : NoBetter low (favourable low x y) y := by
  cases low <;> simp [favourable]

theorem favourable_eq_or (low : Bool) (x y : K) :
    favourable low x y = x ∨ favourable low x y = y := by
  cases low with
  | true => exact min_choice x y
  | false => exact max_choice x y

theorem favourable_comm (low : Bool) (x y : K) : favourable low x y = favourable low y x := by
  cases low with
  | true => exact min_comm x y
  | false => exact max_comm x y

theorem lt_favourable (hx : a < x) (hy : a < y) : a < favourable low x y := by
  cases low with
  | true => exact lt_min hx hy
  | false => exact lt_max_of_lt_left hx

theorem favourable_eq_left (h : NoBetter low x y) : favourable low x y = x := by
  cases low with
  | true => exact min_eq_left (noBetter_true.mp h)
  | false => exact max_eq_left (noBetter_false.mp h)

theorem IsBest.unique (ha : IsBest low S a) (hb : IsBest low S b) : a = b := by
  have hab := ha.2 b hb.1
  have hba := hb.2 a ha.1
  cases low with
  | true => exact le_antisymm (noBetter_true.mp hab) (noBetter_true.mp hba)
  | false => exact le_antisymm (noBetter_false.mp hba) (noBetter_false.mp hab)

/-- The best of two sets together is the best of the second and the first's
best. -/
theorem isBest_union (h : IsBest low S a) :
    IsBest low (S ∪ T) b ↔ IsBest low ({a} ∪ T) b := by
  constructor
  · rintro ⟨hmem, hall⟩
    refine ⟨?_, ?_⟩
    · rcases hmem with hS | hT
      · left
        exact IsBest.unique ⟨hS, fun p hp => hall p (.inl hp)⟩ h
      · exact .inr hT
    · rintro p (rfl | hp)
      · exact hall p (.inl h.1)
      · exact hall p (.inr hp)
  · rintro ⟨hmem, hall⟩
    refine ⟨?_, ?_⟩
    · rcases hmem with rfl | hT
      · exact .inl h.1
      · exact .inr hT
    · rintro p (hp | hp)
      · exact (hall a (.inl rfl)).trans (h.2 p hp)
      · exact hall p (.inr hp)

theorem isBest_pair (low : Bool) (x y : K) : IsBest low {x, y} (favourable low x y) := by
  refine ⟨favourable_eq_or low x y, ?_⟩
  rintro p (rfl | rfl)
  · exact favourable_noBetter_left low p y
  · exact favourable_noBetter_right low x p

theorem isBest_favourable (hy : y ∈ T) :
    IsBest low ({favourable low x y} ∪ T) b ↔ IsBest low ({x} ∪ T) b := by
  rw [← isBest_union (isBest_pair low x y)]
  have hset : ({x, y} : Set K) ∪ T = {x} ∪ T := by
    ext p
    simp only [Set.mem_union, Set.mem_insert_iff, Set.mem_singleton_iff]
    constructor
    · rintro ((rfl | rfl) | hp)
      · exact .inl rfl
      · exact .inr hy
      · exact .inr hp
    · rintro (rfl | hp)
      · exact .inl (.inl rfl)
      · exact .inr hp
  rw [hset]

end Best

/-! ## The prices a path shows -/

section Seen

variable [Field K]

/-- The prices the path shows from one place to another. -/
def seen (legs : List (Leg K)) (start q : Place K) : Set K :=
  {p | ∃ u, u ∈ points legs ∧ start ≤ u ∧ u ≤ q ∧ priceAt legs u = p}

variable {leg : Leg K} {legs : List (Leg K)} {t₀ t : K} {q : Place K}

theorem seen_head :
    seen (leg :: legs) (place 0 t₀) (place 0 t) =
      {p | ∃ u, leg.Has u ∧ t₀ ≤ u ∧ u ≤ t ∧ leg.price u = p} := by
  ext p
  constructor
  · rintro ⟨u, hu, h1, h2, rfl⟩
    obtain ⟨v, rfl⟩ | ⟨v, rfl⟩ := place_cases u
    · exact ⟨v, by simpa using hu, by simpa using h1, by simpa using h2, by simp⟩
    · exact absurd h2 (not_later_le_head t v)
  · rintro ⟨u, hu, h1, h2, rfl⟩
    exact ⟨place 0 u, by simpa using hu, by simpa using h1, by simpa using h2, by simp⟩

theorem seen_later :
    seen (leg :: legs) (place 0 t₀) (later q) =
      {p | ∃ u, leg.Has u ∧ t₀ ≤ u ∧ leg.price u = p} ∪ seen legs origin q := by
  ext p
  constructor
  · rintro ⟨u, hu, h1, h2, rfl⟩
    obtain ⟨v, rfl⟩ | ⟨v, rfl⟩ := place_cases u
    · exact .inl ⟨v, by simpa using hu, by simpa using h1, by simp⟩
    · have hv : v ∈ points legs := by simpa using hu
      exact .inr ⟨v, hv, origin_le legs hv, by simpa using h2, by simp⟩
  · rintro (⟨u, hu, h1, rfl⟩ | ⟨u, hu, _, h2, rfl⟩)
    · exact ⟨place 0 u, by simpa using hu, by simpa using h1, head_le_later u q, by simp⟩
    · exact ⟨later u, by simpa using hu, head_le_later t₀ u, by simpa using h2, by simp⟩

variable [IsStrictOrderedRing K]

/-- The best of a start no worse than the cursor's price and of the rest of a
leg up to a fraction is that of the start and the fraction's price. -/
theorem isBest_head {low : Bool} {best : K} (hb : NoBetter low best (leg.price t₀))
    (ht : leg.Has t) (hle : t₀ ≤ t) :
    IsBest low ({best} ∪ {p | ∃ u, leg.Has u ∧ t₀ ≤ u ∧ u ≤ t ∧ leg.price u = p})
      (favourable low best (leg.price t)) := by
  refine ⟨?_, ?_⟩
  · rcases favourable_eq_or low best (leg.price t) with h | h
    · exact .inl h
    · exact .inr ⟨t, ht, hle, le_rfl, h.symm⟩
  · rintro p (rfl | ⟨u, _, h1, h2, rfl⟩)
    · exact favourable_noBetter_left low p _
    · have hl := favourable_noBetter_left low best (leg.price t)
      have hr := favourable_noBetter_right low best (leg.price t)
      -- the leg is monotone, so the price lies between the two ends
      cases low with
      | true =>
        rw [noBetter_true] at hb hl hr ⊢
        rcases leg.price_between h1 h2 with h | h
        · exact (hl.trans hb).trans h.1
        · exact hr.trans h.1
      | false =>
        rw [noBetter_false] at hb hl hr ⊢
        rcases leg.price_between h1 h2 with h | h
        · exact h.2.trans hr
        · exact (h.2.trans hb).trans hl

theorem isBest_rest {low : Bool} {best : K} (hb : NoBetter low best (leg.price t₀))
    (ht : leg.Has t₀) :
    IsBest low ({best} ∪ {p | ∃ u, leg.Has u ∧ t₀ ≤ u ∧ leg.price u = p})
      (favourable low best leg.stop) := by
  cases leg with
  | point p =>
    rw [Leg.has_point] at ht
    subst ht
    have h := isBest_head hb (Leg.has_zero (.point p)) le_rfl
    rw [Leg.price_zero, Leg.start_point] at h
    rw [Leg.stop_point]
    convert h using 2
    ext x
    constructor
    · rintro ⟨u, hu, _, rfl⟩
      exact ⟨u, hu, (Leg.has_point.mp hu).ge, (Leg.has_point.mp hu).le, rfl⟩
    · rintro ⟨u, hu, h1, _, rfl⟩
      exact ⟨u, hu, h1, rfl⟩
  | segment a b =>
    have h := isBest_head hb (Leg.has_segment.mpr ⟨zero_le_one, le_rfl⟩) ht.le_one
    rw [Leg.price_one] at h
    convert h using 2
    ext x
    constructor
    · rintro ⟨u, hu, h1, rfl⟩
      exact ⟨u, hu, h1, hu.le_one, rfl⟩
    · rintro ⟨u, hu, h1, _, rfl⟩
      exact ⟨u, hu, h1, rfl⟩

end Seen

end PineForge.Path
