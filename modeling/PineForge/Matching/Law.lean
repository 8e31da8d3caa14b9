import PineForge.Matching.Path

/-!
  What it means that a priced trigger fires where the path first reaches it.

  Everything here is about the path and the reports alone: where a region is
  first reached from a place on, where a path first stands off the best price
  it has shown since a place, and how both are found leg by leg.
-/

namespace PineForge.Matching

open PineForge.Path

/-- The place of a report. -/
def Report.place (e : Report) : Place ℚ := Path.place e.leg e.t

@[simp] theorem Report.place_next (e : Report) : e.next.place = later e.place := rfl

/-! ## Regions -/

/-- The report is at the first place from `start` on whose price lies in the
region, at the path's price there: the level when the region was entered by
motion, the print otherwise. -/
structure FiresAt (legs : List (Leg ℚ)) (start : Place ℚ) (R : ℚ → Prop) (level : ℚ)
    (e : Report) : Prop where
  first : IsLeast (reach legs start R) e.place
  price : e.price = Path.priceAt legs e.place
  motion : e.atLevel = true ↔ start < e.place ∧ 0 < e.t
  level : e.atLevel = true → e.price = level

/-- The reports from `start` on, of a trigger waiting for a region: none when no
place of the path lies in it, else one at the first such place, followed by what
`then_` says. -/
def Fires (kind : MatchKind) (legs : List (Leg ℚ)) (start : Place ℚ) (R : ℚ → Prop) (level : ℚ)
    (then_ : Report → List Report → Prop) (reports : List Report) : Prop :=
  (reports = [] ∧ reach legs start R = ∅) ∨
    ∃ e rest, reports = e :: rest ∧ e.kind = kind ∧ FiresAt legs start R level e ∧ then_ e rest

section Regions

variable {leg : Leg ℚ} {legs : List (Leg ℚ)} {t₀ level : ℚ} {le : Bool} {R : ℚ → Prop}

theorem Entry.firesAt {hit : GeometricHit} (h : Entry leg t₀ level le hit) (h₀ : 0 ≤ t₀)
    (kind : MatchKind) :
    FiresAt (leg :: legs) (place 0 t₀) (inRegion · level le) level
      ⟨kind, 0, hit.t, hit.price, hit.atLevel⟩ := by
  refine ⟨isLeast_of_head ?_, ?_, ?_, ?_⟩
  · rw [onHead_reach]
    exact h.first
  · exact h.price.trans (priceAt_head leg legs hit.t).symm
  · change hit.atLevel = true ↔ place 0 t₀ < place 0 hit.t ∧ 0 < hit.t
    rw [h.atLevel, place_lt_place]
    constructor
    · exact fun hlt => ⟨.inr ⟨rfl, hlt⟩, h₀.trans_lt hlt⟩
    · rintro ⟨hlt | hlt, _⟩
      · exact absurd hlt (lt_irrefl 0)
      · exact hlt.2
  · exact fun hat => h.level (h.atLevel.mp hat)

theorem FiresAt.next {e : Report} (hnone : {t | leg.Has t ∧ t₀ ≤ t ∧ R (leg.price t)} = ∅)
    (h : FiresAt legs origin R level e) : FiresAt (leg :: legs) (place 0 t₀) R level e.next := by
  refine ⟨?_, ?_, ?_, h.level⟩
  · rw [Report.place_next]
    refine isLeast_of_rest ?_ ?_
    · rw [onHead_reach]
      exact hnone
    · rw [onRest_reach]
      exact h.first
  · rw [Report.place_next, priceAt_later]
    exact h.price
  · change e.atLevel = true ↔ place 0 t₀ < later e.place ∧ 0 < e.t
    rw [h.motion]
    constructor
    · exact fun hm => ⟨head_lt_later t₀ e.place, hm.2⟩
    · rintro ⟨_, ht⟩
      refine ⟨?_, ht⟩
      change place 0 0 < place e.leg e.t
      rw [place_lt_place]
      rcases Nat.eq_zero_or_pos e.leg with hz | hp
      · exact .inr ⟨hz.symm, ht⟩
      · exact .inl hp

theorem Fires.next {kind : MatchKind} {after after' : Report → List Report → Prop}
    {reports : List Report} (hnone : {t | leg.Has t ∧ t₀ ≤ t ∧ R (leg.price t)} = ∅)
    (hafter : ∀ e rest, after e rest → after' e.next (rest.map Report.next))
    (h : Fires kind legs origin R level after reports) :
    Fires kind (leg :: legs) (place 0 t₀) R level after' (reports.map Report.next) := by
  rcases h with ⟨rfl, hempty⟩ | ⟨e, rest, rfl, hk, hfire, hthen⟩
  · refine .inl ⟨rfl, eq_empty_of_parts ?_ ?_⟩
    · rw [onHead_reach]
      exact hnone
    · rw [onRest_reach]
      exact hempty
  · exact .inr ⟨e.next, rest.map Report.next, rfl, hk, hfire.next hnone, hafter e rest hthen⟩

/-! A start on the rest of the path sees nothing of the head leg. -/

theorem onHead_reach_later (q : Place ℚ) : onHead (reach (leg :: legs) (later q) R) = ∅ :=
  Set.eq_empty_of_forall_notMem fun t ⟨_, h, _⟩ => not_later_le_head t q h

theorem onRest_reach_later (q : Place ℚ) :
    onRest (reach (leg :: legs) (later q) R) = reach legs q R := by
  ext u
  change later u ∈ points (leg :: legs) ∧ later q ≤ later u ∧
    R (Path.priceAt (leg :: legs) (later u)) ↔ u ∈ points legs ∧ q ≤ u ∧ R (Path.priceAt legs u)
  simp

theorem Fires.later {kind : MatchKind} {q : Place ℚ} {after after' : Report → List Report → Prop}
    {reports : List Report}
    (hafter : ∀ e rest, after e rest → after' e.next (rest.map Report.next))
    (h : Fires kind legs q R level after reports) :
    Fires kind (leg :: legs) (later q) R level after' (reports.map Report.next) := by
  rcases h with ⟨rfl, hempty⟩ | ⟨e, rest, rfl, hk, hfire, hthen⟩
  · exact .inl ⟨rfl, eq_empty_of_parts (onHead_reach_later q)
      ((onRest_reach_later q).trans hempty)⟩
  · refine .inr ⟨e.next, rest.map Report.next, rfl, hk, ⟨?_, ?_, ?_, hfire.level⟩,
      hafter e rest hthen⟩
    · rw [Report.place_next]
      refine isLeast_of_rest (onHead_reach_later q) ?_
      rw [onRest_reach_later]
      exact hfire.first
    · rw [Report.place_next, priceAt_later]
      exact hfire.price
    · rw [Report.place_next, later_lt_later]
      exact hfire.motion

end Regions

/-! ## Trails -/

/-- The places from `start` on that stand off the best of the prices in `T` and
of those the path has shown since `start`. -/
def standsOffSince (legs : List (Leg ℚ)) (start : Place ℚ) (T : Set ℚ) (offset : ℚ) (buy : Bool) :
    Set (Place ℚ) :=
  {q | q ∈ points legs ∧ start ≤ q ∧
    ∃ best, IsBest buy (T ∪ seen legs start q) best ∧
      standsOff best offset (Path.priceAt legs q) buy}

/-- The report is at the place from which on the path stands off its best: the
first such place, or, of a trail that rides the best, the place where the path
leaves the best. It is at the path's price there, which is the level when the
path moved to it. -/
structure TrailFiresAt (legs : List (Leg ℚ)) (start : Place ℚ) (T : Set ℚ) (offset : ℚ)
    (buy : Bool) (e : Report) : Prop where
  mem : e.place ∈ points legs
  after : start ≤ e.place
  price : e.price = Path.priceAt legs e.place
  first : IsGLB (standsOffSince legs start T offset buy) e.place
  stands : e.place ∈ standsOffSince legs start T offset buy ∨
    offset = 0 ∧ IsBest buy (T ∪ seen legs start e.place) e.price
  level : start < e.place → 0 < e.t →
    ∃ best, IsBest buy (T ∪ seen legs start e.place) best ∧ e.price = trailLevel best offset buy

/-- The reports of an armed trail from `start` on: none when the path never
stands off its best, else the activation and the fill right there. -/
def TrailFires (legs : List (Leg ℚ)) (start : Place ℚ) (T : Set ℚ) (offset : ℚ) (buy : Bool)
    (reports : List Report) : Prop :=
  (reports = [] ∧ standsOffSince legs start T offset buy = ∅) ∨
    ∃ e, reports = [e, { e with kind := .fill }] ∧ e.kind = .activateTrail ∧
      TrailFiresAt legs start T offset buy e

section Trails

variable {leg : Leg ℚ} {legs : List (Leg ℚ)} {t₀ best offset : ℚ} {buy : Bool}

/-- A price better than a best does not stand off it, so on a leg the running
best may be frozen at the cursor. -/
theorem standsOff_favourable (ho : 0 ≤ offset) (best price : ℚ) (buy : Bool) :
    standsOff (favourable buy best price) offset price buy ↔
      standsOff best offset price buy := by
  rcases lt_or_eq_of_le ho with hpos | rfl
  · simp only [standsOff, hpos.ne', if_false]
    cases buy with
    | true => simp only [favourable, trailLevel, if_true, Bool.not_true, inRegion_false]; grind
    | false =>
      simp only [favourable, trailLevel, Bool.false_eq_true, if_false, Bool.not_false,
        inRegion_true]
      grind
  · simp only [standsOff, if_true]
    cases buy with
    | true => simp only [favourable, past, if_true]; grind
    | false => simp only [favourable, past, Bool.false_eq_true, if_false]; grind

variable (hb : NoBetter buy best (leg.price t₀))

include hb

theorem onHead_standsOffSince (ho : 0 ≤ offset) :
    onHead (standsOffSince (leg :: legs) (place 0 t₀) {best} offset buy) =
      offFrom leg t₀ best offset buy := by
  ext t
  change place 0 t ∈ points (leg :: legs) ∧ place 0 t₀ ≤ place 0 t ∧ (∃ b, _) ↔
    leg.Has t ∧ t₀ ≤ t ∧ standsOff best offset (leg.price t) buy
  rw [head_mem_points, place_le_place, priceAt_head, seen_head]
  constructor
  · rintro ⟨hhas, hlt | ⟨_, hle⟩, b, hbest, hoff⟩
    · exact absurd hlt (lt_irrefl 0)
    · rw [hbest.unique (isBest_head hb hhas hle), standsOff_favourable ho] at hoff
      exact ⟨hhas, hle, hoff⟩
  · rintro ⟨hhas, hle, hoff⟩
    exact ⟨hhas, .inr ⟨rfl, hle⟩, _, isBest_head hb hhas hle,
      (standsOff_favourable ho _ _ _).mpr hoff⟩

theorem isBest_later (ht : leg.Has t₀) {q : Place ℚ} {b : ℚ} :
    IsBest buy ({best} ∪ seen (leg :: legs) (place 0 t₀) (later q)) b ↔
      IsBest buy ({favourable buy best leg.stop} ∪ seen legs origin q) b := by
  rw [seen_later, ← Set.union_assoc]
  exact isBest_union (isBest_rest hb ht)

theorem onRest_standsOffSince (ht : leg.Has t₀) :
    onRest (standsOffSince (leg :: legs) (place 0 t₀) {best} offset buy) =
      standsOffSince legs origin {favourable buy best leg.stop} offset buy := by
  ext q
  change later q ∈ points (leg :: legs) ∧ place 0 t₀ ≤ later q ∧ (∃ b, _) ↔
    q ∈ points legs ∧ origin ≤ q ∧ (∃ b, _)
  simp only [later_mem_points, priceAt_later, isBest_later hb ht, head_le_later, true_and]
  constructor
  · rintro ⟨hq, h⟩
    exact ⟨hq, origin_le legs hq, h⟩
  · rintro ⟨hq, _, h⟩
    exact ⟨hq, h⟩

/-- A hit on this leg fires here. -/
theorem StopHit.trailFiresAt {hit : GeometricHit} (h : StopHit leg t₀ best offset buy hit)
    (ho : 0 ≤ offset) (kind : MatchKind) :
    TrailFiresAt (leg :: legs) (place 0 t₀) {best} offset buy
      ⟨kind, 0, hit.t, hit.price, hit.atLevel⟩ := by
  have hseen : IsBest buy ({best} ∪ seen (leg :: legs) (place 0 t₀) (place 0 hit.t))
      (favourable buy best hit.price) := by
    rw [seen_head, h.price]
    exact isBest_head hb h.has h.after
  refine ⟨?_, ?_, ?_, isGLB_of_head ?_ ?_, ?_, ?_⟩
  · exact (head_mem_points leg legs).mpr h.has
  · exact place_le_place.mpr (.inr ⟨rfl, h.after⟩)
  · exact h.price.trans (priceAt_head leg legs hit.t).symm
  · rw [onHead_standsOffSince hb ho]
    exact h.nonempty
  · rw [onHead_standsOffSince hb ho]
    exact h.first
  · rcases h.stands with hoff | ⟨hz, hbest⟩
    · exact .inl ((Set.ext_iff.mp (onHead_standsOffSince hb ho) hit.t).mpr hoff)
    · right
      refine ⟨hz, ?_⟩
      rw [hbest, favourable_eq_left (NoBetter.refl buy best)] at hseen
      change IsBest buy _ hit.price
      rw [hbest]
      exact hseen
  · intro hlt _
    have hlevel := h.level (by simpa [Report.place] using hlt)
    refine ⟨best, ?_, hlevel⟩
    have hworse : NoBetter buy best hit.price := by
      rw [hlevel]
      cases buy with
      | true => simpa [trailLevel] using ho
      | false => simpa [trailLevel] using ho
    rw [favourable_eq_left hworse] at hseen
    exact hseen

/-- No hit on this leg: it fires behind it. -/
theorem TrailFiresAt.next {e : Report} (ht : leg.Has t₀) (ho : 0 ≤ offset)
    (hnone : offFrom leg t₀ best offset buy = ∅)
    (h : TrailFiresAt legs origin {favourable buy best leg.stop} offset buy e) :
    TrailFiresAt (leg :: legs) (place 0 t₀) {best} offset buy e.next := by
  refine ⟨?_, ?_, ?_, ?_, ?_, ?_⟩
  · exact (later_mem_points leg legs).mpr h.mem
  · exact head_le_later t₀ e.place
  · rw [Report.place_next, priceAt_later]
    exact h.price
  · rw [Report.place_next]
    refine isGLB_of_rest ((onHead_standsOffSince hb ho).trans hnone) ?_
    rw [onRest_standsOffSince hb ht]
    exact h.first
  · rcases h.stands with hoff | ⟨hz, hbest⟩
    · left
      rw [← onRest_standsOffSince hb ht] at hoff
      exact hoff
    · right
      rw [Report.place_next, isBest_later hb ht]
      exact ⟨hz, hbest⟩
  · intro _ hpos
    have hlt : origin < e.place := by
      change place 0 0 < place e.leg e.t
      rw [place_lt_place]
      rcases Nat.eq_zero_or_pos e.leg with hz | hp
      · exact .inr ⟨hz.symm, hpos⟩
      · exact .inl hp
    obtain ⟨b, hbest, hprice⟩ := h.level hlt hpos
    refine ⟨b, ?_, hprice⟩
    rw [Report.place_next, isBest_later hb ht]
    exact hbest

theorem TrailFires.next {reports : List Report} (ht : leg.Has t₀) (ho : 0 ≤ offset)
    (hnone : offFrom leg t₀ best offset buy = ∅)
    (h : TrailFires legs origin {favourable buy best leg.stop} offset buy reports) :
    TrailFires (leg :: legs) (place 0 t₀) {best} offset buy (reports.map Report.next) := by
  rcases h with ⟨rfl, hempty⟩ | ⟨e, rfl, hk, hfire⟩
  · refine .inl ⟨rfl, eq_empty_of_parts ?_ ?_⟩
    · rw [onHead_standsOffSince hb ho, hnone]
    · rw [onRest_standsOffSince hb ht, hempty]
  · exact .inr ⟨e.next, rfl, hk, hfire.next hb ht ho hnone⟩

end Trails

section Later

variable {leg : Leg ℚ} {legs : List (Leg ℚ)} {start : Place ℚ} {T : Set ℚ} {offset : ℚ}
  {buy : Bool}

theorem seen_later_later (q : Place ℚ) :
    seen (leg :: legs) (later start) (later q) = seen legs start q := by
  ext p
  constructor
  · rintro ⟨u, hu, h1, h2, rfl⟩
    obtain ⟨v, rfl⟩ | ⟨v, rfl⟩ := place_cases u
    · exact absurd h1 (not_later_le_head v start)
    · exact ⟨v, by simpa using hu, by simpa using h1, by simpa using h2, by simp⟩
  · rintro ⟨u, hu, h1, h2, rfl⟩
    exact ⟨Path.later u, by simpa using hu, by simpa using h1, by simpa using h2, by simp⟩

theorem onHead_standsOffSince_later :
    onHead (standsOffSince (leg :: legs) (later start) T offset buy) = ∅ :=
  Set.eq_empty_of_forall_notMem fun t ⟨_, h, _⟩ => not_later_le_head t start h

theorem onRest_standsOffSince_later :
    onRest (standsOffSince (leg :: legs) (later start) T offset buy) =
      standsOffSince legs start T offset buy := by
  ext q
  change later q ∈ points (leg :: legs) ∧ later start ≤ later q ∧ (∃ b, _) ↔
    q ∈ points legs ∧ start ≤ q ∧ (∃ b, _)
  simp only [later_mem_points, priceAt_later, seen_later_later, later_le_later]

theorem TrailFires.later {reports : List Report}
    (h : TrailFires legs start T offset buy reports) :
    TrailFires (leg :: legs) (later start) T offset buy (reports.map Report.next) := by
  rcases h with ⟨rfl, hempty⟩ | ⟨e, rfl, hk, hfire⟩
  · exact .inl ⟨rfl, eq_empty_of_parts onHead_standsOffSince_later
      (onRest_standsOffSince_later.trans hempty)⟩
  · refine .inr ⟨e.next, rfl, hk, ?_, ?_, ?_, ?_, ?_, ?_⟩
    · exact (later_mem_points leg legs).mpr hfire.mem
    · exact later_le_later.mpr hfire.after
    · rw [Report.place_next, priceAt_later]
      exact hfire.price
    · rw [Report.place_next]
      refine isGLB_of_rest onHead_standsOffSince_later ?_
      rw [onRest_standsOffSince_later]
      exact hfire.first
    · rw [Report.place_next, seen_later_later]
      rcases hfire.stands with hoff | hleaves
      · exact .inl ((Set.ext_iff.mp onRest_standsOffSince_later e.place).mpr hoff)
      · exact .inr hleaves
    · rw [Report.place_next, seen_later_later, later_lt_later]
      exact hfire.level

end Later

/-- The law of an armed trail depends on the prices before its start only
through the best they give together with what the path shows. -/
theorem TrailFires.congr {legs : List (Leg ℚ)} {start : Place ℚ} {T T' : Set ℚ} {offset : ℚ}
    {buy : Bool} {reports : List Report}
    (hT : ∀ q, q ∈ points legs → start ≤ q →
      ∀ b, IsBest buy (T ∪ seen legs start q) b ↔ IsBest buy (T' ∪ seen legs start q) b)
    (h : TrailFires legs start T offset buy reports) :
    TrailFires legs start T' offset buy reports := by
  have hset : standsOffSince legs start T offset buy = standsOffSince legs start T' offset buy := by
    ext q
    constructor
    · rintro ⟨hq, hs, b, hbest, hoff⟩
      exact ⟨hq, hs, b, (hT q hq hs b).mp hbest, hoff⟩
    · rintro ⟨hq, hs, b, hbest, hoff⟩
      exact ⟨hq, hs, b, (hT q hq hs b).mpr hbest, hoff⟩
  rcases h with ⟨rfl, hempty⟩ | ⟨e, rfl, hk, hfire⟩
  · exact .inl ⟨rfl, hset ▸ hempty⟩
  · have hTe := hT e.place hfire.mem hfire.after
    refine .inr ⟨e, rfl, hk, hfire.mem, hfire.after, hfire.price, hset ▸ hfire.first, ?_, ?_⟩
    · rcases hfire.stands with hoff | ⟨hz, hbest⟩
      · exact .inl (hset ▸ hoff)
      · exact .inr ⟨hz, (hTe _).mp hbest⟩
    · intro hlt hpos
      obtain ⟨b, hbest, hprice⟩ := hfire.level hlt hpos
      exact ⟨b, (hTe b).mp hbest, hprice⟩

/-! ## The law of a request -/

/-- The region a trail arms in: everywhere when it has no arm price. -/
def armRegion (arm : Option ℚ) (buy : Bool) (price : ℚ) : Prop :=
  ∀ a ∈ arm, inRegion price a buy

/-- What the reports of a request resting before a path have to be. -/
def FiresAtFirstReach (r : Request) (legs : List (Leg ℚ)) : List Report → Prop :=
  match r.trigger with
  | .limit price =>
    Fires .fill legs origin (inRegion · price r.buy) price fun _ rest => rest = []
  | .stop price =>
    Fires .activateStop legs origin (inRegion · price (!r.buy)) price
      fun e rest => rest = [{ e with kind := .fill }]
  | .stopLimit stop limit =>
    Fires .activateStopLimit legs origin (inRegion · stop (!r.buy)) stop
      fun e rest => Fires .fill legs e.place (inRegion · limit r.buy) limit
        (fun _ rest => rest = []) rest
  | .trail offset arm seed =>
    Fires .beginTrail legs origin (armRegion arm r.buy) (arm.getD 0)
      fun e rest => TrailFires legs e.place {s | s ∈ seed} offset r.buy rest

end PineForge.Matching
