import PineForge.Matching.FirstReach

/-!
  A request that enters the book inside a segment: born in a callback there, or
  armed there after the print.

  Its search does not count the cursor, and takes every later crossing of the
  level for an entry. A cursor strictly inside the region on a segment that
  comes back to the level is therefore answered with the place where the path
  leaves the region. The condition that excludes this is on the print at birth,
  the segment's end and the levels alone, and it is exact.
-/

namespace PineForge.Matching

open PineForge.Path

variable {r : Request} {leg : Leg ℚ}

/-! ## Entering a region -/

/-- The report is a place at which the path comes from outside into a region. -/
def EntersAt (leg : Leg ℚ) (t₀ : ℚ) (R : ℚ → Prop) (e : Report) : Prop :=
  e.price = leg.price e.t ∧ R (leg.price e.t) ∧
    ∃ s, t₀ ≤ s ∧ s < e.t ∧ ∀ u, s ≤ u → u < e.t → ¬ R (leg.price u)

/-- A segment from a price strictly inside a region back to its level or out of
it. -/
def Leaves (price toPrice level : ℚ) (le : Bool) : Prop :=
  if le then price < level ∧ level ≤ toPrice else level < price ∧ toPrice ≤ level

/-- The level is crossed after the cursor on the rest of the leg. -/
def Crosses (leg : Leg ℚ) (t₀ level : ℚ) : Prop :=
  leg.start ≠ leg.stop ∧ t₀ < leg.crossing level ∧ leg.crossing level ≤ 1

theorem firstRegionEntry_after {t₀ price level : ℚ} {le : Bool} (ht : leg.Has t₀) :
    (Crosses leg t₀ level →
      firstRegionEntry leg.start leg.stop ⟨t₀, price, false⟩ level le false =
        some ⟨leg.crossing level, level, true⟩) ∧
    (¬ Crosses leg t₀ level →
      firstRegionEntry leg.start leg.stop ⟨t₀, price, false⟩ level le false = none) := by
  have h := @firstRegionEntry_leg leg ⟨t₀, price, false⟩ ht level le false
  simp only [Bool.false_eq_true, false_and, if_false] at h
  exact ⟨fun hc => h.trans (if_pos hc), fun hc => h.trans (if_neg hc)⟩

section Crossing

variable {t₀ level : ℚ} {le : Bool}

/-- Before a crossing the path is inside a region or outside of it as it is at
any place before. -/
theorem inRegion_before (hm : leg.start ≠ leg.stop) {t u : ℚ} (ht : t < leg.crossing level)
    (hu : u < leg.crossing level) :
    inRegion (leg.price u) level le ↔ inRegion (leg.price t) level le := by
  cases le with
  | true =>
    simp only [inRegion_true]
    rw [← not_lt, ← not_lt, Leg.level_lt_price hm, Leg.level_lt_price hm]
    grind
  | false =>
    simp only [inRegion_false]
    rw [← not_lt, ← not_lt, Leg.price_lt_level hm, Leg.price_lt_level hm]
    grind

theorem entersAt_crossing (hm : leg.start ≠ leg.stop) {t : ℚ} (h₀ : t₀ ≤ t)
    (ht : t < leg.crossing level) (kind : MatchKind) (atLevel : Bool) :
    EntersAt leg t₀ (inRegion · level le) ⟨kind, 0, leg.crossing level, level, atLevel⟩ ↔
      ¬ inRegion (leg.price t) level le := by
  have hprice : leg.price (leg.crossing level) = level := (Leg.price_eq_level hm).mpr rfl
  constructor
  · rintro ⟨_, _, s, _, hs, hout⟩
    rw [← inRegion_before hm ht hs]
    exact hout s le_rfl hs
  · intro hout
    refine ⟨hprice.symm, ?_, t, h₀, ht, fun u _ hu => ?_⟩
    · change inRegion (leg.price (leg.crossing level)) level le
      rw [hprice]
      exact inRegion_self level le
    · exact fun hin => hout ((inRegion_before hm ht hu).mp hin)

theorem leaves_iff (h1 : t₀ ≤ 1) :
    Leaves (leg.price t₀) leg.stop level le ↔
      Crosses leg t₀ level ∧ inRegion (leg.price t₀) level le := by
  by_cases hm : leg.start = leg.stop
  · have hflat : leg.price t₀ = leg.stop := (Leg.price_of_flat hm t₀).trans hm
    simp only [Crosses, hm, ne_eq, not_true_eq_false, false_and, iff_false, Leaves, hflat]
    cases le <;> simp
  · rw [← Leg.price_one leg]
    cases le with
    | true =>
      simp only [Leaves, if_true, Crosses, ne_eq, hm, not_false_eq_true, true_and, inRegion_true]
      rw [Leg.price_lt_level hm, ← not_lt, Leg.price_lt_level hm, ← not_lt (b := leg.price t₀),
        Leg.level_lt_price hm]
      grind
    | false =>
      simp only [Leaves, Bool.false_eq_true, if_false, Crosses, ne_eq, hm, not_false_eq_true,
        true_and, inRegion_false]
      rw [Leg.level_lt_price hm, ← not_lt, Leg.level_lt_price hm, ← not_lt (b := level),
        Leg.price_lt_level hm]
      grind

end Crossing

/-! ## The rest of the segment, trigger by trigger -/

theorem matchFrom_next {n : ℕ} {w w' : Working} (h : turn r leg false w = .next w') :
    matchLoop r leg false (n + 1) w = matchLoop r leg false n w' := by
  simp only [matchLoop, h]

theorem matchLoop_idle {n : ℕ} {w : Working} (h : turn r leg false w = .idle) :
    matchLoop r leg false (n + 1) w = some w := by
  simp only [matchLoop, h]

theorem matchLoop_filled {n : ℕ} {w : Working} (h : w.state = none) :
    matchLoop r leg false (n + 1) w = some w :=
  matchLoop_idle (by simp only [turn, h])

theorem finishLeg_other {w : Working} {state : TriggerState} (hs : w.state = some state)
    (hn : ∀ best, state ≠ .trailTrack best) : finishLeg r leg w = some (some state) := by
  simp only [finishLeg, hs, observeTrails_other hn, Option.map_some, ite_self]

section Gated

variable {state : TriggerState} {kind : MatchKind} {level : ℚ} {le : Bool}
  (ht : Tests r state kind level le) {w : Working} (hs : w.state = some state)
  (hhas : leg.Has w.tCursor)

include ht hs hhas

theorem Tests.turn_uncrossed (hc : ¬ Crosses leg w.tCursor level) :
    turn r leg false w = .idle :=
  ht.turn_none hs ((firstRegionEntry_after hhas).2 hc)

theorem Tests.turn_crossed (hc : Crosses leg w.tCursor level) :
    turn r leg false w =
      takeWinner r leg w state ⟨leg.crossing level, level, true⟩ kind :=
  ht.turn_some hs ((firstRegionEntry_after hhas).1 hc) hc.2.1.le hc.2.2

theorem Tests.turn_installed (hc : Crosses leg w.tCursor level) {transition : TriggerTransition}
    {after : TriggerState} (htr : kind.transition level = some transition)
    (ha : applyTrigger r state transition = .installed after) :
    turn r leg false w =
      .next ⟨some after, leg.crossing level, level,
        if kind = .activateStop ∨ kind = .activateTrail then
          some ⟨leg.crossing level, level, true⟩ else w.transfer,
        w.reports ++ [⟨kind, 0, leg.crossing level, level, true⟩]⟩ :=
  (ht.turn_crossed hs hhas hc).trans (takeWinner_installed leg w ⟨leg.crossing level, level, true⟩
    kind ⟨observeTrails_other ht.1 level, .inl rfl⟩ htr ha)

end Gated

/-- The report of a crossing. -/
def crossingReport (leg : Leg ℚ) (level : ℚ) (kind : MatchKind) : Report :=
  ⟨kind, 0, leg.crossing level, level, true⟩

open Classical in
/-- The reports on the rest of a segment of a trigger that only a crossing
reaches: what follows it when the level is crossed, nothing otherwise. -/
noncomputable def ifCrossed (leg : Leg ℚ) (t₀ level : ℚ) (reports : List Report) : List Report :=
  if Crosses leg t₀ level then reports else []

section Runs

variable (birth : Birth) {price limit : ℚ}

theorem Birth.has : birth.leg.Has birth.t := ⟨birth.nonneg, birth.le_one⟩

theorem Birth.price_eq : birth.price = birth.leg.price birth.t :=
  priceAt_leg birth.leg birth.t

theorem runBirth_limit (ht : r.trigger = .limit price) :
    ∃ after, runBirth r birth =
      some (after, ifCrossed birth.leg birth.t price [crossingReport birth.leg price .fill]) := by
  have htest := tests_limit ht
  simp only [runBirth, ht, triggerStateFrom, matchFrom, matchTurns, ifCrossed]
  split
  · next hc =>
    rw [matchFrom_next ((htest.turn_crossed rfl birth.has hc).trans (takeWinner_fill htest.1 _)),
      matchLoop_filled rfl]
    exact ⟨none, rfl⟩
  · next hc =>
    rw [matchLoop_idle (htest.turn_uncrossed rfl birth.has hc)]
    exact ⟨some .limitReady, by rw [Option.bind_some, finishLeg_other rfl htest.1]; rfl⟩

theorem runBirth_stop (ht : r.trigger = .stop price) :
    ∃ after, runBirth r birth =
      some (after, ifCrossed birth.leg birth.t price
        [crossingReport birth.leg price .activateStop, crossingReport birth.leg price .fill]) := by
  have htest := tests_stop ht
  simp only [runBirth, ht, triggerStateFrom, matchFrom, matchTurns, ifCrossed]
  split
  · next hc =>
    rw [matchFrom_next (htest.turn_installed rfl birth.has hc rfl
        (applyTrigger_stop ht (inRegion_self price _))),
      matchFrom_next (turn_active rfl (.inl rfl) ⟨rfl, rfl, rfl⟩ false), matchLoop_filled rfl]
    exact ⟨none, rfl⟩
  · next hc =>
    rw [matchLoop_idle (htest.turn_uncrossed rfl birth.has hc)]
    exact ⟨some .stopIdle, by rw [Option.bind_some, finishLeg_other rfl htest.1]; rfl⟩

theorem runBirth_stopLimit (ht : r.trigger = .stopLimit price limit) :
    ∃ after, runBirth r birth =
      some (after, ifCrossed birth.leg birth.t price
        (crossingReport birth.leg price .activateStopLimit ::
          ifCrossed birth.leg (birth.leg.crossing price) limit
            [crossingReport birth.leg limit .fill])) := by
  have hpend := tests_stopLimitPending ht
  have hlive := tests_stopLimitLive ht
  simp only [runBirth, ht, triggerStateFrom, matchFrom, matchTurns, ifCrossed]
  split
  · next hc =>
    have hhas : birth.leg.Has (birth.leg.crossing price) :=
      ⟨birth.nonneg.trans hc.2.1.le, hc.2.2⟩
    rw [matchFrom_next (hpend.turn_installed rfl birth.has hc rfl
      (applyTrigger_stopLimit ht (inRegion_self price _)))]
    by_cases hc' : Crosses birth.leg (birth.leg.crossing price) limit
    · rw [matchFrom_next ((hlive.turn_crossed rfl hhas hc').trans (takeWinner_fill hlive.1 _)),
        matchLoop_filled rfl, if_pos hc']
      exact ⟨none, rfl⟩
    · rw [matchLoop_idle (hlive.turn_uncrossed rfl hhas hc'), if_neg hc', Option.bind_some,
        finishLeg_other rfl hlive.1]
      exact ⟨some .stopLimitLive, rfl⟩
  · next hc =>
    rw [matchLoop_idle (hpend.turn_uncrossed rfl birth.has hc)]
    exact ⟨some .stopLimitPending, by rw [Option.bind_some, finishLeg_other rfl hpend.1]; rfl⟩

/-- An armed trail on the rest of a segment, whatever its birth: the law of
`FirstReach` on that one leg. -/
theorem matchLoop_armed {offset : ℚ} {arm seed : Option ℚ}
    (ht : r.trigger = .trail offset arm seed) (w : Working)
    (hhas : birth.leg.Has w.tCursor) (hprice : w.cursorPrice = birth.leg.price w.tCursor)
    (hs : w.state = some (.trailTrack (armBest r seed w.cursorPrice))) :
    ∃ after reports, ((matchLoop r birth.leg false 3 w).bind fun w =>
        (finishLeg r birth.leg w).map fun after => (after, w.reports)) =
          some (after, w.reports ++ reports) ∧
      TrailFires [birth.leg] (place 0 w.tCursor) {s | s ∈ seed} offset r.buy reports := by
  have ho := offset_nonneg ht
  have hl : Positive birth.leg := ⟨birth.fromPositive, birth.toPositive⟩
  rw [hprice] at hs
  have hworse := armBest_noBetter r seed (birth.leg.price w.tCursor)
  have hcongr : ∀ reports,
      TrailFires [birth.leg] (place 0 w.tCursor) {armBest r seed (birth.leg.price w.tCursor)}
        offset r.buy reports →
      TrailFires [birth.leg] (place 0 w.tCursor) {s | s ∈ seed} offset r.buy reports := by
    intro reports h
    refine h.congr fun q _ hle b => ?_
    rw [← priceAt_head birth.leg []]
    exact isBest_armBest ((head_mem_points birth.leg []).mpr hhas) hle b
  cases hhit : trailStopHit birth.leg.start birth.leg.stop ⟨w.tCursor, w.cursorPrice, false⟩
      (armBest r seed (birth.leg.price w.tCursor)) offset r.buy with
  | none =>
    have hnone := @trailStopHit_none birth.leg ⟨w.tCursor, w.cursorPrice, false⟩ hhas hprice _ _ _
      ho hhit
    refine ⟨some (.trailTrack (favourable r.buy (armBest r seed (birth.leg.price w.tCursor))
      birth.leg.stop)), [], ?_, hcongr [] (.inl ⟨rfl, eq_empty_of_parts ?_ ?_⟩)⟩
    · rw [matchLoop_idle (turn_track_none ht hs hhit), Option.bind_some,
        finishLeg_track ht hs hhas hworse, Option.map_some, List.append_nil]
    · rw [onHead_standsOffSince hworse ho, hnone]
    · rw [onRest_standsOffSince hworse hhas]
      ext q
      simp [standsOffSince]
  | some hit =>
    have hstop := @trailStopHit_some birth.leg ⟨w.tCursor, w.cursorPrice, false⟩ hhas hprice _ _ _
      ho _ hhit
    refine ⟨none, _, ?_, hcongr _ (.inr ⟨_, rfl, rfl,
      hstop.trailFiresAt hworse ho .activateTrail⟩)⟩
    rw [matchFrom_next (turn_track_some ht hs hl (armBest_pos ht (price_pos hl hhas)) hhit hstop),
      matchFrom_next (turn_active rfl (.inr ⟨_, rfl⟩) ⟨rfl, rfl, rfl⟩ false), matchLoop_filled rfl]
    simp [finishLeg]

theorem runBirth_trail_unarmed {offset : ℚ} {seed : Option ℚ}
    (ht : r.trigger = .trail offset none seed) :
    ∃ after rest, runBirth r birth =
        some (after, ⟨.beginTrail, 0, birth.t, birth.price, false⟩ :: rest) ∧
      TrailFires [birth.leg] (place 0 birth.t) {s | s ∈ seed} offset r.buy rest := by
  have hturn : turn r birth.leg false ⟨some .trailWaitArm, birth.t, birth.price, none, []⟩ =
      .next ⟨some (.trailTrack (armBest r seed birth.price)), birth.t, birth.price, none,
        [⟨.beginTrail, 0, birth.t, birth.price, false⟩]⟩ := by
    simp only [turn, matchRow, reachTrigger, ht, lt_irrefl, not_lt.mpr birth.le_one, or_self,
      if_false]
    exact takeWinner_installed birth.leg ⟨some .trailWaitArm, birth.t, birth.price, none, []⟩
      ⟨birth.t, birth.price, false⟩ .beginTrail ⟨observeTrails_other (by simp) _, .inl rfl⟩ rfl
      (applyTrigger_begin ht (by simp))
  obtain ⟨after, rest, hrun, hfires⟩ := matchLoop_armed birth ht
    ⟨some (.trailTrack (armBest r seed birth.price)), birth.t, birth.price, none,
      [⟨.beginTrail, 0, birth.t, birth.price, false⟩]⟩ birth.has birth.price_eq rfl
  refine ⟨after, rest, ?_, hfires⟩
  simp only [runBirth, ht, triggerStateFrom, matchFrom, matchTurns]
  rw [matchFrom_next hturn, hrun]
  rfl

theorem runBirth_trail {offset arm : ℚ} {seed : Option ℚ}
    (ht : r.trigger = .trail offset (some arm) seed) :
    ∃ after reports, runBirth r birth = some (after, reports) ∧
      (¬ Crosses birth.leg birth.t arm ∧ reports = [] ∨
        Crosses birth.leg birth.t arm ∧
          ∃ rest, reports = crossingReport birth.leg arm .beginTrail :: rest ∧
            TrailFires [birth.leg] (place 0 (birth.leg.crossing arm)) {s | s ∈ seed} offset r.buy
              rest) := by
  have htest := tests_trailWaitArm ht
  simp only [runBirth, ht, triggerStateFrom, matchFrom, matchTurns]
  by_cases hc : Crosses birth.leg birth.t arm
  · have hbegin : applyTrigger r .trailWaitArm (.beginTrailTracking arm) =
        .installed (.trailTrack (armBest r seed arm)) :=
      applyTrigger_begin ht (by simp [inRegion_self])
    have hhas : birth.leg.Has (birth.leg.crossing arm) :=
      ⟨birth.nonneg.trans hc.2.1.le, hc.2.2⟩
    have hprice : birth.leg.price (birth.leg.crossing arm) = arm :=
      (Leg.price_eq_level hc.1).mpr rfl
    rw [matchFrom_next (htest.turn_installed rfl birth.has hc rfl hbegin)]
    obtain ⟨after, rest, hrun, hfires⟩ := matchLoop_armed birth ht
      ⟨some (.trailTrack (armBest r seed arm)), birth.leg.crossing arm, arm, _, _⟩ hhas
      hprice.symm rfl
    exact ⟨after, _, hrun, .inr ⟨hc, rest, rfl, hfires⟩⟩
  · rw [matchLoop_idle (htest.turn_uncrossed rfl birth.has hc), Option.bind_some,
      finishLeg_other rfl htest.1]
    exact ⟨_, _, rfl, .inl ⟨hc, rfl⟩⟩

end Runs

/-! ## The exact condition -/

/-- Every report on the rest of the segment is where the path comes from outside
into the region the trigger waits for. What follows a trail's arm is the law of
its ride. -/
def EntersOnly (r : Request) (birth : Birth) (reports : List Report) : Prop :=
  match r.trigger with
  | .limit price => ∀ e ∈ reports, EntersAt birth.leg birth.t (inRegion · price r.buy) e
  | .stop price => ∀ e ∈ reports, EntersAt birth.leg birth.t (inRegion · price (!r.buy)) e
  | .stopLimit stop limit => ∀ e ∈ reports,
    (e.kind = .activateStopLimit → EntersAt birth.leg birth.t (inRegion · stop (!r.buy)) e) ∧
      (e.kind = .fill → EntersAt birth.leg birth.t (inRegion · limit r.buy) e)
  | .trail offset arm seed => reports = [] ∨
    ∃ e rest, reports = e :: rest ∧ e.kind = .beginTrail ∧
      (∀ a ∈ arm, EntersAt birth.leg birth.t (inRegion · a r.buy) e) ∧
      TrailFires [birth.leg] e.place {s | s ∈ seed} offset r.buy rest

/-- The print a request is born at and the end of its segment do not lead out of
a region it tests: not out of the region of its level from strictly inside, and
not, for a stop-limit whose stop is still to be reached, out of the limit's
region from the stop on. -/
def NotBornInside (r : Request) (price toPrice : ℚ) : Prop :=
  match r.trigger with
  | .limit limit => ¬ Leaves price toPrice limit r.buy
  | .stop stop => ¬ Leaves price toPrice stop (!r.buy)
  | .stopLimit stop limit => ¬ Leaves price toPrice stop (!r.buy) ∧
    ¬ (¬ inRegion price stop (!r.buy) ∧ Leaves stop toPrice limit r.buy)
  | .trail _ arm _ => ∀ a ∈ arm, ¬ Leaves price toPrice a r.buy

section Exact

variable (birth : Birth) {level : ℚ} {le : Bool}

/-- A crossing after the birth is an entry exactly when the segment does not
leave the region. -/
theorem entersAt_iff_not_leaves (kind : MatchKind) :
    (Crosses birth.leg birth.t level →
      EntersAt birth.leg birth.t (inRegion · level le) (crossingReport birth.leg level kind)) ↔
      ¬ Leaves birth.price birth.toPrice level le := by
  rw [birth.price_eq, show birth.toPrice = birth.leg.stop from rfl, leaves_iff birth.le_one,
    not_and]
  constructor
  · intro h hc
    exact (entersAt_crossing hc.1 le_rfl hc.2.1 kind true).mp (h hc)
  · intro h hc
    exact (entersAt_crossing hc.1 le_rfl hc.2.1 kind true).mpr (h hc)

theorem forall_ifCrossed {t₀ : ℚ} {reports : List Report} {P : Report → Prop} :
    (∀ e ∈ ifCrossed leg t₀ level reports, P e) ↔
      (Crosses leg t₀ level → ∀ e ∈ reports, P e) := by
  unfold ifCrossed
  split
  · next hc => simp [hc]
  · next hc => simp [hc]

omit birth in
theorem crosses_of_outside {t₀ : ℚ} (h1 : t₀ ≤ 1) (ho : ¬ inRegion (leg.price t₀) level le)
    (hi : inRegion leg.stop level le) : Crosses leg t₀ level := by
  have hm : leg.start ≠ leg.stop := by
    intro hm
    rw [Leg.price_of_flat hm, hm] at ho
    exact ho hi
  rw [← Leg.price_one leg] at hi
  refine ⟨hm, ?_⟩
  cases le with
  | true =>
    rw [inRegion_true, not_le, Leg.level_lt_price hm] at ho
    rw [inRegion_true, ← not_lt, Leg.level_lt_price hm] at hi
    grind
  | false =>
    rw [inRegion_false, not_le, Leg.price_lt_level hm] at ho
    rw [inRegion_false, ← not_lt, Leg.price_lt_level hm] at hi
    grind

/-- A stop-limit's limit is crossed from inside after its stop exactly when the
segment leads out of the limit's region from the stop on. -/
theorem entersAt_limit_iff {stop limit : ℚ} {buy : Bool}
    (hstop : ¬ Leaves birth.price birth.toPrice stop (!buy)) :
    (Crosses birth.leg birth.t stop → Crosses birth.leg (birth.leg.crossing stop) limit →
      EntersAt birth.leg birth.t (inRegion · limit buy) (crossingReport birth.leg limit .fill)) ↔
      ¬ (¬ inRegion birth.price stop (!buy) ∧ Leaves stop birth.toPrice limit buy) := by
  rw [birth.price_eq, show birth.toPrice = birth.leg.stop from rfl] at *
  rw [leaves_iff birth.le_one, not_and] at hstop
  -- at the stop's crossing the price is the stop
  have hleaves : Crosses birth.leg birth.t stop →
      (Leaves stop birth.leg.stop limit buy ↔
        Crosses birth.leg (birth.leg.crossing stop) limit ∧ inRegion stop limit buy) := by
    intro hc
    have hprice : birth.leg.price (birth.leg.crossing stop) = stop :=
      (Leg.price_eq_level hc.1).mpr rfl
    have h : Leaves (birth.leg.price (birth.leg.crossing stop)) birth.leg.stop limit buy ↔ _ :=
      leaves_iff hc.2.2
    rwa [hprice] at h
  have henters : Crosses birth.leg birth.t stop →
      Crosses birth.leg (birth.leg.crossing stop) limit →
      (EntersAt birth.leg birth.t (inRegion · limit buy)
        (crossingReport birth.leg limit .fill) ↔ ¬ inRegion stop limit buy) := by
    intro hc hc'
    have hprice : birth.leg.price (birth.leg.crossing stop) = stop :=
      (Leg.price_eq_level hc.1).mpr rfl
    refine (entersAt_crossing hc'.1 hc.2.1.le hc'.2.1 .fill true).trans ?_
    rw [hprice]
  constructor
  · rintro h ⟨hout, hlv⟩
    have hc : Crosses birth.leg birth.t stop := by
      refine crosses_of_outside birth.le_one hout ?_
      cases buy <;> simp [Leaves] at hlv ⊢ <;> grind
    obtain ⟨hc', hin⟩ := (hleaves hc).mp hlv
    exact (henters hc hc').mp (h hc hc') hin
  · intro h hc hc'
    rw [henters hc hc']
    exact fun hin => h ⟨hstop hc, (hleaves hc).mpr ⟨hc', hin⟩⟩

/-- The reports on the rest of the segment are entries exactly when the request
is not born inside. -/
theorem runBirth_entersOnly (r : Request) :
    ∃ after reports, runBirth r birth = some (after, reports) ∧
      (EntersOnly r birth reports ↔ NotBornInside r birth.price birth.toPrice) := by
  unfold EntersOnly NotBornInside
  cases ht : r.trigger with
  | limit price =>
    obtain ⟨after, hrun⟩ := runBirth_limit birth ht
    refine ⟨after, _, hrun, ?_⟩
    simp only [forall_ifCrossed, List.forall_mem_singleton]
    exact entersAt_iff_not_leaves birth .fill
  | stop price =>
    obtain ⟨after, hrun⟩ := runBirth_stop birth ht
    refine ⟨after, _, hrun, ?_⟩
    simp only [forall_ifCrossed, List.forall_mem_cons, List.not_mem_nil, false_implies,
      implies_true, and_true]
    rw [imp_and, entersAt_iff_not_leaves, entersAt_iff_not_leaves, and_self]
  | stopLimit stop limit =>
    obtain ⟨after, hrun⟩ := runBirth_stopLimit birth ht
    refine ⟨after, _, hrun, ?_⟩
    simp only [forall_ifCrossed, List.forall_mem_cons, List.not_mem_nil, false_implies,
      implies_true, and_true, crossingReport, reduceCtorEq, true_implies, true_and]
    change (_ → EntersAt _ _ _ (crossingReport birth.leg stop .activateStopLimit) ∧
      (_ → EntersAt _ _ _ (crossingReport birth.leg limit .fill))) ↔ _
    rw [imp_and, entersAt_iff_not_leaves birth .activateStopLimit]
    exact and_congr_right fun hstop => entersAt_limit_iff birth hstop
  | trail offset arm seed =>
    cases arm with
    | none =>
      obtain ⟨after, rest, hrun, hfires⟩ := runBirth_trail_unarmed birth ht
      refine ⟨after, _, hrun, ?_⟩
      simp only [Option.not_mem_none, false_implies, implies_true, iff_true]
      exact .inr ⟨_, rest, rfl, rfl, trivial, hfires⟩
    | some a =>
      obtain ⟨after, reports, hrun, hcase⟩ := runBirth_trail birth ht
      refine ⟨after, reports, hrun, ?_⟩
      simp only [Option.mem_def, Option.some.injEq, forall_eq']
      rw [← entersAt_iff_not_leaves birth .beginTrail]
      rcases hcase with ⟨hc, rfl⟩ | ⟨hc, rest, rfl, hfires⟩
      · simp [hc]
      · constructor
        · rintro (hnil | ⟨e, rest', heq, _, henter, _⟩) _
          · exact absurd hnil (List.cons_ne_nil _ _)
          · rw [(List.cons.inj heq).1]
            exact henter
        · exact fun h => .inr ⟨_, rest, rfl, rfl, h hc, hfires⟩

end Exact

/-- **A priced trigger fires where the path first reaches it**, for every request
resting before a path; and for a request that enters the book inside a segment,
the reports on the rest of the segment are entries **exactly when** it is not
born inside a region the segment leads out of. -/
theorem fires_at_first_reach (r : Request) (path : PricePath) (birth : Birth) :
    (∃ reports, run r path = some reports ∧ FiresAtFirstReach r path.legs reports) ∧
    ∃ after reports, runBirth r birth = some (after, reports) ∧
      (EntersOnly r birth reports ↔ NotBornInside r birth.price birth.toPrice) :=
  ⟨run_firesAtFirstReach r path, runBirth_entersOnly birth r⟩

/-- A buy limit at 100. -/
def Request.buyLimit : Request := ⟨true, .limit 100, rfl⟩

/-- A callback at 90 on the way from 80 to 110. -/
def Birth.rising : Birth where
  fromPrice := 80
  toPrice := 110
  t := 1 / 3
  fromPositive := by norm_num
  toPositive := by norm_num
  nonneg := by norm_num
  le_one := by norm_num

/-- A buy limit at 100 born at 90 on a rising segment is filled at 100, where
the path leaves its region. -/
theorem fills_where_the_path_leaves :
    runBirth .buyLimit .rising = some (none, [⟨.fill, 0, 2 / 3, 100, true⟩]) ∧
      ¬ EntersOnly .buyLimit .rising [⟨.fill, 0, 2 / 3, 100, true⟩] := by
  refine ⟨by decide +kernel, fun h => ?_⟩
  obtain ⟨_, _, s, _, hs, hout⟩ := h _ List.mem_cons_self
  have hin : Birth.rising.leg.price s ≤ 100 := by
    change (80 : ℚ) + s * (110 - 80) ≤ 100
    have : s < 2 / 3 := hs
    linarith
  exact hout s le_rfl hs (inRegion_true.mpr hin)

end PineForge.Matching
