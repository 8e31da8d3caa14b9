import PineForge.Matching.Law

/-!
  A priced trigger fires where the path first reaches it.

  The law is stated over places of the path: a limit is filled and a stop
  activated at the least place whose price lies in the closed region, a
  stop-limit's limit is tested from the stop's activation on, a trail arms at
  the least place of its arm region and activates at the place from which on
  the path stands the offset adverse of the best price since the arm.

  The proof follows the loop. A turn's row is the search of `Geometry` on the
  rest of the leg, so a leg either ends with the state it began with and no
  place of it in the region, or reports the leg's first place; the induction
  over the legs then takes the set of places apart leg by leg.
-/

namespace PineForge.Matching

open PineForge.Path

variable {r : Request} {leg : Leg ℚ} {w : Working} {state : TriggerState}

/-! ## Turns of the loop -/

theorem observeTrails_other (h : ∀ best, state ≠ .trailTrack best) (price : ℚ) :
    observeTrails r state price = some state := by
  cases state <;> first | rfl | exact absurd rfl (h _)

theorem observeTrails_track {offset : ℚ} {arm seed : Option ℚ}
    (ht : r.trigger = .trail offset arm seed) (ho : 0 ≤ offset) (best price : ℚ) :
    observeTrails r (.trailTrack best) price =
      some (.trailTrack (favourable r.buy best price)) := by
  unfold observeTrails applyTrigger trailBestImproves favourable
  simp only [ht, checkedTrailStop_eq ho, Option.isNone_some]
  cases r.buy <;> simp <;> grind

/-- The trigger of a state that a level gates: its search and what a hit is. -/
def Tests (r : Request) (state : TriggerState) (kind : MatchKind) (level : ℚ) (le : Bool) : Prop :=
  (∀ best, state ≠ .trailTrack best) ∧
    ∀ (leg : Leg ℚ) (includeCurrent : Bool) (start : GeometricHit),
      reachTrigger r leg state includeCurrent start =
        .ofHit kind (firstRegionEntry leg.start leg.stop start level le includeCurrent)

section Tests

variable {kind : MatchKind} {level : ℚ} {le includeCurrent : Bool} {hit : GeometricHit}

theorem Tests.turn_none (ht : Tests r state kind level le) (hs : w.state = some state)
    (h : firstRegionEntry leg.start leg.stop ⟨w.tCursor, w.cursorPrice, false⟩ level le
      includeCurrent = none) :
    turn r leg includeCurrent w = .idle := by
  simp only [turn, hs, matchRow, ht.2, h, TriggerReach.ofHit]

theorem Tests.turn_some (ht : Tests r state kind level le) (hs : w.state = some state)
    (h : firstRegionEntry leg.start leg.stop ⟨w.tCursor, w.cursorPrice, false⟩ level le
      includeCurrent = some hit)
    (hge : w.tCursor ≤ hit.t) (hle : hit.t ≤ 1) :
    turn r leg includeCurrent w = takeWinner r leg w state hit kind := by
  simp only [turn, hs, matchRow, ht.2, h, TriggerReach.ofHit, not_lt.mpr hge, not_lt.mpr hle,
    or_self, if_false]

end Tests

theorem takeWinner_fill (hn : ∀ best, state ≠ .trailTrack best) (hit : GeometricHit) :
    takeWinner r leg w state hit .fill =
      .next ⟨none, hit.t, hit.price, w.transfer,
        w.reports ++ [⟨.fill, 0, hit.t, hit.price, hit.atLevel⟩]⟩ := by
  simp only [takeWinner, observeTrails_other hn, ite_self, MatchKind.transition]

theorem takeWinner_installed (leg : Leg ℚ) (w : Working) (hit : GeometricHit) (kind : MatchKind)
    {observed after : TriggerState} {transition : TriggerTransition}
    (ho : observeTrails r state hit.price = some observed ∧
      (observed = state ∨ leg.continuous = true ∧ w.tCursor < hit.t))
    (ht : kind.transition hit.price = some transition)
    (ha : applyTrigger r observed transition = .installed after) :
    takeWinner r leg w state hit kind =
      .next ⟨some after, hit.t, hit.price,
        if kind = .activateStop ∨ kind = .activateTrail then some hit else w.transfer,
        w.reports ++ [⟨kind, 0, hit.t, hit.price, hit.atLevel⟩]⟩ := by
  have hobs : (if leg.continuous = true ∧ w.tCursor < hit.t then observeTrails r state hit.price
      else some state) = some observed := by
    rcases ho with ⟨ho, hsame | hmove⟩
    · rw [ho, hsame, ite_self]
    · rw [if_pos hmove, ho]
  simp only [takeWinner, hobs, ht, ha]

/-- An activated request fills at its cursor, at the price kind of its
activation. -/
theorem turn_active (hs : w.state = some state) {hit : GeometricHit}
    (ha : state = .stopActive ∨ ∃ best, state = .trailActive best)
    (hw : w.tCursor = hit.t ∧ w.cursorPrice = hit.price ∧ w.transfer = some hit)
    (includeCurrent : Bool) :
    turn r leg includeCurrent w =
      .next ⟨none, hit.t, hit.price, some hit,
        w.reports ++ [⟨.fill, 0, hit.t, hit.price, hit.atLevel⟩]⟩ := by
  obtain ⟨h1, h2, h3⟩ := hw
  have hrow : matchRow r leg includeCurrent w state = .hit hit .fill := by
    rcases ha with rfl | ⟨best, rfl⟩ <;> simp [matchRow, reachTrigger, h1, h2, h3]
  have hn : ∀ best, state ≠ .trailTrack best := by
    rcases ha with rfl | ⟨best, rfl⟩ <;> simp
  simp only [turn, hs, hrow, takeWinner_fill hn, h3]

/-! ## What the core answers to the loop's transitions -/

section Apply

variable {price reached : ℚ}

theorem applyTrigger_stop (ht : r.trigger = .stop price) (hin : inRegion reached price (!r.buy)) :
    applyTrigger r .stopIdle (.activateStop reached) = .installed .stopActive := by
  have hl := r.levels
  simp only [ht, validateLevels, decide_eq_true_eq] at hl
  simp [applyTrigger, ht, stopPriceReached, hl, hin]

theorem applyTrigger_stopLimit {limit : ℚ} (ht : r.trigger = .stopLimit price limit)
    (hin : inRegion reached price (!r.buy)) :
    applyTrigger r .stopLimitPending (.activateStopLimit reached) =
      .installed .stopLimitLive := by
  have hl := r.levels
  simp only [ht, validateLevels, decide_eq_true_eq] at hl
  simp [applyTrigger, ht, stopPriceReached, hl.1, hin]

variable {offset : ℚ} {arm seed : Option ℚ} (ht : r.trigger = .trail offset arm seed)

include ht

theorem offset_nonneg : 0 ≤ offset := by
  have hl := r.levels
  simp only [ht, validateLevels, decide_eq_true_eq] at hl
  exact hl.1

/-- The best a trail starts from: its arm print, or its seed when that is
better. -/
def armBest (r : Request) (seed : Option ℚ) (reached : ℚ) : ℚ :=
  seed.elim reached (favourable r.buy reached)

theorem applyTrigger_begin (hin : ∀ a ∈ arm, inRegion reached a r.buy) :
    applyTrigger r .trailWaitArm (.beginTrailTracking reached) =
      .installed (.trailTrack (armBest r seed reached)) := by
  have ho := offset_nonneg ht
  have hl := r.levels
  simp only [ht, validateLevels, decide_eq_true_eq] at hl
  have harm : ¬ ∃ a ∈ arm, ¬ stopPriceReached (!r.buy) a reached := by
    rintro ⟨a, ha, hno⟩
    exact hno ⟨(hl.2.2 a ha).le, .inr (by simpa using hin a ha)⟩
  simp only [applyTrigger, ht, checkedTrailStop_eq ho, Option.isNone_some, if_neg harm,
    Bool.false_eq_true, if_false, and_false]
  rfl

theorem applyTrigger_activateTrail {best : ℚ} (hb : 0 < best) (hr : 0 < reached)
    (hoff : inRegion reached (trailLevel best offset r.buy) (!r.buy)) :
    applyTrigger r (.trailTrack best) (.activateTrail reached) =
      .installed (.trailActive best) := by
  have ho := offset_nonneg ht
  have hlevel : 0 ≤ trailLevel best offset r.buy := by
    cases hbuy : r.buy with
    | true =>
      simp only [trailLevel, if_true]
      linarith
    | false =>
      simp only [hbuy, Bool.not_false, inRegion_true] at hoff
      linarith
  simp only [applyTrigger, ht, checkedTrailStop_eq ho, stopPriceReached, hlevel, hoff, or_true,
    and_self, if_true]

end Apply

/-! ## The rest of a leg and the legs after it -/

/-- The loop with `n` turns left from a cursor of the head leg on, and the run
over the other legs. -/
def resume (r : Request) (n : ℕ) (leg : Leg ℚ) (w : Working) (legs : List (Leg ℚ)) :
    Option (List Report) :=
  (matchLoop r leg true n w).bind fun w =>
    (finishLeg r leg w).bind fun after =>
      (runLegs r after legs).map fun rest => w.reports ++ rest.map Report.next

theorem runLegs_cons {observed : TriggerState}
    (h : observeTrails r state leg.start = some observed) (legs : List (Leg ℚ)) :
    runLegs r (some state) (leg :: legs) =
      resume r matchTurns leg { state := some observed, tCursor := 0, cursorPrice := leg.start }
        legs := by
  rw [runLegs, matchPath, priceAt_leg, Leg.price_zero, h, Option.bind_some, resume, matchFrom]
  cases matchLoop r leg true matchTurns _ with
  | none => rfl
  | some w => cases hf : finishLeg r leg w <;> simp [hf]

theorem resume_next {n : ℕ} {w' : Working} (h : turn r leg true w = .next w')
    (legs : List (Leg ℚ)) : resume r (n + 1) leg w legs = resume r n leg w' legs := by
  simp only [resume, matchLoop, h]

theorem resume_idle {n : ℕ} (h : turn r leg true w = .idle) (legs : List (Leg ℚ)) :
    resume r (n + 1) leg w legs =
      (finishLeg r leg w).bind fun after =>
        (runLegs r after legs).map fun rest => w.reports ++ rest.map Report.next := by
  simp only [resume, matchLoop, h, Option.bind_some]

theorem resume_filled {n : ℕ} (h : w.state = none) (legs : List (Leg ℚ)) :
    resume r (n + 1) leg w legs = some w.reports := by
  rw [resume_idle (by simp only [turn, h])]
  simp [finishLeg, h, runLegs]

theorem resume_active {n : ℕ} (hs : w.state = some state) {hit : GeometricHit}
    (ha : state = .stopActive ∨ ∃ best, state = .trailActive best)
    (hw : w.tCursor = hit.t ∧ w.cursorPrice = hit.price ∧ w.transfer = some hit)
    (legs : List (Leg ℚ)) :
    resume r (n + 2) leg w legs =
      some (w.reports ++ [⟨.fill, 0, hit.t, hit.price, hit.atLevel⟩]) := by
  rw [resume_next (turn_active hs ha hw true), resume_filled rfl]

theorem resume_unhit {n : ℕ} (hs : w.state = some state) (hn : ∀ best, state ≠ .trailTrack best)
    (h : turn r leg true w = .idle) (legs : List (Leg ℚ)) :
    resume r (n + 1) leg w legs =
      (runLegs r (some state) legs).map fun rest => w.reports ++ rest.map Report.next := by
  have hf : finishLeg r leg w = some (some state) := by
    simp only [finishLeg, hs, observeTrails_other hn, Option.map_some, ite_self]
  rw [resume_idle h, hf, Option.bind_some]

/-! ## Regions along the path -/

/-- What a hit of a gated trigger leads to, with at least `need` turns left: the
rest of the run, on which `after` says something that does not depend on the
legs before. -/
structure Leads (r : Request) (state : TriggerState) (kind : MatchKind) (level : ℚ) (le : Bool)
    (need : ℕ) (after : List (Leg ℚ) → Report → List Report → Prop) : Prop where
  hit : ∀ (leg : Leg ℚ) (legs : List (Leg ℚ)) (w : Working) (hit : GeometricHit) (n : ℕ),
    need ≤ n → (∀ l ∈ leg :: legs, Positive l) → leg.Has w.tCursor →
    Entry leg w.tCursor level le hit →
    ∃ w' rest, takeWinner r leg w state hit kind = .next w' ∧
      resume r n leg w' legs =
        some (w.reports ++ ⟨kind, 0, hit.t, hit.price, hit.atLevel⟩ :: rest) ∧
      after (leg :: legs) ⟨kind, 0, hit.t, hit.price, hit.atLevel⟩ rest
  next : ∀ (leg : Leg ℚ) (legs : List (Leg ℚ)) (e : Report) (rest : List Report),
    after legs e rest → after (leg :: legs) e.next (rest.map Report.next)

section Regions

variable {kind : MatchKind} {level : ℚ} {le : Bool} (ht : Tests r state kind level le)
  {need : ℕ} {after : List (Leg ℚ) → Report → List Report → Prop}
  (hl : Leads r state kind level le need after)

include ht hl

theorem Tests.resume_of_runLegs {legs : List (Leg ℚ)}
    (hrest : ∃ reports, runLegs r (some state) legs = some reports ∧
      Fires kind legs origin (inRegion · level le) level (after legs) reports)
    {leg : Leg ℚ} (w : Working) {n : ℕ} (hn : need + 1 ≤ n) (hs : w.state = some state)
    (hpos : ∀ l ∈ leg :: legs, Positive l) (hhas : leg.Has w.tCursor)
    (hprice : w.cursorPrice = leg.price w.tCursor) :
    ∃ reports, resume r n leg w legs = some (w.reports ++ reports) ∧
      Fires kind (leg :: legs) (place 0 w.tCursor) (inRegion · level le) level
        (after (leg :: legs)) reports := by
  obtain ⟨n, rfl⟩ : ∃ m, n = m + 1 := ⟨n - 1, by omega⟩
  cases hentry : firstRegionEntry leg.start leg.stop ⟨w.tCursor, w.cursorPrice, false⟩ level le
      true with
  | none =>
    have hnone := @firstRegionEntry_none leg ⟨w.tCursor, w.cursorPrice, false⟩ hhas hprice _ _
      hentry
    obtain ⟨reports, hrun, hfires⟩ := hrest
    refine ⟨reports.map Report.next, ?_, hfires.next hnone (hl.next leg legs)⟩
    rw [resume_unhit hs ht.1 (ht.turn_none hs hentry), hrun, Option.map_some]
  | some hit =>
    have entry := @firstRegionEntry_some leg ⟨w.tCursor, w.cursorPrice, false⟩ hhas hprice _ _ _
      hentry
    have hturn := ht.turn_some hs hentry entry.first.1.2.1 entry.first.1.1.le_one
    obtain ⟨w', rest, hwin, hres, hafter⟩ :=
      hl.hit leg legs w hit n (by omega) hpos hhas entry
    refine ⟨_, ?_, .inr ⟨_, rest, rfl, rfl, entry.firesAt hhas.nonneg kind, hafter⟩⟩
    rw [resume_next (hturn.trans hwin), hres]

/-- **A gated trigger fires at the first place of its region on a path.** -/
theorem Tests.runLegs (hneed : need + 1 ≤ matchTurns) :
    ∀ legs, (∀ l ∈ legs, Positive l) →
      ∃ reports, Matching.runLegs r (some state) legs = some reports ∧
        Fires kind legs origin (inRegion · level le) level (after legs) reports := by
  intro legs
  induction legs with
  | nil => exact fun _ => ⟨[], rfl, .inl ⟨rfl, by ext q; simp [reach]⟩⟩
  | cons leg legs ih =>
    intro hpos
    have hrest := ih fun l hl => hpos l (List.mem_cons_of_mem _ hl)
    rw [runLegs_cons (observeTrails_other ht.1 _)]
    exact Tests.resume_of_runLegs ht hl hrest _ hneed rfl hpos leg.has_zero
      leg.price_zero.symm

end Regions

/-! ## Limits, stops and stop-limits -/

section Levels

variable {price limit : ℚ}

theorem tests_limit (ht : r.trigger = .limit price) : Tests r .limitReady .fill price r.buy :=
  ⟨by simp, fun _ _ _ => by simp only [reachTrigger, ht]⟩

theorem tests_stop (ht : r.trigger = .stop price) :
    Tests r .stopIdle .activateStop price (!r.buy) :=
  ⟨by simp, fun _ _ _ => by simp only [reachTrigger, ht]⟩

theorem tests_stopLimitPending (ht : r.trigger = .stopLimit price limit) :
    Tests r .stopLimitPending .activateStopLimit price (!r.buy) :=
  ⟨by simp, fun _ _ _ => by simp only [reachTrigger, ht]⟩

theorem tests_stopLimitLive (ht : r.trigger = .stopLimit price limit) :
    Tests r .stopLimitLive .fill limit r.buy :=
  ⟨by simp, fun _ _ _ => by simp only [reachTrigger, ht]⟩

theorem tests_trailWaitArm {offset arm : ℚ} {seed : Option ℚ}
    (ht : r.trigger = .trail offset (some arm) seed) :
    Tests r .trailWaitArm .beginTrail arm r.buy :=
  ⟨by simp, fun _ _ _ => by simp only [reachTrigger, ht]⟩

theorem leads_fill {level : ℚ} {le : Bool} (ht : Tests r state .fill level le) :
    Leads r state .fill level le 1 fun _ _ rest => rest = [] where
  hit leg legs w hit n hn _ _ _ := by
    obtain ⟨n, rfl⟩ : ∃ m, n = m + 1 := ⟨n - 1, by omega⟩
    exact ⟨_, [], takeWinner_fill ht.1 hit, resume_filled rfl legs, rfl⟩
  next := by
    rintro _ _ _ _ rfl
    rfl

theorem leads_stop (ht : r.trigger = .stop price) :
    Leads r .stopIdle .activateStop price (!r.buy) 2
      fun _ e rest => rest = [{ e with kind := .fill }] where
  hit leg legs w hit n hn _ _ entry := by
    obtain ⟨n, rfl⟩ : ∃ m, n = m + 2 := ⟨n - 2, by omega⟩
    have hin : inRegion hit.price price (!r.buy) := entry.price ▸ entry.first.1.2.2
    have hwin := takeWinner_installed leg w hit .activateStop
      ⟨observeTrails_other (by simp) hit.price, .inl rfl⟩ rfl (applyTrigger_stop ht hin)
    refine ⟨_, _, hwin, ?_, rfl⟩
    rw [resume_active rfl (.inl rfl) ⟨rfl, rfl, rfl⟩, List.append_assoc]
    rfl
  next := by
    rintro _ _ _ _ rfl
    rfl

theorem leads_stopLimit (ht : r.trigger = .stopLimit price limit) :
    Leads r .stopLimitPending .activateStopLimit price (!r.buy) 2
      fun legs e rest => Fires .fill legs e.place (inRegion · limit r.buy) limit
        (fun _ rest => rest = []) rest where
  hit leg legs w hit n hn hpos _ entry := by
    have hlive := tests_stopLimitLive ht
    have hin : inRegion hit.price price (!r.buy) := entry.price ▸ entry.first.1.2.2
    have hwin := takeWinner_installed leg w hit .activateStopLimit
      ⟨observeTrails_other (by simp) hit.price, .inl rfl⟩ rfl (applyTrigger_stopLimit ht hin)
    have hrest := Tests.runLegs hlive (leads_fill hlive) (by decide) legs
      fun l hl => hpos l (List.mem_cons_of_mem _ hl)
    obtain ⟨reports, hres, hfires⟩ := Tests.resume_of_runLegs hlive (leads_fill hlive) hrest
      ⟨some .stopLimitLive, hit.t, hit.price, _, _⟩ hn rfl hpos entry.first.1.1 entry.price
    refine ⟨_, reports, hwin, ?_, hfires⟩
    rw [hres, List.append_assoc]
    rfl
  next leg legs e rest h := h.later fun _ _ hnil => by rw [hnil]; rfl

end Levels

/-! ## Trails along the path -/

section Trails

variable {offset : ℚ} {arm seed : Option ℚ} (ht : r.trigger = .trail offset arm seed) {best : ℚ}

theorem price_pos {leg : Leg ℚ} (hl : Positive leg) {t : ℚ} (hhas : leg.Has t) :
    0 < leg.price t := by
  obtain ⟨h₀, h₁⟩ := hl
  rcases leg.price_between hhas.nonneg hhas.le_one with h | h
  · exact (Leg.price_zero leg ▸ h₀).trans_le h.1
  · exact (Leg.price_one leg ▸ h₁).trans_le h.1

/-- Where a trail's search hits, the price is in the region of the stop and no
better than the best. -/
theorem StopHit.inRegion {t₀ : ℚ} {buy : Bool} {hit : GeometricHit} (ho : 0 ≤ offset)
    (h : StopHit leg t₀ best offset buy hit) :
    inRegion hit.price (trailLevel best offset buy) (!buy) ∧ NoBetter buy best hit.price := by
  have hin : Matching.inRegion hit.price (trailLevel best offset buy) (!buy) := by
    rcases h.stands with ⟨_, _, hoff⟩ | ⟨hz, hbest⟩
    · rw [← h.price, standsOff] at hoff
      split at hoff
      · next hz =>
        subst hz
        cases buy with
        | true => simpa [trailLevel] using (show best < hit.price from hoff).le
        | false => simpa [trailLevel] using (show hit.price < best from hoff).le
      · exact hoff
    · subst hz
      rw [hbest]
      cases buy <;> simp [trailLevel]
  refine ⟨hin, ?_⟩
  cases buy with
  | true =>
    simp only [trailLevel, if_true, Bool.not_true, inRegion_false] at hin
    exact noBetter_true.mpr (by linarith)
  | false =>
    simp only [trailLevel, Bool.false_eq_true, if_false, Bool.not_false, inRegion_true] at hin
    exact noBetter_false.mpr (by linarith)

include ht

theorem turn_track_none (hs : w.state = some (.trailTrack best)) {includeCurrent : Bool}
    (h : trailStopHit leg.start leg.stop ⟨w.tCursor, w.cursorPrice, false⟩ best offset r.buy =
      none) : turn r leg includeCurrent w = .idle := by
  simp only [turn, hs, matchRow, reachTrigger, ht, checkedTrailStop_eq (offset_nonneg ht), h,
    TriggerReach.ofHit]

theorem turn_track_some (hs : w.state = some (.trailTrack best)) (hl : Positive leg)
    (hb : 0 < best) {includeCurrent : Bool} {hit : GeometricHit}
    (h : trailStopHit leg.start leg.stop ⟨w.tCursor, w.cursorPrice, false⟩ best offset r.buy =
      some hit) (hstop : StopHit leg w.tCursor best offset r.buy hit) :
    turn r leg includeCurrent w =
      .next ⟨some (.trailActive best), hit.t, hit.price, some hit,
        w.reports ++ [⟨.activateTrail, 0, hit.t, hit.price, hit.atLevel⟩]⟩ := by
  have ho := offset_nonneg ht
  obtain ⟨hin, hworse⟩ := hstop.inRegion ho
  have hrow : matchRow r leg includeCurrent w (.trailTrack best) = .hit hit .activateTrail := by
    simp only [matchRow, reachTrigger, ht, checkedTrailStop_eq ho, h, TriggerReach.ofHit,
      not_lt.mpr hstop.after, not_lt.mpr hstop.has.le_one, or_self, if_false]
  have hobs : observeTrails r (.trailTrack best) hit.price = some (.trailTrack best) := by
    rw [observeTrails_track ht ho, favourable_eq_left hworse]
  have happly := applyTrigger_activateTrail ht hb (hstop.price ▸ price_pos hl hstop.has) hin
  simp only [turn, hs, hrow]
  exact takeWinner_installed leg w hit .activateTrail ⟨hobs, .inl rfl⟩ rfl happly

theorem finishLeg_track (hs : w.state = some (.trailTrack best)) (hhas : leg.Has w.tCursor)
    (hb : NoBetter r.buy best (leg.price w.tCursor)) :
    finishLeg r leg w = some (some (.trailTrack (favourable r.buy best leg.stop))) := by
  simp only [finishLeg, hs, observeTrails_track ht (offset_nonneg ht), Option.map_some]
  split
  · rfl
  · next hend =>
    -- the cursor already stands at the leg's last price
    have hstop : leg.price w.tCursor = leg.stop := by
      cases leg with
      | point p => exact Leg.price_of_flat rfl _
      | segment a b =>
        have h1 : w.tCursor = 1 := le_antisymm hhas.2 (by simpa using hend)
        rw [h1, Leg.price_one]
    rw [hstop] at hb
    rw [favourable_eq_left hb]

/-- An armed trail from a cursor of a leg on, given what it does after the leg.
The best it tracks covers what it has seen up to the cursor. -/
theorem resume_track {legs : List (Leg ℚ)}
    (hrest : ∀ best, 0 < best →
      ∃ reports, runLegs r (some (.trailTrack best)) legs = some reports ∧
        TrailFires legs origin {best} offset r.buy reports)
    {leg : Leg ℚ} (w : Working) {n : ℕ} (hn : 3 ≤ n) (hs : w.state = some (.trailTrack best))
    (hl : Positive leg) (hhas : leg.Has w.tCursor) (hprice : w.cursorPrice = leg.price w.tCursor)
    (hb : NoBetter r.buy best (leg.price w.tCursor)) (hbpos : 0 < best) :
    ∃ reports, resume r n leg w legs = some (w.reports ++ reports) ∧
      TrailFires (leg :: legs) (place 0 w.tCursor) {best} offset r.buy reports := by
  have ho := offset_nonneg ht
  obtain ⟨n, rfl⟩ : ∃ m, n = m + 3 := ⟨n - 3, by omega⟩
  cases hhit : trailStopHit leg.start leg.stop ⟨w.tCursor, w.cursorPrice, false⟩ best offset
      r.buy with
  | none =>
    have hnone := @trailStopHit_none leg ⟨w.tCursor, w.cursorPrice, false⟩ hhas hprice _ _ _ ho
      hhit
    obtain ⟨reports, hrun, hfires⟩ := hrest _ (lt_favourable hbpos hl.2)
    refine ⟨reports.map Report.next, ?_, hfires.next hb hhas ho hnone⟩
    rw [resume_idle (turn_track_none ht hs hhit), finishLeg_track ht hs hhas hb,
      Option.bind_some, hrun, Option.map_some]
  | some hit =>
    have hstop := @trailStopHit_some leg ⟨w.tCursor, w.cursorPrice, false⟩ hhas hprice _ _ _ ho _
      hhit
    refine ⟨_, ?_, .inr ⟨_, rfl, rfl, hstop.trailFiresAt hb ho .activateTrail⟩⟩
    rw [resume_next (turn_track_some ht hs hl hbpos hhit hstop),
      resume_active rfl (.inr ⟨best, rfl⟩) ⟨rfl, rfl, rfl⟩, List.append_assoc]
    rfl

/-- **An armed trail activates at the place from which on the path stands off
its best.** -/
theorem runLegs_track (legs : List (Leg ℚ)) (hpos : ∀ l ∈ legs, Positive l) :
    ∀ best, 0 < best →
      ∃ reports, runLegs r (some (.trailTrack best)) legs = some reports ∧
        TrailFires legs origin {best} offset r.buy reports := by
  induction legs with
  | nil => exact fun best _ => ⟨[], rfl, .inl ⟨rfl, by ext q; simp [standsOffSince]⟩⟩
  | cons leg legs ih =>
    intro best hbpos
    have hl : Positive leg := hpos leg List.mem_cons_self
    have hworse : NoBetter r.buy (favourable r.buy best leg.start) (leg.price 0) := by
      rw [Leg.price_zero]
      exact favourable_noBetter_right r.buy best leg.start
    obtain ⟨reports, hres, hfires⟩ := resume_track ht
      (ih fun l hl => hpos l (List.mem_cons_of_mem _ hl))
      { state := some (.trailTrack (favourable r.buy best leg.start)), tCursor := 0,
        cursorPrice := leg.start } (show 3 ≤ matchTurns by decide) rfl hl leg.has_zero
      leg.price_zero.symm hworse (lt_favourable hbpos hl.1)
    refine ⟨reports, ?_, hfires.congr fun q hq hle b => ?_⟩
    · rw [runLegs_cons (observeTrails_track ht (offset_nonneg ht) best leg.start)]
      exact hres
    · -- the leg's first price is shown at its start
      refine isBest_favourable ⟨place 0 0, ?_, le_rfl, hle, ?_⟩
      · exact (head_mem_points leg legs).mpr leg.has_zero
      · rw [priceAt_head, Leg.price_zero]

omit ht in
theorem isBest_armBest {legs : List (Leg ℚ)} {start q : Place ℚ} (hmem : start ∈ points legs)
    (hle : start ≤ q) (b : ℚ) :
    IsBest r.buy ({armBest r seed (Path.priceAt legs start)} ∪ seen legs start q) b ↔
      IsBest r.buy ({s | s ∈ seed} ∪ seen legs start q) b := by
  have hshown : Path.priceAt legs start ∈ seen legs start q := ⟨start, hmem, le_rfl, hle, rfl⟩
  cases seed with
  | none =>
    have h1 : ({Path.priceAt legs start} : Set ℚ) ∪ seen legs start q = seen legs start q :=
      Set.union_eq_self_of_subset_left (by simpa using hshown)
    have h2 : {s | s ∈ (none : Option ℚ)} ∪ seen legs start q = seen legs start q := by simp
    rw [armBest, Option.elim_none, h1, h2]
  | some s =>
    have h2 : {x | x ∈ some s} = {s} := by
      ext x
      simp [eq_comm]
    rw [armBest, Option.elim_some, h2, favourable_comm]
    exact isBest_favourable hshown

theorem armBest_pos {reached : ℚ} (h : 0 < reached) : 0 < armBest r seed reached := by
  have hl := r.levels
  simp only [ht, validateLevels, decide_eq_true_eq] at hl
  cases hseed : seed with
  | none => exact h
  | some s => exact lt_favourable h (hl.2.1 s hseed)

omit ht in
theorem armBest_noBetter (r : Request) (seed : Option ℚ) (reached : ℚ) :
    NoBetter r.buy (armBest r seed reached) reached := by
  cases seed with
  | none => exact NoBetter.refl r.buy reached
  | some s => exact favourable_noBetter_left r.buy reached s

theorem resume_armed {legs : List (Leg ℚ)} {leg : Leg ℚ} (hpos : ∀ l ∈ leg :: legs, Positive l)
    (w : Working) {n : ℕ} (hn : 3 ≤ n) (hhas : leg.Has w.tCursor)
    (hprice : w.cursorPrice = leg.price w.tCursor)
    (hs : w.state = some (.trailTrack (armBest r seed w.cursorPrice))) :
    ∃ reports, resume r n leg w legs = some (w.reports ++ reports) ∧
      TrailFires (leg :: legs) (place 0 w.tCursor) {s | s ∈ seed} offset r.buy reports := by
  have hl : Positive leg := hpos leg List.mem_cons_self
  rw [hprice] at hs
  obtain ⟨reports, hres, hfires⟩ := resume_track ht
    (runLegs_track ht legs fun l hl => hpos l (List.mem_cons_of_mem _ hl)) w hn hs hl hhas hprice
    (armBest_noBetter r seed _) (armBest_pos ht (price_pos hl hhas))
  refine ⟨reports, hres, hfires.congr fun q hq hle b => ?_⟩
  rw [← priceAt_head leg legs]
  exact isBest_armBest ((head_mem_points leg legs).mpr hhas) hle b

end Trails

theorem leads_trail {offset arm : ℚ} {seed : Option ℚ}
    (ht : r.trigger = .trail offset (some arm) seed) :
    Leads r .trailWaitArm .beginTrail arm r.buy 3
      fun legs e rest => TrailFires legs e.place {s | s ∈ seed} offset r.buy rest where
  hit leg legs w hit n hn hpos _ entry := by
    have hin : ∀ a ∈ some arm, inRegion hit.price a r.buy := by
      rintro a ha
      rw [← Option.mem_some_iff.mp ha]
      exact entry.price ▸ entry.first.1.2.2
    have hwin := takeWinner_installed leg w hit .beginTrail
      ⟨observeTrails_other (by simp) hit.price, .inl rfl⟩ rfl (applyTrigger_begin ht hin)
    obtain ⟨reports, hres, hfires⟩ := resume_armed ht hpos
      ⟨some (.trailTrack (armBest r seed hit.price)), hit.t, hit.price, _, _⟩ hn entry.first.1.1
      entry.price rfl
    refine ⟨_, reports, hwin, ?_, hfires⟩
    rw [hres, List.append_assoc]
    rfl
  next leg legs e rest h := h.later

theorem runLegs_trail_unarmed {offset : ℚ} {seed : Option ℚ}
    (ht : r.trigger = .trail offset none seed) (legs : List (Leg ℚ))
    (hpos : ∀ l ∈ legs, Positive l) :
    ∃ reports, runLegs r (some .trailWaitArm) legs = some reports ∧
      Fires .beginTrail legs origin (armRegion none r.buy) 0
        (fun e rest => TrailFires legs e.place {s | s ∈ seed} offset r.buy rest) reports := by
  cases legs with
  | nil => exact ⟨[], rfl, .inl ⟨rfl, by ext q; simp [reach]⟩⟩
  | cons leg legs =>
    have hturn : turn r leg true ⟨some .trailWaitArm, 0, leg.start, none, []⟩ =
        .next ⟨some (.trailTrack (armBest r seed leg.start)), 0, leg.start, none,
          [⟨.beginTrail, 0, 0, leg.start, false⟩]⟩ := by
      simp only [turn, matchRow, reachTrigger, ht, lt_irrefl, not_lt.mpr zero_le_one, or_self,
        if_false]
      exact takeWinner_installed leg ⟨some .trailWaitArm, 0, leg.start, none, []⟩
        ⟨0, leg.start, false⟩ .beginTrail ⟨observeTrails_other (by simp) _, .inl rfl⟩ rfl
        (applyTrigger_begin ht (by simp))
    obtain ⟨reports, hres, hfires⟩ := resume_armed ht hpos
      ⟨some (.trailTrack (armBest r seed leg.start)), 0, leg.start, none,
        [⟨.beginTrail, 0, 0, leg.start, false⟩]⟩ (le_refl 3) leg.has_zero leg.price_zero.symm rfl
    refine ⟨_, ?_, .inr ⟨⟨.beginTrail, 0, 0, leg.start, false⟩, reports, rfl, rfl,
      ⟨?_, ?_, ?_, ?_⟩, hfires⟩⟩
    · rw [runLegs_cons (observeTrails_other (by simp) _)]
      exact (resume_next hturn legs).trans hres
    · refine ⟨⟨?_, le_rfl, by simp [armRegion]⟩, fun q hq => hq.2.1⟩
      exact (head_mem_points leg legs).mpr leg.has_zero
    · change leg.start = Path.priceAt (leg :: legs) (place 0 0)
      rw [priceAt_head, Leg.price_zero]
    · simp
    · simp

/-! ## The law -/

/-- A run never fails, and its reports are where the path first reaches what the
trigger waits for. -/
theorem run_firesAtFirstReach (r : Request) (path : PricePath) :
    ∃ reports, run r path = some reports ∧ FiresAtFirstReach r path.legs reports := by
  unfold run FiresAtFirstReach
  cases ht : r.trigger with
  | limit price =>
    exact Tests.runLegs (tests_limit ht) (leads_fill (tests_limit ht)) (by decide) _ path.positive
  | stop price =>
    exact Tests.runLegs (tests_stop ht) (leads_stop ht) (by decide) _ path.positive
  | stopLimit stop limit =>
    exact Tests.runLegs (tests_stopLimitPending ht) (leads_stopLimit ht) (by decide) _
      path.positive
  | trail offset arm seed =>
    cases arm with
    | none => exact runLegs_trail_unarmed ht _ path.positive
    | some a =>
      have hregion : armRegion (some a) r.buy = (inRegion · a r.buy) := by
        funext p
        simp [armRegion]
      simp only [hregion, Option.getD_some]
      exact Tests.runLegs (tests_trailWaitArm ht) (leads_trail ht) (by decide) _ path.positive

end PineForge.Matching
