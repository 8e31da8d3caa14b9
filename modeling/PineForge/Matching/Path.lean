import PineForge.Matching.Geometry
import PineForge.Path.Best

/-!
  One priced request on the matching path (`match_path`, with the trigger
  transitions of `WorkingRequestCore::apply_trigger`).

  The request stands alone in the book and is eligible at every point of the
  path with its allowance already the point's, so every scan of the loop reads
  its one row; a fill takes it whole off the book. A market request has no level
  and no trigger to reach, and is not modelled here. The path's prices are
  positive, as the admission of bars and ticks requires.
-/

namespace PineForge.Matching

open PineForge.Path

/-! ## Requests and trigger states -/

/-- The priced alternatives of `Trigger`. A trail's offset is the price distance
the acceptance resolved. -/
inductive Trigger where
  | limit (price : ℚ)
  | stop (price : ℚ)
  | stopLimit (stop limit : ℚ)
  | trail (offset : ℚ) (armPrice bestSeed : Option ℚ)
  deriving DecidableEq, Repr

/-- `TriggerState`. -/
inductive TriggerState where
  | limitReady
  | stopIdle
  | stopActive
  | stopLimitPending
  | stopLimitLive
  | trailWaitArm
  | trailTrack (best : ℚ)
  | trailActive (bestAtTrigger : ℚ)
  deriving DecidableEq, Repr

/-- `trigger_state_from`. -/
def triggerStateFrom : Trigger → TriggerState
  | .limit _ => .limitReady
  | .stop _ => .stopIdle
  | .stopLimit _ _ => .stopLimitPending
  | .trail _ _ _ => .trailWaitArm

/-- `validate_levels` of a trigger whose levels are written. -/
def validateLevels : Trigger → Bool
  | .limit price => 0 ≤ price
  | .stop price => 0 ≤ price
  | .stopLimit stop limit => 0 ≤ stop ∧ 0 ≤ limit
  | .trail offset armPrice bestSeed =>
    0 ≤ offset ∧ (∀ s ∈ bestSeed, 0 < s) ∧ ∀ a ∈ armPrice, 0 < a

/-- A working request, as far as the matcher's geometry reads it. -/
structure Request where
  buy : Bool
  trigger : Trigger
  levels : validateLevels trigger = true

/-! ## Trigger transitions -/

/-- `TriggerTransition`, each with the price it reached. -/
inductive TriggerTransition where
  | beginTrailTracking (reached : ℚ)
  | observeTrailExtremum (reached : ℚ)
  | activateStop (reached : ℚ)
  | activateStopLimit (reached : ℚ)
  | activateTrail (reached : ℚ)

/-- The core failures of a trigger transition. -/
inductive CoreFailure where
  | unsupportedTransition
  | nonrepresentableQuantity
  deriving DecidableEq, Repr

/-- `Preparation<Installed>` of a trigger transition. -/
inductive Preparation where
  | noChange
  | failed (failure : CoreFailure)
  | installed (state : TriggerState)

/-- `stop_price_reached`. -/
def stopPriceReached (isBuy : Bool) (level reached : ℚ) : Prop :=
  0 ≤ level ∧ (reached = level ∨ inRegion reached level (!isBuy))

instance (isBuy : Bool) (level reached : ℚ) : Decidable (stopPriceReached isBuy level reached) :=
  inferInstanceAs (Decidable (0 ≤ level ∧ (reached = level ∨ inRegion reached level (!isBuy))))

/-- `apply_trigger`. -/
def applyTrigger (r : Request) (state : TriggerState) : TriggerTransition → Preparation
  | .beginTrailTracking reached =>
    match state with
    | .trailWaitArm =>
      match r.trigger with
      | .trail offset armPrice bestSeed =>
        if (checkedTrailStop reached offset r.buy).isNone then .failed .nonrepresentableQuantity
        else if ∃ arm ∈ armPrice, ¬ stopPriceReached (!r.buy) arm reached then
          .failed .unsupportedTransition
        else
          let best := bestSeed.elim reached (favourable r.buy reached)
          if best ≠ reached ∧ (checkedTrailStop best offset r.buy).isNone then
            .failed .nonrepresentableQuantity
          else .installed (.trailTrack best)
      | _ => .failed .nonrepresentableQuantity
    | .trailTrack _ => .noChange
    | _ => .failed .unsupportedTransition
  | .observeTrailExtremum reached =>
    match state with
    | .trailTrack best =>
      let nextBest := favourable r.buy best reached
      if nextBest = best then .noChange
      else match r.trigger with
        | .trail offset _ _ =>
          if (checkedTrailStop nextBest offset r.buy).isNone then .failed .nonrepresentableQuantity
          else .installed (.trailTrack nextBest)
        | _ => .failed .nonrepresentableQuantity
    | _ => .failed .unsupportedTransition
  | .activateStop reached =>
    match state with
    | .stopIdle =>
      match r.trigger with
      | .stop price =>
        if stopPriceReached r.buy price reached then .installed .stopActive
        else .failed .unsupportedTransition
      | _ => .failed .unsupportedTransition
    | .stopActive => .noChange
    | _ => .failed .unsupportedTransition
  | .activateStopLimit reached =>
    match state with
    | .stopLimitPending =>
      match r.trigger with
      | .stopLimit stop _ =>
        if stopPriceReached r.buy stop reached then .installed .stopLimitLive
        else .failed .unsupportedTransition
      | _ => .failed .unsupportedTransition
    | .stopLimitLive => .noChange
    | _ => .failed .unsupportedTransition
  | .activateTrail reached =>
    match state with
    | .trailTrack best =>
      match r.trigger with
      | .trail offset _ _ =>
        match checkedTrailStop best offset r.buy with
        | none => .failed .unsupportedTransition
        | some level =>
          if stopPriceReached r.buy level reached then .installed (.trailActive best)
          else .failed .unsupportedTransition
      | _ => .failed .unsupportedTransition
    | .trailActive _ => .noChange
    | _ => .failed .unsupportedTransition

/-- `observe_trails` for the one request: `none` when the run fails. -/
def observeTrails (r : Request) (state : TriggerState) (price : ℚ) : Option TriggerState :=
  match state with
  | .trailTrack best =>
    if trailBestImproves best price r.buy then
      match applyTrigger r state (.observeTrailExtremum price) with
      | .noChange => some state
      | .failed _ => none
      | .installed after => some after
    else some state
  | _ => some state

/-! ## The matching loop -/

/-- `MatchKind`, less the allowance refresh. -/
inductive MatchKind where
  | activateStop
  | activateStopLimit
  | beginTrail
  | activateTrail
  | fill
  deriving DecidableEq, Repr

/-- `TriggerReach`. -/
inductive TriggerReach where
  | absent
  | hit (hit : GeometricHit) (kind : MatchKind)
  | unpriced
  | unrepresentable

/-- A search's answer as a reach of the given kind. -/
def TriggerReach.ofHit (kind : MatchKind) : Option GeometricHit → TriggerReach
  | none => .absent
  | some found => .hit found kind

/-- `reach_trigger`. -/
def reachTrigger (r : Request) (leg : Leg ℚ) (state : TriggerState) (includeCurrent : Bool)
    (start : GeometricHit) : TriggerReach :=
  let entry level le := firstRegionEntry leg.start leg.stop start level le includeCurrent
  match state, r.trigger with
  | .stopIdle, .stop price => .ofHit .activateStop (entry price (!r.buy))
  | .stopLimitPending, .stopLimit stop _ => .ofHit .activateStopLimit (entry stop (!r.buy))
  | .trailWaitArm, .trail _ none _ => .hit start .beginTrail
  | .trailWaitArm, .trail _ (some arm) _ => .ofHit .beginTrail (entry arm r.buy)
  | .trailTrack best, .trail offset _ _ =>
    match checkedTrailStop best offset r.buy with
    | none => .unrepresentable
    | some _ =>
      .ofHit .activateTrail (trailStopHit leg.start leg.stop start best offset r.buy)
  | .limitReady, .limit price => .ofHit .fill (entry price r.buy)
  | .limitReady, .stopLimit _ limit => .ofHit .fill (entry limit r.buy)
  | .stopLimitLive, .limit price => .ofHit .fill (entry price r.buy)
  | .stopLimitLive, .stopLimit _ limit => .ofHit .fill (entry limit r.buy)
  | .stopActive, _ | .trailActive _, _ => .unpriced
  | _, _ => .absent

/-- One thing the loop did with the request: an activation or the fill, at a
place of the path and a price, and whether that price is the crossed level. -/
structure Report where
  kind : MatchKind
  leg : ℕ
  t : ℚ
  price : ℚ
  atLevel : Bool
  deriving DecidableEq, Repr

/-- The loop's state: the request's trigger state until it is filled, the
cursor, the provenance an activation leaves to its fill, and the reports. -/
structure Working where
  state : Option TriggerState
  tCursor : ℚ
  cursorPrice : ℚ
  transfer : Option GeometricHit := none
  reports : List Report := []

/-- One turn of the loop. -/
inductive Turn where
  | idle
  | failed
  | next (w : Working)

/-- The row a scan makes of the request: where it is next hit and how. -/
def matchRow (r : Request) (leg : Leg ℚ) (includeCurrent : Bool) (w : Working)
    (state : TriggerState) : TriggerReach :=
  match reachTrigger r leg state includeCurrent ⟨w.tCursor, w.cursorPrice, false⟩ with
  | .unpriced =>
    -- the provenance of the activation at this cursor
    let atLevel := w.transfer.any fun h => h.t = w.tCursor ∧ h.atLevel
    .hit ⟨w.tCursor, w.cursorPrice, atLevel⟩ .fill
  | .hit hit kind => if hit.t < w.tCursor ∨ 1 < hit.t then .absent else .hit hit kind
  | other => other

/-- The transition a winning row asks of the core; `none` for a fill. -/
def MatchKind.transition (price : ℚ) : MatchKind → Option TriggerTransition
  | .activateStop => some (.activateStop price)
  | .activateStopLimit => some (.activateStopLimit price)
  | .beginTrail => some (.beginTrailTracking price)
  | .activateTrail => some (.activateTrail price)
  | .fill => none

/-- What the loop does with the winning row. -/
def takeWinner (r : Request) (leg : Leg ℚ) (w : Working) (state : TriggerState)
    (hit : GeometricHit) (kind : MatchKind) : Turn :=
  match if leg.continuous ∧ w.tCursor < hit.t then observeTrails r state hit.price
    else some state with
  | none => .failed
  | some observed =>
    let report : Report := ⟨kind, 0, hit.t, hit.price, hit.atLevel⟩
    match kind.transition hit.price with
    | none => .next ⟨none, hit.t, hit.price, w.transfer, w.reports ++ [report]⟩
    | some transition =>
      match applyTrigger r observed transition with
      -- a passed-over row leaves a book of one request without a winner
      | .noChange => .idle
      | .failed _ => .failed
      | .installed after =>
        let transfer := if kind = .activateStop ∨ kind = .activateTrail then some hit
          else w.transfer
        .next ⟨some after, hit.t, hit.price, transfer, w.reports ++ [report]⟩

/-- What one row does on a leg of the path. -/
def turn (r : Request) (leg : Leg ℚ) (includeCurrent : Bool) (w : Working) : Turn :=
  match w.state with
  | none => .idle
  | some state =>
    match matchRow r leg includeCurrent w state with
    | .absent => .idle
    | .unpriced => .idle
    | .unrepresentable => .failed
    | .hit hit kind => takeWinner r leg w state hit kind

/-- The loop of `match_path`: `none` when the run fails or the turns run out. -/
def matchLoop (r : Request) (leg : Leg ℚ) (includeCurrent : Bool) : ℕ → Working → Option Working
  | 0, _ => none
  | n + 1, w =>
    match turn r leg includeCurrent w with
    | .idle => some w
    | .failed => none
    | .next w' => matchLoop r leg includeCurrent n w'

/-- A trail arms, activates and fills, and one more turn finds nothing. -/
def matchTurns : ℕ := 4

/-- The end of `match_path`: a trail still working observes the last price of a
segment. -/
def finishLeg (r : Request) (leg : Leg ℚ) (w : Working) : Option (Option TriggerState) :=
  match w.state with
  | none => some none
  | some state =>
    if leg.continuous ∧ w.tCursor < 1 then (observeTrails r state leg.stop).map some
    else some (some state)

/-- `match_path` from a cursor to the end of the leg. -/
def matchFrom (r : Request) (leg : Leg ℚ) (includeCurrent : Bool) (w : Working) :
    Option (Option TriggerState × List Report) :=
  (matchLoop r leg includeCurrent matchTurns w).bind fun w =>
    (finishLeg r leg w).map fun after => (after, w.reports)

/-- `match_path` over a whole leg. -/
def matchPath (r : Request) (leg : Leg ℚ) (state : TriggerState) :
    Option (Option TriggerState × List Report) :=
  (observeTrails r state (priceAt leg.start leg.stop 0)).bind fun observed =>
    matchFrom r leg true { state := some observed, tCursor := 0, cursorPrice := leg.start }

/-- The report of a leg once another has been put before the path. -/
def Report.next (report : Report) : Report := { report with leg := report.leg + 1 }

/-- The legs one after another, until the request is filled. -/
def runLegs (r : Request) : Option TriggerState → List (Leg ℚ) → Option (List Report)
  | none, _ => some []
  | some _, [] => some []
  | some state, leg :: legs =>
    (matchPath r leg state).bind fun (after, reports) =>
      (runLegs r after legs).map fun rest => reports ++ rest.map Report.next

/-- A leg whose prices are positive. -/
def Positive (leg : Leg ℚ) : Prop := 0 < leg.start ∧ 0 < leg.stop

/-- A path of legs with positive prices. -/
structure PricePath where
  legs : List (Leg ℚ)
  positive : ∀ leg ∈ legs, Positive leg

/-- A request resting before the path, over the whole of it. -/
def run (r : Request) (path : PricePath) : Option (List Report) :=
  runLegs r (some (triggerStateFrom r.trigger)) path.legs

/-- A segment and a fraction of it at which a request enters the book: born in a
callback there, or armed there after the print. -/
structure Birth where
  fromPrice : ℚ
  toPrice : ℚ
  t : ℚ
  fromPositive : 0 < fromPrice
  toPositive : 0 < toPrice
  nonneg : 0 ≤ t
  le_one : t ≤ 1

/-- The rest of the segment a request is born on. -/
def Birth.leg (birth : Birth) : Leg ℚ := .segment birth.fromPrice birth.toPrice

/-- The print at which the request enters the book. -/
def Birth.price (birth : Birth) : ℚ := priceAt birth.fromPrice birth.toPrice birth.t

/-- A request that entered the book inside a segment, on the rest of that
segment: the print it entered at is consumed. -/
def runBirth (r : Request) (birth : Birth) : Option (Option TriggerState × List Report) :=
  matchFrom r birth.leg false
    { state := some (triggerStateFrom r.trigger), tCursor := birth.t, cursorPrice := birth.price }

end PineForge.Matching
