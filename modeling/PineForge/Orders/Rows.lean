import PineForge.Orders.Types

/-!
# Live rows

What a row may do at a point (its eligibility, its side) and the allowance a point leaves it.
-/

namespace PineForge.Orders

open Arith

variable {α : Type} [Arith α]

/-- `finite_positive`. -/
def finitePositive (value : α) : Bool := isFinite value ∧ 0 < value

/-! ## Eligibility -/

/-- A market trigger. -/
def isMarket : Trigger α → Bool
  | .market => true
  | _ => false

/-- A trail that is active. -/
def isTrailActive : TriggerState → Bool
  | .trailActive => true
  | _ => false

/-- Whether a driver may match a trigger. -/
def triggerPermitsDriver (trigger : Trigger α) (state : TriggerState)
    (driverClass : DriverEligibilityClass) (existingMatchingBit : Bool) : Bool :=
  let market := isMarket trigger && !isTrailActive state &&
    match state with
    | .stopActive => false
    | _ => true
  match driverClass with
  | .observedPrint => if market then existingMatchingBit else true
  | .carriedOpen =>
    if market then existingMatchingBit
    else match trigger with
      | .limit _ => true
      | _ => false
  | .tickAfterCalculation => if market then existingMatchingBit else true
  | .confirmedOpen => if market then existingMatchingBit else true
  | .confirmedExcursion => !market
  | .confirmedAfterCalculationClose => if market then existingMatchingBit else false
  | .currentExecution =>
    match trigger, state with
    | .stopLimit _ _, .stopLimitPending => existingMatchingBit
    | .market, .marketReady => existingMatchingBit
    | _, _ => false

/-- `working_is_buy`. -/
def workingIsBuy (live : LiveRequest α) (cohortSide : Option Side) : Bool :=
  let closeSide := match live.authority with
    | .bookClose side => some side
    | .openingClose side => some side
    | .openingsClose side => some side
    | .cohortClose => cohortSide
    | _ => none
  match live.request.intent with
  | .transact signedUnits => 0 < signedUnits
  | .reverseTo signedUnits => 0 < signedUnits
  | .hostSized .open_ (some side) => side = .long
  | .sized side => side = .long
  | _ => closeSide = some .short

/-! ## Allowances and bindings -/

/-- The allowance of a point. -/
def initializeAllowance (remaining : Remaining α) (capacity : Capacity α) (point : ℕ) :
    Allowance α :=
  match remaining with
  | .flattenAll => .allScope point
  | .unbound => .unset
  | .deferred => .deferred point
  | .noTarget => .deferred point
  | .units q =>
    match capacity with
    | .immediateRemaining => .units point q q
    | .pointBudget units => .units point (cmin q units) (cmin q units)

/-- `evaluated_allowance`. -/
def evaluatedAllowance (live : LiveRequest α) (point : ℕ) : Allowance α :=
  initializeAllowance live.remaining live.request.capacity point

end PineForge.Orders
