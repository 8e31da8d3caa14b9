import PineForge.Machine.Arith

/-!
# Working requests: the data model

The data of `native_order.hpp` that the working book reads: handles, a request and its definition,
the live row the core keeps for it, and what a command observes of the position book. A variant of
which only the kind is asked has no data here. Numbers are over an `Arith` type; counters and
ordinals are `ℕ`.
-/

namespace PineForge.Orders

/-! ## Names -/

/-- `std::numeric_limits<uint64_t>::max()`. -/
def u64Max : ℕ := 2 ^ 64 - 1

/-- A run of a session. -/
structure RunIdentity where
  sessionKey : String
  runNumber : ℕ
  deriving DecidableEq, Repr

/-- A request's incarnation in a run. -/
structure RequestHandle where
  run : RunIdentity
  incarnation : ℕ
  deriving DecidableEq, Repr

/-- Long or short. -/
inductive Side where
  | long
  | short
  deriving DecidableEq, Repr

/-- When a request was accepted. -/
structure Birth where
  acceptanceOrdinal : ℕ
  decisionTimeLowerBound : ℤ
  deriving DecidableEq, Repr

/-- Whether a row was there before a point. -/
def pointEligible (birth : Birth) (pointOrdinal : ℕ) (effectiveTimeMs : ℤ) : Bool :=
  birth.acceptanceOrdinal < pointOrdinal ∧ birth.decisionTimeLowerBound ≤ effectiveTimeMs

/-! ## Coordinates -/

/-- Where a price comes from. -/
inductive NativePriceProvenance where
  | confirmed
  | observedPrint
  | carriedOpen
  | afterCalculationClose
  | modeledOHLCOpen
  | modeledOHLCClose
  | partialFinalized
  | calculation
  | currentExecution
  deriving DecidableEq, Repr

/-- The fields of `NativeCoordinate` that the book reads. -/
structure NativeCoordinate where
  ordinal : ℕ
  effectiveTimeMs : ℤ
  provenance : NativePriceProvenance
  deriving DecidableEq, Repr

/-- Where matching stands. -/
structure MatchCursor where
  point : NativeCoordinate
  deriving DecidableEq, Repr

/-! ## Requests -/

/-- Whether the host opens or closes. -/
inductive HostSizedKind where
  | open_
  | close
  deriving DecidableEq, Repr

/-- What a request asks for. -/
inductive OrderIntent (α : Type) where
  | flatten
  | reduce
  | transact (signedUnits : α)
  | reverseTo (signedUnits : α)
  | hostSized (kind : HostSizedKind) (side : Option Side)
  | sized (side : Side)

/-- When a request fires. -/
inductive Trigger (α : Type) where
  | market
  | limit (price : α)
  | stop (price : α)
  | stopLimit (stop limit : α)
  | trail

/-- What a trigger's levels refer to. -/
inductive TriggerAnchor where
  | absolute
  | fromOwnerFill
  deriving DecidableEq, Repr

/-- How much a point may fill. -/
inductive Capacity (α : Type) where
  | immediateRemaining
  | pointBudget (units : α)

/-- What a request belongs to. -/
inductive Owner where
  | independent
  | waitForApplied
  | bindOpening
  | bindOpenings
  | bindCohort
  deriving DecidableEq, Repr

/-- Whether a request is in a group. -/
inductive Group where
  | noGroup
  | member
  deriving DecidableEq, Repr

/-- A request. -/
structure Request (α : Type) where
  intent : OrderIntent α
  trigger : Trigger α
  capacity : Capacity α
  owner : Owner
  group : Group
  anchor : TriggerAnchor

/-! ## The live row -/

/-- What is left of a request. -/
inductive Remaining (α : Type) where
  | unbound
  | flattenAll
  | units (q : α)
  | deferred
  | noTarget

/-- The scope a row acts in, with the side that a close of the book or of openings is bound to. -/
inductive Authority where
  | bookTransaction
  | wait
  | armedTransaction
  | unboundBookClose
  | bookClose (side : Side)
  | openingClose (side : Side)
  | openingsClose (side : Side)
  | cohortClose
  deriving DecidableEq, Repr

/-- The states of a trigger. -/
inductive TriggerState where
  | marketReady
  | limitReady
  | stopIdle
  | stopActive
  | stopLimitPending
  | stopLimitLive
  | trailWaitArm
  | trailTrack
  | trailActive
  deriving DecidableEq, Repr

/-- What a point leaves a row to fill. -/
inductive Allowance (α : Type) where
  | unset
  | units (pointOrdinal : ℕ) (initial left : α)
  | allScope (pointOrdinal : ℕ)
  | deferred (pointOrdinal : ℕ)

/-- Whether an adjustment waits. -/
inductive PendingAdjustments where
  | none
  | deferred
  deriving DecidableEq, Repr

/-- A `priority` of zero stands for the handle's own incarnation. -/
structure RequestDefinition (α : Type) where
  handle : RequestHandle
  request : Request α
  birth : Birth
  priority : ℕ := 0

/-- A working request. -/
structure LiveRequest (α : Type) where
  definition : RequestDefinition α
  remaining : Remaining α
  authority : Authority
  triggerState : TriggerState
  allowance : Allowance α
  pending : PendingAdjustments

namespace LiveRequest

variable {α : Type}

/-- The handle of a working request. -/
def handle (live : LiveRequest α) : RequestHandle := live.definition.handle

/-- What a working request asks for. -/
def request (live : LiveRequest α) : Request α := live.definition.request

/-- When a working request was accepted. -/
def birth (live : LiveRequest α) : Birth := live.definition.birth

/-- Its priority, the incarnation if none is set. -/
def priority (live : LiveRequest α) : ℕ :=
  if live.definition.priority ≠ 0 then live.definition.priority
  else live.definition.handle.incarnation

end LiveRequest

/-! ## What a command observes -/

/-- The classes of drivers. -/
inductive DriverEligibilityClass where
  | observedPrint
  | carriedOpen
  | tickAfterCalculation
  | confirmedOpen
  | confirmedExcursion
  | confirmedAfterCalculationClose
  | currentExecution
  deriving DecidableEq, Repr

/-- What a point is evaluated under. -/
structure EvaluationContext where
  cursor : MatchCursor
  driverClass : DriverEligibilityClass
  existingMatchingBit : Bool
  deriving DecidableEq, Repr

end PineForge.Orders
