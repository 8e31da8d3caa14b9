import Mathlib

/-!
# The lifecycle of exit legs

An exit order has three legs: a stop, a limit and a trail. Its lifecycle is changed by actions, each
under an event, against an expected revision: legs are suspended, retired and restored, and a
suspension may wait for a barrier to be completed. Prices are opaque here: a type with the equality
of its bits, an order and a test for NaN.
-/

namespace PineForge.ExitLegs

/-- A number format with values that are not numbers. -/
class HasNaN (ρ : Type) where
  isNaN : ρ → Bool

/-- The legs of an exit. -/
inductive Leg
  | stop | limit | trail
deriving DecidableEq, Repr

/-- What drives an event. -/
inductive Domain
  | ordinary | fillRecalc | magnifier | magnifierFillRecalc | rawTicks
deriving DecidableEq, Repr

/-- When in an event. -/
inductive Phase
  | observation | afterMargin
deriving DecidableEq, Repr

/-- The order of the phases. -/
def Phase.toNat : Phase → ℕ
  | .observation => 0
  | .afterMargin => 1

/-- How an observation is folded in. -/
inductive Fold
  | fromPrefix | continue_
deriving DecidableEq, Repr

/-- An event and its phase. -/
structure Frame where
  event : ℕ
  bar : ℤ
  domain : Domain
  phase : Phase
deriving DecidableEq, Repr

/-- An incarnation and its owner. -/
structure Target where
  incarnation : ℕ
  owner : ℤ
deriving DecidableEq, Repr

/-- The prices of an exit. -/
structure Prices (ρ : Type) where
  limitPrice : ρ
  stopPrice : ρ
  trailPoints : ρ
  trailPrice : ρ
  trailOffset : ρ
  profitTicks : ρ
  lossTicks : ρ
deriving DecidableEq

/-- A definition of an incarnation. -/
structure Definition (ρ : Type) where
  incarnation : ℕ
  revision : ℕ
  value : Option (Prices ρ)
deriving DecidableEq

/-- What a held leg waits for. -/
structure Barrier where
  requested : Frame
  target : Target
  revision : ℕ
deriving DecidableEq, Repr

/-- What is observed while legs wait. -/
structure ObservationWindow (ρ : Type) where
  excluded : Frame
  best : ρ
  observedBefore : ρ
deriving DecidableEq

/-- When a leg was retired. -/
structure Retirement where
  generation : ℕ
  cause : Frame
deriving DecidableEq, Repr

/-- A staged replacement. -/
structure Replacement (ρ : Type) where
  queuePredecessor : ℕ
  revivalDefinition : Definition ρ
  release : Barrier
deriving DecidableEq

/-- Legs that wait. -/
structure Suspension (ρ : Type) where
  cause : Frame
  legs : List Leg
  hold : Option Barrier
  revivalDefinition : Option (Definition ρ)
  replacement : Option (Replacement ρ)
  window : Option (ObservationWindow ρ)
deriving DecidableEq

/-- What an action does. -/
inductive Operation (ρ : Type)
  | bindOwner (owner : ℤ)
  | suspend (legs : List Leg) (hold : Option Barrier) (window : Option (ObservationWindow ρ))
      (retire : List Leg)
  | stageReplacement (relation : Replacement ρ)
  | cancelDeferredActivation
  | restore (legs : List Leg)
  | completeBarrier (completed : Frame) (requested : Option Barrier)
  | observe (high low : ρ) (direction : ℤ) (fold : Fold)
  | cancel (legs : List Leg)
deriving DecidableEq

/-- An action against a revision. -/
structure Action (ρ : Type) where
  target : Target
  expectedRevision : ℕ
  cause : Frame
  operation : Operation ρ
deriving DecidableEq

/-- The answers of `apply`. -/
inductive Result
  | applied | replay | staleIdentity | staleOwner | staleRevision | expiredEvent | conflictingReplay
  | invalidAction | exhausted
deriving DecidableEq, Repr

/-- `UINT64_MAX`. -/
def maxRevision : ℕ := 2 ^ 64 - 1

/-- The state of an exit's legs. -/
structure Lifecycle (ρ : Type) where
  definition : Definition ρ
  target : Target
  revision : ℕ
  generations : Leg → ℕ
  retired : Leg → Option Retirement
  suspension : Option (Suspension ρ)
  last : Option (Action ρ)

namespace Lifecycle

variable {ρ : Type}

/-- A state that nothing is attached to. -/
def new : Lifecycle ρ where
  definition := { incarnation := 0, revision := 0, value := none }
  target := { incarnation := 0, owner := 0 }
  revision := 0
  generations := fun _ => 1
  retired := fun _ => none
  suspension := none
  last := none

/-- The barrier that a suspension waits for. -/
def releaseBarrier (l : Lifecycle ρ) : Option Barrier :=
  l.suspension.bind fun s =>
    match s.replacement with
    | some replacement => some replacement.release
    | none => s.hold

/-! ## Construction -/

/-- `none` where the source throws. -/
def attach (l : Lifecycle ρ) (incarnation : ℕ) (owner : ℤ) : Option (Lifecycle ρ) :=
  if incarnation = 0 ∨ owner < 0 ∨ l.target.incarnation ≠ 0 then none
  else some { l with
    target := { incarnation := incarnation, owner := owner }
    definition := { l.definition with incarnation := incarnation } }

/-- A suspension of the copy. -/
def Suspension.forked (s : Suspension ρ) (target : Target) : Suspension ρ :=
  { s with
    hold := s.hold.map fun b => { b with target := target, revision := 0 }
    replacement := s.replacement.map fun r =>
      { r with queuePredecessor := 0,
               release := { r.release with target := target, revision := 0 } } }

/-- A copy under a new incarnation: no receipt survives, and a barrier is issued to the new
target. -/
def fork (l : Lifecycle ρ) (incarnation : ℕ) (owner : ℤ) : Option (Lifecycle ρ) :=
  if incarnation = 0 ∨ owner < 0 ∨ incarnation = l.target.incarnation then none
  else
    let target : Target := { incarnation := incarnation, owner := owner }
    some { l with
      target := target
      definition := { l.definition with incarnation := incarnation }
      revision := 0
      last := none
      suspension := l.suspension.map (Suspension.forked · target) }

/-- Set the prices. -/
def setPrices (l : Lifecycle ρ) (value : Prices ρ) : Option (Lifecycle ρ) :=
  if l.revision = maxRevision ∨ l.definition.revision = maxRevision then none
  else some { l with
    definition := { l.definition with value := some value, revision := l.definition.revision + 1 }
    revision := l.revision + 1 }

/-! ## Validation -/

/-- Legs without repetition, at least one. -/
def validLegs (legs : List Leg) : Bool := legs.Nodup ∧ legs ≠ []

/-- An operation is well formed. -/
def validPayload (action : Action ρ) : Bool :=
  match action.operation with
  | .suspend legs _ _ retire => validLegs legs && (retire.isEmpty || validLegs retire)
  | .restore legs => validLegs legs
  | .cancel legs => validLegs legs
  | .bindOwner owner => owner ≥ 0
  | .observe _ _ direction _ => direction = 1 ∨ direction = -1
  | _ => true

/-- A barrier that was not issued. -/
def unissued (b : Barrier) : Bool :=
  b.target.incarnation = 0 ∧ b.target.owner = 0 ∧ b.revision = 0

/-- Issue a barrier. -/
def issue (l : Lifecycle ρ) (b : Barrier) : Barrier :=
  { b with target := l.target, revision := l.revision + 1 }

/-- Two barriers are the same. -/
def sameBarrier (a b : Barrier) : Bool :=
  a.target.incarnation = b.target.incarnation ∧ a.target.owner = b.target.owner ∧
    a.revision = b.revision ∧ a.requested.event = b.requested.event ∧
    a.requested.bar = b.requested.bar ∧ a.requested.domain = b.requested.domain ∧
    a.requested.phase = b.requested.phase

/-- Coordinates of one observation domain can be compared; events are one causal sequence. -/
def notAfter (occurrence processing : Frame) : Bool :=
  occurrence.event ≤ processing.event ∧
    (occurrence.domain ≠ processing.domain ∨ occurrence.bar < processing.bar ∨
      (occurrence.bar = processing.bar ∧ occurrence.phase.toNat ≤ processing.phase.toNat))

/-! ## Operations -/

/-- Restore one leg. -/
def restoreLeg (l : Lifecycle ρ) (leg : Leg) : Lifecycle ρ :=
  { l with
    generations := Function.update l.generations leg (l.generations leg + 1)
    retired := Function.update l.retired leg none
    suspension := l.suspension.map fun s => { s with legs := s.legs.filter (· ≠ leg) } }

/-- A suspension without a leg is none. -/
def dropEmptySuspension (l : Lifecycle ρ) : Lifecycle ρ :=
  { l with suspension := l.suspension.filter fun s => !s.legs.isEmpty }

/-- Restore legs. -/
def restore (l : Lifecycle ρ) (legs : List Leg) : Option (Lifecycle ρ) :=
  if validLegs legs = false ∨ legs.any (fun leg => l.generations leg = maxRevision) then none
  else some (legs.foldl restoreLeg l).dropEmptySuspension

/-- Retire one leg. -/
def retireLeg (cause : Frame) (l : Lifecycle ρ) (leg : Leg) : Lifecycle ρ :=
  match l.retired leg with
  | some _ => l
  | none =>
    let retirement : Retirement := { generation := l.generations leg, cause := cause }
    { l with retired := Function.update l.retired leg (some retirement) }

/-- Suspend legs. -/
def suspend (l : Lifecycle ρ) (cause : Frame) (legs : List Leg) (hold : Option Barrier)
    (window : Option (ObservationWindow ρ)) (retire : List Leg) : Option (Lifecycle ρ) :=
  if validLegs legs = false ∨ (retire ≠ [] ∧ validLegs retire = false) then none
  else if hold.any (fun b => !unissued b) then none
  else
    let suspension : Suspension ρ :=
      { cause := cause, legs := legs, hold := hold.map l.issue, revivalDefinition := none,
        replacement := none, window := window }
    some (retire.foldl (retireLeg cause) { l with suspension := some suspension })

/-- Stage a replacement. -/
def stageReplacement (l : Lifecycle ρ) (cause : Frame) (relation : Replacement ρ) :
    Option (Lifecycle ρ) :=
  if relation.revivalDefinition.incarnation = 0 ∨ unissued relation.release = false then none
  else if l.suspension.any (fun s => s.hold.isSome || s.replacement.isSome) then none
  else
    let waiting : Suspension ρ :=
      l.suspension.getD
        { cause := cause, legs := [.stop, .limit], hold := none, revivalDefinition := none,
          replacement := none, window := none }
    some { l with suspension := some { waiting with
      revivalDefinition := some relation.revivalDefinition
      replacement := some { relation with release := l.issue relation.release } } }

/-- Forget the staged replacement. -/
def cancelDeferredActivation (l : Lifecycle ρ) : Option (Lifecycle ρ) :=
  l.suspension.map fun s => { l with suspension := some { s with replacement := none } }

/-- Pass the barrier that is waited for. -/
def completeBarrier (l : Lifecycle ρ) (cause completed : Frame) (requested : Option Barrier) :
    Option (Lifecycle ρ) :=
  match l.suspension, l.releaseBarrier, requested with
  | some s, some expected, some asked =>
    if sameBarrier expected asked = false then none
    else if notAfter expected.requested completed = false ∨ notAfter completed cause = false ∨
        notAfter expected.requested cause = false then none
    else if s.replacement.isSome then l.restore [.stop, .limit, .trail]
    else some { l with suspension := some { s with hold := none } }
  | _, _, _ => none

variable [DecidableEq ρ] [LT ρ] [DecidableLT ρ] [HasNaN ρ]

/-- The best price of a window that excludes the bar it came from. -/
def observeWindow (w : ObservationWindow ρ) (high low : ρ) (direction : ℤ) (fold : Fold) :
    ObservationWindow ρ :=
  let w := if fold = .fromPrefix then { w with observedBefore := w.best } else w
  let price := if direction > 0 then high else low
  if HasNaN.isNaN w.best ∨ (if direction > 0 then w.best < price else price < w.best) then
    { w with best := price }
  else w

/-- Fold an observation into the window. -/
def observe (l : Lifecycle ρ) (cause : Frame) (high low : ρ) (direction : ℤ) (fold : Fold) :
    Option (Lifecycle ρ) :=
  match l.suspension with
  | none => none
  | some s => match s.window with
    | none => none
    | some w =>
      if direction ≠ 1 ∧ direction ≠ -1 then none
      else if cause.event ≤ w.excluded.event ∨
          (cause.domain = w.excluded.domain ∧ cause.bar ≤ w.excluded.bar) then none
      else some { l with
        suspension := some { s with window := some (observeWindow w high low direction fold) } }

/-- Retire legs. -/
def cancel (l : Lifecycle ρ) (cause : Frame) (legs : List Leg) : Option (Lifecycle ρ) :=
  if validLegs legs = false then none else some (legs.foldl (retireLeg cause) l)

/-- Do what an action asks. -/
def perform (l : Lifecycle ρ) (action : Action ρ) : Option (Lifecycle ρ) :=
  match action.operation with
  | .bindOwner owner => some { l with target := { l.target with owner := owner } }
  | .suspend legs hold window retire => l.suspend action.cause legs hold window retire
  | .stageReplacement relation => l.stageReplacement action.cause relation
  | .cancelDeferredActivation => l.cancelDeferredActivation
  | .restore legs => l.restore legs
  | .completeBarrier completed requested => l.completeBarrier action.cause completed requested
  | .observe high low direction fold => l.observe action.cause high low direction fold
  | .cancel legs => l.cancel action.cause legs

/-- Whether the event of an action is behind the last one that was applied. -/
def expired (l : Lifecycle ρ) (event : ℕ) : Bool :=
  event = 0 ∨ l.last.any fun last => event < last.cause.event

/-- `apply`: the checks, then the operation. -/
def apply (l : Lifecycle ρ) (actual : Target) (action : Action ρ) : Result × Lifecycle ρ :=
  if actual.incarnation = 0 ∨ actual.incarnation ≠ l.target.incarnation ∨
      action.target.incarnation ≠ actual.incarnation then (.staleIdentity, l)
  else if actual.owner ≠ l.target.owner ∨ action.target.owner ≠ actual.owner then (.staleOwner, l)
  else if validPayload action = false then (.invalidAction, l)
  else match l.last.filter fun last => action.cause.event = last.cause.event with
  | some last =>
    if action ≠ last then (.conflictingReplay, l)
    else if l.revision = last.expectedRevision + 1 then (.replay, l)
    else (.staleRevision, l)
  | none =>
    if l.expired action.cause.event then (.expiredEvent, l)
    else if action.expectedRevision ≠ l.revision then (.staleRevision, l)
    else if l.revision = maxRevision then (.exhausted, l)
    else match l.perform action with
    | none => (.invalidAction, l)
    | some next => (.applied, { next with revision := next.revision + 1, last := some action })

end Lifecycle

end PineForge.ExitLegs
