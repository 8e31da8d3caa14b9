import Mathlib

/-!
# Calculation schedules

From the driving events of a trace, a declared cadence and a bar clock, which bar every calculation
belongs to, where on the event-time axis it stands and whether it confirms its bar. One derivation
serves the count query and the apply that commits.
-/

namespace PineForge.Calc

/-- The driving events; a raw number outside the registry names no event. -/
inductive EventKind where
  | warmupBar
  | bar
  | tick
  | advanceTime
  | unknown (raw : ℕ)
deriving DecidableEq, Repr

/-- The kind is in the registry. -/
def EventKind.isKnown : EventKind → Bool
  | .unknown _ => false
  | _ => true

/-- The event opens a bar when none is open. -/
def EventKind.isData : EventKind → Bool
  | .warmupBar | .bar | .tick => true
  | .advanceTime | .unknown _ => false

/-- An event of the driving feed. -/
structure Event where
  kind : EventKind
  timeMs : ℤ
deriving DecidableEq, Repr

/-- Calculate when time advances. -/
def cadenceAdvanceTime : UInt32 := 1

/-- Calculate when a bar closes. -/
def cadenceBarClose : UInt32 := 2

/-- Calculate on a tick. -/
def cadenceTick : UInt32 := 4

/-- The cadences there are. -/
def cadenceMask : UInt32 := cadenceAdvanceTime ||| cadenceBarClose ||| cadenceTick

/-- A cadence contains the bar-close bit and no bit outside the set. -/
def cadenceValid (cadence : UInt32) : Bool :=
  cadence &&& ~~~cadenceMask = 0 && cadence &&& cadenceBarClose ≠ 0

/-- Before or after the event. -/
inductive Phase where
  | pre
  | post
deriving DecidableEq, Repr

/-- Whether the bar may still change. -/
inductive Finality where
  | provisional
  | confirmed
deriving DecidableEq, Repr

/-- One planned calculation. -/
structure Point where
  eventIndex : ℕ
  event : ℕ
  barKey : ℕ
  calcOrdinal : ℕ
  calcInEvent : UInt64
  atMs : ℤ
  phase : Phase
  finality : Finality
deriving DecidableEq, Repr

/-- How a plan ends. -/
inductive Status where
  | ok
  | notEngaged
  | badArguments
  | badCadence
  | unknownEventKind
  | barKeyExhausted
  | traceExhausted
  | noBarSlot
  | barEndNotAfterEvent
  | positionOutsideWindow
deriving DecidableEq, Repr

/-- The largest ordinal of 64 bits, which is never assigned to an event and never passed by a
bar. -/
def maxOrdinal : ℕ := 2 ^ 64 - 1

/-- The last instant of 64 bits. -/
def maxTime : ℤ := 2 ^ 63 - 1

/-- One bar interval of the timebase. The lookup of the next one starts at an instant of 64 bits, so
that a walk that only moves forward ends. -/
structure Slot where
  endMs : ℤ
  nextOpenMs : ℤ
  tradable : Bool
  bounded : Bool := true
  nextOpen_le : nextOpenMs ≤ maxTime

/-- The slot that holds an instant, when the timebase has one there. -/
def BarClock := ℤ → Option Slot

/-- What a schedule carries to the next one. -/
structure State where
  traceFirst : ℕ := 1
  hasPrevEvent : Bool := false
  prevEventMs : ℤ := 0
  hasLastKey : Bool := false
  lastBarKey : ℕ := 0
  barOpen : Bool := false
  openEndMs : ℤ := 0
  calcInBar : ℕ := 0
  cursorMs : ℤ := 0
deriving DecidableEq, Repr

/-- What planning answers. -/
structure Plan where
  status : Status
  count : UInt64
  after : State
  points : List Point
deriving DecidableEq, Repr

/-- The working values of a derivation: the state, the calculations planned, those of the event in
hand, and the points collected. -/
structure Draft where
  state : State
  planned : UInt64
  calcInEvent : UInt64
  rows : List Point
deriving DecidableEq, Repr

/-- A draft before its first event. -/
def Draft.start (before : State) : Draft := ⟨before, 0, 0, []⟩

/-- The draft with another state. -/
def Draft.withState (d : Draft) (s : State) : Draft := { d with state := s }

/-- The event in hand: its index in the schedule, its trace ordinal and its time, and whether the
points are collected. -/
structure Driving where
  wantPoints : Bool
  index : ℕ
  ordinal : ℕ
  time : ℤ

section

variable (clock : BarClock) (cadence : UInt32) (e : Driving)

/-- A position lies in the window of its driving event: at the event for a calculation after it,
between the previous event and this one for a calculation before it. -/
def inside (phase : Phase) (position : ℤ) (s : State) : Bool :=
  match phase with
  | .post => position = e.time
  | .pre => (!s.hasPrevEvent || s.prevEventMs ≤ position) && position ≤ e.time

/-- Plan one point. -/
def emit (phase : Phase) (position : ℤ) (key inBar : ℕ) (finality : Finality) (d : Draft) :
    Except Status Draft :=
  if inside e phase position d.state then
    .ok { d with
      planned := d.planned + 1
      calcInEvent := d.calcInEvent + 1
      rows := if e.wantPoints then
          d.rows ++ [⟨e.index, e.ordinal, key, inBar, d.calcInEvent, position, phase, finality⟩]
        else d.rows }
  else .error .positionOutsideWindow

/-- Whether the timebase holds time boundaries at an instant. A clock with no slot there says
nothing against it. -/
def hasBoundaries (instant : ℤ) : Bool :=
  match clock instant with
  | none => true
  | some slot => slot.bounded

/-- The bar in hand has ended. -/
def closeBar (d : Draft) : Draft :=
  d.withState { d.state with barOpen := false, openEndMs := 0, calcInBar := 0 }

/-- One more calculation of the bar in hand. -/
def countCalc (d : Draft) : Draft :=
  d.withState { d.state with calcInBar := (d.state.calcInBar + 1) % 2 ^ 64 }

/-- A bar opens at the event, in the interval the timebase holds there. -/
def openBar (d : Draft) : Except Status Draft :=
  if d.state.hasLastKey && d.state.lastBarKey = maxOrdinal then .error .barKeyExhausted
  else
    match clock e.time with
    | none => .error .noBarSlot
    | some slot =>
      if slot.bounded && slot.endMs ≤ e.time then .error .barEndNotAfterEvent
      else
        .ok (d.withState { d.state with
          lastBarKey := if d.state.hasLastKey then d.state.lastBarKey + 1 else 0
          hasLastKey := true
          barOpen := true
          openEndMs := if slot.bounded then slot.endMs else 0
          cursorMs := if slot.bounded then slot.nextOpenMs else d.state.cursorMs
          calcInBar := 0 })

/-- Time reaching the end of the open bar closes it before the payload of the event. -/
def closeDue (d : Draft) : Except Status Draft :=
  if d.state.barOpen && d.state.openEndMs ≤ e.time && hasBoundaries clock e.time then
    (emit e .pre d.state.openEndMs d.state.lastBarKey d.state.calcInBar .confirmed d).map closeBar
  else .ok d

/-- A quiet interval is a bar of its own where the timebase says it yields one. -/
def quietBar (slot : Slot) (d : Draft) : Except Status Draft :=
  if slot.tradable then
    if d.state.lastBarKey = maxOrdinal then .error .barKeyExhausted
    else
      emit e .pre slot.endMs (d.state.lastBarKey + 1) 0 .confirmed
        (d.withState { d.state with lastBarKey := d.state.lastBarKey + 1 })
  else .ok d

/-- Move the cursor to the next open. -/
def moveCursor (slot : Slot) (d : Draft) : Draft :=
  d.withState { d.state with cursorMs := slot.nextOpenMs }

/-- The quiet intervals the event passes over, from the cursor on. -/
def quietBars (d : Draft) : Except Status Draft :=
  if d.state.hasLastKey && !d.state.barOpen then
    match clock d.state.cursorMs with
    | none => .ok d
    | some slot =>
      if slot.bounded = false then .ok d
      else if _h : e.time < slot.endMs ∨ slot.nextOpenMs ≤ d.state.cursorMs then .ok d
      else
        match quietBar e slot d with
        | .error why => .error why
        | .ok d' => quietBars (moveCursor slot d')
  else .ok d
termination_by (maxTime - d.state.cursorMs).toNat
decreasing_by
  have hle := slot.nextOpen_le
  change (maxTime - slot.nextOpenMs).toNat < (maxTime - d.state.cursorMs).toNat
  omega

/-- The open bar, or one opened at the event. -/
def barAt (d : Draft) : Except Status Draft :=
  if d.state.barOpen then .ok d else openBar clock e d

/-- An intrabar calculation after the event. -/
def emitProvisional (d : Draft) : Except Status Draft :=
  (emit e .post e.time d.state.lastBarKey d.state.calcInBar .provisional d).map countCalc

/-- The calculations that the event itself drives. -/
def payload (kind : EventKind) (d : Draft) : Except Status Draft :=
  match kind with
  | .tick => do
    let d ← barAt clock e d
    if cadence &&& cadenceTick ≠ 0 then emitProvisional e d else .ok d
  | .warmupBar | .bar => do
    let d ← barAt clock e d
    (emit e .post e.time d.state.lastBarKey d.state.calcInBar .confirmed d).map closeBar
  | .advanceTime =>
    if d.state.barOpen && cadence &&& cadenceAdvanceTime ≠ 0 then emitProvisional e d else .ok d
  | .unknown _ => .ok d

/-- The event is behind; the count of its calculations starts over. -/
def passEvent (d : Draft) : Draft :=
  { d with
    calcInEvent := 0
    state := { d.state with
      hasPrevEvent := true
      prevEventMs := e.time
      traceFirst := d.state.traceFirst + 1 } }

end

section

variable (clock : BarClock) (cadence : UInt32) (wantPoints : Bool)

/-- The body of the loop over the events. -/
def planEvent (index : ℕ) (event : Event) (d : Draft) : Except Status Draft :=
  if event.kind.isKnown = false then .error .unknownEventKind
  else if d.state.traceFirst = maxOrdinal then .error .traceExhausted
  else do
    let e : Driving := ⟨wantPoints, index, d.state.traceFirst, event.timeMs⟩
    let closed ← closeDue clock e d
    let quiet ← quietBars clock e closed
    let paid ← payload clock cadence e event.kind quiet
    return passEvent e paid

/-- Plan the events in order. -/
def planEvents (index : ℕ) (d : Draft) : List Event → Except Status Draft
  | [] => .ok d
  | event :: rest => do
    let d ← planEvent clock cadence wantPoints index event d
    planEvents (index + 1) d rest

/-- A derivation that is not accepted returns the state it was given and no points. -/
def refused (before : State) (why : Status) : Plan := ⟨why, 0, before, []⟩

/-- A missing event array is one with a nonzero count. -/
def planSchedule (before : State) (events : Option (List Event)) : Plan :=
  if cadenceValid cadence then
    match events with
    | none => refused before .badArguments
    | some events =>
      match planEvents clock cadence wantPoints 0 (.start before) events with
      | .error why => refused before why
      | .ok d => ⟨.ok, d.planned, d.state, d.rows⟩
  else refused before .badCadence

end

/-! ## The group of a consumer -/

/-- The schedule group, which belongs to the run generation it was enabled in. -/
structure CalcGroup where
  runGeneration : ℕ
  state : State
deriving DecidableEq, Repr

/-- The consumer as planning reads it. -/
structure Consumer where
  consumedHighWater : ℕ
  calcGroup : Option CalcGroup
deriving DecidableEq, Repr

namespace Consumer

variable (clock : BarClock) (cadence : UInt32)

/-- The plan of the consumer's group. -/
def calcSchedulePlan (c : Consumer) (wantPoints : Bool) (events : Option (List Event)) : Plan :=
  match c.calcGroup with
  | none => refused {} .notEngaged
  | some group =>
    if group.runGeneration = c.consumedHighWater then
      planSchedule clock cadence wantPoints group.state events
    else refused {} .notEngaged

/-- An accepted plan is committed. -/
def calcScheduleApply (c : Consumer) (events : Option (List Event)) : Plan × Consumer :=
  let plan := c.calcSchedulePlan clock cadence true events
  (plan, if plan.status = .ok then
      { c with calcGroup := c.calcGroup.map fun group => { group with state := plan.after } }
    else c)

end Consumer

end PineForge.Calc
