import PineForge.Timeframe.Clock

/-!
# The timeframe aggregator

`TimeframeAggregator` gathers input bars into bars of a coarser timeframe. A bucket may be completed
by six rules, by the first bar of the next one, or from outside (`complete_pending_partial`); one
flag remembers that it was.
-/

namespace PineForge.Timeframe

/-- A bar. -/
structure Bar (α : Type) where
  timestamp : ℤ
  openPrice : α
  high : α
  low : α
  close : α
  volume : α
deriving DecidableEq, Repr

/-- A report and whether it is complete. -/
structure AggregatedBar (α : Type) where
  bar : Bar α
  isComplete : Bool
  subBarCount : ℕ
deriving DecidableEq, Repr

/-- The period partition of a calendar aggregator: the nominal calendar, the stamps of a native feed
with the open of each stamp's group, or a source that generates the stamp of an instant and says
whether it is the last. -/
inductive NativePeriods
  | nominal
  | stamped (stamps groupOpen : List ℤ) (lastBound : ℤ)
  | generated (stampAt : ℤ → Option (ℤ × Bool)) (lastBound : ℤ)

/-- How bars are grouped. -/
inductive Mode
  | passthrough
  | ratio (ratio : ℕ) (targetSeconds : ℤ) (lateOpens : List ℤ)
  | calendar (period : CalendarPeriod) (periods : NativePeriods)

/-- What an aggregator is made with. -/
structure Config where
  clock : SymbolClock
  mode : Mode
  inputSeconds : ℤ
  earlyCloseCompletes : Bool

/-- The group so far. -/
structure Aggregator (α : Type) where
  config : Config
  currentBar : Bar α
  observedFirstMs : ℤ
  subBarCount : ℕ
  hasCompleted : Bool
  lastCompletedBar : Bar α
  currentEmittedComplete : Bool

/-! ## Periods of an aggregator -/

namespace NativePeriods

/-- The stamp of the native period that holds an instant, and the open of its group. -/
def periodAt (ms : ℤ) : NativePeriods → Option (ℤ × ℤ)
  | nominal => none
  | stamped stamps groupOpen lastBound => do
    let index ← SymbolClock.stampIndex stamps lastBound ms
    some (stamps.getD index 0, groupOpen.getD index 0)
  | generated stampAt lastBound => do
    let (stamp, last) ← stampAt ms
    if last ∧ ms ≥ lastBound then none else some (stamp, stamp)

/-- Whether periods are installed. -/
def installed : NativePeriods → Bool
  | nominal => false
  | _ => true

end NativePeriods

namespace Config

variable (c : Config)

/-- `bucket_open_ms` of a calendar aggregator. -/
def calendarOpenMs (period : CalendarPeriod) (periods : NativePeriods) (ms : ℤ) : ℤ :=
  match periods.periodAt ms with
  | some (_, groupOpen) => groupOpen
  | none => c.clock.sessionPeriodOpenMs ms period

/-- `period_changes` of a calendar aggregator. -/
def calendarChanges (period : CalendarPeriod) (periods : NativePeriods) (prevMs currMs : ℤ) :
    Bool :=
  if periods.installed then
    c.calendarOpenMs period periods prevMs ≠ c.calendarOpenMs period periods currMs
  else c.clock.crossesBoundary prevMs currMs period

/-- `bar_label_ms` of the bar that opens a bucket: it is the bucket's first observation. -/
def barLabelMs (ms : ℤ) : ℤ :=
  match c.mode with
  | .passthrough => ms
  | .ratio _ targetSeconds lateOpens =>
    (c.clock.intradayBucket ms targetSeconds lateOpens ms).openMs
  | .calendar _ periods =>
    match periods.periodAt ms with
    | some (stamp, _) => stamp
    | none => c.clock.sessionPeriodOpenMs ms .day

end Config

namespace Aggregator

variable {α : Type}

/-- A fresh aggregator; its bars hold nothing yet. -/
def fresh (config : Config) (blank : Bar α) : Aggregator α :=
  ⟨config, blank, 0, 0, false, blank, false⟩

/-- A bar begins a group. -/
def resetCurrent (s : Aggregator α) (bar : Bar α) : Aggregator α :=
  { s with
    currentBar := { bar with timestamp := s.config.barLabelMs bar.timestamp }
    observedFirstMs := bar.timestamp
    subBarCount := 1
    currentEmittedComplete := false }

section

variable [LinearOrder α] [Add α]

/-- The bar with one more input bar merged in. -/
def mergeBar (current bar : Bar α) : Bar α :=
  { current with
    high := if bar.high > current.high then bar.high else current.high
    low := if bar.low < current.low then bar.low else current.low
    close := bar.close
    volume := current.volume + bar.volume }

/-- A bar joins the group. -/
def mergeIntoCurrent (s : Aggregator α) (bar : Bar α) : Aggregator α :=
  { s with currentBar := mergeBar s.currentBar bar, subBarCount := s.subBarCount + 1 }

end

/-- The current bucket reported, complete or not. -/
def report (s : Aggregator α) (complete : Bool) : AggregatedBar α × Aggregator α :=
  (⟨s.currentBar, complete, s.subBarCount⟩,
    if complete then
      { s with lastCompletedBar := s.currentBar, hasCompleted := true,
               currentEmittedComplete := true }
    else s)

/-- The first bar of the next bucket: it completes the current one, unless that was completed
before, and opens its own. -/
def boundary (s : Aggregator α) (bar : Bar α) (singletonFinal : Bool) :
    AggregatedBar α × Aggregator α :=
  if s.currentEmittedComplete then (s.resetCurrent bar).report singletonFinal
  else
    (⟨s.currentBar, true, s.subBarCount⟩,
      { s with lastCompletedBar := s.currentBar, hasCompleted := true }.resetCurrent bar)

section

variable (c : Config)

/-- Whether the next input bar, where known, opens a later session day. -/
def nextDayFollows (ts nextInputMs : ℤ) : Bool :=
  nextInputMs > ts ∧ c.earlyCloseCompletes ∧ c.clock.crossesBoundary ts nextInputMs .day

/-- Whether a bar that opens a bucket is also the last of its session. -/
def singletonSessionFinal (ratio : ℕ) (targetSeconds ts nextInputMs : ℤ) : Bool :=
  ratio > 1 ∧ c.inputSeconds > 0 ∧ targetSeconds < secPerDay ∧ hasTradingSession c.clock.session ∧
    (ts + c.inputSeconds * 1000 ≥ c.clock.sessionWindowCloseMs ts ∨ nextDayFollows c ts nextInputMs)

/-- The rules that complete a bucket on a bar of it: its count, its real end, the close of the
session window, the close of the calling chart bar, and an early close. -/
def ratioCompletes (ratio : ℕ) (targetSeconds : ℤ) (lateOpens : List ℤ) (subBarCount : ℕ)
    (bucket : SymbolClock.IntradayBucket) (ts nextInputMs callingCloseMs : ℤ) : Bool :=
  (subBarCount = ratio ∧ bucket.endMs - bucket.openMs ≤ targetSeconds * 1000) ∨
  (c.inputSeconds > 0 ∧ ts + c.inputSeconds * 1000 ≥ bucket.endMs) ∨
  (c.inputSeconds > 0 ∧ targetSeconds < secPerDay ∧ hasTradingSession c.clock.session ∧
    ts + c.inputSeconds * 1000 ≥ c.clock.sessionWindowCloseMs ts) ∨
  (c.inputSeconds > 0 ∧ callingCloseMs > 0 ∧ nextInputMs > ts ∧ callingCloseMs ≥ bucket.endMs ∧
    (c.clock.intradayBucket nextInputMs targetSeconds lateOpens nextInputMs).key ≠ bucket.key) ∨
  (c.inputSeconds > 0 ∧ targetSeconds < secPerDay ∧ hasTradingSession c.clock.session ∧
    nextDayFollows c ts nextInputMs)

/-- The nominal end of a period reached by the bar: the next bar's crossing, the session's close on
the period's last day, the close of its last traded day. -/
def nominalEnd (period : CalendarPeriod) (ts : ℤ) : Bool :=
  let nextMs := ts + c.inputSeconds * 1000
  let endMin := sessionCloseOffsetMinutes c.clock.session
  c.clock.crossesBoundary ts nextMs period ∨
  (period ≠ .none ∧ endMin > 0 ∧ c.clock.crossesBoundary ts (ts + msPerDay) period ∧
    (c.clock.calendarClockMs ts).tmod msPerDay + c.inputSeconds * 1000 ≥ endMin * 60000) ∨
  ((period = .week ∨ period = .month) ∧ hasTradingSession c.clock.session ∧
    nextMs ≥ c.clock.sessionPeriodLastTradedCloseMs ts period)

/-- The rules that complete a period on a bar of it. -/
def calendarCompletes (period : CalendarPeriod) (periods : NativePeriods)
    (ts nextInputMs callingCloseMs : ℤ) : Bool :=
  let native := periods.installed
  let byCalendar :=
    if native ∧ nextInputMs > ts then c.calendarChanges period periods ts nextInputMs
    else decide (c.inputSeconds > 0) && nominalEnd c period ts
  let byNextBar := !native && decide (nextInputMs > ts) && hasTradingSession c.clock.session &&
    (c.earlyCloseCompletes || decide (callingCloseMs > 0)) &&
    c.clock.crossesBoundary ts nextInputMs period &&
    (c.earlyCloseCompletes ||
      decide (callingCloseMs ≥ c.clock.sessionPeriodLastTradedCloseMs ts period))
  let byLastBar := native && decide (period = .day ∧ c.inputSeconds > 0 ∧ nextInputMs ≤ ts ∧
    ts + c.inputSeconds * 1000 ≥ c.clock.sessionPeriodLastTradedCloseMs ts .day)
  -- no period is over while the next known bar belongs to it
  (byCalendar || byNextBar || byLastBar) &&
    !(decide (nextInputMs > ts) && !c.calendarChanges period periods ts nextInputMs)

end

variable [LinearOrder α] [Add α]

/-- Feed a bar to groups of minutes. -/
def feedRatioMode (ratio : ℕ) (targetSeconds : ℤ) (lateOpens : List ℤ) (s : Aggregator α)
    (bar : Bar α) (nextInputMs callingCloseMs : ℤ) : AggregatedBar α × Aggregator α :=
  if targetSeconds > 0 ∧ s.subBarCount > 0 then
    let current := s.config.clock.intradayBucket s.observedFirstMs targetSeconds lateOpens
      s.observedFirstMs
    let input := s.config.clock.intradayBucket bar.timestamp targetSeconds lateOpens
      s.observedFirstMs
    if input.key ≠ current.key then
      s.boundary bar (singletonSessionFinal s.config ratio targetSeconds bar.timestamp nextInputMs)
    else
      let merged := s.mergeIntoCurrent bar
      merged.report (!s.currentEmittedComplete &&
        ratioCompletes s.config ratio targetSeconds lateOpens merged.subBarCount input bar.timestamp
          nextInputMs callingCloseMs)
  else
    -- the first bar ever, and a ratio without a wall-clock width
    let next :=
      if s.subBarCount = 0 ∨ s.subBarCount ≥ ratio then s.resetCurrent bar
      else s.mergeIntoCurrent bar
    next.report (next.subBarCount ≥ ratio)

/-- Feed a bar to groups of days or more. -/
def feedCalendarMode (period : CalendarPeriod) (periods : NativePeriods) (s : Aggregator α)
    (bar : Bar α) (nextInputMs callingCloseMs : ℤ) : AggregatedBar α × Aggregator α :=
  if s.subBarCount = 0 then (s.resetCurrent bar).report false
  else if s.config.calendarChanges period periods s.currentBar.timestamp bar.timestamp then
    s.boundary bar false
  else
    (s.mergeIntoCurrent bar).report (!s.currentEmittedComplete &&
      calendarCompletes s.config period periods bar.timestamp nextInputMs callingCloseMs)

/-- Feed a bar through. -/
def feedPassthroughMode (s : Aggregator α) (bar : Bar α) : AggregatedBar α × Aggregator α :=
  (⟨bar, true, 1⟩,
    { s with
      lastCompletedBar := bar, hasCompleted := true, currentBar := bar
      observedFirstMs := bar.timestamp, subBarCount := 1 })

/-- `feed`. -/
def feed (s : Aggregator α) (bar : Bar α) (nextInputMs callingCloseMs : ℤ) :
    AggregatedBar α × Aggregator α :=
  match s.config.mode with
  | .passthrough => s.feedPassthroughMode bar
  | .ratio ratio targetSeconds lateOpens =>
    s.feedRatioMode ratio targetSeconds lateOpens bar nextInputMs callingCloseMs
  | .calendar period periods =>
    s.feedCalendarMode period periods bar nextInputMs callingCloseMs

omit [LinearOrder α] [Add α] in
/-- Whether a group waits to be reported. -/
def hasPendingPartial (s : Aggregator α) : Bool :=
  match s.config.mode with
  | .ratio _ targetSeconds _ =>
    targetSeconds > 0 ∧ s.subBarCount > 0 ∧ s.currentEmittedComplete = false
  | _ => false

/-- Report the waiting group. -/
def completePendingPartial (s : Aggregator α) : AggregatedBar α × Aggregator α :=
  s.report s.hasPendingPartial

end Aggregator

end PineForge.Timeframe
