import PineForge.Calendar.Session

/-!
# Intervals

The interval of a timeframe that holds an instant: fixed buckets counted from the origin of the
session day (`fixed_core`), and periods of days, weeks or months over trading dates
(`calendar_core`), with the next tradable input opening (`interval_containing`).
-/

namespace PineForge.Calendar

/-- The unit of a timeframe. -/
inductive TimeframeUnit
  | second
  | minute
  | day
  | week
  | month
deriving DecidableEq, Repr

/-- A parsed timeframe: `parse_timeframe` gives no count below one, and none an `int` cannot
hold. -/
structure Timeframe where
  unit : TimeframeUnit
  count : ℤ
  count_pos : 1 ≤ count
  count_max : count ≤ 2147483647

namespace Timeframe

/-- Seconds and minutes have a fixed length. -/
def isFixed (tf : Timeframe) : Bool :=
  match tf.unit with
  | .second | .minute => true
  | _ => false

end Timeframe

/-- A period without the next input. -/
structure PeriodCore where
  openMs : ℤ
  eligibleOpenMs : ℤ
  lastTradedCloseMs : ℤ
  nextPeriodOpenMs : ℤ
deriving DecidableEq, Repr

/-- A period and the next input's open. -/
structure NativeInterval where
  openMs : ℤ
  eligibleOpenMs : ℤ
  lastTradedCloseMs : ℤ
  nextPeriodOpenMs : ℤ
  nextInputOpenMs : ℤ
deriving DecidableEq, Repr

/-- The largest `int64_t`. -/
def int64Max : ℤ := 9223372036854775807

/-- The least `int64_t`. -/
def int64Min : ℤ := -9223372036854775808

/-- A sum that does not overflow. -/
def addOk (a b : ℤ) : Option ℤ :=
  if a + b < int64Min ∨ a + b > int64Max then none else some (a + b)

/-- The smallest integer is refused as a factor, whatever the other is. -/
def mulOk (a b : ℤ) : Option ℤ :=
  if a = 0 ∨ b = 0 then some 0
  else if a = int64Min ∨ b = int64Min then none
  else if a * b < int64Min ∨ a * b > int64Max then none
  else some (a * b)

/-- The milliseconds of a fixed unit. -/
def unitMs : TimeframeUnit → ℤ
  | .second => 1000
  | .minute => 60000
  | _ => 0

/-- Monday 1969-12-29. -/
def weekZeroMondayDays : ℤ := -3

/-- The week of a date, from Monday. -/
def weekIndex (date : CivilDate) : ℤ :=
  let dowMon0 := (weekdaySun0 date + 6).tmod 7
  floorDiv (nativeCivilDays date - dowMon0 - weekZeroMondayDays) 7

/-! ## Periods of days, weeks and months -/

/-- The first trading dates of the period of a date and of the next one. -/
def periodDates (unit : TimeframeUnit) (count : ℤ) (trading : CivilDate) :
    Option (CivilDate × CivilDate) :=
  match unit with
  | .day =>
    let key := floorDiv (nativeCivilDays trading) count * count
    some (nativeCivilDate key, nativeCivilDate (key + count))
  | .week =>
    let key := floorDiv (weekIndex trading) count * count
    some (nativeCivilDate (weekZeroMondayDays + key * 7),
      nativeCivilDate (weekZeroMondayDays + (key + count) * 7))
  | .month =>
    let key := floorDiv (monthIndex trading) count * count
    some (monthFirst key, monthFirst (key + count))
  | _ => none

/-- The day numbers from `first` up to `next`. -/
def ordinals (first next : ℤ) : List ℤ :=
  (List.range (next - first).toNat).map fun n : ℕ => first + n

/-- Where the first session of the trading dates starts. -/
def firstEligible (cal : SessionCalendar) (ords : List ℤ) : Option ℤ :=
  ords.findSome? fun ord => do
    let d ← sessionDayWithTrading cal (nativeCivilDate ord)
    (d.spans.find? fun s => decide (s.endMs > s.startMs)).map (·.startMs)

/-- Where the last session of the trading dates ends. -/
def lastTraded (cal : SessionCalendar) (ords : List ℤ) : Option ℤ :=
  ords.reverse.findSome? fun ord => do
    let d ← sessionDayWithTrading cal (nativeCivilDate ord)
    if d.lastTradedMs > d.originMs then some d.lastTradedMs else none

/-- The period of days, weeks or months. -/
def calendarCore (cal : SessionCalendar) (unit : TimeframeUnit) (count ms : ℤ) :
    Option PeriodCore := do
  let day ← sessionDayContaining cal ms
  let (firstTrading, nextTrading) ← periodDates unit count day.tradingDate
  let first ← sessionDayWithTrading cal firstTrading
  let next ← sessionDayWithTrading cal nextTrading
  let ords := ordinals (nativeCivilDays firstTrading) (nativeCivilDays nextTrading)
  some ⟨first.originMs, (firstEligible cal ords).getD first.originMs,
    (lastTraded cal ords).getD first.originMs, next.originMs⟩

/-! ## Fixed buckets -/

/-- The bucket of a fixed length. -/
def fixedCore (cal : SessionCalendar) (tf : Timeframe) (ms : ℤ) : Option PeriodCore := do
  let bucket ← mulOk tf.count (unitMs tf.unit)
  if bucket ≤ 0 then none
  else
    let day ← sessionDayContaining cal ms
    let index := floorDiv (ms - day.originMs) bucket
    let offset ← mulOk index bucket
    let openMs ← addOk day.originMs offset
    let rawEnd ← addOk openMs bucket
    some ⟨openMs, firstOverlapOpen openMs rawEnd day.spans, overlapEnd day.spans openMs rawEnd,
      rawEnd⟩

/-- The period that contains an instant. -/
def coreContaining (cal : SessionCalendar) (tf : Timeframe) (ms : ℤ) : Option PeriodCore :=
  if tf.isFixed then fixedCore cal tf ms else calendarCore cal tf.unit tf.count ms

/-! ## The next input -/

/-- The scan of `next_span_start_at_or_after` over the days from `open_date + i` on. -/
def nextSpanStart (cal : SessionCalendar) (openDate : CivilDate) (after : ℤ) :
    ℕ → ℤ → Option ℤ
  | 0, _ => none
  | fuel + 1, i => do
    let d ← sessionDayFromOpen cal (addDays openDate i)
    match d.spans.find? fun s => decide (s.endMs > after) with
    | some s => if s.startMs ≥ after then some s.startMs else some after
    | none => nextSpanStart cal openDate after fuel (i + 1)

/-- The next span's start from an instant on. -/
def nextSpanStartAtOrAfter (cal : SessionCalendar) (after : ℤ) : Option ℤ := do
  let day ← sessionDayContaining cal after
  nextSpanStart cal day.openDate after 801 0

/-- The scan of `first_tradable_open` over the periods from the one that holds `t` on. -/
def firstTradablePeriod (cal : SessionCalendar) (tf : Timeframe) (atOrAfter : ℤ) :
    ℕ → ℤ → Option ℤ
  | 0, _ => none
  | fuel + 1, t => do
    let n ← coreContaining cal tf t
    if n.openMs ≥ atOrAfter ∧ n.lastTradedCloseMs > n.openMs then
      some (if n.eligibleOpenMs ≥ atOrAfter then n.eligibleOpenMs else n.openMs)
    else if n.nextPeriodOpenMs ≤ t then none
    else firstTradablePeriod cal tf atOrAfter fuel n.nextPeriodOpenMs

/-- The next tradable open of a timeframe. -/
def firstTradableOpen (cal : SessionCalendar) (tf : Timeframe) (atOrAfter : ℤ) : Option ℤ :=
  if tf.isFixed then nextSpanStartAtOrAfter cal atOrAfter
  else firstTradablePeriod cal tf atOrAfter 800 atOrAfter

/-- `interval_containing`. -/
def intervalContaining (cal : SessionCalendar) (scriptTf inputTf : Timeframe) (ms : ℤ) :
    Option NativeInterval := do
  let core ← coreContaining cal scriptTf ms
  let nextIn ← firstTradableOpen cal inputTf core.lastTradedCloseMs
  some ⟨core.openMs, core.eligibleOpenMs, core.lastTradedCloseMs, core.nextPeriodOpenMs, nextIn⟩

/-! ## Period keys -/

/-- The day of an instant's session. -/
def sessionDayOrdinal (cal : SessionCalendar) (ms : ℤ) : Option ℤ :=
  (sessionDayContaining cal ms).map fun day => nativeCivilDays day.tradingDate

/-- The week of an instant's session. -/
def sessionWeekOrdinal (cal : SessionCalendar) (ms : ℤ) : Option ℤ :=
  (sessionDayContaining cal ms).map fun day => weekIndex day.tradingDate

/-- The month of an instant's session. -/
def sessionMonthOrdinal (cal : SessionCalendar) (ms : ℤ) : Option ℤ :=
  (sessionDayContaining cal ms).map fun day => monthIndex day.tradingDate

/-- The key of an instant's period. -/
def periodKey (cal : SessionCalendar) (tf : Timeframe) (ms : ℤ) : Option ℤ :=
  match tf.unit with
  | .day => (sessionDayOrdinal cal ms).map fun ord => floorDiv ord tf.count * tf.count
  | .week => (sessionWeekOrdinal cal ms).map fun ord => floorDiv ord tf.count * tf.count
  | .month => (sessionMonthOrdinal cal ms).map fun ord => floorDiv ord tf.count * tf.count
  | _ => (coreContaining cal tf ms).map (·.openMs)

end PineForge.Calendar
