import PineForge.Timeframe.Schedule

/-!
# The symbol clock

Session days, periods and intraday buckets on a symbol's exchange clock. The zone is known by one
reading: the epoch of local midnight of an instant's local date, as the C library resolves it
(`calendar_day_open_local_ms`); offsets are sampled from it once for each UTC day.
-/

namespace PineForge.Timeframe

open Calendar

/-- The milliseconds of a day. -/
def msPerDay : ℤ := 86400000

/-- The seconds of a day. -/
def secPerDay : ℤ := 86400

/-- The calendar periods. -/
inductive CalendarPeriod
  | none
  | day
  | week
  | month
deriving DecidableEq, Repr

/-- The chart's native daily partition, one entry for each native daily stamp. -/
structure NativeDayPartition where
  stamps : List ℤ
  tradeDay : List ℤ
  weekOpen : List ℤ
  monthOpen : List ℤ
  lastBound : ℤ

/-- A symbol's zone and session, and the daily partition that keys this very clock. -/
structure SymbolClock where
  utc : Bool
  calendarDayOpenLocalMs : ℤ → ℤ
  session : Session
  partition : Option NativeDayPartition

/-! ## Zone offsets -/

/-- The UTC day, rounded toward zero. -/
def utcFloorDayMs (ms : ℤ) : ℤ := ms.tdiv msPerDay * msPerDay

/-- The day, rounded down. -/
def floorDivDay (ms : ℤ) : ℤ :=
  if ms < 0 ∧ ms.tmod msPerDay ≠ 0 then ms.tdiv msPerDay - 1 else ms.tdiv msPerDay

namespace SymbolClock

variable (k : SymbolClock)

/-- The offset of the instant's UTC day, sampled at its noon. -/
def tzOffsetMs (ms : ℤ) : ℤ :=
  if k.utc then 0
  else k.calendarDayOpenLocalMs (utcFloorDayMs ms + msPerDay.tdiv 2) - utcFloorDayMs ms

/-- The local clock at an instant. -/
def calendarClockMs (ts : ℤ) : ℤ := ts - k.tzOffsetMs ts

/-- Where a day's stamp stands. -/
def stampMs : ℤ := sessionDayStampOffsetMinutes k.session * 60000

/-- The local clock from the stamp on. -/
def intradayClockMs (ts : ℤ) : ℤ := k.calendarClockMs ts - k.stampMs

/-- The real instant of a wall clock reading, resolved twice. -/
def nominalToRealMs (nominal : ℤ) : ℤ :=
  if k.utc then nominal else nominal + k.tzOffsetMs (nominal + k.tzOffsetMs nominal)

/-! ## Session days -/

/-- The nominal open of a day. -/
def sessionDayOpenNominalMs (d : ℤ) : ℤ := d * msPerDay + sessionOpenOffsetMinutes k.session * 60000

/-- The open of a day. -/
def sessionDayOpenRealMs (d : ℤ) : ℤ := k.nominalToRealMs (k.sessionDayOpenNominalMs d)

/-- The stamp of a day. -/
def sessionDayStampRealMs (d : ℤ) : ℤ := k.nominalToRealMs (d * msPerDay + k.stampMs)

/-- The close of a day. -/
def sessionDayCloseRealMs (d : ℤ) : ℤ :=
  k.sessionDayOpenRealMs d + sessionLengthMinutes k.session * 60000

/-- The nominal day of an instant. -/
def sessionDayIndexNominal (ms : ℤ) : ℤ := floorDivDay (k.intradayClockMs ms)

/-- The stamps at or before an instant, of a strictly increasing list. -/
def upperBound (stamps : List ℤ) (ms : ℤ) : ℕ := (stamps.takeWhile (· ≤ ms)).length

/-- The period of an instant among stamps whose last period ends at a bound. -/
def stampIndex (stamps : List ℤ) (lastBound ms : ℤ) : Option ℕ :=
  if upperBound stamps ms = 0 then none
  else if upperBound stamps ms = stamps.length ∧ ms ≥ lastBound then none
  else some (upperBound stamps ms - 1)

/-- The partition and the index of the period that holds an instant. -/
def partitionAt (ms : ℤ) : Option (NativeDayPartition × ℕ) := do
  let p ← k.partition
  let index ← stampIndex p.stamps p.lastBound ms
  some (p, index)

/-- The day of an instant, by the partition if there. -/
def sessionDayIndex (ms : ℤ) : ℤ :=
  match k.partitionAt ms with
  | some (p, index) => p.tradeDay.getD index 0
  | none => k.sessionDayIndexNominal ms

/-! ## Periods -/

/-- 0 is Sunday; day 0 was a Thursday. -/
def wdayOf (day : ℤ) : ℤ := (day + 4) % 7

/-- The first day of a period. -/
def sessionPeriodFirstDay (d : ℤ) (period : CalendarPeriod) : ℤ :=
  let shift := sessionTradingDateShiftDays k.session
  let td := d + shift
  match period with
  | .week => td - (wdayOf td + 6) % 7 - shift
  | .month => td - ((nativeCivilDate td).day - 1) - shift
  | _ => d

/-- The open of an instant's period. -/
def sessionPeriodOpenMs (ms : ℤ) (period : CalendarPeriod) : ℤ :=
  if period = CalendarPeriod.none then ms
  else
    match k.partitionAt ms with
    | some (p, index) =>
      match period with
      | .day => p.stamps.getD index 0
      | .week => p.weekOpen.getD index 0
      | _ => p.monthOpen.getD index 0
    | none => k.sessionDayStampRealMs (k.sessionPeriodFirstDay (k.sessionDayIndex ms) period)

/-- The first day of the next period. -/
def sessionPeriodNextFirstDay (d : ℤ) (period : CalendarPeriod) : ℤ :=
  let first := k.sessionPeriodFirstDay d period
  if period = CalendarPeriod.week then first + 7
  else
    let shift := sessionTradingDateShiftDays k.session
    let date := nativeCivilDate (first + shift)
    let (y, m) := if date.month + 1 > 12 then (date.year + 1, 1) else (date.year, date.month + 1)
    nativeCivilDays ⟨y, m, 1⟩ - shift

/-- The group opens of a partition for a week or a month. -/
def groupOpens (p : NativeDayPartition) (period : CalendarPeriod) : List ℤ :=
  if period = CalendarPeriod.week then p.weekOpen else p.monthOpen

/-- The close of an instant's period. -/
def sessionPeriodCloseMs (ms : ℤ) (period : CalendarPeriod) : ℤ :=
  if period = CalendarPeriod.none then ms
  else
    let held := do
      let (p, index) ← k.partitionAt ms
      if period = CalendarPeriod.day then none
      else
        let group := groupOpens p period
        ((List.range p.stamps.length).drop (index + 1)).findSome? fun j =>
          if group.getD j 0 ≠ group.getD index 0 then some (p.stamps.getD j 0) else none
    match held with
    | some close => close
    | none =>
      let d := k.sessionDayIndex ms
      if period = CalendarPeriod.day then k.sessionDayCloseRealMs d
      else k.sessionDayStampRealMs (k.sessionPeriodNextFirstDay d period)

/-- Back over weekend trading dates, at most seven times. -/
def lastTradedDay (shift : ℤ) : ℕ → ℤ → ℤ
  | 0, last => last
  | guard + 1, last =>
    if wdayOf (last + shift) ≠ 0 ∧ wdayOf (last + shift) ≠ 6 then last
    else lastTradedDay shift guard (last - 1)

/-- The last index of the group that holds `index`. -/
def groupEnd (group : List ℤ) (length index : ℕ) : ℕ :=
  index + (((List.range length).drop (index + 1)).takeWhile fun j =>
    decide (group.getD j 0 = group.getD index 0)).length

/-- The last traded close of an instant's period. -/
def sessionPeriodLastTradedCloseMs (ms : ℤ) (period : CalendarPeriod) : ℤ :=
  if period = CalendarPeriod.none then ms
  else if hasTradingSession k.session = false then k.sessionPeriodCloseMs ms period
  else
    let held := do
      let (p, index) ← k.partitionAt ms
      if period = CalendarPeriod.day then none
      else
        let last := groupEnd (groupOpens p period) p.stamps.length index
        if last + 1 < p.stamps.length then some (k.sessionDayCloseRealMs (p.tradeDay.getD last 0))
        else none
    match held with
    | some close => close
    | none =>
      let d := k.sessionDayIndex ms
      if period = CalendarPeriod.day then k.sessionDayCloseRealMs d
      else
        let shift := sessionTradingDateShiftDays k.session
        k.sessionDayCloseRealMs (lastTradedDay shift 7 (k.sessionPeriodNextFirstDay d period - 1))

/-- The break that ends the window of an offset from the day's open: none for the last window. -/
def breakAfter (at' : ℤ) : List (ℤ × ℤ) → Option ℤ
  | first :: second :: rest =>
    if at' < second.1 * 60000 then some first.2 else breakAfter at' (second :: rest)
  | _ => none

/-- The close of an instant's window. -/
def sessionWindowCloseMs (ms : ℤ) : ℤ :=
  let dayClose := k.sessionPeriodLastTradedCloseMs ms .day
  let origin := k.sessionDayOpenNominalMs (k.sessionDayIndexNominal ms)
  let ended := do
    let breaks ← parseSessionBreaks k.session
    breakAfter (k.calendarClockMs ms - origin) breaks
  match ended with
  | some close => k.nominalToRealMs (origin + close * 60000)
  | none => dayClose

/-! ## Boundaries -/

/-- The day number `gmtime` reads off a clock in milliseconds, cut to seconds. -/
def clockDay (clock : ℤ) : ℤ := clock.tdiv 1000 / secPerDay

/-- The Monday that starts the week of a day. -/
def mondayOf (day : ℤ) : ℤ := day - (wdayOf day + 6) % 7

/-- The key of an instant's period. -/
def sessionPeriodKey (ms : ℤ) (period : CalendarPeriod) : ℤ :=
  k.sessionPeriodFirstDay (k.sessionDayIndex ms) period

/-- Whether two instants lie in different periods. A year and a day of the year differ exactly when
the day numbers do. -/
def crossesBoundary (prevMs currMs : ℤ) (period : CalendarPeriod) : Bool :=
  let prevDay := clockDay (k.intradayClockMs prevMs)
  let currDay := clockDay (k.intradayClockMs currMs)
  match period with
  | .day =>
    if (k.partitionAt prevMs).isSome ∨ (k.partitionAt currMs).isSome then
      k.sessionDayIndex prevMs ≠ k.sessionDayIndex currMs
    else prevDay ≠ currDay
  | .week =>
    if hasTradingSession k.session then
      k.sessionPeriodKey prevMs .week ≠ k.sessionPeriodKey currMs .week
    else mondayOf prevDay ≠ mondayOf currDay
  | .month => k.sessionPeriodKey prevMs .month ≠ k.sessionPeriodKey currMs .month
  | .none => false

/-! ## Intraday buckets -/

/-- A bucket of a day. -/
structure IntradayBucket where
  sessionDay : ℤ
  ordinal : ℤ
  openMs : ℤ
  endMs : ℤ
deriving DecidableEq, Repr

/-- The key of a bucket. -/
def IntradayBucket.key (b : IntradayBucket) : ℤ × ℤ := (b.sessionDay, b.ordinal)

/-- The bucket of an instant on the grid of its session day, which starts at a late open if one is
declared. `prefixOpenMs` dates only the open of a bucket's observed prefix. -/
def intradayBucket (ms bucketSec : ℤ) (lateOpens : List ℤ) (prefixOpenMs : ℤ) : IntradayBucket :=
  if bucketSec ≤ 0 then ⟨0, 0, ms, ms⟩
  else
    let bucketMs := bucketSec * 1000
    let offset := k.tzOffsetMs ms
    let day := floorDivDay (ms - offset - k.stampMs)
    let dayStart := day * msPerDay + offset + k.stampMs
    let dayEnd := dayStart + min msPerDay
      ((sessionOpenOffsetMinutes k.session - sessionDayStampOffsetMinutes k.session
        + sessionLengthMinutes k.session) * 60000)
    let origin := ((lateOpens.find? (· ≥ dayStart)).filter (· < dayEnd)).getD dayStart
    let ordinal := if ms < origin then 0 else (ms - origin).tdiv bucketMs
    let gridOpen := origin + ordinal * bucketMs
    let observed := ordinal = 0 ∧ origin > dayStart ∧ prefixOpenMs ≥ dayStart ∧
      prefixOpenMs < origin ∧ prefixOpenMs ≤ ms
    let actualOpen := if observed then prefixOpenMs else min ms gridOpen
    ⟨day, ordinal, actualOpen, max actualOpen (min (gridOpen + bucketMs) dayEnd)⟩

theorem intradayBucket_key (ms bucketSec : ℤ) (lateOpens : List ℤ) (a b : ℤ) :
    (k.intradayBucket ms bucketSec lateOpens a).key
      = (k.intradayBucket ms bucketSec lateOpens b).key := by
  unfold intradayBucket
  split <;> rfl

end SymbolClock

end PineForge.Timeframe
