import Mathlib.Data.List.Sort
import PineForge.Calendar.Civil

/-!
# Session days

A session calendar cuts time into cycles that start at the first declared open, and each cycle
belongs to a trading date. This is `native_calendar.cpp` for a zone without clock changes: the
calendar and its windows (`parse_session` builds no value that breaks the fields below), the
conversion between instants and local dates, and the session day of a date or an instant.
-/

namespace PineForge.Calendar

/-- UTC, or a fixed number of seconds east of it (`UTC+5:30`, `Etc/GMT+8`). -/
inductive Zone
  | utc
  | fixedOffset (seconds : ℤ)
deriving DecidableEq, Repr

/-- The offset of a zone. -/
def Zone.offsetMs : Zone → ℤ
  | utc => 0
  | fixedOffset seconds => seconds * 1000

/-- A window of minutes, its ends in range. -/
structure SessionWindow where
  startMinutes : ℤ
  endMinutes : ℤ
  wraps : Bool
  fullDay : Bool
  start_range : 0 ≤ startMinutes ∧ startMinutes < 1440
  end_range : 0 ≤ endMinutes ∧ endMinutes ≤ 1440
  fullDay_eq : fullDay = decide (endMinutes ≠ 1440 ∧ startMinutes = endMinutes)
  wraps_eq : wraps = decide (fullDay = false ∧ endMinutes < startMinutes)

/-- An accepted calendar: `SessionCalendar::valid` as fields. -/
structure SessionCalendar where
  zone : Zone
  windows : List SessionWindow
  dayMask : BitVec 8
  originMinutes : ℤ
  allDay : Bool
  mask_low : dayMask.getLsbD 0 = false
  mask_some : dayMask ≠ 0
  all_day : allDay = true → windows = [] ∧ originMinutes = 0
  first_open : allDay = false → windows.head?.map (·.startMinutes) = some originMinutes

theorem allDay_shape (_ : true = true) : ([] : List SessionWindow) = [] ∧ (0 : ℤ) = 0 := ⟨rfl, rfl⟩

theorem allDay_first (h : true = false) :
    ([] : List SessionWindow).head?.map (·.startMinutes) = some (0 : ℤ) := by cases h

/-- A local date and time. -/
structure CivilStamp where
  year : ℤ
  month : ℤ
  day : ℤ
  hour : ℤ
  minute : ℤ
  second : ℤ
deriving DecidableEq, Repr

/-- A span of time, its end excluded. -/
structure EpochSpan where
  startMs : ℤ
  endMs : ℤ
deriving DecidableEq, Repr

/-- One cycle: its dates, bounds and spans. -/
structure SessionDay where
  openDate : CivilDate
  tradingDate : CivilDate
  originMs : ℤ
  lastTradedMs : ℤ
  nextOriginMs : ℤ
  spans : List EpochSpan
deriving DecidableEq, Repr

/-! ## Dates and instants -/

/-- A date of the years 1 to 9999. -/
def validCivilDate (date : CivilDate) : Bool :=
  if date.year < 1 ∨ date.year > 9999 ∨ date.month < 1 ∨ date.month > 12 ∨ date.day < 1 ∨
      date.day > 31 then false
  else nativeCivilDate (nativeCivilDays date) = date

/-- The weekday, Sunday first. -/
def weekdaySun0 (date : CivilDate) : ℤ := ((nativeCivilDays date + 4).tmod 7 + 7).tmod 7

/-- The date so many days later. -/
def addDays (date : CivilDate) (n : ℤ) : CivilDate := nativeCivilDate (nativeCivilDays date + n)

/-- The instant of a stamp read as UTC. -/
def utcCivilMs (c : CivilStamp) : ℤ :=
  (nativeCivilDays ⟨c.year, c.month, c.day⟩ * 86400 + (c.hour * 3600 + c.minute * 60 + c.second))
    * 1000

/-- The civil reading of an instant on the zone's clock. -/
def localStamp (zone : Zone) (ms : ℤ) : CivilStamp :=
  let secs := floorDiv (ms + zone.offsetMs) 1000
  let days := secs / 86400
  let rest := secs % 86400
  let date := nativeCivilDate days
  ⟨date.year, date.month, date.day, rest / 3600, rest % 3600 / 60, rest % 60⟩

/-- The instant of a civil reading: without clock changes every reading has exactly one. -/
def resolveStamp (zone : Zone) (c : CivilStamp) : Option ℤ :=
  if validCivilDate ⟨c.year, c.month, c.day⟩ = false then none
  else if c.hour < 0 ∨ c.hour > 23 ∨ c.minute < 0 ∨ c.minute > 59 ∨ c.second < 0 ∨
      c.second > 59 then none
  else some (utcCivilMs c - zone.offsetMs)

/-- The instant of a date's minute. -/
def resolveHms (zone : Zone) (date : CivilDate) (minutes : ℤ) : Option ℤ :=
  let (date, minutes) :=
    if minutes ≥ 1440 then (addDays date (minutes / 1440), minutes % 1440) else (date, minutes)
  if minutes < 0 then none
  else resolveStamp zone ⟨date.year, date.month, date.day, minutes / 60, minutes % 60, 0⟩

/-- Whether the mask has a trading date. -/
def dayAllowed (cal : SessionCalendar) (tradingDate : CivilDate) : Bool :=
  cal.dayMask.getLsbD (weekdaySun0 tradingDate + 1).toNat

/-- A date's minute, counted from 1970. -/
def civilMinutes (date : CivilDate) (minutes : ℤ) : ℤ := nativeCivilDays date * 1440 + minutes

/-- The recurring instance of a window on a civil date. -/
def civilWindowInstance (w : SessionWindow) (date : CivilDate) : Option EpochSpan :=
  let start := civilMinutes date w.startMinutes
  let stop :=
    if w.fullDay then civilMinutes (addDays date 1) w.startMinutes
    else if w.wraps then civilMinutes (addDays date 1) w.endMinutes
    else if w.endMinutes = 1440 then civilMinutes (addDays date 1) 0
    else civilMinutes date w.endMinutes
  if stop > start then some ⟨start, stop⟩ else none

/-- The instant of such a minute. -/
def resolveCivilMinutes (zone : Zone) (cm : ℤ) : Option ℤ :=
  let days := floorDiv cm 1440
  resolveHms zone (nativeCivilDate days) (cm - days * 1440)

/-! ## Spans -/

/-- One more span, in order of starts, onto the merged ones (the newest first). -/
def mergeSpan (out : List EpochSpan) (span : EpochSpan) : List EpochSpan :=
  match out with
  | [] => [span]
  | back :: rest =>
    if back.endMs < span.startMs then span :: back :: rest
    else if span.endMs > back.endMs then ⟨back.startMs, span.endMs⟩ :: rest
    else back :: rest

/-- The union of spans, in order. -/
def mergeSpans (spans : List EpochSpan) : List EpochSpan :=
  ((spans.insertionSort fun a b => a.startMs ≤ b.startMs).foldl mergeSpan []).reverse

/-- The latest end so far, and whether any was seen. -/
def laterEnd (seen : ℤ × Bool) (b : ℤ) : ℤ × Bool :=
  if seen.2 = false ∨ b > seen.1 then (b, true) else seen

/-- The scan `last_span_end` and `overlap_end` share: the latest of the ends, else `last`. -/
def latestEnd (last : ℤ) (ends : List ℤ) : ℤ := (ends.foldl laterEnd (last, false)).1

/-- The end of the last span. -/
def lastSpanEnd (spans : List EpochSpan) (originMs : ℤ) : ℤ :=
  latestEnd originMs ((spans.filter fun s => decide (s.endMs > s.startMs)).map (·.endMs))

/-- The parts of the spans inside `[open, rawEnd)`. -/
def overlaps (spans : List EpochSpan) (openMs rawEnd : ℤ) : List EpochSpan :=
  (spans.map fun s => ⟨max openMs s.startMs, min rawEnd s.endMs⟩).filter fun s =>
    decide (s.endMs > s.startMs)

/-- The end of the last overlap. -/
def overlapEnd (spans : List EpochSpan) (openMs rawEnd : ℤ) : ℤ :=
  latestEnd openMs ((overlaps spans openMs rawEnd).map (·.endMs))

/-- The earlier start, the first if none was seen. -/
def earlierStart (seen : ℤ × Bool) (a : ℤ) : ℤ × Bool :=
  if seen.2 = false ∨ a < seen.1 then (a, true) else seen

/-- The start of the first overlap. -/
def firstOverlapOpen (openMs rawEnd : ℤ) (spans : List EpochSpan) : ℤ :=
  (((overlaps spans openMs rawEnd).map (·.startMs)).foldl earlierStart (openMs, false)).1

/-! ## Session days -/

/-- The instant a cycle begins. -/
def originOn (cal : SessionCalendar) (openDate : CivilDate) : Option ℤ :=
  resolveHms cal.zone openDate cal.originMinutes

/-- The windows' coverage of the cycle of a date, in civil minutes, before weekday masks. -/
def civilCoverage (cal : SessionCalendar) (openDate : CivilDate) : List EpochSpan :=
  let cycleStart := civilMinutes openDate cal.originMinutes
  let cycleEnd := civilMinutes (addDays openDate 1) cal.originMinutes
  if cal.allDay then [⟨cycleStart, cycleEnd⟩]
  else [-1, 0, 1].flatMap fun n => cal.windows.filterMap fun w => do
    let span ← civilWindowInstance w (addDays openDate n)
    let a := max span.startMs cycleStart
    let b := min span.endMs cycleEnd
    if b > a then some ⟨a, b⟩ else none

/-- A span of minutes as one of instants. -/
def resolveSpan (zone : Zone) (civ : EpochSpan) : Option EpochSpan := do
  let a ← resolveCivilMinutes zone civ.startMs
  let b ← resolveCivilMinutes zone civ.endMs
  if b ≤ a then none else some ⟨a, b⟩

/-- The date of a cycle's last covered minute. -/
def tradingDateOf (openDate : CivilDate) (cycleStart : ℤ) (union : List EpochSpan) : CivilDate :=
  if union.isEmpty then openDate
  else nativeCivilDate (floorDiv (lastSpanEnd union cycleStart - 1) 1440)

/-- The cycle that opens on a date. -/
def sessionDayFromOpen (cal : SessionCalendar) (openDate : CivilDate) : Option SessionDay := do
  let cycleStartCm := civilMinutes openDate cal.originMinutes
  let cycleEndCm := civilMinutes (addDays openDate 1) cal.originMinutes
  if cycleEndCm ≤ cycleStartCm then none
  else
    let union := mergeSpans (civilCoverage cal openDate)
    let trading := tradingDateOf openDate cycleStartCm union
    let cycleStart ← originOn cal openDate
    let cycleEnd ← originOn cal (addDays openDate 1)
    if cycleEnd ≤ cycleStart then none
    else
      let resolved := mergeSpans (union.filterMap (resolveSpan cal.zone))
      if resolved.isEmpty = false ∧ dayAllowed cal trading then
        some ⟨openDate, trading, cycleStart, lastSpanEnd resolved cycleStart, cycleEnd, resolved⟩
      else some ⟨openDate, trading, cycleStart, cycleStart, cycleEnd, []⟩

/-- The cycle of a trading date. -/
def sessionDayWithTrading (cal : SessionCalendar) (trading : CivilDate) : Option SessionDay :=
  [0, -1, 1, -2, 2].findSome? fun off =>
    (sessionDayFromOpen cal (addDays trading off)).filter fun d => decide (d.tradingDate = trading)

/-- The cycle that contains an instant. -/
def sessionDayContaining (cal : SessionCalendar) (ms : ℤ) : Option SessionDay :=
  let stamp := localStamp cal.zone ms
  let localDate : CivilDate := ⟨stamp.year, stamp.month, stamp.day⟩
  ([localDate, addDays localDate (-1), addDays localDate 1].findSome? fun openDate =>
    (sessionDayFromOpen cal openDate).filter fun d =>
      decide (d.originMs ≤ ms ∧ ms < d.nextOriginMs)) <|>
  sessionDayFromOpen cal localDate

end PineForge.Calendar
