import Mathlib
import PineForge.Calendar.Membership
import PineForge.Timeframe.Schedule
import PineForge.SessionTime.UtcBars

/-!
# Session arguments

A session argument of `time` and `time_close`, the clock of its zone, and the intraday bar of an
instant in two readings: a scan of plain window instances, latest day first, and the session clock,
which reads every window on its own and bends it at an offset switch. Both read the windows of a day
through the function they are given, so that a reading through a cache and one without differ only
in that function.
-/

namespace PineForge.SessionTime

open Calendar Timeframe

/-! ## Texts -/

/-- A window of a session argument. -/
structure ArgWindow where
  start : ℤ
  length : ℤ
  dayOffset : ℤ
deriving DecidableEq, Repr

/-- No days listed: every day. -/
structure ArgSession where
  windows : List ArgWindow
  days : List ℤ
deriving DecidableEq, Repr

/-- The text of the windows, and the days listed after the last colon. -/
def parseDayFilter (session : List Char) : List Char × List ℤ :=
  match splitLastColon session with
  | none => (session, [])
  | some (before, digits) =>
    if allMaskDigits digits then (trim before, digits.map digitOf) else (session, [])

/-- The minutes of four digits. -/
def sessionClockMinutes : List Char → Option ℤ
  | a :: b :: c :: d :: _ =>
    if [a, b, c, d].all fun x => '0' ≤ x ∧ x ≤ '9' then
      some ((digitOf a * 10 + digitOf b) * 60 + digitOf c * 10 + digitOf d)
    else none
  | _ => none

/-- The two clocks of a window. -/
def windowClocks (piece : List Char) : Option (ℤ × ℤ) :=
  let win := trim piece
  let dash := win.idxOf '-'
  if dash = win.length ∨ dash < 4 then none
  else do
    let sm ← sessionClockMinutes win
    let em ← sessionClockMinutes (win.drop (dash + 1))
    return (sm, em)

/-- The number of windows that are read. -/
def sessionWindowCount (windows : List Char) : ℕ :=
  ((windows.splitOn ',').filterMap windowClocks).length

/-- Several windows without a list are Monday's to Friday's. -/
def sessionDayList (session : List Char) : List Char × List ℤ :=
  let parts := parseDayFilter session
  (parts.1, if parts.2 = [] ∧ sessionWindowCount parts.1 > 1 then [2, 3, 4, 5, 6] else parts.2)

/-- A window that ends at or before its start ends on the next day, and is that day's. -/
def argWindow (clocks : ℤ × ℤ) : Option ArgWindow :=
  let length := if clocks.2 ≤ clocks.1 then clocks.2 + 1440 - clocks.1 else clocks.2 - clocks.1
  if length ≤ 0 then none
  else some ⟨clocks.1, length, if clocks.2 ≤ clocks.1 ∧ clocks.2 > 0 then -1 else 0⟩

/-- Read a session argument. -/
def readArgSession (session : List Char) : Option ArgSession :=
  let parts := sessionDayList session
  let windows := trim parts.1
  let text := if windows = [] ∨ windows = "24x7".toList then "0000-0000".toList else windows
  let out := (text.splitOn ',').filterMap fun piece => (windowClocks piece).bind argWindow
  if out = [] then none else some ⟨out, parts.2⟩

/-! ## Clocks -/

/-- The clock of a zone: the offset in force at a second, whether the zone reads as UTC, and the
calendar's resolution of a wall minute. -/
structure Clock where
  offset : ℤ → ℤ
  utc : Bool
  resolveCivil : ℤ → Option ℤ

/-- One offset at all times. -/
def Clock.Fixed (clock : Clock) (offset : ℤ) : Prop := ∀ secs, clock.offset secs = offset

/-- The offset at an instant. -/
def offsetAt (clock : Clock) (ms : ℤ) : ℤ := clock.offset (ms.tdiv 1000)

/-- What `decompose_ms_local` answers. -/
def Clock.fields (clock : Clock) (ms : ℤ) : Tm := civilFields (ms.tdiv 1000 + offsetAt clock ms)

/-- The date of fields. -/
def Tm.days (t : Tm) : ℤ := daysFromCivil (t.year + 1900) (t.mon + 1) t.mday

/-- The instant of a wall minute, if it is one. -/
def wallMinuteCandidate (clock : Clock) (minute probe : ℤ) : Option ℤ :=
  let candidate := minute * 60000 - offsetAt clock probe * 1000
  let back := clock.fields candidate
  let wall := back.days * 24 * 60 + back.hour * 60 + back.min
  if wall = minute ∧ back.sec = 0 then some candidate else none

/-- The instant of a wall minute: the first candidate, else what the calendar resolves. -/
def wallMinuteMs (clock : Clock) (minute : ℤ) : ℤ :=
  let naive := minute * 60000
  if clock.utc then naive
  else
    match wallMinuteCandidate clock minute (naive - msPerDay),
      wallMinuteCandidate clock minute (naive + msPerDay) with
    | some a, some b => min a b
    | some a, none => a
    | none, some b => b
    | none, none => (clock.resolveCivil minute).getD naive

/-- An offset switch on a local date. -/
structure DaySwitch where
  has : Bool
  atMs : ℤ
  preS : ℤ
  postS : ℤ
  preWallMinute : ℤ
deriving DecidableEq, Repr

/-- No switch. -/
def DaySwitch.absent : DaySwitch := ⟨false, 0, 0, 0, 0⟩

/-- The first second off an offset, between one on it and one off it. -/
def bisectSwitch (clock : Clock) (before a b : ℤ) : ℤ :=
  if b - a > 1 then
    let mid := a + (b - a).tdiv 2
    if offsetAt clock (mid * 1000) = before then bisectSwitch clock before mid b
    else bisectSwitch clock before a mid
  else b
termination_by (b - a).toNat
decreasing_by
  · grind
  · grind

/-- The switch of a day's offset. -/
def findDaySwitch (clock : Clock) (day : ℤ) : DaySwitch :=
  let midnight := day * msPerDay
  let lo := midnight - 16 * 3600000
  let hi := midnight + msPerDay + 14 * 3600000
  let before := offsetAt clock lo
  if offsetAt clock hi = before then .absent
  else
    let b := bisectSwitch clock before (lo.tdiv 1000) (hi.tdiv 1000)
    let wall := b * 1000 + before * 1000
    if floorDiv wall msPerDay ≠ day then .absent
    else ⟨true, b * 1000, before, offsetAt clock (b * 1000), (wall - midnight).tdiv 60000⟩

/-! ## Days of a session -/

/-- The weekday, Sunday is one. -/
def weekdayOf (day : ℤ) : ℤ := ((day + 4).tmod 7 + 7).tmod 7 + 1

/-- Whether a day trades. -/
def ArgSession.trades (s : ArgSession) (day : ℤ) : Bool := s.days = [] ∨ weekdayOf day ∈ s.days

/-- The wall minute at which a window of a session day opens. -/
def ArgWindow.startOn (w : ArgWindow) (day : ℤ) : ℤ := (day + w.dayOffset) * 24 * 60 + w.start

/-- The window instances of a session day. -/
def dayWindows (clock : Clock) (s : ArgSession) (day : ℤ) : List (ℤ × ℤ) :=
  if s.trades day then
    s.windows.filterMap fun w =>
      let openMs := wallMinuteMs clock (w.startOn day)
      let closeMs := wallMinuteMs clock (w.startOn day + w.length)
      if closeMs > openMs then some (openMs, closeMs) else none
  else []

/-- A window on a session day, as the session clock reads it. -/
structure WallOccurrence where
  traded : Bool
  clock : Bool
  overnight : Bool
  deviates : Bool
  startMinute : ℤ
  endMinute : ℤ
  lengthMs : ℤ
  startWall : ℤ
  endWall : ℤ
  postS : ℤ
  openMs : ℤ
  endMs : ℤ
deriving DecidableEq, Repr

/-- The session clock reads a window that opens before midnight and lasts less than a day. -/
def ArgWindow.onClock (w : ArgWindow) : Bool :=
  0 ≤ w.start ∧ w.start < 1440 ∧ 0 < w.length ∧ w.length < 1440

/-- The window ends on the next day. -/
def ArgWindow.overnight (w : ArgWindow) : Bool := w.start + w.length > 1440

/-- The minute a window ends. -/
def ArgWindow.endMinute (w : ArgWindow) : ℤ :=
  if w.overnight then w.start + w.length - 1440 else w.start + w.length

/-- The instant of a wall minute on a date with a switch, or without: the earlier of two or the
later, and whether there is one. -/
def instantOn (clock : Clock) (sw : DaySwitch) (minute : ℤ) (later : Bool) : ℤ × Bool :=
  let naive := minute * 60000
  let noon := floorDiv minute 1440 * msPerDay + 12 * 3600000
  let offsets := if sw.has then [sw.preS, sw.postS]
    else [offsetAt clock (noon - offsetAt clock noon * 1000)]
  let found := offsets.filter fun o => offsetAt clock (naive - o * 1000) = o
  match if later then found.getLast? else found.head? with
  | some o => (naive - o * 1000, false)
  | none => (naive - (if sw.has then sw.postS else offsets.headD 0) * 1000, true)

section

variable {m : Type → Type} [Monad m]

/-- The instant of a wall minute, with the switch of its date read by `daySwitch`. -/
def clockWallInstant (daySwitch : ℤ → m DaySwitch) (clock : Clock) (minute : ℤ) (later : Bool) :
    m (ℤ × Bool) := do
  let sw ← daySwitch (floorDiv minute 1440)
  return instantOn clock sw minute later

/-- A window on a session day. -/
def occurrenceOf (daySwitch : ℤ → m DaySwitch) (clock : Clock) (traded : Bool) (day : ℤ)
    (w : ArgWindow) :
    m WallOccurrence := do
  let first := w.startOn day
  let last := first + w.length
  let blank : WallOccurrence :=
    ⟨traded, w.onClock, false, false, 0, 0, w.length * 60000, first * 60000, last * 60000, 0, 0, 0⟩
  if w.onClock = false then
    return { blank with openMs := wallMinuteMs clock first, endMs := wallMinuteMs clock last }
  else
    let o := { blank with overnight := w.overnight, startMinute := w.start,
                          endMinute := w.endMinute }
    let sw ← daySwitch day
    if sw.has ∧ (sw.preWallMinute = w.endMinute ∨ sw.preWallMinute = w.start) then
      return { o with
        deviates := true, postS := sw.postS
        openMs := o.startWall - sw.postS * 1000, endMs := o.endWall - sw.postS * 1000 }
    else
      let ended ← clockWallInstant daySwitch clock last w.overnight
      let opened ← clockWallInstant daySwitch clock first false
      if w.overnight ∧ opened.2 then
        let sw ← daySwitch (floorDiv first 1440)
        return { o with openMs := sw.atMs, endMs := ended.1 }
      else return { o with openMs := opened.1, endMs := ended.1 }

/-- The occurrences of windows on a day. -/
def occurrencesOf (daySwitch : ℤ → m DaySwitch) (clock : Clock) (traded : Bool) (day : ℤ) :
    List ArgWindow → m (List WallOccurrence)
  | [] => return []
  | w :: ws => do
    let o ← occurrenceOf daySwitch clock traded day w
    let os ← occurrencesOf daySwitch clock traded day ws
    return o :: os

end

/-- The occurrences of a session day. -/
def dayOccurrences (clock : Clock) (s : ArgSession) (day : ℤ) : List WallOccurrence :=
  occurrencesOf (m := Id) (findDaySwitch clock) clock (s.trades day) day s.windows

/-! ## Bars -/

/-- The window instance that holds an instant, and its session day. -/
structure Held where
  day : ℤ
  start : ℤ
  stop : ℤ
deriving DecidableEq, Repr

/-- The bar of the timeframe, counted from the open of the instance and cut at its close. -/
def Held.bar (held : Held) (barMs tfMs : ℤ) : ℤ × ℤ :=
  let openMs := held.start + (barMs - held.start).tdiv tfMs * tfMs
  (openMs, min (openMs + tfMs) held.stop)

/-- The instance of a day that opens last, of those that hold an instant. -/
def scanDay (day barMs : ℤ) (windows : List (ℤ × ℤ)) : Option Held :=
  windows.foldl (fun best w =>
    if w.1 ≤ barMs ∧ barMs < w.2 ∧ (best.all fun held => decide (w.1 > held.start)) = true then
      some ⟨day, w.1, w.2⟩
    else best) none

/-- The plain instance of a window holds an instant. -/
def WallOccurrence.plainHolds (o : WallOccurrence) (barMs : ℤ) : Bool :=
  o.traded ∧ o.endMs > o.openMs ∧ o.openMs ≤ barMs ∧ barMs < o.endMs

/-- An occurrence that no switch bends holds an instant. -/
def WallOccurrence.clockHolds (o : WallOccurrence) (barMs wall : ℤ) : Bool :=
  o.traded ∧ ¬ o.deviates ∧
    if o.overnight then o.startWall ≤ wall ∧ wall < o.endWall ∧ barMs < o.endMs
    else o.openMs ≤ barMs ∧ barMs < o.endMs

/-- What an occurrence that a switch bends holds: an instant whose time of day after the switch is
in the window. -/
def WallOccurrence.bentHold (o : WallOccurrence) (day barMs : ℤ) : Option Held :=
  let postWall := barMs + o.postS * 1000
  let postDay := floorDiv postWall msPerDay
  let ofDay := postWall - postDay * msPerDay
  let first := o.startMinute * 60000
  let last := o.endMinute * 60000
  if if o.overnight then ofDay ≥ first ∨ ofDay < last else ofDay ≥ first ∧ ofDay < last then
    let opened := if o.overnight ∧ ofDay < first then postDay - 1 else postDay
    let start := opened * msPerDay + first - o.postS * 1000
    some ⟨day, start, start + o.lengthMs⟩
  else none

/-- The occurrence of a window among those of a day. -/
def windowOf (os : List WallOccurrence) (k : ℕ) : WallOccurrence :=
  os.getD k ⟨false, false, false, false, 0, 0, 0, 0, 0, 0, 0, 0⟩

section

variable {m : Type → Type} [Monad m] (occurrences : ℤ → m (List WallOccurrence)) (k : ℕ) (barMs : ℤ)

/-- The first of the days whose occurrence holds an instant. -/
def firstHold (holds : WallOccurrence → Bool) : List ℤ → m (Option Held)
  | [] => return none
  | d :: ds => do
    let os ← occurrences d
    let o := windowOf os k
    if holds o then return some ⟨d, o.openMs, o.endMs⟩ else firstHold holds ds

/-- A bent occurrence owns the instants after the end of the one before it, up to its own end; what
it owns it may hold. -/
def bentOwner : List ℤ → m (Option (Option Held))
  | [] => return none
  | d :: ds => do
    let os ← occurrences d
    let o := windowOf os k
    if ¬ o.traded ∨ ¬ o.deviates ∨ barMs > o.endMs then bentOwner ds
    else
      let before ← occurrences (d - 1)
      if (windowOf before k).endMs ≥ barMs then bentOwner ds else return some (o.bentHold d barMs)

/-- What one window holds of an instant. -/
def windowHold (wall today : ℤ) : m (Option Held) := do
  let os ← occurrences today
  if (windowOf os k).clock = false then
    firstHold occurrences k (·.plainHolds barMs)
      [today + 1, today, today - 1, today - 2, today - 3, today - 4, today - 5]
  else
    let owner ← bentOwner occurrences k barMs [today - 1, today, today + 1, today + 2]
    match owner with
    | some held => return held
    | none =>
      firstHold occurrences k (·.clockHolds barMs wall) [today + 2, today + 1, today,
        today - 1, today - 2]

/-- The later session day, then the later open; the window spelled first of two alike. -/
def Held.better (best : Option Held) (held : Option Held) : Option Held :=
  match held with
  | none => best
  | some held =>
    match best with
    | none => some held
    | some b => if held.day > b.day ∨ held.day = b.day ∧ held.start > b.start then
      some held else some b

/-- The best of the windows' holds. -/
def bestHold (wall today : ℤ) : List ℕ → Option Held → m (Option Held)
  | [], best => return best
  | k :: ks, best => do
    let held ← windowHold occurrences k barMs wall today
    bestHold wall today ks (Held.better best held)

/-- The session clock's reading. -/
def clockIntradayBar (clock : Clock) (s : ArgSession) (tfMs : ℤ) : m (Option (ℤ × ℤ)) := do
  let today := (clock.fields barMs).days
  let wall := barMs + offsetAt clock barMs * 1000
  let best ← bestHold occurrences barMs wall today (List.range s.windows.length) none
  return best.map (·.bar barMs tfMs)

/-- The plain reading: the first of the days that has an instance, and of its instances the last to
open. -/
def plainScan (windows : ℤ → m (List (ℤ × ℤ))) : List ℤ → m (Option Held)
  | [] => return none
  | d :: ds => do
    let ws ← windows d
    match scanDay d barMs ws with
    | some held => return some held
    | none => plainScan windows ds

/-- The bar of an instant without a switch. -/
def plainIntradayBar (windows : ℤ → m (List (ℤ × ℤ))) (clock : Clock) (tfMs : ℤ) :
    m (Option (ℤ × ℤ)) := do
  let today := (clock.fields barMs).days
  let held ← plainScan barMs windows
    [today + 1, today, today - 1, today - 2, today - 3, today - 4, today - 5]
  return held.map (·.bar barMs tfMs)

end

/-- The reading of a session argument without a cache. -/
def intradayBar (clock : Clock) (s : ArgSession) (barMs tfMs : ℤ) (onClock : Bool) :
    Option (ℤ × ℤ) :=
  if onClock then clockIntradayBar (m := Id) (dayOccurrences clock s) barMs clock s tfMs
  else plainIntradayBar (m := Id) barMs (dayWindows clock s) clock tfMs

end PineForge.SessionTime
