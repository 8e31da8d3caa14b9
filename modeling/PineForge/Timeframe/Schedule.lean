import Mathlib.Data.List.Sort
import PineForge.Calendar.Civil

/-!
# Session schedules

A symbol's session string as `timeframe.cpp` reads it: the first window's open and length, the
windows of a day with breaks, the day's close, and the trading date of the session day. The readers
scan for digits and never refuse a string.
-/

namespace PineForge.Timeframe

open Calendar

/-- A session string: `0930-1600`, `0900-1130,1230-1500:23456`, `24x7`, or empty. -/
abbrev Session := List Char

/-- The value of a digit. -/
def digitOf (c : Char) : ℤ := (c.toNat : ℤ) - 48

/-- All hours. -/
def anyHours : Session := ['2', '4', 'x', '7']

/-- A declared exchange session, not an empty or `24x7` one. -/
def hasTradingSession (session : Session) : Bool := session ≠ [] ∧ session ≠ anyHours

/-- Minutes of an `HHMM` clock. -/
def clockMinutes (value : ℤ) : ℤ := value / 100 * 60 + value % 100

/-- The first run of at most four digits. -/
def openDigits : Session → ℕ → ℤ → ℤ
  | [], _, value => value
  | c :: rest, digits, value =>
    if c.isDigit then
      if digits + 1 ≥ 4 then value * 10 + digitOf c
      else openDigits rest (digits + 1) (value * 10 + digitOf c)
    else if digits > 0 then value
    else openDigits rest 0 value

/-- Minutes from local midnight to the first window's open. -/
def sessionOpenOffsetMinutes (session : Session) : ℤ :=
  if session = [] ∨ session = anyHours then 0 else clockMinutes (openDigits session 0 0)

/-- The runs of four digits. -/
def clockGroups : Session → ℕ → ℤ → List ℤ
  | [], _, _ => []
  | c :: rest, digits, value =>
    if c.isDigit then
      if digits + 1 = 4 then (value * 10 + digitOf c) :: clockGroups rest 0 0
      else clockGroups rest (digits + 1) (value * 10 + digitOf c)
    else clockGroups rest 0 0

/-- Minutes the first window is open: a whole day without one, past midnight when it wraps. -/
def firstWindowLengthMinutes (session : Session) : ℤ :=
  if session = [] ∨ session = anyHours then 1440
  else
    match clockGroups session 0 0 with
    | first :: second :: _ =>
      let length := clockMinutes second - clockMinutes first
      if length ≤ 0 then length + 1440 else length
    | _ => 1440

/-! ## Days with breaks -/

/-- `HHMM`, with `2400` allowed. -/
def readClock : Session → Option (ℤ × Session)
  | a :: b :: c :: d :: rest =>
    if a.isDigit ∧ b.isDigit ∧ c.isDigit ∧ d.isDigit then
      let hh := digitOf a * 10 + digitOf b
      let mm := digitOf c * 10 + digitOf d
      if hh > 24 ∨ mm > 59 ∨ (hh = 24 ∧ mm ≠ 0) then none else some (hh * 60 + mm, rest)
    else none
  | _ => none

/-- `HHMM-HHMM,HHMM-HHMM[,...][:days]`, the clocks of each window. -/
def readWindows : ℕ → Session → Option (List (ℤ × ℤ))
  | 0, _ => none
  | fuel + 1, session => do
    let (start, rest) ← readClock session
    if start ≥ 1440 then none
    else
      match rest with
      | '-' :: rest => do
        let (stop, rest) ← readClock rest
        match rest with
        | [] => some [(start, stop)]
        | ':' :: _ => some [(start, stop)]
        | ',' :: rest => do
          let windows ← readWindows fuel rest
          some ((start, stop) :: windows)
        | _ => none
      | _ => none

/-- A window as offsets from the first open, cut where it passes the end of the cycle. -/
def windowPieces (first : ℤ) (window : ℤ × ℤ) : List (ℤ × ℤ) :=
  let opens := (window.1 - first) % 1440
  let length := window.2 - window.1
  let length := if length ≤ 0 then length + 1440 else length
  if opens + length ≤ 1440 then [(opens, opens + length)]
  else [(opens, 1440), (0, opens + length - 1440)]

/-- Overlapping or touching windows merge (the newest first). -/
def mergeWindow (out : List (ℤ × ℤ)) (piece : ℤ × ℤ) : List (ℤ × ℤ) :=
  match out with
  | [] => [piece]
  | back :: rest =>
    if piece.1 ≤ back.2 then (back.1, max back.2 piece.2) :: rest else piece :: back :: rest

/-- The windows of a session day with breaks, as offsets from its open: none for one window. -/
def parseSessionBreaks (session : Session) : Option (List (ℤ × ℤ)) :=
  if ',' ∈ session then
    match readWindows (session.length + 1) session with
    | some (first :: second :: rest) =>
      let pieces := (first :: second :: rest).flatMap (windowPieces first.1)
      some ((pieces.insertionSort fun a b => a.1 ≤ b.1).foldl mergeWindow []).reverse
    | _ => none
  else none

/-- Where the last window of a day with breaks closes. -/
def lastClose (breaks : List (ℤ × ℤ)) : ℤ := ((breaks.getLast?).map (·.2)).getD 0

/-- Minutes from local midnight to the day's close; none where there is no eager close. -/
def sessionCloseOffsetMinutes (session : Session) : ℤ :=
  if session = [] ∨ session = anyHours then -1
  else
    match parseSessionBreaks session with
    | some breaks =>
      let close := sessionOpenOffsetMinutes session + lastClose breaks
      if close ≤ 1440 then close else -1
    | none =>
      match clockGroups session 0 0 with
      | first :: second :: _ =>
        if clockMinutes second ≤ clockMinutes first then -1 else clockMinutes second
      | _ => -1

/-- Minutes from the session day's open to its close. -/
def sessionLengthMinutes (session : Session) : ℤ :=
  match parseSessionBreaks session with
  | some breaks => lastClose breaks
  | none => firstWindowLengthMinutes session

/-- Minutes from local midnight to the day stamp: the open, but 17:00 for a session that trades from
18:00 to 17:00. -/
def sessionDayStampOffsetMinutes (session : Session) : ℤ :=
  let opens := sessionOpenOffsetMinutes session
  if opens = 18 * 60 ∧ (opens + firstWindowLengthMinutes session) % 1440 = 17 * 60 then 17 * 60
  else opens

/-- Days from a session day's open date to its trading date. -/
def sessionTradingDateShiftDays (session : Session) : ℤ :=
  (sessionOpenOffsetMinutes session + sessionLengthMinutes session - 1).tdiv 1440

end PineForge.Timeframe
