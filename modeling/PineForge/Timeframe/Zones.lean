import Mathlib
import PineForge.Timeframe.Clock
import PineForge.Timeframe.Periods
import PineForge.Timeframe.Windows

/-!
# Zones of one offset

The symbol clock in a zone whose offset never changes. A zone is spelled `UTC`, is another name for
it (`GMT`, `UTC+0`), or has an offset that the C library resolves, in whole minutes east of UTC: a
POSIX spelling with seconds, for one of which local midnight is the second that `mktime` fails with,
is left out. The clock reads the offset as the distance from UTC midnight to the local midnight
before UTC noon: from twelve hours on, that midnight is the next day's.
-/

namespace PineForge.Timeframe

open Calendar

/-- Zones of one offset. -/
inductive FixedZone
  | utc
  | utcAlias
  | offset (minutes : ℤ)
deriving DecidableEq, Repr

namespace FixedZone

/-- The minutes east of UTC. -/
def eastMinutes : FixedZone → ℤ
  | offset minutes => minutes
  | _ => 0

/-- The epoch of an hour of the local date of an instant, both in seconds. -/
def mktime (minutes secs hour : ℤ) : ℤ :=
  (secs + minutes * 60) / secPerDay * secPerDay - minutes * 60 + hour * 3600

/-- Local midnight, or the first of two hours after it where `mktime` fails. -/
def calendarDayOpenLocalMsTz (minutes barMs : ℤ) : ℤ :=
  let secs := barMs.tdiv 1000
  let day0 := mktime minutes secs 0
  let day0 := if day0 = -1 then
      if mktime minutes secs 1 = -1 then mktime minutes secs 2 else mktime minutes secs 1
    else day0
  day0 * 1000

/-- The open of an instant's local day. -/
def calendarDayOpenLocalMs : FixedZone → ℤ → ℤ
  | offset minutes, barMs => calendarDayOpenLocalMsTz minutes barMs
  | _, barMs => (barMs.tdiv 1000).tdiv 86400 * 86400 * 1000

/-- The clock of a symbol in the zone. -/
def clock (z : FixedZone) (session : Session) (partition : Option NativeDayPartition) :
    SymbolClock :=
  ⟨z = utc, z.calendarDayOpenLocalMs, session, partition⟩

/-- The local date of an instant. -/
def localDate (z : FixedZone) (ms : ℤ) : ℤ := (ms + z.eastMinutes * 60000) / msPerDay

/-! ## The offset read -/

/-- What the clock reads for an offset: the distance from UTC midnight back to local midnight. -/
def shiftMs (minutes : ℤ) : ℤ := ((43200 + minutes * 60) / 86400 * 86400 - minutes * 60) * 1000

theorem calendarDayOpenLocalMsTz_noon (minutes q : ℤ) :
    calendarDayOpenLocalMsTz minutes (q * 86400000 + 43200000)
      = q * 86400000 + shiftMs minutes := by
  have hsecs : (q * 86400000 + 43200000).tdiv 1000 = q * 86400 + 43200 := by
    rw [show q * 86400000 + 43200000 = (q * 86400 + 43200) * 1000 by ring]
    exact Int.mul_tdiv_cancel _ (by decide)
  have hday : mktime minutes (q * 86400 + 43200) 0
      = q * 86400 + ((43200 + minutes * 60) / 86400 * 86400 - minutes * 60) := by
    unfold mktime secPerDay
    omega
  -- local midnight is a whole minute, so the library never reads as failed
  have hnever : mktime minutes (q * 86400 + 43200) 0 ≠ -1 := by
    rw [hday]
    omega
  unfold calendarDayOpenLocalMsTz
  dsimp only
  rw [hsecs, if_neg hnever, hday, shiftMs]
  ring

/-- Another name for UTC misreads the days before 1970: its midnight is cut toward the epoch. -/
def readOffset (z : FixedZone) (ms : ℤ) : ℤ :=
  if z = utcAlias ∧ ms ≤ -msPerDay then msPerDay else shiftMs z.eastMinutes

theorem shiftMs_zero : shiftMs 0 = 0 := by decide

theorem shiftMs_bounds (minutes : ℤ) :
    -43200000 < shiftMs minutes ∧ shiftMs minutes ≤ 43200000 := by
  unfold shiftMs
  omega

theorem shiftMs_west {minutes : ℤ} (h : -720 ≤ minutes) (h' : minutes < 720) :
    shiftMs minutes = -(minutes * 60000) := by
  unfold shiftMs
  omega

theorem shiftMs_east {minutes : ℤ} (h : 720 ≤ minutes) (h' : minutes ≤ 840) :
    shiftMs minutes = msPerDay - minutes * 60000 := by
  unfold shiftMs msPerDay
  omega

theorem utcFloorDayMs_add_half (ms : ℤ) :
    utcFloorDayMs ms + msPerDay.tdiv 2 = ms.tdiv msPerDay * 86400000 + 43200000 := by
  have hhalf : msPerDay.tdiv 2 = 43200000 := by decide
  rw [hhalf]
  rfl

theorem tdiv_msPerDay_neg_iff (ms : ℤ) : ms.tdiv msPerDay < 0 ↔ ms ≤ -msPerDay := by
  rw [Int.tdiv_eq_ediv]
  unfold msPerDay
  split
  · omega
  · rw [Int.sign_eq_one_of_pos (by decide)]
    omega

variable (z : FixedZone) (session : Session) (partition : Option NativeDayPartition)

/-- The offset the clock reads. -/
theorem tzOffsetMs_eq (ms : ℤ) : (z.clock session partition).tzOffsetMs ms = z.readOffset ms := by
  unfold SymbolClock.tzOffsetMs
  cases z with
  | utc => rfl
  | offset minutes =>
    change (if decide (offset minutes = utc) = true then _ else _) = _
    rw [if_neg (by simp), utcFloorDayMs_add_half]
    change calendarDayOpenLocalMsTz minutes (ms.tdiv msPerDay * 86400000 + 43200000) - _ = _
    rw [calendarDayOpenLocalMsTz_noon, readOffset, if_neg (by simp)]
    change ms.tdiv msPerDay * 86400000 + shiftMs minutes - ms.tdiv msPerDay * 86400000
      = shiftMs minutes
    ring
  | utcAlias =>
    change (if decide (utcAlias = utc) = true then _ else _) = _
    rw [if_neg (by decide), utcFloorDayMs_add_half]
    change ((ms.tdiv msPerDay * 86400000 + 43200000).tdiv 1000).tdiv 86400 * 86400 * 1000
      - ms.tdiv msPerDay * 86400000 = _
    have hneg := tdiv_msPerDay_neg_iff ms
    obtain ⟨q, hq⟩ : ∃ q, q = ms.tdiv msPerDay := ⟨_, rfl⟩
    rw [← hq] at hneg ⊢
    have hsecs : (q * 86400000 + 43200000).tdiv 1000 = q * 86400 + 43200 := by
      rw [show q * 86400000 + 43200000 = (q * 86400 + 43200) * 1000 by ring]
      exact Int.mul_tdiv_cancel _ (by decide)
    rw [hsecs]
    by_cases hq0 : q < 0
    · rw [readOffset, if_pos ⟨rfl, hneg.mp hq0⟩, Int.tdiv_eq_ediv, if_neg (by omega),
        Int.sign_eq_one_of_pos (by decide)]
      unfold msPerDay
      omega
    · rw [readOffset, if_neg (fun h => hq0 (hneg.mpr h.2)), Int.tdiv_eq_ediv, if_pos (by omega)]
      change _ = shiftMs 0
      rw [shiftMs_zero]
      omega

theorem readOffset_eq {ms : ℤ} (h : z = utcAlias → -msPerDay < ms) :
    z.readOffset ms = shiftMs z.eastMinutes := by
  unfold readOffset
  rw [if_neg]
  rintro ⟨halias, hle⟩
  have := h halias
  omega

theorem nominalToRealMs_eq {nominal : ℤ} (h : z = utcAlias → -msPerDay < nominal) :
    (z.clock session partition).nominalToRealMs nominal = nominal + shiftMs z.eastMinutes := by
  unfold SymbolClock.nominalToRealMs
  rw [tzOffsetMs_eq, tzOffsetMs_eq, readOffset_eq z h, readOffset_eq z]
  · cases z with
    | utc =>
      change nominal = nominal + shiftMs 0
      rw [shiftMs_zero, add_zero]
    | utcAlias => rfl
    | offset minutes =>
      change (if decide (offset minutes = utc) = true then _ else _) = _
      rw [if_neg (by simp)]
  · rintro rfl
    change -msPerDay < nominal + shiftMs 0
    rw [shiftMs_zero]
    have := h rfl
    omega

theorem nominalToRealMs_alias {nominal : ℤ} (h : nominal ≤ -(2 * msPerDay)) :
    (utcAlias.clock session partition).nominalToRealMs nominal = nominal + msPerDay := by
  have hday : (0 : ℤ) < msPerDay := by decide
  have hfirst : utcAlias.readOffset nominal = msPerDay := if_pos ⟨rfl, by omega⟩
  have hsecond : utcAlias.readOffset (nominal + msPerDay) = msPerDay := if_pos ⟨rfl, by omega⟩
  change nominal + (utcAlias.clock session partition).tzOffsetMs
    (nominal + (utcAlias.clock session partition).tzOffsetMs nominal) = _
  rw [tzOffsetMs_eq, tzOffsetMs_eq, hfirst, hsecond]

/-! ## Session days of the zone -/

theorem floorDivDay_eq (ms : ℤ) : floorDivDay ms = ms / msPerDay := by
  have h := floorDiv_eq ms (show (0 : ℤ) < msPerDay by decide)
  unfold floorDiv at h
  rw [if_neg (by decide)] at h
  rw [← h]
  unfold floorDivDay
  simp only [and_comm]

/-- The local date's day stamp and close, as instants. -/
def stampAt (d : ℤ) : ℤ :=
  d * msPerDay + (sessionDayStampOffsetMinutes session - z.eastMinutes) * 60000

/-- The close of a day. -/
def closeAt (d : ℤ) : ℤ :=
  d * msPerDay
    + (sessionOpenOffsetMinutes session + sessionLengthMinutes session - z.eastMinutes) * 60000

/-- The local date of the last instant before a session day's close. -/
def dateAt (d : ℤ) : ℤ := z.localDate (z.closeAt session d - 1)

variable {session}

theorem dateAt_eq (h : DayHours session) (d : ℤ) :
    z.dateAt session d = d + sessionTradingDateShiftDays session := by
  rw [shiftDays_eq h]
  obtain ⟨hopens, hlength⟩ := h
  unfold dateAt localDate closeAt msPerDay
  omega

variable (session)

theorem sessionDayIndex_eq {ms : ℤ} (h : z = utcAlias → -msPerDay < ms) :
    (z.clock session none).sessionDayIndex ms
      = (ms - shiftMs z.eastMinutes - sessionDayStampOffsetMinutes session * 60000) / msPerDay := by
  change floorDivDay (ms - (z.clock session none).tzOffsetMs ms - (z.clock session none).stampMs)
    = _
  rw [tzOffsetMs_eq, readOffset_eq z h, floorDivDay_eq]
  rfl

/-- Where a session day is read to start. -/
def readStamp (d : ℤ) : ℤ :=
  d * msPerDay + sessionDayStampOffsetMinutes session * 60000 + shiftMs z.eastMinutes

theorem sessionDayStampRealMs_eq {d : ℤ}
    (h : z = utcAlias → -msPerDay < d * msPerDay + sessionDayStampOffsetMinutes session * 60000) :
    (z.clock session partition).sessionDayStampRealMs d
      = z.readStamp session d :=
  nominalToRealMs_eq z session partition h

theorem sessionDayCloseRealMs_eq {d : ℤ}
    (h : z = utcAlias → -msPerDay < d * msPerDay + sessionOpenOffsetMinutes session * 60000) :
    (z.clock session partition).sessionDayCloseRealMs d
      = d * msPerDay + sessionOpenOffsetMinutes session * 60000 + shiftMs z.eastMinutes
        + sessionLengthMinutes session * 60000 := by
  change (z.clock session partition).nominalToRealMs
    (d * msPerDay + sessionOpenOffsetMinutes session * 60000) + sessionLengthMinutes session * 60000
      = _
  rw [nominalToRealMs_eq z session partition h]

/-! ## Attribution -/

/-- The period's open is the stamp of a session day on which the period starts, and no session day
after it up to the instant's starts one. -/
def OpensOn (period : CalendarPeriod) (ms : ℤ) : Prop :=
  ∃ f d, z.stampAt session d ≤ ms ∧ ms < z.stampAt session (d + 1) ∧ f ≤ d ∧
    (z.clock session none).sessionPeriodOpenMs ms period = z.stampAt session f ∧
    StartsOn period (z.dateAt session f) ∧
    ∀ g, f < g → g ≤ d → ¬ StartsOn period (z.dateAt session g)

/-- An instant is attributed by the civil calendar of the zone. -/
structure FollowsCivil (ms : ℤ) : Prop where
  held : (z.clock session none).sessionDayStampRealMs ((z.clock session none).sessionDayIndex ms)
    ≤ ms ∧
    ms < (z.clock session none).sessionDayStampRealMs
      ((z.clock session none).sessionDayIndex ms + 1)
  date : (z.clock session none).tradingDate ((z.clock session none).sessionDayIndex ms)
    = z.localDate ((z.clock session none).sessionDayCloseRealMs
      ((z.clock session none).sessionDayIndex ms) - 1)
  week : z.OpensOn session .week ms
  month : z.OpensOn session .month ms

variable {session}

/-- 1970-01-03. -/
def thirdDay : ℤ := 2 * msPerDay

variable {z} {partition} {ms : ℤ}

theorem date_east (h : DayHours session) (heast : 720 ≤ z.eastMinutes)
    (hmax : z.eastMinutes ≤ 840) (d : ℤ) :
    z.localDate ((z.clock session none).sessionDayCloseRealMs d - 1)
      = (z.clock session none).tradingDate d + 1 := by
  have hz : z ≠ utcAlias := by
    rintro rfl
    exact absurd heast (by decide)
  rw [sessionDayCloseRealMs_eq z session none (fun halias => absurd halias hz),
    shiftMs_east heast hmax]
  change _ = d + sessionTradingDateShiftDays session + 1
  rw [shiftDays_eq h]
  obtain ⟨hopens, hlength⟩ := h
  unfold localDate msPerDay
  omega

theorem date_west (h : DayHours session) (hwest : -720 ≤ z.eastMinutes)
    (heast : z.eastMinutes < 720)
    {d : ℤ} (hd : 0 ≤ d) :
    z.localDate ((z.clock session none).sessionDayCloseRealMs d - 1)
      = (z.clock session none).tradingDate d := by
  have hopens := h.opens
  rw [sessionDayCloseRealMs_eq z session none (fun _ => by unfold msPerDay; omega),
    shiftMs_west hwest heast]
  change _ = d + sessionTradingDateShiftDays session
  rw [shiftDays_eq h]
  have hlength := h.length
  unfold localDate msPerDay
  omega

theorem readStamp_west (hwest : -720 ≤ z.eastMinutes) (heast : z.eastMinutes < 720) (d : ℤ) :
    z.readStamp session d = z.stampAt session d := by
  unfold readStamp stampAt
  rw [shiftMs_west hwest heast]
  ring

theorem mem_readStamp (z : FixedZone) (session : Session) (hms : thirdDay ≤ ms) :
    z.readStamp session ((z.clock session none).sessionDayIndex ms) ≤ ms ∧
      ms < z.readStamp session ((z.clock session none).sessionDayIndex ms + 1) := by
  have hpast : z = utcAlias → -msPerDay < ms := by
    intro _
    unfold thirdDay msPerDay at hms
    unfold msPerDay
    omega
  rw [sessionDayIndex_eq z session hpast]
  unfold readStamp msPerDay
  omega

/-- A session whose days start by 36:00 has no session day before 1970 from the third day on. -/
theorem index_nonneg_of_stamp (z : FixedZone) (h : sessionDayStampOffsetMinutes session ≤ 2160)
    (hms : thirdDay ≤ ms) : 0 ≤ (z.clock session none).sessionDayIndex ms := by
  have hmem := (mem_readStamp z session hms).2
  have hshift := shiftMs_bounds z.eastMinutes
  unfold readStamp thirdDay msPerDay at *
  omega

theorem index_nonneg (z : FixedZone) (h : DayHours session) (hms : thirdDay ≤ ms) :
    0 ≤ (z.clock session none).sessionDayIndex ms :=
  index_nonneg_of_stamp z h.stamp_le hms

theorem stampReal_nonneg (h : DayHours session) {d : ℤ} (hd : 0 ≤ d) :
    (z.clock session partition).sessionDayStampRealMs d = z.readStamp session d := by
  refine sessionDayStampRealMs_eq z session partition fun _ => ?_
  have hstamp := h.stamp
  unfold msPerDay
  omega

theorem stampReal_date (h : DayHours session) {d : ℤ}
    (hd : z = utcAlias → 0 ≤ d + sessionTradingDateShiftDays session) :
    (z.clock session partition).sessionDayStampRealMs d = z.readStamp session d := by
  refine sessionDayStampRealMs_eq z session partition fun halias => ?_
  have hstamp := h.stamp
  have hshift := h.shift
  have hdate := hd halias
  unfold msPerDay
  omega

theorem stampReal_alias (h : DayHours session) {d : ℤ} (hd : d ≤ -3) :
    (utcAlias.clock session partition).sessionDayStampRealMs d = utcAlias.readStamp session
    (d + 1) := by
  have hstamp := h.stamp
  have hnominal : d * msPerDay + sessionDayStampOffsetMinutes session * 60000
      ≤ -(2 * msPerDay) := by
    unfold msPerDay
    omega
  change (utcAlias.clock session partition).nominalToRealMs
    (d * msPerDay + sessionDayStampOffsetMinutes session * 60000) = _
  rw [nominalToRealMs_alias session partition hnominal]
  change _ = (d + 1) * msPerDay + sessionDayStampOffsetMinutes session * 60000 + shiftMs 0
  rw [shiftMs_zero]
  ring

theorem sessionPeriodOpenMs_none (z : FixedZone) (session : Session) (ms : ℤ)
    {period : CalendarPeriod}
    (hperiod : period ≠ .none) :
    (z.clock session none).sessionPeriodOpenMs ms period
      = (z.clock session none).sessionDayStampRealMs
          ((z.clock session none).sessionPeriodFirstDay
            ((z.clock session none).sessionDayIndex ms) period) :=
  if_neg hperiod

theorem startsOn_epoch : StartsOn .month 0 ∧ StartsOn .week (-3) ∧ StartsOn .week 4 :=
  ⟨by decide, by decide, by decide⟩

theorem month_nonneg (h : DayHours session) (hms : thirdDay ≤ ms) :
    0 ≤ (z.clock session none).sessionPeriodFirstDay
      ((z.clock session none).sessionDayIndex ms) .month
      + sessionTradingDateShiftDays session := by
  have hindex := index_nonneg z h hms
  have hshift := h.shift
  refine (firstOf_sessionPeriodFirstDay (z.clock session none) _ .month).max startsOn_epoch.1 ?_
  change 0 ≤ _ + sessionTradingDateShiftDays session
  omega

theorem opensOn_west (h : DayHours session) (hwest : -720 ≤ z.eastMinutes)
    (heast : z.eastMinutes < 720)
    (hms : thirdDay ≤ ms) {period : CalendarPeriod} (hperiod : period ≠ .none)
    (hfirst : z = utcAlias →
      0 ≤ (z.clock session none).sessionPeriodFirstDay
        ((z.clock session none).sessionDayIndex ms) period
        + sessionTradingDateShiftDays session) :
    z.OpensOn session period ms := by
  obtain ⟨hlow, hhigh⟩ := mem_readStamp z session hms
  rw [readStamp_west hwest heast] at hlow hhigh
  obtain ⟨hstarts, hle, halone⟩ := firstOf_sessionPeriodFirstDay (z.clock session none)
    ((z.clock session none).sessionDayIndex ms) period
  have hopen := sessionPeriodOpenMs_none z session ms hperiod
  rw [stampReal_date h hfirst, readStamp_west hwest heast] at hopen
  refine ⟨_, _, hlow, hhigh, ?_, hopen, ?_, ?_⟩
  · exact Int.le_of_add_le_add_right hle
  · rw [dateAt_eq z h]
    exact hstarts
  · intro g hlt hge
    rw [dateAt_eq z h]
    exact halone _ (Int.add_lt_add_right hlt _) (Int.add_le_add_right hge _)

/-- The first week of UTC is misread. -/
theorem week_misread (h : DayHours session) (hms : thirdDay ≤ ms)
    (hearly : ms < utcAlias.stampAt session (4 - sessionTradingDateShiftDays session)) :
    ¬ utcAlias.OpensOn session .week ms := by
  rintro ⟨f, d, -, -, -, hopen, hstarts, -⟩
  obtain ⟨hlow, hhigh⟩ := mem_readStamp utcAlias session hms
  have hindex := index_nonneg utcAlias h hms
  have hshift := h.shift
  obtain ⟨hmonday, hle, -⟩ := firstOf_sessionPeriodFirstDay (utcAlias.clock session none)
    ((utcAlias.clock session none).sessionDayIndex ms) .week
  have hmax := (firstOf_sessionPeriodFirstDay (utcAlias.clock session none)
    ((utcAlias.clock session none).sessionDayIndex ms) .week).max startsOn_epoch.2.1
  obtain ⟨first, hfirst⟩ : ∃ first, first = (utcAlias.clock session none).sessionPeriodFirstDay
    ((utcAlias.clock session none).sessionDayIndex ms) .week := ⟨_, rfl⟩
  rw [sessionPeriodOpenMs_none utcAlias session ms (by decide), ← hfirst] at hopen
  rw [← hfirst] at hmonday hle hmax
  change SymbolClock.wdayOf (first + sessionTradingDateShiftDays session) = 1 at hmonday
  change first + sessionTradingDateShiftDays session
    ≤ (utcAlias.clock session none).sessionDayIndex ms + sessionTradingDateShiftDays session at hle
  change (-3 : ℤ) ≤ (utcAlias.clock session none).sessionDayIndex ms
    + sessionTradingDateShiftDays session →
    (-3 : ℤ) ≤ first + sessionTradingDateShiftDays session at hmax
  rw [dateAt_eq utcAlias h] at hstarts
  change SymbolClock.wdayOf (f + sessionTradingDateShiftDays session) = 1 at hstarts
  unfold SymbolClock.wdayOf at hmonday hstarts
  rw [readStamp_west (by decide) (by decide)] at hlow hhigh
  have hdate : first + sessionTradingDateShiftDays session = -3 := by
    unfold stampAt msPerDay at hlow hearly
    omega
  rw [stampReal_alias h (by omega), readStamp_west (by decide) (by decide)] at hopen
  unfold stampAt msPerDay at hopen
  omega

/-- Attribution follows the zone's calendar exactly west of twelve hours east, except in the first
week of 1970 of a zone that is UTC under another name. -/
theorem attribution_exact (z : FixedZone) (session : Session) (ms : ℤ)
    (hdeclared : Declared session)
    (hzone : -720 ≤ z.eastMinutes ∧ z.eastMinutes ≤ 840) (hms : thirdDay ≤ ms) :
    z.FollowsCivil session ms ↔ z.eastMinutes < 720 ∧
      (z = utcAlias → z.stampAt session (4 - sessionTradingDateShiftDays session) ≤ ms) := by
  have h := hdeclared.dayHours
  have hindex := index_nonneg z h hms
  obtain ⟨hlow, hhigh⟩ := mem_readStamp z session hms
  constructor
  · rintro ⟨-, hdate, hweek, -⟩
    refine ⟨?_, ?_⟩
    · by_contra heast
      rw [date_east h (not_lt.mp heast) hzone.2] at hdate
      omega
    · rintro rfl
      by_contra hearly
      exact week_misread h hms (not_le.mp hearly) hweek
  · rintro ⟨heast, halias⟩
    refine ⟨⟨?_, ?_⟩, ?_, ?_, ?_⟩
    · rw [stampReal_nonneg h hindex]
      exact hlow
    · rw [stampReal_nonneg h (by omega)]
      exact hhigh
    · exact (date_west h hzone.1 heast hindex).symm
    · refine opensOn_west h hzone.1 heast hms (by decide) fun hz => ?_
      have hstart := halias hz
      rw [readStamp_west hzone.1 heast] at hhigh
      have hlate : 4 ≤ (z.clock session none).sessionDayIndex ms + sessionTradingDateShiftDays
          session := by
        unfold stampAt msPerDay at hstart hhigh
        omega
      have hfour := (firstOf_sessionPeriodFirstDay (z.clock session none)
        ((z.clock session none).sessionDayIndex ms) .week).max startsOn_epoch.2.2 hlate
      change 4 ≤ _ + sessionTradingDateShiftDays session at hfour
      omega
    · exact opensOn_west h hzone.1 heast hms (by decide) fun _ => month_nonneg h hms

/-- The hours of the NSE. -/
def nse : Session := "0915-1530".toList

theorem nse_declared : Declared nse :=
  .inr (.inr ⟨_, windowsText_of_readWindows (show readWindows 2 nse
    = some [(555, 930)] by decide +kernel)⟩)

/-- Mumbai, 2024-01-01 at 06:00 UTC. -/
theorem attribution_exact_mumbai : (offset 330).FollowsCivil nse 1704088800000 :=
  (attribution_exact (offset 330) nse 1704088800000 nse_declared (by decide) (by decide)).mpr
    ⟨by decide, nofun⟩

/-- In Auckland's summer time the trading date is the day before; and `GMT` opens the week of
1970-01-03 on the Tuesday. -/
theorem attribution_fails :
    ¬ (offset 780).FollowsCivil nse 1704088800000 ∧ ¬ utcAlias.FollowsCivil nse thirdDay := by
  constructor
  · intro h
    have hdate := h.date
    rw [date_east nse_declared.dayHours (by decide) (by decide)] at hdate
    omega
  · intro h
    exact week_misread nse_declared.dayHours le_rfl (by decide +kernel) h.week

end FixedZone

end PineForge.Timeframe
