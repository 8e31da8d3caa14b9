import Mathlib
import PineForge.Timeframe.Periods

/-!
# Bars of the UTC calendar

The day, week and month of an instant under UTC, with no session argument. Milliseconds become
seconds by a division that rounds toward zero, and so do the seconds of a day bar become days: an
instant of the last second before a midnight, and every instant of a day that is read as a day bar,
is then read as the next midnight where it is before 1970. `holdsInstant_iff` says where that shows.
-/

namespace PineForge.SessionTime

open Calendar Timeframe SymbolClock

/-! ## Fields -/

/-- The seconds whose fields are computed by integer arithmetic. -/
def civilSpan : ℤ := 2 ^ 40

/-- The span whose fields are computed here. -/
def inCivilSpan (secs : ℤ) : Prop := -civilSpan < secs ∧ secs < civilSpan

instance (secs : ℤ) : Decidable (inCivilSpan secs) := inferInstanceAs (Decidable (_ ∧ _))

/-- A broken-down time. -/
structure Tm where
  sec : ℤ
  min : ℤ
  hour : ℤ
  mday : ℤ
  mon : ℤ
  year : ℤ
  wday : ℤ
  yday : ℤ
  isdst : ℤ
deriving DecidableEq, Repr

/-- The days of seconds, rounded down. -/
def floorDays (secs : ℤ) : ℤ := secs.tdiv 86400 - if secs.tmod 86400 < 0 then 1 else 0

/-- The fields of an instant. -/
def civilFields (secs : ℤ) : Tm :=
  let days := floorDays secs
  let secondOfDay := secs - days * 86400
  let date := nativeCivilDate days
  { sec := secondOfDay.tmod 60
    min := (secondOfDay.tdiv 60).tmod 60
    hour := secondOfDay.tdiv 3600
    mday := date.day
    mon := date.month - 1
    year := date.year - 1900
    wday := ((days + 4).tmod 7 + 7).tmod 7
    yday := days - nativeCivilDays ⟨date.year, 1, 1⟩
    isdst := 0 }

/-- The days of a date. -/
def daysFromCivil (year month day : ℤ) : ℤ := nativeCivilDays ⟨year, month, day⟩

/-- `mktime` under UTC: months out of range carry into the year, days into the month. -/
def mktimeUtc (t : Tm) : ℤ :=
  (daysFromCivil (t.year + 1900 + t.mon / 12) (t.mon % 12 + 1) t.mday) * 86400
    + t.hour * 3600 + t.min * 60 + t.sec

/-! ## Opens and closes -/

/-- The open of an instant's day. -/
def calendarDayOpenMs (barMs : ℤ) : ℤ := (barMs.tdiv 1000).tdiv 86400 * 86400 * 1000

/-- The day of a second, rounded down. -/
def daysOf (secs : ℤ) : ℤ := secs.tdiv 86400 - if secs.tmod 86400 ≠ 0 ∧ secs < 0 then 1 else 0

/-- The open of an instant's week. -/
def calendarWeekOpenMs (barMs : ℤ) : ℤ :=
  let days := daysOf (barMs.tdiv 1000)
  let wday := ((days + 4).tmod 7 + 7).tmod 7
  let daysFromMon := (wday + 6).tmod 7
  (days - daysFromMon) * 86400000

/-- Outside the span `gmtime_r` answers the fields. -/
def utcFields (secs : ℤ) : Tm := civilFields secs

/-- The open of an instant's month. -/
def calendarMonthOpenMs (barMs : ℤ) : ℤ :=
  let secs := barMs.tdiv 1000
  (daysOf secs - ((utcFields secs).mday - 1)) * 86400000

/-- The open of a bar; a timeframe that is no calendar period reads the intraday grid instead. -/
def computeTfOpenMs (barMs : ℤ) : CalendarPeriod → ℤ
  | .day => calendarDayOpenMs barMs
  | .week => calendarWeekOpenMs barMs
  | .month => calendarMonthOpenMs barMs
  | .none => barMs

/-- The close of an instant's period. -/
def computeTfCloseMs (barMs : ℤ) (period : CalendarPeriod) : ℤ :=
  let osec := (computeTfOpenMs barMs period).tdiv 1000
  if inCivilSpan osec then
    let days := floorDays osec
    let fields := civilFields osec
    let next := if period = .month then
        if fields.mon = 11 then daysFromCivil (fields.year + 1900 + 1) 1 1
        else daysFromCivil (fields.year + 1900) (fields.mon + 2) 1
      else days + if period = .day then 1 else 7
    next * 86400 * 1000
  else
    -- `localtime_r` and `mktime` with the process zone set to UTC
    let t := { civilFields osec with hour := 0, min := 0, sec := 0 }
    match period with
    | .day => mktimeUtc { t with mday := t.mday + 1 } * 1000
    | .week => mktimeUtc { t with mday := t.mday + 7 } * 1000
    | .month => mktimeUtc { t with mon := t.mon + 1, mday := 1 } * 1000
    | .none => computeTfOpenMs barMs period

/-- The period of a timeframe's text. -/
def calendarPeriodFor (tf : List Char) : CalendarPeriod :=
  if tf.getLast? = some 'M' then .month
  else if tf.getLast? = some 'W' then .week
  else if tf.getLast? = some 'D' then .day
  else .none

/-- The timeframe a call reads: its own, else the chart's, else one minute. -/
def callTimeframe (tfIn chartTf : List Char) : List Char :=
  if tfIn ≠ [] then tfIn else if chartTf ≠ [] then chartTf else ['1']

/-- `time` under UTC, without a session argument. -/
def timeframeTime (barMs : ℤ) (tfIn chartTf : List Char) : ℤ :=
  computeTfOpenMs barMs (calendarPeriodFor (callTimeframe tfIn chartTf))

/-- And `time_close`. -/
def timeframeTimeClose (barMs : ℤ) (tfIn chartTf : List Char) : ℤ :=
  computeTfCloseMs barMs (calendarPeriodFor (callTimeframe tfIn chartTf))

/-! ## Divisions -/

theorem tdiv_thousand (ms : ℤ) :
    ms.tdiv 1000 = if 0 ≤ ms then ms / 1000 else -(-ms / 1000) := by
  split
  · exact Int.tdiv_eq_ediv_of_nonneg ‹_›
  · rw [← Int.tdiv_eq_ediv_of_nonneg (by omega), Int.neg_tdiv, neg_neg]

theorem tdiv_day (secs : ℤ) :
    secs.tdiv 86400 = if 0 ≤ secs then secs / 86400 else -(-secs / 86400) := by
  split
  · exact Int.tdiv_eq_ediv_of_nonneg ‹_›
  · rw [← Int.tdiv_eq_ediv_of_nonneg (by omega), Int.neg_tdiv, neg_neg]

theorem floorDays_eq (secs : ℤ) : floorDays secs = secs / 86400 := by
  have hmod := Int.tmod_add_mul_tdiv secs 86400
  unfold floorDays
  rw [tdiv_day] at hmod ⊢
  split at hmod <;> split <;> omega

theorem daysOf_eq (secs : ℤ) : daysOf secs = secs / 86400 := by
  have hmod := Int.tmod_add_mul_tdiv secs 86400
  unfold daysOf
  rw [tdiv_day] at hmod ⊢
  split at hmod <;> split <;> omega

theorem tmod_seven (days : ℤ) : ((days + 4).tmod 7 + 7).tmod 7 = wdayOf days := by
  unfold wdayOf
  grind

theorem tmod_week (n : ℤ) (h : 0 ≤ n) : n.tmod 7 = n % 7 := Int.tmod_eq_emod_of_nonneg h

/-! ## Days read -/

/-- The civil day of an instant. -/
def civilDay (ms : ℤ) : ℤ := ms / msPerDay

/-- The day whose period a bar is. -/
def readDay (period : CalendarPeriod) (ms : ℤ) : ℤ :=
  if period = .day then (ms.tdiv 1000).tdiv 86400 else ms.tdiv 1000 / 86400

theorem readDay_nonneg (period : CalendarPeriod) {ms : ℤ} (h : 0 ≤ ms) :
    readDay period ms = civilDay ms := by
  unfold readDay civilDay msPerDay
  rw [Int.tdiv_eq_ediv_of_nonneg h, Int.tdiv_eq_ediv_of_nonneg (show 0 ≤ ms / 1000 by omega)]
  split <;> omega

theorem readDay_neg {period : CalendarPeriod} (hperiod : period ≠ .day) {ms : ℤ} (h : ms < 0) :
    readDay period ms = civilDay ms ∨ readDay period ms = civilDay ms + 1 := by
  unfold readDay civilDay msPerDay
  rw [if_neg hperiod, tdiv_thousand, if_neg (by omega)]
  omega

theorem readDay_last (period : CalendarPeriod) {day : ℤ} (h : day < 0) :
    readDay period ((day + 1) * msPerDay - 1) = day + 1 := by
  have hsecs : ((day + 1) * msPerDay - 1).tdiv 1000 = (day + 1) * 86400 := by
    unfold msPerDay
    rw [tdiv_thousand, if_neg (show ¬ 0 ≤ (day + 1) * 86400000 - 1 by omega)]
    omega
  unfold readDay
  rw [hsecs]
  split
  · exact Int.mul_tdiv_cancel _ (by decide)
  · exact Int.mul_ediv_cancel _ (by decide)

/-! ## Opens -/

theorem mday_civilFields (secs : ℤ) :
    (civilFields secs).mday = (nativeCivilDate (secs / 86400)).day := by
  unfold civilFields
  rw [floorDays_eq]

theorem firstOf_week (day : ℤ) : FirstOf .week day (day - (wdayOf day + 6) % 7) := by
  refine ⟨?_, ?_, ?_⟩
  · change wdayOf _ = 1
    unfold wdayOf
    omega
  · unfold wdayOf
    omega
  · intro g hlt hle hg
    change wdayOf g = 1 at hg
    unfold wdayOf at hlt hg
    omega

theorem open_eq {period : CalendarPeriod} (hperiod : period ≠ .none) (ms : ℤ) :
    ∃ first, FirstOf period (readDay period ms) first ∧ computeTfOpenMs ms period
      = first * msPerDay := by
  cases period with
  | none => exact absurd rfl hperiod
  | day =>
    refine ⟨_, FirstOf.self trivial, ?_⟩
    change _ * 86400 * 1000 = _ * 86400000
    rw [mul_assoc]
    rfl
  | week =>
    refine ⟨_, firstOf_week _, ?_⟩
    change (daysOf _ - (((daysOf _ + 4).tmod 7 + 7).tmod 7 + 6).tmod 7) * 86400000 = _
    rw [tmod_seven, tmod_week _ (by unfold wdayOf; omega), daysOf_eq]
    rfl
  | month =>
    refine ⟨_, firstOf_month _, ?_⟩
    change (daysOf _ - ((civilFields _).mday - 1)) * 86400000 = _
    rw [daysOf_eq, mday_civilFields]
    rfl

/-! ## Closes -/

theorem osec_eq (first : ℤ) : (first * msPerDay).tdiv 1000 = first * 86400 := by
  unfold msPerDay
  rw [show first * 86400000 = first * 86400 * 1000 by ring]
  exact Int.mul_tdiv_cancel _ (by decide)

theorem nextOf_day (day : ℤ) : NextOf .day day (day + 1) :=
  ⟨trivial, by omega, fun g hlt hle => absurd hle (by omega)⟩

theorem nextOf_week {day : ℤ} (h : StartsOn .week day) : NextOf .week day (day + 7) := by
  change wdayOf day = 1 at h
  refine ⟨?_, by omega, ?_⟩
  · change wdayOf _ = 1
    unfold wdayOf at h ⊢
    omega
  · intro g hlt hle hg
    change wdayOf g = 1 at hg
    unfold wdayOf at h hg
    omega

theorem daysFromCivil_add (year month day n : ℤ) :
    daysFromCivil year month (day + n) = daysFromCivil year month day + n := by
  unfold daysFromCivil nativeCivilDays
  dsimp only
  ring

theorem fields_first (first : ℤ) :
    (civilFields (first * 86400)).mday = (nativeCivilDate first).day ∧
    (civilFields (first * 86400)).mon = (nativeCivilDate first).month - 1 ∧
    (civilFields (first * 86400)).year = (nativeCivilDate first).year - 1900 := by
  have hday : floorDays (first * 86400) = first := by
    rw [floorDays_eq]
    omega
  unfold civilFields
  rw [hday]
  exact ⟨rfl, rfl, rfl⟩

theorem nextOf_month_civil (day : ℤ) {year month : ℤ}
    (h : year * 12 + (month - 1) = monthIndex (nativeCivilDate day) + 1) (hlow : 1 ≤ month)
    (hhigh : month ≤ 12) :
    NextOf .month day (daysFromCivil year month 1) := by
  have hnext := nextOf_month day
  have hfirst : monthFirst (monthIndex (nativeCivilDate day) + 1) = ⟨year, month, 1⟩ := by
    unfold monthFirst
    rw [floorDiv_eq _ (by decide), CivilDate.mk.injEq]
    exact ⟨by omega, by omega, rfl⟩
  rwa [hfirst] at hnext

/-- `mktime` at midnight of a date. -/
theorem mktimeUtc_midnight (t : Tm) (h : t.hour = 0 ∧ t.min = 0 ∧ t.sec = 0) :
    mktimeUtc t = daysFromCivil (t.year + 1900 + t.mon / 12) (t.mon % 12 + 1) t.mday * 86400 := by
  unfold mktimeUtc
  rw [h.1, h.2.1, h.2.2]
  ring

/-- The close is the next period's first day. -/
theorem close_eq {period : CalendarPeriod} (hperiod : period ≠ .none) {ms first : ℤ}
    (hstarts : StartsOn period first) (hopen : computeTfOpenMs ms period = first * msPerDay) :
    ∃ next, NextOf period first next ∧ computeTfCloseMs ms period = next * msPerDay := by
  have hscale : ∀ n : ℤ, n * 86400 * 1000 = n * msPerDay := fun n => mul_assoc n 86400 1000
  obtain ⟨hmday, hmon, hyear⟩ := fields_first first
  have hmonth := civilDate_month_bounds first
  unfold computeTfCloseMs
  rw [hopen, osec_eq]
  dsimp only
  split
  · have hdays : floorDays (first * 86400) = first := by
      rw [floorDays_eq]
      omega
    rw [hdays]
    cases period with
    | none => exact absurd rfl hperiod
    | day => exact ⟨_, nextOf_day first, hscale _⟩
    | week => exact ⟨_, nextOf_week hstarts, hscale _⟩
    | month =>
      rw [if_pos rfl, hmon, hyear]
      refine ⟨_, ?_, hscale _⟩
      split
      · refine nextOf_month_civil first ?_ (by decide) (by decide)
        unfold monthIndex
        omega
      · refine nextOf_month_civil first ?_ (by omega) (by omega)
        unfold monthIndex
        omega
  · have hdate : ∀ n, daysFromCivil ((civilFields (first * 86400)).year + 1900
          + (civilFields (first * 86400)).mon / 12) ((civilFields (first * 86400)).mon % 12 + 1)
          ((civilFields (first * 86400)).mday + n) = first + n := by
      intro n
      rw [daysFromCivil_add, hmday, hmon, hyear,
        show (nativeCivilDate first).year - 1900 + 1900 + ((nativeCivilDate first).month - 1) / 12
          = (nativeCivilDate first).year by omega,
        show ((nativeCivilDate first).month - 1) % 12 + 1 = (nativeCivilDate first).month by omega]
      exact congrArg (· + n) (civilDays_civilDate first)
    cases period with
    | none => exact absurd rfl hperiod
    | day =>
      refine ⟨_, nextOf_day first, ?_⟩
      dsimp only
      rw [mktimeUtc_midnight _ ⟨rfl, rfl, rfl⟩, hscale]
      exact congrArg (· * msPerDay) (hdate 1)
    | week =>
      refine ⟨_, nextOf_week hstarts, ?_⟩
      dsimp only
      rw [mktimeUtc_midnight _ ⟨rfl, rfl, rfl⟩, hscale]
      exact congrArg (· * msPerDay) (hdate 7)
    | month =>
      dsimp only
      rw [mktimeUtc_midnight _ ⟨rfl, rfl, rfl⟩, hscale]
      dsimp only
      rw [hmon, hyear]
      refine ⟨_, nextOf_month_civil first ?_ (by omega) (by omega), rfl⟩
      unfold monthIndex
      omega

/-! ## The law -/

/-- A bar holds its instant: it opens at the midnight where its period starts and closes at the next
such midnight, and the instants of one civil day have one bar. -/
structure HoldsInstant (ms : ℤ) (tfIn chartTf : List Char) : Prop where
  opens : timeframeTime ms tfIn chartTf ≤ ms
  closes : ms < timeframeTimeClose ms tfIn chartTf
  midnight : ∃ first next, timeframeTime ms tfIn chartTf = first * msPerDay ∧
    timeframeTimeClose ms tfIn chartTf = next * msPerDay ∧
    StartsOn (calendarPeriodFor tfIn) first ∧ NextOf (calendarPeriodFor tfIn) first next
  same : ∀ ms', inCivilSpan (ms'.tdiv 1000) → civilDay ms' = civilDay ms →
    timeframeTime ms' tfIn chartTf = timeframeTime ms tfIn chartTf ∧
      timeframeTimeClose ms' tfIn chartTf = timeframeTimeClose ms tfIn chartTf

/-- The calendar timeframes. -/
def calendarTfs : List (List Char) := [['D'], ['W'], ['M']]

section

variable {period : CalendarPeriod} {ms : ℤ}

theorem firstOf_civil (hday : 0 ≤ ms ∨ ¬ StartsOn period (civilDay ms + 1)) {first : ℤ}
    (h : FirstOf period (readDay period ms) first) : FirstOf period (civilDay ms) first := by
  by_cases hms : 0 ≤ ms
  · rwa [readDay_nonneg period hms] at h
  · have hnot := hday.resolve_left hms
    have hperiod : period ≠ .day := by
      rintro rfl
      exact hnot trivial
    obtain hread | hread := readDay_neg hperiod (not_le.mp hms)
    · rwa [hread] at h
    · rw [hread] at h
      have hne : first ≠ civilDay ms + 1 := by
        rintro rfl
        exact hnot h.starts
      have hle := h.le
      exact ⟨h.starts, by omega, fun g hlt hg => h.alone g hlt (by omega)⟩

theorem close_congr {ms' : ℤ} (h : computeTfOpenMs ms' period = computeTfOpenMs ms period) :
    computeTfCloseMs ms' period = computeTfCloseMs ms period := by
  unfold computeTfCloseMs
  rw [h]

theorem lt_next {first next : ℤ} (hfirst : FirstOf period (civilDay ms) first)
    (hnext : NextOf period first next) :
    ms < next * msPerDay := by
  have hafter : civilDay ms < next := by
    by_contra hle
    exact hfirst.alone next hnext.lt (not_lt.mp hle) hnext.starts
  unfold civilDay msPerDay at *
  omega

theorem first_le {first : ℤ} (hfirst : FirstOf period (civilDay ms) first) :
    first * msPerDay ≤ ms := by
  have hle := hfirst.le
  unfold civilDay msPerDay at *
  omega

theorem open_last (hperiod : period ≠ .none) (hms : ms < 0)
    (hstarts : StartsOn period (civilDay ms + 1)) :
    computeTfOpenMs ((civilDay ms + 1) * msPerDay - 1) period = (civilDay ms + 1) * msPerDay := by
  obtain ⟨first, hfirst, hopen⟩ := open_eq hperiod ((civilDay ms + 1) * msPerDay - 1)
  have hday : civilDay ms < 0 := by
    unfold civilDay msPerDay
    omega
  rw [readDay_last period hday] at hfirst
  rw [hopen, hfirst.unique (FirstOf.self hstarts)]

end

theorem period_of_calendarTf {tfIn : List Char} (h : tfIn ∈ calendarTfs) (chartTf : List Char) :
    callTimeframe tfIn chartTf = tfIn ∧ calendarPeriodFor tfIn ≠ .none := by
  simp only [calendarTfs, List.mem_cons, List.not_mem_nil, or_false] at h
  obtain rfl | rfl | rfl := h
  · exact ⟨rfl, by decide⟩
  · exact ⟨rfl, by decide⟩
  · exact ⟨rfl, by decide⟩

/-- From 1970 on every bar holds its instant; before, where the civil day is not the last of its
period. -/
theorem holdsInstant_iff (ms : ℤ) (tfIn chartTf : List Char) (htf : tfIn ∈ calendarTfs)
    (hspan : inCivilSpan (ms.tdiv 1000)) :
    HoldsInstant ms tfIn chartTf ↔ 0 ≤ ms ∨
      ¬ StartsOn (calendarPeriodFor tfIn) (civilDay ms + 1) := by
  obtain ⟨hcall, hperiod⟩ := period_of_calendarTf htf chartTf
  have htime : ∀ ms, timeframeTime ms tfIn chartTf
      = computeTfOpenMs ms (calendarPeriodFor tfIn) := by
    intro ms
    unfold timeframeTime
    rw [hcall]
  have hclose : ∀ ms, timeframeTimeClose ms tfIn chartTf
      = computeTfCloseMs ms (calendarPeriodFor tfIn) := by
    intro ms
    unfold timeframeTimeClose
    rw [hcall]
  constructor
  · intro h
    by_contra hnot
    rw [not_or, not_not, not_le] at hnot
    obtain ⟨hms, hstarts⟩ := hnot
    -- the last instant of the civil day opens at the next midnight, after `ms`
    have hsame := (h.same ((civilDay ms + 1) * msPerDay - 1) ?_ ?_).1
    · have hopens := h.opens
      rw [← hsame, htime, open_last hperiod hms hstarts] at hopens
      unfold civilDay msPerDay at hopens
      omega
    · unfold inCivilSpan civilSpan civilDay msPerDay at *
      rw [tdiv_thousand, if_neg (by omega)] at hspan
      rw [tdiv_thousand, if_neg (show ¬ 0 ≤ (ms / 86400000 + 1) * 86400000 - 1 by omega)]
      omega
    · unfold civilDay msPerDay
      omega
  · intro hday
    obtain ⟨first, hread, hopen⟩ := open_eq hperiod ms
    have hfirst := firstOf_civil hday hread
    obtain ⟨next, hnext, hcloses⟩ := close_eq hperiod hread.starts hopen
    refine ⟨?_, ?_, ⟨first, next, ?_, ?_, hread.starts, hnext⟩, ?_⟩
    · rw [htime, hopen]
      exact first_le hfirst
    · rw [hclose, hcloses]
      exact lt_next hfirst hnext
    · rw [htime, hopen]
    · rw [hclose, hcloses]
    · intro ms' _ hcivil
      have hday' : 0 ≤ ms' ∨ ¬ StartsOn (calendarPeriodFor tfIn) (civilDay ms' + 1) := by
        rw [hcivil]
        obtain hms | hnot := hday
        · left
          unfold civilDay msPerDay at hcivil
          omega
        · exact .inr hnot
      obtain ⟨first', hread', hopen'⟩ := open_eq hperiod ms'
      have hfirst' := firstOf_civil hday' hread'
      rw [hcivil] at hfirst'
      have hopens : computeTfOpenMs ms' (calendarPeriodFor tfIn)
          = computeTfOpenMs ms (calendarPeriodFor tfIn) := by
        rw [hopen', hopen, hfirst'.unique hfirst]
      rw [htime, htime, hclose, hclose]
      exact ⟨hopens, close_congr hopens⟩

/-- A Wednesday in 2024, and a Friday of 1969 in its week. -/
theorem holdsInstant_iff_weeks :
    HoldsInstant 1704302123456 ['W'] [] ∧ HoldsInstant (-500000000) ['W'] [] :=
  ⟨(holdsInstant_iff _ _ _ (by decide) (by decide)).mpr (.inl (by decide)),
    (holdsInstant_iff _ _ _ (by decide) (by decide)).mpr (.inr (by decide +kernel))⟩

/-- Noon of 1969-12-31 opens its day twelve hours later. -/
theorem holdsInstant_noon : inCivilSpan ((-43200000 : ℤ).tdiv 1000) ∧
    timeframeTime (-43200000) ['D'] [] = 0 ∧ ¬ HoldsInstant (-43200000) ['D'] [] := by
  have hopen : timeframeTime (-43200000) ['D'] [] = 0 := by decide
  refine ⟨by decide, hopen, fun h => ?_⟩
  have hopens := h.opens
  rw [hopen] at hopens
  exact absurd hopens (by decide)

end PineForge.SessionTime
