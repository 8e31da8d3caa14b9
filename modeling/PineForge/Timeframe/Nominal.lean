import Mathlib
import PineForge.Timeframe.Zones

/-!
# One partition of time

Without a native partition, the periods of a symbol clock in a zone of one offset cut time from
1970-01-03 on into runs: `crosses_boundary` tells the runs apart, a run's open is its first instant,
a week's or a month's close is the next open, and the last traded close lies between the two.

An instant's period is known by its first session day (`crosses_iff_first`), and the stamps of first
days increase with them (`periodStamp_lt`). The readers refuse no text. Where the zone is UTC under
another name, which misreads the stamps before 1970, the texts are those whose session days open
before midnight and last a day at most (`DayHours`).
-/

namespace PineForge.Timeframe.FixedZone

open Calendar

variable {z : FixedZone} {session : Session} {a b ms : ℤ} {period : CalendarPeriod}

/-! ## First days -/

/-- The first session day of the period of an instant. -/
def firstDay (z : FixedZone) (session : Session) (period : CalendarPeriod) (ms : ℤ) : ℤ :=
  (z.clock session none).sessionPeriodFirstDay ((z.clock session none).sessionDayIndex ms) period

theorem firstOf_firstDay (z : FixedZone) (session : Session) (period : CalendarPeriod) (ms : ℤ) :
    FirstOf period ((z.clock session none).sessionDayIndex ms + sessionTradingDateShiftDays session)
      (z.firstDay session period ms + sessionTradingDateShiftDays session) :=
  firstOf_sessionPeriodFirstDay (z.clock session none) _ period

theorem index_mono (ha : thirdDay ≤ a) (hab : a ≤ b) :
    (z.clock session none).sessionDayIndex a ≤ (z.clock session none).sessionDayIndex b := by
  obtain ⟨hlow, -⟩ := mem_readStamp z session ha
  obtain ⟨-, hhigh⟩ := mem_readStamp z session (ha.trans hab)
  unfold readStamp msPerDay at hlow hhigh
  omega

theorem firstDay_mono (z : FixedZone) (session : Session) (period : CalendarPeriod)
    (ha : thirdDay ≤ a) (hab : a ≤ b) :
    z.firstDay session period a ≤ z.firstDay session period b := by
  have hmono := (firstOf_firstDay z session period a).mono (firstOf_firstDay z session period b)
    (Int.add_le_add_right (index_mono ha hab) _)
  omega

theorem firstDay_le (z : FixedZone) (session : Session) (period : CalendarPeriod) (ms : ℤ) :
    z.firstDay session period ms ≤ (z.clock session none).sessionDayIndex ms := by
  have hle := (firstOf_firstDay z session period ms).le
  omega

/-- A period starts in 1970 or later, or in the week of the first days of 1970. -/
def StartsLate (session : Session) (f : ℤ) : Prop :=
  0 ≤ f + sessionTradingDateShiftDays session ∨ f + sessionTradingDateShiftDays session = -3

theorem firstDay_late (h : DayHours session) (hms : thirdDay ≤ ms) (period : CalendarPeriod) :
    StartsLate session (z.firstDay session period ms) := by
  have hindex := index_nonneg z h hms
  have hshift := h.shift
  have hfirst := firstOf_firstDay z session period ms
  cases period with
  | none =>
    left
    change 0 ≤ (z.clock session none).sessionDayIndex ms + _
    omega
  | day =>
    left
    change 0 ≤ (z.clock session none).sessionDayIndex ms + _
    omega
  | month => exact .inl (hfirst.max startsOn_epoch.1 (by omega))
  | week =>
    have hlow := hfirst.max startsOn_epoch.2.1 (by omega)
    have hmonday := hfirst.starts
    change SymbolClock.wdayOf _ = 1 at hmonday
    unfold SymbolClock.wdayOf at hmonday
    unfold StartsLate
    omega

/-! ## Stamps of first days -/

/-- Where a period that starts on a session day opens. -/
def periodStamp (z : FixedZone) (session : Session) (f : ℤ) : ℤ :=
  if z = utcAlias ∧ f + sessionTradingDateShiftDays session < 0 then z.readStamp session (f + 1)
  else z.readStamp session f

theorem readStamp_lt_iff {d e : ℤ} : z.readStamp session d < z.readStamp session e ↔ d < e := by
  unfold readStamp msPerDay
  omega

theorem stampReal_offset (hz : z ≠ utcAlias) (session : Session) (d : ℤ) :
    (z.clock session none).sessionDayStampRealMs d = z.readStamp session d :=
  sessionDayStampRealMs_eq z session none fun halias => absurd halias hz

theorem stampReal_eq (h : z = utcAlias → DayHours session) {f : ℤ}
    (hf : z = utcAlias → StartsLate session f) :
    (z.clock session none).sessionDayStampRealMs f = z.periodStamp session f := by
  unfold periodStamp
  split
  · rename_i hearly
    obtain ⟨rfl, hneg⟩ := hearly
    have hshift := (h rfl).shift
    refine stampReal_alias (h rfl) ?_
    obtain hf | hf := hf rfl <;> omega
  · rename_i hlate
    by_cases hz : z = utcAlias
    · refine stampReal_date (h hz) fun _ => ?_
      by_contra hneg
      exact hlate ⟨hz, not_le.mp hneg⟩
    · exact stampReal_offset hz session f

theorem firstDay_cases (h : z = utcAlias → DayHours session) (hms : thirdDay ≤ ms)
    (period : CalendarPeriod) (halias : z = utcAlias) :
    StartsLate session (z.firstDay session period ms) := firstDay_late (h halias) hms period

theorem sessionPeriodOpenMs_eq (h : z = utcAlias → DayHours session) (hms : thirdDay ≤ ms)
    (hperiod : period ≠ .none) :
    (z.clock session none).sessionPeriodOpenMs ms period
      = z.periodStamp session (z.firstDay session period ms) := by
  rw [sessionPeriodOpenMs_none z session ms hperiod]
  exact stampReal_eq h (firstDay_cases h hms period)

theorem periodStamp_lt {f g : ℤ} (hf : z = utcAlias → StartsLate session f)
    (hg : z = utcAlias → StartsLate session g) (hlt : f < g) :
    z.periodStamp session f < z.periodStamp session g := by
  have hlate : ¬ (z = utcAlias ∧ g + sessionTradingDateShiftDays session < 0) := by
    rintro ⟨halias, hneg⟩
    obtain hf | hf := hf halias <;> obtain hg | hg := hg halias <;> omega
  unfold periodStamp
  rw [if_neg hlate]
  split
  · rename_i hearly
    obtain ⟨halias, hneg⟩ := hearly
    refine readStamp_lt_iff.mpr ?_
    obtain hf | hf := hf halias <;> obtain hg | hg := hg halias <;> omega
  · exact readStamp_lt_iff.mpr hlt

theorem periodStamp_late {f : ℤ} (hf : z = utcAlias → 0 ≤ f + sessionTradingDateShiftDays session) :
    z.periodStamp session f = z.readStamp session f := by
  unfold periodStamp
  refine if_neg ?_
  rintro ⟨halias, hneg⟩
  exact absurd (hf halias) (not_le.mpr hneg)

theorem clockDay_eq {clock : ℤ} (h : 0 ≤ clock) :
    SymbolClock.clockDay clock = clock / msPerDay := by
  unfold SymbolClock.clockDay secPerDay msPerDay
  rw [Int.tdiv_eq_ediv_of_nonneg h]
  omega

/-- The day number that `gmtime` reads off the session clock is the session day. -/
theorem clockDay_intradayClockMs (h : sessionDayStampOffsetMinutes session ≤ 2160)
    (hms : thirdDay ≤ ms) :
    SymbolClock.clockDay ((z.clock session none).intradayClockMs ms)
      = (z.clock session none).sessionDayIndex ms := by
  have hindex := index_nonneg_of_stamp z h hms
  change 0 ≤ floorDivDay ((z.clock session none).intradayClockMs ms) at hindex
  change _ = floorDivDay ((z.clock session none).intradayClockMs ms)
  rw [floorDivDay_eq] at hindex ⊢
  refine clockDay_eq ?_
  unfold msPerDay at hindex
  omega

theorem shift_of_untraded (h : hasTradingSession session = false) :
    sessionTradingDateShiftDays session = 0 ∧ sessionDayStampOffsetMinutes session = 0 := by
  have hcases : session = [] ∨ session = anyHours := by
    simpa [hasTradingSession, or_iff_not_imp_left] using h
  obtain rfl | rfl := hcases
  · decide
  · decide

/-- Boundaries are told by first days. The days of `gmtime` are cut to seconds toward 1970, so a
session day's clock must not be negative. -/
theorem crosses_iff_first (h : period = .day → sessionDayStampOffsetMinutes session ≤ 2160)
    (ha : thirdDay ≤ a) (hb : thirdDay ≤ b) (hperiod : period ≠ .none) :
    (z.clock session none).crossesBoundary a b period = true ↔
      z.firstDay session period a ≠ z.firstDay session period b := by
  unfold SymbolClock.crossesBoundary
  dsimp only
  cases period with
  | none => exact absurd rfl hperiod
  | day =>
    dsimp only
    rw [if_neg (by rintro (h | h) <;> cases h), decide_eq_true_iff,
      clockDay_intradayClockMs (h rfl) ha, clockDay_intradayClockMs (h rfl) hb]
    exact Iff.rfl
  | month =>
    rw [decide_eq_true_iff]
    exact Iff.rfl
  | week =>
    dsimp only
    cases htraded : hasTradingSession session with
    | true =>
      change (if hasTradingSession session = true then _ else _) = true ↔ _
      rw [if_pos htraded, decide_eq_true_iff]
      exact Iff.rfl
    | false =>
      change (if hasTradingSession session = true then _ else _) = true ↔ _
      obtain ⟨hshift, hstamp⟩ := shift_of_untraded htraded
      have hclock : sessionDayStampOffsetMinutes session ≤ 2160 := hstamp.trans_le (by decide)
      rw [if_neg (by simp [htraded]), decide_eq_true_iff, clockDay_intradayClockMs hclock ha,
        clockDay_intradayClockMs hclock hb]
      unfold firstDay SymbolClock.sessionPeriodFirstDay SymbolClock.mondayOf
      dsimp only
      change _ ↔ (z.clock session none).sessionDayIndex a + sessionTradingDateShiftDays session - _
        - sessionTradingDateShiftDays session ≠ (z.clock session none).sessionDayIndex b
        + sessionTradingDateShiftDays session - _ - sessionTradingDateShiftDays session
      change _ ↔ _ - (SymbolClock.wdayOf (_ + sessionTradingDateShiftDays session) + 6) % 7 - _
        ≠ _ - (SymbolClock.wdayOf (_ + sessionTradingDateShiftDays session) + 6) % 7 - _
      simp only [hshift, add_zero, sub_zero]

theorem open_le (h : z = utcAlias → DayHours session) (hms : thirdDay ≤ ms)
    (hperiod : period ≠ .none) :
    (z.clock session none).sessionPeriodOpenMs ms period ≤ ms := by
  rw [sessionPeriodOpenMs_eq h hms hperiod]
  obtain ⟨hlow, -⟩ := mem_readStamp z session hms
  have hle := firstDay_le z session period ms
  refine le_trans ?_ hlow
  unfold periodStamp
  split
  · rename_i hearly
    obtain ⟨halias, hneg⟩ := hearly
    have hindex := index_nonneg z (h halias) hms
    have hshift := (h halias).shift
    unfold readStamp msPerDay
    omega
  · unfold readStamp msPerDay
    omega

/-- The first session day of the week or month after an instant's. -/
def nextDay (z : FixedZone) (session : Session) (period : CalendarPeriod) (ms : ℤ) : ℤ :=
  (z.clock session none).sessionPeriodNextFirstDay
    ((z.clock session none).sessionDayIndex ms) period

theorem grouped_ne_none (h : period.grouped) : period ≠ .none := by
  rintro rfl
  obtain h | h := h <;> cases h

theorem lt_readStamp {d : ℤ} (hms : thirdDay ≤ ms) :
    ms < z.readStamp session d ↔ (z.clock session none).sessionDayIndex ms < d := by
  obtain ⟨hlow, hhigh⟩ := mem_readStamp z session hms
  constructor
  · intro hlt
    exact readStamp_lt_iff.mp (lt_of_le_of_lt hlow hlt)
  · intro hlt
    unfold readStamp msPerDay at hhigh ⊢
    omega

end PineForge.Timeframe.FixedZone
