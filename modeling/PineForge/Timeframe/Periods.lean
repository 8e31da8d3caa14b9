import Mathlib
import PineForge.Timeframe.Clock

/-!
# Periods of trading dates

Weeks start on Mondays and months on the first. The first day of a period is the last start at or
before a date (`firstOf_sessionPeriodFirstDay`), and the next period's is the first start after it
(`nextOf_sessionPeriodNextFirstDay`): what the session days of a period are follows from these two
alone.
-/

namespace PineForge.Timeframe

open Calendar SymbolClock

/-- A period starts on a trading date. -/
def StartsOn : CalendarPeriod → ℤ → Prop
  | .week, day => wdayOf day = 1
  | .month, day => (nativeCivilDate day).day = 1
  | _, _ => True

instance : (period : CalendarPeriod) → (day : ℤ) → Decidable (StartsOn period day)
  | .week, day => inferInstanceAs (Decidable (wdayOf day = 1))
  | .month, day => inferInstanceAs (Decidable ((nativeCivilDate day).day = 1))
  | .day, _ => inferInstanceAs (Decidable True)
  | .none, _ => inferInstanceAs (Decidable True)

/-- The last start at or before a date. -/
structure FirstOf (period : CalendarPeriod) (day first : ℤ) : Prop where
  starts : StartsOn period first
  le : first ≤ day
  alone : ∀ g, first < g → g ≤ day → ¬ StartsOn period g

/-- The first start after a date. -/
structure NextOf (period : CalendarPeriod) (day next : ℤ) : Prop where
  starts : StartsOn period next
  lt : day < next
  alone : ∀ g, day < g → g < next → ¬ StartsOn period g

section

variable {period : CalendarPeriod} {a b f g : ℤ}

theorem FirstOf.max (h : FirstOf period a f) (hg : StartsOn period g) (hle : g ≤ a) : g ≤ f := by
  by_contra hlt
  exact h.alone g (not_le.mp hlt) hle hg

theorem FirstOf.unique (h : FirstOf period a f) (h' : FirstOf period a g) : f = g :=
  le_antisymm (h'.max h.starts h.le) (h.max h'.starts h'.le)

theorem FirstOf.mono (h : FirstOf period a f) (h' : FirstOf period b g) (hab : a ≤ b) : f ≤ g :=
  h'.max h.starts (h.le.trans hab)

theorem FirstOf.self (h : StartsOn period a) : FirstOf period a a :=
  ⟨h, le_rfl, fun _ hlt hle => absurd hlt (not_lt.mpr hle)⟩

theorem NextOf.min (h : NextOf period a f) (hg : StartsOn period g) (hlt : a < g) : f ≤ g := by
  by_contra hgt
  exact h.alone g hlt (not_le.mp hgt) hg

theorem NextOf.unique (h : NextOf period a f) (h' : NextOf period a g) : f = g :=
  le_antisymm (h.min h'.starts h'.lt) (h'.min h.starts h.lt)

end

/-! ## Months -/

theorem civilDate_month_bounds (days : ℤ) :
    1 ≤ (nativeCivilDate days).month ∧ (nativeCivilDate days).month ≤ 12 := by
  obtain ⟨era, c, q, k, doy, hday⟩ := exists_era days
  rw [nativeCivilDate_yearDay hday]
  have hdoy := hday.day
  unfold dateOf
  dsimp only
  split <;> omega

theorem monthFirst_monthIndex (days : ℤ) :
    monthFirst (monthIndex (nativeCivilDate days))
      = ⟨(nativeCivilDate days).year, (nativeCivilDate days).month, 1⟩ := by
  have hmonth := civilDate_month_bounds days
  unfold monthFirst monthIndex
  rw [floorDiv_eq _ (by decide), CivilDate.mk.injEq]
  exact ⟨by omega, by omega, rfl⟩

theorem sub_day_eq (days : ℤ) :
    days - ((nativeCivilDate days).day - 1)
      = nativeCivilDays (monthFirst (monthIndex (nativeCivilDate days))) := by
  have hdays := civilDays_civilDate days
  rw [monthFirst_monthIndex]
  obtain ⟨date, hdate⟩ : ∃ date, date = nativeCivilDate days := ⟨_, rfl⟩
  rw [← hdate] at hdays ⊢
  rw [← hdays]
  unfold nativeCivilDays
  dsimp only
  ring

theorem day_eq_one_iff (days : ℤ) :
    (nativeCivilDate days).day = 1 ↔ ∃ index, days = nativeCivilDays (monthFirst index) := by
  constructor
  · intro h
    refine ⟨monthIndex (nativeCivilDate days), ?_⟩
    rw [← sub_day_eq, h]
    ring
  · rintro ⟨index, rfl⟩
    rw [civilDate_first]
    rfl

theorem firstOf_month (days : ℤ) :
    FirstOf .month days (days - ((nativeCivilDate days).day - 1)) := by
  have hmem := mem_month days
  rw [sub_day_eq]
  refine ⟨(day_eq_one_iff _).mpr ⟨_, rfl⟩, hmem.1, ?_⟩
  intro g hlt hle hg
  obtain ⟨index, rfl⟩ := (day_eq_one_iff g).mp hg
  have hlow := monthFirst_strictMono.lt_iff_lt.mp hlt
  have hhigh := monthFirst_strictMono.lt_iff_lt.mp (lt_of_le_of_lt hle hmem.2)
  omega

theorem nextOf_month (days : ℤ) :
    NextOf .month days (nativeCivilDays (monthFirst (monthIndex (nativeCivilDate days) + 1))) := by
  have hmem := mem_month days
  refine ⟨(day_eq_one_iff _).mpr ⟨_, rfl⟩, hmem.2, ?_⟩
  intro g hlt hle hg
  obtain ⟨index, rfl⟩ := (day_eq_one_iff g).mp hg
  have hlow := monthFirst_strictMono.lt_iff_lt.mp (lt_of_le_of_lt hmem.1 hlt)
  have hhigh := monthFirst_strictMono.lt_iff_lt.mp hle
  omega

theorem month_length (index : ℤ) :
    nativeCivilDays (monthFirst index) + 28 ≤ nativeCivilDays (monthFirst (index + 1)) := by
  rw [nativeCivilDays_monthFirst, nativeCivilDays_monthFirst]
  obtain ⟨year, hyear⟩ : ∃ year, year = (index - 2) / 12 := ⟨_, rfl⟩
  obtain ⟨mp, hmp⟩ : ∃ mp, mp = (index - 2) % 12 := ⟨_, rfl⟩
  rw [← hyear, ← hmp]
  by_cases hlast : mp = 11
  · have hnext : (index + 1 - 2) / 12 = year + 1 ∧ (index + 1 - 2) % 12 = 0 := by omega
    rw [hnext.1, hnext.2, hlast]
    have hfeb : monthStart 11 = 337 ∧ monthStart 0 = 0 := by decide
    have hyears : yearBase year + 365 ≤ yearBase (year + 1) := by
      unfold yearBase yearStart
      omega
    omega
  · have hnext : (index + 1 - 2) / 12 = year ∧ (index + 1 - 2) % 12 = mp + 1 := by omega
    rw [hnext.1, hnext.2]
    unfold monthStart
    omega

/-! ## Session days -/

variable (k : SymbolClock)

/-- The trading date of a session day. -/
def SymbolClock.tradingDate (d : ℤ) : ℤ := d + sessionTradingDateShiftDays k.session

theorem firstOf_sessionPeriodFirstDay (d : ℤ) (period : CalendarPeriod) :
    FirstOf period (k.tradingDate d) (k.tradingDate (k.sessionPeriodFirstDay d period)) := by
  unfold sessionPeriodFirstDay tradingDate
  cases period with
  | none => exact FirstOf.self trivial
  | day => exact FirstOf.self trivial
  | week =>
    dsimp only
    rw [sub_add_cancel]
    refine ⟨?_, ?_, ?_⟩
    · change wdayOf _ = 1
      unfold wdayOf
      omega
    · unfold wdayOf
      omega
    · intro g hlt hle hg
      change wdayOf g = 1 at hg
      unfold wdayOf at hlt hg
      omega
  | month =>
    dsimp only
    rw [sub_add_cancel]
    exact firstOf_month _

/-- A week or a month. -/
def CalendarPeriod.grouped (period : CalendarPeriod) : Prop := period = .week ∨ period = .month

end PineForge.Timeframe
