import Mathlib

/-!
# Civil dates

Days since 1970-01-01 and proleptic Gregorian dates, as `native_civil_date` and `native_civil_days`
compute them. Years are counted from March, and four hundred of them make an era of 146097 days.
`YearDay` is the meaning of the year formula: day `doe` of an era is day `doy` of its year `yoe`.

The date of a day number gives the day number back (`civilDays_civilDate`), the first of a month is
the date of its day number (`civilDate_first`), and the months cut the days into consecutive runs
(`monthIndex_eq_iff`). Between the day numbers and the valid dates the two maps are inverse, and
keep the order (`civil_exact`).
-/

namespace PineForge.Calendar

/-- The C++ quotient, which truncates, corrected to the floor. -/
def floorDiv (a b : ℤ) : ℤ :=
  if b = 0 then 0
  else if a.tmod b ≠ 0 ∧ a < 0 then a.tdiv b - 1 else a.tdiv b

theorem floorDiv_eq (a : ℤ) {b : ℤ} (hb : 0 < b) : floorDiv a b = a / b := by
  unfold floorDiv
  rw [if_neg (by omega), Int.tdiv_eq_ediv, Int.sign_eq_one_of_pos hb]
  by_cases hdvd : b ∣ a
  · simp [hdvd, Int.tmod_eq_zero_of_dvd hdvd]
  · have hmod : a.tmod b ≠ 0 := fun h => hdvd (Int.dvd_of_tmod_eq_zero h)
    by_cases ha : 0 ≤ a
    · simp [ha, not_lt.mpr ha]
    · simp [ha, hdvd, hmod, lt_of_not_ge ha]

/-- A civil date. -/
structure CivilDate where
  year : ℤ
  month : ℤ
  day : ℤ
deriving DecidableEq, Repr

/-- The civil date `days` days after 1970-01-01. -/
def nativeCivilDate (days : ℤ) : CivilDate :=
  let z := days + 719468
  let era := (if 0 ≤ z then z else z - 146096).tdiv 146097
  let doe := z - era * 146097
  let yoe := (doe - doe.tdiv 1460 + doe.tdiv 36524 - doe.tdiv 146096).tdiv 365
  let doy := doe - (365 * yoe + yoe.tdiv 4 - yoe.tdiv 100)
  let mp := (5 * doy + 2).tdiv 153
  let month := if mp < 10 then mp + 3 else mp - 9
  ⟨yoe + era * 400 + (if month ≤ 2 then 1 else 0), month, doy - (153 * mp + 2).tdiv 5 + 1⟩

/-- Its inverse; months and days out of range are not refused. -/
def nativeCivilDays (date : CivilDate) : ℤ :=
  let year := date.year - (if date.month ≤ 2 then 1 else 0)
  let era := (if 0 ≤ year then year else year - 399).tdiv 400
  let yoe := year - era * 400
  let doy := (153 * (date.month + (if date.month > 2 then -3 else 9)) + 2).tdiv 5 + date.day - 1
  let doe := yoe * 365 + yoe.tdiv 4 - yoe.tdiv 100 + doy
  era * 146097 + doe - 719468

/-! ## Eras -/

theorem tdiv_era_days (z : ℤ) : (if 0 ≤ z then z else z - 146096).tdiv 146097 = z / 146097 := by
  split
  · exact Int.tdiv_eq_ediv_of_nonneg ‹_›
  · rw [Int.tdiv_eq_ediv, Int.sign_eq_one_of_pos (by omega)]
    split <;> omega

theorem tdiv_era_years (y : ℤ) : (if 0 ≤ y then y else y - 399).tdiv 400 = y / 400 := by
  split
  · exact Int.tdiv_eq_ediv_of_nonneg ‹_›
  · rw [Int.tdiv_eq_ediv, Int.sign_eq_one_of_pos (by omega)]
    split <;> omega

/-- The first day of a year of an era. -/
def yearStart (yoe : ℤ) : ℤ := yoe * 365 + yoe / 4 - yoe / 100

/-- The year of an era that holds a day of it. -/
def yearOf (doe : ℤ) : ℤ := (doe - doe / 1460 + doe / 36524 - doe / 146096) / 365

/-- The first day of the year's month `mp`, counted from March. -/
def monthStart (mp : ℤ) : ℤ := (153 * mp + 2) / 5

/-- Day `doe` of an era is day `doy` of its year `100 * c + 4 * q + k`. Only the last year of four
may have a leap day, and the last of a hundred only at the end of the era. -/
structure YearDay (doe c q k doy : ℤ) : Prop where
  century : 0 ≤ c ∧ c ≤ 3
  four : 0 ≤ q ∧ q ≤ 24
  year : 0 ≤ k ∧ k ≤ 3
  day : 0 ≤ doy ∧ doy ≤ 365
  leap : doy = 365 → k = 3 ∧ (q = 24 → c = 3)
  sum : doe = 36524 * c + 1461 * q + 365 * k + doy

theorem YearDay.start {doe c q k doy : ℤ} (h : YearDay doe c q k doy) :
    yearStart (100 * c + 4 * q + k) = 36524 * c + 1461 * q + 365 * k := by
  obtain ⟨hc, hq, hk, -, -, -⟩ := h
  have hfour : (100 * c + 4 * q + k) / 4 = 25 * c + q := by omega
  have hcentury : (100 * c + 4 * q + k) / 100 = c := by omega
  rw [yearStart, hfour, hcentury]
  omega

theorem YearDay.yearOf_eq {doe c q k doy : ℤ} (h : YearDay doe c q k doy) :
    yearOf doe = 100 * c + 4 * q + k := by
  obtain ⟨hc, hq, hk, hdoy, hleap, hsum⟩ := h
  by_cases hlast : doe = 146096
  · subst hlast
    have : yearOf 146096 = 399 := by decide
    omega
  · have hera : doe / 146096 = 0 := by omega
    have hcentury : doe / 36524 = c := by omega
    -- the leap days before the day, one more where they have summed to a cycle of 1460
    have hlow : 25 * c + q ≤ doe / 1460 := by omega
    have hhigh : doe / 1460 ≤ 25 * c + q + 1 := by omega
    have hone : doe / 1460 = 25 * c + q + 1 → 1364 ≤ 365 * k + doy := by omega
    rw [yearOf, hera, hcentury]
    omega

theorem exists_yearDay {doe : ℤ} (h0 : 0 ≤ doe) (h1 : doe < 146097) :
    ∃ c q k doy, YearDay doe c q k doy := by
  by_cases hlast : doe = 146096
  · exact ⟨3, 24, 3, 365, by omega, by omega, by omega, by omega, by omega, by omega⟩
  · obtain ⟨c, hc⟩ : ∃ c, c = doe / 36524 := ⟨_, rfl⟩
    obtain ⟨q, hq⟩ : ∃ q, q = (doe - 36524 * c) / 1461 := ⟨_, rfl⟩
    obtain ⟨s, hs⟩ : ∃ s, s = doe - 36524 * c - 1461 * q := ⟨_, rfl⟩
    by_cases hleap : s = 1460
    · exact ⟨c, q, 3, 365, by omega, by omega, by omega, by omega, by omega, by omega⟩
    · exact ⟨c, q, s / 365, s % 365, by omega, by omega, by omega, by omega, by omega, by omega⟩

/-! ## Dates of an era -/

/-- Day `doy` of a year counted from March. -/
def dateOf (year doy : ℤ) : CivilDate :=
  let mp := (5 * doy + 2) / 153
  let month := if mp < 10 then mp + 3 else mp - 9
  ⟨year + (if month ≤ 2 then 1 else 0), month, doy - monthStart mp + 1⟩

theorem YearDay.bounds {doe c q k doy : ℤ} (h : YearDay doe c q k doy) :
    0 ≤ doe ∧ doe < 146097 := by
  obtain ⟨hc, hq, hk, hdoy, hleap, hsum⟩ := h
  omega

theorem nativeCivilDate_yearDay {days era c q k doy : ℤ}
    (h : YearDay (days + 719468 - era * 146097) c q k doy) :
    nativeCivilDate days = dateOf (era * 400 + (100 * c + 4 * q + k)) doy := by
  obtain ⟨doe, hdoe⟩ : ∃ doe, doe = days + 719468 - era * 146097 := ⟨_, rfl⟩
  rw [← hdoe] at h
  obtain ⟨h0, h1⟩ := h.bounds
  have hera : (days + 719468) / 146097 = era := by omega
  have hyear := h.yearOf_eq
  have hstart := h.start
  obtain ⟨hc, hq, hk, hdoy, -, hsum⟩ := h
  have hyoe : (doe - doe.tdiv 1460 + doe.tdiv 36524 - doe.tdiv 146096).tdiv 365
      = 100 * c + 4 * q + k := by
    simp only [Int.tdiv_eq_ediv_of_nonneg h0]
    rw [Int.tdiv_eq_ediv_of_nonneg (by omega)]
    exact hyear
  unfold nativeCivilDate
  simp only [tdiv_era_days, hera, ← hdoe, hyoe]
  have hyoe0 : 0 ≤ 100 * c + 4 * q + k := by omega
  have hdoy' : doe - (365 * (100 * c + 4 * q + k) + (100 * c + 4 * q + k).tdiv 4
      - (100 * c + 4 * q + k).tdiv 100) = doy := by
    simp only [Int.tdiv_eq_ediv_of_nonneg hyoe0]
    unfold yearStart at hstart
    omega
  rw [hdoy', Int.tdiv_eq_ediv_of_nonneg (by omega), Int.tdiv_eq_ediv_of_nonneg (by omega)]
  simp only [dateOf, monthStart, CivilDate.mk.injEq, and_true]
  omega

theorem exists_era (days : ℤ) :
    ∃ era c q k doy, YearDay (days + 719468 - era * 146097) c q k doy := by
  obtain ⟨c, q, k, doy, h⟩ := exists_yearDay
    (show 0 ≤ days + 719468 - (days + 719468) / 146097 * 146097 by omega) (by omega)
  exact ⟨_, c, q, k, doy, h⟩

theorem nativeCivilDays_dateOf {era doe c q k doy : ℤ} (h : YearDay doe c q k doy) :
    nativeCivilDays (dateOf (era * 400 + (100 * c + 4 * q + k)) doy)
      = era * 146097 + doe - 719468 := by
  have hstart := h.start
  obtain ⟨hc, hq, hk, hdoy, -, hsum⟩ := h
  unfold yearStart at hstart
  obtain ⟨mp, hmp⟩ : ∃ mp, mp = (5 * doy + 2) / 153 := ⟨_, rfl⟩
  obtain ⟨yoe, hyoe⟩ : ∃ yoe, yoe = 100 * c + 4 * q + k := ⟨_, rfl⟩
  have hmonth : (153 * ((if mp < 10 then mp + 3 else mp - 9)
      + (if (if mp < 10 then mp + 3 else mp - 9) > 2 then -3 else 9)) + 2) = 153 * mp + 2 := by
    split <;> split <;> omega
  have hyear : era * 400 + yoe + (if (if mp < 10 then mp + 3 else mp - 9) ≤ 2 then 1 else 0)
      - (if (if mp < 10 then mp + 3 else mp - 9) ≤ 2 then 1 else 0) = era * 400 + yoe := by omega
  have hera : (era * 400 + yoe) / 400 = era := by omega
  have hyoe' : era * 400 + yoe - era * 400 = yoe := by omega
  unfold nativeCivilDays
  simp only [dateOf, ← hmp, ← hyoe, hyear, tdiv_era_years, hera, hyoe', hmonth]
  rw [Int.tdiv_eq_ediv_of_nonneg (show 0 ≤ yoe by omega), Int.tdiv_eq_ediv_of_nonneg (by omega),
    Int.tdiv_eq_ediv_of_nonneg (by omega)]
  simp only [monthStart]
  omega

theorem civilDays_civilDate (days : ℤ) : nativeCivilDays (nativeCivilDate days) = days := by
  obtain ⟨era, c, q, k, doy, hday⟩ := exists_era days
  rw [nativeCivilDate_yearDay hday, nativeCivilDays_dateOf hday]
  omega

theorem nativeCivilDate_injective : Function.Injective nativeCivilDate := fun a b h => by
  rw [← civilDays_civilDate a, h, civilDays_civilDate b]

/-! ## Months -/

/-- The months since year 0. -/
def monthIndex (date : CivilDate) : ℤ := date.year * 12 + (date.month - 1)

/-- The first of a month, as the source writes it from its index. -/
def monthFirst (index : ℤ) : CivilDate :=
  ⟨floorDiv index 12, index - floorDiv index 12 * 12 + 1, 1⟩

/-- The first of March of a year counted from March. -/
def yearBase (year : ℤ) : ℤ := year / 400 * 146097 + yearStart (year % 400) - 719468

theorem monthIndex_dateOf {year doy : ℤ} (h : 0 ≤ doy ∧ doy ≤ 365) :
    monthIndex (dateOf year doy) = 12 * year + (5 * doy + 2) / 153 + 2 := by
  simp only [monthIndex, dateOf]
  split <;> split <;> omega

theorem nativeCivilDays_monthFirst (index : ℤ) :
    nativeCivilDays (monthFirst index)
      = yearBase ((index - 2) / 12) + monthStart ((index - 2) % 12) := by
  obtain ⟨year, hyear⟩ : ∃ year, year = (index - 2) / 12 := ⟨_, rfl⟩
  obtain ⟨mp, hmp⟩ : ∃ mp, mp = (index - 2) % 12 := ⟨_, rfl⟩
  rw [← hyear, ← hmp]
  have hsplit : index = 12 * year + mp + 2 := by omega
  simp only [nativeCivilDays, monthFirst, floorDiv_eq _ (show (0 : ℤ) < 12 by omega)]
  have hmonth : 153 * (index - index / 12 * 12 + 1
      + (if index - index / 12 * 12 + 1 > 2 then -3 else 9)) + 2 = 153 * mp + 2 := by
    split <;> omega
  have hmarch : index / 12 - (if index - index / 12 * 12 + 1 ≤ 2 then 1 else 0) = year := by
    split <;> omega
  rw [hmonth, hmarch, tdiv_era_years, Int.tdiv_eq_ediv_of_nonneg (by omega),
    Int.tdiv_eq_ediv_of_nonneg (by omega), Int.tdiv_eq_ediv_of_nonneg (by omega)]
  simp only [yearBase, yearStart, monthStart]
  omega

theorem yearDay_first (year : ℤ) {mp : ℤ} (h : 0 ≤ mp ∧ mp ≤ 11) :
    YearDay (yearBase year + monthStart mp + 719468 - year / 400 * 146097)
      (year % 400 / 100) (year % 100 / 4) (year % 4) (monthStart mp) := by
  have hstart : yearStart (year % 400)
      = 36524 * (year % 400 / 100) + 1461 * (year % 100 / 4) + 365 * (year % 4) := by
    unfold yearStart
    omega
  have hdoy : 0 ≤ monthStart mp ∧ monthStart mp ≤ 337 := by
    unfold monthStart
    omega
  refine ⟨by omega, by omega, by omega, by omega, by omega, ?_⟩
  rw [yearBase, hstart]
  omega

theorem civilDate_first (index : ℤ) :
    nativeCivilDate (nativeCivilDays (monthFirst index)) = monthFirst index := by
  have hmp : 0 ≤ (index - 2) % 12 ∧ (index - 2) % 12 ≤ 11 := by omega
  rw [nativeCivilDays_monthFirst, nativeCivilDate_yearDay (yearDay_first ((index - 2) / 12) hmp)]
  obtain ⟨year, hyear⟩ : ∃ year, year = (index - 2) / 12 := ⟨_, rfl⟩
  obtain ⟨mp, hmp'⟩ : ∃ mp, mp = (index - 2) % 12 := ⟨_, rfl⟩
  rw [← hyear, ← hmp']
  rw [← hmp'] at hmp
  have hback : (5 * monthStart mp + 2) / 153 = mp := by
    unfold monthStart
    omega
  have hsum : year / 400 * 400 + (100 * (year % 400 / 100) + 4 * (year % 100 / 4) + year % 4)
      = year := by omega
  have hsplit : index = 12 * year + mp + 2 := by omega
  simp only [dateOf, hback, hsum, monthFirst, floorDiv_eq _ (show (0 : ℤ) < 12 by omega)]
  rw [CivilDate.mk.injEq]
  refine ⟨?_, ?_, by omega⟩
  · split <;> split <;> omega
  · split <;> omega

theorem YearDay.lt_yearBase {era doe c q k doy : ℤ} (h : YearDay doe c q k doy) :
    era * 146097 + doe - 719468 < yearBase (era * 400 + (100 * c + 4 * q + k) + 1) := by
  obtain ⟨hc, hq, hk, hdoy, hleap, hsum⟩ := h
  unfold yearBase yearStart
  omega

theorem YearDay.yearBase_eq {era doe c q k doy : ℤ} (h : YearDay doe c q k doy) :
    yearBase (era * 400 + (100 * c + 4 * q + k)) = era * 146097 + doe - doy - 719468 := by
  have hstart := h.start
  obtain ⟨hc, hq, hk, hdoy, hleap, hsum⟩ := h
  have hyear : (era * 400 + (100 * c + 4 * q + k)) % 400 = 100 * c + 4 * q + k := by omega
  have hera : (era * 400 + (100 * c + 4 * q + k)) / 400 = era := by omega
  rw [yearBase, hyear, hera, hstart]
  omega

/-- A date is of its own month. -/
theorem mem_month (days : ℤ) :
    nativeCivilDays (monthFirst (monthIndex (nativeCivilDate days))) ≤ days ∧
      days < nativeCivilDays (monthFirst (monthIndex (nativeCivilDate days) + 1)) := by
  obtain ⟨era, c, q, k, doy, hday⟩ := exists_era days
  have hbase := @YearDay.yearBase_eq era _ c q k doy hday
  have hnext := @YearDay.lt_yearBase era _ c q k doy hday
  obtain ⟨year, hyear⟩ : ∃ year, year = era * 400 + (100 * c + 4 * q + k) := ⟨_, rfl⟩
  obtain ⟨mp, hmp⟩ : ∃ mp, mp = (5 * doy + 2) / 153 := ⟨_, rfl⟩
  have hdoy := hday.day
  rw [nativeCivilDate_yearDay hday, monthIndex_dateOf hdoy]
  rw [← hyear] at hbase hnext ⊢
  rw [← hmp]
  have hfirst : (12 * year + mp + 2 - 2) / 12 = year ∧ (12 * year + mp + 2 - 2) % 12 = mp := by
    omega
  rw [nativeCivilDays_monthFirst, nativeCivilDays_monthFirst, hfirst.1, hfirst.2]
  have hlow : monthStart mp ≤ doy := by
    unfold monthStart
    omega
  refine ⟨by omega, ?_⟩
  by_cases hlast : mp = 11
  · have hmarch : (12 * year + mp + 2 + 1 - 2) / 12 = year + 1 ∧
        (12 * year + mp + 2 + 1 - 2) % 12 = 0 := by omega
    have hzero : monthStart 0 = 0 := by decide
    rw [hmarch.1, hmarch.2, hzero]
    omega
  · have hsame : (12 * year + mp + 2 + 1 - 2) / 12 = year ∧
        (12 * year + mp + 2 + 1 - 2) % 12 = mp + 1 := by omega
    have hhigh : doy < monthStart (mp + 1) := by
      unfold monthStart
      omega
    rw [hsame.1, hsame.2]
    omega

theorem monthIndex_monthFirst (index : ℤ) : monthIndex (monthFirst index) = index := by
  simp only [monthIndex, monthFirst]
  omega

theorem monthFirst_strictMono : StrictMono fun index => nativeCivilDays (monthFirst index) := by
  refine strictMono_int_of_lt_succ fun index => ?_
  have h := (mem_month (nativeCivilDays (monthFirst index))).2
  rwa [civilDate_first, monthIndex_monthFirst] at h

theorem monthIndex_eq_iff (days index : ℤ) : monthIndex (nativeCivilDate days) = index ↔
    nativeCivilDays (monthFirst index) ≤ days ∧
      days < nativeCivilDays (monthFirst (index + 1)) := by
  constructor
  · rintro rfl
    exact mem_month days
  · rintro ⟨hlow, hhigh⟩
    obtain ⟨hlow', hhigh'⟩ := mem_month days
    have h1 := monthFirst_strictMono.lt_iff_lt.mp (lt_of_le_of_lt hlow hhigh')
    have h2 := monthFirst_strictMono.lt_iff_lt.mp (lt_of_le_of_lt hlow' hhigh)
    omega

/-! ## Valid dates -/

/-- A leap year of the proleptic Gregorian calendar. -/
def leapYear (year : ℤ) : Bool := year % 4 = 0 ∧ (year % 100 ≠ 0 ∨ year % 400 = 0)

/-- The days of a month. -/
def daysInMonth (year month : ℤ) : ℤ :=
  if month = 2 then if leapYear year then 29 else 28
  else if month = 4 ∨ month = 6 ∨ month = 9 ∨ month = 11 then 30 else 31

namespace CivilDate

/-- A date of the proleptic calendar. -/
structure Valid (date : CivilDate) : Prop where
  month : 1 ≤ date.month ∧ date.month ≤ 12
  day : 1 ≤ date.day ∧ date.day ≤ daysInMonth date.year date.month

/-- The order of the dates, by year, month and day. -/
def Before (a b : CivilDate) : Prop :=
  a.year < b.year ∨ a.year = b.year ∧ (a.month < b.month ∨ a.month = b.month ∧ a.day < b.day)

end CivilDate

variable {year month : ℤ}

theorem monthFirst_eq (hmonth : 1 ≤ month ∧ month ≤ 12) :
    monthFirst (year * 12 + (month - 1)) = ⟨year, month, 1⟩ := by
  unfold monthFirst
  rw [floorDiv_eq _ (show (0 : ℤ) < 12 by omega)]
  have hyear : (year * 12 + (month - 1)) / 12 = year := by omega
  rw [hyear, CivilDate.mk.injEq]
  exact ⟨rfl, by omega, rfl⟩

theorem nativeCivilDays_day (year month day : ℤ) :
    nativeCivilDays ⟨year, month, day⟩ = nativeCivilDays ⟨year, month, 1⟩ + (day - 1) := by
  unfold nativeCivilDays
  dsimp only
  omega

theorem monthStart_next (hmonth : 3 ≤ month ∧ month ≤ 11) :
    monthStart (month - 2) = monthStart (month - 3) + daysInMonth year month := by
  obtain ⟨hlow, hhigh⟩ := hmonth
  interval_cases month <;> rfl

/-- A month has its days. -/
theorem month_length (hmonth : 1 ≤ month ∧ month ≤ 12) :
    nativeCivilDays (monthFirst (year * 12 + (month - 1) + 1)) =
      nativeCivilDays (monthFirst (year * 12 + (month - 1))) + daysInMonth year month := by
  rw [nativeCivilDays_monthFirst, nativeCivilDays_monthFirst]
  by_cases hearly : month ≤ 2
  · obtain rfl | rfl : month = 1 ∨ month = 2 := by omega
    · have hthis : (year * 12 + (1 - 1) - 2) / 12 = year - 1 ∧ (year * 12 + (1 - 1) - 2) % 12
          = 10 := by omega
      have hnext : (year * 12 + (1 - 1) + 1 - 2) / 12 = year - 1 ∧
          (year * 12 + (1 - 1) + 1 - 2) % 12 = 11 := by omega
      rw [hthis.1, hthis.2, hnext.1, hnext.2]
      rw [show monthStart 11 = 337 by decide, show monthStart 10 = 306 by decide,
        show daysInMonth year 1 = 31 from rfl]
      omega
    · have hthis : (year * 12 + (2 - 1) - 2) / 12 = year - 1 ∧ (year * 12 + (2 - 1) - 2) % 12
          = 11 := by omega
      have hnext : (year * 12 + (2 - 1) + 1 - 2) / 12 = year ∧ (year * 12 + (2 - 1) + 1 - 2) % 12
          = 0 := by omega
      rw [hthis.1, hthis.2, hnext.1, hnext.2]
      rw [show monthStart 11 = 337 by decide, show monthStart 0 = 0 by decide,
        show daysInMonth year 2 = if leapYear year then 29 else 28 from rfl]
      unfold leapYear yearBase yearStart
      simp only [decide_eq_true_eq]
      split <;> omega
  · have hthis : (year * 12 + (month - 1) - 2) / 12 = year ∧ (year * 12 + (month - 1) - 2) % 12
        = month - 3 := by omega
    rw [hthis.1, hthis.2]
    by_cases hlast : month = 12
    · subst hlast
      have hnext : (year * 12 + (12 - 1) + 1 - 2) / 12 = year ∧ (year * 12 + (12 - 1) + 1 - 2) % 12
          = 10 := by omega
      rw [hnext.1, hnext.2, show monthStart 10 = 306 by decide, show monthStart (12 - 3)
        = 275 by decide,
        show daysInMonth year 12 = 31 from rfl]
      omega
    · have hnext : (year * 12 + (month - 1) + 1 - 2) / 12 = year ∧
          (year * 12 + (month - 1) + 1 - 2) % 12 = month - 2 := by omega
      rw [hnext.1, hnext.2, monthStart_next (by omega), add_assoc]

theorem valid_nativeCivilDate (days : ℤ) : (nativeCivilDate days).Valid := by
  have hmonth : 1 ≤ (nativeCivilDate days).month ∧ (nativeCivilDate days).month ≤ 12 := by
    obtain ⟨era, c, q, k, doy, hday⟩ := exists_era days
    have hdoy := hday.day
    rw [nativeCivilDate_yearDay hday]
    unfold dateOf
    dsimp only
    split <;> omega
  refine ⟨hmonth, ?_⟩
  obtain ⟨hlow, hhigh⟩ := mem_month days
  have hback := civilDays_civilDate days
  generalize nativeCivilDate days = date at hmonth hlow hhigh hback ⊢
  obtain ⟨year, month, day⟩ := date
  dsimp only [monthIndex] at hmonth hlow hhigh ⊢
  rw [month_length hmonth, monthFirst_eq hmonth] at hhigh
  rw [monthFirst_eq hmonth] at hlow
  rw [nativeCivilDays_day] at hback
  omega

theorem nativeCivilDate_nativeCivilDays {date : CivilDate} (h : date.Valid) :
    nativeCivilDate (nativeCivilDays date) = date := by
  obtain ⟨year, month, day⟩ := date
  obtain ⟨hmonth, hday⟩ := h
  dsimp only at hmonth hday
  have hindex : monthIndex (nativeCivilDate (nativeCivilDays ⟨year, month, day⟩))
      = year * 12 + (month - 1) := by
    rw [monthIndex_eq_iff, month_length hmonth, monthFirst_eq hmonth,
      nativeCivilDays_day year month day]
    omega
  have hvalid := valid_nativeCivilDate (nativeCivilDays ⟨year, month, day⟩)
  have hback := civilDays_civilDate (nativeCivilDays ⟨year, month, day⟩)
  generalize nativeCivilDate (nativeCivilDays ⟨year, month, day⟩) = date at hindex hvalid hback ⊢
  obtain ⟨year', month', day'⟩ := date
  obtain ⟨hmonth', -⟩ := hvalid
  dsimp only [monthIndex] at hindex hmonth'
  obtain ⟨rfl, rfl⟩ : year' = year ∧ month' = month := by omega
  rw [nativeCivilDays_day, nativeCivilDays_day year' month' day] at hback
  rw [CivilDate.mk.injEq]
  exact ⟨rfl, rfl, by omega⟩

theorem nativeCivilDays_lt {a b : CivilDate} (ha : a.Valid) (hb : b.Valid) (h : a.Before b) :
    nativeCivilDays a < nativeCivilDays b := by
  obtain ⟨year, month, day⟩ := a
  obtain ⟨year', month', day'⟩ := b
  obtain ⟨hmonth, hday⟩ := ha
  obtain ⟨hmonth', hday'⟩ := hb
  dsimp only [CivilDate.Before] at hmonth hday hmonth' hday' h
  rw [nativeCivilDays_day year month day, nativeCivilDays_day year' month' day']
  by_cases hsame : year = year' ∧ month = month'
  · obtain ⟨rfl, rfl⟩ := hsame
    omega
  · -- the month of the later date begins behind the last day of the other's
    have hlater : year * 12 + (month - 1) + 1 ≤ year' * 12 + (month' - 1) := by omega
    have hfirst := monthFirst_strictMono.monotone hlater
    rw [month_length hmonth, monthFirst_eq hmonth, monthFirst_eq hmonth'] at hfirst
    omega

theorem before_nativeCivilDate {a b : ℤ} (h : a < b) :
    (nativeCivilDate a).Before (nativeCivilDate b) := by
  by_contra hnot
  have hle : nativeCivilDays (nativeCivilDate b) ≤ nativeCivilDays (nativeCivilDate a) := by
    by_cases heq : nativeCivilDate b = nativeCivilDate a
    · rw [heq]
    · refine (nativeCivilDays_lt (valid_nativeCivilDate b) (valid_nativeCivilDate a) ?_).le
      unfold CivilDate.Before at hnot ⊢
      by_contra hnot'
      refine heq ?_
      generalize nativeCivilDate a = x at hnot hnot' ⊢
      generalize nativeCivilDate b = y at hnot hnot' ⊢
      obtain ⟨year, month, day⟩ := x
      obtain ⟨year', month', day'⟩ := y
      dsimp only at hnot hnot'
      rw [CivilDate.mk.injEq]
      omega
  rw [civilDays_civilDate, civilDays_civilDate] at hle
  omega

/-- Day numbers and valid dates are one order, under the two maps. -/
theorem civil_exact :
    (∀ days, (nativeCivilDate days).Valid ∧ nativeCivilDays (nativeCivilDate days) = days) ∧
      (∀ date : CivilDate, date.Valid → nativeCivilDate (nativeCivilDays date) = date) ∧
      (∀ a b, a < b → (nativeCivilDate a).Before (nativeCivilDate b)) ∧
      ∀ a b : CivilDate, a.Valid → b.Valid → a.Before b → nativeCivilDays a < nativeCivilDays b :=
  ⟨fun days => ⟨valid_nativeCivilDate days, civilDays_civilDate days⟩,
    fun _ => nativeCivilDate_nativeCivilDays,
    fun _ _ => before_nativeCivilDate, fun _ _ => nativeCivilDays_lt⟩

/-- A leap day and the day behind it. -/
theorem civil_exact_leapDay : nativeCivilDate (nativeCivilDays ⟨2000, 2, 29⟩) = ⟨2000, 2, 29⟩ ∧
    nativeCivilDays ⟨2000, 2, 29⟩ < nativeCivilDays ⟨2000, 3, 1⟩ := by
  have hleap : (⟨2000, 2, 29⟩ : CivilDate).Valid := ⟨by decide, by decide⟩
  have hmarch : (⟨2000, 3, 1⟩ : CivilDate).Valid := ⟨by decide, by decide⟩
  exact ⟨civil_exact.2.1 _ hleap,
    civil_exact.2.2.2 _ _ hleap hmarch (by unfold CivilDate.Before; decide)⟩

end PineForge.Calendar
