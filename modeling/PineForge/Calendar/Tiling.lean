import PineForge.Calendar.Cycle
import PineForge.Calendar.Interval

/-!
# Intervals tile time

`TilesAt` is the contract of an interval: it holds its instant, every instant it holds has this
interval and no other, the next one opens where it ends, and its trading lies inside it.

Periods of days, weeks and months keep it from the first session origin there is. A fixed bucket
keeps it when it ends inside its session cycle: the buckets are counted anew from each origin, while
the nominal end of the last one may lie beyond the next origin.
-/

namespace PineForge.Calendar

variable (cal : SessionCalendar)

/-! ## Periods in day numbers -/

/-- The trading day that opens period `k`. -/
def periodStart (unit : TimeframeUnit) (count k : ℤ) : ℤ :=
  match unit with
  | .week => weekZeroMondayDays + k * count * 7
  | .month => nativeCivilDays (monthFirst (k * count))
  | _ => k * count

/-- The period of a trading day. -/
def periodIndex (unit : TimeframeUnit) (count t : ℤ) : ℤ :=
  match unit with
  | .week => (t - weekZeroMondayDays) / 7 / count
  | .month => monthIndex (nativeCivilDate t) / count
  | _ => t / count

theorem weekIndex_civilDate (t : ℤ) :
    weekIndex (nativeCivilDate t) = (t - weekZeroMondayDays) / 7 := by
  have hsun : weekdaySun0 (nativeCivilDate t) = (t + 4) % 7 := by
    have hinner : (t + 4).tmod 7 = (t + 4) % 7 ∨ (t + 4).tmod 7 = (t + 4) % 7 - 7 := by
      rw [Int.tmod_eq_emod]
      split <;> simp
    unfold weekdaySun0
    rw [civilDays_civilDate, Int.tmod_eq_emod_of_nonneg (by omega)]
    omega
  unfold weekIndex
  rw [hsun, civilDays_civilDate, floorDiv_eq _ (by omega), Int.tmod_eq_emod_of_nonneg (by omega)]
  unfold weekZeroMondayDays
  omega

theorem periodStart_strictMono (unit : TimeframeUnit) {count : ℤ} (hcount : 1 ≤ count) :
    StrictMono (periodStart unit count) := by
  have hmul : StrictMono fun k : ℤ => k * count :=
    strictMono_int_of_lt_succ fun k => by rw [Int.add_mul]; omega
  intro a b hab
  have h : a * count < b * count := hmul hab
  cases unit with
  | month => exact monthFirst_strictMono h
  | _ => simp only [periodStart]; omega

theorem periodIndex_eq_iff (unit : TimeframeUnit) {count : ℤ} (hcount : 1 ≤ count) (t k : ℤ) :
    periodIndex unit count t = k ↔
      periodStart unit count k ≤ t ∧ t < periodStart unit count (k + 1) := by
  have hpos : 0 < count := by omega
  have hdiv : ∀ n : ℤ, n / count = k ↔ k * count ≤ n ∧ n < k * count + count := fun n =>
    Int.ediv_eq_iff_of_pos hpos
  have hsucc : (k + 1) * count = k * count + count := by rw [Int.add_mul, Int.one_mul]
  cases unit with
  | week =>
    simp only [periodIndex, periodStart, hsucc]
    rw [hdiv]
    unfold weekZeroMondayDays
    omega
  | month =>
    simp only [periodIndex, periodStart, hsucc]
    rw [hdiv]
    have hmono := monthFirst_strictMono
    obtain ⟨hlow, hhigh⟩ := mem_month t
    constructor
    · rintro ⟨h1, h2⟩
      exact ⟨le_trans (hmono.monotone h1) hlow,
        lt_of_lt_of_le hhigh (hmono.monotone (show _ + 1 ≤ k * count + count by omega))⟩
    · rintro ⟨h1, h2⟩
      have h3 := hmono.lt_iff_lt.mp (lt_of_le_of_lt h1 hhigh)
      have h4 := hmono.lt_iff_lt.mp (lt_of_le_of_lt hlow h2)
      omega
  | _ =>
    simp only [periodIndex, periodStart, hsucc]
    rw [hdiv]

theorem periodDates_civilDate {unit : TimeframeUnit} {count : ℤ} (hcount : 1 ≤ count) (t : ℤ)
    {dates : CivilDate × CivilDate} (h : periodDates unit count (nativeCivilDate t) = some dates) :
    dates = (nativeCivilDate (periodStart unit count (periodIndex unit count t)),
      nativeCivilDate (periodStart unit count (periodIndex unit count t + 1))) := by
  have hpos : 0 < count := by omega
  have hsucc : ∀ k : ℤ, (k + 1) * count = k * count + count := fun k => by
    rw [Int.add_mul, Int.one_mul]
  cases unit with
  | day =>
    simp only [periodDates, civilDays_civilDate, floorDiv_eq _ hpos] at h
    cases h
    simp only [periodStart, periodIndex, hsucc]
  | week =>
    simp only [periodDates, weekIndex_civilDate, floorDiv_eq _ hpos] at h
    cases h
    simp only [periodStart, periodIndex, hsucc]
  | month =>
    simp only [periodDates, floorDiv_eq _ hpos] at h
    cases h
    simp only [periodStart, periodIndex, hsucc, civilDate_first]
  | second => cases h
  | minute => cases h

/-! ## Periods of trading dates -/

/-- The period of the session day of an instant. -/
def periodOf (tf : Timeframe) (ms : ℤ) : ℤ :=
  periodIndex tf.unit tf.count (dayNumber cal ms + tradingShift cal)

/-- Where period `k` opens. -/
def periodOpen (tf : Timeframe) (k : ℤ) : ℤ :=
  originAt cal (periodStart tf.unit tf.count k - tradingShift cal)

theorem periodOpen_strictMono (tf : Timeframe) : StrictMono (periodOpen cal tf) := by
  intro a b hab
  have h := periodStart_strictMono tf.unit tf.count_pos hab
  exact originAt_strictMono cal (by omega)

theorem mem_ordinals {first next ord : ℤ} : ord ∈ ordinals first next ↔ first ≤ ord ∧
    ord < next := by
  unfold ordinals
  simp only [List.mem_map, List.mem_range]
  constructor
  · rintro ⟨n, hn, rfl⟩
    omega
  · intro h
    exact ⟨(ord - first).toNat, by omega, by omega⟩

theorem sessionDayOf_inside {tf : Timeframe} {k ord : ℤ} {d : SessionDay}
    (hord : ord ∈ ordinals (periodStart tf.unit tf.count k) (periodStart tf.unit tf.count (k + 1)))
    (h : sessionDayWithTrading cal (nativeCivilDate ord) = some d) :
    ∃ z, SessionDayOf cal z d ∧ periodOpen cal tf k ≤ originAt cal z ∧
      originAt cal (z + 1) ≤ periodOpen cal tf (k + 1) := by
  rw [sessionDayWithTrading_civilDate] at h
  obtain ⟨hlow, hhigh⟩ := mem_ordinals.mp hord
  have hmono := (originAt_strictMono cal).monotone
  exact ⟨_, sessionDayOf_of_eq cal h, hmono (by omega), hmono (by omega)⟩

theorem firstEligible_ge {tf : Timeframe} {k start : ℤ}
    (h : firstEligible cal (ordinals (periodStart tf.unit tf.count k)
      (periodStart tf.unit tf.count (k + 1))) = some start) : periodOpen cal tf k ≤ start := by
  obtain ⟨ord, hord, hstart⟩ := List.exists_of_findSome?_eq_some h
  obtain ⟨d, hd, hspan⟩ := Option.bind_eq_some_iff.mp hstart
  obtain ⟨s, hs, rfl⟩ := Option.map_eq_some_iff.mp hspan
  obtain ⟨z, hday, hlow, -⟩ := sessionDayOf_inside cal hord hd
  exact le_trans hlow (hday.spans s (List.mem_of_find?_eq_some hs)).1

theorem lastTraded_mem {tf : Timeframe} {k last : ℤ}
    (h : lastTraded cal (ordinals (periodStart tf.unit tf.count k)
      (periodStart tf.unit tf.count (k + 1))) = some last) :
    periodOpen cal tf k ≤ last ∧ last ≤ periodOpen cal tf (k + 1) := by
  obtain ⟨ord, hord, hlast⟩ := List.exists_of_findSome?_eq_some h
  obtain ⟨d, hd, hspan⟩ := Option.bind_eq_some_iff.mp hlast
  obtain ⟨z, hday, hlow, hhigh⟩ := sessionDayOf_inside cal (List.mem_reverse.mp hord) hd
  split at hspan
  · cases hspan
    exact ⟨le_trans hlow hday.lastTraded.1, le_trans hday.lastTraded.2 hhigh⟩
  · cases hspan

/-- What a period's core says. -/
structure CalendarSpec (tf : Timeframe) (ms : ℤ) (core : PeriodCore) : Prop where
  openMs : core.openMs = periodOpen cal tf (periodOf cal tf ms)
  next : core.nextPeriodOpenMs = periodOpen cal tf (periodOf cal tf ms + 1)
  eligible : core.openMs ≤ core.eligibleOpenMs
  lastTraded : core.openMs ≤ core.lastTradedCloseMs ∧ core.lastTradedCloseMs ≤ core.nextPeriodOpenMs
  dates : firstDay ≤ periodStart tf.unit tf.count (periodOf cal tf ms) - tradingShift cal
  key : periodKey cal tf ms = some (periodOf cal tf ms * tf.count)

/-- A period of days starts where its dates do. -/
theorem calendarCore_spec {tf : Timeframe} {ms : ℤ} {core : PeriodCore}
    (hfixed : tf.isFixed = false) (h : calendarCore cal tf.unit tf.count ms = some core) :
    CalendarSpec cal tf ms core := by
  obtain ⟨day, hday, h⟩ := Option.bind_eq_some_iff.mp h
  obtain ⟨dates, hdates, h⟩ := Option.bind_eq_some_iff.mp h
  obtain ⟨first, hfirst, h⟩ := Option.bind_eq_some_iff.mp h
  obtain ⟨next, hnext, h⟩ := Option.bind_eq_some_iff.mp h
  cases h
  have hof := sessionDayOf_of_eq cal (sessionDayContaining_eq cal hday).1
  rw [hof.tradingDate] at hdates
  have hpair := periodDates_civilDate tf.count_pos _ hdates
  subst hpair
  simp only [sessionDayWithTrading_civilDate] at hfirst hnext
  have hfirst' := sessionDayOf_of_eq cal hfirst
  have hnext' := sessionDayOf_of_eq cal hnext
  have hopen : first.originMs = periodOpen cal tf (periodOf cal tf ms) := hfirst'.originMs
  have hclose : next.originMs = periodOpen cal tf (periodOf cal tf ms + 1) := hnext'.originMs
  have hle : first.originMs ≤ next.originMs := by
    rw [hopen, hclose]
    exact (periodOpen_strictMono cal tf).monotone (by omega)
  refine ⟨hopen, hclose, ?_, ?_, hfirst'.dates.1, ?_⟩
  · simp only [civilDays_civilDate]
    cases heligible : firstEligible cal (ordinals
        (periodStart tf.unit tf.count
          (periodIndex tf.unit tf.count (dayNumber cal ms + tradingShift cal)))
        (periodStart tf.unit tf.count
          (periodIndex tf.unit tf.count (dayNumber cal ms + tradingShift cal) + 1))) with
    | none => exact le_refl _
    | some start =>
      rw [hopen]
      exact firstEligible_ge cal heligible
  · simp only [civilDays_civilDate]
    cases hlast : lastTraded cal (ordinals
        (periodStart tf.unit tf.count
          (periodIndex tf.unit tf.count (dayNumber cal ms + tradingShift cal)))
        (periodStart tf.unit tf.count
          (periodIndex tf.unit tf.count (dayNumber cal ms + tradingShift cal) + 1))) with
    | none => exact ⟨le_refl _, hle⟩
    | some last =>
      rw [hopen, hclose]
      exact lastTraded_mem cal hlast
  · have hpos : 0 < tf.count := by have := tf.count_pos; omega
    unfold periodKey sessionDayOrdinal sessionWeekOrdinal sessionMonthOrdinal periodOf periodIndex
    rw [hday]
    simp only [Option.map_some, hof.tradingDate, civilDays_civilDate, weekIndex_civilDate,
      floorDiv_eq _ hpos]
    unfold Timeframe.isFixed at hfixed
    cases hunit : tf.unit with
    | second => simp [hunit] at hfixed
    | minute => simp [hunit] at hfixed
    | _ => rfl

/-! ## Fixed buckets -/

/-- The length of a fixed bucket. -/
def bucketMs (tf : Timeframe) : ℤ := tf.count * unitMs tf.unit

/-- The bucket of an instant, counted from the origin of its session day. -/
def bucketIndex (tf : Timeframe) (ms : ℤ) : ℤ :=
  (ms - originAt cal (dayNumber cal ms)) / bucketMs tf

theorem bucketMs_pos {tf : Timeframe} (hfixed : tf.isFixed = true) : 0 < bucketMs tf := by
  have hcount := tf.count_pos
  unfold Timeframe.isFixed at hfixed
  unfold bucketMs
  cases hunit : tf.unit with
  | second =>
    simp only [unitMs]
    omega
  | minute =>
    simp only [unitMs]
    omega
  | _ => simp [hunit] at hfixed

theorem firstOverlapOpen_ge (openMs rawEnd : ℤ) (spans : List EpochSpan) :
    openMs ≤ firstOverlapOpen openMs rawEnd spans := by
  have hfold : ∀ (starts : List ℤ) (seen : ℤ × Bool), (∀ a ∈ starts, openMs ≤ a) →
      openMs ≤ seen.1 → openMs ≤ (starts.foldl earlierStart seen).1 := by
    intro starts
    induction starts with
    | nil => exact fun _ _ h => h
    | cons a starts ih =>
      intro seen hstarts hseen
      refine ih _ (fun b hb => hstarts b (List.mem_cons_of_mem _ hb)) ?_
      rw [earlierStart]
      split
      · exact hstarts a List.mem_cons_self
      · exact hseen
  refine hfold _ _ (fun a ha => ?_) (le_refl _)
  obtain ⟨s, hs, rfl⟩ := List.mem_map.mp ha
  obtain ⟨t, -, rfl⟩ := List.mem_map.mp (List.mem_filter.mp hs).1
  exact le_max_left _ _

theorem overlapEnd_mem {openMs rawEnd : ℤ} (h : openMs ≤ rawEnd) (spans : List EpochSpan) :
    openMs ≤ overlapEnd spans openMs rawEnd ∧ overlapEnd spans openMs rawEnd ≤ rawEnd := by
  rcases latestEnd_mem openMs ((overlaps spans openMs rawEnd).map (·.endMs)) with heq | hmem
  · rw [overlapEnd, heq]
    exact ⟨le_refl _, h⟩
  · obtain ⟨s, hs, heq⟩ := List.mem_map.mp hmem
    obtain ⟨hmap, hlt⟩ := List.mem_filter.mp hs
    obtain ⟨t, -, rfl⟩ := List.mem_map.mp hmap
    simp only [gt_iff_lt, decide_eq_true_eq] at hlt
    rw [overlapEnd, ← heq]
    simp only
    omega

/-- What a bucket's core says. -/
structure FixedSpec (tf : Timeframe) (ms : ℤ) (core : PeriodCore) : Prop where
  openMs : core.openMs = originAt cal (dayNumber cal ms) + bucketIndex cal tf ms * bucketMs tf
  next : core.nextPeriodOpenMs = core.openMs + bucketMs tf
  eligible : core.openMs ≤ core.eligibleOpenMs
  lastTraded : core.openMs ≤ core.lastTradedCloseMs ∧ core.lastTradedCloseMs ≤ core.nextPeriodOpenMs
  cycle : firstDay - 1 ≤ cycleOf cal ms

theorem mulOk_eq_some {a b c : ℤ} (h : mulOk a b = some c) : c = a * b := by
  unfold mulOk at h
  split at h
  · rename_i hzero
    cases h
    rcases hzero with rfl | rfl <;> simp
  · split at h
    · cases h
    · split at h
      · cases h
      · exact (Option.some.inj h).symm

theorem addOk_eq_some {a b c : ℤ} (h : addOk a b = some c) : c = a + b := by
  unfold addOk at h
  split at h
  · cases h
  · exact (Option.some.inj h).symm

theorem fixedCore_spec {tf : Timeframe} {ms : ℤ} {core : PeriodCore} (hfixed : tf.isFixed = true)
    (h : fixedCore cal tf ms = some core) : FixedSpec cal tf ms core := by
  have hpos := bucketMs_pos hfixed
  obtain ⟨bucket, hbucket, h⟩ := Option.bind_eq_some_iff.mp h
  have hmul : bucket = bucketMs tf := mulOk_eq_some hbucket
  subst hmul
  rw [if_neg (by omega)] at h
  obtain ⟨day, hday, h⟩ := Option.bind_eq_some_iff.mp h
  obtain ⟨offset, hoffset, h⟩ := Option.bind_eq_some_iff.mp h
  obtain ⟨openMs, hopen, h⟩ := Option.bind_eq_some_iff.mp h
  obtain ⟨rawEnd, hend, h⟩ := Option.bind_eq_some_iff.mp h
  cases h
  obtain ⟨hcontaining, hcycle⟩ := sessionDayContaining_eq cal hday
  have horigin := (sessionDayOf_of_eq cal hcontaining).originMs
  have hraw := addOk_eq_some hend
  have hle : openMs ≤ rawEnd := by omega
  refine ⟨?_, hraw, firstOverlapOpen_ge _ _ _, overlapEnd_mem hle _, hcycle⟩
  simp only
  rw [addOk_eq_some hopen, mulOk_eq_some hoffset, floorDiv_eq _ hpos, horigin]
  rfl

/-! ## Tiling -/

/-- The contract of the interval of an instant. -/
structure TilesAt (script input : Timeframe) (ms : ℤ) (iv : NativeInterval) : Prop where
  contains : iv.openMs ≤ ms ∧ ms < iv.nextPeriodOpenMs
  whole : ∀ x iv', iv.openMs ≤ x → x < iv.nextPeriodOpenMs →
    intervalContaining cal script input x = some iv' →
      iv'.openMs = iv.openMs ∧ iv'.nextPeriodOpenMs = iv.nextPeriodOpenMs
  next : ∀ iv', intervalContaining cal script input iv.nextPeriodOpenMs = some iv' →
    iv'.openMs = iv.nextPeriodOpenMs
  keys : script.isFixed = false → ∀ x iv', intervalContaining cal script input x = some iv' →
    (periodKey cal script x = periodKey cal script ms ↔ iv'.openMs = iv.openMs)
  eligible : iv.openMs ≤ iv.eligibleOpenMs
  lastTraded : iv.openMs ≤ iv.lastTradedCloseMs ∧ iv.lastTradedCloseMs ≤ iv.nextPeriodOpenMs

/-- Where the contract is kept: a period, from the first session origin there is; a bucket, when it
ends inside its session cycle (or lies before the first). -/
def Aligned (script : Timeframe) (ms : ℤ) : Prop :=
  if script.isFixed then
    ms < originAt cal firstDay ∨
      ((ms - originAt cal (cycleOf cal ms)) / bucketMs script + 1) * bucketMs script ≤ 86400000
  else originAt cal firstDay ≤ ms

theorem intervalContaining_core {script input : Timeframe} {ms : ℤ} {iv : NativeInterval}
    (h : intervalContaining cal script input ms = some iv) :
    coreContaining cal script ms = some ⟨iv.openMs, iv.eligibleOpenMs, iv.lastTradedCloseMs,
      iv.nextPeriodOpenMs⟩ := by
  obtain ⟨core, hcore, h⟩ := Option.bind_eq_some_iff.mp h
  obtain ⟨next, -, h⟩ := Option.bind_eq_some_iff.mp h
  cases h
  exact hcore

theorem lt_originAt_firstDay_iff (ms : ℤ) :
    ms < originAt cal firstDay ↔ cycleOf cal ms < firstDay := by
  unfold originAt cycleOf
  omega

section Periods

variable {cal} {script input : Timeframe} {ms : ℤ} {iv : NativeInterval}

theorem calendarSpec (hfixed : script.isFixed = false)
    (h : intervalContaining cal script input ms = some iv) :
    CalendarSpec cal script ms ⟨iv.openMs, iv.eligibleOpenMs, iv.lastTradedCloseMs,
      iv.nextPeriodOpenMs⟩ := by
  have hcore := intervalContaining_core cal h
  rw [coreContaining, if_neg (by simp [hfixed])] at hcore
  exact calendarCore_spec cal hfixed hcore

theorem periodOf_eq_iff (hms : firstDay ≤ cycleOf cal ms) (k : ℤ) :
    periodOf cal script ms = k ↔ periodOpen cal script k ≤ ms ∧
      ms < periodOpen cal script (k + 1) := by
  have hday : dayNumber cal ms = cycleOf cal ms := max_eq_left hms
  rw [periodOf, periodIndex_eq_iff _ script.count_pos, hday, periodOpen, periodOpen]
  unfold originAt cycleOf
  omega

/-- Periods of days tile. -/
theorem period_tiles (hfixed : script.isFixed = false)
    (h : intervalContaining cal script input ms = some iv) (halign : originAt cal firstDay ≤ ms) :
    TilesAt cal script input ms iv := by
  have hspec := calendarSpec hfixed h
  have hopen : iv.openMs = periodOpen cal script (periodOf cal script ms) := hspec.openMs
  have hnext : iv.nextPeriodOpenMs = periodOpen cal script (periodOf cal script ms + 1) :=
    hspec.next
  have hfirst : originAt cal firstDay ≤ iv.openMs := by
    rw [hopen]
    exact (originAt_strictMono cal).monotone hspec.dates
  have hcycle : ∀ x, iv.openMs ≤ x → firstDay ≤ cycleOf cal x := fun x hx => by
    have hlt := lt_originAt_firstDay_iff cal x
    omega
  have hms : firstDay ≤ cycleOf cal ms := by
    have hlt := lt_originAt_firstDay_iff cal ms
    omega
  have hbounds := (@periodOf_eq_iff cal script ms hms _).mp rfl
  rw [← hopen, ← hnext] at hbounds
  refine ⟨hbounds, ?_, ?_, ?_, hspec.eligible, hspec.lastTraded⟩
  · intro x iv' hlow hhigh hx
    have hspec' := calendarSpec hfixed hx
    have hsame : periodOf cal script x = periodOf cal script ms := by
      rw [periodOf_eq_iff (hcycle x hlow), ← hopen, ← hnext]
      exact ⟨hlow, hhigh⟩
    exact ⟨by rw [hopen, ← hsame]; exact hspec'.openMs, by rw [hnext, ← hsame]; exact hspec'.next⟩
  · intro iv' hx
    have hspec' := calendarSpec hfixed hx
    have hsucc : periodOf cal script iv.nextPeriodOpenMs = periodOf cal script ms + 1 := by
      rw [periodOf_eq_iff (hcycle _ (by omega)), ← hnext]
      refine ⟨le_refl _, ?_⟩
      rw [hnext]
      exact periodOpen_strictMono cal script (by omega)
    have hopen' : iv'.openMs = periodOpen cal script (periodOf cal script iv.nextPeriodOpenMs) :=
      hspec'.openMs
    rw [hopen', hsucc, hnext]
  · intro _ x iv' hx
    have hspec' := calendarSpec hfixed hx
    have hopen' : iv'.openMs = periodOpen cal script (periodOf cal script x) := hspec'.openMs
    have hcount : script.count ≠ 0 := by
      have hpos := script.count_pos
      omega
    rw [hspec.key, hspec'.key, hopen, hopen', (periodOpen_strictMono cal script).injective.eq_iff,
      Option.some.injEq]
    exact Int.mul_eq_mul_right_iff hcount

theorem period_tiles_only (hfixed : script.isFixed = false)
    (h : intervalContaining cal script input ms = some iv)
    (htiles : TilesAt cal script input ms iv) :
    originAt cal firstDay ≤ ms := by
  have hspec := calendarSpec hfixed h
  have hopen : iv.openMs = periodOpen cal script (periodOf cal script ms) := hspec.openMs
  have hfirst : originAt cal firstDay ≤ iv.openMs := by
    rw [hopen]
    exact (originAt_strictMono cal).monotone hspec.dates
  exact le_trans hfirst htiles.contains.1

end Periods

section Buckets

variable {cal} {script input : Timeframe} {ms : ℤ} {iv : NativeInterval}

theorem fixedSpec (hfixed : script.isFixed = true)
    (h : intervalContaining cal script input ms = some iv) :
    FixedSpec cal script ms ⟨iv.openMs, iv.eligibleOpenMs, iv.lastTradedCloseMs,
      iv.nextPeriodOpenMs⟩ := by
  have hcore := intervalContaining_core cal h
  rw [coreContaining, if_pos hfixed] at hcore
  exact fixedCore_spec cal hfixed hcore

theorem bucketIndex_eq_iff (hfixed : script.isFixed = true) (x k : ℤ) :
    bucketIndex cal script x = k ↔
      originAt cal (dayNumber cal x) + k * bucketMs script ≤ x ∧
        x < originAt cal (dayNumber cal x) + k * bucketMs script + bucketMs script := by
  rw [bucketIndex, Int.ediv_eq_iff_of_pos (bucketMs_pos hfixed)]
  omega

/-- Before the first day a bucket stays in its day. -/
theorem bucket_day_before (hfixed : script.isFixed = true) (hbefore : ms < originAt cal firstDay)
    {x : ℤ} (hhigh : x ≤ originAt cal (dayNumber cal ms)
      + bucketIndex cal script ms * bucketMs script + bucketMs script) :
    dayNumber cal x = dayNumber cal ms ∨ (x = originAt cal (dayNumber cal ms)
      + bucketIndex cal script ms * bucketMs script + bucketMs script ∧
        x = originAt cal (dayNumber cal x)) := by
  have hpos := bucketMs_pos hfixed
  have hbounds := (@bucketIndex_eq_iff cal script hfixed ms _).mp rfl
  have hcycle := (lt_originAt_firstDay_iff cal ms).mp hbefore
  have hz : dayNumber cal ms = firstDay := max_eq_right (by omega)
  rw [hz] at hbounds hhigh ⊢
  obtain ⟨k, hk⟩ : ∃ k, k = bucketIndex cal script ms := ⟨_, rfl⟩
  obtain ⟨w, hw⟩ : ∃ w, w = bucketMs script := ⟨_, rfl⟩
  rw [← hk, ← hw] at hbounds hhigh ⊢
  have hk0 : k < 0 := by
    by_contra hk0
    have hnonneg : 0 ≤ k * w := Int.mul_nonneg (by omega) (by omega)
    omega
  have hend : k * w + w ≤ 0 := by
    have hnonneg : 0 ≤ -(k + 1) * w := Int.mul_nonneg (by omega) (by omega)
    rw [Int.neg_mul, Int.add_mul, Int.one_mul] at hnonneg
    omega
  by_cases hx : x < originAt cal firstDay
  · have hcycle' := (lt_originAt_firstDay_iff cal x).mp hx
    exact .inl (max_eq_right (by omega))
  · have hcx : cycleOf cal x = firstDay := by
      rw [cycleOf_eq_iff, originAt_succ]
      omega
    refine .inr ⟨by omega, ?_⟩
    rw [dayNumber, hcx, max_self]
    omega

/-- A bucket inside its day stays there. -/
theorem bucket_day_inside (hfixed : script.isFixed = true) (hfirst : firstDay ≤ cycleOf cal ms)
    (hinside : (bucketIndex cal script ms + 1) * bucketMs script ≤ 86400000) {x : ℤ}
    (hlow : originAt cal (dayNumber cal ms) + bucketIndex cal script ms * bucketMs script ≤ x)
    (hhigh : x ≤ originAt cal (dayNumber cal ms)
      + bucketIndex cal script ms * bucketMs script + bucketMs script) :
    dayNumber cal x = dayNumber cal ms ∨ (x = originAt cal (dayNumber cal ms)
      + bucketIndex cal script ms * bucketMs script + bucketMs script ∧
        x = originAt cal (dayNumber cal x)) := by
  have hpos := bucketMs_pos hfixed
  have hz : dayNumber cal ms = cycleOf cal ms := max_eq_left hfirst
  have hcycle := (cycleOf_eq_iff cal ms _).mp rfl
  have hk0 : 0 ≤ bucketIndex cal script ms := by
    rw [bucketIndex, hz]
    exact Int.ediv_nonneg (by omega) (by omega)
  rw [hz] at hlow hhigh ⊢
  obtain ⟨z, hzc⟩ : ∃ z, z = cycleOf cal ms := ⟨_, rfl⟩
  obtain ⟨k, hk⟩ : ∃ k, k = bucketIndex cal script ms := ⟨_, rfl⟩
  obtain ⟨w, hw⟩ : ∃ w, w = bucketMs script := ⟨_, rfl⟩
  rw [← hzc, ← hk, ← hw] at hlow hhigh ⊢
  rw [← hk, ← hw, Int.add_mul, Int.one_mul] at hinside
  rw [← hzc] at hfirst
  have hkw : 0 ≤ k * w := Int.mul_nonneg (by omega) (by omega)
  have hsucc := originAt_succ cal z
  have hsucc' := originAt_succ cal (z + 1)
  by_cases hx : x < originAt cal (z + 1)
  · have hcx : cycleOf cal x = z := (cycleOf_eq_iff cal x z).mpr ⟨by omega, hx⟩
    refine .inl ?_
    rw [dayNumber, hcx]
    exact max_eq_left hfirst
  · have hcx : cycleOf cal x = z + 1 := (cycleOf_eq_iff cal x (z + 1)).mpr ⟨by omega, by omega⟩
    refine .inr ⟨by omega, ?_⟩
    rw [dayNumber, hcx, max_eq_left (by omega)]
    omega

/-- Buckets inside their days tile. -/
theorem bucket_tiles (hfixed : script.isFixed = true)
    (h : intervalContaining cal script input ms = some iv)
    (halign : ms < originAt cal firstDay ∨
      ((ms - originAt cal (cycleOf cal ms)) / bucketMs script + 1) * bucketMs script ≤ 86400000) :
    TilesAt cal script input ms iv := by
  have hspec := fixedSpec hfixed h
  have hpos := bucketMs_pos hfixed
  have hbounds := (@bucketIndex_eq_iff cal script hfixed ms _).mp rfl
  -- the bucket and its end are of one session day, or the end is the next day's origin
  have hday : ∀ x, originAt cal (dayNumber cal ms)
        + bucketIndex cal script ms * bucketMs script ≤ x →
      x ≤ originAt cal (dayNumber cal ms)
        + bucketIndex cal script ms * bucketMs script + bucketMs script →
      dayNumber cal x = dayNumber cal ms ∨ (x = originAt cal (dayNumber cal ms)
        + bucketIndex cal script ms * bucketMs script + bucketMs script ∧
          x = originAt cal (dayNumber cal x)) := by
    intro x hlow hhigh
    by_cases hbefore : ms < originAt cal firstDay
    · exact bucket_day_before hfixed hbefore hhigh
    · have hfirst : firstDay ≤ cycleOf cal ms := by
        have hlt := lt_originAt_firstDay_iff cal ms
        omega
      have hz : dayNumber cal ms = cycleOf cal ms := max_eq_left hfirst
      refine bucket_day_inside hfixed hfirst ?_ hlow hhigh
      rw [bucketIndex, hz]
      exact halign.resolve_left hbefore
  have hopen : iv.openMs
      = originAt cal (dayNumber cal ms) + bucketIndex cal script ms * bucketMs script :=
        hspec.openMs
  have hnext : iv.nextPeriodOpenMs = iv.openMs + bucketMs script := hspec.next
  rw [← hopen] at hbounds hday
  rw [← hnext] at hbounds hday
  refine ⟨hbounds, ?_, ?_, ?_, hspec.eligible, hspec.lastTraded⟩
  · intro x iv' hlow hhigh hx
    have hspec' := fixedSpec hfixed hx
    have hz' := (hday x hlow (by omega)).resolve_right (by omega)
    have hk' : bucketIndex cal script x = bucketIndex cal script ms := by
      rw [bucketIndex_eq_iff hfixed, hz', ← hopen]
      omega
    have hopen' : iv'.openMs = iv.openMs := by
      rw [hopen, ← hk', ← hz']
      exact hspec'.openMs
    have hnext' : iv'.nextPeriodOpenMs = iv'.openMs + bucketMs script := hspec'.next
    exact ⟨hopen', by omega⟩
  · intro iv' hx
    have hspec' := fixedSpec hfixed hx
    have hopen' : iv'.openMs = originAt cal (dayNumber cal iv.nextPeriodOpenMs)
        + bucketIndex cal script iv.nextPeriodOpenMs * bucketMs script := hspec'.openMs
    rcases hday iv.nextPeriodOpenMs (by omega) (le_refl _) with hz' | ⟨-, hz'⟩
    · have hk' : bucketIndex cal script iv.nextPeriodOpenMs = bucketIndex cal script ms + 1 := by
        rw [bucketIndex_eq_iff hfixed, hz', Int.add_mul, Int.one_mul]
        omega
      rw [hopen', hz', hk', Int.add_mul, Int.one_mul]
      omega
    · have hk' : bucketIndex cal script iv.nextPeriodOpenMs = 0 := by
        rw [bucketIndex_eq_iff hfixed, ← hz']
        omega
      rw [hopen', hk', ← hz']
      omega
  · intro hcalendar
    rw [hfixed] at hcalendar
    cases hcalendar

/-- A bucket that ends beyond its cycle holds the next origin, where another one opens. -/
theorem bucket_tiles_only (hfixed : script.isFixed = true)
    (h : intervalContaining cal script input ms = some iv)
    (hend : (intervalContaining cal script input (originAt cal (cycleOf cal ms + 1))).isSome)
    (htiles : TilesAt cal script input ms iv) :
    ms < originAt cal firstDay ∨
      ((ms - originAt cal (cycleOf cal ms)) / bucketMs script + 1) * bucketMs script
        ≤ 86400000 := by
  by_contra hnot
  rw [not_or] at hnot
  have hspec := fixedSpec hfixed h
  have hpos := bucketMs_pos hfixed
  have hfirst : firstDay ≤ cycleOf cal ms := by
    have hlt := lt_originAt_firstDay_iff cal ms
    omega
  have hz : dayNumber cal ms = cycleOf cal ms := max_eq_left hfirst
  have hcycle := (cycleOf_eq_iff cal ms _).mp rfl
  have hsucc := originAt_succ cal (cycleOf cal ms)
  have hsucc' := originAt_succ cal (cycleOf cal ms + 1)
  have hopen : iv.openMs
      = originAt cal (dayNumber cal ms) + bucketIndex cal script ms * bucketMs script :=
        hspec.openMs
  have hnext : iv.nextPeriodOpenMs = iv.openMs + bucketMs script := hspec.next
  have hbeyond : originAt cal (cycleOf cal ms + 1) < iv.nextPeriodOpenMs := by
    have hover := hnot.2
    rw [← hz, ← bucketIndex, Int.add_mul, Int.one_mul] at hover
    rw [hz] at hopen
    omega
  obtain ⟨iv', hiv'⟩ := Option.isSome_iff_exists.mp hend
  have hcontains := htiles.contains
  have hsame := (htiles.whole _ iv' (by omega) hbeyond hiv').1
  have hspec' := fixedSpec hfixed hiv'
  have hcx : cycleOf cal (originAt cal (cycleOf cal ms + 1)) = cycleOf cal ms + 1 :=
    (cycleOf_eq_iff cal _ _).mpr ⟨le_refl _, by omega⟩
  have hz' : dayNumber cal (originAt cal (cycleOf cal ms + 1)) = cycleOf cal ms + 1 := by
    rw [dayNumber, hcx]
    exact max_eq_left (by omega)
  have hopen' : iv'.openMs = originAt cal (cycleOf cal ms + 1) := by
    have hopen'' := hspec'.openMs
    simp only [bucketIndex, hz', Int.sub_self, Int.zero_ediv, Int.zero_mul, Int.add_zero] at hopen''
    exact hopen''
  omega

end Buckets

/-- The intervals tile time exactly where they are aligned. -/
theorem intervals_tile_iff_aligned (script input : Timeframe) (ms : ℤ) (iv : NativeInterval)
    (h : intervalContaining cal script input ms = some iv) :
    (Aligned cal script ms → TilesAt cal script input ms iv) ∧
      ((script.isFixed = true →
          (intervalContaining cal script input (originAt cal (cycleOf cal ms + 1))).isSome) →
        TilesAt cal script input ms iv → Aligned cal script ms) := by
  unfold Aligned
  cases hfixed : script.isFixed with
  | true =>
    simp only [if_true]
    exact ⟨bucket_tiles hfixed h, fun hend => bucket_tiles_only hfixed h (hend trivial)⟩
  | false =>
    simp only [Bool.false_eq_true, if_false]
    exact ⟨period_tiles hfixed h, fun _ => period_tiles_only hfixed h⟩

/-- The session `24x7` in UTC. -/
def utcAllDay : SessionCalendar where
  zone := .utc
  windows := []
  dayMask := 0xFE#8
  originMinutes := 0
  allDay := true
  mask_low := by decide
  mask_some := by decide
  all_day := allDay_shape
  first_open := allDay_first

/-- The session `0930-1600` in UTC. -/
def utcRegular : SessionCalendar where
  zone := .utc
  windows := [⟨570, 960, false, false, by decide, by decide, by decide, by decide⟩]
  dayMask := 0xFE#8
  originMinutes := 570
  allDay := false
  mask_low := by decide
  mask_some := by decide
  all_day := fun h => by cases h
  first_open := fun _ => rfl

/-- Seven hours. -/
def sevenHours : Timeframe := ⟨.minute, 420, by decide, by decide⟩

/-- One day. -/
def oneDay : Timeframe := ⟨.day, 1, by decide, by decide⟩

/-- Seven-hour buckets: the one that opens at 21:00 nominally ends at 04:00, inside the bucket that
opens at midnight. And on 0001-01-01, before its session opens, the day's interval lies ahead. -/
theorem seven_hour_buckets_overlap :
    (∃ iv iv', intervalContaining utcAllDay sevenHours sevenHours 75600000 = some iv ∧
      intervalContaining utcAllDay sevenHours sevenHours iv.nextPeriodOpenMs = some iv' ∧
      iv'.openMs ≠ iv.nextPeriodOpenMs ∧ ¬ TilesAt utcAllDay sevenHours sevenHours 75600000 iv) ∧
    ∃ iv, intervalContaining utcRegular oneDay oneDay (-62135596800000) = some iv ∧
      -62135596800000 < iv.openMs := by
  have hiv : intervalContaining utcAllDay sevenHours sevenHours 75600000
      = some ⟨75600000, 75600000, 86400000, 100800000, 86400000⟩ := by decide +kernel
  have hiv' : intervalContaining utcAllDay sevenHours sevenHours 100800000
      = some ⟨86400000, 86400000, 111600000, 111600000, 111600000⟩ := by decide +kernel
  refine ⟨⟨_, _, hiv, hiv', by decide, fun htiles => ?_⟩, ?_⟩
  · exact absurd (htiles.next _ hiv') (by decide)
  · exact ⟨⟨-62135562600000, -62135562600000, -62135539200000, -62135476200000, -62135476200000⟩,
      by decide +kernel, by decide⟩

/-- Noon of 1970-01-01 in its seven-hour bucket, which ends inside its day. -/
theorem intervals_tile_iff_aligned_noon :
    TilesAt utcAllDay sevenHours sevenHours 43200000 ⟨25200000, 25200000, 50400000, 50400000,
      50400000⟩ :=
  (intervals_tile_iff_aligned utcAllDay sevenHours sevenHours 43200000 _ (by decide +kernel)).1
    (by unfold Aligned; decide +kernel)

end PineForge.Calendar
