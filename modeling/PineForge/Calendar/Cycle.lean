import PineForge.Calendar.Session

/-!
# The cycles tile the timeline

In a zone without clock changes the session days of a calendar are translates of one another: day
number `z` has its origin at `originAt z`, its trading date `tradingShift` days later, and its spans
inside its cycle (`SessionDayOf`). The session day of an instant is the one of the cycle it lies in
(`sessionDayContaining_eq`), but before the origin of 0001-01-01, the first date there is, it is
that first day's.
-/

namespace PineForge.Calendar

/-! ## Dates in range -/

theorem dateOf_ranges {year doy : ℤ} (h : 0 ≤ doy ∧ doy ≤ 365) :
    1 ≤ (dateOf year doy).month ∧ (dateOf year doy).month ≤ 12 ∧ 1 ≤ (dateOf year doy).day ∧
      (dateOf year doy).day ≤ 31 := by
  simp only [dateOf, monthStart]
  refine ⟨?_, ?_, by omega, by omega⟩
  · split <;> omega
  · split <;> omega

/-- 0001-01-01. -/
def firstDay : ℤ := nativeCivilDays (monthFirst 12)

/-- 10000-01-01, past the last date there is. -/
def endDay : ℤ := nativeCivilDays (monthFirst 120000)

theorem year_eq_of_monthIndex (days : ℤ) :
    (nativeCivilDate days).year = monthIndex (nativeCivilDate days) / 12 := by
  obtain ⟨era, c, q, k, doy, hday⟩ := exists_era days
  have h := @dateOf_ranges (era * 400 + (100 * c + 4 * q + k)) doy hday.day
  rw [nativeCivilDate_yearDay hday]
  simp only [monthIndex]
  omega

theorem validCivilDate_civilDate (z : ℤ) :
    validCivilDate (nativeCivilDate z) = true ↔ firstDay ≤ z ∧ z < endDay := by
  have hranges : 1 ≤ (nativeCivilDate z).month ∧ (nativeCivilDate z).month ≤ 12 ∧
      1 ≤ (nativeCivilDate z).day ∧ (nativeCivilDate z).day ≤ 31 := by
    obtain ⟨era, c, q, k, doy, hday⟩ := exists_era z
    rw [nativeCivilDate_yearDay hday]
    exact dateOf_ranges hday.day
  have hyears : validCivilDate (nativeCivilDate z) = true ↔
      1 ≤ (nativeCivilDate z).year ∧ (nativeCivilDate z).year ≤ 9999 := by
    unfold validCivilDate
    split
    · rename_i h
      simp only [Bool.false_eq_true, false_iff]
      omega
    · rename_i h
      simp only [civilDays_civilDate, decide_true, true_iff]
      omega
  obtain ⟨hlow, hhigh⟩ := mem_month z
  have hmono := monthFirst_strictMono
  rw [hyears, year_eq_of_monthIndex]
  constructor
  · rintro ⟨h1, h2⟩
    constructor
    · exact le_trans (hmono.monotone (show (12 : ℤ) ≤ monthIndex (nativeCivilDate z) by omega)) hlow
    · exact lt_of_lt_of_le hhigh
        (hmono.monotone (show monthIndex (nativeCivilDate z) + 1 ≤ (120000 : ℤ) by omega))
  · rintro ⟨h1, h2⟩
    have h3 := hmono.lt_iff_lt.mp (lt_of_le_of_lt h1 hhigh)
    have h4 := hmono.lt_iff_lt.mp (lt_of_le_of_lt hlow h2)
    omega

/-! ## Civil arithmetic in day numbers -/

@[simp] theorem addDays_civilDate (z n : ℤ) :
    addDays (nativeCivilDate z) n = nativeCivilDate (z + n) := by
  rw [addDays, civilDays_civilDate]

@[simp] theorem civilMinutes_civilDate (z minutes : ℤ) :
    civilMinutes (nativeCivilDate z) minutes = z * 1440 + minutes := by
  rw [civilMinutes, civilDays_civilDate]

theorem resolveHms_civilDate (zone : Zone) (z : ℤ) {minutes : ℤ}
    (h : 0 ≤ minutes ∧ minutes < 1440) :
    resolveHms zone (nativeCivilDate z) minutes
      = if validCivilDate (nativeCivilDate z) then
          some (z * 86400000 + minutes * 60000 - zone.offsetMs) else none := by
  unfold resolveHms resolveStamp
  simp only [if_neg (show ¬ minutes ≥ 1440 by omega), if_neg (show ¬ minutes < 0 by omega)]
  have hclock : ¬ (minutes / 60 < 0 ∨ minutes / 60 > 23 ∨ minutes % 60 < 0 ∨ minutes % 60 > 59 ∨
      (0 : ℤ) < 0 ∨ (0 : ℤ) > 59) := by omega
  have hdays : nativeCivilDays ⟨(nativeCivilDate z).year, (nativeCivilDate z).month,
      (nativeCivilDate z).day⟩ = z := civilDays_civilDate z
  cases validCivilDate (nativeCivilDate z) with
  | false => simp
  | true =>
    simp only [hclock, utcCivilMs, hdays, if_true, if_false, Bool.true_eq_false,
      Option.some.injEq]
    omega

theorem resolveCivilMinutes_eq (zone : Zone) (cm : ℤ) :
    resolveCivilMinutes zone cm
      = if validCivilDate (nativeCivilDate (cm / 1440)) then
          some (cm * 60000 - zone.offsetMs) else none := by
  unfold resolveCivilMinutes
  simp only [floorDiv_eq cm (show (0 : ℤ) < 1440 by omega)]
  rw [resolveHms_civilDate zone _ (by omega)]
  congr 2
  omega

theorem localStamp_date (zone : Zone) (ms : ℤ) :
    (⟨(localStamp zone ms).year, (localStamp zone ms).month, (localStamp zone ms).day⟩ : CivilDate)
      = nativeCivilDate ((ms + zone.offsetMs) / 86400000) := by
  have hdays : floorDiv (ms + zone.offsetMs) 1000 / 86400 = (ms + zone.offsetMs) / 86400000 := by
    rw [floorDiv_eq _ (by omega)]
    omega
  simp only [localStamp, hdays]

/-! ## Spans -/

/-- A span of positive length inside `[lo, hi]`. -/
def EpochSpan.Within (lo hi : ℤ) (s : EpochSpan) : Prop :=
  lo ≤ s.startMs ∧ s.startMs < s.endMs ∧ s.endMs ≤ hi

/-- The span moved in time. -/
def EpochSpan.shift (d : ℤ) (s : EpochSpan) : EpochSpan := ⟨s.startMs + d, s.endMs + d⟩

theorem mergeSpan_within {lo hi : ℤ} {out : List EpochSpan} {span : EpochSpan}
    (hout : ∀ s ∈ out, s.Within lo hi) (hspan : span.Within lo hi) :
    ∀ s ∈ mergeSpan out span, s.Within lo hi := by
  intro s hs
  unfold mergeSpan at hs
  split at hs
  · rw [List.mem_singleton.mp hs]
    exact hspan
  · rename_i back rest
    have hback := hout back (by simp)
    split at hs
    · rcases List.mem_cons.mp hs with rfl | hs
      · exact hspan
      · exact hout s hs
    · split at hs
      · rcases List.mem_cons.mp hs with rfl | hs
        · unfold EpochSpan.Within at *
          simp only
          omega
        · exact hout s (List.mem_cons_of_mem _ hs)
      · exact hout s hs

theorem mergeSpans_within {lo hi : ℤ} {spans : List EpochSpan}
    (h : ∀ s ∈ spans, s.Within lo hi) : ∀ s ∈ mergeSpans spans, s.Within lo hi := by
  have hfold : ∀ (sorted out : List EpochSpan), (∀ s ∈ sorted, s.Within lo hi) →
      (∀ s ∈ out, s.Within lo hi) → ∀ s ∈ sorted.foldl mergeSpan out, s.Within lo hi := by
    intro sorted
    induction sorted with
    | nil => exact fun out _ hout => hout
    | cons span sorted ih =>
      intro out hsorted hout
      exact ih _ (fun s hs => hsorted s (List.mem_cons_of_mem _ hs))
        (mergeSpan_within hout (hsorted span List.mem_cons_self))
  intro s hs
  refine hfold _ [] (fun t ht => h t ?_) (by simp) s (List.mem_reverse.mp hs)
  exact (List.mem_insertionSort _).mp ht

theorem mergeSpan_ne_nil (out : List EpochSpan) (span : EpochSpan) : mergeSpan out span ≠ [] := by
  unfold mergeSpan
  split
  · simp
  · split
    · simp
    · split <;> simp

theorem mergeSpans_ne_nil {spans : List EpochSpan} (h : spans ≠ []) : mergeSpans spans ≠ [] := by
  have hfold : ∀ (sorted out : List EpochSpan), out ≠ [] → sorted.foldl mergeSpan out ≠ [] := by
    intro sorted
    induction sorted with
    | nil => exact fun out hout => hout
    | cons span sorted ih => exact fun out _ => ih _ (mergeSpan_ne_nil out span)
  unfold mergeSpans
  cases hsorted : spans.insertionSort fun a b => a.startMs ≤ b.startMs with
  | nil =>
    have hlength := congrArg List.length hsorted
    rw [List.length_insertionSort] at hlength
    exact absurd (List.length_eq_zero_iff.mp hlength) h
  | cons span sorted => simpa using hfold sorted _ (mergeSpan_ne_nil [] span)

theorem mergeSpan_shift (d : ℤ) (out : List EpochSpan) (span : EpochSpan) :
    mergeSpan (out.map (EpochSpan.shift d)) (span.shift d)
      = (mergeSpan out span).map (EpochSpan.shift d) := by
  cases out with
  | nil => rfl
  | cons back rest =>
    simp only [mergeSpan, List.map_cons, EpochSpan.shift]
    have hlt : back.endMs + d < span.startMs + d ↔ back.endMs < span.startMs := by omega
    have hgt : span.endMs + d > back.endMs + d ↔ span.endMs > back.endMs := by omega
    simp only [hlt, hgt]
    split
    · rfl
    · split <;> rfl

theorem mergeSpans_shift (d : ℤ) (spans : List EpochSpan) :
    mergeSpans (spans.map (EpochSpan.shift d)) = (mergeSpans spans).map (EpochSpan.shift d) := by
  have hfold : ∀ (sorted out : List EpochSpan),
      (sorted.map (EpochSpan.shift d)).foldl mergeSpan (out.map (EpochSpan.shift d))
        = (sorted.foldl mergeSpan out).map (EpochSpan.shift d) := by
    intro sorted
    induction sorted with
    | nil => exact fun _ => rfl
    | cons span sorted ih =>
      intro out
      rw [List.map_cons, List.foldl_cons, List.foldl_cons, mergeSpan_shift, ih]
  have hsort := List.map_insertionSort (r := fun a b : EpochSpan => a.startMs ≤ b.startMs)
    (s := fun a b : EpochSpan => a.startMs ≤ b.startMs) (EpochSpan.shift d) spans
    fun a _ b _ => by simp [EpochSpan.shift]
  unfold mergeSpans
  rw [List.map_reverse, ← hfold _ [], hsort]
  rfl

theorem foldl_laterEnd_mem (ends : List ℤ) (seen : ℤ × Bool) :
    (ends.foldl laterEnd seen).1 = seen.1 ∨ (ends.foldl laterEnd seen).1 ∈ ends := by
  induction ends generalizing seen with
  | nil => exact .inl rfl
  | cons b ends ih =>
    rw [List.foldl_cons]
    rcases ih (laterEnd seen b) with h | h
    · rw [h, laterEnd]
      split
      · exact .inr List.mem_cons_self
      · exact .inl rfl
    · exact .inr (List.mem_cons_of_mem _ h)

theorem latestEnd_mem (last : ℤ) (ends : List ℤ) :
    latestEnd last ends = last ∨ latestEnd last ends ∈ ends :=
  foldl_laterEnd_mem ends (last, false)

theorem latestEnd_mem_of_ne_nil (last : ℤ) {ends : List ℤ} (h : ends ≠ []) :
    latestEnd last ends ∈ ends := by
  cases ends with
  | nil => exact absurd rfl h
  | cons b ends =>
    rw [latestEnd, List.foldl_cons, laterEnd, if_pos (.inl rfl)]
    rcases foldl_laterEnd_mem ends (b, true) with h | h
    · rw [h]
      exact List.mem_cons_self
    · exact List.mem_cons_of_mem _ h

theorem le_latestEnd (last : ℤ) {ends : List ℤ} {b : ℤ} (h : b ∈ ends) :
    b ≤ latestEnd last ends := by
  have hfold : ∀ (ends : List ℤ) (seen : ℤ × Bool),
      (seen.2 = true → seen.1 ≤ (ends.foldl laterEnd seen).1) ∧
        ∀ b ∈ ends, b ≤ (ends.foldl laterEnd seen).1 := by
    intro ends
    induction ends with
    | nil => exact fun _ => ⟨fun _ => le_rfl, nofun⟩
    | cons c ends ih =>
      intro seen
      rw [List.foldl_cons]
      have hseen : (laterEnd seen c).2 = true ∧ c ≤ (laterEnd seen c).1 ∧
          (seen.2 = true → seen.1 ≤ (laterEnd seen c).1) := by
        unfold laterEnd
        split <;> rename_i hlater
        · exact ⟨rfl, le_rfl, fun hs => by simp [hs] at hlater; omega⟩
        · simp only [not_or, Bool.not_eq_false, not_lt] at hlater
          exact ⟨hlater.1, hlater.2, fun _ => le_rfl⟩
      obtain ⟨hkept, hle⟩ := ih (laterEnd seen c)
      refine ⟨fun hs => (hseen.2.2 hs).trans (hkept hseen.1), fun b hb => ?_⟩
      obtain rfl | hb := List.mem_cons.mp hb
      · exact hseen.2.1.trans (hkept hseen.1)
      · exact hle b hb
  exact (hfold ends (last, false)).2 b h

theorem latestEnd_shift (d last : ℤ) (ends : List ℤ) :
    latestEnd (last + d) (ends.map (· + d)) = latestEnd last ends + d := by
  have hfold : ∀ (ends : List ℤ) (seen : ℤ × Bool),
      ((ends.map (· + d)).foldl laterEnd (seen.1 + d, seen.2)).1
        = (ends.foldl laterEnd seen).1 + d := by
    intro ends
    induction ends with
    | nil => exact fun _ => rfl
    | cons b ends ih =>
      intro seen
      rw [List.map_cons, List.foldl_cons, List.foldl_cons, ← ih]
      congr 2
      have hgt : b + d > seen.1 + d ↔ b > seen.1 := by omega
      simp only [laterEnd, hgt]
      split <;> rfl
  exact hfold ends (last, false)

theorem lastSpanEnd_of_within {lo hi : ℤ} {spans : List EpochSpan}
    (h : ∀ s ∈ spans, s.Within lo hi) (origin : ℤ) :
    lastSpanEnd spans origin = latestEnd origin (spans.map (·.endMs)) := by
  rw [lastSpanEnd, List.filter_eq_self.mpr]
  intro s hs
  simpa using (h s hs).2.1

theorem lastSpanEnd_bounds {lo hi : ℤ} {spans : List EpochSpan}
    (h : ∀ s ∈ spans, s.Within lo hi) (hne : spans ≠ []) (origin : ℤ) :
    lo < lastSpanEnd spans origin ∧ lastSpanEnd spans origin ≤ hi := by
  rw [lastSpanEnd_of_within h]
  have hends : spans.map (·.endMs) ≠ [] := by simpa using hne
  obtain ⟨s, hs, heq⟩ := List.mem_map.mp (latestEnd_mem_of_ne_nil origin hends)
  have hwithin := h s hs
  unfold EpochSpan.Within at hwithin
  rw [← heq]
  omega

theorem lastSpanEnd_shift {lo hi : ℤ} {spans : List EpochSpan}
    (h : ∀ s ∈ spans, s.Within lo hi) (d origin : ℤ) :
    lastSpanEnd (spans.map (EpochSpan.shift d)) (origin + d) = lastSpanEnd spans origin + d := by
  have hshift : ∀ s ∈ spans.map (EpochSpan.shift d), s.Within (lo + d) (hi + d) := by
    intro s hs
    obtain ⟨t, ht, rfl⟩ := List.mem_map.mp hs
    have hwithin := h t ht
    unfold EpochSpan.Within at *
    simp only [EpochSpan.shift]
    omega
  rw [lastSpanEnd_of_within h, lastSpanEnd_of_within hshift, ← latestEnd_shift, List.map_map,
    List.map_map]
  rfl

/-! ## The coverage of a cycle -/

section

variable (cal : SessionCalendar)

theorem origin_range : 0 ≤ cal.originMinutes ∧ cal.originMinutes < 1440 := by
  cases hall : cal.allDay with
  | true =>
    have horigin := (cal.all_day hall).2
    omega
  | false =>
    obtain ⟨w, -, hw⟩ := Option.map_eq_some_iff.mp (cal.first_open hall)
    have hrange := w.start_range
    omega

/-- How long a window stays open. -/
def windowLength (w : SessionWindow) : ℤ :=
  if w.fullDay then 1440
  else if w.wraps then w.endMinutes + 1440 - w.startMinutes
  else w.endMinutes - w.startMinutes

theorem windowLength_pos (w : SessionWindow) : 0 < windowLength w := by
  have hstart := w.start_range
  have hend := w.end_range
  have hfull := w.fullDay_eq
  have hwraps := w.wraps_eq
  unfold windowLength
  cases hf : w.fullDay with
  | true => simp
  | false =>
    rw [hf] at hfull hwraps
    have hne : w.endMinutes ≠ 1440 → w.startMinutes ≠ w.endMinutes := by simpa using hfull.symm
    cases hw : w.wraps with
    | true =>
      simp only [if_true, Bool.false_eq_true, if_false]
      omega
    | false =>
      rw [hw] at hwraps
      have hge : w.startMinutes ≤ w.endMinutes := by simpa using hwraps.symm
      simp only [Bool.false_eq_true, if_false]
      omega

/-- A window's instance on day `z`. -/
theorem civilWindowInstance_civilDate (w : SessionWindow) (z : ℤ) :
    civilWindowInstance w (nativeCivilDate z)
      = some ⟨z * 1440 + w.startMinutes, z * 1440 + w.startMinutes + windowLength w⟩ := by
  have hpos := windowLength_pos w
  have hstop : (if w.fullDay then (z + 1) * 1440 + w.startMinutes
      else if w.wraps then (z + 1) * 1440 + w.endMinutes
      else if w.endMinutes = 1440 then (z + 1) * 1440 + 0
      else z * 1440 + w.endMinutes) = z * 1440 + w.startMinutes + windowLength w := by
    unfold windowLength
    split
    · omega
    · split
      · omega
      · split <;> omega
  simp only [civilWindowInstance, addDays_civilDate, civilMinutes_civilDate, hstop]
  rw [if_pos (by omega)]

/-- The part of a window's instance on day `z + n` that lies in the cycle of day `z`. -/
def clip (z n : ℤ) (w : SessionWindow) : Option EpochSpan :=
  let a := max ((z + n) * 1440 + w.startMinutes) (z * 1440 + cal.originMinutes)
  let b := min ((z + n) * 1440 + w.startMinutes + windowLength w)
    ((z + 1) * 1440 + cal.originMinutes)
  if b > a then some ⟨a, b⟩ else none

theorem civilCoverage_civilDate (z : ℤ) : civilCoverage cal (nativeCivilDate z)
    = if cal.allDay then [⟨z * 1440 + cal.originMinutes, (z + 1) * 1440 + cal.originMinutes⟩]
      else [-1, 0, 1].flatMap fun n => cal.windows.filterMap (clip cal z n) := by
  simp only [civilCoverage, addDays_civilDate, civilMinutes_civilDate]
  split
  · rfl
  · congr 1
    funext n
    congr 1
    funext w
    simp [civilWindowInstance_civilDate, clip]

theorem clip_within {z n : ℤ} {w : SessionWindow} {s : EpochSpan} (h : clip cal z n w = some s) :
    s.Within (z * 1440 + cal.originMinutes) ((z + 1) * 1440 + cal.originMinutes) := by
  unfold clip at h
  simp only at h
  split at h
  · cases h
    unfold EpochSpan.Within
    simp only
    omega
  · cases h

theorem civilCoverage_within (z : ℤ) : ∀ s ∈ civilCoverage cal (nativeCivilDate z),
    s.Within (z * 1440 + cal.originMinutes) ((z + 1) * 1440 + cal.originMinutes) := by
  intro s hs
  rw [civilCoverage_civilDate] at hs
  split at hs
  · rw [List.mem_singleton.mp hs]
    unfold EpochSpan.Within
    simp only
    omega
  · obtain ⟨n, -, hn⟩ := List.mem_flatMap.mp hs
    obtain ⟨w, -, hw⟩ := List.mem_filterMap.mp hn
    exact clip_within cal hw

theorem civilCoverage_ne_nil (z : ℤ) : civilCoverage cal (nativeCivilDate z) ≠ [] := by
  rw [civilCoverage_civilDate]
  cases hall : cal.allDay with
  | true => simp
  | false =>
    obtain ⟨w, hhead, hw⟩ := Option.map_eq_some_iff.mp (cal.first_open hall)
    have hclip : ∃ s, clip cal z 0 w = some s := by
      have hpos := windowLength_pos w
      unfold clip
      simp only
      rw [if_pos (by omega)]
      exact ⟨_, rfl⟩
    obtain ⟨s, hs⟩ := hclip
    refine List.ne_nil_of_mem (a := s) ?_
    simp only [Bool.false_eq_true, if_false]
    exact List.mem_flatMap.mpr ⟨0, by simp, List.mem_filterMap.mpr
      ⟨w, List.mem_of_head? hhead, hs⟩⟩

theorem clip_shift (z n : ℤ) (w : SessionWindow) :
    clip cal z n w = (clip cal 0 n w).map (EpochSpan.shift (z * 1440)) := by
  unfold clip
  simp only
  have hmax : max ((z + n) * 1440 + w.startMinutes) (z * 1440 + cal.originMinutes)
      = max ((0 + n) * 1440 + w.startMinutes) (0 * 1440 + cal.originMinutes) + z * 1440 := by omega
  have hmin : min ((z + n) * 1440 + w.startMinutes + windowLength w)
      ((z + 1) * 1440 + cal.originMinutes)
      = min ((0 + n) * 1440 + w.startMinutes + windowLength w)
        ((0 + 1) * 1440 + cal.originMinutes) + z * 1440 := by omega
  rw [hmax, hmin]
  split
  · rw [if_pos (by omega)]
    rfl
  · rw [if_neg (by omega)]
    rfl

theorem civilCoverage_shift (z : ℤ) : civilCoverage cal (nativeCivilDate z)
    = (civilCoverage cal (nativeCivilDate 0)).map (EpochSpan.shift (z * 1440)) := by
  rw [civilCoverage_civilDate, civilCoverage_civilDate]
  split
  · simp only [List.map_cons, List.map_nil, EpochSpan.shift, List.cons.injEq, and_true,
      EpochSpan.mk.injEq]
    omega
  · rw [List.map_flatMap]
    congr 1
    funext n
    rw [List.map_filterMap]
    congr 1
    funext w
    exact clip_shift cal z n w

/-! ## Session days -/

/-- The days from a session day's open date to its trading date. -/
def tradingShift : ℤ :=
  (lastSpanEnd (mergeSpans (civilCoverage cal (nativeCivilDate 0))) cal.originMinutes - 1) / 1440

theorem tradingShift_range : 0 ≤ tradingShift cal ∧ tradingShift cal ≤ 1 := by
  have horigin := origin_range cal
  have hwithin := mergeSpans_within (civilCoverage_within cal 0)
  have hbounds := lastSpanEnd_bounds hwithin (mergeSpans_ne_nil (civilCoverage_ne_nil cal 0))
    cal.originMinutes
  unfold tradingShift
  omega

theorem tradingDateOf_civilDate (z : ℤ) :
    tradingDateOf (nativeCivilDate z) (z * 1440 + cal.originMinutes)
        (mergeSpans (civilCoverage cal (nativeCivilDate z)))
      = nativeCivilDate (z + tradingShift cal) := by
  have hne := mergeSpans_ne_nil (civilCoverage_ne_nil cal z)
  have hwithin := mergeSpans_within (civilCoverage_within cal 0)
  unfold tradingDateOf
  rw [if_neg (by simpa using hne), floorDiv_eq _ (by omega), civilCoverage_shift, mergeSpans_shift,
    show z * 1440 + cal.originMinutes = cal.originMinutes + z * 1440 by omega,
    lastSpanEnd_shift hwithin]
  congr 1
  unfold tradingShift
  omega

/-- Where the cycle of day `z` starts. -/
def originAt (z : ℤ) : ℤ := z * 86400000 + cal.originMinutes * 60000 - cal.zone.offsetMs

theorem originAt_succ (z : ℤ) : originAt cal (z + 1) = originAt cal z + 86400000 := by
  unfold originAt
  omega

theorem originAt_strictMono : StrictMono (originAt cal) :=
  strictMono_int_of_lt_succ fun z => by
    rw [originAt_succ]
    omega

theorem originOn_civilDate (z : ℤ) : originOn cal (nativeCivilDate z)
    = if validCivilDate (nativeCivilDate z) then some (originAt cal z) else none :=
  resolveHms_civilDate cal.zone z (origin_range cal)

/-- What the session day of day number `z` is. -/
structure SessionDayOf (z : ℤ) (d : SessionDay) : Prop where
  dates : firstDay ≤ z ∧ z + 1 < endDay
  openDate : d.openDate = nativeCivilDate z
  tradingDate : d.tradingDate = nativeCivilDate (z + tradingShift cal)
  originMs : d.originMs = originAt cal z
  nextOriginMs : d.nextOriginMs = originAt cal (z + 1)
  spans : ∀ s ∈ d.spans, s.Within (originAt cal z) (originAt cal (z + 1))
  lastTraded : originAt cal z ≤ d.lastTradedMs ∧ d.lastTradedMs ≤ originAt cal (z + 1)

theorem resolveSpan_within {z : ℤ} {civ s : EpochSpan}
    (hciv : civ.Within (z * 1440 + cal.originMinutes) ((z + 1) * 1440 + cal.originMinutes))
    (h : resolveSpan cal.zone civ = some s) : s.Within (originAt cal z) (originAt cal (z + 1)) := by
  unfold resolveSpan at h
  rw [resolveCivilMinutes_eq, resolveCivilMinutes_eq] at h
  unfold EpochSpan.Within at hciv
  split at h
  · split at h
    · simp only [Option.bind_eq_bind, Option.bind_some] at h
      split at h
      · cases h
      · cases h
        unfold EpochSpan.Within originAt
        simp only
        omega
    · simp at h
  · simp at h

/-- A cycle opens on each date of the range. -/
theorem sessionDayFromOpen_civilDate (z : ℤ) :
    (firstDay ≤ z ∧ z + 1 < endDay ∧
      ∃ d, sessionDayFromOpen cal (nativeCivilDate z) = some d ∧ SessionDayOf cal z d) ∨
    (¬ (firstDay ≤ z ∧ z + 1 < endDay) ∧ sessionDayFromOpen cal (nativeCivilDate z) = none) := by
  have hsucc := originAt_succ cal z
  unfold sessionDayFromOpen
  simp only [civilMinutes_civilDate, addDays_civilDate, originOn_civilDate,
    tradingDateOf_civilDate]
  rw [if_neg (by omega)]
  cases hz : validCivilDate (nativeCivilDate z) with
  | false =>
    have hnot : ¬ (firstDay ≤ z ∧ z < endDay) := by
      rw [← validCivilDate_civilDate]
      simp [hz]
    exact .inr ⟨by omega, by simp⟩
  | true =>
    have hin := (validCivilDate_civilDate z).mp hz
    cases hz' : validCivilDate (nativeCivilDate (z + 1)) with
    | false =>
      have hnot : ¬ (firstDay ≤ z + 1 ∧ z + 1 < endDay) := by
        rw [← validCivilDate_civilDate]
        simp [hz']
      exact .inr ⟨by omega, by simp⟩
    | true =>
      have hin' := (validCivilDate_civilDate (z + 1)).mp hz'
      refine .inl ⟨hin.1, hin'.2, ?_⟩
      simp only [if_true, Option.bind_eq_bind, Option.bind_some]
      rw [if_neg (by omega)]
      have hresolved : ∀ s ∈ mergeSpans
          ((mergeSpans (civilCoverage cal (nativeCivilDate z))).filterMap (resolveSpan cal.zone)),
          s.Within (originAt cal z) (originAt cal (z + 1)) := by
        refine mergeSpans_within fun s hs => ?_
        obtain ⟨civ, hciv, hs⟩ := List.mem_filterMap.mp hs
        exact resolveSpan_within cal (mergeSpans_within (civilCoverage_within cal z) civ hciv) hs
      split
      · rename_i h
        have hne : mergeSpans ((mergeSpans (civilCoverage cal (nativeCivilDate z))).filterMap
            (resolveSpan cal.zone)) ≠ [] := by simpa using h.1
        have hlast := lastSpanEnd_bounds hresolved hne (originAt cal z)
        exact ⟨_, rfl, ⟨hin.1, hin'.2⟩, rfl, rfl, rfl, rfl, hresolved, le_of_lt hlast.1, hlast.2⟩
      · exact ⟨_, rfl, ⟨hin.1, hin'.2⟩, rfl, rfl, rfl, rfl, by simp, le_refl _, by simp only; omega⟩

theorem sessionDayOf_of_eq {z : ℤ} {d : SessionDay}
    (h : sessionDayFromOpen cal (nativeCivilDate z) = some d) : SessionDayOf cal z d := by
  rcases sessionDayFromOpen_civilDate cal z with ⟨-, -, d', hd', hday⟩ | ⟨-, hnone⟩
  · rw [hd'] at h
    cases h
    exact hday
  · rw [hnone] at h
    cases h

/-- The session day of a trading date is the one that opens `tradingShift` days before it. -/
theorem sessionDayWithTrading_civilDate (t : ℤ) :
    sessionDayWithTrading cal (nativeCivilDate t)
      = sessionDayFromOpen cal (nativeCivilDate (t - tradingShift cal)) := by
  have hfilter : ∀ off, (sessionDayFromOpen cal (addDays (nativeCivilDate t) off)).filter
      (fun d => decide (d.tradingDate = nativeCivilDate t))
      = if off = -tradingShift cal then sessionDayFromOpen cal (nativeCivilDate (t + off))
        else none := by
    intro off
    rw [addDays_civilDate]
    cases hopen : sessionDayFromOpen cal (nativeCivilDate (t + off)) with
    | none => simp
    | some d =>
      have hdate := (sessionDayOf_of_eq cal hopen).tradingDate
      have hiff : d.tradingDate = nativeCivilDate t ↔ off = -tradingShift cal := by
        rw [hdate, nativeCivilDate_injective.eq_iff]
        omega
      by_cases hoff : off = -tradingShift cal
      · simp [Option.filter, hiff, hoff]
      · simp [Option.filter, hiff, hoff]
  unfold sessionDayWithTrading
  simp only [hfilter, List.findSome?_cons, List.findSome?_nil]
  have hrange := tradingShift_range cal
  obtain hzero | hone : tradingShift cal = 0 ∨ tradingShift cal = 1 := by omega
  · rw [hzero]
    cases hopen : sessionDayFromOpen cal (nativeCivilDate t) <;> simp [hopen]
  · rw [hone, show t - 1 = t + -1 by omega]
    cases sessionDayFromOpen cal (nativeCivilDate (t + -1)) <;> simp

/-! ## The session day of an instant -/

/-- The cycle an instant lies in. -/
def cycleOf (ms : ℤ) : ℤ := (ms + cal.zone.offsetMs - cal.originMinutes * 60000) / 86400000

theorem cycleOf_eq_iff (ms z : ℤ) :
    cycleOf cal ms = z ↔ originAt cal z ≤ ms ∧ ms < originAt cal (z + 1) := by
  unfold cycleOf originAt
  omega

/-- The session day of an instant: its cycle's, and the first day's before there is any. -/
def dayNumber (ms : ℤ) : ℤ := max (cycleOf cal ms) firstDay

/-- A cycle found is that of the instant. -/
theorem sessionDayContaining_eq {ms : ℤ} {d : SessionDay}
    (h : sessionDayContaining cal ms = some d) :
    sessionDayFromOpen cal (nativeCivilDate (dayNumber cal ms)) = some d ∧
      firstDay - 1 ≤ cycleOf cal ms := by
  obtain ⟨z, hz⟩ : ∃ z, z = cycleOf cal ms := ⟨_, rfl⟩
  obtain ⟨l, hl⟩ : ∃ l, l = (ms + cal.zone.offsetMs) / 86400000 := ⟨_, rfl⟩
  have horigin := origin_range cal
  have hcycle := (cycleOf_eq_iff cal ms z).mp hz.symm
  have hlz : l = z ∨ l = z + 1 := by
    unfold cycleOf at hz
    omega
  have hfilter : ∀ y, (sessionDayFromOpen cal (nativeCivilDate y)).filter
      (fun d => decide (d.originMs ≤ ms ∧ ms < d.nextOriginMs))
      = if y = z then sessionDayFromOpen cal (nativeCivilDate y) else none := by
    intro y
    cases hopen : sessionDayFromOpen cal (nativeCivilDate y) with
    | none => simp
    | some d =>
      have hday := sessionDayOf_of_eq cal hopen
      have hiff : (d.originMs ≤ ms ∧ ms < d.nextOriginMs) ↔ y = z := by
        rw [hday.originMs, hday.nextOriginMs, ← cycleOf_eq_iff, hz]
        exact eq_comm
      by_cases hy : y = z
      · simp [Option.filter, hiff, hy]
      · simp [Option.filter, hiff, hy]
  unfold sessionDayContaining at h
  simp only [localStamp_date, addDays_civilDate, ← hl, List.findSome?_cons, List.findSome?_nil,
    hfilter] at h
  rw [dayNumber, ← hz]
  -- the day of the cycle, wherever it stands among the candidates
  rcases sessionDayFromOpen_civilDate cal z with ⟨hfirst, -, d', hd', -⟩ | ⟨hout, hnone⟩
  · have hd : d = d' := by
      rcases hlz with rfl | rfl
      · simpa [hd'] using h.symm
      · simpa [show z + 1 ≠ z by omega, show z + 1 + -1 = z by omega, hd'] using h.symm
    rw [max_eq_left hfirst, hd']
    exact ⟨by rw [hd], by omega⟩
  · -- no such day: the local date's own day stands in
    rcases hlz with rfl | rfl
    · simp [hnone, show l + -1 ≠ l by omega, show l + 1 ≠ l by omega] at h
    · have hd : sessionDayFromOpen cal (nativeCivilDate (z + 1)) = some d := by
        simpa [hnone, show z + 1 ≠ z by omega, show z + 1 + -1 = z by omega,
          show z + 1 + 1 ≠ z by omega] using h
      have hdates := (sessionDayOf_of_eq cal hd).dates
      rw [max_eq_right (by omega), show firstDay = z + 1 by omega]
      exact ⟨hd, by omega⟩

end

end PineForge.Calendar
