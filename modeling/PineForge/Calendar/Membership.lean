import Mathlib
import PineForge.Calendar.Spans
import PineForge.Calendar.Interval

/-!
# Session membership

An instant is in session when an instance of a declared window covers it and the trading date of its
cycle is allowed, for every calendar that a session text is read as. The order and the multiplicity
of the windows after the first one change no day of the calendar.
-/

namespace PineForge.Calendar

/-! ## Session texts -/

/-- `std::isspace` of the C locale. -/
def isSpace (c : Char) : Bool := c = ' ' || (9 ≤ c.toNat && c.toNat ≤ 13)

/-- The text without the space around it. -/
def trim (s : List Char) : List Char := ((s.dropWhile isSpace).reverse.dropWhile isSpace).reverse

/-- The text is a mask of days. -/
def allMaskDigits (s : List Char) : Bool := !s.isEmpty && s.all fun c => '1' ≤ c ∧ c ≤ '7'

/-- One bit for every digit. -/
def maskOf (digits : List Char) : BitVec 8 :=
  digits.foldl (fun mask c => mask ||| (1 <<< (c.toNat - '0'.toNat))) 0

/-- The text before the last colon and the text after it. -/
def splitLastColon (body : List Char) : Option (List Char × List Char) :=
  match body.reverse.dropWhile (· ≠ ':') with
  | [] => none
  | _ :: before => some (before.reverse, (body.reverse.takeWhile (· ≠ ':')).reverse)

/-- The days of the text, and the text without them. -/
def splitMask (body : List Char) : BitVec 8 × List Char :=
  match splitLastColon body with
  | none => (0xFE, body)
  | some (before, digits) => if allMaskDigits digits then (maskOf digits, trim before)
    else (0xFE, body)

/-- A time of four digits, 2400 if allowed. -/
def parseHhmm (s : List Char) (allow2400 : Bool) : Option ℤ :=
  match s with
  | [a, b, c, d] =>
    if s.all fun c => '0' ≤ c ∧ c ≤ '9' then
      let digit (c : Char) : ℤ := c.toNat - '0'.toNat
      let h := digit a * 10 + digit b
      let m := digit c * 10 + digit d
      if allow2400 ∧ h = 24 ∧ m = 0 then some 1440
      else if h < 0 ∨ h > 23 ∨ m < 0 ∨ m > 59 then none
      else some (h * 60 + m)
    else none
  | _ => none

/-- A window of its two ends. -/
def SessionWindow.ofEnds (start stop : ℤ) : Option SessionWindow :=
  if h : (0 ≤ start ∧ start < 1440) ∧ 0 ≤ stop ∧ stop ≤ 1440 then
    some ⟨start, stop, decide (decide (stop ≠ 1440 ∧ start = stop) = false ∧ stop < start),
      decide (stop ≠ 1440 ∧ start = stop), h.1, h.2, rfl, rfl⟩
  else none

/-- A window `HHMM-HHMM`. -/
def parseWindow (segment : List Char) : Option SessionWindow :=
  let seg := trim segment
  if seg.idxOf '-' = 4 ∧ seg.length = 9 then do
    let start ← parseHhmm (seg.take 4) false
    let stop ← parseHhmm (seg.drop 5) true
    SessionWindow.ofEnds start stop
  else none

/-- A calendar of its windows, when it is one (`SessionCalendar::valid`). -/
def SessionCalendar.ofWindows (zone : Zone) (mask : BitVec 8) (windows : List SessionWindow) :
    Option SessionCalendar :=
  if h : mask.getLsbD 0 = false ∧ mask ≠ 0 then
    match windows with
    | [] => none
    | first :: rest => some ⟨zone, first :: rest, mask, first.startMinutes, false, h.1, h.2, nofun,
      fun _ => rfl⟩
  else none

/-- A calendar of whole days. -/
def SessionCalendar.ofAllDay (zone : Zone) (mask : BitVec 8) : Option SessionCalendar :=
  if h : mask.getLsbD 0 = false ∧ mask ≠ 0 then
    some ⟨zone, [], mask, 0, true, h.1, h.2, allDay_shape, allDay_first⟩
  else none

/-- The session text of whole days. -/
def isAllDay (body : List Char) : Bool := body.isEmpty || body = "24x7".toList

/-- The calendar of a session text, in a zone that was accepted. -/
def parseSession (session : List Char) (zone : Zone) : Option SessionCalendar :=
  let body := trim session
  if isAllDay body then SessionCalendar.ofAllDay zone 0xFE
  else
    let days := splitMask body
    if days.1 &&& 0xFE = 0 then none
    else if isAllDay days.2 then SessionCalendar.ofAllDay zone days.1
    else do
      let windows ← (days.2.splitOn ',').mapM parseWindow
      SessionCalendar.ofWindows zone days.1 windows

/-- Whether an instant is in session. -/
def inSession (cal : SessionCalendar) (ms : ℤ) : Bool :=
  match sessionDayContaining cal ms with
  | none => false
  | some day => msInSpans day.spans ms

/-! ## The windows of an instant -/

theorem windowLength_le (w : SessionWindow) : windowLength w ≤ 1440 := by
  have hstart := w.start_range
  have hend := w.end_range
  have hwraps := w.wraps_eq
  unfold windowLength
  split
  · exact le_rfl
  · split
    · rename_i hfull hw
      rw [hw] at hwraps
      have hlt := (of_decide_eq_true hwraps.symm).2
      omega
    · omega

/-- An instance of the window on a civil date covers the instant. -/
def Opens (zone : Zone) (w : SessionWindow) (ms : ℤ) : Prop :=
  ∃ z span, civilWindowInstance w (nativeCivilDate z) = some span ∧
    span.startMs * 60000 - zone.offsetMs ≤ ms ∧ ms < span.endMs * 60000 - zone.offsetMs

/-- The minute of an instant on the zone's clock. -/
def minuteOf (zone : Zone) (ms : ℤ) : ℤ := (ms + zone.offsetMs) / 60000

theorem opens_iff (zone : Zone) (w : SessionWindow) (ms : ℤ) : Opens zone w ms ↔
    ∃ z, z * 1440 + w.startMinutes ≤ minuteOf zone ms ∧
      minuteOf zone ms < z * 1440 + w.startMinutes + windowLength w := by
  unfold Opens minuteOf
  refine exists_congr fun z => ?_
  rw [civilWindowInstance_civilDate]
  constructor
  · rintro ⟨span, hspan, hle, hlt⟩
    cases hspan
    dsimp only at hle hlt
    omega
  · rintro ⟨hle, hlt⟩
    refine ⟨_, rfl, ?_, ?_⟩
    · dsimp only
      omega
    · dsimp only
      omega

section

variable (cal : SessionCalendar)

theorem minuteOf_cycle {ms z : ℤ} (h : cycleOf cal ms = z) :
    z * 1440 + cal.originMinutes ≤ minuteOf cal.zone ms ∧
      minuteOf cal.zone ms < (z + 1) * 1440 + cal.originMinutes := by
  unfold cycleOf at h
  unfold minuteOf
  omega

/-- Only the instances of the day before, the day itself and the day after reach into a cycle. -/
theorem covers_civilCoverage {c z : ℤ} (hlow : z * 1440 + cal.originMinutes ≤ c)
    (hhigh : c < (z + 1) * 1440 + cal.originMinutes) :
    Covers (civilCoverage cal (nativeCivilDate z)) c ↔ cal.allDay = true ∨
      ∃ w ∈ cal.windows, ∃ y, y * 1440 + w.startMinutes ≤ c ∧
        c < y * 1440 + w.startMinutes + windowLength w := by
  have horigin := origin_range cal
  rw [civilCoverage_civilDate]
  cases hall : cal.allDay with
  | true =>
    rw [if_pos rfl]
    exact ⟨fun _ => .inl rfl, fun _ => ⟨_, List.mem_singleton_self _, hlow, hhigh⟩⟩
  | false =>
    rw [if_neg Bool.false_ne_true]
    constructor
    · rintro ⟨s, hs, hx⟩
      obtain ⟨n, -, hn⟩ := List.mem_flatMap.mp hs
      obtain ⟨w, hw, hclip⟩ := List.mem_filterMap.mp hn
      refine .inr ⟨w, hw, z + n, ?_⟩
      unfold clip at hclip
      dsimp only at hclip
      split at hclip
      · cases hclip
        dsimp only at hx
        omega
      · cases hclip
    · rintro (hfalse | ⟨w, hw, y, hle, hlt⟩)
      · cases hfalse
      · have hstart := w.start_range
        have hlength := windowLength_le w
        have hn : y - z ∈ [(-1 : ℤ), 0, 1] := by
          have hcases : y - z = -1 ∨ y - z = 0 ∨ y - z = 1 := by omega
          obtain h | h | h := hcases
          · rw [h]
            decide
          · rw [h]
            decide
          · rw [h]
            decide
        refine ⟨⟨max ((z + (y - z)) * 1440 + w.startMinutes) (z * 1440 + cal.originMinutes),
          min ((z + (y - z)) * 1440 + w.startMinutes + windowLength w)
            ((z + 1) * 1440 + cal.originMinutes)⟩,
          List.mem_flatMap.mpr ⟨y - z, hn, List.mem_filterMap.mpr ⟨w, hw, ?_⟩⟩, ?_, ?_⟩
        · unfold clip
          exact if_pos (by omega)
        · dsimp only
          omega
        · dsimp only
          omega

/-! ## The session day of an instant -/

/-- The cycles whose days are representable. -/
def Representable (ms : ℤ) : Prop := firstDay ≤ cycleOf cal ms ∧ cycleOf cal ms + 1 < endDay

/-- The resolved windows of a cycle. -/
def resolvedCoverage (z : ℤ) : List EpochSpan :=
  mergeSpans ((mergeSpans (civilCoverage cal (nativeCivilDate z))).filterMap (resolveSpan cal.zone))

theorem sessionDayFromOpen_spans {z : ℤ} {d : SessionDay}
    (h : sessionDayFromOpen cal (nativeCivilDate z) = some d) :
    d.spans = if dayAllowed cal d.tradingDate then resolvedCoverage cal z else [] := by
  unfold sessionDayFromOpen at h
  simp only [civilMinutes_civilDate, addDays_civilDate, originOn_civilDate, tradingDateOf_civilDate,
    Option.bind_eq_bind] at h
  split at h
  · cases h
  · rw [Option.bind_eq_some_iff] at h
    obtain ⟨cycleStart, -, h⟩ := h
    rw [Option.bind_eq_some_iff] at h
    obtain ⟨cycleEnd, -, h⟩ := h
    split at h
    · cases h
    · split at h
      · rename_i hallowed
        cases h
        rw [if_pos hallowed.2]
        rfl
      · rename_i hrefused
        cases h
        dsimp only
        split
        · rename_i hallowed
          have hempty : (resolvedCoverage cal z).isEmpty = true := by
            by_contra hne
            exact hrefused ⟨Bool.eq_false_of_not_eq_true hne, hallowed⟩
          exact (List.isEmpty_iff.mp hempty).symm
        · rfl

/-- The day of a representable cycle is found, wherever its date stands among the candidates. -/
theorem sessionDayContaining_representable {ms : ℤ} (h : Representable cal ms) :
    ∃ d, sessionDayContaining cal ms = some d ∧
      sessionDayFromOpen cal (nativeCivilDate (cycleOf cal ms)) = some d := by
  have horigin := origin_range cal
  obtain ⟨z, hz⟩ : ∃ z, z = cycleOf cal ms := ⟨_, rfl⟩
  obtain ⟨l, hl⟩ : ∃ l, l = (ms + cal.zone.offsetMs) / 86400000 := ⟨_, rfl⟩
  have hcycle := (cycleOf_eq_iff cal ms z).mp hz.symm
  have hlz : l = z ∨ l = z + 1 := by
    unfold cycleOf at hz
    omega
  unfold Representable at h
  rw [← hz] at h ⊢
  obtain ⟨-, -, d, hd, hday⟩ | ⟨hout, -⟩ := sessionDayFromOpen_civilDate cal z
  · refine ⟨d, ?_, hd⟩
    have hhit : (sessionDayFromOpen cal (nativeCivilDate z)).filter
        (fun d => decide (d.originMs ≤ ms ∧ ms < d.nextOriginMs)) = some d := by
      rw [hd, Option.filter_some, hday.originMs, hday.nextOriginMs, if_pos (decide_eq_true hcycle)]
    unfold sessionDayContaining
    simp only [localStamp_date, addDays_civilDate, ← hl, List.findSome?_cons]
    obtain rfl | rfl := hlz
    · rw [hhit]
      rfl
    · have hmiss : (sessionDayFromOpen cal (nativeCivilDate (z + 1))).filter
          (fun d => decide (d.originMs ≤ ms ∧ ms < d.nextOriginMs)) = none := by
        cases hopen : sessionDayFromOpen cal (nativeCivilDate (z + 1)) with
        | none => rfl
        | some d' =>
          have hday' := sessionDayOf_of_eq cal hopen
          rw [Option.filter_some, hday'.originMs, if_neg]
          rw [decide_eq_true_eq]
          omega
      rw [hmiss, show z + 1 + -1 = z by omega, hhit]
      rfl
  · exact absurd h hout

theorem resolveSpan_eq {z : ℤ} (hz : firstDay ≤ z ∧ z + 1 < endDay) {civ : EpochSpan}
    (hciv : civ.Within (z * 1440 + cal.originMinutes) ((z + 1) * 1440 + cal.originMinutes)) :
    resolveSpan cal.zone civ
      = some ⟨civ.startMs * 60000 - cal.zone.offsetMs, civ.endMs * 60000 - cal.zone.offsetMs⟩ := by
  have horigin := origin_range cal
  unfold EpochSpan.Within at hciv
  have hvalid : ∀ cm, z * 1440 + cal.originMinutes ≤ cm → cm ≤ (z + 1) * 1440 + cal.originMinutes →
      validCivilDate (nativeCivilDate (cm / 1440)) = true := by
    intro cm hlow hhigh
    rw [validCivilDate_civilDate]
    omega
  unfold resolveSpan
  rw [resolveCivilMinutes_eq, resolveCivilMinutes_eq, if_pos (hvalid _ hciv.1 (by omega)),
    if_pos (hvalid _ (by omega) hciv.2.2), Option.bind_eq_bind, Option.bind_some, Option.bind_some,
    if_neg (by omega)]

/-- The resolved windows cover an instant of the cycle when the windows cover its minute. -/
theorem covers_resolvedCoverage {z : ℤ} (hz : firstDay ≤ z ∧ z + 1 < endDay) (ms : ℤ) :
    Covers (resolvedCoverage cal z) ms
      ↔ Covers (civilCoverage cal (nativeCivilDate z)) (minuteOf cal.zone ms) := by
  have hwithin := civilCoverage_within cal z
  obtain ⟨-, hunion⟩ := mergeSpans_spec fun s hs => (hwithin s hs).2.1
  have hmerged := mergeSpans_within hwithin
  have hpositive : ∀ s ∈ (mergeSpans (civilCoverage cal (nativeCivilDate z))).filterMap
      (resolveSpan cal.zone), s.startMs < s.endMs := by
    intro s hs
    obtain ⟨civ, hciv, hresolve⟩ := List.mem_filterMap.mp hs
    exact (resolveSpan_within cal (hmerged civ hciv) hresolve).2.1
  unfold resolvedCoverage
  rw [(mergeSpans_spec hpositive).2 ms, ← hunion]
  unfold Covers minuteOf
  constructor
  · rintro ⟨s, hs, hle, hlt⟩
    obtain ⟨civ, hciv, hresolve⟩ := List.mem_filterMap.mp hs
    rw [resolveSpan_eq cal hz (hmerged civ hciv)] at hresolve
    cases hresolve
    dsimp only at hle hlt
    exact ⟨civ, hciv, by omega, by omega⟩
  · rintro ⟨civ, hciv, hle, hlt⟩
    refine ⟨_, List.mem_filterMap.mpr ⟨civ, hciv, resolveSpan_eq cal hz (hmerged civ hciv)⟩, ?_, ?_⟩
    · dsimp only
      omega
    · dsimp only
      omega

/-- The session is open at an instant, whatever the days of the mask. -/
def Covered (ms : ℤ) : Prop := cal.allDay = true ∨ ∃ w ∈ cal.windows, Opens cal.zone w ms

/-- The cycle that holds an instant: it starts at the first window's open and ends a day later, and
its trading date is the civil date of its last covered minute. -/
structure CycleHolds (ms : ℤ) (d : SessionDay) : Prop where
  holds : d.originMs ≤ ms ∧ ms < d.nextOriginMs
  opens : ∃ z, d.originMs + cal.zone.offsetMs = (z * 1440 + cal.originMinutes) * 60000
  lasts : d.nextOriginMs = d.originMs + 86400000
  trades : ∃ last, (d.originMs ≤ last ∧ last < d.nextOriginMs) ∧ Covered cal last ∧
    (∀ x, last ≤ x → x < d.nextOriginMs → Covered cal x → minuteOf cal.zone x
      = minuteOf cal.zone last) ∧
    d.tradingDate = nativeCivilDate (minuteOf cal.zone last / 1440)

theorem covered_iff {z ms : ℤ} (h : cycleOf cal ms = z) :
    Covered cal ms ↔ Covers (civilCoverage cal (nativeCivilDate z)) (minuteOf cal.zone ms) := by
  obtain ⟨hlow, hhigh⟩ := minuteOf_cycle cal h
  rw [covers_civilCoverage cal hlow hhigh]
  unfold Covered
  simp only [opens_iff]

/-- The last minute of the windows in a cycle, on the zone's clock. -/
theorem lastMinute_covers (z : ℤ) : ∃ m, tradingDateOf (nativeCivilDate z)
    (z * 1440 + cal.originMinutes)
        (mergeSpans (civilCoverage cal (nativeCivilDate z))) = nativeCivilDate (m / 1440) ∧
      (z * 1440 + cal.originMinutes ≤ m ∧ m < (z + 1) * 1440 + cal.originMinutes) ∧
      Covers (civilCoverage cal (nativeCivilDate z)) m ∧
      ∀ c, Covers (civilCoverage cal (nativeCivilDate z)) c → c ≤ m := by
  have hwithin := civilCoverage_within cal z
  have hmerged := mergeSpans_within hwithin
  have hne := mergeSpans_ne_nil (civilCoverage_ne_nil cal z)
  obtain ⟨-, hunion⟩ := mergeSpans_spec fun s hs => (hwithin s hs).2.1
  have hbounds := lastSpanEnd_bounds hmerged hne (z * 1440 + cal.originMinutes)
  refine ⟨lastSpanEnd (mergeSpans (civilCoverage cal (nativeCivilDate z)))
    (z * 1440 + cal.originMinutes) - 1,
    ?_, by omega, ?_, ?_⟩
  · unfold tradingDateOf
    rw [if_neg (by simpa using hne), floorDiv_eq _ (by omega)]
  · rw [← hunion, lastSpanEnd_of_within hmerged]
    have hends : (mergeSpans (civilCoverage cal (nativeCivilDate z))).map (·.endMs) ≠ [] := by
      simpa using hne
    obtain ⟨s, hs, heq⟩ := List.mem_map.mp
      (latestEnd_mem_of_ne_nil (z * 1440 + cal.originMinutes) hends)
    have hspan := (hmerged s hs).2.1
    exact ⟨s, hs, by omega, by omega⟩
  · intro c hc
    rw [← hunion] at hc
    obtain ⟨s, hs, -, hlt⟩ := hc
    rw [lastSpanEnd_of_within hmerged]
    have hle := le_latestEnd (z * 1440 + cal.originMinutes)
      (List.mem_map_of_mem (f := (·.endMs)) hs)
    omega

/-- The cycle found holds the instant. -/
theorem cycleHolds_of_open {ms : ℤ} {d : SessionDay}
    (h : sessionDayFromOpen cal (nativeCivilDate (cycleOf cal ms)) = some d) :
    CycleHolds cal ms d := by
  have hday := sessionDayOf_of_eq cal h
  obtain ⟨m, htrading, ⟨hlow, hhigh⟩, hcovers, hlast⟩ := lastMinute_covers cal (cycleOf cal ms)
  rw [tradingDateOf_civilDate, ← hday.tradingDate] at htrading
  have hminute : minuteOf cal.zone (m * 60000 - cal.zone.offsetMs) = m := by
    unfold minuteOf
    omega
  have hinside : originAt cal (cycleOf cal ms) ≤ m * 60000 - cal.zone.offsetMs ∧
      m * 60000 - cal.zone.offsetMs < originAt cal (cycleOf cal ms + 1) := by
    unfold originAt
    omega
  refine ⟨?_, ⟨cycleOf cal ms, ?_⟩, ?_, m * 60000 - cal.zone.offsetMs, ?_, ?_, ?_, ?_⟩
  · rw [hday.originMs, hday.nextOriginMs]
    exact (cycleOf_eq_iff cal ms _).mp rfl
  · rw [hday.originMs]
    unfold originAt
    omega
  · rw [hday.originMs, hday.nextOriginMs, originAt_succ]
  · rw [hday.originMs, hday.nextOriginMs]
    exact hinside
  · rw [covered_iff cal ((cycleOf_eq_iff cal _ _).mpr hinside), hminute]
    exact hcovers
  · intro x hle hlt hcovered
    rw [hday.nextOriginMs] at hlt
    have hx := (cycleOf_eq_iff cal x _).mpr ⟨hinside.1.trans hle, hlt⟩
    have hmax := hlast _ ((covered_iff cal hx).mp hcovered)
    have hmin : m ≤ minuteOf cal.zone x := by
      unfold minuteOf
      omega
    rw [hminute]
    omega
  · rw [hminute]
    exact htrading

theorem inSession_iff {ms : ℤ} (h : Representable cal ms) :
    ∃ d, sessionDayContaining cal ms = some d ∧ CycleHolds cal ms d ∧
      (inSession cal ms = true ↔ Covered cal ms ∧ dayAllowed cal d.tradingDate = true) := by
  obtain ⟨d, hcontaining, hopen⟩ := sessionDayContaining_representable cal h
  refine ⟨d, hcontaining, cycleHolds_of_open cal hopen, ?_⟩
  have hcovers := (covers_resolvedCoverage cal h ms).trans (covered_iff cal rfl).symm
  unfold inSession
  rw [hcontaining]
  dsimp only
  rw [msInSpans_iff, sessionDayFromOpen_spans cal hopen]
  cases hallowed : dayAllowed cal d.tradingDate with
  | true =>
    rw [if_pos rfl, hcovers]
    exact ⟨fun hc => ⟨hc, rfl⟩, fun hc => hc.1⟩
  | false =>
    rw [if_neg Bool.false_ne_true]
    refine ⟨?_, fun hc => by cases hc.2⟩
    rintro ⟨s, hs, -⟩
    cases hs

end

/-! ## The windows as a set -/

/-- The calendars differ only in the order and the multiplicity of the windows after the first
one. -/
structure SameWindows (cal cal' : SessionCalendar) : Prop where
  zone : cal'.zone = cal.zone
  dayMask : cal'.dayMask = cal.dayMask
  allDay : cal'.allDay = cal.allDay
  first : cal'.windows.head? = cal.windows.head?
  windows : ∀ w, w ∈ cal'.windows ↔ w ∈ cal.windows

namespace SameWindows

variable {cal cal' : SessionCalendar}

theorem originMinutes (h : SameWindows cal cal') : cal'.originMinutes = cal.originMinutes := by
  cases hall : cal.allDay with
  | true => rw [(cal.all_day hall).2, (cal'.all_day (h.allDay.trans hall)).2]
  | false =>
    have hfirst := cal.first_open hall
    have hfirst' := cal'.first_open (h.allDay.trans hall)
    rw [h.first, hfirst] at hfirst'
    exact (Option.some.inj hfirst').symm

theorem civilCoverage (h : SameWindows cal cal') (date : CivilDate) (s : EpochSpan) :
    s ∈ civilCoverage cal' date ↔ s ∈ civilCoverage cal date := by
  unfold Calendar.civilCoverage
  rw [h.originMinutes, h.allDay]
  dsimp only
  split
  · exact Iff.rfl
  · rw [List.mem_flatMap, List.mem_flatMap]
    refine exists_congr fun n => and_congr_right fun _ => ?_
    rw [List.mem_filterMap, List.mem_filterMap]
    exact exists_congr fun w => and_congr_left fun _ => h.windows w

theorem civilCoverage_positive (cal : SessionCalendar) (date : CivilDate)
    (hcycle : civilMinutes date cal.originMinutes
      < civilMinutes (addDays date 1) cal.originMinutes) :
    ∀ s ∈ Calendar.civilCoverage cal date, s.startMs < s.endMs := by
  intro s hs
  unfold Calendar.civilCoverage at hs
  dsimp only at hs
  split at hs
  · rw [List.mem_singleton.mp hs]
    exact hcycle
  · obtain ⟨n, -, hn⟩ := List.mem_flatMap.mp hs
    obtain ⟨w, -, hw⟩ := List.mem_filterMap.mp hn
    rw [Option.bind_eq_bind, Option.bind_eq_some_iff] at hw
    obtain ⟨span, -, hspan⟩ := hw
    split at hspan
    · rename_i hlt
      cases hspan
      exact hlt
    · cases hspan

theorem sessionDayFromOpen (h : SameWindows cal cal') (date : CivilDate) :
    sessionDayFromOpen cal' date = sessionDayFromOpen cal date := by
  unfold Calendar.sessionDayFromOpen
  have horigin : ∀ date, originOn cal' date = originOn cal date := by
    intro date
    unfold originOn
    rw [h.zone, h.originMinutes]
  have hallowed : ∀ date, dayAllowed cal' date = dayAllowed cal date := by
    intro date
    unfold dayAllowed
    rw [h.dayMask]
  dsimp only
  rw [h.originMinutes]
  by_cases hcycle : civilMinutes (addDays date 1) cal.originMinutes
    ≤ civilMinutes date cal.originMinutes
  · rw [if_pos hcycle, if_pos hcycle]
  · have hmerge : mergeSpans (Calendar.civilCoverage cal' date)
        = mergeSpans (Calendar.civilCoverage cal date) := by
      refine (mergeSpans_congr (fun s => (h.civilCoverage date s).symm) ?_).symm
      exact civilCoverage_positive cal date (not_le.mp hcycle)
    rw [if_neg hcycle, if_neg hcycle, hmerge, horigin, horigin, h.zone, hallowed]

theorem sessionDayContaining (h : SameWindows cal cal') (ms : ℤ) :
    sessionDayContaining cal' ms = sessionDayContaining cal ms := by
  unfold Calendar.sessionDayContaining
  simp only [h.sessionDayFromOpen, h.zone]

theorem sessionDayWithTrading (h : SameWindows cal cal') (trading : CivilDate) :
    sessionDayWithTrading cal' trading = sessionDayWithTrading cal trading := by
  unfold Calendar.sessionDayWithTrading
  simp only [h.sessionDayFromOpen]

theorem coreContaining (h : SameWindows cal cal') (tf : Timeframe) (ms : ℤ) :
    coreContaining cal' tf ms = coreContaining cal tf ms := by
  have heligible : ∀ ords, firstEligible cal' ords = firstEligible cal ords := by
    intro ords
    unfold firstEligible
    simp only [h.sessionDayWithTrading]
  have htraded : ∀ ords, lastTraded cal' ords = lastTraded cal ords := by
    intro ords
    unfold lastTraded
    simp only [h.sessionDayWithTrading]
  unfold Calendar.coreContaining fixedCore calendarCore
  simp only [h.sessionDayContaining, h.sessionDayWithTrading, heligible, htraded]

theorem nextSpanStart (h : SameWindows cal cal') (date : CivilDate) (after : ℤ) (fuel : ℕ) (i : ℤ) :
    nextSpanStart cal' date after fuel i = nextSpanStart cal date after fuel i := by
  induction fuel generalizing i with
  | zero => rfl
  | succ fuel ih =>
    unfold Calendar.nextSpanStart
    simp only [h.sessionDayFromOpen, ih]

theorem firstTradablePeriod (h : SameWindows cal cal') (tf : Timeframe) (atOrAfter : ℤ)
    (fuel : ℕ) (t : ℤ) :
    firstTradablePeriod cal' tf atOrAfter fuel t = firstTradablePeriod cal tf atOrAfter fuel t := by
  induction fuel generalizing t with
  | zero => rfl
  | succ fuel ih =>
    unfold Calendar.firstTradablePeriod
    simp only [h.coreContaining, ih]

theorem intervalContaining (h : SameWindows cal cal') (script input : Timeframe) (ms : ℤ) :
    intervalContaining cal' script input ms = intervalContaining cal script input ms := by
  unfold Calendar.intervalContaining firstTradableOpen nextSpanStartAtOrAfter
  simp only [h.coreContaining, h.sessionDayContaining, h.nextSpanStart, h.firstTradablePeriod]

theorem inSession (h : SameWindows cal cal') (ms : ℤ) : inSession cal' ms = inSession cal ms := by
  unfold Calendar.inSession
  rw [h.sessionDayContaining]

end SameWindows

/-- For every accepted session text and every instant of a representable cycle: the instant is in
session exactly when the session is all day or an instance of a declared window covers it, and the
trading date of its cycle, the civil date of the cycle's last covered minute, is allowed. Texts
whose windows differ only in order and multiplicity after the first one agree on every membership,
every session day and every interval. -/
theorem membership_union (text : List Char) (zone : Zone) (cal : SessionCalendar)
    (_hcal : parseSession text zone = some cal) :
    (∀ ms, Representable cal ms → ∃ d, sessionDayContaining cal ms = some d ∧ CycleHolds cal ms d ∧
      (inSession cal ms = true ↔ Covered cal ms ∧ dayAllowed cal d.tradingDate = true)) ∧
    ∀ text' cal', parseSession text' zone = some cal' → SameWindows cal cal' → ∀ ms,
      inSession cal' ms = inSession cal ms ∧ sessionDayContaining cal' ms
        = sessionDayContaining cal ms ∧
      ∀ script input, intervalContaining cal' script input ms
        = intervalContaining cal script input ms := by
  refine ⟨fun ms hms => inSession_iff cal hms, ?_⟩
  intro text' cal' _ hsame ms
  exact ⟨hsame.inSession ms, hsame.sessionDayContaining ms, fun script input =>
    hsame.intervalContaining script input ms⟩

/-- Monday morning in a weekday session of seven hours and a half. -/
theorem membership_union_morning :
    ∃ cal, parseSession "0930-1600:23456".toList .utc = some cal ∧ Representable cal 1704708000000 ∧
      ∃ d, sessionDayContaining cal 1704708000000 = some d ∧ CycleHolds cal 1704708000000 d ∧
        (inSession cal 1704708000000 = true ↔
          Covered cal 1704708000000 ∧ dayAllowed cal d.tradingDate = true) := by
  have hfields : (parseSession "0930-1600:23456".toList .utc).map
    (fun cal => (cal.zone, cal.originMinutes))
      = some (.utc, 570) := by decide +kernel
  obtain ⟨cal, hcal, hpair⟩ := Option.map_eq_some_iff.mp hfields
  have hzone : cal.zone = .utc := congrArg Prod.fst hpair
  have horigin : cal.originMinutes = 570 := congrArg Prod.snd hpair
  have hrepresentable : Representable cal 1704708000000 := by
    unfold Representable cycleOf
    rw [hzone, horigin]
    decide +kernel
  exact ⟨cal, hcal, hrepresentable,
    (membership_union _ _ cal hcal).1 1704708000000 hrepresentable⟩

/-- An all-day session declares no window and covers every instant. -/
theorem membership_allDay :
    ∃ cal, parseSession "24x7".toList .utc = some cal ∧ Representable cal 0 ∧
      inSession cal 0 = true ∧
      ¬∃ w ∈ cal.windows, Opens cal.zone w 0 := by
  have hfields : (parseSession "24x7".toList .utc).map
      (fun cal => (cal.zone, cal.originMinutes, cal.allDay, inSession cal 0))
      = some (.utc, 0, true, true) := by decide +kernel
  obtain ⟨cal, hcal, htuple⟩ := Option.map_eq_some_iff.mp hfields
  have hzone : cal.zone = .utc := congrArg Prod.fst htuple
  have horigin : cal.originMinutes = 0 := congrArg (fun t => t.2.1) htuple
  have hall : cal.allDay = true := congrArg (fun t => t.2.2.1) htuple
  have hsession : inSession cal 0 = true := congrArg (fun t => t.2.2.2) htuple
  refine ⟨cal, hcal, ?_, hsession, ?_⟩
  · unfold Representable cycleOf
    rw [hzone, horigin]
    decide +kernel
  · rintro ⟨w, hw, -⟩
    rw [(cal.all_day hall).1] at hw
    cases hw

end PineForge.Calendar
