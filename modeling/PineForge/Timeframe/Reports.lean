import Mathlib.Order.MinMax
import PineForge.Machine.Segments
import PineForge.Timeframe.Aggregator

/-!
# Reports of an aggregator

The input of an aggregator is cut into the segments that share the period of their first bar. Over
every run of `feed` and `complete_pending_partial`, with any hints, the complete bars it reports are
those of the segments, one for each and in order, as long as the label of a calendar bucket reads as
the bucket's first bar does.
-/

namespace PineForge.Timeframe

section

variable {α : Type}

/-- Whether an input bar lies in the period of the bar that opened a segment. -/
def Config.samePeriod (c : Config) (first x : Bar α) : Bool :=
  match c.mode with
  | .passthrough => false
  | .ratio _ targetSeconds lateOpens =>
    (c.clock.intradayBucket x.timestamp targetSeconds lateOpens x.timestamp).key
      = (c.clock.intradayBucket first.timestamp targetSeconds lateOpens first.timestamp).key
  | .calendar period periods => !c.calendarChanges period periods first.timestamp x.timestamp

/-- An aggregator whose buckets are spans of time. -/
def Config.timed (c : Config) : Bool :=
  match c.mode with
  | .passthrough => false
  | .ratio _ targetSeconds _ => targetSeconds > 0
  | .calendar _ _ => true

/-- Whether the label of the open calendar bucket, which the aggregator keeps as its bar's
timestamp, reads as the bucket's first bar does against the next input bar. -/
def Config.labelReads (c : Config) (fed : List (Bar α)) (x : Bar α) : Bool :=
  match c.mode, (segments c.samePeriod fed).getLast? with
  | .calendar period periods, some (first :: _) =>
    c.calendarChanges period periods (c.barLabelMs first.timestamp) x.timestamp
      = c.calendarChanges period periods first.timestamp x.timestamp
  | _, _ => true

/-- The label reads so at each of the bars that follow those fed. -/
def Config.labelsRead (c : Config) : List (Bar α) → List (Bar α) → Bool
  | _, [] => true
  | fed, x :: bars => c.labelReads fed x && c.labelsRead (fed ++ [x]) bars

/-! ## Runs -/

/-- What reaches an aggregator: a bar with the caller's hints, or the flush of a pending bucket. -/
inductive Call (α : Type)
  | feed (bar : Bar α) (nextInputMs callingCloseMs : ℤ)
  | completePendingPartial

/-- The bar a call feeds. -/
def Call.bar? : Call α → Option (Bar α)
  | .feed bar _ _ => some bar
  | .completePendingPartial => none

/-- A bar reported complete, with the input fed up to the report. -/
structure Report (α : Type) where
  fed : List (Bar α)
  result : AggregatedBar α
deriving DecidableEq, Repr

/-- The aggregator, what was fed and reported. -/
structure Run (α : Type) where
  aggregator : Aggregator α
  fed : List (Bar α)
  reports : List (Report α)

namespace Run

variable [LinearOrder α] [Add α]

/-- A complete result is a report. -/
def note (r : Run α) (fed : List (Bar α)) (out : AggregatedBar α × Aggregator α) : Run α :=
  ⟨out.2, fed, if out.1.isComplete then r.reports ++ [⟨fed, out.1⟩] else r.reports⟩

/-- One call. -/
def step (r : Run α) : Call α → Run α
  | .feed bar nextInputMs callingCloseMs =>
    r.note (r.fed ++ [bar]) (r.aggregator.feed bar nextInputMs callingCloseMs)
  | .completePendingPartial => r.note r.fed r.aggregator.completePendingPartial

/-- A run before its first call. -/
def fresh (config : Config) (blank : Bar α) : Run α := ⟨.fresh config blank, [], []⟩

/-- The calls of a run. -/
def run (r : Run α) (calls : List (Call α)) : Run α := calls.foldl step r

end Run

/-! ## Bars of segments -/

variable [LinearOrder α] [Add α]

/-- The bar of a segment, as it is merged. -/
def segmentBar (label : ℤ) (first : Bar α) (rest : List (Bar α)) : Bar α :=
  rest.foldl Aggregator.mergeBar { first with timestamp := label }

theorem segmentBar_snoc (label : ℤ) (first : Bar α) (rest : List (Bar α)) (x : Bar α) :
    segmentBar label first (rest ++ [x]) = Aggregator.mergeBar (segmentBar label first rest) x := by
  simp [segmentBar]

/-- What a bar says of the segment it is made of. -/
structure Summary (label : ℤ) (first : Bar α) (rest : List (Bar α)) (bar : Bar α) : Prop where
  timestamp : bar.timestamp = label
  openPrice : bar.openPrice = first.openPrice
  high_mem : ∃ x ∈ first :: rest, bar.high = x.high
  high_le : ∀ x ∈ first :: rest, x.high ≤ bar.high
  low_mem : ∃ x ∈ first :: rest, bar.low = x.low
  le_low : ∀ x ∈ first :: rest, bar.low ≤ x.low
  close : ∃ last, (first :: rest).getLast? = some last ∧ bar.close = last.close
  volume : bar.volume = rest.foldl (fun sum x => sum + x.volume) first.volume

theorem mergeBar_high (bar x : Bar α) :
    (Aggregator.mergeBar bar x).high = max bar.high x.high := by
  simp only [Aggregator.mergeBar, max_def_lt, gt_iff_lt]

theorem mergeBar_low (bar x : Bar α) : (Aggregator.mergeBar bar x).low = min x.low bar.low := by
  simp only [Aggregator.mergeBar, min_def_lt]

/-- A merged bar stays a summary. -/
theorem Summary.merge {label : ℤ} {first : Bar α} {rest : List (Bar α)} {bar : Bar α}
    (h : Summary label first rest bar) (x : Bar α) :
    Summary label first (rest ++ [x]) (Aggregator.mergeBar bar x) where
  timestamp := h.timestamp
  openPrice := h.openPrice
  high_mem := by
    obtain ⟨y, hy, hhigh⟩ := h.high_mem
    rw [mergeBar_high, ← List.cons_append]
    rcases max_choice bar.high x.high with hmax | hmax
    · exact ⟨y, List.mem_append_left _ hy, hmax.trans hhigh⟩
    · exact ⟨x, by simp, hmax⟩
  high_le := by
    intro y hy
    rw [mergeBar_high]
    rw [← List.cons_append] at hy
    rcases List.mem_append.mp hy with hy | hy
    · exact (h.high_le y hy).trans (le_max_left _ _)
    · rw [List.mem_singleton.mp hy]
      exact le_max_right _ _
  low_mem := by
    obtain ⟨y, hy, hlow⟩ := h.low_mem
    rw [mergeBar_low, ← List.cons_append]
    rcases min_choice x.low bar.low with hmin | hmin
    · exact ⟨x, by simp, hmin⟩
    · exact ⟨y, List.mem_append_left _ hy, hmin.trans hlow⟩
  le_low := by
    intro y hy
    rw [mergeBar_low]
    rw [← List.cons_append] at hy
    rcases List.mem_append.mp hy with hy | hy
    · exact (min_le_right _ _).trans (h.le_low y hy)
    · rw [List.mem_singleton.mp hy]
      exact min_le_left _ _
  close := by
    refine ⟨x, ?_, rfl⟩
    rw [← List.cons_append]
    exact List.getLast?_concat
  volume := by simp [Aggregator.mergeBar, h.volume]

theorem summary_segmentBar (label : ℤ) (first : Bar α) (rest : List (Bar α)) :
    Summary label first rest (segmentBar label first rest) := by
  induction rest using List.reverseRecOn with
  | nil => exact ⟨rfl, rfl, ⟨first, by simp, rfl⟩, by simp [segmentBar], ⟨first, by simp, rfl⟩,
      by simp [segmentBar], ⟨first, rfl, rfl⟩, rfl⟩
  | append_singleton rest x ih =>
    rw [segmentBar_snoc]
    exact ih.merge x

/-! ## One call -/

namespace Aggregator

/-- Whether the aggregator takes a bar as the first of a new bucket. -/
def opens (s : Aggregator α) (bar : Bar α) : Bool :=
  match s.config.mode with
  | .passthrough => true
  | .ratio _ targetSeconds lateOpens =>
    (s.config.clock.intradayBucket bar.timestamp targetSeconds lateOpens s.observedFirstMs).key
      ≠ (s.config.clock.intradayBucket s.observedFirstMs targetSeconds lateOpens
        s.observedFirstMs).key
  | .calendar period periods =>
    s.config.calendarChanges period periods s.currentBar.timestamp bar.timestamp

variable {s : Aggregator α} (bar : Bar α) (nextInputMs callingCloseMs : ℤ)

theorem feed_first (htimed : s.config.timed = true) (hcount : s.subBarCount = 0) :
    ∃ complete, s.feed bar nextInputMs callingCloseMs = (s.resetCurrent bar).report complete := by
  unfold Config.timed at htimed
  unfold feed
  cases hmode : s.config.mode with
  | passthrough => simp [hmode] at htimed
  | ratio ratio targetSeconds lateOpens =>
    refine ⟨(s.resetCurrent bar).subBarCount ≥ ratio, ?_⟩
    simp [feedRatioMode, hcount]
  | calendar period periods => exact ⟨false, by simp [feedCalendarMode, hcount]⟩

theorem feed_same (htimed : s.config.timed = true) (hcount : 0 < s.subBarCount)
    (hsame : s.opens bar = false) :
    ∃ complete, s.feed bar nextInputMs callingCloseMs
      = (s.mergeIntoCurrent bar).report (!s.currentEmittedComplete && complete) := by
  unfold Config.timed at htimed
  unfold opens at hsame
  unfold feed
  cases hmode : s.config.mode with
  | passthrough => simp [hmode] at htimed
  | ratio ratio targetSeconds lateOpens =>
    simp only [hmode, decide_eq_true_eq, decide_eq_false_iff_not] at htimed hsame
    refine ⟨ratioCompletes s.config ratio targetSeconds lateOpens
      (s.mergeIntoCurrent bar).subBarCount
      (s.config.clock.intradayBucket bar.timestamp targetSeconds lateOpens s.observedFirstMs)
      bar.timestamp nextInputMs callingCloseMs, ?_⟩
    simp only [feedRatioMode, htimed, hcount, and_self, if_true, hsame, if_false]
  | calendar period periods =>
    simp only [hmode] at hsame
    refine ⟨calendarCompletes s.config period periods bar.timestamp nextInputMs callingCloseMs, ?_⟩
    simp only [feedCalendarMode, Nat.pos_iff_ne_zero.mp hcount, if_false, hsame, Bool.false_eq_true]

theorem feed_opens (htimed : s.config.timed = true) (hcount : 0 < s.subBarCount)
    (hopens : s.opens bar = true) :
    ∃ singletonFinal, s.feed bar nextInputMs callingCloseMs = s.boundary bar singletonFinal := by
  unfold Config.timed at htimed
  unfold opens at hopens
  unfold feed
  cases hmode : s.config.mode with
  | passthrough => simp [hmode] at htimed
  | ratio ratio targetSeconds lateOpens =>
    simp only [hmode, decide_eq_true_eq] at htimed hopens
    refine ⟨singletonSessionFinal s.config ratio targetSeconds bar.timestamp nextInputMs, ?_⟩
    simp only [feedRatioMode, htimed, hcount, and_self, if_true]
    rw [if_pos hopens]
  | calendar period periods =>
    simp only [hmode] at hopens
    refine ⟨false, ?_⟩
    simp only [feedCalendarMode, Nat.pos_iff_ne_zero.mp hcount, if_false, hopens, if_true]

end Aggregator

/-! ## What a run keeps -/

/-- The reports made so far: the `i`-th is of the `i`-th segment, as far as it was fed then. -/
def Reported (c : Config) (fed : List (Bar α)) (reports : List (Report α)) : Prop :=
  ∀ (i : ℕ) (report : Report α), reports[i]? = some report → report.fed <+: fed ∧ ∃ first rest,
    (segments c.samePeriod report.fed)[i]? = some (first :: rest) ∧
    report.result
      = ⟨segmentBar (c.barLabelMs first.timestamp) first rest, true, rest.length + 1⟩

theorem Reported.extend {c : Config} {fed : List (Bar α)} {reports : List (Report α)}
    (h : Reported c fed reports) (bar : Bar α) : Reported c (fed ++ [bar]) reports := by
  intro i report hreport
  obtain ⟨hbefore, hof⟩ := h i report hreport
  exact ⟨hbefore.trans (List.prefix_append _ _), hof⟩

theorem Reported.push {c : Config} {fed : List (Bar α)} {reports : List (Report α)}
    (h : Reported c fed reports) {first : Bar α} {rest : List (Bar α)}
    (hsegment : (segments c.samePeriod fed)[reports.length]? = some (first :: rest)) :
    Reported c fed (reports ++
      [⟨fed, segmentBar (c.barLabelMs first.timestamp) first rest, true, rest.length + 1⟩]) := by
  intro i report hreport
  rcases Nat.lt_trichotomy i reports.length with hi | rfl | hi
  · rw [List.getElem?_append_left hi] at hreport
    exact h i report hreport
  · simp only [List.getElem?_concat_length, Option.some.injEq] at hreport
    subst hreport
    exact ⟨List.prefix_rfl, first, rest, hsegment, rfl⟩
  · rw [List.getElem?_eq_none (by simp; omega)] at hreport
    exact absurd hreport (by simp)

/-- What the aggregator last completed. -/
def LastReported (s : Aggregator α) (reports : List (Report α)) : Prop :=
  s.hasCompleted = !reports.isEmpty ∧
  ∀ report ∈ reports.getLast?, s.lastCompletedBar = report.result.bar

/-- The aggregator inside a bucket. -/
structure Inside (c : Config) (r : Run α) (done : List (List (Bar α))) (first : Bar α)
    (rest : List (Bar α)) : Prop where
  config : r.aggregator.config = c
  segs : segments c.samePeriod r.fed = done ++ [first :: rest]
  current : r.aggregator.currentBar = segmentBar (c.barLabelMs first.timestamp) first rest
  observed : r.aggregator.observedFirstMs = first.timestamp
  count : r.aggregator.subBarCount = rest.length + 1
  reported : r.reports.length
    = done.length + if r.aggregator.currentEmittedComplete then 1 else 0
  each : Reported c r.fed r.reports
  last : LastReported r.aggregator r.reports

/-- A run before its first bar, or inside a bucket. -/
def Tracks (c : Config) (r : Run α) : Prop :=
  (r.aggregator.config = c ∧ r.fed = [] ∧ r.reports = [] ∧ r.aggregator.subBarCount = 0 ∧
    r.aggregator.hasCompleted = false) ∨
  ∃ done first rest, Inside c r done first rest

variable {c : Config} {r : Run α} {done : List (List (Bar α))} {first : Bar α}
  {rest : List (Bar α)}

theorem Inside.opens (h : Inside c r done first rest) {bar : Bar α} (htimed : c.timed = true)
    (hlabel : c.labelReads r.fed bar = true) :
    r.aggregator.opens bar = !c.samePeriod first bar := by
  unfold Config.labelReads at hlabel
  unfold Config.timed at htimed
  rw [h.segs, List.getLast?_concat] at hlabel
  unfold Aggregator.opens Config.samePeriod
  rw [h.config, h.observed, h.current]
  cases hmode : c.mode with
  | passthrough => simp [hmode] at htimed
  | ratio ratio targetSeconds lateOpens =>
    simp only [ne_eq, decide_not]
    rw [c.clock.intradayBucket_key bar.timestamp targetSeconds lateOpens first.timestamp
      bar.timestamp]
  | calendar period periods =>
    simp only [hmode, decide_eq_true_eq] at hlabel
    simp only [Bool.not_not, (summary_segmentBar _ first rest).timestamp]
    exact hlabel

theorem Inside.report (h : Inside c r done first rest) {complete : Bool}
    (hcomplete : complete = true → r.aggregator.currentEmittedComplete = false) :
    Inside c (r.note r.fed (r.aggregator.report complete)) done first rest := by
  cases complete with
  | false => exact h
  | true =>
    have hemitted := hcomplete rfl
    have hlength : r.reports.length = done.length := by simpa [hemitted] using h.reported
    have hsegment : (segments c.samePeriod r.fed)[r.reports.length]? = some (first :: rest) := by
      rw [h.segs, hlength]
      simp
    refine ⟨h.config, h.segs, h.current, h.observed, h.count, ?_, ?_, ?_⟩
    · simp [Run.note, Aggregator.report, hlength]
    · have hpush := h.each.push hsegment
      simpa [Run.note, Aggregator.report, h.current, h.count] using hpush
    · refine ⟨by simp [Run.note, Aggregator.report], ?_⟩
      intro report hreport
      simp only [Run.note, Aggregator.report, if_true, List.getLast?_concat,
        Option.mem_some_iff] at hreport
      subst hreport
      rfl

theorem Inside.merge (h : Inside c r done first rest) {bar : Bar α}
    (hsame : c.samePeriod first bar = true) :
    Inside c ⟨r.aggregator.mergeIntoCurrent bar, r.fed ++ [bar], r.reports⟩ done first
      (rest ++ [bar]) where
  config := h.config
  segs := by
    rw [segments_snoc, h.segs, extendSegments_same hsame]
    rfl
  current := by
    rw [segmentBar_snoc, ← h.current]
    rfl
  observed := h.observed
  count := by simp [Aggregator.mergeIntoCurrent, h.count]
  reported := h.reported
  each := h.each.extend bar
  last := h.last

theorem Inside.reset (h : Inside c r done first rest) {bar : Bar α}
    (hnew : c.samePeriod first bar = false)
    (hemitted : r.aggregator.currentEmittedComplete = true) :
    Inside c ⟨r.aggregator.resetCurrent bar, r.fed ++ [bar], r.reports⟩ (done ++ [first :: rest])
      bar [] where
  config := h.config
  segs := by rw [segments_snoc, h.segs, extendSegments_new hnew]
  current := by simp [Aggregator.resetCurrent, segmentBar, h.config]
  observed := rfl
  count := rfl
  reported := by
    have hreported := h.reported
    simp only [hemitted, if_true] at hreported
    simp [Aggregator.resetCurrent, hreported]
  each := h.each.extend bar
  last := h.last

theorem Inside.complete (h : Inside c r done first rest) {bar : Bar α}
    (hnew : c.samePeriod first bar = false)
    (hemitted : r.aggregator.currentEmittedComplete = false) (singletonFinal : Bool) :
    Inside c (r.note (r.fed ++ [bar]) (r.aggregator.boundary bar singletonFinal))
      (done ++ [first :: rest]) bar [] := by
  have hlength : r.reports.length = done.length := by simpa [hemitted] using h.reported
  have hsegs : segments c.samePeriod (r.fed ++ [bar]) = done ++ [first :: rest] ++ [[bar]] := by
    rw [segments_snoc, h.segs, extendSegments_new hnew]
  have hsegment : (segments c.samePeriod (r.fed ++ [bar]))[r.reports.length]?
      = some (first :: rest) := by
    rw [hsegs, hlength]
    simp
  have hout : r.note (r.fed ++ [bar]) (r.aggregator.boundary bar singletonFinal)
      = ⟨{ r.aggregator with
            lastCompletedBar := r.aggregator.currentBar, hasCompleted := true }.resetCurrent bar,
          r.fed ++ [bar],
          r.reports ++ [⟨r.fed ++ [bar], segmentBar (c.barLabelMs first.timestamp) first rest, true,
            rest.length + 1⟩]⟩ := by
    simp [Run.note, Aggregator.boundary, hemitted, h.current, h.count]
  rw [hout]
  refine ⟨h.config, hsegs, ?_, rfl, rfl, ?_, (h.each.extend bar).push hsegment, ?_, ?_⟩
  · simp [Aggregator.resetCurrent, segmentBar, h.config]
  · simp [Aggregator.resetCurrent, hlength]
  · simp [Aggregator.resetCurrent]
  · intro report hreport
    simp only [List.getLast?_concat, Option.mem_some_iff] at hreport
    subst hreport
    exact h.current

/-- A fed bar keeps the group's account. -/
theorem Inside.feed (h : Inside c r done first rest) (htimed : c.timed = true) {bar : Bar α}
    (hlabel : c.labelReads r.fed bar = true) (nextInputMs callingCloseMs : ℤ) :
    ∃ done first rest,
      Inside c (r.step (.feed bar nextInputMs callingCloseMs)) done first rest := by
  have hconfig : r.aggregator.config.timed = true := by
    rw [h.config]
    exact htimed
  have hcount : 0 < r.aggregator.subBarCount := by
    rw [h.count]
    exact Nat.succ_pos _
  have hopens := h.opens htimed hlabel
  simp only [Run.step]
  cases hsame : c.samePeriod first bar with
  | true =>
    obtain ⟨complete, hfeed⟩ := Aggregator.feed_same bar nextInputMs callingCloseMs hconfig hcount
      (by simpa [hsame] using hopens)
    rw [hfeed]
    refine ⟨done, first, rest ++ [bar], (h.merge hsame).report ?_⟩
    intro hcomplete
    simp only [Bool.and_eq_true, Bool.not_eq_true'] at hcomplete
    exact hcomplete.1
  | false =>
    obtain ⟨singletonFinal, hfeed⟩ := Aggregator.feed_opens bar nextInputMs callingCloseMs hconfig
      hcount (by simpa [hsame] using hopens)
    rw [hfeed]
    refine ⟨done ++ [first :: rest], bar, [], ?_⟩
    cases hemitted : r.aggregator.currentEmittedComplete with
    | true =>
      unfold Aggregator.boundary
      rw [if_pos hemitted]
      exact (h.reset hsame hemitted).report fun _ => rfl
    | false => exact h.complete hsame hemitted singletonFinal

theorem Inside.start (hconfig : r.aggregator.config = c) (hfed : r.fed = [])
    (hreports : r.reports = []) (hcompleted : r.aggregator.hasCompleted = false) (bar : Bar α) :
    Inside c ⟨r.aggregator.resetCurrent bar, r.fed ++ [bar], r.reports⟩ [] bar [] where
  config := hconfig
  segs := by
    rw [hfed]
    rfl
  current := by simp [Aggregator.resetCurrent, segmentBar, hconfig]
  observed := rfl
  count := rfl
  reported := by simp [Aggregator.resetCurrent, hreports]
  each := by
    intro i report hreport
    simp [hreports] at hreport
  last := by
    simp [LastReported, hreports, Aggregator.resetCurrent, hcompleted]

theorem Tracks.step (h : Tracks c r) (htimed : c.timed = true) (call : Call α)
    (hlabel : ∀ bar ∈ call.bar?, c.labelReads r.fed bar = true) : Tracks c (r.step call) := by
  cases call with
  | feed bar nextInputMs callingCloseMs =>
    rcases h with ⟨hconfig, hfed, hreports, hcount, hcompleted⟩ | ⟨done, first, rest, h⟩
    · obtain ⟨complete, hfeed⟩ := Aggregator.feed_first bar nextInputMs callingCloseMs
        (by rw [hconfig]; exact htimed) hcount
      refine Or.inr ⟨[], bar, [], ?_⟩
      unfold Run.step
      simp only [hfeed]
      exact (Inside.start hconfig hfed hreports hcompleted bar).report fun _ => rfl
    · exact Or.inr (h.feed htimed (hlabel bar rfl) nextInputMs callingCloseMs)
  | completePendingPartial =>
    rcases h with ⟨hconfig, hfed, hreports, hcount, hcompleted⟩ | ⟨done, first, rest, h⟩
    · have hpending : r.aggregator.hasPendingPartial = false := by
        unfold Aggregator.hasPendingPartial
        cases r.aggregator.config.mode <;> simp [hcount]
      refine Or.inl ?_
      simp [Run.step, Run.note, Aggregator.completePendingPartial, Aggregator.report, hpending,
        hconfig, hfed, hreports, hcount, hcompleted]
    · refine Or.inr ⟨done, first, rest, h.report ?_⟩
      intro hpending
      unfold Aggregator.hasPendingPartial at hpending
      cases hmode : r.aggregator.config.mode with
      | ratio ratio targetSeconds lateOpens =>
        simp only [hmode, decide_eq_true_eq] at hpending
        exact hpending.2.2
      | passthrough => simp [hmode] at hpending
      | calendar period periods => simp [hmode] at hpending

theorem Tracks.run (htimed : c.timed = true) (calls : List (Call α)) :
    ∀ r : Run α, Tracks c r → c.labelsRead r.fed (calls.filterMap Call.bar?) = true →
      Tracks c (r.run calls) := by
  induction calls with
  | nil => exact fun r h _ => h
  | cons call calls ih =>
    intro r h hlabels
    cases call with
    | feed bar nextInputMs callingCloseMs =>
      simp only [List.filterMap_cons, Call.bar?, Config.labelsRead, Bool.and_eq_true] at hlabels
      refine ih _ (h.step htimed (.feed bar nextInputMs callingCloseMs) ?_) hlabels.2
      intro x hx
      simp only [Call.bar?, Option.mem_some_iff] at hx
      rw [← hx]
      exact hlabels.1
    | completePendingPartial =>
      refine ih _ (h.step htimed .completePendingPartial ?_) hlabels
      intro x hx
      simp [Call.bar?] at hx

/-! ## Every bucket once -/

/-- The reports of a run are of the segments of its input, one for each and in order; only the last
segment may still be unreported. Each says of its segment what was fed of it up to the report. -/
structure EmitsOnce (c : Config) (r : Run α) : Prop where
  noMore : r.reports.length ≤ (segments c.samePeriod r.fed).length
  noFewer : (segments c.samePeriod r.fed).length ≤ r.reports.length + 1
  each : ∀ (i : ℕ) (report : Report α), r.reports[i]? = some report → report.fed <+: r.fed ∧
    ∃ first rest whole, (segments c.samePeriod report.fed)[i]? = some (first :: rest) ∧
      (segments c.samePeriod r.fed)[i]? = some whole ∧ first :: rest <+: whole ∧
      Summary (c.barLabelMs first.timestamp) first rest report.result.bar ∧
      report.result.subBarCount = (first :: rest).length
  last : ∀ report ∈ r.reports.getLast?, r.aggregator.lastCompletedBar = report.result.bar

theorem Tracks.emitsOnce (h : Tracks c r) : EmitsOnce c r := by
  rcases h with ⟨-, hfed, hreports, -, -⟩ | ⟨done, first, rest, h⟩
  · refine ⟨?_, ?_, ?_, ?_⟩ <;> simp [hfed, hreports]
  · have hreported := h.reported
    have hsegs := congrArg List.length h.segs
    simp only [List.length_append, List.length_singleton] at hsegs
    refine ⟨?_, ?_, ?_, h.last.2⟩
    · split at hreported <;> omega
    · split at hreported <;> omega
    · intro i report hreport
      obtain ⟨⟨later, hfed⟩, first, rest, hsegment, hresult⟩ := h.each i report hreport
      obtain ⟨whole, hwhole, hbefore⟩ := segments_prefix later hsegment
      rw [hfed] at hwhole
      refine ⟨⟨later, hfed⟩, first, rest, whole, hsegment, hwhole, hbefore, ?_, ?_⟩
      · rw [hresult]
        exact summary_segmentBar _ _ _
      · rw [hresult]
        rfl

/-- Every bucket is emitted once, over every run whose calendar labels read as the bars they stand
for; a ratio aggregator keeps its bucket's first bar and has no such condition. -/
theorem run_emitsOnce (c : Config) (blank : Bar α) (calls : List (Call α)) (htimed : c.timed = true)
    (hlabels : c.labelsRead [] (calls.filterMap Call.bar?) = true) :
    EmitsOnce c ((Run.fresh c blank).run calls) :=
  (Tracks.run htimed calls (Run.fresh c blank) (Or.inl ⟨rfl, rfl, rfl, rfl, rfl⟩) hlabels).emitsOnce

end

/-! ## A label outside its own session day -/

/-- Local midnight in a zone that moves its clock once, at a real instant; the offsets are what must
be added to a wall clock reading. `mktime` is asked with the `tm_isdst` of the instant, so midnight
is resolved with the instant's offset on the day of the change too. -/
def oneChangeDayOpen (change before after ms : ℤ) : ℤ :=
  let offset := if ms < change then before else after
  (ms - offset) / msPerDay * msPerDay + offset

/-- New York around the clock change of Sunday, 9 March 2025, for a session from 19:30 to 16:00. -/
def newYorkEvening : SymbolClock where
  utc := false
  calendarDayOpenLocalMs := oneChangeDayOpen 1741503600000 18000000 14400000
  session := ['1', '9', '3', '0', '-', '1', '6', '0', '0']
  partition := none

/-- Daily bars from half hours. -/
def dailyBars (clock : SymbolClock) : Config := ⟨clock, .calendar .day .nominal, 1800, false⟩

/-- Half-hour bars without hints. -/
def halfHours (start : ℤ) (closes : List ℤ) : List (Call ℤ) :=
  closes.mapIdx fun i close => .feed ⟨start + i * 1800000, close, close, close, close, 1⟩ 0 0

/-- A day without a session in UTC: the first bar of the next one completes it. -/
theorem run_emitsOnce_utc :
    let c := dailyBars ⟨true, fun ms => ms, anyHours, none⟩
    let calls := halfHours 1741561200000 [10, 12, 11]
    (c.timed = true ∧ c.labelsRead [] (calls.filterMap Call.bar?) = true) ∧
      EmitsOnce c ((Run.fresh c ⟨0, 0, 0, 0, 0, 0⟩).run calls) := by
  refine ⟨⟨by decide +kernel, by decide +kernel⟩, ?_⟩
  exact run_emitsOnce _ _ _ (by decide +kernel) (by decide +kernel)

/-- The bars of one Saturday evening, from its open at 19:30, are one segment, but each bar after
the first completes a bucket: on the UTC day of the change the open is resolved with Sunday's
offset, to 23:30 UTC of Saturday, which Saturday's offset reads as 18:30, in the session day
before. -/
theorem saturday_evening_reported_twice :
    let r := (Run.fresh (dailyBars newYorkEvening) ⟨0, 0, 0, 0, 0, 0⟩).run
      (halfHours 1741480200000 [10, 12, 11])
    (r.fed.map Bar.timestamp).Pairwise (· < ·) ∧
      (segments (dailyBars newYorkEvening).samePeriod r.fed).length = 1 ∧ r.reports.length = 2 ∧
      ¬EmitsOnce (dailyBars newYorkEvening) r := by
  refine ⟨by decide +kernel, by decide +kernel, by decide +kernel, fun h => ?_⟩
  exact absurd h.noMore (by decide +kernel)

end PineForge.Timeframe
