import Mathlib
import PineForge.MultiDay.Stamps
import PineForge.MultiDay.Window

/-!
# The generated N-day partition

Planning walks the feeds for the first and the last held day, and once more through all the periods
to see that the partition is whole. Where a feed's days go back it does so with the rescanned
lookup. The table that this replaces is built from all the days at once (`periodTable`). There is a
source exactly where the table is whole and increasing, and it answers as the table whatever is
asked (`source_eq_table`).
-/

namespace PineForge.MultiDay

open Calendar

/-- What a run holds of the symbol that an N-day request reads. -/
structure MultiDayFeeds where
  days : ℤ
  chart : List ℤ
  dailyChart : Bool
  aux : List ℤ
  tz : String
  session : String
  exchangeCalendar : Bool

namespace MultiDayFeeds

variable (feeds : MultiDayFeeds)

/-- What planning learns from the first and the last held day. -/
def params (first last : ℤ) : Params where
  days := feeds.days
  exchangeCalendar := feeds.exchangeCalendar
  everyDay := feeds.session = "" ∨ feeds.session = "24x7"
  first := first
  last := last
  firstYear := (nativeCivilDate first).year
  lastYear := (nativeCivilDate last).year + 1

/-- The merge of the feeds before its start. -/
def heldStart (s : Sessions) : HeldDays :=
  MultiDay.heldStart s feeds.dailyChart feeds.chart feeds.aux

/-- The merge of the feeds. -/
def heldDays (s : Sessions) : Generator HeldDays HeldDay := MultiDay.heldDays s feeds.dailyChart

/-- All days of the feeds. -/
def allDays (s : Sessions) : List HeldDay :=
  MultiDay.allDays s feeds.dailyChart feeds.chart feeds.aux

/-- The stamps where no feed goes back. -/
def orderedStamps (s : Sessions) (p : Params) : Generator (Stamps Ahead) ℤ :=
  stamps p (findAhead s feeds.dailyChart) s

/-- The stamps where one does. -/
def rescannedStamps (s : Sessions) (p : Params) : Generator (Stamps RescannedHeldDays) ℤ :=
  stamps p (findRescanned s feeds.dailyChart feeds.chart feeds.aux p) s

end MultiDayFeeds

/-- The first and the last stamp of a partition that is not refused. -/
def proven {H : Type} (g : Generator (Stamps H) ℤ) (start : Stamps H) : Option (ℤ × ℤ) :=
  match (g.list start).head?, (g.list start).getLast? with
  | some first, some last => if (g.rest start).scan.failed then none else some (first, last)
  | _, _ => none

/-- The bounds of all the days, in any order. -/
def scanBounds : Option (ℤ × ℤ) → List HeldDay → Option (ℤ × ℤ)
  | bounds, [] => bounds
  | none, day :: days => scanBounds (some (day.ordinal, day.ordinal)) days
  | some (first, last), day :: days =>
    scanBounds (some (min first day.ordinal, max last day.ordinal)) days

/-- A planned partition and its lookup. -/
inductive PeriodSource where
  | ordered (s : Sessions) (p : Params) (firstStamp lastStamp : ℤ) (src : Source (Stamps Ahead))
  | rescanned (s : Sessions) (p : Params) (firstStamp lastStamp : ℤ)
    (src : Source (Stamps RescannedHeldDays))

section

variable (feeds : MultiDayFeeds) (s : Sessions)

/-- Plan over feeds that go back. -/
def makeRescannedSource : Option PeriodSource :=
  match scanBounds (scanBounds none ((walk s feeds.dailyChart).list ⟨feeds.chart, none⟩))
      ((walk s false).list ⟨feeds.aux, none⟩) with
  | none => none
  | some (first, last) =>
    let p := feeds.params first last
    let start := stampsStart p rescanStart
    (proven (feeds.rescannedStamps s p) start).map fun ends => .rescanned s p ends.1 ends.2
      ⟨start, [], none⟩

/-- Plan over feeds in order. -/
def makeOrderedSource (first last : ℤ) : Option PeriodSource :=
  let p := feeds.params first last
  let start := stampsStart p (aheadStart s feeds.dailyChart feeds.chart feeds.aux)
  (proven (feeds.orderedStamps s p) start).map fun ends => .ordered s p ends.1 ends.2
    ⟨start, [], none⟩

/-- The partition of the feeds on a calendar: the first and the last held day, and whether a feed
goes back. -/
def makeSource : Option PeriodSource :=
  let held := (feeds.heldDays s).list (feeds.heldStart s)
  match held.head?, held.getLast? with
  | some first, some last =>
    if ((feeds.heldDays s).rest (feeds.heldStart s)).ordered then
      makeOrderedSource feeds s first.ordinal last.ordinal
    else makeRescannedSource feeds s
  | _, _ => none

/-- The N-day partition of the feeds. -/
def makeMultiDayPeriodSource (parseSession : String → String → Option Sessions) :
    Option PeriodSource :=
  if feeds.days < 2 then none else (parseSession feeds.session feeds.tz).bind (makeSource feeds)

/-- The answers of a source to a sequence of questions. -/
def PeriodSource.answers (queries : List ℤ) : PeriodSource → List (Option (ℤ × Bool))
  | .ordered s p firstStamp _ src =>
    MultiDay.answers (feeds.orderedStamps s p)
      (stampsStart p (aheadStart s feeds.dailyChart feeds.chart feeds.aux)) firstStamp queries src
  | .rescanned s p firstStamp _ src =>
    MultiDay.answers (feeds.rescannedStamps s p) (stampsStart p rescanStart) firstStamp queries src

/-! ## The table -/

/-- The least and the greatest of the dates. -/
def boundsOf (days : List HeldDay) : Option (ℤ × ℤ) := do
  let first ← (days.map (·.ordinal)).min?
  let last ← (days.map (·.ordinal)).max?
  pure (first, last)

/-- What planning learns from all the held days. -/
def tableParams : Option Params :=
  (boundsOf (feeds.allDays s)).map fun ends => feeds.params ends.1 ends.2

/-- The stamps of the opens from the last at or before the first held day on, where each has one. -/
def tableStamps : Option (List ℤ) :=
  (tableParams feeds s).bind fun p => stampsOf s p (stampOf (feeds.allDays s))

/-- The stored table; empty where the request, the session or the feeds give none. -/
def periodTable (parseSession : String → String → Option Sessions) : List ℤ :=
  if feeds.days < 2 then []
  else ((parseSession feeds.session feeds.tz).bind (tableStamps feeds)).getD []

/-- No period opens at or before the first held day. -/
def NoOpenYet (parseSession : String → String → Option Sessions) : Prop :=
  ∃ s p, parseSession feeds.session feeds.tz = some s ∧ tableParams feeds s = some p ∧
    ∀ o ∈ opens p (stampOf (feeds.allDays s)), p.first < o.date

end

/-! ## What planning proves -/

section

variable {H : Type} {p : Params} {find : ℤ → H → Option (Option ℤ) × H} {s : Sessions}
    {stamp : ℤ → Option ℤ}
  {Knows : H → ℤ → Prop}

theorem stamps_settle : Settles (stamps p find s) := fun _ h => list_of_ended h

/-- Planning proves a partition exactly where its table is whole and increasing, and that is what it
generates. -/
theorem proven_spec (hreads : Reads stamp find Knows) {held : H}
    (hknows : Knows held (yearFirst p.firstYear))
    (hyears : p.firstYear ≤ p.lastYear) :
    (proven (stamps p find s) (stampsStart p held) = none ↔
        ∀ table, stampsOf s p stamp = some table → ¬ table.Pairwise (· < ·)) ∧
      ∀ ends, proven (stamps p find s) (stampsStart p held) = some ends →
        ∃ table, stampsOf s p stamp = some table ∧ table.Pairwise (· < ·) ∧
          (stamps p find s).list (stampsStart p held) = table ∧ table.head? = some ends.1 := by
  obtain ⟨hnone, hsome⟩ := accepts_start (p := p) (s := s) hreads hknows hyears
  cases hos : fromFirst p (opens p stamp) with
  | none =>
    have hproven : proven (stamps p find s) (stampsStart p held) = none := by
      rw [proven, hnone hos]
      rfl
    refine ⟨iff_of_true hproven fun table htable => ?_, fun ends hends => ?_⟩
    · rw [stampsOf, hos] at htable
      cases htable
    · rw [hproven] at hends
      cases hends
  | some os =>
    obtain ⟨hlist, hfailed⟩ := hsome os hos
    have hstamps : ∀ table, stampsOf s p stamp = some table ∧ table.Pairwise (· < ·) ↔
        accept s none os = (table, false) := by
      intro table
      rw [accept_eq_iff, List.isChain_iff_pairwise, stampsOf, hos]
      rfl
    change _ = (accept s none os).1 at hlist
    change _ = (accept s none os).2 at hfailed
    cases hend : (accept s none os).2 with
    | true =>
      have hproven : proven (stamps p find s) (stampsStart p held) = none := by
        unfold proven
        rw [hfailed, hend]
        split
        · rfl
        · rfl
      refine ⟨iff_of_true hproven fun table htable hincreasing => ?_, fun ends hends => ?_⟩
      · rw [(hstamps table).mp ⟨htable, hincreasing⟩] at hend
        cases hend
      · rw [hproven] at hends
        cases hends
    | false =>
      obtain ⟨htable, hincreasing⟩ := (hstamps (accept s none os).1).mpr (Prod.ext rfl hend)
      obtain ⟨first, rest, hcons⟩ := List.exists_cons_of_ne_nil (stampsOf_ne_nil htable)
      obtain ⟨last, hlast⟩ : ∃ last, (first :: rest).getLast? = some last := ⟨_, List.getLast?_cons⟩
      have hproven : proven (stamps p find s) (stampsStart p held) = some (first, last) := by
        unfold proven
        rw [hlist, hcons, hlast, hfailed, hend]
        rfl
      refine ⟨iff_of_false (by rw [hproven]; simp) fun h => h _ htable hincreasing,
        fun ends hends => ?_⟩
      rw [hproven, Option.some.injEq] at hends
      refine ⟨_, htable, hincreasing, hlist, ?_⟩
      rw [hcons, ← hends, List.head?_cons]

theorem answers_proven (hreads : Reads stamp find Knows) {held : H}
    (hknows : Knows held (yearFirst p.firstYear))
    (hyears : p.firstYear ≤ p.lastYear) {ends : ℤ × ℤ}
    (h : proven (stamps p find s) (stampsStart p held) = some ends) :
    ∃ table, stampsOf s p stamp = some table ∧ ∀ queries,
      answers (stamps p find s) (stampsStart p held) ends.1 queries ⟨stampsStart p held, [], none⟩
        = queries.map (tableAt table) := by
  obtain ⟨table, htable, hincreasing, hlist, hfirst⟩ :=
    (proven_spec (s := s) hreads hknows hyears).2 ends h
  exact ⟨table, htable, fun queries => answers_eq stamps_settle hlist hincreasing hfirst
    (.inl rfl) queries⟩

end

/-! ## The bounds of the held days -/

theorem boundsOf_eq_some {days : List HeldDay} {first last : ℤ} :
    boundsOf days = some (first, last) ↔
    (first ∈ days.map (·.ordinal) ∧ ∀ d ∈ days.map (·.ordinal), first ≤ d) ∧
      last ∈ days.map (·.ordinal) ∧ ∀ d ∈ days.map (·.ordinal), d ≤ last := by
  rw [← List.min?_eq_some_iff, ← List.max?_eq_some_iff, boundsOf]
  cases (days.map (·.ordinal)).min? with
  | none => simp
  | some a =>
    cases (days.map (·.ordinal)).max? with
    | none => simp
    | some b => simp

theorem scanBounds_eq (days : List HeldDay) : scanBounds none days = boundsOf days := by
  have hfold : ∀ (days : List HeldDay) (first last : ℤ), scanBounds (some (first, last)) days
      = some ((days.map (·.ordinal)).foldl min first, (days.map (·.ordinal)).foldl max last) := by
    intro days
    induction days with
    | nil => exact fun _ _ => rfl
    | cons day days ih =>
      intro first last
      rw [scanBounds, ih]
      rfl
  cases days with
  | nil => rfl
  | cons day days =>
    rw [scanBounds, hfold, boundsOf, List.map_cons, List.min?_cons', List.max?_cons']
    rfl

theorem scanBounds_append (bounds : Option (ℤ × ℤ)) (days more : List HeldDay) :
    scanBounds bounds (days ++ more) = scanBounds (scanBounds bounds days) more := by
  induction days generalizing bounds with
  | nil => 
    cases bounds with
    | none => rfl
    | some ends => rfl
  | cons day days ih =>
    cases bounds with
    | none => exact ih _
    | some ends => exact ih _

theorem boundsOf_ascending {held days : List HeldDay} (hasc : Ascending held)
    (hsame : ∀ d, d ∈ held.map (·.ordinal) ↔ d ∈ days.map (·.ordinal)) {first last : HeldDay}
    (hfirst : held.head? = some first) (hlast : held.getLast? = some last) :
    boundsOf days = some (first.ordinal, last.ordinal) := by
  rw [boundsOf_eq_some]
  simp only [← hsame]
  refine ⟨⟨List.mem_map_of_mem (List.mem_of_head? hfirst), ?_⟩,
    List.mem_map_of_mem (List.mem_of_getLast? hlast), ?_⟩
  · intro d hd
    obtain ⟨e, he, rfl⟩ := List.mem_map.mp hd
    obtain ⟨rest, rfl⟩ := List.head?_eq_some_iff.mp hfirst
    rcases List.mem_cons.mp he with rfl | he
    · exact le_rfl
    · exact ((List.pairwise_cons.mp hasc).1 e he).le
  · intro d hd
    obtain ⟨e, he, rfl⟩ := List.mem_map.mp hd
    obtain ⟨earlier, rfl⟩ := List.getLast?_eq_some_iff.mp hlast
    rcases List.mem_append.mp he with he | he
    · exact ((List.pairwise_append.mp hasc).2.2 e he last (by simp)).le
    · rw [List.mem_singleton.mp he]

theorem year_mono {first last : ℤ} (h : first ≤ last) :
    (nativeCivilDate first).year ≤ (nativeCivilDate last).year := by
  by_contra hback
  have hyears : yearFirst ((nativeCivilDate last).year + 1)
      ≤ yearFirst (nativeCivilDate first).year :=
    yearFirst_strictMono.monotone (by omega)
  have hfirst := (year_mem first).1
  have hlast := (year_mem last).2
  omega

/-! ## The source is the table -/

section

variable (feeds : MultiDayFeeds) (s : Sessions)

/-- The source is there exactly where the table is whole and increasing, and answers as the table
does. -/
def Agrees (source : Option PeriodSource) : Prop :=
  (source = none ↔ ∀ table, tableStamps feeds s = some table → ¬ table.Pairwise (· < ·)) ∧
    ∀ src, source = some src → ∃ table, tableStamps feeds s = some table ∧
      ∀ queries, src.answers feeds queries = queries.map (tableAt table)

theorem tableStamps_of_bounds {first last : ℤ}
    (h : boundsOf (feeds.allDays s) = some (first, last)) :
    tableStamps feeds s = stampsOf s (feeds.params first last) (stampOf (feeds.allDays s)) := by
  rw [tableStamps, tableParams, h]
  rfl

theorem params_years {first last : ℤ} (h : boundsOf (feeds.allDays s) = some (first, last)) :
    (feeds.params first last).firstYear ≤ (feeds.params first last).lastYear := by
  obtain ⟨⟨hmem, -⟩, -, hmax⟩ := boundsOf_eq_some.mp h
  have := year_mono (hmax first hmem)
  change (nativeCivilDate first).year ≤ (nativeCivilDate last).year + 1
  omega

theorem makeOrderedSource_agrees {first last : ℤ}
    (h : boundsOf (feeds.allDays s) = some (first, last))
    (hordered : ((feeds.heldDays s).rest (feeds.heldStart s)).ordered = true) :
    Agrees feeds s (makeOrderedSource feeds s first last) := by
  have hreads := reads_findAhead s feeds.dailyChart (stampOf (feeds.allDays s))
  have hknows := aheadStart_knows s feeds.dailyChart feeds.chart feeds.aux hordered
    (yearFirst (feeds.params first last).firstYear)
  have hyears := params_years feeds s h
  obtain ⟨hnone, -⟩ := proven_spec (s := s) hreads hknows hyears
  unfold Agrees
  rw [tableStamps_of_bounds feeds s h]
  refine ⟨Option.map_eq_none_iff.trans hnone, fun src hsrc => ?_⟩
  obtain ⟨ends, hends, rfl⟩ := Option.map_eq_some_iff.mp hsrc
  exact answers_proven hreads hknows hyears hends

theorem makeRescannedSource_agrees {first last : ℤ}
    (h : boundsOf (feeds.allDays s) = some (first, last)) :
    Agrees feeds s (makeRescannedSource feeds s) := by
  have hscan : scanBounds (scanBounds none ((walk s feeds.dailyChart).list ⟨feeds.chart, none⟩))
      ((walk s false).list ⟨feeds.aux, none⟩) = some (first, last) := by
    rw [← scanBounds_append, scanBounds_eq, list_walk, list_walk]
    exact h
  have hbounds : ∀ date, date < (feeds.params first last).first ∨
    (feeds.params first last).last < date →
      stampOf (feeds.allDays s) date = none := by
    obtain ⟨⟨-, hmin⟩, -, hmax⟩ := boundsOf_eq_some.mp h
    intro date hout
    rw [← Option.not_isSome_iff_eq_none, stampOf_isSome]
    intro hmem
    rcases hout with hout | hout
    · exact absurd (hmin date hmem) (not_le.mpr hout)
    · exact absurd (hmax date hmem) (not_le.mpr hout)
  have hreads := reads_findRescanned s feeds.dailyChart feeds.chart feeds.aux hbounds
  have hknows := rescanStart_knows (stampOf (feeds.allDays s))
  have hyears := params_years feeds s h
  obtain ⟨hnone, -⟩ := proven_spec (s := s) hreads hknows hyears
  unfold Agrees makeRescannedSource
  rw [tableStamps_of_bounds feeds s h, hscan]
  refine ⟨Option.map_eq_none_iff.trans hnone, fun src hsrc => ?_⟩
  obtain ⟨ends, hends, rfl⟩ := Option.map_eq_some_iff.mp hsrc
  exact answers_proven hreads hknows hyears hends

theorem heldDays_bounds {first last : HeldDay}
    (hordered : ((feeds.heldDays s).rest (feeds.heldStart s)).ordered = true)
    (hfirst : ((feeds.heldDays s).list (feeds.heldStart s)).head? = some first)
    (hlast : ((feeds.heldDays s).list (feeds.heldStart s)).getLast? = some last) :
    boundsOf (feeds.allDays s) = some (first.ordinal, last.ordinal) := by
  refine boundsOf_ascending (heldDays_ascending s feeds.dailyChart feeds.chart feeds.aux)
    (fun d => ?_) hfirst hlast
  rw [← stampOf_isSome, ← stampOf_isSome,
    stampOf_heldDays s feeds.dailyChart feeds.chart feeds.aux hordered]
  rfl

theorem exists_bounds (h : feeds.allDays s ≠ []) :
    ∃ first last, boundsOf (feeds.allDays s) = some (first, last) := by
  obtain ⟨day, days, hcons⟩ := List.exists_cons_of_ne_nil h
  rw [hcons, boundsOf, List.map_cons, List.min?_cons', List.max?_cons']
  exact ⟨_, _, rfl⟩

/-- The source agrees with the table. -/
theorem makeSource_agrees : Agrees feeds s (makeSource feeds s) := by
  have hempty := heldDays_eq_nil s feeds.dailyChart feeds.chart feeds.aux
  unfold makeSource
  dsimp only
  split
  · rename_i first last hfirst hlast
    split
    · rename_i hordered
      exact makeOrderedSource_agrees feeds s
        (heldDays_bounds feeds s hordered hfirst hlast) hordered
    · have hne : feeds.allDays s ≠ [] := by
        intro hnil
        have hlist : (feeds.heldDays s).list (feeds.heldStart s) = [] := hempty.mpr hnil
        rw [hlist] at hfirst
        cases hfirst
      obtain ⟨first', last', hbounds⟩ := exists_bounds feeds s hne
      exact makeRescannedSource_agrees feeds s hbounds
  · rename_i hnone
    have hnil : (feeds.heldDays s).list (feeds.heldStart s) = [] := by
      by_contra hne
      obtain ⟨day, days, hcons⟩ := List.exists_cons_of_ne_nil hne
      exact hnone day _ (by rw [hcons]; rfl) (by rw [hcons]; exact List.getLast?_cons)
    have hdays : feeds.allDays s = [] := hempty.mp hnil
    have htable : tableStamps feeds s = none := by
      rw [tableStamps, tableParams, hdays]
      rfl
    unfold Agrees
    rw [htable]
    refine ⟨iff_of_true rfl fun table h => ?_, fun src h => ?_⟩
    · cases h
    · cases h

theorem tableStamps_ne_nil {table : List ℤ} (h : tableStamps feeds s = some table) :
    table ≠ [] := by
  obtain ⟨p, -, hstamps⟩ := Option.bind_eq_some_iff.mp h
  exact stampsOf_ne_nil hstamps

variable (parseSession : String → String → Option Sessions)

variable {parseSession} in
theorem tableStamps_of_late (hparse : parseSession feeds.session feeds.tz = some s)
    (h : NoOpenYet feeds parseSession) : tableStamps feeds s = none := by
  obtain ⟨s', p, hparse', hparams, hlate⟩ := h
  cases hparse.symm.trans hparse'
  have hnil : (opens p (stampOf (feeds.allDays s))).takeWhile (·.date ≤ p.first) = [] := by
    cases hopens : opens p (stampOf (feeds.allDays s)) with
    | nil => rfl
    | cons o os =>
      have ho := hlate o (by rw [hopens]; exact List.mem_cons_self ..)
      exact List.takeWhile_cons_of_neg (by simpa using ho)
  rw [tableStamps, hparams, Option.bind_some, stampsOf, fromFirst, hnil]
  rfl

/-- The generated partition is the stored table: there is a source exactly where the table is
neither empty nor out of order and a period opens by the first held day, and whatever is asked of it
in whatever order, it answers with the last entry at or before the instant and tells the final
one. -/
theorem source_eq_table :
    (makeMultiDayPeriodSource feeds parseSession = none ↔
        periodTable feeds parseSession = [] ∨ ¬ (periodTable feeds parseSession).Pairwise (· < ·) ∨
          NoOpenYet feeds parseSession) ∧
      ∀ src, makeMultiDayPeriodSource feeds parseSession = some src → ∀ queries,
        src.answers feeds queries = queries.map (tableAt (periodTable feeds parseSession)) := by
  unfold makeMultiDayPeriodSource periodTable
  by_cases hdays : feeds.days < 2
  · rw [if_pos hdays, if_pos hdays]
    refine ⟨iff_of_true rfl (.inl rfl), fun src h => ?_⟩
    cases h
  rw [if_neg hdays, if_neg hdays]
  cases hparse : parseSession feeds.session feeds.tz with
  | none =>
    refine ⟨iff_of_true rfl (.inl rfl), fun src h => ?_⟩
    cases h
  | some s =>
    obtain ⟨hnone, hsome⟩ := makeSource_agrees feeds s
    rw [Option.bind_some, Option.bind_some, hnone]
    refine ⟨⟨fun h => ?_, fun h table htable hincreasing => ?_⟩, fun src hsrc => ?_⟩
    · cases htable : tableStamps feeds s with
      | none => exact .inl rfl
      | some table => exact .inr (.inl (h table htable))
    · rw [htable, Option.getD_some] at h
      rcases h with hnil | hback | hlate
      · exact tableStamps_ne_nil feeds s htable hnil
      · exact hback hincreasing
      · rw [tableStamps_of_late feeds s hparse hlate] at htable
        cases htable
    · obtain ⟨table, htable, hanswers⟩ := hsome src hsrc
      rw [htable, Option.getD_some]
      exact hanswers

end

end PineForge.MultiDay
