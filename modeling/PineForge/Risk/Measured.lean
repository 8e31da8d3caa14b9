import Mathlib
import PineForge.Risk.Ledger

/-!
# The measured ledger

The money and the days of the ledger against the points measured so far: one more point of the
current day, and the first point of a new one. What they stand for is the documented rule over the
history alone: the peak, the fills of the day, the streak of losing days and the blocks as functions
of what was measured and reported so far.
-/

namespace PineForge.Risk

/-! ## Measured points -/

/-- A point with its day, the equity marked there and the result it realized; a fill answers no
call. -/
structure Mark where
  day : ℤ
  equity : ℚ
  profit : ℚ
  call : Option Call
deriving DecidableEq, Repr

/-- The point of an entry, when it measures one. -/
def Entry.point? : Entry → Option Point
  | .filled point _ _ | .evaluated _ point _ => some point
  | .breached _ | .flattened | .inspected _ _ => none

/-- What an entry measures. -/
def Entry.mark? : Entry → Option Mark
  | .filled point profit equity => point.day.map fun day => ⟨day, equity, profit, none⟩
  | .evaluated call point equity => point.day.map fun day => ⟨day, equity, 0, some call⟩
  | .breached _ | .flattened | .inspected _ _ => none

/-- The measured points. -/
def marks (entries : List Entry) : List Mark := entries.filterMap Entry.mark?

/-- The current day is the day of the last point. -/
def today (ms : List Mark) : ℤ := (ms.getLast?.map (·.day)).getD 0

/-- The point is a fill. -/
def isFill (m : Mark) : Bool := m.call.isNone

/-- The fills since the first point of the current day. -/
def fillsSince (ms : List Mark) : ℕ := (ms.dropWhile fun m => m.day ≠ today ms).countP isFill

/-- What a day realized. -/
def realizedOn (ms : List Mark) (day : ℤ) : ℚ :=
  ((ms.filter fun m => m.day = day).map (·.profit)).sum

/-- The days of points. -/
def days (ms : List Mark) : Finset ℤ := (ms.map (·.day)).toFinset

/-- The days that closed with a loss and after which no day closed with a profit. -/
def losingDays (ms : List Mark) : Finset ℤ :=
  (days ms).filter fun day => day < today ms ∧ realizedOn ms day < 0 ∧
    ∀ later ∈ days ms, day < later → later < today ms → realizedOn ms later ≤ 0

/-- The equity at the first point of the current day. -/
def dayOpen (ms : List Mark) : ℚ := ((ms.find? fun m => m.day = today ms).map (·.equity)).getD 0

/-- The greatest equity so far. -/
def IsPeak (ms : List Mark) (peak : ℚ) : Prop :=
  IsGreatest { equity | ∃ m ∈ ms, m.equity = equity } peak

/-! ## Reported breaches -/

/-- The breach an entry reports. -/
def Entry.breach? : Entry → Option RiskEvent
  | .breached event => some event
  | _ => none

/-- The reported breaches. -/
def breaches (entries : List Entry) : List RiskEvent := entries.filterMap Entry.breach?

/-- A limit of the run was breached. -/
def runBreached (entries : List Entry) : Bool :=
  (breaches entries).any fun event => !event.kind.dayScope

/-- A limit of the day was breached on the current day. -/
def dayBreached (entries : List Entry) : Bool :=
  (breaches entries).any fun event => event.kind.dayScope && event.dayOrdinal
    = today (marks entries)

/-- The order in which the limits are declared. -/
def declared : List RiskLimitKind :=
  [.maxDrawdown, .maxIntradayLoss, .maxConsecutiveLossDays, .maxFillsPerDay]

/-- The threshold of the limit is reached at an equity. -/
def reached (limits : RiskLimits) (ms : List Mark) (peak equity : ℚ) (kind : RiskLimitKind) :
    Bool :=
  match kind with
  | .maxDrawdown => limits.maxDrawdown.any fun limit =>
      0 < limit.threshold peak ∧ limit.threshold peak ≤ peak - equity
  | .maxIntradayLoss => limits.maxIntradayLoss.any fun limit =>
      0 < limit.threshold (dayOpen ms) ∧ limit.threshold (dayOpen ms) ≤ dayOpen ms - equity
  | .maxConsecutiveLossDays => limits.maxConsecutiveLossDays.any fun limit =>
      limit ≤ min (losingDays ms).card maxLossDays
  | .maxFillsPerDay => limits.maxFillsPerDay.any fun limit => limit ≤ min (fillsSince ms) maxFills

/-- The scope of the limit is not blocked. A block of the run covers every day of it. -/
def unblocked (entries : List Entry) (kind : RiskLimitKind) : Bool :=
  !runBreached entries && !(kind.dayScope && dayBreached entries)

/-! ## Orderly histories -/

/-- Every point has a day, the days do not go back, and the first point of a day is the open of a
bar. -/
structure Orderly (entries : List Entry) : Prop where
  keyed : ∀ entry ∈ entries, (entry.point?.all fun point => point.day.isSome) = true
  sorted : (marks entries).Pairwise fun a b => a.day ≤ b.day
  opens : ∀ before m after, marks entries = before ++ m :: after → (∀ m' ∈ before, m'.day ≠ m.day) →
    m.call = some .barOpen

theorem marks_snoc (entries : List Entry) (entry : Entry) :
    marks (entries ++ [entry]) = marks entries ++ entry.mark?.toList := by
  unfold marks
  rw [List.filterMap_append, List.filterMap_cons, List.filterMap_nil]
  cases entry.mark? with
  | none => rfl
  | some m => rfl

theorem breaches_snoc (entries : List Entry) (entry : Entry) :
    breaches (entries ++ [entry]) = breaches entries ++ entry.breach?.toList := by
  unfold breaches
  rw [List.filterMap_append, List.filterMap_cons, List.filterMap_nil]
  cases entry.breach? with
  | none => rfl
  | some event => rfl

theorem today_snoc (ms : List Mark) (m : Mark) : today (ms ++ [m]) = m.day := by
  unfold today
  rw [List.getLast?_concat]
  rfl

namespace Orderly

variable {entries : List Entry} {entry : Entry}

theorem init (h : Orderly (entries ++ [entry])) : Orderly entries := by
  have hmarks := marks_snoc entries entry
  refine ⟨fun e he => h.keyed e (List.mem_append_left _ he), ?_, ?_⟩
  · have hsorted := h.sorted
    rw [hmarks, List.pairwise_append] at hsorted
    exact hsorted.1
  · intro before m after hsplit hnew
    refine h.opens before m (after ++ entry.mark?.toList) ?_ hnew
    rw [hmarks, hsplit, List.append_assoc, List.cons_append]

theorem le_last (h : Orderly (entries ++ [entry])) {m : Mark} (hm : entry.mark? = some m) :
    ∀ m' ∈ marks entries, m'.day ≤ m.day := by
  have hsorted := h.sorted
  rw [marks_snoc, hm, List.pairwise_append] at hsorted
  intro m' hm'
  exact hsorted.2.2 m' hm' m (List.mem_singleton_self m)

theorem call_of_new (h : Orderly (entries ++ [entry])) {m : Mark} (hm : entry.mark? = some m)
    (hnew : ∀ m' ∈ marks entries, m'.day ≠ m.day) : m.call = some .barOpen := by
  refine h.opens (marks entries) m [] ?_ hnew
  rw [marks_snoc, hm]
  rfl

end Orderly

/-! ## Ledgers that agree -/

/-- The days of the ledger are what the points measured so far say. -/
structure Dated (ms : List Mark) (net : ℚ) (l : RiskLedger) : Prop where
  net : net = (ms.map (·.profit)).sum
  hasDay : l.hasDay = true ↔ ms ≠ []
  day : ms ≠ [] → l.dayOrdinal = today ms
  realized : ms ≠ [] → l.dayOpenRealized
    = ((ms.filter fun m => m.day < today ms).map (·.profit)).sum
  opened : ms ≠ [] → l.dayOpenEquity = dayOpen ms
  fills : l.fillsToday = min (fillsSince ms) maxFills
  streak : l.consecutiveLossDays = min (losingDays ms).card maxLossDays

/-- The ledger is what the points measured so far say. -/
structure Measured (ms : List Mark) (net : ℚ) (l : RiskLedger) : Prop extends Dated ms net l where
  hasPeak : l.hasPeak = true ↔ ms ≠ []
  peak : ms ≠ [] → IsPeak ms l.peakEquity

theorem measured_nil : Measured [] 0 {} :=
  ⟨⟨rfl, ⟨nofun, fun h => absurd rfl h⟩, fun h => absurd rfl h, fun h => absurd rfl h,
    fun h => absurd rfl h,
    rfl, rfl⟩, ⟨nofun, fun h => absurd rfl h⟩, fun h => absurd rfl h⟩

section

variable {ms : List Mark} {m : Mark}

theorem exists_today (hms : ms ≠ []) : ∃ last ∈ ms, last.day = today ms := by
  refine ⟨ms.getLast hms, List.getLast_mem hms, ?_⟩
  unfold today
  rw [List.getLast?_eq_getLast_of_ne_nil hms]
  rfl

theorem ne_nil_snoc (ms : List Mark) (m : Mark) : ms ++ [m] ≠ [] :=
  List.append_ne_nil_of_right_ne_nil _ (List.cons_ne_nil _ _)

/-! ## The peak -/

theorem isPeak_singleton (m : Mark) : IsPeak ([] ++ [m]) m.equity := by
  refine ⟨⟨m, List.mem_singleton_self m, rfl⟩, ?_⟩
  rintro equity ⟨m', hm', rfl⟩
  rw [List.mem_singleton.mp hm']

theorem IsPeak.snoc {peak : ℚ} (h : IsPeak ms peak) (m : Mark) :
    IsPeak (ms ++ [m]) (if peak < m.equity then m.equity else peak) := by
  obtain ⟨⟨top, htop, hequity⟩, hupper⟩ := h
  have hle : ∀ m' ∈ ms, m'.equity ≤ peak := fun m' hm' => hupper ⟨m', hm', rfl⟩
  split
  · rename_i hlt
    refine ⟨⟨m, List.mem_append_right _ (List.mem_singleton_self m), rfl⟩, ?_⟩
    rintro equity ⟨m', hm', rfl⟩
    obtain hm' | hm' := List.mem_append.mp hm'
    · exact (hle m' hm').trans hlt.le
    · rw [List.mem_singleton.mp hm']
  · rename_i hge
    refine ⟨⟨top, List.mem_append_left _ htop, hequity⟩, ?_⟩
    rintro equity ⟨m', hm', rfl⟩
    obtain hm' | hm' := List.mem_append.mp hm'
    · exact hle m' hm'
    · rw [List.mem_singleton.mp hm']
      exact not_lt.mp hge

theorem IsPeak.unique {p q : ℚ} (h : IsPeak ms p) (h' : IsPeak ms q) : p = q :=
  IsGreatest.unique h h'

/-! ## One more point of the day -/

theorem realizedOn_snoc (ms : List Mark) (m : Mark) (day : ℤ) :
    realizedOn (ms ++ [m]) day = realizedOn ms day + if m.day = day then m.profit else 0 := by
  unfold realizedOn
  rw [List.filter_append, List.map_append, List.sum_append, List.filter_singleton]
  by_cases hday : m.day = day
  · rw [if_pos hday, decide_eq_true hday]
    exact congrArg _ (List.sum_singleton)
  · rw [if_neg hday, decide_eq_false hday]
    rfl

theorem days_snoc (ms : List Mark) (m : Mark) : days (ms ++ [m]) = insert m.day (days ms) := by
  unfold days
  rw [List.map_append, List.toFinset_append, Finset.union_comm]
  rfl

theorem mem_days {day : ℤ} : day ∈ days ms ↔ ∃ m ∈ ms, m.day = day := by
  unfold days
  rw [List.mem_toFinset, List.mem_map]

theorem fillsSince_same (hms : ms ≠ []) (hday : m.day = today ms) :
    fillsSince (ms ++ [m]) = fillsSince ms + if isFill m then 1 else 0 := by
  obtain ⟨last, hlast, htoday⟩ := exists_today hms
  unfold fillsSince
  rw [today_snoc, hday, List.dropWhile_append]
  have hne : (ms.dropWhile fun m => m.day ≠ today ms) ≠ [] := by
    rw [Ne, List.dropWhile_eq_nil_iff]
    intro hall
    have hfalse := hall last hlast
    rw [htoday] at hfalse
    exact (of_decide_eq_true hfalse) rfl
  rw [if_neg (by rw [List.isEmpty_iff]; exact hne), List.countP_append, List.countP_singleton]

theorem filter_lt_same (hday : m.day = today ms) :
    ((ms ++ [m]).filter fun m' => m'.day < today (ms ++ [m])) = ms.filter fun m' => m'.day
    < today ms := by
  rw [today_snoc, hday, List.filter_append, List.filter_singleton, hday,
    decide_eq_false (lt_irrefl _)]
  exact List.append_nil _

theorem dayOpen_same (hms : ms ≠ []) (hday : m.day = today ms) :
    dayOpen (ms ++ [m]) = dayOpen ms := by
  obtain ⟨last, hlast, htoday⟩ := exists_today hms
  unfold dayOpen
  rw [today_snoc, hday, List.find?_append]
  cases hfind : ms.find? fun m => m.day = today ms with
  | none =>
    have hfalse := List.find?_eq_none.mp hfind last hlast
    exact absurd (decide_eq_true htoday) hfalse
  | some found => rfl

theorem losingDays_same (hms : ms ≠ []) (hday : m.day = today ms) :
    losingDays (ms ++ [m]) = losingDays ms := by
  obtain ⟨last, hlast, htoday⟩ := exists_today hms
  have hdays : days (ms ++ [m]) = days ms := by
    rw [days_snoc, hday]
    exact Finset.insert_eq_of_mem (mem_days.mpr ⟨last, hlast, htoday⟩)
  have hrealized : ∀ day, day < today ms → realizedOn (ms ++ [m]) day = realizedOn ms day := by
    intro day hlt
    rw [realizedOn_snoc, if_neg (by omega), add_zero]
  unfold losingDays
  rw [hdays, today_snoc, hday]
  refine Finset.filter_congr fun day _ => ?_
  refine and_congr_right fun hlt => ?_
  rw [hrealized day hlt]
  refine and_congr_right fun _ => ?_
  refine forall₂_congr fun later _ => forall₂_congr fun _ hlt' => ?_
  rw [hrealized later hlt']

/-! ## The first point of a day -/

theorem fillsSince_new (hnew : ∀ m' ∈ ms, m'.day < m.day) :
    fillsSince (ms ++ [m]) = if isFill m then 1 else 0 := by
  unfold fillsSince
  rw [today_snoc, List.dropWhile_append]
  have hnil : (ms.dropWhile fun m' => m'.day ≠ m.day) = [] := by
    rw [List.dropWhile_eq_nil_iff]
    intro m' hm'
    exact decide_eq_true (hnew m' hm').ne
  rw [if_pos (by rw [List.isEmpty_iff]; exact hnil), List.dropWhile_cons_of_neg,
    List.countP_singleton]
  rw [decide_eq_true_eq]
  exact fun hne => hne rfl

theorem filter_lt_new (hnew : ∀ m' ∈ ms, m'.day < m.day) :
    ((ms ++ [m]).filter fun m' => m'.day < today (ms ++ [m])) = ms := by
  rw [today_snoc, List.filter_append, List.filter_singleton, decide_eq_false (lt_irrefl _)]
  rw [List.filter_eq_self.mpr fun m' hm' => decide_eq_true (hnew m' hm')]
  exact List.append_nil _

theorem dayOpen_new (hnew : ∀ m' ∈ ms, m'.day < m.day) : dayOpen (ms ++ [m]) = m.equity := by
  unfold dayOpen
  rw [today_snoc, List.find?_append]
  have hnone : (ms.find? fun m' => m'.day = m.day) = none := by
    rw [List.find?_eq_none]
    intro m' hm' heq
    exact (hnew m' hm').ne (of_decide_eq_true heq)
  rw [hnone, Option.none_or, List.find?_cons_of_pos (by rw [decide_eq_true_eq])]
  rfl

/-- The losing days when a new day begins. -/
theorem losingDays_new (hms : ms ≠ []) (hle : ∀ m' ∈ ms, m'.day ≤ today ms)
    (hnew : ∀ m' ∈ ms, m'.day < m.day) :
    losingDays (ms ++ [m]) =
      if realizedOn ms (today ms) < 0 then insert (today ms) (losingDays ms)
      else if 0 < realizedOn ms (today ms) then ∅
      else losingDays ms := by
  obtain ⟨last, hlast, htoday⟩ := exists_today hms
  have hlt : today ms < m.day := htoday ▸ hnew last hlast
  have hmem : today ms ∈ days ms := mem_days.mpr ⟨last, hlast, htoday⟩
  have hdays : ∀ day ∈ days ms, day ≤ today ms := by
    intro day hday
    obtain ⟨m', hm', rfl⟩ := mem_days.mp hday
    exact hle m' hm'
  have hrealized : ∀ day, day < m.day → realizedOn (ms ++ [m]) day = realizedOn ms day := by
    intro day hlt
    rw [realizedOn_snoc, if_neg (by omega), add_zero]
  -- the closed days are now all the days before
  have hclosed : ∀ day, day ∈ losingDays (ms ++ [m]) ↔
      day ∈ days ms ∧ realizedOn ms day < 0 ∧ ∀ later ∈ days ms, day < later →
        realizedOn ms later ≤ 0 := by
    intro day
    unfold losingDays
    rw [Finset.mem_filter, days_snoc, today_snoc, Finset.mem_insert]
    constructor
    · rintro ⟨hday, hbefore, hloss, hlater⟩
      have hday' : day ∈ days ms := hday.resolve_left hbefore.ne
      rw [hrealized day hbefore] at hloss
      refine ⟨hday', hloss, fun later hl hlt' => ?_⟩
      have hl' := hdays later hl
      have hresult := hlater later (Finset.mem_insert_of_mem hl) hlt' (by omega)
      rwa [hrealized later (by omega)] at hresult
    · rintro ⟨hday, hloss, hlater⟩
      have hday' := hdays day hday
      refine ⟨.inr hday, by omega, by rwa [hrealized day (by omega)],
        fun later hl hlt' hbefore => ?_⟩
      rw [hrealized later hbefore]
      exact hlater later ((Finset.mem_insert.mp hl).resolve_left hbefore.ne) hlt'
  have hold : ∀ day, day ∈ losingDays ms ↔
      day ∈ days ms ∧ day < today ms ∧ realizedOn ms day < 0 ∧
        ∀ later ∈ days ms, day < later → later < today ms → realizedOn ms later ≤ 0 := by
    intro day
    unfold losingDays
    rw [Finset.mem_filter]
  ext day
  rw [hclosed day]
  split
  · rename_i hloss
    rw [Finset.mem_insert, hold day]
    constructor
    · rintro ⟨hday, hneg, hlater⟩
      obtain heq | hlt' := eq_or_lt_of_le (hdays day hday)
      · exact .inl heq
      · exact .inr ⟨hday, hlt', hneg, fun later hl hl' _ => hlater later hl hl'⟩
    · rintro (rfl | ⟨hday, hlt', hneg, hlater⟩)
      · refine ⟨hmem, hloss, fun later hl hl' => ?_⟩
        exact absurd (hdays later hl) (not_le.mpr hl')
      · refine ⟨hday, hneg, fun later hl hl' => ?_⟩
        obtain rfl | hbefore := eq_or_lt_of_le (hdays later hl)
        · exact hloss.le
        · exact hlater later hl hl' hbefore
  · rename_i hnotloss
    split
    · rename_i hprofit
      refine ⟨?_, fun h => absurd h (Finset.notMem_empty day)⟩
      rintro ⟨hday, hneg, hlater⟩
      obtain rfl | hlt' := eq_or_lt_of_le (hdays day hday)
      · exact absurd hneg hnotloss
      · exact absurd (hlater _ hmem hlt') (not_le.mpr hprofit)
    · rename_i hnotprofit
      rw [hold day]
      constructor
      · rintro ⟨hday, hneg, hlater⟩
        obtain rfl | hlt' := eq_or_lt_of_le (hdays day hday)
        · exact absurd hneg hnotloss
        · exact ⟨hday, hlt', hneg, fun later hl hl' _ => hlater later hl hl'⟩
      · rintro ⟨hday, hlt', hneg, hlater⟩
        refine ⟨hday, hneg, fun later hl hl' => ?_⟩
        obtain rfl | hbefore := eq_or_lt_of_le (hdays later hl)
        · exact not_lt.mp hnotprofit
        · exact hlater later hl hl' hbefore

theorem today_notMem_losingDays : today ms ∉ losingDays ms := by
  unfold losingDays
  rw [Finset.mem_filter]
  exact fun h => lt_irrefl _ h.2.1

theorem realizedOn_today (hle : ∀ m' ∈ ms, m'.day ≤ today ms) :
    (ms.map (·.profit)).sum - ((ms.filter fun m => m.day < today ms).map (·.profit)).sum
      = realizedOn ms (today ms) := by
  unfold realizedOn
  generalize today ms = t at hle
  induction ms with
  | nil => exact sub_zero 0
  | cons m' rest ih =>
    have hrest := ih fun m'' hm'' => hle m'' (List.mem_cons_of_mem _ hm'')
    have hle' := hle m' List.mem_cons_self
    rw [List.map_cons, List.sum_cons]
    obtain heq | hlt := eq_or_lt_of_le hle'
    · rw [List.filter_cons_of_neg (by rw [decide_eq_true_eq]; omega),
        List.filter_cons_of_pos (by rw [decide_eq_true_eq]; exact heq), List.map_cons,
          List.sum_cons, ← hrest]
      ring
    · rw [List.filter_cons_of_pos (by rw [decide_eq_true_eq]; exact hlt),
        List.filter_cons_of_neg (by rw [decide_eq_true_eq]; omega), List.map_cons,
          List.sum_cons, ← hrest]
      ring

end

/-! ## The ledger at one more point -/

section

variable {ms : List Mark} {m : Mark} {net : ℚ} {l : RiskLedger}

theorem min_add_one (count limit : ℕ) :
    (if min count limit < limit then min count limit + 1 else min count limit)
    = min (count + 1) limit := by
  split
  · omega
  · omega

namespace Dated

theorem closeDay (h : Dated ms net l) (hle : ∀ m' ∈ ms, m'.day ≤ today ms)
    (hnew : ∀ m' ∈ ms, m'.day < m.day) :
    l.closeDay net = min (losingDays (ms ++ [m])).card maxLossDays := by
  unfold RiskLedger.closeDay
  by_cases hms : ms = []
  · have hhas : ¬l.hasDay = true := fun hhas => h.hasDay.mp hhas hms
    rw [if_neg hhas, h.streak, hms]
    have hempty : losingDays ([] ++ [m]) = ∅ := by
      unfold losingDays
      rw [days_snoc, today_snoc]
      refine Finset.filter_eq_empty_iff.mpr fun day hday hlosing => ?_
      rw [Finset.mem_insert] at hday
      exact absurd (hday.resolve_right (Finset.notMem_empty day)) hlosing.1.ne
    rw [hempty]
    rfl
  · rw [if_pos (h.hasDay.mpr hms), losingDays_new hms hle hnew, h.net, h.realized hms,
      realizedOn_today hle]
    dsimp only
    split
    · rw [Finset.card_insert_of_notMem today_notMem_losingDays, h.streak]
      exact min_add_one _ _
    · split
      · rfl
      · exact h.streak

theorem net_snoc (h : Dated ms net l) (m : Mark) :
    net + m.profit = ((ms ++ [m]).map (·.profit)).sum := by
  rw [List.map_append, List.sum_append, ← h.net, List.map_singleton, List.sum_singleton]

theorem same (h : Dated ms net l) (hms : ms ≠ []) (hday : m.day = today ms) :
    Dated (ms ++ [m]) (net + m.profit) (if isFill m then l.countFill else l) := by
  have hne := ne_nil_snoc ms m
  have htoday : today (ms ++ [m]) = today ms := (today_snoc ms m).trans hday
  have hcount : (if isFill m = true then l.countFill else l).fillsToday
      = min (fillsSince (ms ++ [m])) maxFills := by
    rw [fillsSince_same hms hday]
    split
    · change (if l.fillsToday < maxFills then l.fillsToday + 1 else l.fillsToday) = _
      rw [h.fills]
      exact min_add_one _ _
    · exact h.fills
  have hdated : ∀ l' : RiskLedger, l'.fillsToday = min (fillsSince (ms ++ [m])) maxFills →
      (∃ fills, l' = { l with fillsToday := fills }) → Dated (ms ++ [m]) (net + m.profit) l' := by
    rintro l' hfills ⟨fills, rfl⟩
    refine ⟨h.net_snoc m, ⟨fun _ => hne, fun _ => h.hasDay.mpr hms⟩, fun _ => ?_,
      fun _ => ?_, fun _ => ?_,
      hfills, ?_⟩
    · rw [htoday]
      exact h.day hms
    · rw [filter_lt_same hday]
      exact h.realized hms
    · rw [dayOpen_same hms hday]
      exact h.opened hms
    · rw [losingDays_same hms hday]
      exact h.streak
  refine hdated _ hcount ?_
  split
  · exact ⟨_, rfl⟩
  · exact ⟨l.fillsToday, rfl⟩

theorem roll (h : Dated ms net l) (hle : ∀ m' ∈ ms, m'.day ≤ today ms)
    (hnew : ∀ m' ∈ ms, m'.day < m.day)
    (hprofit : m.profit = 0) (hfill : isFill m = false) :
    Dated (ms ++ [m]) net (l.riskRollDay net m.day m.equity) := by
  have hne := ne_nil_snoc ms m
  have hnet := h.net_snoc m
  rw [hprofit, add_zero] at hnet
  refine ⟨hnet, ⟨fun _ => hne, fun _ => rfl⟩, fun _ => ?_, fun _ => ?_, fun _ => ?_, ?_,
    h.closeDay hle hnew⟩
  · exact (today_snoc ms m).symm
  · rw [filter_lt_new hnew]
    exact h.net
  · exact (dayOpen_new hnew).symm
  · rw [fillsSince_new hnew, hfill]
    rfl

theorem enterDay_same (h : Dated ms net l) (hms : ms ≠ []) (hday : m.day = today ms)
    (net' equity : ℚ) :
    l.enterDay net' (some m.day) equity = l := by
  unfold RiskLedger.enterDay
  dsimp only
  rw [h.hasDay.mpr hms, hday, h.day hms, Bool.not_true, Bool.false_or,
    decide_eq_false (fun hne => hne rfl)]
  rfl

theorem enterDay_new (h : Dated ms net l) (hnew : ∀ m' ∈ ms, m'.day < m.day) (net' equity : ℚ) :
    l.enterDay net' (some m.day) equity = l.riskRollDay net' m.day equity := by
  unfold RiskLedger.enterDay
  dsimp only
  refine if_pos ?_
  cases hhas : l.hasDay with
  | false => rfl
  | true =>
    have hms := h.hasDay.mp hhas
    obtain ⟨last, hlast, htoday⟩ := exists_today hms
    have hlt := hnew last hlast
    rw [Bool.not_true, Bool.false_or, h.day hms]
    exact decide_eq_true (by omega)

theorem notePeak (h : Dated ms net l) (equity : ℚ) : Dated ms net (l.notePeak equity) := by
  unfold RiskLedger.notePeak
  split
  · exact ⟨h.net, h.hasDay, h.day, h.realized, h.opened, h.fills, h.streak⟩
  · exact h

end Dated

theorem Measured.notePeak {l' : RiskLedger} {net' : ℚ} (h : Measured ms net l)
    (h' : Dated (ms ++ [m]) net' l')
    (hhas : l'.hasPeak = l.hasPeak) (hpeak : l'.peakEquity = l.peakEquity) :
    Measured (ms ++ [m]) net' (l'.notePeak m.equity) := by
  have hjoin : (l'.notePeak m.equity).hasPeak = true ∧
      IsPeak (ms ++ [m]) (l'.notePeak m.equity).peakEquity := by
    unfold RiskLedger.notePeak
    cases hl : l'.hasPeak with
    | false =>
      have hms : ms = [] := by
        by_contra hne
        rw [hhas, h.hasPeak.mpr hne] at hl
        cases hl
      rw [hms]
      exact ⟨rfl, isPeak_singleton m⟩
    | true =>
      have hsnoc := (h.peak (h.hasPeak.mp (hhas ▸ hl))).snoc m
      rw [Bool.not_true, Bool.false_or, hpeak]
      split
      · rename_i hlt
        rw [if_pos (of_decide_eq_true hlt)] at hsnoc
        exact ⟨rfl, hsnoc⟩
      · rename_i hge
        rw [if_neg (fun hlt => hge (decide_eq_true hlt)), ← hpeak] at hsnoc
        exact ⟨hl, hsnoc⟩
  exact ⟨h'.notePeak m.equity, ⟨fun _ => ne_nil_snoc ms m, fun _ => hjoin.1⟩, fun _ => hjoin.2⟩

theorem Measured.measure (h : Measured ms net l) (hle : ∀ m' ∈ ms, m'.day ≤ today ms)
    (hlast : ∀ m' ∈ ms, m'.day ≤ m.day) (hprofit : m.profit = 0) (hfill : isFill m = false) :
    Measured (ms ++ [m]) net (l.measure net (some m.day) m.equity) := by
  unfold RiskLedger.measure
  by_cases hsame : ms ≠ [] ∧ m.day = today ms
  · obtain ⟨hms, hday⟩ := hsame
    have hdated := h.toDated.same hms hday
    rw [hprofit, add_zero, hfill] at hdated
    rw [h.enterDay_same hms hday]
    exact h.notePeak hdated rfl rfl
  · have hnew : ∀ m' ∈ ms, m'.day < m.day := by
      intro m' hm'
      have hms := List.ne_nil_of_mem hm'
      obtain ⟨last, hlast', htoday⟩ := exists_today hms
      have hne : m.day ≠ today ms := fun heq => hsame ⟨hms, heq⟩
      have hle' := hle m' hm'
      have hlast'' := hlast last hlast'
      omega
    rw [h.enterDay_new hnew]
    exact h.notePeak (h.toDated.roll hle hnew hprofit hfill) rfl rfl

theorem Measured.riskNoteFill (h : Measured ms net l) (hms : ms ≠ []) (hday : m.day = today ms)
    (hfill : isFill m = true) :
    Measured (ms ++ [m]) (net + m.profit)
      (l.riskNoteFill (net + m.profit) (some m.day) m.equity) := by
  unfold RiskLedger.riskNoteFill
  have hdated := h.toDated.same hms hday
  rw [hfill, if_pos rfl] at hdated
  rw [h.enterDay_same hms hday]
  exact h.notePeak hdated rfl rfl

end

end PineForge.Risk
