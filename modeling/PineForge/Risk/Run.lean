import Mathlib
import PineForge.Risk.Measured

/-!
# Runs of the ledger

Every ledger of a run, those inside the frame of a flatten included, is what the history before it
says, and every breach, flatten and admission in the history is the one the rule asks for.
-/

namespace PineForge.Risk

/-! ## Blocks -/

/-- The blocks of the ledger are the breaches reported so far. -/
structure Blocked (entries : List Entry) (l : RiskLedger) : Prop where
  run : l.runBlock.isSome = runBreached entries
  latest : ∀ event ∈ breaches entries, event.kind.dayScope = true →
    l.dayBlock.isSome = true ∧ event.dayOrdinal ≤ l.dayBlockDay
  found : l.dayBlock.isSome = true →
    ∃ event ∈ breaches entries, event.kind.dayScope = true ∧ event.dayOrdinal = l.dayBlockDay
  behind : l.dayBlock.isSome = true → marks entries ≠ [] ∧ l.dayBlockDay ≤ today (marks entries)

/-- The ledger says what the entries do. -/
structure Agrees (entries : List Entry) (net : ℚ) (l : RiskLedger) : Prop where
  measured : Measured (marks entries) net l
  blocked : Blocked entries l

namespace Agrees

variable {entries : List Entry} {net : ℚ} {l : RiskLedger}

theorem start : Agrees [] 0 {} := ⟨measured_nil, rfl, nofun, nofun, nofun⟩

theorem dayBlocked (h : Agrees entries net l) : l.dayBlocked = dayBreached entries := by
  rw [Bool.eq_iff_iff]
  unfold RiskLedger.dayBlocked dayBreached
  rw [Bool.and_eq_true, Bool.and_eq_true, decide_eq_true_eq, List.any_eq_true]
  constructor
  · rintro ⟨⟨hsome, hhas⟩, hday⟩
    obtain ⟨event, hevent, hscope, heq⟩ := h.blocked.found hsome
    refine ⟨event, hevent, ?_⟩
    rw [hscope, Bool.true_and, decide_eq_true_eq, heq, ← hday]
    exact h.measured.day (h.measured.hasDay.mp hhas)
  · rintro ⟨event, hevent, hboth⟩
    rw [Bool.and_eq_true, decide_eq_true_eq] at hboth
    obtain ⟨hsome, hle⟩ := h.blocked.latest event hevent hboth.1
    obtain ⟨hms, hbehind⟩ := h.blocked.behind hsome
    refine ⟨⟨hsome, h.measured.hasDay.mpr hms⟩, ?_⟩
    rw [h.measured.day hms]
    omega

theorem riskBlocked (h : Agrees entries net l) :
    l.riskBlocked = (runBreached entries || dayBreached entries) := by
  unfold RiskLedger.riskBlocked
  rw [h.blocked.run, h.dayBlocked]

end Agrees

theorem measure_blocks (net : ℚ) (day : Option ℤ) (equity : ℚ) (l : RiskLedger) :
    (l.measure net day equity).runBlock = l.runBlock ∧ (l.measure net day equity).dayBlock
    = l.dayBlock ∧
      (l.measure net day equity).dayBlockDay = l.dayBlockDay := by
  unfold RiskLedger.measure RiskLedger.notePeak RiskLedger.enterDay
  cases day with
  | none =>
    dsimp only
    split
    · exact ⟨rfl, rfl, rfl⟩
    · exact ⟨rfl, rfl, rfl⟩
  | some day =>
    dsimp only
    split
    · split
      · exact ⟨rfl, rfl, rfl⟩
      · exact ⟨rfl, rfl, rfl⟩
    · split
      · exact ⟨rfl, rfl, rfl⟩
      · exact ⟨rfl, rfl, rfl⟩

theorem riskNoteFill_blocks (net : ℚ) (day : Option ℤ) (equity : ℚ) (l : RiskLedger) :
    (l.riskNoteFill net day equity).runBlock = l.runBlock ∧
      (l.riskNoteFill net day equity).dayBlock = l.dayBlock ∧
      (l.riskNoteFill net day equity).dayBlockDay = l.dayBlockDay := by
  unfold RiskLedger.riskNoteFill RiskLedger.notePeak RiskLedger.countFill RiskLedger.enterDay
  cases day with
  | none =>
    dsimp only
    split
    · exact ⟨rfl, rfl, rfl⟩
    · exact ⟨rfl, rfl, rfl⟩
  | some day =>
    dsimp only
    split
    · split
      · exact ⟨rfl, rfl, rfl⟩
      · exact ⟨rfl, rfl, rfl⟩
    · split
      · exact ⟨rfl, rfl, rfl⟩
      · exact ⟨rfl, rfl, rfl⟩

theorem Blocked.point {entries : List Entry} {entry : Entry} {m : Mark} {l l' : RiskLedger}
    (h : Blocked entries l) (hmark : entry.mark? = some m) (hbreach : entry.breach? = none)
    (hlast : ∀ m' ∈ marks entries, m'.day ≤ m.day)
    (hsame : l'.runBlock = l.runBlock ∧ l'.dayBlock = l.dayBlock ∧ l'.dayBlockDay = l.dayBlockDay) :
    Blocked (entries ++ [entry]) l' := by
  have hbreaches : breaches (entries ++ [entry]) = breaches entries := by
    rw [breaches_snoc, hbreach]
    exact List.append_nil _
  obtain ⟨hrun, hday, hdayday⟩ := hsame
  refine ⟨?_, ?_, ?_, ?_⟩
  · unfold runBreached
    rw [hrun, hbreaches]
    exact h.run
  · rw [hbreaches, hday, hdayday]
    exact h.latest
  · rw [hbreaches, hday, hdayday]
    exact h.found
  · intro hsome
    rw [hday] at hsome
    obtain ⟨hms, hle⟩ := h.behind hsome
    obtain ⟨last, hlast', htoday⟩ := exists_today hms
    rw [marks_snoc, hmark, hdayday]
    refine ⟨ne_nil_snoc _ m, ?_⟩
    have htoday' : today (marks entries ++ (some m).toList) = m.day := today_snoc _ m
    rw [htoday']
    have hle' := hlast last hlast'
    omega

theorem Agrees.quiet {entries : List Entry} {entry : Entry} {net : ℚ} {l : RiskLedger}
    (h : Agrees entries net l) (hmark : entry.mark? = none) (hbreach : entry.breach? = none) :
    Agrees (entries ++ [entry]) net l := by
  have hmarks : marks (entries ++ [entry]) = marks entries := by
    rw [marks_snoc, hmark]
    exact List.append_nil _
  have hbreaches : breaches (entries ++ [entry]) = breaches entries := by
    rw [breaches_snoc, hbreach]
    exact List.append_nil _
  refine ⟨?_, ?_, ?_, ?_, ?_⟩
  · rw [hmarks]
    exact h.measured
  · unfold runBreached
    rw [hbreaches]
    exact h.blocked.run
  · rw [hbreaches]
    exact h.blocked.latest
  · rw [hbreaches]
    exact h.blocked.found
  · rw [hmarks]
    exact h.blocked.behind

/-! ## The first limit reached -/

section

variable {limits : RiskLimits} {equity : ℚ} {l : RiskLedger}

theorem lossBreach_kind (kind : RiskLimitKind) (limit : Option LossLimit) (basis : ℚ) :
    (lossBreach equity l kind limit basis).map (·.kind) =
      if limit.any (fun limit => 0 < limit.threshold basis ∧
        limit.threshold basis ≤ basis - equity) then
        some kind
      else none := by
  unfold lossBreach
  cases limit with
  | none => rfl
  | some limit =>
    dsimp only [Option.any]
    by_cases hreached : 0 < limit.threshold basis ∧ limit.threshold basis ≤ basis - equity
    · rw [if_pos hreached, if_pos (decide_eq_true hreached)]
      rfl
    · rw [if_neg hreached, if_neg (fun h => hreached (of_decide_eq_true h))]
      rfl

theorem countBreach_kind (kind : RiskLimitKind) (limit : Option ℕ) (count : ℕ) :
    (countBreach l kind limit count).map (·.kind) =
      if limit.any (fun limit => limit ≤ count) then some kind else none := by
  unfold countBreach
  cases limit with
  | none => rfl
  | some limit =>
    dsimp only [Option.any]
    by_cases hreached : limit ≤ count
    · rw [if_pos hreached, if_pos (decide_eq_true hreached)]
      rfl
    · rw [if_neg hreached, if_neg (fun h => hreached (of_decide_eq_true h))]
      rfl

end

/-- The limit that an evaluation reports, by the rule. -/
def firstReached (limits : RiskLimits) (entries : List Entry) (peak equity : ℚ) :
    Option RiskLimitKind :=
  declared.find? fun kind => unblocked entries kind && reached limits
    (marks entries) peak equity kind

/-- The first breach is of the limit reached first. -/
theorem Agrees.firstBreach {entries : List Entry} {net : ℚ} {l : RiskLedger}
    (h : Agrees entries net l)
    (hms : marks entries ≠ []) (limits : RiskLimits) (equity : ℚ) {peak : ℚ}
    (hpeak : IsPeak (marks entries) peak) :
    (firstBreach limits equity l).map (·.kind) = firstReached limits entries peak equity := by
  have hpeak' : l.peakEquity = peak := (h.measured.peak hms).unique hpeak
  have hdrawdown := @lossBreach_kind equity l .maxDrawdown limits.maxDrawdown l.peakEquity
  have hintraday := @lossBreach_kind equity l .maxIntradayLoss limits.maxIntradayLoss
    l.dayOpenEquity
  have hdays := @countBreach_kind l .maxConsecutiveLossDays limits.maxConsecutiveLossDays
    l.consecutiveLossDays
  have hfills := @countBreach_kind l .maxFillsPerDay limits.maxFillsPerDay l.fillsToday
  rw [h.measured.streak] at hdays
  rw [h.measured.fills] at hfills
  rw [h.measured.opened hms] at hintraday
  rw [hpeak'] at hdrawdown
  unfold Risk.firstBreach
  rw [h.measured.hasPeak.mpr hms, h.measured.hasDay.mpr hms, h.blocked.run, h.dayBlocked,
    h.measured.streak, h.measured.fills, h.measured.opened hms, hpeak']
  rw [apply_ite (Option.map _), Option.map_or, Option.map_or, Option.map_or,
    apply_ite (Option.map _), apply_ite (Option.map _), apply_ite (Option.map _),
      hdrawdown, hintraday,
    hdays, hfills]
  unfold firstReached declared unblocked reached
  rw [List.find?_cons, List.find?_cons, List.find?_cons, List.find?_cons, List.find?_nil]
  dsimp only [RiskLimitKind.dayScope]
  generalize limits.maxDrawdown.any _ = drawdown
  generalize limits.maxIntradayLoss.any _ = intraday
  generalize limits.maxConsecutiveLossDays.any _ = lossDays
  generalize limits.maxFillsPerDay.any _ = fills
  generalize runBreached entries = run
  generalize dayBreached entries = day
  cases run with
  | true => rfl
  | false =>
    cases drawdown with
    | true => rfl
    | false =>
      cases day with
      | true =>
        cases lossDays with
        | true => rfl
        | false => rfl
      | false =>
        cases intraday with
        | true => rfl
        | false =>
          cases lossDays with
          | true => rfl
          | false =>
            cases fills with
            | true => rfl
            | false => rfl

/-! ## Histories -/

/-- A ledger as the documentation describes it, over the entries before it. -/
structure Follows (entries : List Entry) (l : RiskLedger) : Prop where
  peak : marks entries ≠ [] → IsPeak (marks entries) l.peakEquity
  fills : l.fillsToday = min (fillsSince (marks entries)) maxFills
  streak : l.consecutiveLossDays = min (losingDays (marks entries)).card maxLossDays
  blocked : l.riskBlocked = (runBreached entries || dayBreached entries)

theorem Agrees.follows {entries : List Entry} {net : ℚ} {l : RiskLedger}
    (h : Agrees entries net l) :
    Follows entries l :=
  ⟨h.measured.peak, h.measured.fills, h.measured.streak, h.riskBlocked⟩

/-- Every entry has its place: a breach right after an evaluation, a flatten right after a breach,
and an inspection that admits an opening exactly when nothing blocks it. -/
structure Kept (limits : RiskLimits) (m : Machine) : Prop where
  agrees : Agrees m.entries m.netProfitSum m.ledger
  followed : ∀ i entry l, m.history[i]? = some (entry, l) → Follows (m.entries.take (i + 1)) l
  attributed : ∀ i event, m.entries[i]? = some (.breached event) →
    ∃ j call point equity, i = j + 1 ∧ m.entries[j]? = some (.evaluated call point equity)
  issued : ∀ i, m.entries[i]? = some .flattened →
    limits.action = .flattenAndBlock ∧ ∃ j event, i = j + 1 ∧ m.entries[j]? = some (.breached event)
  gated : ∀ i wouldOpen admitted, m.entries[i]? = some (.inspected wouldOpen admitted) →
    admitted = (!wouldOpen || !(runBreached (m.entries.take i) || dayBreached (m.entries.take i)))

/-- The kind an entry reports. -/
def reportedKind : Option Entry → Option RiskLimitKind
  | some (.breached event) => some event.kind
  | _ => none

/-- Every evaluation reports the first limit of the rule, or none. -/
def Reports (limits : RiskLimits) (entries : List Entry) : Prop :=
  ∀ i call point equity, entries[i]? = some (.evaluated call point equity) →
    ∀ peak, IsPeak (marks (entries.take (i + 1))) peak →
      reportedKind entries[i + 1]? = firstReached limits (entries.take (i + 1)) peak equity

section

variable {α : Type} {xs : List α} {x : α}

theorem getElem?_snoc {i : ℕ} {y : α} (h : (xs ++ [x])[i]? = some y) :
    (i < xs.length ∧ xs[i]? = some y) ∨ (i = xs.length ∧ y = x) := by
  obtain hlt | hge := Nat.lt_or_ge i xs.length
  · rw [List.getElem?_append_left hlt] at h
    exact .inl ⟨hlt, h⟩
  · rw [List.getElem?_append_right hge, List.getElem?_singleton] at h
    split at h
    · rename_i hzero
      cases h
      exact .inr ⟨by omega, rfl⟩
    · cases h

theorem getElem?_left {i : ℕ} {y : α} (h : xs[i]? = some y) : (xs ++ [x])[i]? = some y := by
  rw [List.getElem?_append_left (List.getElem?_eq_some_iff.mp h).1]
  exact h

theorem take_snoc {i : ℕ} (h : i < xs.length) : (xs ++ [x]).take (i + 1) = xs.take (i + 1) :=
  List.take_append_of_le_length h

end

namespace Kept

variable {limits : RiskLimits} {m m' : Machine} {entry : Entry}

theorem start : Kept limits .start := by
  have hnil : ∀ (i : ℕ) (step : Entry × RiskLedger), Machine.start.history[i]? ≠ some step := by
    intro i step hget
    have hnone : Machine.start.history[i]? = none := List.getElem?_nil
    rw [hnone] at hget
    cases hget
  have hnil' : ∀ (i : ℕ) (entry : Entry), Machine.start.entries[i]? ≠ some entry := by
    intro i entry hget
    have hnone : Machine.start.entries[i]? = none := List.getElem?_nil
    rw [hnone] at hget
    cases hget
  exact ⟨Agrees.start, fun i _ _ hget => absurd hget (hnil i _),
    fun i _ hget => absurd hget (hnil' i _),
    fun i hget => absurd hget (hnil' i _), fun i _ _ hget => absurd hget (hnil' i _)⟩

/-- One more entry. -/
theorem snoc (h : Kept limits m) (hhistory : m'.history = m.history ++ [(entry, m'.ledger)])
    (hagrees : Agrees (m.entries ++ [entry]) m'.netProfitSum m'.ledger)
    (hbreach : ∀ event, entry = .breached event →
      ∃ j call point equity, m.entries.length = j + 1 ∧ m.entries[j]?
        = some (.evaluated call point equity))
    (hflatten : entry = .flattened → limits.action = .flattenAndBlock ∧
      ∃ j event, m.entries.length = j + 1 ∧ m.entries[j]? = some (.breached event))
    (hgate : ∀ wouldOpen admitted, entry = .inspected wouldOpen admitted →
      admitted = (!wouldOpen || !(runBreached m.entries || dayBreached m.entries))) :
    Kept limits m' := by
  have hentries : m'.entries = m.entries ++ [entry] := by
    unfold Machine.entries
    rw [hhistory, List.map_append]
    rfl
  have hlength : m.history.length = m.entries.length := (List.length_map _).symm
  have hall : (m.entries ++ [entry]).take (m.entries.length + 1) = m.entries ++ [entry] :=
    List.take_of_length_le (by rw [List.length_append]; rfl)
  refine ⟨?_, ?_, ?_, ?_, ?_⟩
  · rw [hentries]
    exact hagrees
  · intro i entry' l hget
    rw [hhistory] at hget
    rw [hentries]
    obtain ⟨hlt, hget⟩ | ⟨rfl, heq⟩ := getElem?_snoc hget
    · rw [take_snoc (hlength ▸ hlt)]
      exact h.followed i entry' l hget
    · cases heq
      rw [hlength, hall]
      exact hagrees.follows
  · intro i event hget
    rw [hentries] at hget ⊢
    obtain ⟨-, hget⟩ | ⟨rfl, rfl⟩ := getElem?_snoc hget
    · obtain ⟨j, call, point, equity, hi, hj⟩ := h.attributed i event hget
      exact ⟨j, call, point, equity, hi, getElem?_left hj⟩
    · obtain ⟨j, call, point, equity, hi, hj⟩ := hbreach event rfl
      exact ⟨j, call, point, equity, hi, getElem?_left hj⟩
  · intro i hget
    rw [hentries] at hget ⊢
    obtain ⟨-, hget⟩ | ⟨rfl, heq⟩ := getElem?_snoc hget
    · obtain ⟨haction, j, event, hi, hj⟩ := h.issued i hget
      exact ⟨haction, j, event, hi, getElem?_left hj⟩
    · obtain ⟨haction, j, event, hi, hj⟩ := hflatten heq.symm
      exact ⟨haction, j, event, hi, getElem?_left hj⟩
  · intro i wouldOpen admitted hget
    rw [hentries] at hget ⊢
    obtain ⟨hlt, hget⟩ | ⟨rfl, heq⟩ := getElem?_snoc hget
    · rw [List.take_append_of_le_length hlt.le]
      exact h.gated i wouldOpen admitted hget
    · rw [List.take_left]
      exact hgate wouldOpen admitted heq.symm

end Kept

/-! ## One more entry -/

theorem le_today {ms : List Mark} (h : ms.Pairwise fun a b => a.day ≤ b.day) :
    ∀ m ∈ ms, m.day ≤ today ms := by
  intro m hm
  obtain ⟨init, last, rfl⟩ := (List.eq_nil_or_concat' ms).resolve_left (List.ne_nil_of_mem hm)
  rw [today_snoc]
  rw [List.pairwise_append] at h
  obtain hm | hm := List.mem_append.mp hm
  · exact h.2.2 m hm last (List.mem_singleton_self last)
  · rw [List.mem_singleton.mp hm]

section

variable {entries : List Entry} {net : ℚ} {l : RiskLedger}

theorem Agrees.filled (h : Agrees entries net l) {point : Point} {profit equity : ℚ}
    (horderly : Orderly (entries ++ [.filled point profit equity])) :
    Agrees (entries ++ [.filled point profit equity]) (net + profit)
      (l.riskNoteFill (net + profit) point.day equity) := by
  obtain ⟨day, hday⟩ := Option.isSome_iff_exists.mp (horderly.keyed (.filled point profit equity)
    (List.mem_append_right _ (List.mem_singleton_self _)))
  have hmark : Entry.mark? (.filled point profit equity) = some ⟨day, equity, profit, none⟩ := by
    unfold Entry.mark?
    dsimp only
    rw [hday]
    rfl
  have hle := le_today horderly.init.sorted
  have hlast := horderly.le_last hmark
  -- a fill is never the first point of its day
  have hold : ∃ m' ∈ marks entries, m'.day = day := by
    by_contra hnone
    have hcall := horderly.call_of_new hmark fun m' hm' heq => hnone ⟨m', hm', heq⟩
    cases hcall
  obtain ⟨m', hm', hday'⟩ := hold
  have hms : marks entries ≠ [] := List.ne_nil_of_mem hm'
  have htoday : day = today (marks entries) := by
    obtain ⟨last, hlast', htoday⟩ := exists_today hms
    have hle' := hle m' hm'
    have hlast'' := hlast last hlast'
    dsimp only at hlast''
    omega
  refine ⟨?_, h.blocked.point hmark rfl hlast (riskNoteFill_blocks _ _ _ _)⟩
  rw [marks_snoc, hmark, hday]
  exact Measured.riskNoteFill (m := ⟨day, equity, profit, none⟩) h.measured hms htoday rfl

theorem Agrees.evaluated (h : Agrees entries net l) {call : Call} {point : Point} {equity : ℚ}
    (horderly : Orderly (entries ++ [.evaluated call point equity])) :
    Agrees (entries ++ [.evaluated call point equity]) net (l.measure net point.day equity) ∧
      marks (entries ++ [.evaluated call point equity]) ≠ [] := by
  obtain ⟨day, hday⟩ := Option.isSome_iff_exists.mp (horderly.keyed (.evaluated call point equity)
    (List.mem_append_right _ (List.mem_singleton_self _)))
  have hmark : Entry.mark? (.evaluated call point equity) = some ⟨day, equity, 0, some call⟩ := by
    unfold Entry.mark?
    dsimp only
    rw [hday]
    rfl
  have hlast := horderly.le_last hmark
  rw [marks_snoc, hmark]
  refine ⟨⟨?_, h.blocked.point hmark rfl hlast (measure_blocks _ _ _ _)⟩, ne_nil_snoc _ _⟩
  rw [marks_snoc, hmark, hday]
  exact Measured.measure (m := ⟨day, equity, 0, some call⟩) h.measured
    (le_today horderly.init.sorted) hlast
    rfl rfl

/-- A breach is of the current day. -/
theorem firstBreach_day {limits : RiskLimits} {equity : ℚ} {event : RiskEvent}
    (h : firstBreach limits equity l = some event) (hday : l.hasDay = true) :
    event.dayOrdinal = l.dayOrdinal := by
  have hloss : ∀ kind limit basis, lossBreach equity l kind limit basis = some event →
      event.dayOrdinal = l.dayOrdinal := by
    intro kind limit basis hloss
    unfold lossBreach at hloss
    split at hloss
    · cases hloss
    · rw [if_pos hday] at hloss
      split at hloss
      · cases hloss
        rfl
      · cases hloss
  have hcount : ∀ kind limit count, countBreach l kind limit count = some event →
      event.dayOrdinal = l.dayOrdinal := by
    intro kind limit count hcount
    unfold countBreach at hcount
    split at hcount
    · cases hcount
    · rw [if_pos hday] at hcount
      split at hcount
      · cases hcount
        rfl
      · cases hcount
  unfold firstBreach at h
  split at h
  · cases h
  · rw [Option.or_eq_some_iff, Option.or_eq_some_iff, Option.or_eq_some_iff] at h
    obtain h | ⟨-, h | ⟨-, h | ⟨-, h⟩⟩⟩ := h
    · split at h
      · exact hloss _ _ _ h
      · cases h
    · split at h
      · exact hloss _ _ _ h
      · cases h
    · exact hcount _ _ _ h
    · split at h
      · exact hcount _ _ _ h
      · cases h

/-- A breach blocks as its kind does. -/
theorem Agrees.breached (h : Agrees entries net l) (hms : marks entries ≠ []) {event : RiskEvent}
    (hday : event.dayOrdinal = l.dayOrdinal) :
    Agrees (entries ++ [.breached event]) net (l.latch event.kind) := by
  have hmarks : marks (entries ++ [.breached event]) = marks entries := by
    rw [marks_snoc]
    exact List.append_nil _
  have hbreaches : breaches (entries ++ [.breached event]) = breaches entries ++ [event] :=
    breaches_snoc _ _
  have hrun : runBreached (entries ++ [.breached event])
      = (runBreached entries || !event.kind.dayScope) := by
    unfold runBreached
    rw [hbreaches, List.any_append]
    exact congrArg _ (Bool.or_false _)
  have htoday := h.measured.day hms
  unfold RiskLedger.latch
  cases hscope : event.kind.dayScope with
  | true =>
    rw [hscope, Bool.not_true, Bool.or_false] at hrun
    rw [if_pos rfl]
    refine ⟨?_, ?_, ?_, ?_, ?_⟩
    · rw [hmarks]
      exact ⟨⟨h.measured.net, h.measured.hasDay, h.measured.day, h.measured.realized,
        h.measured.opened,
        h.measured.fills, h.measured.streak⟩, h.measured.hasPeak, h.measured.peak⟩
    · rw [hrun]
      exact h.blocked.run
    · intro event' hevent' hscope'
      refine ⟨rfl, ?_⟩
      change event'.dayOrdinal ≤ l.dayOrdinal
      rw [hbreaches] at hevent'
      obtain hevent' | hevent' := List.mem_append.mp hevent'
      · obtain ⟨hsome, hle⟩ := h.blocked.latest event' hevent' hscope'
        have hbehind := (h.blocked.behind hsome).2
        omega
      · rw [List.mem_singleton.mp hevent', hday]
    · intro _
      rw [hbreaches]
      exact ⟨event, List.mem_append_right _ (List.mem_singleton_self event), hscope, hday⟩
    · intro _
      rw [hmarks]
      exact ⟨hms, htoday.le⟩
  | false =>
    rw [hscope, Bool.not_false, Bool.or_true] at hrun
    rw [if_neg Bool.false_ne_true]
    refine ⟨?_, ?_, ?_, ?_, ?_⟩
    · rw [hmarks]
      exact ⟨⟨h.measured.net, h.measured.hasDay, h.measured.day, h.measured.realized,
        h.measured.opened,
        h.measured.fills, h.measured.streak⟩, h.measured.hasPeak, h.measured.peak⟩
    · rw [hrun]
      rfl
    · intro event' hevent' hscope'
      rw [hbreaches] at hevent'
      obtain hevent' | hevent' := List.mem_append.mp hevent'
      · exact h.blocked.latest event' hevent' hscope'
      · rw [List.mem_singleton.mp hevent', hscope] at hscope'
        cases hscope'
    · intro hsome
      obtain ⟨event', hevent', hfound⟩ := h.blocked.found hsome
      rw [hbreaches]
      exact ⟨event', List.mem_append_left _ hevent', hfound⟩
    · rw [hmarks]
      exact h.blocked.behind

end

/-! ## Reports -/

namespace Reports

variable {limits : RiskLimits} {entries : List Entry} {entry : Entry}

/-- An entry that is no breach leaves the reports before it, and reports nothing itself. -/
theorem snoc (h : Reports limits entries) (hbreach : entry.breach? = none)
    (hnone : ∀ call point equity, entry = .evaluated call point equity →
      ∀ peak, IsPeak (marks (entries ++ [entry])) peak →
        firstReached limits (entries ++ [entry]) peak equity = none) :
    Reports limits (entries ++ [entry]) := by
  have hquiet : reportedKind (some entry) = none := by
    cases entry with
    | breached event => cases hbreach
    | _ => rfl
  intro i call point equity hget peak hpeak
  obtain ⟨hlt, hget⟩ | ⟨rfl, heq⟩ := getElem?_snoc hget
  · rw [take_snoc hlt] at hpeak ⊢
    rw [← h i call point equity hget peak hpeak]
    obtain hlt' | heq := Nat.lt_or_eq_of_le (Nat.succ_le_of_lt hlt)
    · rw [List.getElem?_append_left hlt']
    · have hnext : (entries ++ [entry])[i + 1]? = some entry := by
        rw [show i + 1 = entries.length from heq]
        exact List.getElem?_concat_length
      have hend : entries[i + 1]? = none := List.getElem?_eq_none (by omega)
      rw [hnext, hend, hquiet]
      rfl
  · have hall : (entries ++ [entry]).take (entries.length + 1) = entries ++ [entry] :=
      List.take_of_length_le (by rw [List.length_append]; rfl)
    have hend : (entries ++ [entry])[entries.length + 1]? = none :=
      List.getElem?_eq_none (by rw [List.length_append]; rfl)
    rw [hall] at hpeak ⊢
    rw [hend, hnone call point equity heq.symm peak hpeak]
    rfl

theorem breached (h : Reports limits entries) {call : Call} {point : Point} {equity : ℚ}
    {event : RiskEvent}
    (hfirst : ∀ peak, IsPeak (marks (entries ++ [.evaluated call point equity])) peak →
      firstReached limits (entries ++ [.evaluated call point equity]) peak equity
        = some event.kind) :
    Reports limits (entries ++ [.evaluated call point equity] ++ [.breached event]) := by
  have hlength : (entries ++ [Entry.evaluated call point equity]).length = entries.length + 1 :=
    List.length_append
  intro i call' point' equity' hget peak hpeak
  obtain ⟨hlt, hget⟩ | ⟨-, heq⟩ := getElem?_snoc hget
  · rw [take_snoc hlt] at hpeak ⊢
    obtain ⟨hlt', hget⟩ | ⟨rfl, heq⟩ := getElem?_snoc hget
    · rw [take_snoc hlt'] at hpeak ⊢
      rw [← h i call' point' equity' hget peak hpeak]
      rw [List.getElem?_append_left (by omega)]
      obtain hlt'' | heq := Nat.lt_or_eq_of_le (Nat.succ_le_of_lt hlt')
      · rw [List.getElem?_append_left hlt'']
      · have hnext : (entries ++ [Entry.evaluated call point equity])[i + 1]?
            = some (.evaluated call point equity) := by
          rw [show i + 1 = entries.length from heq]
          exact List.getElem?_concat_length
        have hend : entries[i + 1]? = none := List.getElem?_eq_none (by omega)
        rw [hnext, hend]
        rfl
    · cases heq
      rw [List.take_of_length_le hlength.le] at hpeak ⊢
      rw [hfirst peak hpeak, ← hlength, List.getElem?_concat_length]
      rfl
  · cases heq

end Reports

/-! ## Whole runs -/

/-- What holds of a machine whose history is orderly. -/
def Good (limits : RiskLimits) (m : Machine) : Prop :=
  Orderly m.entries → Kept limits m ∧ Reports limits m.entries

section

variable {limits : RiskLimits} {initialCapital : ℚ} {m : Machine}

theorem entries_enter (entry : Entry) (m : Machine) :
    (m.enter entry).entries = m.entries ++ [entry] := by
  unfold Machine.entries Machine.enter
  rw [List.map_append]
  rfl

theorem Good.fill (h : Good limits m) (point : Point) (profit : ℚ) :
    Good limits (m.fill initialCapital point profit) := by
  intro horderly
  have hentries : (m.fill initialCapital point profit).entries = m.entries
      ++ [.filled point profit (initialCapital + (m.netProfitSum + profit) + point.openProfit)] :=
    entries_enter _ _
  rw [hentries] at horderly
  obtain ⟨hkept, hreports⟩ := h horderly.init
  refine ⟨hkept.snoc rfl (hkept.agrees.filled horderly) nofun nofun nofun, ?_⟩
  rw [hentries]
  exact hreports.snoc rfl nofun

theorem Good.inspect (h : Good limits m) (wouldOpen : Bool) :
    Good limits (m.inspect wouldOpen) := by
  intro horderly
  have hentries : (m.inspect wouldOpen).entries = m.entries
      ++ [.inspected wouldOpen (m.admitOpening wouldOpen)] := entries_enter _ _
  rw [hentries] at horderly
  obtain ⟨hkept, hreports⟩ := h horderly.init
  refine ⟨hkept.snoc rfl (hkept.agrees.quiet rfl rfl) nofun nofun ?_, ?_⟩
  · intro wouldOpen' admitted heq
    cases heq
    unfold Machine.admitOpening
    rw [hkept.agrees.riskBlocked]
  · rw [hentries]
    exact hreports.snoc rfl nofun

theorem Good.measure (h : Good limits m) (call : Call) (point : Point)
    (hnone : firstBreach limits (m.markedEquity initialCapital point)
      (m.measure initialCapital call point).ledger = none) :
    Good limits (m.measure initialCapital call point) := by
  intro horderly
  have hentries : (m.measure initialCapital call point).entries = m.entries
      ++ [.evaluated call point (m.markedEquity initialCapital point)] := entries_enter _ _
  rw [hentries] at horderly
  obtain ⟨hkept, hreports⟩ := h horderly.init
  obtain ⟨hagrees, hms⟩ := hkept.agrees.evaluated horderly
  refine ⟨hkept.snoc rfl hagrees nofun nofun nofun, ?_⟩
  rw [hentries]
  refine hreports.snoc rfl ?_
  intro call' point' equity' heq peak hpeak
  cases heq
  have hfirst := hagrees.firstBreach hms limits (m.markedEquity initialCapital point) hpeak
  rw [← hfirst]
  exact congrArg _ hnone

/-- Latching a breach keeps the history. -/
theorem Good.fire (h : Good limits m) (call : Call) (point : Point) {event : RiskEvent}
    (hsome : firstBreach limits (m.markedEquity initialCapital point)
      (m.measure initialCapital call point).ledger = some event) :
    Good limits ((m.measure initialCapital call point).fire event) := by
  intro horderly
  have hmeasured : (m.measure initialCapital call point).entries = m.entries
      ++ [.evaluated call point (m.markedEquity initialCapital point)] := entries_enter _ _
  have hentries : ((m.measure initialCapital call point).fire event).entries
      = (m.measure initialCapital call point).entries ++ [.breached event] := entries_enter _ _
  rw [hentries] at horderly
  have horderly' := horderly.init
  rw [hmeasured] at horderly'
  obtain ⟨hkept, hreports⟩ := h horderly'.init
  obtain ⟨hagrees, hms⟩ := hkept.agrees.evaluated horderly'
  have hkept' : Kept limits (m.measure initialCapital call point) :=
    hkept.snoc rfl hagrees nofun nofun nofun
  have hms' : marks (m.measure initialCapital call point).entries ≠ [] := by
    rw [hmeasured]
    exact hms
  have hday := firstBreach_day hsome (hkept'.agrees.measured.hasDay.mpr hms')
  refine ⟨hkept'.snoc rfl (hkept'.agrees.breached hms' hday) ?_ nofun nofun, ?_⟩
  · intro _ _
    refine ⟨m.entries.length, call, point, m.markedEquity initialCapital point, ?_, ?_⟩
    · rw [hmeasured]
      exact List.length_append
    · rw [hmeasured]
      exact List.getElem?_concat_length
  · rw [hentries, hmeasured]
    refine hreports.breached fun peak hpeak => ?_
    rw [← hagrees.firstBreach hms limits (m.markedEquity initialCapital point) hpeak]
    exact congrArg (Option.map (·.kind)) hsome

theorem Good.flatten (h : Good limits m) (haction : limits.action = .flattenAndBlock)
    (hlast : ∃ before event, m.entries = before ++ [.breached event]) :
    Good limits (m.enter .flattened) := by
  intro horderly
  rw [entries_enter] at horderly
  obtain ⟨hkept, hreports⟩ := h horderly.init
  refine ⟨hkept.snoc rfl (hkept.agrees.quiet rfl rfl) nofun ?_ nofun, ?_⟩
  · intro _
    obtain ⟨before, event, hentries⟩ := hlast
    refine ⟨haction, before.length, event, ?_, ?_⟩
    · rw [hentries]
      exact List.length_append
    · rw [hentries]
      exact List.getElem?_concat_length
  · rw [entries_enter]
    exact hreports.snoc rfl nofun

end

section

variable (limits : RiskLimits) (initialCapital : ℚ)

mutual

theorem runEvent_good (event : Event) (m : Machine) (h : Good limits m) :
    Good limits (runEvent limits initialCapital event m) := by
  cases event with
  | fill point profit => exact h.fill point profit
  | opening wouldOpen => exact h.inspect wouldOpen
  | evaluate call point idle held accepted driven =>
    unfold runEvent
    split
    · exact h
    · dsimp only
      split
      · rename_i hnone
        exact h.measure call point hnone
      · rename_i breach hsome
        have hfired := h.fire call point hsome
        split
        · rename_i hflatten
          refine runEvents_good driven _ ?_
          split
          · exact hfired.flatten hflatten.1 ⟨_, breach, entries_enter _ _⟩
          · exact hfired
        · exact hfired

theorem runEvents_good (events : List Event) (m : Machine) (h : Good limits m) :
    Good limits (runEvents limits initialCapital events m) := by
  cases events with
  | nil => exact h
  | cons event rest => exact runEvents_good rest _ (runEvent_good event m h)

end

end

/-- Over every run with an orderly history, the frames of its flattens included: every ledger is
what the entries before it say; every evaluation reports the first declared limit that is reached
and not blocked, or none; a breach stands right after its evaluation and a flatten right after its
breach; and an inspection admits everything that opens nothing, and an opening exactly when neither
the run nor the day is blocked. -/
theorem ledger_follows (limits : RiskLimits) (initialCapital : ℚ) (events : List Event)
    (horderly : Orderly (runEvents limits initialCapital events .start).entries) :
    let m := runEvents limits initialCapital events .start
    (∀ i entry l, m.history[i]? = some (entry, l) → Follows (m.entries.take (i + 1)) l) ∧
    Reports limits m.entries ∧
    (∀ i event, m.entries[i]? = some (.breached event) →
      ∃ j call point equity, i = j + 1 ∧ m.entries[j]? = some (.evaluated call point equity)) ∧
    (∀ i, m.entries[i]? = some .flattened → limits.action = .flattenAndBlock ∧
      ∃ j event, i = j + 1 ∧ m.entries[j]? = some (.breached event)) ∧
    ∀ i wouldOpen admitted, m.entries[i]? = some (.inspected wouldOpen admitted) →
      admitted = (!wouldOpen || !(runBreached (m.entries.take i) || dayBreached
        (m.entries.take i))) := by
  have hreports : Reports limits Machine.start.entries := by
    intro i call point equity hget
    have hnone : Machine.start.entries[i]? = none := List.getElem?_nil
    rw [hnone] at hget
    cases hget
  obtain ⟨hkept, hreports⟩ := runEvents_good limits initialCapital events .start
    (fun _ => ⟨Kept.start, hreports⟩) horderly
  exact ⟨hkept.followed, hreports, hkept.attributed, hkept.issued, hkept.gated⟩

/-- A drawdown of ten and one fill a day, with a flatten. -/
def tenOrOneFill : RiskLimits := ⟨some ⟨10, false⟩, none, none, some 1, .flattenAndBlock⟩

/-- A losing fill of the first day, whose drain breaches the drawdown; the flatten drives its own
fill, the drain of that fill and an opening; then the bar closes. -/
def losingDay : List Event :=
  [.evaluate .barOpen ⟨some 0, 0⟩ false 0 true [],
    .fill ⟨some 0, -20⟩ 0,
    .evaluate .drain ⟨some 0, -20⟩ false 1 true
      [.fill ⟨some 0, 0⟩ (-20), .evaluate .drain ⟨some 0, 0⟩ false 0 true [], .opening true],
    .evaluate .closeCalculation ⟨some 0, 0⟩ false 0 true []]

theorem losingDay_entries : (runEvents tenOrOneFill 100 losingDay .start).entries =
    [.evaluated .barOpen ⟨some 0, 0⟩ 100, .filled ⟨some 0, -20⟩ 0 80,
      .evaluated .drain ⟨some 0, -20⟩ 80,
      .breached ⟨.maxDrawdown, 10, 20, 0⟩, .flattened, .filled ⟨some 0, 0⟩ (-20) 80,
      .evaluated .drain ⟨some 0, 0⟩ 80, .inspected true false,
      .evaluated .closeCalculation ⟨some 0, 0⟩ 80] := by
  decide +kernel

theorem losingDay_orderly : Orderly (runEvents tenOrOneFill 100 losingDay .start).entries := by
  rw [losingDay_entries]
  refine ⟨by decide, by decide +kernel, ?_⟩
  intro before m after hsplit hnew
  cases before with
  | nil =>
    cases (List.cons.inj hsplit).1
    rfl
  | cons first rest =>
    -- every point is of one day
    have hone : ∀ m' ∈ first :: rest ++ m :: after, m'.day = 0 := by
      rw [← hsplit]
      decide +kernel
    have hfirst := hone first List.mem_cons_self
    have hm := hone m (List.mem_append_right _ List.mem_cons_self)
    exact absurd (hfirst.trans hm.symm) (hnew first List.mem_cons_self)

/-- The opening inside the frame of the flatten is refused, and every evaluation reports by the
rule. -/
theorem ledger_follows_losingDay :
    (runEvents tenOrOneFill 100 losingDay .start).entries[7]? = some (.inspected true false) ∧
      Reports tenOrOneFill (runEvents tenOrOneFill 100 losingDay .start).entries :=
  ⟨by rw [losingDay_entries]; rfl,
    (ledger_follows tenOrOneFill 100 losingDay losingDay_orderly).2.1⟩

/-- A limit of the day that is reached while its day is not blocked, and is not reported: the run
is. -/
theorem losingDay_terminal :
    let entries := (runEvents tenOrOneFill 100 losingDay .start).entries
    Orderly entries ∧ entries[8]? = some (.evaluated .closeCalculation ⟨some 0, 0⟩ 80) ∧
      dayBreached (entries.take 9) = false ∧
      reached tenOrOneFill (marks (entries.take 9)) 100 80 .maxFillsPerDay = true ∧
      reportedKind entries[9]? = none := by
  refine ⟨losingDay_orderly, ?_⟩
  rw [losingDay_entries]
  decide +kernel

end PineForge.Risk
