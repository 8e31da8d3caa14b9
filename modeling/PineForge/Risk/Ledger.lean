import Mathlib
import PineForge.Machine.Arith

/-!
# The risk ledger

The account limits of a run that declares them, measured at the open of a bar, at its close
calculation and after each drain of applied fills. A breach blocks openings, to the end of the run
or of the day, and may flatten the book; the flatten is executed inside the breach's own frame, so
that its fill and the drain of that fill evaluate the limits again before the first evaluation
returns. Money is exact.
-/

namespace PineForge.Risk

/-! ## Limits and the ledger -/

/-- The limits. -/
inductive RiskLimitKind where
  | maxDrawdown
  | maxIntradayLoss
  | maxConsecutiveLossDays
  | maxFillsPerDay
deriving DecidableEq, Repr

/-- The block of the limit lasts to the end of its own day. -/
def RiskLimitKind.dayScope : RiskLimitKind → Bool
  | .maxIntradayLoss | .maxFillsPerDay => true
  | .maxDrawdown | .maxConsecutiveLossDays => false

/-- A loss in account currency, or in percent of the limit's own basis. -/
structure LossLimit where
  value : ℚ
  percent : Bool
deriving DecidableEq, Repr

/-- The amount a loss may reach. -/
def LossLimit.threshold (limit : LossLimit) (basis : ℚ) : ℚ :=
  if limit.percent then basis * limit.value / 100 else limit.value

/-- What a breach does. -/
inductive RiskAction where
  | blockOpenings
  | flattenAndBlock
deriving DecidableEq, Repr

/-- The limits of a run. -/
structure RiskLimits where
  maxDrawdown : Option LossLimit
  maxIntradayLoss : Option LossLimit
  maxConsecutiveLossDays : Option ℕ
  maxFillsPerDay : Option ℕ
  action : RiskAction
deriving DecidableEq, Repr

/-- The counters of risk. -/
structure RiskLedger where
  dayOrdinal : ℤ := 0
  hasDay : Bool := false
  fillsToday : ℕ := 0
  consecutiveLossDays : ℕ := 0
  peakEquity : ℚ := 0
  hasPeak : Bool := false
  dayOpenEquity : ℚ := 0
  dayOpenRealized : ℚ := 0
  runBlock : Option RiskLimitKind := none
  dayBlock : Option RiskLimitKind := none
  dayBlockDay : ℤ := 0
deriving DecidableEq, Repr

/-- The counters stop at their largest values. -/
def maxFills : ℕ := 2 ^ 64 - 1

/-- The largest `uint32_t`. -/
def maxLossDays : ℕ := 2 ^ 32 - 1

namespace RiskLedger

/-- A day block holds while the ledger is on its day. -/
def dayBlocked (l : RiskLedger) : Bool :=
  l.dayBlock.isSome && l.hasDay && l.dayOrdinal = l.dayBlockDay

/-- Openings are blocked. -/
def riskBlocked (l : RiskLedger) : Bool := l.runBlock.isSome || l.dayBlocked

/-- The realized result of the day that closes decides the streak: a loss extends it, a profit
restarts it, no result leaves it. -/
def closeDay (netProfitSum : ℚ) (l : RiskLedger) : ℕ :=
  if l.hasDay then
    let realized := netProfitSum - l.dayOpenRealized
    if realized < 0 then
      if l.consecutiveLossDays < maxLossDays then l.consecutiveLossDays + 1
        else l.consecutiveLossDays
    else if 0 < realized then 0
    else l.consecutiveLossDays
  else l.consecutiveLossDays

/-- `risk_roll_day`. -/
def riskRollDay (netProfitSum : ℚ) (day : ℤ) (equity : ℚ) (l : RiskLedger) : RiskLedger :=
  { l with
    consecutiveLossDays := l.closeDay netProfitSum
    dayOrdinal := day
    hasDay := true
    fillsToday := 0
    dayOpenRealized := netProfitSum
    dayOpenEquity := equity }

/-- A day the calendar cannot key is not a new day. -/
def enterDay (netProfitSum : ℚ) (day : Option ℤ) (equity : ℚ) (l : RiskLedger) : RiskLedger :=
  match day with
  | none => l
  | some day =>
    if !l.hasDay || day ≠ l.dayOrdinal then l.riskRollDay netProfitSum day equity else l

/-- Note a new peak. -/
def notePeak (equity : ℚ) (l : RiskLedger) : RiskLedger :=
  if !l.hasPeak || l.peakEquity < equity then { l with peakEquity := equity, hasPeak := true }
    else l

/-- Count a fill. -/
def countFill (l : RiskLedger) : RiskLedger :=
  { l with fillsToday := if l.fillsToday < maxFills then l.fillsToday + 1 else l.fillsToday }

/-- `risk_note_fill`. -/
def riskNoteFill (netProfitSum : ℚ) (day : Option ℤ) (equity : ℚ) (l : RiskLedger) : RiskLedger :=
  ((l.enterDay netProfitSum day equity).countFill).notePeak equity

/-- The account as the evaluation measures it, before any limit is looked at. -/
def measure (netProfitSum : ℚ) (day : Option ℤ) (equity : ℚ) (l : RiskLedger) : RiskLedger :=
  (l.enterDay netProfitSum day equity).notePeak equity

end RiskLedger

/-! ## Breaches -/

/-- A breach of a limit. -/
structure RiskEvent where
  kind : RiskLimitKind
  limit : ℚ
  observed : ℚ
  dayOrdinal : ℤ
deriving DecidableEq, Repr

section

variable (limits : RiskLimits) (equity : ℚ) (l : RiskLedger)

/-- A loss of at least a positive threshold. -/
def lossBreach (kind : RiskLimitKind) (limit : Option LossLimit) (basis : ℚ) : Option RiskEvent :=
  match limit with
  | none => none
  | some limit =>
    if 0 < limit.threshold basis ∧ limit.threshold basis ≤ basis - equity then
      some ⟨kind, limit.threshold basis, basis - equity, if l.hasDay then l.dayOrdinal else 0⟩
    else none

/-- A count of at least the limit. -/
def countBreach (kind : RiskLimitKind) (limit : Option ℕ) (count : ℕ) : Option RiskEvent :=
  match limit with
  | none => none
  | some limit =>
    if limit ≤ count then some ⟨kind, limit, count, if l.hasDay then l.dayOrdinal else 0⟩ else none

/-- The first limit that is reached owns the event of the point. A block of the run is terminal:
nothing further is reported. -/
def firstBreach : Option RiskEvent :=
  if l.runBlock.isSome then none
  else
    (if l.hasPeak then lossBreach equity l .maxDrawdown limits.maxDrawdown l.peakEquity
      else none).or
      ((if l.hasDay && !l.dayBlocked then
          lossBreach equity l .maxIntradayLoss limits.maxIntradayLoss l.dayOpenEquity else none).or
        ((countBreach l .maxConsecutiveLossDays limits.maxConsecutiveLossDays
          l.consecutiveLossDays).or
          (if l.hasDay && !l.dayBlocked then
            countBreach l .maxFillsPerDay limits.maxFillsPerDay l.fillsToday else none)))

end

/-- The block latches before anything else happens at the point. -/
def RiskLedger.latch (kind : RiskLimitKind) (l : RiskLedger) : RiskLedger :=
  if kind.dayScope then { l with dayBlock := some kind, dayBlockDay := l.dayOrdinal }
  else { l with runBlock := some kind }

/-! ## Runs -/

/-- What the ledger reads of a point: its risk day, when the calendar keys it, and the open result
of the book marked there. -/
structure Point where
  day : Option ℤ
  openProfit : ℚ
deriving DecidableEq, Repr

/-- The three evaluation points. -/
inductive Call where
  | barOpen
  | closeCalculation
  | drain
deriving DecidableEq, Repr

/-- What happens to the ledger from outside. An evaluation is idle while the run has failed or a
request is consumed; it says how much is held, whether the flatten it may issue is accepted, and
what that flatten and the end of its frame drive. -/
inductive Event where
  | fill (point : Point) (profit : ℚ)
  | evaluate (call : Call) (point : Point) (idle : Bool) (held : ℚ) (accepted : Bool)
    (driven : List Event)
  | opening (wouldOpen : Bool)

/-- The entries of a history. -/
inductive Entry where
  | filled (point : Point) (profit equity : ℚ)
  | evaluated (call : Call) (point : Point) (equity : ℚ)
  | breached (event : RiskEvent)
  | flattened
  | inspected (wouldOpen admitted : Bool)
deriving DecidableEq, Repr

/-- The ledger, the realized result of the account, and every entry with the ledger it left. -/
structure Machine where
  ledger : RiskLedger
  netProfitSum : ℚ
  history : List (Entry × RiskLedger)
deriving DecidableEq, Repr

namespace Machine

/-- The machine before its first event. -/
def start : Machine := ⟨{}, 0, []⟩

/-- Enter an entry with the ledger behind it. -/
def enter (entry : Entry) (m : Machine) : Machine :=
  { m with history := m.history ++ [(entry, m.ledger)] }

/-- The entries so far. -/
def entries (m : Machine) : List Entry := m.history.map Prod.fst

section

variable (initialCapital : ℚ)

/-- The equity at a point. -/
def markedEquity (point : Point) (m : Machine) : ℚ :=
  initialCapital + m.netProfitSum + point.openProfit

/-- A fill is settled first, and then noted. -/
def fill (point : Point) (profit : ℚ) (m : Machine) : Machine :=
  let settled := { m with netProfitSum := m.netProfitSum + profit }
  let equity := settled.markedEquity initialCapital point
  enter (.filled point profit equity)
    { settled with ledger := settled.ledger.riskNoteFill settled.netProfitSum point.day equity }

/-- Measure a point. -/
def measure (call : Call) (point : Point) (m : Machine) : Machine :=
  let equity := m.markedEquity initialCapital point
  enter (.evaluated call point equity)
    { m with ledger := m.ledger.measure m.netProfitSum point.day equity }

end

/-- Latch a breach. -/
def fire (event : RiskEvent) (m : Machine) : Machine :=
  enter (.breached event) { m with ledger := m.ledger.latch event.kind }

/-- Only an opening reaches the gate. -/
def admitOpening (wouldOpen : Bool) (m : Machine) : Bool := !wouldOpen || !m.ledger.riskBlocked

/-- Ask whether an opening is admitted. -/
def inspect (wouldOpen : Bool) (m : Machine) : Machine :=
  enter (.inspected wouldOpen (m.admitOpening wouldOpen)) m

end Machine

section

variable (limits : RiskLimits) (initialCapital : ℚ)

mutual

/-- One event. -/
def runEvent : Event → Machine → Machine
  | .fill point profit, m => m.fill initialCapital point profit
  | .opening wouldOpen, m => m.inspect wouldOpen
  | .evaluate call point idle held accepted driven, m =>
    if idle then m
    else
      let equity := m.markedEquity initialCapital point
      let measured := m.measure initialCapital call point
      match firstBreach limits equity measured.ledger with
      | none => measured
      | some event =>
        let fired := measured.fire event
        if limits.action = .flattenAndBlock ∧ 0 < held then
          runEvents driven (if accepted then fired.enter .flattened else fired)
        else fired

/-- Events in order. -/
def runEvents : List Event → Machine → Machine
  | [], m => m
  | event :: rest, m => runEvents rest (runEvent event m)

end

end

end PineForge.Risk
