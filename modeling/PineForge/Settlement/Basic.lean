import PineForge.Machine.Arith

/-!
# The lot ledger

The account state of `BacktestEngine` that a settlement reads and writes, the commission helpers
of `engine.hpp`, and the close-row builder and position-state helpers of `engine_orders.cpp`.

A helper that throws runs in `EngineM`, where a thrown failure keeps the state reached so far, as
an exception leaves the object it was thrown from.
-/

namespace PineForge.Settlement

open Arith

/-- The side of the position. -/
inductive PositionSide where
  | flat | long | short
  deriving DecidableEq, Repr

/-- How commission is charged. -/
inductive CommissionType where
  | percent | cashPerOrder | cashPerContract
  deriving DecidableEq, Repr

/-- Why a lot is closed. -/
inductive CloseCause where
  | unspecified | script | bracket | liquidation | riskLimit | fillCap | rangeEnd
  deriving DecidableEq, Repr

/-- The answers of a settlement. -/
inductive Status where
  | applied | noEffect | invalidPrice | invalidQuantity | invalidBook | unrepresentableQuantity
  | invalidAccounting | invalidLifecycle | invalidCloseTarget
  deriving DecidableEq, Repr

/-- The codes of failed runs. -/
inductive RunFailureCode where
  | engineCommandValueInvalid | engineInvariant
  deriving DecidableEq, Repr

/-- A thrown failure: its run-failure code when the throw carries one, its arguments and text. -/
structure Failure where
  code : Option RunFailureCode
  args : List (String × String)
  message : String
  deriving DecidableEq, Repr

/-- `throw_engine_command_value_invalid` for a fee. -/
def feeInvalid (reason : String) : Failure where
  code := some .engineCommandValueInvalid
  args := [("field", "fee.commission"), ("stage", "fee"), ("reason", reason)]
  message := "the engine derived an invalid execution value"

/-- A `std::overflow_error`, coded as an engine invariant or plain. -/
def overflowError (coded : Bool) (message : String) : Failure where
  code := if coded then some .engineInvariant else none
  args := []
  message := message

/-- The largest `int`. -/
def intMax : Int := 2 ^ 31 - 1
/-- The largest `int64_t`. -/
def int64Max : Int := 2 ^ 63 - 1
/-- The largest `uint64_t`. -/
def uint64Max : Nat := 2 ^ 64 - 1

/-- One open lot. -/
structure PyramidEntry (α : Type) where
  price : α
  time : Int
  qty : α
  entryId : String
  entryBarIndex : Int := -1
  entryComment : String := ""
  maxRunup : α
  maxDrawdown : α
  skipEntryBarHigh : Bool := false
  skipEntryBarLow : Bool := false
  /-- The entry fee already paid; `none` is the NaN of a lot injected without one. -/
  entryCommissionAccount : Option α := none
  entryIncarnation : Nat := 0

/-- One closed row. -/
structure Trade (α : Type) where
  entryTime : Int
  exitTime : Int
  entryPrice : α
  exitPrice : α
  qty : α
  pnl : α
  pnlPct : α
  isLong : Bool
  entryBarIndex : Int := -1
  exitBarIndex : Int := -1
  entryId : String := ""
  entryComment : String := ""
  exitComment : String := ""
  exitId : String := ""
  exitFromBracket : Bool := false
  maxRunup : α
  maxDrawdown : α
  commission : α
  entryIncarnation : Nat := 0
  openAtEnd : Bool := false
  closeCause : CloseCause := .unspecified

/-- An order as a stream reports it. -/
structure StreamOrderAction (α : Type) where
  sequence : Nat
  timestampMs : Int
  barIndex : Int
  isEntry : Bool
  isLong : Bool
  quantity : α
  price : α
  orderId : String := ""
  comment : String := ""
  entryIncarnation : Nat := 0
  closedTradeIndex : Option Nat := none

/-- What the host that owns lot excursions is told about a closing row. -/
structure ClosedLotExcursionFacts (α : Type) where
  entryIncarnation : Nat
  entryTimeMs : Int
  entryPrice : α
  lotQty : α
  closedQty : α
  fillPrice : α
  carriedFavorable : α
  carriedAdverse : α
  isLong : Bool
  entryBarIndex : Int
  exitBarIndex : Int
  entryBarHighMasked : Bool
  entryBarLowMasked : Bool
  entryCommission : α
  accountFx : α

/-- How far a closed lot moved. -/
structure ClosedLotExcursion (α : Type) where
  favorable : α
  adverse : α

/-- The engine state of a settlement. The configuration fields (from `initialCapital` on) are set
before a run; the two functions are the host's. -/
structure Engine (α : Type) where
  positionSide : PositionSide
  positionCycleSeq : Int
  nextPositionCycleSeq : Int
  positionEntryPrice : α
  positionEntryTime : Int
  positionQty : α
  positionEntryCount : Int
  positionOpenBar : Int
  trailBestPrice : α
  /-- `opening_obligations_.pending()`. -/
  openingPending : Bool
  pyramidEntries : List (PyramidEntry α)
  trades : List (Trade α)
  netProfitSum : α
  grossProfitSum : α
  grossLossSum : α
  netProfitRoundoffBound : α
  netProfitRoundoffValue : α
  winTradesCount : Int
  lossTradesCount : Int
  eventradesCount : Int
  streamActionSequence : Nat
  streamOrderActions : List (StreamOrderAction α)
  initialCapital : α
  commissionType : CommissionType
  commissionValue : α
  pointvalue : α
  /-- `active_account_currency_fx()`: the rate at the presented clock. -/
  activeAccountCurrencyFx : α
  nativeQuantityTolerance : α
  streamObserveActions : Bool
  lotExcursionHook : Option (ClosedLotExcursionFacts α → ClosedLotExcursion α)
  sourceStreamEntryComment : PyramidEntry α → String → String

/-- An engine before its first fill, as its members are declared. -/
def Engine.initial {α : Type} [Arith α] (initialCapital : α) : Engine α where
  positionSide := .flat
  positionCycleSeq := 0
  nextPositionCycleSeq := 1
  positionEntryPrice := 0
  positionEntryTime := 0
  positionQty := 0
  positionEntryCount := 0
  positionOpenBar := -1
  trailBestPrice := Arith.nan
  openingPending := false
  pyramidEntries := []
  trades := []
  netProfitSum := 0
  grossProfitSum := 0
  grossLossSum := 0
  netProfitRoundoffBound := 0
  netProfitRoundoffValue := 0
  winTradesCount := 0
  lossTradesCount := 0
  eventradesCount := 0
  streamActionSequence := 0
  streamOrderActions := []
  initialCapital := initialCapital
  commissionType := .percent
  commissionValue := 0
  pointvalue := 1
  activeAccountCurrencyFx := 1
  nativeQuantityTolerance := 0
  streamObserveActions := false
  lotExcursionHook := none
  sourceStreamEntryComment := fun _ comment => comment

/-- A computation on the engine; a failure keeps the state it was thrown in. -/
abbrev EngineM (α β : Type) := EStateM Failure (Engine α) β

/-- A fill. -/
structure Fill (α : Type) where
  price : α
  id : String
  comment : String
  incarnation : Nat := 0
  commissionAccount : Option α := none
  closeCause : CloseCause := .unspecified

/-- When and under which rate a fill happens. -/
structure PhysicalExecutionContext (α : Type) where
  effectiveTimeMs : Int := 0
  intervalIndex : Int := 0
  precedingExitTrailPeak : Option α := none
  accountFx : Option α := none

variable {α : Type} [Arith α]

/-! ## Commission helpers -/

/-- The commission under a rate. -/
def calcCommissionAt (e : Engine α) (fillPrice qty fx : α) : α :=
  match e.commissionType with
  | .percent => fillPrice * qty * e.pointvalue * fx * (e.commissionValue / lit 100)
  | .cashPerOrder => e.commissionValue
  | .cashPerContract => e.commissionValue * qty

/-- The commission under the active rate. -/
def calcCommission (e : Engine α) (fillPrice qty : α) : α :=
  calcCommissionAt e fillPrice qty
    (if e.commissionType = .percent then e.activeAccountCurrencyFx else 1)

/-- The fee paid for a still-open lot. -/
def openEntryCommission (e : Engine α) (pe : PyramidEntry α) : α :=
  match pe.entryCommissionAccount with
  | some paid => if isFinite paid then paid else calcCommission e pe.price pe.qty
  | none => calcCommission e pe.price pe.qty

/-- The share of a lot's entry fee that closing `units` of it realizes. -/
def allocatedEntryCommission (e : Engine α) (pe : PyramidEntry α) (units : α) : α :=
  if units ≤ 0 then 0
  else
    let paid := openEntryCommission e pe
    if pe.qty ≤ units then paid else paid * (units / pe.qty)

/-! ## Closing rows -/

/-- The rate an execution's rows convert at. -/
def contextFx (e : Engine α) (context : PhysicalExecutionContext α) : α :=
  context.accountFx.getD e.activeAccountCurrencyFx

/-- What the hook is told of a closed lot. -/
def excursionFacts (pe : PyramidEntry α) (closeQty fillPrice : α) (wasLong : Bool)
    (entryCommission : α) (context : PhysicalExecutionContext α) (fx : α) :
    ClosedLotExcursionFacts α where
  entryIncarnation := pe.entryIncarnation
  entryTimeMs := pe.time
  entryPrice := pe.price
  lotQty := pe.qty
  closedQty := closeQty
  fillPrice := fillPrice
  carriedFavorable := pe.maxRunup
  carriedAdverse := pe.maxDrawdown
  isLong := wasLong
  entryBarIndex := pe.entryBarIndex
  exitBarIndex := context.intervalIndex
  entryBarHighMasked := pe.skipEntryBarHigh
  entryBarLowMasked := pe.skipEntryBarLow
  entryCommission := entryCommission
  accountFx := fx

/-- The excursion columns of a closing row: the owner's answer when a host owns them, else the
carried extremes of the closed slice with the exit fill and the trail peak folded in. -/
def closeExcursion (e : Engine α) (pe : PyramidEntry α) (closeQty fillPrice : α) (wasLong : Bool)
    (entryCommission : α) (context : PhysicalExecutionContext α) : ClosedLotExcursion α :=
  let pv := e.pointvalue
  let fx := contextFx e context
  let slice := if 0 < pe.qty then closeQty / pe.qty else 1
  let fillFav := (if wasLong then fillPrice - pe.price else pe.price - fillPrice) * closeQty
  match e.lotExcursionHook with
  | some hook => hook (excursionFacts pe closeQty fillPrice wasLong entryCommission context fx)
  | none =>
    let runup := cmax (pe.maxRunup * slice) fillFav
    let drawdown := cmax (pe.maxDrawdown * slice) (-fillFav)
    let runup := match context.precedingExitTrailPeak with
      | some peak =>
        cmax runup ((if wasLong then peak - pe.price else pe.price - peak) * closeQty)
      | none => runup
    { favorable := cmax 0 (runup * pv * fx - entryCommission)
      adverse := cmax 0 (drawdown * pv * fx + entryCommission) }

/-- The row of a closed lot. -/
def buildCloseTradeWithCosts (e : Engine α) (pe : PyramidEntry α) (closeQty fillPrice : α)
    (wasLong : Bool) (entryCommission exitCommission : α)
    (context : PhysicalExecutionContext α) : Trade α :=
  let pv := e.pointvalue
  let fx := contextFx e context
  let gross := (if wasLong then fillPrice - pe.price else pe.price - fillPrice)
    * closeQty * pv * fx
  let pnl := gross - (entryCommission + exitCommission)
  let entryCost := pe.price * closeQty * pv * fx
  let excursion := closeExcursion e pe closeQty fillPrice wasLong entryCommission context
  { entryTime := pe.time
    exitTime := context.effectiveTimeMs
    entryPrice := pe.price
    exitPrice := fillPrice
    qty := closeQty
    pnl := pnl
    pnlPct := if 0 < entryCost then pnl / entryCost * lit 100 else 0
    isLong := wasLong
    entryBarIndex := pe.entryBarIndex
    exitBarIndex := context.intervalIndex
    entryId := pe.entryId
    entryComment := pe.entryComment
    maxRunup := excursion.favorable
    maxDrawdown := excursion.adverse
    commission := entryCommission + exitCommission
    entryIncarnation := pe.entryIncarnation }

/-- Every number of a row is finite. -/
def closedRowAllFinite (t : Trade α) : Bool :=
  isFinite t.entryPrice && isFinite t.exitPrice && isFinite t.qty && isFinite t.pnl
    && isFinite t.pnlPct && isFinite t.maxRunup && isFinite t.maxDrawdown && isFinite t.commission

/-! ## Counters and the stream of order actions -/

/-- The exact financial walk of `validate_close_trade_counters`, row by row. -/
def countersFit (wins losses evens : Int) : List (Trade α) → Bool
  | [] => true
  | t :: rows =>
    let wins := if 0 < t.pnl then wins + 1 else wins
    let losses := if ¬ 0 < t.pnl ∧ t.pnl < 0 then losses + 1 else losses
    let evens := if ¬ 0 < t.pnl ∧ ¬ t.pnl < 0 then evens + 1 else evens
    if intMax < wins ∨ intMax < losses ∨ intMax < evens then false
    else countersFit wins losses evens rows

/-- `validate_close_trade_counters`: a throw when a counter would pass `INT_MAX`. -/
def validateCloseTradeCounters (e : Engine α) (rows : List (Trade α)) : Except Failure Unit :=
  let room := intMax - rows.length
  if (rows.length : Int) ≤ intMax ∧ e.winTradesCount ≤ room ∧ e.lossTradesCount ≤ room
      ∧ e.eventradesCount ≤ room then .ok ()
  else if countersFit e.winTradesCount e.lossTradesCount e.eventradesCount rows then .ok ()
  else .error (overflowError false "closed trade counter exhausted")

/-- Run a pure check on the engine. -/
def EngineM.check {β : Type} (f : Engine α → Except Failure β) : EngineM α β := fun e =>
  match f e with
  | .ok b => .ok b e
  | .error x => .error x e

namespace EngineM

variable {β γ : Type}

omit [Arith α] in
theorem run_bind (x : EngineM α β) (f : β → EngineM α γ) (e : Engine α) :
    (x >>= f) e = match x e with
      | .ok b e' => f b e'
      | .error g e' => .error g e' := by
  simp only [bind, EStateM.bind]
  cases x e <;> rfl

omit [Arith α] in
theorem run_get (e : Engine α) : (get : EngineM α (Engine α)) e = .ok e e := rfl

omit [Arith α] in
theorem run_modify (f : Engine α → Engine α) (e : Engine α) :
    (modify f : EngineM α Unit) e = .ok () (f e) := rfl

end EngineM

/-- The sequence of actions is used up. -/
def streamSequenceError : Failure := ⟨none, [], "stream action sequence overflow"⟩

/-- The action a new lot is observed as. -/
def entryAction (e : Engine α) (pe : PyramidEntry α) : StreamOrderAction α where
  sequence := e.streamActionSequence + 1
  timestampMs := pe.time
  barIndex := pe.entryBarIndex
  isEntry := true
  isLong := e.positionSide = .long
  quantity := pe.qty
  price := pe.price
  orderId := pe.entryId
  comment := e.sourceStreamEntryComment pe pe.entryComment
  entryIncarnation := pe.entryIncarnation

/-- The action a closed row, at index `tradeIndex` of the ledger, is observed as. -/
def exitAction (e : Engine α) (trade : Trade α) (tradeIndex : Nat) : StreamOrderAction α where
  sequence := e.streamActionSequence + 1
  timestampMs := trade.exitTime
  barIndex := trade.exitBarIndex
  isEntry := false
  isLong := trade.isLong
  quantity := trade.qty
  price := trade.exitPrice
  entryIncarnation := trade.entryIncarnation
  closedTradeIndex := some tradeIndex

/-- Append an action. -/
def pushAction (e : Engine α) (action : StreamOrderAction α) : Engine α :=
  { e with
    streamActionSequence := e.streamActionSequence + 1
    streamOrderActions := e.streamOrderActions ++ [action] }

/-- Report an action. -/
def streamObserve (action : Engine α → StreamOrderAction α) : EngineM α Unit := do
  let e ← get
  if e.streamActionSequence = uint64Max then throw streamSequenceError
  set (pushAction e (action e))

/-- Report an entry. -/
def streamObserveEntry (pe : PyramidEntry α) : EngineM α Unit :=
  streamObserve fun e => entryAction e pe

/-- Observe the row just recorded, the ledger's last. -/
def streamObserveExit (trade : Trade α) : EngineM α Unit :=
  streamObserve fun e => exitAction e trade (e.trades.length - 1)

/-- The metadata one observed action carries after the commit: an exit's from the row it names, an
entry's from the lot it names, or else from the first row of this commit that names it. -/
def refreshAction (trades : List (Trade α)) (lots : List (PyramidEntry α)) (firstTrade : Nat)
    (a : StreamOrderAction α) : StreamOrderAction α :=
  if a.isEntry then
    match lots.find? fun pe => pe.entryIncarnation == a.entryIncarnation
        && pe.entryId == a.orderId with
    | some pe => { a with comment := pe.entryComment }
    | none =>
      match (trades.drop firstTrade).find? fun t => t.entryIncarnation == a.entryIncarnation
          && t.entryId == a.orderId with
      | some t => { a with comment := t.entryComment }
      | none => a
  else
    match a.closedTradeIndex.bind fun i => trades[i]? with
    | some t => { a with orderId := t.exitId, comment := t.exitComment }
    | none => a

/-- Refresh the actions from one on. -/
def streamRefreshActionMetadata (e : Engine α) (firstAction firstTrade : Nat) : Engine α :=
  let refreshed := (e.streamOrderActions.drop firstAction).map
    (refreshAction e.trades e.pyramidEntries firstTrade)
  { e with streamOrderActions := e.streamOrderActions.take firstAction ++ refreshed }

/-! ## Position-state helpers -/

/-- The bound on the rounding of `net_profit_sum_` after one addition (Knuth's TwoSum). -/
def roundoffAfter (e : Engine α) (pnl : α) : α :=
  let previous := e.netProfitSum
  let next := previous + pnl
  if previous == e.netProfitRoundoffValue ∧ isFinite previous ∧ isFinite pnl ∧ isFinite next
      ∧ isFinite e.netProfitRoundoffBound then
    let virtualPnl := next - previous
    let residual := (previous - (next - virtualPnl)) + (pnl - virtualPnl)
    if isFinite residual then
      if residual != 0 then nextUp (e.netProfitRoundoffBound + Arith.abs residual)
      else e.netProfitRoundoffBound
    else Arith.inf
  else Arith.inf

/-- The sums and counters after one closed row. -/
def bookPnl (e : Engine α) (pnl : α) : Engine α :=
  let e := { e with
    netProfitRoundoffBound := roundoffAfter e pnl
    netProfitRoundoffValue := e.netProfitSum + pnl
    netProfitSum := e.netProfitSum + pnl }
  if 0 < pnl then
    { e with grossProfitSum := e.grossProfitSum + pnl, winTradesCount := e.winTradesCount + 1 }
  else if pnl < 0 then
    { e with grossLossSum := e.grossLossSum + pnl, lossTradesCount := e.lossTradesCount + 1 }
  else { e with eventradesCount := e.eventradesCount + 1 }

/-- Record a closed lot. -/
def recordCloseTrade (trade : Trade α) : EngineM α Unit := do
  EngineM.check fun e => validateCloseTradeCounters e [trade]
  modify fun e => { e with trades := e.trades ++ [trade] }
  if (← get).streamObserveActions then
    streamObserveExit trade
  modify fun e => bookPnl e trade.pnl

/-- The engine with no position. -/
def resetPositionStateToFlat (e : Engine α) : Engine α :=
  { e with
    positionSide := .flat
    positionCycleSeq := 0
    positionEntryPrice := 0
    openingPending := false
    positionEntryTime := 0
    positionQty := 0
    positionEntryCount := 0
    positionOpenBar := -1
    trailBestPrice := Arith.nan
    pyramidEntries := [] }

/-- The cycles are used up. -/
def cycleExhausted (next : Int) : Prop := next ≤ 0 ∨ next = int64Max

instance (next : Int) : Decidable (cycleExhausted next) := inferInstanceAs (Decidable (_ ∨ _))

/-- The engine that holds `lot` as its whole position. -/
def installPosition (e : Engine α) (requested : PositionSide) (lot : PyramidEntry α) : Engine α :=
  { e with
    positionSide := requested
    positionCycleSeq := e.nextPositionCycleSeq
    nextPositionCycleSeq := e.nextPositionCycleSeq + 1
    positionEntryPrice := lot.price
    openingPending := false
    positionEntryTime := lot.time
    positionQty := lot.qty
    positionEntryCount := 1
    positionOpenBar := lot.entryBarIndex
    trailBestPrice := lot.price
    pyramidEntries := [lot] }

/-- The engine that holds `lot` beside the lots it had. -/
def installLot (e : Engine α) (lot : PyramidEntry α) (totalQty averagePrice : α) : Engine α :=
  { e with
    positionEntryPrice := averagePrice
    positionQty := totalQty
    positionEntryCount := e.positionEntryCount + 1
    trailBestPrice := lot.price
    pyramidEntries := e.pyramidEntries ++ [lot] }

/-- Open a position with one lot. -/
def openQuotedPosition (requested : PositionSide) (lot : PyramidEntry α) : EngineM α Unit := do
  if cycleExhausted (← get).nextPositionCycleSeq then
    throw (overflowError false "position cycle sequence exhausted")
  modify fun e => installPosition e requested lot
  if (← get).streamObserveActions then streamObserveEntry lot

/-- Append a lot to the position. -/
def appendQuotedLot (lot : PyramidEntry α) (totalQty averagePrice : α) : EngineM α Unit := do
  if (← get).positionEntryCount = intMax then
    throw (overflowError false "position entry counter exhausted")
  modify fun e => installLot e lot totalQty averagePrice
  if (← get).streamObserveActions then streamObserveEntry lot

/-! ## Marks -/

/-- `marked_equity_at`: the equity with every lot marked at `price`, NaN on an inconsistent
book. -/
def markedEquityAt (e : Engine α) (price fx : α) : α :=
  if !isFinite price ∨ !isFinite fx ∨ (e.positionSide = .flat) ≠ (e.pyramidEntries = []) then
    Arith.nan
  else if e.pyramidEntries.any fun lot => !isFinite lot.qty || decide (lot.qty ≤ 0)
      || !isFinite lot.price then Arith.nan
  else
    let direction : α := if e.positionSide = .short then -1 else 1
    sumFrom (e.initialCapital + e.netProfitSum) (e.pyramidEntries.map fun lot =>
      direction * (price - lot.price) * lot.qty * e.pointvalue * fx - openEntryCommission e lot)

end PineForge.Settlement
