import PineForge.Settlement.Stage

/-!
# Inspecting, projecting and committing a stage

The three readers of a staged execution. `inspectStage` reports its quantities, `projectStage` the
account it would leave, and `commitNativeSettlementStage` prepares the closing rows, checks every
counter (`preflightNativeSettlementEffects`) and only then changes the engine.
-/

namespace PineForge.Settlement

open Arith

/-- What a settlement answers. -/
structure Result (α : Type) where
  status : Status
  closedUnits : α
  openedUnits : α
  currentTicket : α
  firstTradeIndex : Nat := 0
  closedTradeCount : Nat := 0
  openedLotIncarnation : Nat := 0

/-- What an inspection answers. -/
structure SettlementInspection (α : Type) where
  status : Status
  closedUnits : α
  openedUnits : α
  resultingAbsUnits : α
  resultingLotCount : Nat := 0
  resultingAbsNotional : α
  currentTicket : α
  wouldOpen : Bool := false
  incomingShort : Bool := false

/-- What a projection answers. -/
structure AccountEffectProjection (α : Type) extends SettlementInspection α where
  realizedBalance : α
  remainingEntryCost : α
  markedEquity : α
  cycleAfter : Int := 0
  signedUnitsAfter : α

variable {α : Type} [Arith α]

/-- A result without effect, of this status. -/
def Result.refused (status : Status) : Result α := ⟨status, 0, 0, 0, 0, 0, 0⟩

/-- An inspection that refuses. -/
def SettlementInspection.refused (status : Status) : SettlementInspection α :=
  ⟨status, 0, 0, 0, 0, 0, 0, false, false⟩

/-- `invalid_projection`. -/
def invalidProjection (status : Status) : AccountEffectProjection α :=
  ⟨.refused status, 0, 0, 0, 0, 0⟩

/-! ## Reading a stage -/

namespace Staged

variable (s : Staged α)

/-- The opened units with their sign. -/
def openedUnits : α := if s.incoming = .short then -s.opening else s.opening

/-- Whether the execution opens a lot. -/
def opens : Bool := 0 < s.opening

/-- The lots behind the settlement. -/
def resultingLotCount : Nat := s.survivors.length + if s.opens then 1 else 0

end Staged

/-- The inspected quantities of a ready stage. -/
def Staged.inspection (e : Engine α) (s : Staged α) (fill : Fill α) : SettlementInspection α where
  status := .applied
  closedUnits := s.closed
  openedUnits := s.openedUnits
  resultingAbsUnits := s.afterQty
  resultingLotCount := s.resultingLotCount
  resultingAbsNotional := s.afterQty * Arith.abs fill.price * e.pointvalue * s.fx
  currentTicket := s.ticket
  wouldOpen := s.opens
  incomingShort := s.incoming = .short

/-- `inspect_native_settlement_stage`. -/
def inspectStage (e : Engine α) (stage : NativeSettlementStage α) (fill : Fill α) :
    SettlementInspection α :=
  match stage with
  | .invalid status => .refused status
  | .noEffect status _ => .refused status
  | .ready s =>
    if s.closed == 0 ∧ s.opening == 0 then
      { s.inspection e fill with status := noEffectStatus fill, wouldOpen := false }
    else s.inspection e fill

/-- The closing rows, in book order. -/
def buildNativeSettlementCloseRows (e : Engine α) (s : Staged α) (fill : Fill α)
    (context : PhysicalExecutionContext α) : List (Trade α) :=
  (s.closings.zip s.costs.rows).filterMap fun (c, cost) =>
    e.pyramidEntries[c.index]?.map fun lot =>
      { buildCloseTradeWithCosts e lot c.quantity fill.price s.wasLong
          (allocatedEntryCommission e lot c.quantity) cost context with
        exitId := fill.id
        exitComment := fill.comment
        closeCause := fill.closeCause }

/-! ## Projecting the account -/

/-- The account of an execution without effect. -/
def unchangedAccount (e : Engine α) (fill : Fill α) (fx : α) : AccountEffectProjection α :=
  let absUnits := heldFrom 0 e.pyramidEntries
  let notional := absUnits * Arith.abs fill.price * e.pointvalue * fx
  let remaining := sumFrom 0 (e.pyramidEntries.map (openEntryCommission e))
  let realized := e.initialCapital + e.netProfitSum
  let equity := markedEquityAt e fill.price fx
  let signed := if e.positionSide = .short then -absUnits
    else if e.positionSide = .long then absUnits else 0
  if !isFinite absUnits ∨ !isFinite notional ∨ !isFinite realized ∨ !isFinite remaining
      ∨ !isFinite equity ∨ !isFinite signed then invalidProjection .invalidAccounting
  else
    { status := .noEffect, closedUnits := 0, openedUnits := 0, resultingAbsUnits := absUnits
      resultingLotCount := e.pyramidEntries.length, resultingAbsNotional := notional
      currentTicket := 0, realizedBalance := realized, remainingEntryCost := remaining
      markedEquity := equity
      cycleAfter := if e.pyramidEntries = [] then 0 else e.positionCycleSeq
      signedUnitsAfter := signed }

/-- Profits added to a balance one by one; refused at a row that is not finite. -/
def addPnls : List (Trade α) → α → Option α
  | [], balance => some balance
  | t :: rows, balance =>
    if !isFinite t.pnl ∨ !isFinite t.commission then none else addPnls rows (balance + t.pnl)

/-- The money of a row: its profit and its commission. -/
def Trade.money (t : Trade α) : α × α := (t.pnl, t.commission)

theorem addPnls_congr {rows rows' : List (Trade α)}
    (h : rows.map Trade.money = rows'.map Trade.money)
    (balance : α) : addPnls rows balance = addPnls rows' balance := by
  induction rows generalizing rows' balance with
  | nil =>
    cases rows' with
    | nil => rfl
    | cons => cases h
  | cons t rows ih =>
    cases rows' with
    | nil => cases h
    | cons t' rows' =>
      simp only [List.map_cons, List.cons.injEq, Trade.money, Prod.mk.injEq] at h
      obtain ⟨⟨hp, hc⟩, hr⟩ := h
      simp only [addPnls, hp, hc, ih hr]

theorem buildCloseTrade_money {e : Engine α} {context context' : PhysicalExecutionContext α}
    (h : contextFx e context = contextFx e context') (pe : PyramidEntry α) (closeQty price : α)
    (wasLong : Bool) (entryCommission exitCommission : α) :
    (buildCloseTradeWithCosts e pe closeQty price wasLong entryCommission exitCommission
      context).money
      = (buildCloseTradeWithCosts e pe closeQty price wasLong entryCommission exitCommission
          context').money := by
  simp only [Trade.money, buildCloseTradeWithCosts, h]

theorem closeRows_money {e : Engine α} {context context' : PhysicalExecutionContext α}
    (h : contextFx e context = contextFx e context') (s : Staged α) (fill : Fill α) :
    (buildNativeSettlementCloseRows e s fill context).map Trade.money
      = (buildNativeSettlementCloseRows e s fill context').map Trade.money := by
  unfold buildNativeSettlementCloseRows
  rw [List.map_filterMap, List.map_filterMap]
  congr 1
  funext ⟨c, cost⟩
  simp only [Option.map_map]
  congr 1
  funext lot
  exact buildCloseTrade_money h ..

/-- The side the book stands on after the stage. -/
def Staged.resultingSide (e : Engine α) (s : Staged α) : PositionSide :=
  if s.survivors ≠ [] then e.positionSide else if s.opens then s.incoming else .flat

/-- The mark of one lot of the resulting book. -/
def lotMark (direction price fx pointvalue lotPrice qty paid : α) : α :=
  direction * (price - lotPrice) * qty * pointvalue * fx - paid

/-- The projected account of a ready stage whose rows realize `realized`. -/
def Staged.projection (e : Engine α) (s : Staged α) (fill : Fill α) (realized : α) :
    AccountEffectProjection α :=
  let direction : α := if s.resultingSide e = .short then -1 else 1
  let paid := s.survivors.map (openEntryCommission e)
  let marks := s.survivors.map fun lot =>
    lotMark direction fill.price s.fx e.pointvalue lot.price lot.qty (openEntryCommission e lot)
  let opened := s.costs.opening
  let remaining := sumFrom 0 (if s.opens then paid ++ [opened] else paid)
  let equity := sumFrom realized (if s.opens then
    marks ++ [lotMark direction fill.price s.fx e.pointvalue fill.price s.opening opened]
    else marks)
  let empty : Bool := s.resultingLotCount = 0
  { s.inspection e fill with
    realizedBalance := realized
    remainingEntryCost := remaining
    markedEquity := equity
    cycleAfter := if empty then 0 else if s.survivors ≠ [] then e.positionCycleSeq
      else e.nextPositionCycleSeq
    signedUnitsAfter := if empty then 0
      else signedSide (if s.survivors ≠ [] then e.positionSide else s.incoming) s.afterQty }

/-- The project stage's throw and its account. -/
def Staged.project (e : Engine α) (s : Staged α) (fill : Fill α) :
    Except Failure (AccountEffectProjection α) :=
  if s.opens ∧ (e.positionSide = .flat ∨ s.survivors = [])
      ∧ cycleExhausted e.nextPositionCycleSeq then
    .error (overflowError true "position cycle sequence exhausted")
  else
    let rows := buildNativeSettlementCloseRows e s fill { accountFx := some s.fx }
    match addPnls rows e.netProfitSum with
    | none => .ok (invalidProjection .invalidAccounting)
    | some net =>
      let realized := net + e.initialCapital
      let out := s.projection e fill realized
      if !isFinite realized then .ok (invalidProjection .invalidAccounting)
      else if s.survivors.any fun lot => !isFinite lot.qty || decide (lot.qty ≤ 0)
          || !isFinite lot.price then .ok (invalidProjection .invalidAccounting)
      else if !isFinite out.remainingEntryCost ∨ !isFinite out.markedEquity
          ∨ !isFinite s.afterQty ∨ !isFinite s.ticket then
        .ok (invalidProjection .invalidAccounting)
      else if !isFinite out.resultingAbsNotional ∨ !isFinite out.signedUnitsAfter then
        .ok (invalidProjection .invalidAccounting)
      else .ok out

/-- `project_native_settlement_stage`. -/
def projectStage (e : Engine α) (stage : NativeSettlementStage α) (fill : Fill α) :
    Except Failure (AccountEffectProjection α) :=
  match stage with
  | .invalid status => .ok (invalidProjection status)
  | .noEffect status fx =>
    .ok (if status ≠ .noEffect then invalidProjection status else unchangedAccount e fill fx)
  | .ready s =>
    if s.closed == 0 ∧ s.opening == 0 then
      .ok (if noEffectStatus fill = .invalidAccounting then invalidProjection .invalidAccounting
        else unchangedAccount e fill s.fx)
    else s.project e fill

/-! ## Committing -/

/-- The sums after the rows, refused at a row that is not finite. -/
def nextSums : List (Trade α) → α × α × α → Option (α × α × α)
  | [], sums => some sums
  | t :: rows, (profit, grossProfit, grossLoss) =>
    if !closedRowAllFinite t then none
    else nextSums rows (profit + t.pnl, if 0 < t.pnl then grossProfit + t.pnl else grossProfit,
      if t.pnl < 0 then grossLoss + t.pnl else grossLoss)

/-- Whether the rows and the account sums after them are finite. -/
def rowsBookable (e : Engine α) (rows : List (Trade α)) : Bool :=
  match nextSums rows (e.netProfitSum, e.grossProfitSum, e.grossLossSum) with
  | none => false
  | some (profit, grossProfit, grossLoss) =>
    isFinite profit && isFinite grossProfit && isFinite grossLoss

/-- `prepare_native_settlement_commit`: the closing rows, or the status that refuses them. -/
def prepareNativeSettlementCommit (e : Engine α) (stage : NativeSettlementStage α)
    (fill : Fill α) (context : PhysicalExecutionContext α) :
    Except Failure (Except Status (Staged α × List (Trade α))) :=
  match stage with
  | .invalid status => .ok (.error status)
  | .noEffect status _ => .ok (.error status)
  | .ready s =>
    if s.isScoped ∧ s.closed == 0 then .ok (.error (noEffectStatus fill))
    else
      let rows := buildNativeSettlementCloseRows e s fill context
      if s.opens ∧ (e.positionSide = .flat ∨ s.survivors = [])
          ∧ cycleExhausted e.nextPositionCycleSeq then
        .error (overflowError false "position cycle sequence exhausted")
      else if !isFinite s.afterQty ∨ !isFinite s.afterPrice then
        .ok (.error .invalidAccounting)
      else if !rowsBookable e rows then .ok (.error .invalidAccounting)
      else .ok (.ok (s, rows))

/-- `preflight_native_settlement_effects`: every counter the commit advances has room. -/
def preflightNativeSettlementEffects (e : Engine α) (s : Staged α) (rows : List (Trade α)) :
    Except Failure Unit := do
  validateCloseTradeCounters e rows
  if s.opens ∧ s.survivors ≠ [] ∧ e.positionEntryCount = intMax then
    throw (overflowError true "position entry counter exhausted")
  let events := rows.length + if s.opens then 1 else 0
  if e.streamObserveActions ∧ uint64Max - e.streamActionSequence < events then
    throw (overflowError true "stream action sequence overflow")

/-- Record closed lots in order. -/
def recordCloseTrades : List (Trade α) → EngineM α Unit
  | [] => pure ()
  | t :: rows => do
    recordCloseTrade t
    recordCloseTrades rows

/-- The lot an execution opens. -/
def openedLot (opening cost : α) (fill : Fill α) (context : PhysicalExecutionContext α) :
    PyramidEntry α where
  price := fill.price
  time := context.effectiveTimeMs
  qty := opening
  entryId := fill.id
  entryBarIndex := context.intervalIndex
  entryComment := fill.comment
  maxRunup := 0
  maxDrawdown := 0
  entryCommissionAccount := some cost
  entryIncarnation := fill.incarnation

@[simp] theorem openedLot_qty (opening cost : α) (fill : Fill α)
    (context : PhysicalExecutionContext α) : (openedLot opening cost fill context).qty = opening :=
  rfl

@[simp] theorem openedLot_price (opening cost : α) (fill : Fill α)
    (context : PhysicalExecutionContext α) :
    (openedLot opening cost fill context).price = fill.price := rfl

/-- The book after the closes of a stage. -/
def closeBook (e : Engine α) (s : Staged α) : Engine α :=
  if 0 < s.closed then
    if s.survivors = [] then resetPositionStateToFlat e
    else { e with
      pyramidEntries := s.survivors
      positionQty := s.afterQty
      positionEntryPrice := s.afterPrice
      positionEntryCount := Int.bmod s.survivors.length (2 ^ 32) }
  else e

/-- Install the opened lot: on a flat book as a new position, else beside the held lots. -/
def openLot (opens : Bool) (incoming : PositionSide) (lot : PyramidEntry α)
    (afterQty afterPrice : α) : EngineM α Unit := do
  if opens then
    if (← get).positionSide = .flat then openQuotedPosition incoming lot
    else appendQuotedLot lot afterQty afterPrice

/-- Refresh the metadata of the actions observed since `start`. -/
def refreshSince (start : Engine α) (e : Engine α) : Engine α :=
  if e.streamObserveActions then
    streamRefreshActionMetadata e start.streamOrderActions.length start.trades.length
  else e

/-- Commit prepared rows. -/
def commitPreparedNativeSettlementStage (s : Staged α) (fill : Fill α)
    (context : PhysicalExecutionContext α) (rows : List (Trade α)) : EngineM α (Result α) := do
  let start ← get
  recordCloseTrades rows
  modify fun e => closeBook e s
  openLot s.opens s.incoming (openedLot s.opening s.costs.opening fill context) s.afterQty
    s.afterPrice
  modify fun e => refreshSince start e
  return {
    status := .applied
    closedUnits := s.closed
    openedUnits := s.openedUnits
    currentTicket := s.ticket
    firstTradeIndex := start.trades.length
    closedTradeCount := rows.length
    openedLotIncarnation := if s.opens then fill.incarnation else 0 }

/-- Prepare, check and commit a stage. -/
def commitNativeSettlementStage (stage : NativeSettlementStage α) (fill : Fill α)
    (context : PhysicalExecutionContext α) : EngineM α (Result α) := do
  match ← EngineM.check fun e => prepareNativeSettlementCommit e stage fill context with
  | .error status => return .refused status
  | .ok (s, rows) =>
    EngineM.check fun e => preflightNativeSettlementEffects e s rows
    commitPreparedNativeSettlementStage s fill context rows

/-- What a preview answers: the readiness of the commit, the account it would leave, and the
profits of its rows. -/
structure Preview (α : Type) where
  readiness : Status
  account : AccountEffectProjection α
  rowPnl : List α

/-- The readiness and the row profits of a prepared commit. -/
def readinessOf : Except Status (Staged α × List (Trade α)) → Status × List α
  | .error status => (status, [])
  | .ok (_, rows) => (.applied, rows.map (·.pnl))

/-- `preview_native_settlement_commit` on a stage. -/
def previewStage (e : Engine α) (stage : NativeSettlementStage α) (fill : Fill α)
    (context : PhysicalExecutionContext α) : Except Failure (Preview α) := do
  let prepared ← prepareNativeSettlementCommit e stage fill context
  let account ← projectStage e stage fill
  let (readiness, rowPnl) := readinessOf prepared
  return ⟨readiness, account, rowPnl⟩

end PineForge.Settlement
