import PineForge.Settlement.Commit

/-!
# The fused one-lot settlement and the entry points

`NativeSettlementStage::OneLot` stages, inspects, projects and settles an execution on a book of
at most one lot that leaves no survivor, in one pass and without the staged chain's vectors. Every
entry point asks it first (`admits`) and runs the staged chain when it declines.
-/

namespace PineForge.Settlement

open Arith

/-- The fused stage: the staged scalars for at most one closed lot and one opening. -/
structure OneLot (α : Type) where
  incoming : PositionSide
  wasLong : Bool
  closes : Bool
  closing : α
  closed : α
  opening : α
  closeCost : α
  openCost : α
  ticket : α
  afterQty : α
  afterPrice : α
  fx : α

variable {α : Type} [Arith α]

namespace OneLot

/-- What the fused stage fixes before the fees. -/
structure Draft (α : Type) where
  incoming : PositionSide
  wasLong : Bool
  closes : Bool
  closing : α
  closed : α
  opening : α

/-- `OneLot::quote`: the close cost and the opening cost. -/
def quote (e : Engine α) (d : Draft α) (fill : Fill α) (fx : α) : Except Failure (α × α) :=
  if fill.commissionAccount.isNone ∧ e.commissionType ≠ .cashPerOrder then do
    let closeCost ← if d.closes then nativeModeledCommission e fill.price fx d.closing else .ok 0
    let openCost ← if 0 < d.opening then nativeModeledCommission e fill.price fx d.opening
      else .ok 0
    return (closeCost, openCost)
  else
    let units := if d.closes then d.opening + d.closing else d.opening
    if units == 0 then .ok (0, 0)
    else if !isFinite units then .error (feeInvalid "numeric_overflow")
    else
      let quoted := fill.commissionAccount.getD (calcCommission e fill.price units)
      if !isFinite quoted then
        .error (feeInvalid (if fill.commissionAccount.isSome then "nonfinite"
          else "numeric_overflow"))
      else if d.closes then
        let share := clampShare quoted
          (if d.opening == 0 then quoted else quoted * (d.closing / units)) quoted
        .ok (share, if 0 < d.opening then quoted - share else 0)
      else .ok (0, if 0 < d.opening then quoted else 0)

/-- `OneLot::finish`; `none` declines. -/
def finish (e : Engine α) (d : Draft α) (fill : Fill α) (fx : α) :
    Except Failure (Option (OneLot α)) := do
  let (closeCost, openCost) ← quote e d fill fx
  let summed ← ticketSum (if d.closes then [closeCost, openCost] else [openCost]) 0
  let opens : Bool := 0 < d.opening
  let next := 0 + d.opening
  if opens ∧ !isFinite next then return none
  return some {
    incoming := d.incoming, wasLong := d.wasLong, closes := d.closes, closing := d.closing
    closed := d.closed, opening := d.opening, closeCost := closeCost, openCost := openCost
    ticket := fill.commissionAccount.getD summed
    afterQty := if opens then next else 0
    afterPrice := if opens then fill.price else 0
    fx := fx }

/-- The fused allocation of an action on the selected lot. -/
def stageAllocated (e : Engine α) (action : Action α) (fill : Fill α) (s : Selection α) (fx : α) :
    Except Failure (Option (OneLot α)) :=
  match e.pyramidEntries with
  | [] =>
    finish e {
      incoming := incomingSide action, wasLong := e.positionSide = .long
      closes := false, closing := 0, closed := 0
      opening := if !action.isTransact then 0
        else if opposes e action then allocationRequest action s else action.requested } fill fx
  | lot :: _ =>
    let closesMember := (action.isFlatten || action.isReduce || opposes e action)
      && s.membership.contains lot
    let (split, w) := closeSplit lot closesMember action.isFlatten (allocationRequest action s)
      e.nativeQuantityTolerance ⟨0, allocationRequest action s⟩
    -- an addition keeps the lot whole and a cut close keeps a part of it
    if split.status ≠ .applied ∨ split.amount == 0 ∨ split.kept != 0 then .ok none
    else
      let w := finishTolerantWalk e.nativeQuantityTolerance closesMember action.isFlatten
        (allocationRequest action s) w
      finish e {
        incoming := incomingSide action, wasLong := e.positionSide = .long
        closes := true, closing := split.amount, closed := w.closed
        opening := if !action.isTransact then 0
          else if opposes e action then w.remaining else action.requested } fill fx

/-- `OneLot::stage` of an action; `none` declines. -/
def stage (e : Engine α) (action : Action α) (fill : Fill α) (scope : CloseScope)
    (lifecycle : Option LifecycleEffects) (fx : α) : Except Failure (Option (OneLot α)) :=
  if 1 < e.pyramidEntries.length then .ok none
  else if !isFinite fill.price then .ok none
  else if fill.commissionAccount.any (!isFinite ·) then .ok none
  else if !isFinite action.requested ∨ (action.isReduce ∧ action.requested < 0) then .ok none
  else
    match validateNativeSettlementBook e with
    | none => .ok none
    | some held =>
      if nonemptyLifecycleRefused lifecycle then .ok none
      else
        match inspectCloseScope scope action e.positionCycleSeq e.pyramidEntries held with
        | .error _ => .ok none
        | .ok scopeHeld =>
          let s : Selection α := ⟨.scope scope, scopeHeld, scope.isOpening⟩
          if !action.isFlatten ∧ action.requested == 0 then .ok none
          else if (action.isFlatten ∨ action.isReduce) ∧ e.pyramidEntries = [] then .ok none
          else if !planned e action s.held (allocationRequest action s) then .ok none
          else stageAllocated e action fill s fx

/-- `OneLot::stage` of a reversal; `none` declines. -/
def stageReversal (e : Engine α) (signedUnits : α) (fill : Fill α)
    (lifecycle : Option LifecycleEffects) (fx : α) : Except Failure (Option (OneLot α)) :=
  match e.pyramidEntries with
  | [lot] =>
    if !isFinite fill.price then .ok none
    else if fill.commissionAccount.any (!isFinite ·) then .ok none
    else if !isFinite signedUnits ∨ signedUnits == 0 then .ok none
    else if (validateNativeSettlementBook e).isNone then .ok none
    else if nonemptyLifecycleRefused lifecycle then .ok none
    else
      let incoming : PositionSide := if signedUnits < 0 then .short else .long
      if e.positionSide = .flat ∨ e.positionSide = incoming then .ok none
      else
        let (split, w) := nextCloseSplit lot true true 0 ⟨0, 0⟩
        if split.status ≠ .applied then .ok none
        else
          let opening := Arith.abs signedUnits
          if !isFinite (w.closed + opening) then .ok none
          else
            finish e {
              incoming := incoming, wasLong := e.positionSide = .long, closes := true
              closing := split.amount, closed := w.closed, opening := opening } fill fx
  | _ => .ok none

/-- Whether a lot is opened. -/
def opens (o : OneLot α) : Bool := 0 < o.opening

/-- The opened units with their sign. -/
def openedUnits (o : OneLot α) : α := if o.incoming = .short then -o.opening else o.opening

/-- The one closing row, before its exit id, comment and cause; none when nothing closes. -/
def closeRow (e : Engine α) (o : OneLot α) (fill : Fill α) (context : PhysicalExecutionContext α) :
    Option (Trade α) :=
  if o.closes then
    e.pyramidEntries.head?.map fun lot =>
      buildCloseTradeWithCosts e lot o.closing fill.price o.wasLong
        (allocatedEntryCommission e lot o.closing) o.closeCost context
  else none

/-- `inspect` on one lot. -/
def inspect (e : Engine α) (o : OneLot α) (fill : Fill α) : SettlementInspection α where
  status := .applied
  closedUnits := o.closed
  openedUnits := o.openedUnits
  resultingAbsUnits := o.afterQty
  resultingLotCount := if o.opens then 1 else 0
  resultingAbsNotional := o.afterQty * Arith.abs fill.price * e.pointvalue * o.fx
  currentTicket := o.ticket
  wouldOpen := o.opens
  incomingShort := o.incoming = .short

/-- The account of the fused stage once its row realized `realized`. -/
def projection (e : Engine α) (o : OneLot α) (fill : Fill α) (realized : α) :
    AccountEffectProjection α :=
  let direction : α := if (if o.opens then o.incoming else .flat) = .short then -1 else 1
  let remaining := if o.opens then 0 + o.openCost else 0
  let equity := if o.opens then realized
    + lotMark direction fill.price o.fx e.pointvalue fill.price o.opening o.openCost else realized
  { o.inspect e fill with
    realizedBalance := realized
    remainingEntryCost := remaining
    markedEquity := equity
    cycleAfter := if o.opens then e.nextPositionCycleSeq else 0
    signedUnitsAfter := if o.opens then signedSide o.incoming o.afterQty else 0 }

/-- `OneLot::project`; `row` is the row a preview already built. -/
def project (e : Engine α) (o : OneLot α) (fill : Fill α) (row : Option (Trade α)) :
    Except Failure (AccountEffectProjection α) :=
  if o.opens ∧ cycleExhausted e.nextPositionCycleSeq then
    .error (overflowError true "position cycle sequence exhausted")
  else
    let row := if o.closes ∧ row.isNone then o.closeRow e fill { accountFx := some o.fx } else row
    match addPnls row.toList e.netProfitSum with
    | none => .ok (invalidProjection .invalidAccounting)
    | some net =>
      let realized := net + e.initialCapital
      let out := o.projection e fill realized
      if !isFinite realized then .ok (invalidProjection .invalidAccounting)
      else if !isFinite out.remainingEntryCost ∨ !isFinite out.markedEquity
          ∨ !isFinite o.afterQty ∨ !isFinite o.ticket then
        .ok (invalidProjection .invalidAccounting)
      else if !isFinite out.resultingAbsNotional ∨ !isFinite out.signedUnitsAfter then
        .ok (invalidProjection .invalidAccounting)
      else .ok out

/-- `OneLot::prepare`. -/
def prepare (e : Engine α) (o : OneLot α) (row : Option (Trade α)) : Except Failure Status :=
  if o.opens ∧ cycleExhausted e.nextPositionCycleSeq then
    .error (overflowError true "position cycle sequence exhausted")
  else if !isFinite o.afterQty ∨ !isFinite o.afterPrice then .ok .invalidAccounting
  else if !rowsBookable e row.toList then .ok .invalidAccounting
  else .ok .applied

/-- `preview` on one lot. -/
def preview (e : Engine α) (o : OneLot α) (fill : Fill α) (context : PhysicalExecutionContext α) :
    Except Failure (Preview α) := do
  let row := o.closeRow e fill context
  let readiness ← o.prepare e row
  let account ← o.project e fill (if e.lotExcursionHook.isNone then row else none)
  return ⟨readiness, account, if readiness = .applied then row.toList.map (·.pnl) else []⟩

/-- The closing row with the exit facts of the fill. -/
def settledRow (e : Engine α) (o : OneLot α) (fill : Fill α)
    (context : PhysicalExecutionContext α) : Option (Trade α) :=
  (o.closeRow e fill context).map fun row =>
    { row with exitId := fill.id, exitComment := fill.comment, closeCause := fill.closeCause }

/-- The counters of `OneLot::settle`; nothing survives, so the entry counter is not asked. -/
def preflight (e : Engine α) (o : OneLot α) (rows : List (Trade α)) : Except Failure Unit := do
  validateCloseTradeCounters e rows
  let events := rows.length + if o.opens then 1 else 0
  if e.streamObserveActions ∧ uint64Max - e.streamActionSequence < events then
    throw (overflowError true "stream action sequence overflow")

/-- The effects of `OneLot::settle`, once every test passed. -/
def commit (o : OneLot α) (fill : Fill α) (context : PhysicalExecutionContext α)
    (rows : List (Trade α)) : EngineM α (Result α) := do
  let start ← get
  recordCloseTrades rows
  modify fun e => if 0 < o.closed then resetPositionStateToFlat e else e
  openLot o.opens o.incoming (openedLot o.opening o.openCost fill context) o.afterQty o.afterPrice
  modify fun e => refreshSince start e
  return {
    status := .applied
    closedUnits := o.closed
    openedUnits := o.openedUnits
    currentTicket := o.ticket
    firstTradeIndex := start.trades.length
    closedTradeCount := rows.length
    openedLotIncarnation := if o.opens then fill.incarnation else 0 }

/-- `settle` on one lot. -/
def settle (o : OneLot α) (fill : Fill α) (context : PhysicalExecutionContext α) :
    EngineM α (Result α) := do
  let row := o.settledRow (← get) fill context
  let status ← EngineM.check fun e => o.prepare e row
  if status ≠ .applied then return .refused status
  EngineM.check fun e => o.preflight e row.toList
  o.commit fill context row.toList

end OneLot

/-! ## Entry points -/

/-- One execution: an action on a scope or a selection, or a reversal to an exact exposure. -/
inductive Execution (α : Type) where
  | act (action : Action α) (scope : CloseScope) (selected : Option SelectedOpeningSet)
  | reverse (signedUnits : α)

/-- The staged chain's stage of an execution. -/
def Execution.stage (x : Execution α) (e : Engine α) (fill : Fill α)
    (lifecycle : Option LifecycleEffects) (fx : α) : Except Failure (NativeSettlementStage α) :=
  match x with
  | .act action scope selected => stageNativeSettlement e action fill scope selected lifecycle fx
  | .reverse signedUnits => stageNativeReversal e signedUnits fill lifecycle fx

/-- `OneLot::admit`: the fused stage, unless the pass is switched off, the execution has a
selection or `stage` declines. -/
def OneLot.admits (fused : Bool) (x : Execution α) (e : Engine α) (fill : Fill α)
    (lifecycle : Option LifecycleEffects) (fx : α) : Except Failure (Option (OneLot α)) :=
  if !fused then .ok none
  else
    match x with
    | .act action scope none => OneLot.stage e action fill scope lifecycle fx
    | .act _ _ (some _) => .ok none
    | .reverse signedUnits => OneLot.stageReversal e signedUnits fill lifecycle fx

/-- `inspect_with_membership` and `inspect_native_reversal_at`. -/
def inspectExecution (fused : Bool) (x : Execution α) (e : Engine α) (fill : Fill α) (fx : α) :
    Except Failure (SettlementInspection α) := do
  match ← OneLot.admits fused x e fill none fx with
  | some o => return o.inspect e fill
  | none => return inspectStage e (← x.stage e fill none fx) fill

/-- `project_with_membership` and `project_native_reversal_v1`. -/
def projectExecution (fused : Bool) (x : Execution α) (e : Engine α) (fill : Fill α) (fx : α) :
    Except Failure (AccountEffectProjection α) := do
  match ← OneLot.admits fused x e fill none fx with
  | some o => o.project e fill none
  | none => projectStage e (← x.stage e fill none fx) fill

/-- `OneLot::preview_keeping`, the body of `preview_native_settlement_commit`. -/
def previewExecution (fused : Bool) (x : Execution α) (e : Engine α) (fill : Fill α)
    (context : PhysicalExecutionContext α) : Except Failure (Preview α) := do
  match ← OneLot.admits fused x e fill none (contextFx e context) with
  | some o => o.preview e fill context
  | none => previewStage e (← x.stage e fill none (contextFx e context)) fill context

/-- `settle_with_membership` and `settle_native_reversal_at_v1`. -/
def settleExecution (fused : Bool) (x : Execution α) (fill : Fill α)
    (lifecycle : LifecycleEffects) (context : PhysicalExecutionContext α) :
    EngineM α (Result α) := do
  match ← EngineM.check fun e =>
      OneLot.admits fused x e fill (some lifecycle) (contextFx e context) with
  | some o => o.settle fill context
  | none =>
    let stage ← EngineM.check fun e => x.stage e fill (some lifecycle) (contextFx e context)
    commitNativeSettlementStage stage fill context

end PineForge.Settlement
