import Mathlib

/-!
# The intraday cap on filled orders

A strategy may fill only so many orders on one risk day. The budget charges a matched attempt before
it is dispatched and a direct close after it is committed. A counted close may lend its slot to one
order on the opposite side, which is then admitted without a charge. When the limit is reached the
position is closed and the cap is latched for the rest of the day.
-/

namespace PineForge.Intraday

/-- A day of order risk. -/
structure OrderRiskDay where
  key : ℤ
deriving DecidableEq, Repr

/-- The slot of a committed close that its designated opposite order may take over. -/
structure CloseQuotaTransfer where
  day : OrderRiskDay
  closeFill : ℕ
  sourceBar : ℤ
  inheritor : ℕ
deriving DecidableEq, Repr

/-- What the budget says of an attempt. -/
inductive QuotaAdmission
  | blocked | belowLimit | reachedLimit
deriving DecidableEq, Repr

/-- The slots of a day. -/
structure IntradayOrderBudget where
  day : Option OrderRiskDay
  chargedSlots : ℤ
  latched : Bool
  transfer : Option CloseQuotaTransfer
deriving DecidableEq, Repr

namespace IntradayOrderBudget

/-- A budget before its first day. -/
def empty : IntradayOrderBudget :=
  { day := none, chargedSlots := 0, latched := false, transfer := none }

/-- Enter a day with a fresh budget. -/
def enterDay (b : IntradayOrderBudget) (day : OrderRiskDay) : IntradayOrderBudget :=
  if b.day = some day then b
  else { day := some day, chargedSlots := 0, latched := false, transfer := none }

/-- Block the rest of the day. -/
def latch (b : IntradayOrderBudget) : IntradayOrderBudget :=
  if b.day.isSome then { b with latched := true } else b

/-- Forget the lent slot. -/
def expireTransfer (b : IntradayOrderBudget) : IntradayOrderBudget := { b with transfer := none }

/-- An attempt that is not made frees its loan. -/
def decline (b : IntradayOrderBudget) (incarnation : ℕ) : IntradayOrderBudget :=
  match b.transfer with
  | some t => if t.inheritor = incarnation then b.expireTransfer else b
  | none => b

/-- Whether an attempt inherits the closed slot. -/
def canInherit (b : IntradayOrderBudget) (day : OrderRiskDay) (bar : ℤ) (incarnation : ℕ)
    (latestCommittedFill : ℕ) : Bool :=
  match b.transfer with
  | some t => b.day = some day ∧ t.day = day ∧ t.sourceBar = bar ∧ incarnation ≠ 0 ∧
      t.inheritor = incarnation ∧ t.closeFill = latestCommittedFill
  | none => false

/-- A matched attempt is charged before it is dispatched. -/
def admitMatchedAttempt (b : IntradayOrderBudget) (day : OrderRiskDay) (limit bar : ℤ)
    (incarnation latestCommittedFill : ℕ) : IntradayOrderBudget × QuotaAdmission :=
  let b := b.enterDay day
  let inherited := b.canInherit day bar incarnation latestCommittedFill
  if b.latched ∧ ¬inherited then (b, .blocked)
  else
    let b := if inherited then b.expireTransfer else { b with chargedSlots := b.chargedSlots + 1 }
    (b, if b.chargedSlots ≥ limit then .reachedLimit else .belowLimit)

/-- A direct close is charged after it committed, and may lend its slot. -/
def countCommittedClose (b : IntradayOrderBudget) (day : OrderRiskDay) (limit : ℤ) (closeFill : ℕ)
    (sourceBar : ℤ) (inheritor : ℕ) : IntradayOrderBudget :=
  let b := (b.enterDay day).expireTransfer
  if b.latched then b
  else
    let b := { b with
      chargedSlots := b.chargedSlots + 1
      transfer := if inheritor ≠ 0 then some ⟨day, closeFill, sourceBar, inheritor⟩ else none }
    if b.chargedSlots ≥ limit then b.latch else b

end IntradayOrderBudget

/-! ## The component -/

/-- Whether a source attached the cap. -/
inductive CapAttachment
  | legacySource | none
deriving DecidableEq, Repr

/-- Whether an order is dispatched. -/
inductive Dispatch
  | allow | decline
deriving DecidableEq, Repr

/-- What a dispatched order did. -/
inductive FillOutcome
  | noEffect | committed
deriving DecidableEq, Repr

/-- Whose slot an attempt uses. -/
inductive AttemptOrigin
  | independent | closeQuotaBeneficiary
deriving DecidableEq, Repr

/-- The kinds of orders the cap tells apart. -/
inductive OrderKind
  | market | entry | other
deriving DecidableEq, Repr

/-- The side of the position. -/
inductive Side
  | flat | long | short
deriving DecidableEq, Repr

/-- What the script declared of the cap. -/
structure CapConfiguration where
  limit : ℤ
  skipNoopMarket : Bool
  deferPoocClose : Bool
  countPoocFullClose : Bool

/-- The switches that the host declared. -/
structure Declared where
  skipNoopMarket : Bool
  deferPoocClose : Bool
  countPoocFullClose : Bool

/-- What the cap reads of a calculation. -/
structure Calculation where
  processOnClose : Bool
  calcOnFills : Bool
  coofScheduler : Bool
  magnifier : Bool
  streamWarmup : Bool
  streamIdle : Bool
  fifo : Bool
  bar : ℤ

/-- An order about to be dispatched. -/
structure MatchedAttempt where
  kind : OrderKind
  incarnation : ℕ
  createdBar : ℤ
  isLong : Bool
  liveSide : Side
  liveEntries : ℤ
  pyramiding : ℤ

/-- The order that used the last slot. -/
structure QuotaTrigger where
  day : OrderRiskDay
  chargedSlots : ℤ
deriving DecidableEq

/-- What is decided before a dispatch. -/
structure Admission where
  dispatch : Dispatch
  trigger : Option QuotaTrigger
deriving DecidableEq

/-- An order that may inherit a slot. -/
structure ContinuationCandidate where
  kind : OrderKind
  createdBar : ℤ
  isLong : Bool
  createdSeq : ℤ
  incarnation : ℕ

/-- Why a position is closed. -/
structure CloseCause where
  actionId : ℕ
  chargedDay : OrderRiskDay
  chargedSlots : ℤ
  triggerBar : ℤ
  triggerOrder : ℕ

/-- The prices a close is decided on. -/
structure Prices (π : Type) where
  fill : π
  openPrice : π
  high : π
  low : π

/-- The close that a trigger asks for. -/
structure PositionCloseRequest where
  action : ℕ
  cycle : ℤ
  bar : ℤ
  comment : String

/-- When the position is closed. -/
inductive CloseDecision (π : Type)
  | nothing
  | closeNow (request : PositionCloseRequest) (price : π)
  | closeNextOpen (request : PositionCloseRequest)

/-- The cap's state. -/
structure IntradayCap where
  attachment : CapAttachment
  configuration : CapConfiguration
  declared : Declared
  budget : IntradayOrderBudget
  dueCause : Option CloseCause
  nextAction : ℕ

namespace IntradayCap

/-- `attach`. -/
def attach (cap : IntradayCap) : IntradayCap := { cap with attachment := .legacySource }

/-- A statement of the script sets the limit, and nothing else of the ledger. -/
def assign (cap : IntradayCap) (limit : ℤ) : IntradayCap :=
  { cap.attach with configuration := { cap.configuration with limit := limit } }

/-- The cap has a limit to hold. -/
def active (cap : IntradayCap) : Prop := cap.attachment ≠ .none ∧ cap.configuration.limit > 0

instance (cap : IntradayCap) : Decidable cap.active := inferInstanceAs (Decidable (_ ∧ _))

/-- Declared switches; `enabled` is whether the value is finite and positive. -/
def metadata (cap : IntradayCap) (key : String) (enabled : Bool) : IntradayCap :=
  if key = "intraday_cap_skip_noop_market_fills" then
    { cap with
      configuration := { cap.configuration with skipNoopMarket := enabled }
      declared := { cap.declared with skipNoopMarket := true } }
  else if key = "intraday_cap_defer_pooc_close" then
    { cap with
      configuration := { cap.configuration with deferPoocClose := enabled }
      declared := { cap.declared with deferPoocClose := true } }
  else if key = "intraday_cap_count_pooc_full_close_fills" then
    { cap with
      configuration := { cap.configuration with countPoocFullClose := enabled }
      declared := { cap.declared with countPoocFullClose := true } }
  else cap

/-- Every switch that was not declared is on. -/
def adoptScriptCount (cap : IntradayCap) : IntradayCap :=
  { cap with configuration := { cap.configuration with
      skipNoopMarket := !cap.declared.skipNoopMarket || cap.configuration.skipNoopMarket
      deferPoocClose := !cap.declared.deferPoocClose || cap.configuration.deferPoocClose
      countPoocFullClose := !cap.declared.countPoocFullClose || cap.configuration.countPoocFullClose
        } }

/-- A calculation on close, without ticks. -/
def ordinary (c : Calculation) : Prop :=
  c.processOnClose ∧ ¬c.calcOnFills ∧ ¬c.magnifier ∧ ¬c.streamWarmup ∧ c.streamIdle

instance (c : Calculation) : Decidable (ordinary c) := inferInstanceAs (Decidable (_ ∧ _))

/-- Whether an order may be placed. -/
def placement (cap : IntradayCap) (day : OrderRiskDay) : IntradayCap × Bool :=
  if cap.active then
    let cap := { cap with budget := cap.budget.enterDay day }
    (cap, !cap.budget.latched)
  else (cap, true)

/-- `decline`. -/
def decline (cap : IntradayCap) (incarnation : ℕ) : IntradayCap :=
  { cap with budget := cap.budget.decline incarnation }

/-- A market order on the side of a full position fills nothing. -/
def noopMarket (attempt : MatchedAttempt) : Prop :=
  attempt.kind = .market ∧ attempt.liveSide ≠ .flat ∧
    (decide (attempt.liveSide = .long)) = attempt.isLong ∧ attempt.liveEntries ≥ attempt.pyramiding

instance (attempt : MatchedAttempt) : Decidable (noopMarket attempt) :=
  inferInstanceAs (Decidable (_ ∧ _))

/-- The incarnation under which an attempt may inherit a slot. -/
def inheritorOf (cap : IntradayCap) (attempt : MatchedAttempt) : ℕ :=
  if cap.configuration.countPoocFullClose then attempt.incarnation else 0

/-- Admit an attempt against the limit. -/
def preDispatch (cap : IntradayCap) (day : OrderRiskDay) (context : Calculation)
    (attempt : MatchedAttempt) (latestFill : ℕ) : IntradayCap × Admission :=
  if ¬cap.active then (cap, ⟨.allow, none⟩)
  else if cap.configuration.skipNoopMarket ∧ noopMarket attempt then
    (cap.decline attempt.incarnation, ⟨.decline, none⟩)
  else
    let (budget, result) := cap.budget.admitMatchedAttempt day cap.configuration.limit context.bar
      (cap.inheritorOf attempt) latestFill
    let cap := { cap with budget := budget }
    match result with
    | .blocked => (cap, ⟨.decline, none⟩)
    | .reachedLimit => (cap, ⟨.allow, some ⟨day, cap.budget.chargedSlots⟩⟩)
    | .belowLimit => (cap, ⟨.allow, none⟩)

/-- A committed independent fill ends the loan. -/
def outcome (cap : IntradayCap) (o : FillOutcome) (from_ : AttemptOrigin) : IntradayCap :=
  if o = .committed ∧ from_ = .independent then { cap with budget := cap.budget.expireTransfer }
  else cap

/-- A market order of this bar on the side opposite to the position that was closed. -/
def continues (c : Calculation) (before : Side) (candidate : ContinuationCandidate) : Prop :=
  candidate.kind = .market ∧ candidate.createdBar = c.bar ∧
    candidate.isLong ≠ decide (before = .long)

instance (c : Calculation) (before : Side) (candidate : ContinuationCandidate) :
    Decidable (continues c before candidate) := inferInstanceAs (Decidable (_ ∧ _))

/-- The continuation that was created first. -/
def selectContinuation (c : Calculation) (before : Side) :
    List ContinuationCandidate → Option ContinuationCandidate → Option ContinuationCandidate
  | [], selected => selected
  | candidate :: candidates, selected =>
    selectContinuation c before candidates
      (if ¬continues c before candidate then selected
      else match selected with
        | none => some candidate
        | some s => if candidate.createdSeq < s.createdSeq then some candidate else some s)

/-- The incarnation of the order that may inherit the slot of a close; zero when there is none. -/
def designated (c : Calculation) (before : Side) (candidates : List ContinuationCandidate) : ℕ :=
  match selectContinuation c before candidates none with
  | some candidate => candidate.incarnation
  | none => 0

/-- Count a close, and lend its slot. -/
def committedClose (cap : IntradayCap) (day : OrderRiskDay) (c : Calculation)
    (before : Side) (fill : ℕ)
    (candidates : List ContinuationCandidate) : IntradayCap :=
  { cap with
    budget := cap.budget.countCommittedClose day cap.configuration.limit fill c.bar
      (designated c before candidates) }

variable {π : Type} [LT π] [DecidableLT π]

/-- What follows the order that triggered. -/
def postDispatch (cap : IntradayCap) (admission : Admission) (c : Calculation)
    (attempt : MatchedAttempt) (side : Side) (cycle : ℤ) (prices : Prices π) :
    IntradayCap × CloseDecision π :=
  match admission.trigger with
  | none => (cap, .nothing)
  | some trigger =>
    if side = .flat then ({ cap with budget := cap.budget.latch }, .nothing)
    else
      let action := cap.nextAction
      let cap := { cap with nextAction := action + 1 }
      let request : PositionCloseRequest :=
        { action := action, cycle := cycle, bar := c.bar,
          comment := "Close Position (Max number of filled orders in one day)" }
      if cap.configuration.deferPoocClose ∧ ordinary c ∧ attempt.kind = .market ∧
          attempt.createdBar = c.bar then
        let cause : CloseCause :=
          { actionId := action, chargedDay := trigger.day, chargedSlots := trigger.chargedSlots,
            triggerBar := c.bar, triggerOrder := attempt.incarnation }
        ({ cap with budget := cap.budget.latch, dueCause := some cause }, .closeNextOpen request)
      else
        let price :=
          if attempt.kind = .market ∨ attempt.kind = .entry then
            if side = .long ∧ prices.openPrice < prices.fill then prices.high
            else if side = .short ∧ prices.fill < prices.openPrice then prices.low
            else prices.fill
          else prices.fill
        (cap, .closeNow request price)

/-- The day is over once its close was tried. -/
def afterImmediateCloseAttempt (cap : IntradayCap) : IntradayCap :=
  { cap with budget := cap.budget.latch }

/-- A bar opens: loans and due closes end. -/
def ordinaryOpen (cap : IntradayCap) (bar : ℤ) : IntradayCap :=
  { cap with
    budget := cap.budget.expireTransfer
    dueCause := match cap.dueCause with
      | some cause => if bar > cause.triggerBar then none else some cause
      | none => none }

/-- The end of a batch ends the loan. -/
def sourceBatchEnd (cap : IntradayCap) : IntradayCap :=
  { cap with budget := cap.budget.expireTransfer }

end IntradayCap

end PineForge.Intraday
