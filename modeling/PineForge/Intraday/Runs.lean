import PineForge.Intraday.Cap

/-!
# Runs of the intraday cap

A run is a sequence of calls of the component, with the fills that the broker commits between them.
The host keeps a protocol: it dispatches an admission that reached the limit, and attempts the close
that this asks for, before it asks for the next admission or counts a close.
-/

namespace PineForge.Intraday

/-- A call of the component, or a fill that the broker commits. -/
inductive Call (κ π : Type)
  | attach
  | assign (limit : ℤ)
  | metadata (key : String) (enabled : Bool)
  | adoptScriptCount
  | placement (clock : κ)
  | decline (incarnation : ℕ)
  | preDispatch (clock : κ) (context : Calculation) (attempt : MatchedAttempt) (latestFill : ℕ)
  | outcome (o : FillOutcome) (from_ : AttemptOrigin)
  | committedClose (clock : κ) (c : Calculation) (before : Side) (fill : ℕ)
      (candidates : List ContinuationCandidate)
  | postDispatch (admission : Admission) (c : Calculation) (attempt : MatchedAttempt) (side : Side)
      (cycle : ℤ) (prices : Prices π)
  | afterImmediateCloseAttempt
  | ordinaryOpen (bar : ℤ)
  | sourceBatchEnd
  | fillCommitted (fill : ℕ)

/-- What the host still owes to an admission that reached the limit. -/
inductive Owed
  | nothing
  | dispatch (admission : Admission)
  | close
deriving DecidableEq

/-- The component, what the host owes to it, and the latest fill of the broker. -/
structure Run where
  cap : IntradayCap
  owed : Owed
  latestFill : ℕ

section

variable {κ π : Type} [LT π] [DecidableLT π] (riskDay : κ → OrderRiskDay)

/-- What is owed after a dispatch. -/
def Owed.afterPostDispatch (owed : Owed) (admission : Admission) (decision : CloseDecision π) :
    Owed :=
  if owed = .dispatch admission then
    match decision with
    | .closeNow _ _ => .close
    | _ => .nothing
  else owed

/-- One call. -/
def Run.step (s : Run) : Call κ π → Run
  | .attach => { s with cap := s.cap.attach }
  | .assign limit => { s with cap := s.cap.assign limit }
  | .metadata key enabled => { s with cap := s.cap.metadata key enabled }
  | .adoptScriptCount => { s with cap := s.cap.adoptScriptCount }
  | .placement clock => { s with cap := (s.cap.placement (riskDay clock)).1 }
  | .decline incarnation => { s with cap := s.cap.decline incarnation }
  | .preDispatch clock context attempt latestFill =>
    let (cap, admission) := s.cap.preDispatch (riskDay clock) context attempt latestFill
    { s with cap := cap, owed := if admission.trigger.isSome then .dispatch admission else s.owed }
  | .outcome o from_ => { s with cap := s.cap.outcome o from_ }
  | .committedClose clock c before fill candidates =>
    { s with cap := s.cap.committedClose (riskDay clock) c before fill candidates }
  | .postDispatch admission c attempt side cycle prices =>
    let (cap, decision) := s.cap.postDispatch admission c attempt side cycle prices
    { s with cap := cap, owed := s.owed.afterPostDispatch admission decision }
  | .afterImmediateCloseAttempt =>
    { s with
      cap := s.cap.afterImmediateCloseAttempt
      owed := if s.owed = .close then .nothing else s.owed }
  | .ordinaryOpen bar => { s with cap := s.cap.ordinaryOpen bar }
  | .sourceBatchEnd => { s with cap := s.cap.sourceBatchEnd }
  | .fillCommitted fill => { s with latestFill := fill }

/-- The calls of a run. -/
def Run.after (s : Run) (calls : List (Call κ π)) : Run := calls.foldl (Run.step riskDay) s

/-- The protocol of the host: the limit stays, an admission or a counted close comes only when
nothing is owed, and the fills that are named are the broker's latest. -/
def Run.Allows (limit : ℤ) (s : Run) : Call κ π → Prop
  | .assign l => l = limit
  | .preDispatch _ _ _ latestFill => s.owed = .nothing ∧ latestFill = s.latestFill
  | .committedClose _ _ _ fill _ => s.owed = .nothing ∧ fill = s.latestFill
  | .fillCommitted fill => s.latestFill < fill
  | _ => True

/-- Every call of a run is one the callers make. -/
def Run.AllowsAll (limit : ℤ) (s : Run) : List (Call κ π) → Prop
  | [] => True
  | call :: calls => s.Allows limit call ∧ (s.step riskDay call).AllowsAll limit calls

/-! ## What a call does to the slots -/

/-- The day of a call that has a clock. -/
def Call.OnDay (day : OrderRiskDay) : Call κ π → Prop
  | .placement clock => riskDay clock = day
  | .preDispatch clock _ _ _ => riskDay clock = day
  | .committedClose clock _ _ _ _ => riskDay clock = day
  | _ => True

/-- An attempt that comes to the budget: the cap is active and the attempt is not skipped. -/
def IntradayCap.Counts (cap : IntradayCap) (attempt : MatchedAttempt) : Prop :=
  cap.active ∧ ¬(cap.configuration.skipNoopMarket ∧ IntradayCap.noopMarket attempt)

instance (cap : IntradayCap) (attempt : MatchedAttempt) : Decidable (cap.Counts attempt) :=
  inferInstanceAs (Decidable (_ ∧ _))

/-- An attempt that takes over the slot of a close. -/
def IntradayCap.Inherits (cap : IntradayCap) (day : OrderRiskDay) (context : Calculation)
    (attempt : MatchedAttempt) (latestFill : ℕ) : Prop :=
  cap.Counts attempt ∧
    (cap.budget.enterDay day).canInherit day context.bar (cap.inheritorOf attempt) latestFill = true

instance (cap : IntradayCap) (day : OrderRiskDay) (context : Calculation) (attempt : MatchedAttempt)
    (latestFill : ℕ) : Decidable (cap.Inherits day context attempt latestFill) :=
  inferInstanceAs (Decidable (_ ∧ _))

/-- A call by which a close lends its slot. -/
def Call.Lends (cap : IntradayCap) : Call κ π → Prop
  | .preDispatch clock context attempt latestFill =>
    cap.Inherits (riskDay clock) context attempt latestFill
  | _ => False

/-- A call that charges a slot of its day. -/
def Call.charges (cap : IntradayCap) : Call κ π → ℤ
  | .preDispatch clock context attempt latestFill =>
    if cap.Counts attempt ∧ ¬cap.Inherits (riskDay clock) context attempt latestFill ∧
        ¬(cap.budget.enterDay (riskDay clock)).latched then 1
    else 0
  | .committedClose clock _ _ _ _ =>
    if (cap.budget.enterDay (riskDay clock)).latched then 0 else 1
  | _ => 0

/-- The slots that a sequence of calls charges. -/
def Run.charges (s : Run) : List (Call κ π) → ℤ
  | [] => 0
  | call :: calls => call.charges riskDay s.cap + (s.step riskDay call).charges calls

/-- The slots charged on a day, as far as the budget still knows it. -/
def IntradayOrderBudget.chargedOn (b : IntradayOrderBudget) (day : OrderRiskDay) : ℤ :=
  if b.day = some day then b.chargedSlots else 0

end

end PineForge.Intraday
