import PineForge.PositionTail.Certificate

/-!
# Running sums of the rows of a position

Closed rows are appended to a list whose older part is moved to a spill. A summary keeps
certificates of the sums that exits are sized with: for each live origin, and for the slices of
margin calls. A sum that it cannot certify is replayed over the rows, newest first, back to the
opening of the position.
-/

namespace PineForge.PositionTail

/-- What is read of a closed row. -/
structure Trade where
  exitTime : ℤ
  qty : Float
  entryIncarnation : ℕ
  isLong : Bool
  entryId : String
  exitId : String

/-- The exit's name of a margin call. -/
def marginCallLabel : String := "__margin_call__"

/-- A row as the spill keeps it. -/
structure Row where
  exitTime : ℤ
  qty : Float
  entryIncarnation : ℕ
  isLong : Bool
  marginCall : Bool
  entryId : String

/-- What the tail keeps of a trade. -/
def Trade.row (trade : Trade) : Row where
  exitTime := trade.exitTime
  qty := trade.qty
  entryIncarnation := trade.entryIncarnation
  isLong := trade.isLong
  marginCall := trade.exitId = marginCallLabel
  entryId := trade.entryId

/-! ## Replay -/

/-- The fold over rows, newest first, to the first one before the barrier. -/
def walk (barrier : ℤ) (includes : Row → Bool) : List Row → Float → Float
  | [], result => result
  | row :: rest, result =>
    if row.exitTime < barrier then result
    else walk barrier includes rest (if includes row then result + row.qty else result)

/-- The resident rows from `base` on, then the spilled ones. -/
def replayPositionTail (rows : List Trade) (base : ℕ) (spill : List Row) (barrier : ℤ)
    (includes : Row → Bool) : Float :=
  walk barrier includes ((rows.drop base).reverse.map Trade.row ++ spill.reverse) 0.0

/-! ## The summary -/

/-- The sum of an origin. -/
structure Origin where
  completed : PositionTailExact
  visited : ℕ
  isLong : Bool

/-- One certificate a side. -/
abbrev Margins := Bool → PositionTailExact

/-- The sums of a position. -/
structure Summary where
  origins : ℕ → Option Origin
  liveCohorts : List ℕ
  margins : String → Option Margins
  allMargins : Margins
  highClosedOrigin : ℕ
  observedEnd : ℕ
  barrier : ℤ
  lastTime : ℤ
  queryGeneration : ℕ
  active : Bool
  safe : Bool
  haveTime : Bool

namespace Summary

/-- A summary of nothing. -/
def new : Summary where
  origins := fun _ => none
  liveCohorts := []
  margins := fun _ => none
  allMargins := fun _ => .new
  highClosedOrigin := 0
  observedEnd := 0
  barrier := 0
  lastTime := 0
  queryGeneration := 0
  active := false
  safe := false
  haveTime := false

/-- Forget the origins. -/
def forgetOrigins (s : Summary) : Summary := { s with origins := fun _ => none, liveCohorts := [] }

/-- The summary no longer answers. -/
def invalidate (s : Summary) : Summary :=
  { s.forgetOrigins with safe := false, margins := fun _ => none, allMargins := fun _ => .new }

/-- The certificates of one side after a quantity. -/
def addSide (margins : Margins) (isLong : Bool) (qty : Float) : Margins :=
  Function.update margins isLong ((margins isLong).add qty)

/-- The certificate of an origin after one of its rows. -/
def Origin.close (origin : Origin) (trade : Trade) : Origin :=
  let completed :=
    if origin.isLong ≠ trade.isLong then { origin.completed with valid := false }
      else origin.completed
  { origin with completed := completed.add trade.qty }

/-- Add a trade to its sums. -/
def accumulate (s : Summary) (trade : Trade) : Summary :=
  let s := { s with
    highClosedOrigin := max s.highClosedOrigin trade.entryIncarnation
    origins := Function.update s.origins trade.entryIncarnation
      ((s.origins trade.entryIncarnation).map (Origin.close · trade)) }
  if trade.exitId ≠ marginCallLabel then s
  else
    let named := (s.margins trade.entryId).getD fun _ => .new
    { s with
      allMargins := addSide s.allMargins trade.isLong trade.qty
      margins := Function.update s.margins trade.entryId
        (some (addSide named trade.isLong trade.qty)) }

/-- The loop of `beginPosition`, over the rows newest first. -/
def beginLoop (s : Summary) (newerTime : ℤ) : List Trade → Summary
  | [] => s
  | trade :: rest =>
    if trade.exitTime < s.barrier then s
    else if s.haveTime ∧ newerTime < trade.exitTime then s.invalidate
    else
      let s := { s with
        lastTime := if s.haveTime then s.lastTime else trade.exitTime
        haveTime := true }
      beginLoop (s.accumulate trade) trade.exitTime rest

/-- A position begins. -/
def beginPosition (s : Summary) (barrier : ℤ) (base : ℕ) (rows : List Trade) : Summary :=
  let s := { s.forgetOrigins with
    margins := fun _ => none
    allMargins := fun _ => .new
    highClosedOrigin := 0
    barrier := barrier
    observedEnd := rows.length
    active := true
    safe := true
    haveTime := false }
  s.beginLoop 0 (rows.drop base).reverse

/-- The loop of `observe`, over the rows that were not observed. -/
def observeLoop (s : Summary) : List Trade → Summary
  | [] => s
  | trade :: rest =>
    let s := { s with observedEnd := s.observedEnd + 1 }
    if trade.exitTime < s.barrier ∨ s.haveTime ∧ trade.exitTime < s.lastTime then s.invalidate
    else observeLoop ({ s with lastTime := trade.exitTime, haveTime := true }.accumulate trade) rest

/-- Observe the trades that are new. -/
def observe (s : Summary) (base : ℕ) (rows : List Trade) : Summary :=
  if s.active = false ∨ s.safe = false then s
  else if rows.length < s.observedEnd ∨ s.observedEnd < base then s.invalidate
  else s.observeLoop (rows.drop s.observedEnd)

/-- An origin opens. -/
def openOrigin (s : Summary) (incarnation : ℕ) (isLong : Bool) : Summary :=
  if s.safe = false ∨ s.active = false then s
  else
    match s.origins incarnation with
    | none =>
      let completed := { PositionTailExact.new with valid := decide (s.highClosedOrigin
        < incarnation) }
      let row : Origin := { completed := completed, visited := 0, isLong := isLong }
      { s with origins := Function.update s.origins incarnation (some row) }
    | some row =>
      if row.isLong = isLong then s
      else
        let row := { row with completed := { row.completed with valid := false } }
        { s with origins := Function.update s.origins incarnation (some row) }

/-- An origin is closed. -/
def retireOrigin (s : Summary) (incarnation : ℕ) : Summary :=
  { s with origins := Function.update s.origins incarnation none }

/-- A cohort becomes live or not. -/
def liveCohort (s : Summary) (row : ℕ) (nonempty : Bool) : Summary :=
  if nonempty then
    if s.active ∧ s.safe then { s with liveCohorts := s.liveCohorts.insert row } else s
  else { s with liveCohorts := s.liveCohorts.erase row }

/-! ## Queries -/

/-- The next generation; when the word wraps every mark is cleared. -/
def nextGeneration (s : Summary) : Summary :=
  if (s.queryGeneration + 1) % 2 ^ 32 = 0 then
    { s with
      origins := fun incarnation => (s.origins incarnation).map ({ · with visited := 0 })
      queryGeneration := 1 }
  else { s with queryGeneration := s.queryGeneration + 1 }

/-- One incarnation of the selection: the origins with their marks, and the total. -/
def visit (s : Summary) (isLong : Bool) (total : PositionTailExact) (incarnation : ℕ) :
    Summary × PositionTailExact :=
  match s.origins incarnation with
  | none => (s, if incarnation ≤ s.highClosedOrigin then { total with valid := false } else total)
  | some row =>
    if row.visited = s.queryGeneration then (s, total)
    else
      let marked := { row with visited := s.queryGeneration }
      ({ s with origins := Function.update s.origins incarnation (some marked) },
        if row.completed.valid = false then { total with valid := false }
        else if row.isLong = isLong then total.merge row.completed
        else total)

/-- Visit origins, adding their sums. -/
def visitAll (s : Summary) (isLong : Bool) (total : PositionTailExact) :
    List ℕ → Summary × PositionTailExact
  | [] => (s, total)
  | incarnation :: rest =>
    let next := s.visit isLong total incarnation
    next.1.visitAll isLong next.2 rest

/-- The sum over the selected origins, if it is certified. -/
def ancestry (s : Summary) (isLong : Bool) (select : List ℕ) : Summary × Option Float :=
  if s.safe = false ∨ s.active = false then (s, none)
  else
    let visited := s.nextGeneration.visitAll isLong .new select
    (visited.1, visited.2.read)

/-- The sum over the slices of margin calls, of one entry or of all. -/
def margin (s : Summary) (isLong : Bool) : Option String → Option Float
  | none => if s.safe = false ∨ s.active = false then none else (s.allMargins isLong).read
  | some entry =>
    if s.safe = false ∨ s.active = false then none
    else ((s.margins entry).map fun margins => (margins isLong).read).getD (some 0.0)

end Summary

end PineForge.PositionTail
