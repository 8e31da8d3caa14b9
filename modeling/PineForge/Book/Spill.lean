import PineForge.Book.Levels
import PineForge.Machine.Assoc

/-!
# The working book's two tiers

`BookSpill`: the resident rows with what the matcher knows of each, the table of spilled rows by
priority, the sweep registers of the two classes and the level index. A spilled entry holds the row
its bytes decode to; where its bytes stand in the blob file, and the incarnation links that find it,
are storage. Whether a table is worth rebuilding depends on file sizes and is the step's choice.

A dormant row is skipped by the matcher. While it is resident a sweep gives it the allowance of each
point; once it is spilled a stamp says which sweeps it has seen, and a read works out the rest.
-/

namespace PineForge.Book

open Orders BigEndian FloatOrder

/-- What the book keeps beside a live row. -/
structure ResidentMeta where
  priority : ℕ
  initial : Float
  dormant : Bool
  cls : RowClass

/-- The entry of an active row. -/
def activeMeta (priority : ℕ) : ResidentMeta := ⟨priority, 0.0, false, .limit⟩

/-- The sweep of one class. -/
structure SweepRegister where
  seq : ℕ := 0
  cur : ℕ := 0
  prev : ℕ := 0
  W : ℕ := 0
  maxAcceptance : ℕ := 0
  maxFloor : ℤ := -2 ^ 63
  spilledDormant : ℕ := 0
  inProgress : Bool := false
  guarded : Bool := false

/-- The register of a class that begins a point. -/
def SweepRegister.begun (r : SweepRegister) (point : ℕ) : SweepRegister :=
  { r with seq := r.seq + 1, prev := r.cur, cur := point, W := 0, inProgress := true }

/-- One spilled row. `dormancy` is the class of a row that was dormant; `alive` is `state == 0`. -/
structure BookSlot where
  row : LiveRequest Float
  alive : Bool
  stamp : ℕ
  dormancy : Option RowClass

/-- The book and its spilled rows. -/
structure BookSpill where
  bookMax : ℕ := 4096
  live : List (LiveRequest Float) := []
  resident : List ResidentMeta := []
  rows : List (ℕ × BookSlot) := []
  reg : RowClass → SweepRegister := fun _ => {}
  levelIndex : List (Bytes × ℕ) := []
  hasIndex : Bool := false
  activeSpilled : ℕ := 0
  residentDormant : ℕ := 0
  middleSpill : Bool := false
  poison : Bool := false
  failure : Bool := false
  epoch : ℕ := 0
  lastPriority : ℕ := 0

namespace BookSpill

/-! ## The level index -/

/-- `index_failed`. -/
def indexFailed (b : BookSpill) : BookSpill := { b with poison := true }

/-- The first entry at or after a key. -/
def lowerBound (key : Bytes) (index : List (Bytes × ℕ)) : Option (Bytes × ℕ) :=
  index.find? fun e => key ≤ e.1

/-- `erase_index`. -/
def eraseIndex (b : BookSpill) (row : LiveRequest Float) : BookSpill :=
  if b.poison || !b.hasIndex then b
  else
    match dormantClass row with
    | none => b.indexFailed
    | some spec =>
      let key := levelKey spec row.priority
      match lowerBound key b.levelIndex with
      | none => b.indexFailed
      | some (actual, value) =>
        if actual ≠ key ∨ value ≠ row.handle.incarnation then b.indexFailed
        else { b with levelIndex := Assoc.erase key b.levelIndex }

/-- No guarded class is held back. -/
def classGuardsOk (b : BookSpill) (context : EvaluationContext) : Bool :=
  RowClass.all.all fun cls =>
    !((b.reg cls).guarded && classPermitted context cls &&
      (context.cursor.point.ordinal ≤ (b.reg cls).maxAcceptance ||
        context.cursor.point.effectiveTimeMs < (b.reg cls).maxFloor))

/-- `fast_path_ok`. -/
def fastPathOk (b : BookSpill) (context : EvaluationContext) : Bool :=
  !b.poison && b.hasIndex && b.activeSpilled = 0 && b.resident.length
    = b.live.length && !b.failure &&
    b.classGuardsOk context

/-! ## Points -/

/-- The book with another register. -/
def setReg (b : BookSpill) (cls : RowClass) (r : SweepRegister) : BookSpill :=
  { b with reg := Function.update b.reg cls r }

/-- The start of a point for one class; false where the book gives up on it. -/
def beginClass (b : BookSpill) (context : EvaluationContext) (cls : RowClass) : BookSpill × Bool :=
  let r := b.reg cls
  let point := context.cursor.point.ordinal
  if classPermitted context cls = false ∨ r.cur = point then (b, true)
  else if r.seq = u64Max then (b.indexFailed, false)
  else if r.spilledDormant ≠ 0 ∧ b.epoch > u64Max - 2 then (b.indexFailed, false)
  else
    let begun := b.setReg cls (r.begun point)
    (if r.spilledDormant ≠ 0 then { begun with epoch := b.epoch + 2 } else begun, true)

/-- Begin a sweep of each class. -/
def beginPoint (b : BookSpill) (context : EvaluationContext) : BookSpill :=
  match b.beginClass context .limit with
  | (begun, true) => (begun.beginClass context .other).1
  | (begun, false) => begun

/-- Whether an allowance is one of a point. -/
def ofPoint (point : ℕ) : Allowance Float → Bool
  | .units pointOrdinal _ _ => pointOrdinal = point
  | _ => false

/-- The allowance a sweep up to a priority leaves a dormant row. -/
def sweptAllowance (r : SweepRegister) (priority : ℕ) (finish : Bool) (rowPriority : ℕ)
    (initial : Float) (allowance : Allowance Float) : Allowance Float :=
  if r.inProgress = false ∨ rowPriority < r.W ∨ (finish = false ∧ priority ≤ rowPriority) ∨
      ofPoint r.cur allowance then
    allowance
  else .units r.cur initial initial

/-- The sweep of the resident rows; each row that changes raises the epoch by two, and throws where
it cannot. -/
def sweepRows (reg : RowClass → SweepRegister) (priority : ℕ) (finish : Bool) :
    ℕ → List ResidentMeta → List (LiveRequest Float) → Option (ℕ × List (LiveRequest Float))
  | epoch, m :: metas, row :: rows =>
    let r := reg m.cls
    if m.dormant = false ∨ r.inProgress = false ∨ m.priority < r.W ∨
        (finish = false ∧ priority ≤ m.priority) ∨ ofPoint r.cur row.allowance then
      (sweepRows reg priority finish epoch metas rows).map fun rest => (rest.1, row :: rest.2)
    else if epoch > u64Max - 2 then none
    else
      (sweepRows reg priority finish (epoch + 2) metas rows).map fun rest =>
        (rest.1, { row with allowance := .units r.cur m.initial m.initial } :: rest.2)
  | epoch, _, rows => some (epoch, rows)

/-- The watermarks after a sweep. -/
def sweptRegister (priority : ℕ) (finish : Bool) (r : SweepRegister) : SweepRegister :=
  if r.inProgress then { r with W := if finish then u64Max else max r.W priority } else r

/-- `none` where the epoch is exhausted. -/
def sweep (b : BookSpill) (priority : ℕ) (finish : Bool) : Option BookSpill :=
  if RowClass.all.all fun cls => !(b.reg cls).inProgress then some b
  else
    (sweepRows b.reg priority finish b.epoch b.resident b.live).map fun swept =>
      { b with
        epoch := swept.1
        live := swept.2
        reg := fun cls => sweptRegister priority finish (b.reg cls) }

/-- `advance`. -/
def advance (b : BookSpill) (priority : ℕ) : Option BookSpill := b.sweep priority false

/-- `complete(true)`; without the finishing sweep it does nothing. -/
def complete (b : BookSpill) : Option BookSpill :=
  (b.sweep u64Max true).map fun b =>
    { b with reg := fun cls => { b.reg cls with inProgress := false } }

/-- The row a spilled entry reads as. -/
def project (b : BookSpill) (slot : BookSlot) : LiveRequest Float :=
  match slot.dormancy with
  | none => slot.row
  | some cls =>
    let r := b.reg cls
    if r.seq ≤ slot.stamp then slot.row
    else if r.inProgress ∧ r.W ≤ slot.row.priority then
      if r.seq - 1 ≤ slot.stamp then slot.row
      else { slot.row with allowance := evaluatedAllowance slot.row r.prev }
    else { slot.row with allowance := evaluatedAllowance slot.row r.cur }

/-! ## Joins and wakes -/

/-- Where a live row stands. -/
def residentIndex (b : BookSpill) (incarnation : ℕ) : Option ℕ :=
  b.live.findIdx? (·.handle.incarnation = incarnation)

/-- The checks of a join on the row and the segment. -/
def joinable (row : LiveRequest Float) (spec : DormantSpec) (context : EvaluationContext)
    (lo hi delta : Float) : Bool :=
  let settled := match row.allowance with
    | .units pointOrdinal initial left =>
      pointOrdinal = context.cursor.point.ordinal && initial == spec.initial && left == spec.initial
    | _ => false
  classPermitted context spec.cls &&
    pointEligible row.birth context.cursor.point.ordinal context.cursor.point.effectiveTimeMs &&
    lo.isFinite && hi.isFinite && !(hi < lo) && delta.isFinite && !(delta < 0.0) &&
    !dormantReachable spec.ge spec.level lo hi delta && settled

/-- The mark of a row that joins, its index entry and its class's guards. -/
def markDormant (b : BookSpill) (index : ℕ) (row : LiveRequest Float) (spec : DormantSpec) :
    BookSpill :=
  let r := b.reg spec.cls
  { b.setReg spec.cls { r with
      maxAcceptance := max r.maxAcceptance row.birth.acceptanceOrdinal
      maxFloor := max r.maxFloor row.birth.decisionTimeLowerBound
      guarded := true } with
    levelIndex := Assoc.put (levelKey spec row.priority) row.handle.incarnation b.levelIndex
    resident := b.resident.set index ⟨row.priority, spec.initial, true, spec.cls⟩
    residentDormant := b.residentDormant + 1 }

/-- `join`. -/
def join (b : BookSpill) (incarnation : ℕ) (context : EvaluationContext) (lo hi delta : Float) :
    BookSpill :=
  if !b.fastPathOk context then b
  else
    match b.residentIndex incarnation with
    | none => b
    | some index =>
      match b.live[index]?, b.resident[index]? with
      | some row, some m =>
        match dormantClass row with
        | some spec =>
          if m.dormant || !joinable row spec context lo hi delta then b
          else
            let begun := b.beginPoint context
            if begun.poison || !begun.hasIndex then begun
            else begun.markDormant index row spec
        | none => b
      | _, _ => b

/-- Wake a resident row. -/
def wakeResident (b : BookSpill) (index : ℕ) : BookSpill :=
  match b.live[index]?, b.resident[index]? with
  | some row, some m =>
    if m.dormant then
      let woken := b.eraseIndex row
      { woken with
        resident := b.resident.set index { m with dormant := false }
        residentDormant := b.residentDormant - 1 }
    else b
  | _, _ => b

/-! ## Rows between the tiers -/

/-- A new epoch, unless they are used up. -/
def bumpEpoch (b : BookSpill) : BookSpill :=
  if b.epoch = u64Max then b else { b with epoch := b.epoch + 1 }

/-- Inside a candidate-free scope the last dormant row, else the last one. -/
def spillIndex (b : BookSpill) : ℕ :=
  if b.middleSpill then
    match b.resident.reverse.findIdx? (·.dormant) with
    | some i => b.resident.length - 1 - i
    | none => b.live.length - 1
  else b.live.length - 1

/-- The sweeps of its class a row has seen. -/
def spillStamp (r : SweepRegister) (priority : ℕ) : ℕ :=
  if r.inProgress ∧ r.W ≤ priority ∧ r.seq ≠ 0 then r.seq - 1 else r.seq

/-- What a spilled row is stored as. -/
def spillSlot (b : BookSpill) (row : LiveRequest Float) (m : ResidentMeta) : BookSlot :=
  if m.dormant then ⟨row, true, spillStamp (b.reg m.cls) row.priority, some m.cls⟩
  else ⟨row, true, 0, none⟩

/-- `drop_spilled`. -/
def dropSpilled (b : BookSpill) (index : ℕ) (m : ResidentMeta) : BookSpill :=
  let dropped := { b with live := b.live.eraseIdx index, resident := b.resident.eraseIdx index }
  if m.dormant then
    { dropped.setReg m.cls { b.reg m.cls with
        spilledDormant := (b.reg m.cls).spilledDormant + 1 } with
      residentDormant := b.residentDormant - 1 }
  else { dropped with activeSpilled := b.activeSpilled + 1 }

/-- Spill the row at an index. -/
def spillAt (b : BookSpill) (index : ℕ) : BookSpill :=
  match b.live[index]?, b.resident[index]? with
  | some row, some m =>
    let spilled := { b with rows := Assoc.put row.priority (b.spillSlot row m) b.rows }
    bumpEpoch (spilled.dropSpilled index m)
  | _, _ => b

/-- Spill so many rows. -/
def spillRounds : ℕ → BookSpill → BookSpill
  | 0, b => b
  | n + 1, b => spillRounds n (b.spillAt b.spillIndex)

/-- Drop the rows that are no longer alive. -/
def compact (b : BookSpill) : BookSpill := { b with rows := b.rows.filter (·.2.alive) }

/-- `make_book_room`, with a rebuild of the table where the step says so. -/
def makeBookRoom (b : BookSpill) (rebuild : Bool) : BookSpill :=
  if b.live.length < b.bookMax then b
  else spillRounds (b.live.length + 1 - b.bookMax) (if rebuild then b.compact else b)

/-- The live entry of a spilled request. -/
def spilledAt (b : BookSpill) (incarnation : ℕ) : Option (ℕ × BookSlot) :=
  b.rows.find? fun e => e.2.alive && e.2.row.handle.incarnation = incarnation

/-- Insert a row by priority. -/
def insertRow (row : LiveRequest Float) : List (LiveRequest Float) → List (LiveRequest Float)
  | [] => [row]
  | head :: tail => if head.priority < row.priority then head :: insertRow row tail
    else row :: head :: tail

/-- Where a row of a priority goes. -/
def rowPlace (priority : ℕ) (rows : List (LiveRequest Float)) : ℕ :=
  (rows.takeWhile (·.priority < priority)).length

/-- The entry is retired and the row goes to its place. -/
def moveIn (b : BookSpill) (priority : ℕ) (slot : BookSlot) (row : LiveRequest Float) : BookSpill :=
  { b with
    rows := Assoc.put priority { slot with alive := false } b.rows
    live := insertRow row b.live }

/-- `promoted`: a row that was dormant leaves the index, and comes back active. -/
def promoted (b : BookSpill) (slot : BookSlot) (row : LiveRequest Float) (place : ℕ) : BookSpill :=
  let counted := match slot.dormancy with
    | some cls =>
      let erased := b.eraseIndex row
      erased.setReg cls { erased.reg cls with
        spilledDormant := (erased.reg cls).spilledDormant - 1 }
    | none => { b with activeSpilled := b.activeSpilled - 1 }
  { counted with resident := b.resident.insertIdx place (activeMeta row.priority) }

/-- The book a promotion finds room in. -/
def roomFor (b : BookSpill) (rebuild : Bool) : BookSpill :=
  (if rebuild then b.compact else b).makeBookRoom rebuild

/-- `promote_book_row`; `none` where no spilled row has the incarnation. -/
def promote (b : BookSpill) (incarnation : ℕ) (rebuild : Bool) : Option BookSpill :=
  match b.spilledAt incarnation with
  | none => none
  | some (priority, _) =>
    let room := b.roomFor rebuild
    match Assoc.find priority room.rows with
    | none => none
    | some slot =>
      let row := room.project slot
      some (bumpEpoch
        ((room.moveIn priority slot row).promoted slot row (rowPlace priority room.live)))

/-! ## Rows that commands change

Every command wakes the row it targets before it reads or changes it. -/

/-- `push_back` of a new row, once there is room for it. -/
def pushRow (b : BookSpill) (row : LiveRequest Float) (rebuild : Bool) : BookSpill :=
  let room := b.makeBookRoom rebuild
  { room with
    live := room.live ++ [row]
    resident := room.resident ++ [activeMeta row.priority]
    lastPriority := row.priority }

/-- `erase_live`. -/
def eraseRow (b : BookSpill) (index : ℕ) : BookSpill :=
  let woken := b.wakeResident index
  { woken with live := woken.live.eraseIdx index, resident := woken.resident.eraseIdx index }

/-- A row that keeps its place. -/
def updateRow (b : BookSpill) (index : ℕ) (row : LiveRequest Float) : BookSpill :=
  let woken := b.wakeResident index
  { woken with live := woken.live.set index row }

/-- A row that goes to the back under a new priority: `replacing`. -/
def repriceRow (b : BookSpill) (index : ℕ) (row : LiveRequest Float) : BookSpill :=
  let erased := b.eraseRow index
  { erased with
    live := erased.live ++ [row]
    resident := erased.resident ++ [activeMeta row.priority]
    lastPriority := row.priority }

/-- `rewrite` of a spilled row, which never sleeps. -/
def rewriteSlot (b : BookSpill) (priority : ℕ) (row : LiveRequest Float) : BookSpill :=
  match Assoc.find priority b.rows with
  | some slot =>
    if slot.alive && slot.dormancy.isNone then
      { b with rows := Assoc.put priority { slot with row } b.rows }
    else b
  | none => b

/-! ## Waking by price -/

/-- One turn of `wake_by_price` in a list: `none` where the list has nothing more to wake. -/
def wakeNext (b : BookSpill) (context : EvaluationContext) (tag : Fin 256) (lo hi delta : Float)
    (rebuild : Bool) : Option BookSpill :=
  if !b.fastPathOk context then none
  else
    match lowerBound [tag] b.levelIndex with
    | none => none
    | some (key, incarnation) =>
      if keyTag key ≠ tag then none
      else if !dormantReachable (tag.val % 2 = 0) (keyLevel key) lo hi delta then none
      else
        match b.live.findIdx? (·.priority = keyPriority key) with
        | some index =>
          match b.live[index]?, b.resident[index]? with
          | some row, some m =>
            if row.handle.incarnation ≠ incarnation || !m.dormant then some b.indexFailed
            else some (b.wakeResident index)
          | _, _ => some b.indexFailed
        | none =>
          match b.promote incarnation rebuild with
          | some promoted => some promoted
          | none => some b.indexFailed

/-- The turns of one list. Every turn takes an entry out of the index or ends the fast path, so
there are no more of them than entries and one. -/
def wakeList (context : EvaluationContext) (tag : Fin 256) (lo hi delta : Float)
    (rebuild : ℕ → Bool) : ℕ → BookSpill → BookSpill
  | 0, b => b
  | n + 1, b =>
    match b.wakeNext context tag lo hi delta (rebuild n) with
    | none => b
    | some next => wakeList context tag lo hi delta rebuild n next

/-- The four lists, those of classes the point does not drive left out. -/
def wakeLists : List (RowClass × Bool) :=
  [(.limit, true), (.limit, false), (.other, true), (.other, false)]

/-- `wake_by_price`. -/
def wakeByPrice (b : BookSpill) (context : EvaluationContext) (lo hi delta : Float)
    (rebuild : ℕ → Bool) : BookSpill :=
  wakeLists.foldl (fun b list =>
    if classPermitted context list.1 then
      wakeList context (listTag list.1 list.2) lo hi delta rebuild (b.levelIndex.length + 1) b
    else b) b

end BookSpill

end PineForge.Book
