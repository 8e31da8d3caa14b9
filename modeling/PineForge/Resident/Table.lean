import Mathlib
import PineForge.Machine.Assoc
import PineForge.DiskTable.Runs

/-!
# Rows that stay in memory

`disk_resident_id_table.hpp`: the ids are in a table on disk with a fixed record each, and rows that
still own live data are in memory. A row whose value can be spilled goes back to its record at the
next pass, unless an iterator or the held rows share it. Three maps are derived: the rows in memory
by offset, their keys, and those whose value is held.

A row is an object of its own, named by a number; an iterator keeps the offset of a row and the
object.
-/

namespace PineForge.Resident

open DiskTable (Key Backing Label)

/-- What a value type supplies. -/
structure Codec (Rec Val : Type) where
  retiredRecord : Val → Rec
  restoreRecord : Rec → Val
  spillable : Val → Bool
  held : Val → Bool
  restore_retired : ∀ value, spillable value = true → restoreRecord (retiredRecord value) = value

/-- A row object. -/
structure Row (Val : Type) where
  key : Key
  value : Val
deriving DecidableEq, Repr

/-- A pinned row. -/
structure Pin where
  offset : ℕ
  row : ℕ
deriving DecidableEq, Repr

/-- The least spill interval. -/
def spillFloor : ℕ := 64

/-- The most resident cohorts. -/
def maxResidentCohorts : ℕ := 4096

/-- The index, the resident rows and the pins. -/
structure State (Rec Val : Type) where
  index : DiskTable.Table Rec
  rows : ℕ → Option (Row Val)
  /-- The number of the next row object. -/
  born : ℕ
  resident : List (ℕ × ℕ)
  residentByKey : List (Key × ℕ)
  heldRows : List (ℕ × ℕ)
  /-- The iterators that are alive. -/
  pins : List Pin
  spillThreshold : ℕ
  spillInterval : ℕ
  callsSinceSpill : ℕ
  fixtureSpillInterval : ℕ
  fixtureSpillPredicate : Option (Key → Bool)

/-- What a call throws. -/
inductive Failure where
  | index (failure : DiskTable.Failure)
  | liveLimit (rows : ℕ)
deriving DecidableEq, Repr

/-- A call on the rows. -/
abbrev Action (Rec Val : Type) := Command (State Rec Val) (Stop Failure)

variable {Rec Val β : Type}

namespace State

/-- No rows. -/
def empty : State Rec Val where
  index := DiskTable.Table.empty
  rows := fun _ => none
  born := 0
  resident := []
  residentByKey := []
  heldRows := []
  pins := []
  spillThreshold := spillFloor
  spillInterval := spillFloor
  callsSinceSpill := 0
  fixtureSpillInterval := 0
  fixtureSpillPredicate := none

/-- The state with another index. -/
def withIndex (st : State Rec Val) (index : DiskTable.Table Rec) : State Rec Val :=
  { st with index := index }

/-- The state with other held rows. -/
def withHeld (st : State Rec Val) (held : List (ℕ × ℕ)) : State Rec Val :=
  { st with heldRows := held }

/-- The number of owners a row is shared by. -/
def useCount (st : State Rec Val) (row : ℕ) : ℕ :=
  st.resident.countP (fun e => e.2 = row) + st.heldRows.countP (fun e => e.2 = row) +
    st.pins.countP fun pin => pin.row = row

/-- The state with one more pin. -/
def pinned (st : State Rec Val) (pin : Pin) : State Rec Val := { st with pins := pin :: st.pins }

/-- The state with one pin less. -/
def released (st : State Rec Val) (pin : Pin) : State Rec Val :=
  { st with pins := st.pins.erase pin }

/-- A value written through an iterator. -/
def written (st : State Rec Val) (pin : Pin) (value : Val) : State Rec Val :=
  { st with rows := Function.update st.rows pin.row ((st.rows pin.row).map fun row =>
    { row with value := value }) }

/-- The state with a test's spill schedule. -/
def scheduled (st : State Rec Val) (interval : ℕ) (predicate : Option (Key → Bool)) :
    State Rec Val :=
  { st with fixtureSpillInterval := interval, fixtureSpillPredicate := predicate }

end State

/-- The failure of another type. -/
def Stop.map {ε ε' : Type} (f : ε → ε') : Stop ε → Stop ε'
  | .thrown failure => .thrown (f failure)
  | .undefined => .undefined
  | .diverges => .diverges

/-- A call of the index. -/
def onIndex (call : DiskTable.Action Rec β) : Action Rec Val β := fun st =>
  ((call st.index).1.mapError (Stop.map Failure.index), st.withIndex (call st.index).2)

/-- `emplace` of a map: an entry that is there stays. -/
def emplaced {κ : Type} [LinearOrder κ] (k : κ) (v : β) (m : List (κ × β)) : List (κ × β) :=
  if (Assoc.find k m).isSome then m else Assoc.put k v m

/-- The row object of a number. -/
def rowOf (row : ℕ) : Action Rec Val (Row Val) := do
  let st ← Command.get
  match st.rows row with
  | some row => pure row
  | none => Command.throw .undefined

/-- Whether cohorts are bounded. -/
def boundedCohorts (backing : Backing) : Bool :=
  backing.slab.any fun slab => slab.resource = .cohort

/-! ## Spilling -/

/-- An entry of the pass: its record is written and the row dropped, or it stays. -/
def State.spills (codec : Codec Rec Val) (st : State Rec Val) (row : ℕ) (found : Row Val) : Bool :=
  st.useCount row = 1 && codec.spillable
    found.value && st.fixtureSpillPredicate.all fun predicate => predicate found.key

/-- The row of an offset leaves the maps. -/
def State.dropped (st : State Rec Val) (offset : ℕ) (key : Key) : State Rec Val :=
  { st with residentByKey := Assoc.erase key st.residentByKey,
            resident := Assoc.erase offset st.resident }

/-- Spill a row unless it is held or pinned. -/
def spillRow (codec : Codec Rec Val) (backing : Backing) (e : ℕ × ℕ) : Action Rec Val Unit := do
  let st ← Command.get
  let found ← rowOf e.2
  Command.when (st.spills codec e.2 found) (do
    onIndex (DiskTable.set backing e.1 (codec.retiredRecord found.value))
    Command.modify (·.dropped e.1 found.key))

/-- Spill entries in order. -/
def spillEach (codec : Codec Rec Val) (backing : Backing) : List (ℕ × ℕ) → Action Rec Val Unit
  | [] => pure ()
  | e :: rest => do
    spillRow codec backing e
    spillEach codec backing rest

/-- `numeric_limits<size_t>::max()`. -/
def sizeMax : ℕ := 2 ^ 64 - 1

/-- The spill schedule after a spill. -/
def State.rearmed (st : State Rec Val) : State Rec Val :=
  { st with
    spillThreshold := max spillFloor (if st.resident.length > sizeMax / 2 then sizeMax
      else st.resident.length * 2)
    spillInterval := max spillFloor st.resident.length
    callsSinceSpill := 0 }

/-- `spill`. -/
def spill (codec : Codec Rec Val) (backing : Backing) : Action Rec Val Unit := do
  let st ← Command.get
  spillEach codec backing st.resident
  Command.modify State.rearmed

/-- One more call since the last spill. -/
def State.called (st : State Rec Val) : State Rec Val :=
  { st with callsSinceSpill := st.callsSinceSpill + 1 }

/-- Spill where it is due. -/
def spillImplicitly (codec : Codec Rec Val) (backing : Backing) : Action Rec Val Unit := do
  Command.modify State.called
  let st ← Command.get
  let interval := if st.fixtureSpillInterval ≠ 0 then st.fixtureSpillInterval else st.spillInterval
  Command.when (st.callsSinceSpill ≥ interval ∨ st.resident.length ≥ st.spillThreshold)
    (spill codec backing)

/-! ## Admission -/

/-- Throw where a check holds. -/
def failIf (c : Prop) [Decidable c] (failure : Failure) : Action Rec Val Unit :=
  if c then Command.throw (.thrown failure) else pure ()

/-- The rows in memory that own live data. -/
def State.live (codec : Codec Rec Val) (st : State Rec Val) : ℕ :=
  st.resident.countP fun e => (st.rows e.2).any fun row => !codec.spillable row.value

/-- There is room for more live rows. -/
def requireLiveGrowth (codec : Codec Rec Val) (backing : Backing) (extra : ℕ) :
    Action Rec Val Unit := do
  let st ← Command.get
  Command.when (extra ≠ 0 ∧ boundedCohorts backing = true ∧
      ¬ (st.resident.length ≤ maxResidentCohorts ∧ extra ≤ maxResidentCohorts - st.resident.length))
    (failIf (st.live codec > maxResidentCohorts ∨ extra > maxResidentCohorts - st.live codec)
      (.liveLimit maxResidentCohorts))

/-- Make room before an admission. -/
def spillBeforeAdmission (codec : Codec Rec Val) (backing : Backing) (extra : ℕ) :
    Action Rec Val Unit := do
  let st ← Command.get
  Command.when (extra ≠ 0 ∧ boundedCohorts backing = true ∧ st.resident.length ≥ maxResidentCohorts)
    (spill codec backing)

/-- The row object of an offset enters the maps. -/
def State.admitted (codec : Codec Rec Val) (st : State Rec Val) (offset : ℕ) (row : Row Val) :
    State Rec Val :=
  { st with
    rows := Function.update st.rows st.born (some row)
    born := st.born + 1
    residentByKey := emplaced row.key offset st.residentByKey
    resident := emplaced offset st.born st.resident
    heldRows := if codec.held row.value then emplaced offset st.born st.heldRows else st.heldRows }

/-- Add a resident row. -/
def insertResident (codec : Codec Rec Val) (offset : ℕ) (row : Row Val) : Action Rec Val Pin := do
  let st ← Command.get
  Command.modify (·.admitted codec offset row)
  pure ⟨offset, st.born⟩

/-- Whether a row is held, after a change. -/
def refreshHeld (codec : Codec Rec Val) (pin : Pin) : Action Rec Val Unit := do
  let row ← rowOf pin.row
  let st ← Command.get
  if codec.held row.value then
    Command.when ((Assoc.find pin.offset st.heldRows).isNone)
      (Command.modify (·.withHeld (Assoc.put pin.offset pin.row st.heldRows)))
  else
    Command.when ((Assoc.find pin.offset st.heldRows).isSome)
      (Command.modify (·.withHeld (Assoc.erase pin.offset st.heldRows)))

/-- The row of an offset that is not in memory. -/
def restore (codec : Codec Rec Val) (backing : Backing) (offset : ℕ) : Action Rec Val Pin := do
  let record ← onIndex (DiskTable.get backing offset)
  let value := codec.restoreRecord record
  let extra := if codec.spillable value then 0 else 1
  requireLiveGrowth codec backing extra
  spillBeforeAdmission codec backing extra
  let key ← onIndex (DiskTable.keyAt backing offset)
  insertResident codec offset ⟨key, value⟩

/-- The resident row at an offset. -/
def load (codec : Codec Rec Val) (backing : Backing) (offset : ℕ) : Action Rec Val Pin := do
  let st ← Command.get
  match Assoc.find offset st.resident with
  | some row => pure ⟨offset, row⟩
  | none => restore codec backing offset

/-! ## Calls -/

/-- Whether a key is there. -/
def contains (backing : Backing) (key : Key) : Action Rec Val Bool := do
  let found ← onIndex (DiskTable.find backing key)
  pure found.isSome

/-- The number of rows. -/
def size : Action Rec Val ℕ := do
  let st ← Command.get
  pure st.index.size

/-- Load a row that was found. -/
def loadFound (codec : Codec Rec Val) (backing : Backing) : Option ℕ → Action Rec Val (Option Pin)
  | none => pure none
  | some offset => do
    let pin ← load codec backing offset
    pure (some pin)

/-- `find`. -/
def find (codec : Codec Rec Val) (backing : Backing) (key : Key) : Action Rec Val (Option Pin) := do
  spillImplicitly codec backing
  let found ← onIndex (DiskTable.find backing key)
  loadFound codec backing found

/-- The row of a key, if it is resident. -/
def findResident (key : Key) : Action Rec Val (Option Pin) := do
  let st ← Command.get
  match Assoc.find key st.residentByKey with
  | none => pure none
  | some offset =>
    match Assoc.find offset st.resident with
    | some row => pure (some ⟨offset, row⟩)
    | none => Command.throw .undefined

/-- The extra row an insertion asks for. -/
def admission (codec : Codec Rec Val) (backing : Backing) (key : Key) (value : Val) :
    Action Rec Val ℕ :=
  if boundedCohorts backing = true ∧ codec.spillable value = false then do
    let found ← onIndex (DiskTable.find backing key)
    if found.isNone then do
      requireLiveGrowth codec backing 1
      pure 1
    else pure 0
  else pure 0

/-- Add the row of a new key, load an old one. -/
def settle (codec : Codec Rec Val) (backing : Backing) (key : Key) (value : Val)
    (placed : ℕ × Bool) :
    Action Rec Val (Pin × Bool) :=
  if placed.2 then do
    let pin ← insertResident codec placed.1 ⟨key, value⟩
    pure (pin, true)
  else do
    let pin ← load codec backing placed.1
    pure (pin, false)

/-- `emplace`. -/
def emplace (codec : Codec Rec Val) (backing : Backing) (key : Key) (value : Val) :
    Action Rec Val (Pin × Bool) := do
  onIndex (DiskTable.requireInsert backing key)
  let extra ← admission codec backing key value
  spillBeforeAdmission codec backing extra
  spillImplicitly codec backing
  let placed ← onIndex (DiskTable.insert backing key (codec.retiredRecord value))
  settle codec backing key value placed

/-- Load the row of a sorted walk. -/
def loadSorted (codec : Codec Rec Val) (backing : Backing) (offset : ℕ) :
    Action Rec Val (Option Pin) :=
  loadFound codec backing (if offset = 0 then none else some offset)

/-- `begin` of `all_sorted`. -/
def sortedBegin (codec : Codec Rec Val) (backing : Backing) : Action Rec Val (Option Pin) := do
  let offset ← onIndex (DiskTable.firstSorted backing)
  loadSorted codec backing offset

/-- `++` of a sorted iterator: it lets go of its row before the pass. -/
def sortedNext (codec : Codec Rec Val) (backing : Backing) (pin : Pin) :
    Action Rec Val (Option Pin) := do
  let offset ← onIndex (DiskTable.nextSorted backing pin.offset)
  Command.modify (·.released pin)
  spillImplicitly codec backing
  loadSorted codec backing offset

end PineForge.Resident
