import Mathlib
import PineForge.Machine.Endian
import PineForge.Machine.Probing

/-!
# Id tables

`id_pair_store.hpp`: records of single keys and of key pairs, appended to a data file and never
moved, with an open-addressed index of their offsets. An erased record stays in its probe chain and
is taken up again by its key. The index is of a slab with a fixed number of slots, or of a file that
grows; a table with a sorted fold holds its last header and its last slot back from the files.

Records are kept by their offset, with the key as a whole: the comparison of a key reads its bytes
in blocks. The hash is any function of the key, as the collision fixture has it. The sorted fold has
files of its own, its slots in a slab take the hash from their record, and the reads go through a
cache that is modelled apart.
-/

namespace PineForge.IdPair

/-- Bytes of a key. -/
abbrev Bytes : Type := List (Fin 256)

/-- A single key, or a pair. -/
structure Key where
  first : Bytes
  second : Option Bytes
deriving DecidableEq, Repr

/-- A header with the strings behind it. -/
structure Record where
  hash : ℕ
  key : Key
  value : ℤ
  live : Bool
deriving DecidableEq, Repr

/-- An entry of the index. -/
structure Slot where
  hash : ℕ
  offset : ℕ
deriving DecidableEq, Repr

/-- What a call throws. -/
inductive Failure where
  | truncatedRecord
  | mismatchedIndex
  | fullIndex
  | rehashOverflow
  | indexExhausted
  | sizeExhausted
  | dataExhausted
  | longId
  | controlCharacter
  | keyLimit
  | byteLimit
deriving DecidableEq, Repr

/-- The slices of a slab that a table is bound to. -/
structure Slab where
  consumed : Bool
  keyLimit : ℕ
  capacity : ℕ

/-- The file, its index and what is pending. -/
structure Store where
  hash : Key → ℕ
  folded : Bool
  slab : Option Slab
  records : ℕ → Option Record := fun _ => none
  index : ℕ → Option Slot := fun _ => none
  dataBytes : ℕ := 0
  slots : ℕ
  used : ℕ := 0
  size : ℕ := 0
  pending : Option (ℕ × Record) := none
  slotPending : Option (ℕ × Slot) := none

/-- The bytes of a record's header. -/
def headerBytes : ℕ := 40

/-- The bytes of a slot. -/
def slotBytes : ℕ := 16

/-- The slots of a new index. -/
def initialSlots : ℕ := 64

/-- The largest `size_t`. -/
def sizeMax : ℕ := 2 ^ 64 - 1

/-- The largest `off_t`. -/
def offsetMax : ℕ := 2 ^ 63 - 1

/-- The doublings of `slots`, with the checked products of the layout. -/
def slotsFrom (minimum : ℕ) : ℕ → ℕ → Option ℕ
  | 0, _ => none
  | fuel + 1, result =>
    if result < minimum then (if result * 2 > sizeMax then none
      else slotsFrom minimum fuel (result * 2)) else some result

/-- `scratch_layout_detail::slots`. -/
def slotsOf (keys : ℕ) : Option ℕ :=
  if keys = 0 then some 0
  else if 2 * keys > sizeMax then none
  else slotsFrom (max 64 (2 * keys)) 64 64

namespace Key

/-- The bytes of a second string. -/
def secondSize (key : Key) : ℕ := (key.second.map List.length).getD 0

end Key

namespace Store

/-- A table at its start, of a slab whose layout is admitted. -/
def create (hash : Key → ℕ) (folded : Bool) : Option Slab → Option Store
  | none => some { hash := hash, folded := folded, slab := none, slots := 0 }
  | some slab => (slotsOf slab.keyLimit).map fun slots =>
    { hash := hash, folded := folded, slab := some slab, slots := slots }

/-! ## Reads -/

/-- `read_header`, through the header that is held back. -/
def recordAt (st : Store) (offset : ℕ) : Option Record :=
  match st.pending with
  | some (held, record) => if offset = held then some record else st.records offset
  | none => st.records offset

/-- The slot as a probe reads it. -/
def slotAt (st : Store) (i : ℕ) : Option Slot :=
  match st.slotPending with
  | some (held, slot) => if i = held then some slot else st.index i
  | none => st.index i

/-- `locate_hash` with the comparison of a key: the slot of the key, or the first empty one. -/
def locateFrom (st : Store) (key : Key) (hash : ℕ) : ℕ → ℕ → Except Failure (ℕ × Option Slot)
  | 0, _ => .error .fullIndex
  | probes + 1, i =>
    match st.slotAt i with
    | none => .ok (i, none)
    | some slot =>
      if slot.hash = hash then
        match st.recordAt slot.offset with
        | none => .error .truncatedRecord
        | some record =>
          if record.hash ≠ slot.hash then .error .mismatchedIndex
          else if record.key = key then .ok (i, some slot)
          else locateFrom st key hash probes ((i + 1) &&& (st.slots - 1))
      else locateFrom st key hash probes ((i + 1) &&& (st.slots - 1))

/-- Probe for a key. -/
def locate (st : Store) (key : Key) : Except Failure (ℕ × Option Slot) :=
  st.locateFrom key (st.hash key) st.slots (st.hash key &&& (st.slots - 1))

/-- The record of a key, with its offset. -/
def find (st : Store) (key : Key) : Except Failure (Option (ℕ × Record)) :=
  match st.locate key with
  | .error failure => .error failure
  | .ok (_, none) => .ok none
  | .ok (_, some slot) =>
    match st.recordAt slot.offset with
    | none => .error .truncatedRecord
    | some record => .ok (some (slot.offset, record))

/-- The value of a key, if it is live. -/
def lookup (st : Store) (key : Key) : Except Failure (Option ℤ) :=
  if st.slots = 0 then .ok none
  else
    match st.find key with
    | .error failure => .error failure
    | .ok found => .ok (found.bind fun at_ => if at_.2.live then some at_.2.value else none)

/-! ## The index -/

/-- Probe for a free slot, so often. -/
def placeFrom (slots : ℕ) (index : ℕ → Option Slot) (slot : Slot) :
    ℕ → ℕ → Except Failure (ℕ → Option Slot)
  | 0, _ => .error .rehashOverflow
  | probes + 1, i =>
    match index i with
    | none => .ok (Function.update index i (some slot))
    | some _ => placeFrom slots index slot probes ((i + 1) &&& (slots - 1))

/-- Place a slot in a new index. -/
def placeSlot (slots : ℕ) (index : ℕ → Option Slot) (slot : Slot) :
    Except Failure (ℕ → Option Slot) :=
  placeFrom slots index slot slots (slot.hash &&& (slots - 1))

/-- The slots of the old index, in its order. -/
def placeAll (slots : ℕ) (old : ℕ → Option Slot) :
    List ℕ → (ℕ → Option Slot) → Except Failure (ℕ → Option Slot)
  | [], index => .ok index
  | i :: rest, index =>
    match old i with
    | none => placeAll slots old rest index
    | some slot =>
      match placeSlot slots index slot with
      | .error failure => .error failure
      | .ok index => placeAll slots old rest index

/-- `grow_index`; the replacement is published when it is complete. -/
def growIndex (st : Store) : Except Failure Store :=
  if st.slots > offsetMax / slotBytes / 2 then .error .indexExhausted
  else
    let nextSlots := if st.slots = 0 then initialSlots else st.slots * 2
    match placeAll nextSlots st.index (List.range st.slots) fun _ => none with
    | .error failure => .error failure
    | .ok index => .ok { st with index := index, slots := nextSlots }

/-! ## Writes -/

/-- `flush_pending`. -/
def flushPending (st : Store) : Store :=
  match st.pending with
  | none => st
  | some (offset, record) => { st with
      records := Function.update st.records offset (some record)
      index := match st.slotPending with
        | some (i, slot) => Function.update st.index i (some slot)
        | none => st.index
      pending := none
      slotPending := none }

/-- A header that changes: written, or held back by a table with a fold in files. -/
def publish (st : Store) (offset : ℕ) (record : Record) : Store :=
  if st.folded && st.slab.isNone then
    { st with pending := some (offset, record), slotPending := none }
  else { st with records := Function.update st.records offset (some record) }

/-- A new record with its slot. -/
def append (st : Store) (i : ℕ) (record : Record) : Store :=
  let slot : Slot := ⟨record.hash, st.dataBytes⟩
  let written := { st with records := Function.update st.records st.dataBytes (some record) }
  let published :=
    if st.folded && st.slab.isNone then
      { written with pending := some (st.dataBytes, record), slotPending := some (i, slot) }
    else { written with index := Function.update st.index i (some slot) }
  { published with
    dataBytes := st.dataBytes + headerBytes + record.key.first.length + record.key.secondSize
    used := st.used + 1
    size := st.size + 1 }

/-- The byte between two strings. -/
def separator : Fin 256 := 31

/-- The last separator that leaves at most 64 bytes in front of it. -/
def lastSeparator (bytes : Bytes) : Option ℕ :=
  (List.range 65).reverse.find? fun i => bytes[i]? = some separator

/-- The parts of a key whose lengths are checked. -/
def componentsOf (consumed : Bool) (key : Key) : Bytes × Bytes :=
  match key.second with
  | some second => (key.first, second)
  | none =>
    match (if consumed then lastSeparator key.first else none) with
    | some i => (key.first.take i, key.first.drop (i + 1))
    | none => (key.first, [])

/-- `preflight_new_key`. -/
def admitNewKey (slab : Slab) (st : Store) (key : Key) : Except Failure Unit :=
  if st.used ≥ slab.keyLimit ∨ st.used ≥ st.slots / 2 ∨ st.used ≥ sizeMax then .error .keyLimit
  else if st.dataBytes + headerBytes + key.first.length + key.secondSize > slab.capacity then
    .error .byteLimit
  else .ok ()

/-- `preflight_assign`; a table without a slab is not bounded. -/
def preflightAssign (st : Store) (key : Key) : Except Failure Unit :=
  match st.slab with
  | none => .ok ()
  | some slab =>
    if slab.consumed = true ∧
      (key.second.any fun second => key.first.contains separator || second.contains separator)
      = true then
      .error .controlCharacter
    else if (componentsOf slab.consumed key).1.length > 64 ∨
      (componentsOf slab.consumed key).2.length > 64 then .error .longId
    else if st.slots = 0 then admitNewKey slab st key
    else
      match st.locate key with
      | .error failure => .error failure
      | .ok (_, some _) => .ok ()
      | .ok (_, none) => admitNewKey slab st key

/-- An assignment once the index has room for its key. -/
def assignNew (key : Key) (value : ℤ) (i : ℕ) (st : Store) : Except Failure Bool × Store :=
  if st.size = sizeMax then (.error .sizeExhausted, st)
  else if st.dataBytes + headerBytes + key.first.length + key.secondSize > offsetMax then
    (.error .dataExhausted, st)
  else (.ok true, st.append i ⟨st.hash key, key, value, true⟩)

/-- The index before a new key: grown when half of its slots are taken. -/
def makeRoom (key : Key) (i : ℕ) (st : Store) : Except Failure (ℕ × Store) :=
  if st.used ≥ st.slots / 2 then
    if st.slab.isSome then .error .keyLimit
    else
      match st.growIndex with
      | .error failure => .error failure
      | .ok grown =>
        match grown.locate key with
        | .error failure => .error failure
        | .ok (i, _) => .ok (i, grown)
  else .ok (i, st)

/-- `assign_key` behind the admission. -/
def assignFlushed (key : Key) (value : ℤ) (st : Store) : Except Failure Bool × Store :=
  match st.locate key with
  | .error failure => (.error failure, st)
  | .ok (_, some slot) =>
    match st.recordAt slot.offset with
    | none => (.error .truncatedRecord, st)
    | some record =>
      (.ok (!record.live),
        { st.publish slot.offset { record with value := value, live := true } with
          size := if record.live then st.size else st.size + 1 })
  | .ok (i, none) =>
    match makeRoom key i st with
    | .error failure => (.error failure, st)
    | .ok (i, st) => assignNew key value i st

/-- Set the value of a key. -/
def insertOrAssign (key : Key) (value : ℤ) (st : Store) : Except Failure Bool × Store :=
  match st.preflightAssign key with
  | .error failure => (.error failure, st)
  | .ok _ =>
    let flushed := st.flushPending
    if flushed.slab = none ∧ flushed.slots = 0 then
      match flushed.growIndex with
      | .error failure => (.error failure, flushed)
      | .ok grown => assignFlushed key value grown
    else assignFlushed key value flushed

/-- Set the value of a key where it is less. -/
def minAssign (key : Key) (value : ℤ) (st : Store) : Except Failure Unit × Store :=
  match st.lookup key with
  | .error failure => (.error failure, st)
  | .ok old =>
    if old.all (value < ·) then
      let assigned := st.insertOrAssign key value
      (assigned.1.map fun _ => (), assigned.2)
    else (.ok (), st)

/-- Mark the record of a key as dead. -/
def erase (key : Key) (st : Store) : Except Failure Bool × Store :=
  let flushed := st.flushPending
  if flushed.slots = 0 then (.ok false, flushed)
  else
    match flushed.find key with
    | .error failure => (.error failure, flushed)
    | .ok none => (.ok false, flushed)
    | .ok (some (offset, record)) =>
      if record.live then (.ok true,
        { flushed.publish offset { record with live := false } with size := flushed.size - 1 })
      else (.ok false, flushed)

end Store

end PineForge.IdPair
