import Mathlib
import PineForge.Machine.Endian
import PineForge.Machine.Command

/-!
# A table of byte-string keys in a scratch file

`disk_id_table.hpp`: a balanced search tree whose nodes stand one after the other in a file, each
with its links, a value of fixed size and the key. A second link keeps the order of first insertion.
Links are read and written back one node at a time, and every walk reads them again from the file.

A node's record is kept at the offset it begins at; the file has room for the records one behind the
other.
-/

namespace PineForge.DiskTable

/-- The bytes of a key. -/
abbrev Key := List (Fin 256)

/-- The links of a record. -/
structure Links where
  left : ℕ := 0
  right : ℕ := 0
  parent : ℕ := 0
  next : ℕ := 0
  keySize : ℕ := 0
  height : ℕ := 1
deriving DecidableEq, Repr

/-- One record of the file. -/
structure Record (V : Type) where
  links : Links
  value : V
  key : Key
deriving DecidableEq, Repr

/-- Who uses the table. -/
inductive Resource where
  | cohort
  | exitRank
deriving DecidableEq, Repr

/-- The limits of a bounded table. -/
structure Slab where
  resource : Resource
  rows : ℕ
  bytes : ℕ
  capacity : ℕ
deriving DecidableEq, Repr

/-- Where the table is kept. -/
structure Backing where
  /-- `sizeof(Value)`. -/
  valueBytes : ℕ
  slab : Option Slab := none
deriving DecidableEq, Repr

/-- The bytes of the links. -/
def linksBytes : ℕ := 56

/-- The bytes before the key. -/
def Backing.header (backing : Backing) : ℕ := linksBytes + backing.valueBytes

/-- The file and the counters in memory. -/
structure Table (V : Type) where
  nodes : ℕ → Option (Record V)
  root : ℕ := 0
  first : ℕ := 0
  last : ℕ := 0
  finish : ℕ := 1
  size : ℕ := 0

/-- What a call throws. -/
inductive Failure where
  | io (errno : ℕ) (operation : String)
  | idTooLong
  | countLimit (resource : Resource) (rows : ℕ)
  | byteLimit (resource : Resource) (bytes : ℕ)
  /-- `require_extend` of the slab. -/
  | extent (resource : Resource)
deriving DecidableEq, Repr

/-- A call on the table. -/
abbrev Action (V : Type) := Command (Table V) (Stop Failure)

variable {V β : Type}

/-- `EIO`. -/
def eio : ℕ := 5

/-- `EFBIG`. -/
def efbig : ℕ := 27

/-- Throw where a check holds. -/
def failIf (c : Prop) [Decidable c] (failure : Failure) : Action V Unit :=
  if c then Command.throw (.thrown failure) else pure ()

/-! ## Nodes -/

namespace Table

/-- The table with a record stored. -/
def withRecord (st : Table V) (at' : ℕ) (record : Record V) : Table V :=
  { st with nodes := Function.update st.nodes at' (some record) }

/-- The table with another root. -/
def withRoot (st : Table V) (root : ℕ) : Table V := { st with root := root }

/-- The table with another first row. -/
def withFirst (st : Table V) (first : ℕ) : Table V := { st with first := first }

/-- The end of an insertion: one more row, and it is the last one inserted. -/
def counted (st : Table V) (last : ℕ) : Table V := { st with last := last, size := st.size + 1 }

/-- The table with another end. -/
def withFinish (st : Table V) (finish : ℕ) : Table V := { st with finish := finish }

end Table

/-- The record at an offset. -/
def record (at' : ℕ) : Action V (Record V) := do
  let st ← Command.get
  match st.nodes at' with
  | some record => pure record
  | none => Command.throw .undefined

/-- The offset is one of the file. -/
def validate (backing : Backing) (at' : ℕ) : Action V Unit := do
  let st ← Command.get
  failIf (at' = 0 ∨ at' ≥ st.finish ∨ st.finish - at' < backing.header)
    (.io eio "scratch id invalid offset")

/-- The checked links of a record. -/
def links (backing : Backing) (at' : ℕ) : Action V Links := do
  validate backing at'
  let record ← record at'
  let st ← Command.get
  failIf (record.links.height = 0 ∨ record.links.height > 128 ∨
    record.links.keySize > st.finish - at' - backing.header) (.io eio "scratch id invalid node")
  pure record.links

/-- Overwrite a record's links. -/
def putLinks (at' : ℕ) (row : Links) : Action V Unit := do
  let record ← record at'
  Command.modify (·.withRecord at' { record with links := row })

/-- `max_size` of a string. -/
def maxString : ℕ := 2 ^ 63 - 2

/-- The key behind a record. -/
def readKey (at' : ℕ) (row : Links) : Action V Key := do
  failIf (row.keySize > maxString) (.io efbig "scratch id key too long")
  let record ← record at'
  pure record.key

/-- The key of a row. -/
def keyAt (backing : Backing) (at' : ℕ) : Action V Key := do
  let row ← links backing at'
  readKey at' row

/-- The value of a row. -/
def get (backing : Backing) (at' : ℕ) : Action V V := do
  validate backing at'
  let record ← record at'
  pure record.value

/-- Overwrite the value of a row. -/
def set (backing : Backing) (at' : ℕ) (value : V) : Action V Unit := do
  validate backing at'
  let record ← record at'
  Command.modify (·.withRecord at' { record with value := value })

/-! ## Walks

The loops run for at most so many turns; more than there are rows is for ever. -/

/-- Follow the left links, for so many turns. -/
def leftmostFrom (backing : Backing) : ℕ → ℕ → Action V ℕ
  | 0, _ => Command.throw .diverges
  | turns + 1, at' =>
    if at' = 0 then pure at'
    else do
      let row ← links backing at'
      if row.left = 0 then pure at' else leftmostFrom backing turns row.left

/-- The least row under an offset. -/
def leftmost (backing : Backing) (at' : ℕ) : Action V ℕ := do
  let st ← Command.get
  leftmostFrom backing (st.size + 1) at'

/-- The least row. -/
def firstSorted (backing : Backing) : Action V ℕ := do
  let st ← Command.get
  leftmost backing st.root

/-- The loop of `next_sorted` up from a child. -/
def ascend (backing : Backing) : ℕ → ℕ → ℕ → Action V ℕ
  | 0, _, _ => Command.throw .diverges
  | turns + 1, child, at' =>
    if at' = 0 then pure at'
    else do
      let row ← links backing at'
      if row.left = child then pure at' else ascend backing turns at' row.parent

/-- The next row by key. -/
def nextSorted (backing : Backing) (at' : ℕ) : Action V ℕ := do
  let row ← links backing at'
  let st ← Command.get
  if row.right ≠ 0 then leftmost backing row.right else ascend backing (st.size + 1) at' row.parent

/-- The row inserted first. -/
def firstInserted : Action V ℕ := do
  let st ← Command.get
  pure st.first

/-- The next row by insertion. -/
def nextInserted (backing : Backing) (at' : ℕ) : Action V ℕ := do
  let row ← links backing at'
  pure row.next

/-- Search under an offset, for so many turns. -/
def findFrom (backing : Backing) (key : Key) : ℕ → ℕ → Action V (Option ℕ)
  | 0, _ => Command.throw .diverges
  | turns + 1, at' =>
    if at' = 0 then pure none
    else do
      let row ← links backing at'
      let other ← readKey at' row
      if key = other then pure (some at')
      else findFrom backing key turns (if key < other then row.left else row.right)

/-- The row of a key. -/
def find (backing : Backing) (key : Key) : Action V (Option ℕ) := do
  let st ← Command.get
  findFrom backing key (st.size + 1) st.root

/-! ## Rotations -/

/-- The height of a row, zero for none. -/
def height (backing : Backing) (at' : ℕ) : Action V ℕ :=
  if at' = 0 then pure 0
  else do
    let row ← links backing at'
    pure row.height

/-- The links with the height of their children. -/
def refresh (backing : Backing) (row : Links) : Action V Links := do
  let left ← height backing row.left
  let right ← height backing row.right
  pure { row with height := 1 + max left right }

/-- The difference of the children's heights. -/
def balance (backing : Backing) (row : Links) : Action V ℤ := do
  let left ← height backing row.left
  let right ← height backing row.right
  pure ((left : ℤ) - (right : ℤ))

/-- The child of a node on a side, and the node with another one there. -/
def Links.child (row : Links) (left : Bool) : ℕ := if left then row.left else row.right

/-- The links with another child. -/
def Links.withChild (row : Links) (left : Bool) (child : ℕ) : Links :=
  if left then { row with left := child } else { row with right := child }

/-- The write to the parent of a rotation. -/
def relinkParent (backing : Backing) (parent at' top : ℕ) : Action V Unit :=
  if parent ≠ 0 then do
    let row ← links backing parent
    putLinks parent (row.withChild (decide (row.left = at')) top)
  else Command.modify (·.withRoot top)

/-- The write to the subtree that changes sides. -/
def relinkMiddle (backing : Backing) (middle at' : ℕ) : Action V Unit :=
  if middle ≠ 0 then do
    let row ← links backing middle
    putLinks middle { row with parent := at' }
  else pure ()

/-- Rotate a row down to one side. -/
def rotate (backing : Backing) (at' : ℕ) (left : Bool) : Action V ℕ := do
  let old ← links backing at'
  let topAt := old.child (!left)
  let top ← links backing topAt
  let middle := top.child left
  let parent := old.parent
  relinkParent backing parent at' topAt
  relinkMiddle backing middle at'
  let old ← refresh backing ({ old with parent := topAt }.withChild (!left) middle)
  putLinks at' old
  let top ← refresh backing ({ top with parent := parent }.withChild left at')
  putLinks topAt top
  pure topAt

/-- The second rotation of a double one, where the child leans to the other side. -/
def straighten (backing : Backing) (child : ℕ) (left : Bool) : Action V Unit := do
  let row ← links backing child
  let lean ← balance backing row
  Command.when (if left then lean < 0 else lean > 0) (do
    let _ ← rotate backing child left
    pure ())

/-- The body of `rebalance`: the node at the top afterwards. -/
def settleAt (backing : Backing) (at' : ℕ) : Action V ℕ := do
  let row ← links backing at'
  let row ← refresh backing row
  putLinks at' row
  let lean ← balance backing row
  if lean > 1 then do
    straighten backing row.left true
    rotate backing at' false
  else if lean < -1 then do
    straighten backing row.right false
    rotate backing at' true
  else pure at'

/-- Settle every row from one up to the root. -/
def rebalance (backing : Backing) : ℕ → ℕ → Action V Unit
  | 0, _ => Command.throw .diverges
  | turns + 1, at' =>
    if at' = 0 then pure ()
    else do
      let top ← settleAt backing at'
      let row ← links backing top
      rebalance backing turns row.parent

/-! ## Insertion -/

/-- Where a key is, or the node it belongs under. -/
inductive Place where
  | found (at' : ℕ)
  | under (parent : ℕ) (left : Bool)
deriving DecidableEq, Repr

/-- Where a key is or would be linked. -/
def descend (backing : Backing) (key : Key) : ℕ → ℕ → ℕ → Bool → Action V Place
  | 0, _, _, _ => Command.throw .diverges
  | turns + 1, at', parent, left =>
    if at' = 0 then pure (.under parent left)
    else do
      let row ← links backing at'
      let other ← readKey at' row
      if key = other then pure (.found at')
      else
        descend backing key turns (if key < other then row.left else row.right) at'
          (decide (key < other))

/-- `require_growth` for one more row. -/
def requireGrowth (backing : Backing) (slab : Slab) (keySize : ℕ) : Action V Unit := do
  let st ← Command.get
  let keyBytes := st.finish - 1 - backing.header * st.size
  failIf (st.size > slab.rows ∨ 1 > slab.rows - st.size) (.countLimit slab.resource slab.rows)
  failIf (keyBytes > slab.bytes ∨ keySize > slab.bytes - keyBytes)
    (.byteLimit slab.resource slab.bytes)
  failIf (st.finish > slab.capacity ∨ 1 > (slab.capacity - st.finish) / backing.header)
    (.byteLimit slab.resource slab.bytes)
  failIf (keySize > slab.capacity - st.finish - backing.header)
    (.byteLimit slab.resource slab.bytes)
  failIf (st.finish + backing.header + keySize > slab.capacity) (.extent slab.resource)

/-- A slab's limits on one more key. -/
def requireNewKey (backing : Backing) (keySize : ℕ) : Action V Unit :=
  match backing.slab with
  | none => pure ()
  | some slab => do
    failIf (slab.resource = .cohort ∧ keySize > 64) .idTooLong
    requireGrowth backing slab keySize

/-- The read-only ticket of an insertion. -/
def requireInsert (backing : Backing) (key : Key) : Action V Unit :=
  match backing.slab with
  | none => pure ()
  | some _ => do
    let found ← find backing key
    Command.when found.isNone (requireNewKey backing key.length)

/-- The largest `off_t`. -/
def offMax : ℕ := 2 ^ 63 - 1

/-- The bytes fit an `off_t`. -/
def checkExtent (offset length : ℕ) : Action V Unit :=
  failIf (offset > offMax ∨ length > offMax - offset) (.io efbig "scratch offset exhausted")

/-- The checks before an insertion writes. -/
def admitKey (backing : Backing) (keySize : ℕ) : Action V Unit := do
  requireNewKey backing keySize
  let st ← Command.get
  checkExtent st.finish backing.header
  checkExtent (st.finish + backing.header) keySize
  failIf (st.size = 2 ^ 64 - 1) (.io efbig "scratch id count exhausted")

/-- Link a new row under its parent. -/
def linkParent (backing : Backing) (parent at' : ℕ) (left : Bool) : Action V Unit :=
  if parent ≠ 0 then do
    let old ← links backing parent
    putLinks parent (old.withChild left at')
  else Command.modify (·.withRoot at')

/-- Link a new row behind the last one. -/
def linkLast (backing : Backing) (at' : ℕ) : Action V Unit := do
  let st ← Command.get
  if st.last ≠ 0 then do
    let previous ← links backing st.last
    putLinks st.last { previous with next := at' }
  else Command.modify (·.withFirst at')

/-- Append a row and link it. -/
def insertUnder (backing : Backing) (key : Key) (value : V) (parent : ℕ) (left : Bool) :
    Action V (ℕ × Bool) := do
  admitKey backing key.length
  let st ← Command.get
  let at' := st.finish
  Command.modify (·.withRecord at' ⟨{ parent := parent, keySize := key.length }, value, key⟩)
  Command.modify (·.withFinish (at' + backing.header + key.length))
  linkParent backing parent at' left
  linkLast backing at'
  Command.modify (·.counted at')
  let st ← Command.get
  rebalance backing (st.size + 1) parent
  pure (at', true)

/-- Insert a key unless it is there. -/
def insert (backing : Backing) (key : Key) (value : V) : Action V (ℕ × Bool) := do
  let st ← Command.get
  let place ← descend backing key (st.size + 1) st.root 0 false
  match place with
  | .found at' => pure (at', false)
  | .under parent left => insertUnder backing key value parent left

end PineForge.DiskTable
