import Mathlib
import PineForge.Machine.Window

/-!
# A cache of page prefixes

`read_through_cache.hpp`: lines of one page each over a backing store, with one of three replacement
policies, written through or written back. A line holds a prefix of its page. A lease pins a line:
its bytes stay where they are, and another write of the page goes to another line.

The bytes are of any type, and the content of a page is a function from positions. The backing
answers each call with a reply, in the order of a list; behind the list every call completes.
-/

namespace PineForge.PageCache

open Window (put window)

/-- The page of a backing's generation. -/
structure Key where
  backingIdentity : ℕ := 0
  generation : ℕ := 0
  pageNumber : ℕ := 0
deriving DecidableEq, Repr

/-- How a line is chosen. -/
inductive Replacement where
  | directMapped
  | clock
  | lru
deriving DecidableEq, Repr

/-- When a put reaches the backing. -/
inductive WritePolicy where
  | writeThrough
  | writeBack
deriving DecidableEq, Repr

/-- The answers of calls. -/
inductive Status where
  | ok
  | finish
  | cancelled
  | notFound
  | programmingError
  | ioError
  | corrupt
deriving DecidableEq, Repr

/-- What a cache is made with. -/
structure Policy where
  capacityBytes : ℕ
  pageSize : ℕ
  replacement : Replacement := .directMapped
  writePolicy : WritePolicy := .writeThrough
  /-- `transaction.write` is there. -/
  transactional : Bool := false
deriving DecidableEq, Repr

/-- The largest `size_t`. -/
def sizeMax : ℕ := 2 ^ 64 - 1

/-- `sizeof(Slot)`. -/
def slotBytes : ℕ := 56

/-- The bytes of a line. -/
def lineBytes (pageSize : ℕ) : ℕ :=
  if pageSize ≠ 0 ∧ pageSize ≤ sizeMax - slotBytes then slotBytes + pageSize else 0

namespace Policy

/-- The cache writes back. -/
def writesBack (policy : Policy) : Bool := policy.writePolicy = .writeBack

/-- The constructor's checks. -/
def wellFormed (policy : Policy) : Bool :=
  lineBytes policy.pageSize ≠ 0 && (!policy.writesBack || policy.transactional)

/-- A span that fits a page. -/
def validSpan (policy : Policy) (size : ℕ) : Bool :=
  policy.wellFormed && size ≠ 0 && size ≤ policy.pageSize

end Policy

/-- The tag of a line. -/
structure Slot where
  key : Key := {}
  validBytes : ℕ := 0
  pins : ℕ := 0
  age : ℕ := 0
  valid : Bool := false
  dirty : Bool := false
  recent : Bool := false
deriving DecidableEq, Repr

/-- What a call of the backing says, and the bytes a call that fails leaves in its span. -/
structure Reply (α : Type) where
  status : Status
  transferredBytes : ℕ
  unchangedOnFailure : Bool
  left : ℕ → α

/-- A pinned page. -/
structure Lease (α : Type) where
  /-- None for the caller's workspace. -/
  slot : Option ℕ
  bytes : List α

/-- The cache, its backing and its replies. -/
structure Cache (α : Type) where
  slots : ℕ → Slot
  payload : ℕ → ℕ → α
  count : ℕ
  /-- The slots are allocated. -/
  memory : Bool
  allocationAttempted : Bool
  clockHand : ℕ
  leases : List (Lease α)
  pages : Key → ℕ → α
  /-- `backing.write` is there. -/
  writable : Bool
  replies : List (Reply α)
  /-- The allocator's answer. -/
  allocates : Bool

variable {α : Type}

namespace Cache

/-- The cache with another tag. -/
def withSlot (c : Cache α) (i : ℕ) (slot : Slot) : Cache α :=
  { c with slots := Function.update c.slots i slot }

/-- The cache with another page behind it. -/
def withPage (c : Cache α) (key : Key) (page : ℕ → α) : Cache α :=
  { c with pages := Function.update c.pages key page }

end Cache

/-! ## The backing -/

/-- A completed call. -/
def Reply.complete (requested : ℕ) (page : ℕ → α) : Reply α := ⟨.ok, requested, false, page⟩

/-- The backing's next reply. -/
def nextReply (requested : ℕ) (key : Key) (c : Cache α) : Reply α × Cache α :=
  match c.replies with
  | [] => (.complete requested (c.pages key), c)
  | reply :: replies => (reply, { c with replies := replies })

/-- The status of a call and whether it promises that nothing changed. -/
def normalize (reply : Reply α) (requested : ℕ) : Status × Bool :=
  if reply.transferredBytes > requested then (.programmingError, false)
  else if reply.status = .ok ∧ reply.transferredBytes ≠ requested then (.ioError, false)
  else (reply.status, reply.unchangedOnFailure)

/-- `backing_.read`: a completed read has the bytes of the page. -/
def backingRead (key : Key) (size : ℕ) (c : Cache α) : (Status × List α) × Cache α :=
  let next := nextReply size key c
  let result := normalize next.1 size
  ((result.1, if result.1 = .ok then window (c.pages key) 0 size else window next.1.left 0 size),
    next.2)

/-- The page after a write: all of the bytes, nothing, or anything in their span. -/
def pageAfter (result : Status × Bool) (left page : ℕ → α) (bytes : List α) : ℕ → α :=
  if result.1 = .ok then put page 0 bytes
  else if result.2 then page
  else fun position => if position < bytes.length then left position else page position

/-- `write`, through the backing or the transaction's port. -/
def write (key : Key) (bytes : List α) (c : Cache α) : (Status × Bool) × Cache α :=
  let next := nextReply bytes.length key c
  let result := normalize next.1 bytes.length
  (result, next.2.withPage key (pageAfter result next.1.left (c.pages key) bytes))

/-! ## Lines -/

/-- Allocate the lines once. -/
def allocateSlots (c : Cache α) : Cache α :=
  if c.count = 0 ∨ c.allocationAttempted = true then c
  else if c.allocates then { c with allocationAttempted := true, memory := true, slots := fun _ =>
    {} }
  else { c with allocationAttempted := true, count := 0 }

/-- The factor of the identity. -/
def identityMix : ℕ := 0x9e3779b97f4a7c15

/-- The factor of the generation. -/
def generationMix : ℕ := 0xbf58476d1ce4e5b9

/-- A number as `uint64_t`. -/
def word (n : ℕ) : ℕ := n % 2 ^ 64

/-- The line a page maps to. -/
def mapped (key : Key) (count : ℕ) : ℕ :=
  (key.pageNumber ^^^ word (key.backingIdentity * identityMix) ^^^ word
    (key.generation * generationMix)) % count

/-- Whether a line holds a page. -/
def holds (c : Cache α) (key : Key) (i : ℕ) : Bool := (c.slots i).valid && (c.slots i).key = key

/-- The line that holds a page. -/
def find (policy : Policy) (key : Key) (c : Cache α) : Option ℕ :=
  if c.memory then
    if policy.replacement = .directMapped then
      if holds c key (mapped key c.count) then some (mapped key c.count) else none
    else (List.range c.count).find? (holds c key)
  else none

/-- The hand moves on; a line that was touched is let off once. -/
def clockScan : ℕ → Cache α → Option ℕ × Cache α
  | 0, c => (none, c)
  | steps + 1, c =>
    let i := c.clockHand
    let moved : Cache α := { c with clockHand := if i + 1 = c.count then 0 else i + 1 }
    if (c.slots i).pins ≠ 0 then clockScan steps moved
    else if (c.slots i).recent = false then (some i, moved)
    else clockScan steps (moved.withSlot i { c.slots i with recent := false })

/-- The oldest line that is not pinned. -/
def oldest (c : Cache α) : Option ℕ :=
  (List.range c.count).foldl (fun victim i =>
    if (c.slots i).pins = 0 ∧ victim.all (fun v => (c.slots i).age > (c.slots v).age) then some i
      else victim) none

/-- The line to replace. -/
def choose (policy : Policy) (key : Key) (c : Cache α) : Option ℕ × Cache α :=
  if c.memory then
    if policy.replacement = .directMapped then
      (if (c.slots (mapped key c.count)).pins ≠ 0 then none else some (mapped key c.count), c)
    else
      match (List.range c.count).find? fun i => !(c.slots i).valid && (c.slots i).pins = 0 with
      | some i => (some i, c)
      | none => if policy.replacement = .clock then clockScan (2 * c.count) c else (oldest c, c)
  else (none, c)

/-- The age at which ageing stops. -/
def ageMax : ℕ := 2 ^ 64 - 1

/-- The tags one use later. -/
def aged (c : Cache α) (i j : ℕ) : Slot :=
  if j = i then { c.slots i with recent := true, age := 0 }
  else if j < c.count ∧ (c.slots j).valid = true ∧ (c.slots j).age ≠ ageMax
  then { c.slots j with age := (c.slots j).age + 1 } else c.slots j

/-- Use a line. -/
def touch (policy : Policy) (i : ℕ) (c : Cache α) : Cache α :=
  if policy.replacement = .lru then { c with slots := aged c i }
    else c.withSlot i { c.slots i with recent := true }

/-- Drop a line. -/
def invalidateSlot (i : ℕ) (c : Cache α) : Cache α :=
  c.withSlot i { c.slots i with valid := false, dirty := false }

/-- Drop a line, if there is one. -/
def invalidateOption : Option ℕ → Cache α → Cache α
  | none, c => c
  | some i, c => invalidateSlot i c

/-- Fill a line. -/
def install (policy : Policy) (i : ℕ) (key : Key) (bytes : List α) (dirty : Bool) (c : Cache α) :
    Cache α :=
  touch policy i (
    { c with payload := Function.update c.payload i (put (c.payload i) 0 bytes) }.withSlot i
      { c.slots i with key := key, validBytes := bytes.length, dirty := dirty, valid := true })

/-- Write a dirty line. -/
def flushSlot (i : ℕ) (c : Cache α) : Status × Cache α :=
  if (c.slots i).valid && (c.slots i).dirty then
    let result := write (c.slots i).key (window (c.payload i) 0 (c.slots i).validBytes) c
    (result.1.1, if result.1.1 = .ok then result.2.withSlot i { c.slots i with dirty := false }
      else result.2)
  else (.ok, c)

/-! ## Calls -/

/-- What a load answers. -/
structure Loaded (α : Type) where
  status : Status
  slot : Option ℕ
  bytes : List α

/-- The line a page goes to: its own one unless it is pinned. -/
def target (policy : Policy) (key : Key) (old : Option ℕ) (c : Cache α) : Option ℕ × Cache α :=
  match old with
  | some i => if (c.slots i).pins = 0 then (some i, c) else choose policy key c
  | none => choose policy key c

/-- Whether a line is dirty. -/
def isDirty (c : Cache α) (slot : Option ℕ) : Bool := slot.any fun i => (c.slots i).dirty

/-- The bytes read, under a pending prefix of the page. -/
def merged (c : Cache α) (old : Option ℕ) (bytes : List α) : List α :=
  match old with
  | some i => if (c.slots i).dirty then window (c.payload i) 0 (c.slots i).validBytes ++
    bytes.drop (c.slots i).validBytes
    else bytes
  | none => bytes

/-- A line's tags are dropped before the read unless its bytes are the only ones. -/
def dropClean (slot : Option ℕ) (c : Cache α) : Cache α :=
  if isDirty c slot then c else invalidateOption slot c

/-- A line of another page is written before it is taken. -/
def freeTarget (old : Option ℕ) : Option ℕ → Cache α → Status × Cache α
  | some i, c => if some i ≠ old then flushSlot i c else (.ok, c)
  | none, c => (.ok, c)

/-- The end of a miss: the bytes go into the line, after a pending page of another key was
written. -/
def fill (policy : Policy) (key : Key) (old : Option ℕ) (bytes : List α) (i : ℕ) (c : Cache α) :
    Loaded α × Cache α :=
  let flushed := freeTarget old (some i) c
  if flushed.1 = .ok then
    (⟨.ok, some i, bytes⟩, install policy i key bytes (isDirty flushed.2 old)
      (invalidateSlot i (invalidateOption old flushed.2)))
  else (⟨flushed.1, none, bytes⟩, flushed.2)

/-- Load a page no line holds enough of. -/
def missed (policy : Policy) (key : Key) (size : ℕ) (old : Option ℕ) (c : Cache α) :
    Loaded α × Cache α :=
  let chosen := target policy key old c
  let read := backingRead key size (dropClean old (dropClean chosen.1 chosen.2))
  if read.1.1 = .ok then
    match chosen.1 with
    | none => (⟨.ok, none, merged read.2 old read.1.2⟩, read.2)
    | some i => fill policy key old (merged read.2 old read.1.2) i read.2
  else (⟨read.1.1, none, read.1.2⟩, read.2)

/-- Load a page. -/
def load (policy : Policy) (key : Key) (size : ℕ) (c : Cache α) : Loaded α × Cache α :=
  let c := allocateSlots c
  match find policy key c with
  | some i =>
    if (c.slots i).validBytes ≥ size then
      (⟨.ok, some i, window (c.payload i) 0 size⟩, touch policy i c)
    else missed policy key size (some i) c
  | none => missed policy key size none c

/-- `get`. -/
def get (policy : Policy) (key : Key) (size : ℕ) (c : Cache α) : (Status × List α) × Cache α :=
  if policy.validSpan size then
    let loaded := load policy key size c
    ((loaded.1.status, loaded.1.bytes), loaded.2)
  else ((.programmingError, []), c)

/-- One more lease on a line, or on the caller's workspace. -/
def Cache.leased (c : Cache α) (lease : Lease α) : Cache α :=
  match lease.slot with
  | some i => { c.withSlot i { c.slots i with pins := (c.slots i).pins + 1 } with leases := lease
    :: c.leases }
  | none => { c with leases := lease :: c.leases }

/-- `pin`. -/
def pin (policy : Policy) (key : Key) (size : ℕ) (c : Cache α) :
    (Status × Option (Lease α)) × Cache α :=
  if policy.validSpan size then
    let loaded := load policy key size c
    if loaded.1.status = .ok then
      ((.ok, some ⟨loaded.1.slot, loaded.1.bytes⟩), loaded.2.leased ⟨loaded.1.slot, loaded.1.bytes⟩)
    else ((loaded.1.status, none), loaded.2)
  else ((.programmingError, none), c)

/-- The bytes a lease shows: those of its line, or the workspace. -/
def Cache.seen (c : Cache α) (lease : Lease α) : List α :=
  match lease.slot with
  | some i => window (c.payload i) 0 lease.bytes.length
  | none => lease.bytes

/-- The lease at a place of the list is released. -/
def unpin (n : ℕ) (c : Cache α) : Cache α :=
  match c.leases[n]? with
  | some ⟨some i, _⟩ =>
    { c.withSlot i { c.slots i with pins := (c.slots i).pins - 1 } with
      leases := c.leases.eraseIdx n }
  | some ⟨none, _⟩ => { c with leases := c.leases.eraseIdx n }
  | none => c

/-- Drop the selected lines unless one is dirty. -/
def invalidateIf (policy : Policy) (selects : Slot → Bool) (c : Cache α) : Status × Cache α :=
  if policy.wellFormed then
    if c.memory then
      if (List.range c.count).any fun i => (c.slots i).valid && (c.slots i).dirty && selects
        (c.slots i) then
        (.programmingError, c)
      else (.ok, { c with slots := fun i =>
        if i < c.count ∧ (c.slots i).valid = true ∧ selects (c.slots i) = true
        then { c.slots i with valid := false, dirty := false } else c.slots i })
    else (.ok, c)
  else (.programmingError, c)

/-- Drop a page. -/
def invalidate (policy : Policy) (key : Key) : Cache α → Status × Cache α :=
  invalidateIf policy fun line => line.key = key

/-- Drop all pages. -/
def invalidateAll (policy : Policy) : Cache α → Status × Cache α :=
  invalidateIf policy fun _ => true

/-- Drop the pages from an offset on. -/
def invalidateFrom (policy : Policy) (identity generation byteOffset : ℕ) :
    Cache α → Status × Cache α :=
  invalidateIf policy fun line => line.key.backingIdentity = identity && line.key.generation
    = generation &&
    line.key.pageNumber ≥ byteOffset / policy.pageSize

/-- Drop the pages of other generations. -/
def onGenerationChange (policy : Policy) (identity generation : ℕ) : Cache α → Status × Cache α :=
  invalidateIf policy fun line => line.key.backingIdentity
    = identity && line.key.generation ≠ generation

/-- Bind another backing. -/
def rebind (policy : Policy) (pages : Key → ℕ → α) (writable : Bool) (c : Cache α) :
    Status × Cache α :=
  let invalidated := invalidateAll policy c
  if invalidated.1 = .ok then (.ok, { invalidated.2 with pages := pages, writable := writable })
    else invalidated

/-- Flush lines until one fails. -/
def flushFrom : List ℕ → Cache α → Status × Cache α
  | [], c => (.ok, c)
  | i :: rest, c =>
    let flushed := flushSlot i c
    if flushed.1 = .ok then flushFrom rest flushed.2 else flushed

/-- `flush`. -/
def flush (policy : Policy) (c : Cache α) : Status × Cache α :=
  if policy.wellFormed then if c.memory then flushFrom (List.range c.count) c else (.ok, c)
    else (.programmingError, c)

/-- `discard_dirty`, with the owner's answer. -/
def discardDirty (policy : Policy) (allowed : Bool) (c : Cache α) : Status × Cache α :=
  if policy.wellFormed then
    if c.memory && (List.range c.count).any fun i => (c.slots i).dirty then
      if allowed then (.ok, { c with slots := fun i =>
        if i < c.count ∧ (c.slots i).dirty = true then
          { c.slots i with valid := false, dirty := false } else c.slots i })
      else (.programmingError, c)
    else (.ok, c)
  else (.programmingError, c)

/-- The tags of a line as they were. -/
def restored (slot : Option ℕ) (tag : Slot) (c : Cache α) : Cache α :=
  match slot with
  | some i => c.withSlot i tag
  | none => c

/-- The tag of a line, empty for none. -/
def tagOf (c : Cache α) (slot : Option ℕ) : Slot := slot.elim {} c.slots

/-- The write of a put that is not kept back. -/
def writeThrough (policy : Policy) (key : Key) (source : List α) (old target : Option ℕ)
    (c : Cache α) : Status × Cache α :=
  let written := write key source (invalidateOption target (invalidateOption old c))
  if written.1.1 = .ok then
    match target with
    | some i => (.ok, install policy i key source false written.2)
    | none => (.ok, written.2)
  else
    let first := if (tagOf c old).dirty || written.1.2 then restored old (tagOf c old) written.2
      else written.2
    (written.1.1, if target ≠ old then restored target (tagOf c target) first else first)

/-- A put once its line is chosen and free. -/
def place (policy : Policy) (key : Key) (source : List α) (old target : Option ℕ) (c : Cache α) :
    Status × Cache α :=
  match target with
  | some i => if policy.writesBack then
      (.ok, install policy i key source true (invalidateSlot i (invalidateOption old c)))
    else writeThrough policy key source old target c
  | none => writeThrough policy key source old target c

/-- Put a page whose suffix is kept. -/
def putFound (policy : Policy) (key : Key) (source : List α) (old : Option ℕ) (c : Cache α) :
    Status × Cache α :=
  let chosen := target policy key old c
  let freed := freeTarget old chosen.1 chosen.2
  if freed.1 = .ok then place policy key source old chosen.1 freed.2 else freed

/-- A shorter prefix must first preserve a pending suffix in the backing. -/
def keepSuffix (size : ℕ) : Option ℕ → Cache α → Status × Cache α
  | some i, c => if (c.slots i).dirty = true ∧ size < (c.slots i).validBytes then flushSlot i c
    else (.ok, c)
  | none, c => (.ok, c)

/-- `put`. -/
def putPage (policy : Policy) (key : Key) (source : List α) (c : Cache α) : Status × Cache α :=
  if policy.validSpan source.length && (policy.writesBack || c.writable) then
    let c := allocateSlots c
    let old := find policy key c
    let kept := keepSuffix source.length old c
    if kept.1 = .ok then putFound policy key source old kept.2 else kept
  else (.programmingError, c)

end PineForge.PageCache
