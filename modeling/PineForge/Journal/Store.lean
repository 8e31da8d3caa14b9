import PineForge.Machine.Bisect
import PineForge.Machine.Endian
import PineForge.Machine.Command
import PineForge.Journal.TailLog

/-!
# The command journal

The newest events are resident in chunks of fixed size; the older ones are written as pages to a
scratch file and read back through a small cache of decoded pages. Positions are absolute and never
reused. A retirement moves the first retained position; what it passes in the resident part is
dropped, and the pages go as a whole once every one of their events is retired.

A journal that is bound to a codec keeps its events in the store of that codec and has no pages;
that mode is left out.
-/

namespace PineForge.Journal

open BigEndian (Bytes)

/-- How an event is written and read, and its ordinal. -/
structure Codec (ε : Type) where
  save : ε → Bytes
  load : Bytes → Option (ε × Bytes)
  ordinal : ε → ℕ

/-- One page of spilled events: the positions and ordinals it covers and where its bytes are. -/
structure JournalPage where
  firstPosition : ℕ
  count : ℕ
  firstOrdinal : ℕ
  lastOrdinal : ℕ
  offset : ℕ
  length : ℕ

/-- A page that was read back. -/
structure Cached (ε : Type) where
  pageNo : ℕ
  firstPosition : ℕ
  count : ℕ
  events : List ε

/-- What a call throws. -/
inductive Failure
  /-- native journal position is not retained -/
  | notRetained
  /-- native o1 log index is not retained -/
  | logIndexNotRetained
  /-- native o1 journal event exceeds the spill page byte bound -/
  | eventTooLarge
  /-- native o1 journal page exceeds byte bound -/
  | pageTooLarge
  /-- native o1 journal page is missing -/
  | pageMissing
  /-- native o1 store record is truncated -/
  | truncated
  /-- A read of a slot that holds no event: the source has no guard for it. -/
  | noEvent
deriving DecidableEq, Repr

/-- The slots of a chunk. -/
def chunkSlots : ℕ := 32

/-- The most resident events. -/
def maxResident : ℕ := 2048

/-- The events a spill leaves. -/
def keepResident : ℕ := 128

/-- The most bytes of a page. -/
def spillPageBytes : ℕ := 32768

/-- The pages in memory. -/
def pageRows : ℕ := 16

/-- The slots of one chunk. -/
abbrev Chunk (ε : Type) : Type := Fin 32 → Option ε

/-- The journal: chunks, pages and their cache. -/
structure JournalStore (ε : Type) where
  chunks : List (Chunk ε)
  /-- The position that the first slot of the first chunk holds. -/
  chunkBase : ℕ
  /-- The first resident position. -/
  first : ℕ
  /-- One past the newest event. -/
  endAt : ℕ
  pages : TailLog JournalPage
  data : Bytes
  /-- Whether the buffers of the pages are there. -/
  spill : Bool
  cache : Fin 4 → Option (Cached ε)
  cacheNext : Fin 4

namespace JournalStore

variable {ε : Type}

/-- A journal without events. -/
def empty : JournalStore ε :=
  { chunks := [], chunkBase := 0, first := 0, endAt := 0, pages := .empty pageRows, data := [],
    spill := false, cache := fun _ => none, cacheNext := 0 }

/-- The number of resident events. -/
def residentCount (s : JournalStore ε) : ℕ := s.endAt - s.first

/-! ## The resident part -/

/-- The slot of a position in chunks that begin at a base. -/
def slotIn (chunks : List (Chunk ε)) (base position : ℕ) : Option ε :=
  chunks[(position - base) / 32]?.bind fun chunk => chunk (Fin.ofNat 32 (position - base))

/-- The slot of a position. -/
def slotAt (s : JournalStore ε) (position : ℕ) : Option ε := slotIn s.chunks s.chunkBase position

/-- The journal with another slot. -/
def setSlot (s : JournalStore ε) (position : ℕ) (value : Option ε) : JournalStore ε :=
  { s with
    chunks := s.chunks.modify ((position - s.chunkBase) / 32) fun chunk =>
      Function.update chunk (Fin.ofNat 32 (position - s.chunkBase)) value }

/-- The resident event at a position. -/
def residentAt (s : JournalStore ε) (position : ℕ) : Except Failure ε :=
  match s.slotAt position with
  | some event => .ok event
  | none => .error .noEvent

/-- Appends one event into storage that was set aside. -/
def push (event : ε) (s : JournalStore ε) : JournalStore ε :=
  { s.setSlot s.endAt (some event) with endAt := s.endAt + 1 }

/-- Clear the first slots. -/
def clearFront : ℕ → JournalStore ε → JournalStore ε
  | 0, s => s
  | n + 1, s => clearFront n { s.setSlot s.first none with first := s.first + 1 }

/-- Drop the chunks before a position. -/
def trimChunks (first : ℕ) : List (Chunk ε) → ℕ → List (Chunk ε) × ℕ
  | [], base => ([], base)
  | chunk :: chunks, base =>
    if base + chunkSlots ≤ first then trimChunks first chunks (base + chunkSlots)
    else (chunk :: chunks, base)

/-- Destroys the resident events below a position and frees every chunk they emptied. -/
def dropFront (newFirst : ℕ) (s : JournalStore ε) : JournalStore ε :=
  let s := s.clearFront (newFirst - s.first)
  let (chunks, base) := trimChunks s.first s.chunks s.chunkBase
  { s with chunks := chunks, chunkBase := if chunks = [] then s.first else base }

/-! ## Spilling -/

variable (codec : Codec ε)

/-- Writes the events that fit into a page, one behind the other. -/
def gather : List ε → Bytes → ℕ × Bytes
  | [], out => (0, out)
  | event :: events, out =>
    if out.length + (codec.save event).length ≤ spillPageBytes then
      let (count, out) := gather events (out ++ codec.save event)
      (count + 1, out)
    else (0, out)

/-- The resident events of a range. -/
def residentRange (s : JournalStore ε) : ℕ → ℕ → Except Failure (List ε)
  | _, 0 => .ok []
  | position, n + 1 => do
    let event ← s.residentAt position
    let events ← residentRange s (position + 1) n
    .ok (event :: events)

/-- Append a page and its bytes. -/
def publishPage (page : JournalPage) (bytes : Bytes) (s : JournalStore ε) : JournalStore ε :=
  { s with pages := s.pages.makeRoom.push page, data := s.data ++ bytes }

/-- Writes the oldest resident events that fit, up to their chunk's end, as one page and drops
exactly those. -/
def spillFrontChunk : Command (JournalStore ε) Failure Unit := fun s =>
  let chunkEnd := min s.endAt (s.chunkBase + chunkSlots)
  if chunkEnd ≤ s.first then (.ok (), s)
  else
    let s := { s with spill := true }
    match s.residentRange s.first (chunkEnd - s.first) with
    | .error e => (.error e, s)
    | .ok events =>
      let (count, out) := gather codec events []
      match events[0]?, events[count - 1]?, count with
      | some oldest, some newest, _ + 1 =>
        let page : JournalPage :=
          { firstPosition := s.first, count := count, firstOrdinal := codec.ordinal oldest,
            lastOrdinal := codec.ordinal newest, offset := s.data.length, length := out.length }
        (.ok (), (s.publishPage page out).dropFront (s.first + count))
      | _, _, _ => (.error .eventTooLarge, s)

/-- Spill until there is room. -/
def spillDown (incoming : ℕ) : ℕ → Command (JournalStore ε) Failure Unit
  | 0 => pure ()
  | fuel + 1 => do
    let s ← Command.get
    if s.residentCount + incoming > maxResident ∧ s.residentCount > keepResident then do
      spillFrontChunk codec
      spillDown incoming fuel
    else pure ()

/-- Append chunks up to a position. -/
def growTo (need : ℕ) : ℕ → JournalStore ε → JournalStore ε
  | 0, s => s
  | fuel + 1, s =>
    if s.chunkBase + s.chunks.length * chunkSlots < need then
      growTo need fuel { s with chunks := s.chunks ++ [fun _ => none] }
    else s

/-- Room for so many more events: spill while the resident part would pass its bound, then make sure
that the chunks that will hold them exist. Every spill drops an event, so that the resident events
are fuel enough. -/
def makeRoom (incoming : ℕ) : Command (JournalStore ε) Failure Unit := do
  let s ← Command.get
  spillDown codec incoming s.residentCount
  Command.modify fun s =>
    let s := { s with chunkBase := if s.chunks = [] then s.endAt else s.chunkBase }
    growTo (s.endAt + incoming) (s.endAt + incoming) s

/-! ## Reading -/

/-- The row of a page. -/
def pageAt (s : JournalStore ε) (pageNo : ℕ) : Except Failure JournalPage :=
  match s.pages.get pageNo with
  | some page => .ok page
  | none => .error .logIndexNotRetained

/-- The page that holds a spilled position. -/
def pageForPosition (s : JournalStore ε) (position : ℕ) :
    Except Failure (Option (ℕ × JournalPage)) := do
  let low ← bisect (fun middle => do
    let page ← s.pageAt middle
    .ok (decide (page.firstPosition ≤ position))) s.pages.base s.pages.size
  if low = s.pages.base then .ok none
  else do
    let found ← s.pageAt (low - 1)
    if position - found.firstPosition ≥ found.count then .ok none
    else .ok (some (low - 1, found))

/-- Load so many events. -/
def loadEvents : ℕ → Bytes → Option (List ε)
  | 0, _ => some []
  | n + 1, bs => (codec.load bs).bind fun (event, bs) => (loadEvents n bs).map (event :: ·)

/-- The events of a page. -/
def decodePage (s : JournalStore ε) (page : JournalPage) : Option (List ε) :=
  if page.offset + page.length ≤ s.data.length then
    loadEvents codec page.count ((s.data.drop page.offset).take page.length)
  else none

/-- The cached page of a number. -/
def cachedPage (s : JournalStore ε) (pageNo : ℕ) : Option (Cached ε) :=
  (List.finRange 4).findSome? fun i => (s.cache i).filter fun slot => slot.pageNo = pageNo

/-- The cached page of a position. -/
def cachedPosition (s : JournalStore ε) (position : ℕ) : Option (Cached ε) :=
  (List.finRange 4).findSome? fun i => (s.cache i).filter fun slot =>
    position ≥ slot.firstPosition ∧ position - slot.firstPosition < slot.count

/-- The events of a page, from the cache or decoded into the next slot of it. The slot is given up
before the read, so that a read that fails leaves nothing under its old key. -/
def load (pageNo : ℕ) (page : JournalPage) : Command (JournalStore ε) Failure (List ε) := fun s =>
  match s.cachedPage pageNo with
  | some slot => (.ok slot.events, s)
  | none =>
    if s.spill = false ∨ page.length > spillPageBytes ∨ page.count > chunkSlots then
      (.error .pageTooLarge, s)
    else
      let s := { s with cache := Function.update s.cache s.cacheNext none }
      match s.decodePage codec page with
      | none => (.error .truncated, s)
      | some events =>
        let slot : Cached ε :=
          { pageNo := pageNo, firstPosition := page.firstPosition, count := page.count,
            events := events }
        (.ok events, { s with
          cache := Function.update s.cache s.cacheNext (some slot), cacheNext := s.cacheNext + 1 })

/-- An event of a page. -/
def eventOf (events : List ε) (i : ℕ) : Except Failure ε :=
  match events[i]? with
  | some event => .ok event
  | none => .error .noEvent

/-- The retained event at an absolute position. -/
def at_ (position : ℕ) : Command (JournalStore ε) Failure ε := fun s =>
  if s.first ≤ position then (s.residentAt position, s)
  else match s.cachedPosition position with
  | some slot => (eventOf slot.events (position - slot.firstPosition), s)
  | none => match s.pageForPosition position with
    | .error e => (.error e, s)
    | .ok none => (.error .pageMissing, s)
    | .ok (some (pageNo, page)) =>
      let (events, s) := load codec pageNo page s
      (events >>= fun events => eventOf events (position - page.firstPosition), s)

/-- The ordinal at a position. -/
def ordinalAt (position : ℕ) : Command (JournalStore ε) Failure ℕ := do
  let event ← at_ codec position
  pure (codec.ordinal event)

/-- The first position from the window's first on whose ordinal is above the given one. The resident
part is bisected directly; for a target before it the pages are bisected by ordinal and one page is
read. -/
def upperBoundPosition (ordinal low : ℕ) : Command (JournalStore ε) Failure ℕ := fun s =>
  if s.first < s.endAt ∧ (s.slotAt s.first).any fun event =>
    decide (codec.ordinal event ≤ ordinal) then
    (bisect (fun middle => do
      let event ← s.residentAt middle
      .ok (decide (codec.ordinal event ≤ ordinal))) s.first s.endAt, s)
  else if s.first ≤ low then (.ok s.first, s)
  else
    match bisect (fun middle => do
        let page ← s.pageAt middle
        .ok (decide (page.firstOrdinal ≤ ordinal))) s.pages.base s.pages.size with
    | .error e => (.error e, s)
    | .ok above =>
      if above = s.pages.base then (.ok low, s)
      else match s.pageAt (above - 1) with
      | .error e => (.error e, s)
      | .ok page =>
        let (events, s) := load codec (above - 1) page s
        (events >>= fun events => do
          let a ← bisect (fun middle => do
            let event ← eventOf events middle
            .ok (decide (codec.ordinal event ≤ ordinal))) 0 events.length
          .ok (max low (page.firstPosition + a)), s)

/-- The position of an ordinal. -/
def findOrdinal (ordinal low : ℕ) : Command (JournalStore ε) Failure (Option ℕ) := do
  let above ← upperBoundPosition codec ordinal low
  if above = low then pure none
  else do
    let found ← ordinalAt codec (above - 1)
    pure (if found ≠ ordinal then none else some (above - 1))

/-- Forgets the pages and what was decoded of them. -/
def releasePages (s : JournalStore ε) : JournalStore ε :=
  { s with pages := s.pages.reset, data := [], cache := fun _ => none, cacheNext := 0 }

end JournalStore

end PineForge.Journal
