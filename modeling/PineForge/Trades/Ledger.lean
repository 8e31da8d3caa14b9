import Mathlib
import PineForge.Trades.Storage

/-!
# The trade ledger

Rows are appended, replaced while they are not sealed, and read. The descriptors of the newest rows
are kept in memory, and rows that were read in a cache. A row is stored as a transaction: its new
texts, then its descriptor, and where one of these fails the files are brought back (`rollback`); a
ledger that cannot be is refused from then on. A retiring ledger erases the text that a replacement
drops and releases what lies before the sealed rows.
-/

namespace PineForge.Trades

open BigEndian ByteFile

/-! ## The cache -/

/-- The ways of the cache. -/
def cacheWays : ℕ := 4

/-- The bytes of a cached row's texts. -/
def cacheStringBytes : ℕ := 128

namespace Ledger

variable (st : Ledger)

/-- The first slot of a row's set. -/
def cacheSlot (global : ℕ) : ℕ :=
  global % (st.cacheRows / cacheWays + if st.cacheRows % cacheWays ≠ 0 then 1 else 0) * cacheWays

/-- The slots of a row's set. -/
def cacheSet (global : ℕ) : List ℕ :=
  (List.range (min cacheWays (st.cacheRows - st.cacheSlot global))).map (st.cacheSlot global + ·)

/-- The slot that holds a row. -/
def cachedSlot (global : ℕ) : Option ℕ :=
  (st.cacheSet global).find? fun slot => (st.entries slot).any (·.global = global)

/-- The set's other rows grow older by one. -/
def touch (global selected : ℕ) : Ledger :=
  { st with
    ranks := fun slot =>
      if slot ∈ st.cacheSet global ∧ (st.entries slot).isSome then
        if slot = selected then 0 else min 3 (st.ranks slot + 1)
      else st.ranks slot }

/-- The ledger with another entry. -/
def setEntry (slot : ℕ) (entry : Option CacheEntry) : Ledger :=
  { st with entries := Function.update st.entries slot entry }

/-- Drop a cached row. -/
def invalidate (global : ℕ) : Ledger :=
  match st.cachedSlot global with
  | none => st
  | some slot => (st.touch global slot).setEntry slot none

/-- Drop all cached rows. -/
def invalidateCache : Ledger := { st with entries := fun _ => none }

/-- The slot that a row will take: a free one, its own, or the oldest. -/
def victimSlot (global : ℕ) : Option ℕ :=
  match (st.cacheSet global).find? fun slot => (st.entries slot).all (·.global = global) with
  | some slot => some slot
  | none =>
    (st.cacheSet global).foldl (fun victim slot =>
      match victim with
      | none => some slot
      | some oldest => if st.ranks oldest < st.ranks slot then some slot else victim) none

end Ledger

/-- The packed texts of a row that fit into an entry. -/
def packs (record : Record) : Bool :=
  (record.texts.toList.map (·.length.toNat)).sum ≤ cacheStringBytes

/-- The packed texts of a row, read where they are not at hand. -/
def packStrings (record : Record) (row : Option Trade) : Action (Option Bytes) :=
  if packs record then
    match row with
    | some row => pure (some row.texts.toList.flatten)
    | none => do pure (some (← getTexts record.texts).toList.flatten)
  else pure none

/-- A row into the cache; without its texts at hand they are read. The entry in its slot goes
first. -/
def remember (global : ℕ) (record : Record) (row : Option Trade) : Action CacheEntry := do
  let st ← Command.get
  match st.victimSlot global with
  | none => pure ⟨global, record, none⟩
  | some slot =>
    Command.modify fun st =>
      ({ st with cacheOpen := true, ranks := Function.update st.ranks slot 0 }).setEntry slot none
    let strings ← packStrings record row
    Command.modify fun st => (st.setEntry slot (some ⟨global, record, strings⟩)).touch global slot
    pure ⟨global, record, strings⟩

/-! ## Reading -/

/-- Neither a refused ledger nor a retired row is read, nor one that is not there. -/
def check (global : ℕ) (mutableRow : Bool) : Action Unit := do
  let st ← Command.get
  match st.rollbackFailure with
  | some e => Command.throw e
  | none =>
    if st.policy = .retiring ∧ global < st.first then Command.throw .retiredRead
    else if st.finish ≤ global ∨ (mutableRow ∧ global < st.first) then Command.throw .outsideWindow

/-- The record of a row that is not cached. -/
def uncachedDescriptor (global : ℕ) : Action Record := do
  let st ← Command.get
  if st.residentFirst ≤ global then pure (st.resident.getD (global - st.residentFirst) default)
  else pure (decode (← readFile .index (← recordOffset global) recordBytes))

/-- The record of a row. -/
def descriptor (global : ℕ) : Action Record := do
  let st ← Command.get
  match st.cachedSlot global with
  | some slot =>
    Command.modify fun st => st.touch global slot
    pure ((st.entries slot).elim default (·.record))
  | none => uncachedDescriptor global

/-- The cached row, loaded if it is not. -/
def load (global : ℕ) : Action CacheEntry := do
  let st ← Command.get
  match st.cachedSlot global with
  | some slot =>
    Command.modify fun st => st.touch global slot
    pure ((st.entries slot).getD ⟨global, default, none⟩)
  | none =>
    if st.cacheRows = 0 then pure ⟨global, ← uncachedDescriptor global, none⟩
    else remember global (← uncachedDescriptor global) none

/-- The texts of a descriptor out of their packed bytes. -/
def unpack (extents : Texts StringExtent) (strings : Bytes) : Texts Bytes :=
  let a := extents.entryId.length.toNat
  let b := a + extents.entryComment.length.toNat
  let c := b + extents.exitComment.length.toNat
  ⟨strings.take a, (strings.drop a).take extents.entryComment.length.toNat,
    (strings.drop b).take extents.exitComment.length.toNat,
      (strings.drop c).take extents.exitId.length.toNat⟩

/-- The row of a record. -/
def decodeRow (record : Record) : Action Trade := do pure ⟨record.figures, ← getTexts record.texts⟩

/-- `read`. -/
def read (global : ℕ) : Action Trade := do
  check global false
  let entry ← load global
  match entry.strings with
  | some strings => pure ⟨entry.record.figures, unpack entry.record.texts strings⟩
  | none => decodeRow entry.record

/-- A row that stays in memory once it has been asked for. -/
def materialize (global : ℕ) : Action Trade := do
  check global false
  match (← Command.get).materialized global with
  | some row => pure row
  | none =>
    let row ← read global
    Command.modify fun st =>
      { st with materialized := Function.update st.materialized global (some row) }
    pure row

/-! ## Storing -/

/-- The payload's end after a text, unless it is kept. -/
def pendingEnd (pending : ℕ) (text : Bytes) (old : Option StringExtent) : Action ℕ := do
  let kept ←
    match old with
    | none => pure false
    | some old => if text.length = old.length.toNat then stringEqualsChunks old text else pure false
  if kept then pure pending
  else
    checkExtent pending text.length
    pure (pending + text.length)

/-- The room a transaction needs in a supplied history file is reserved before its first write. -/
def reserveTexts (saved : Ledger) (offset : ℕ) (texts : Texts Bytes) (previous : Option Record) :
    Action Unit :=
  Command.when saved.policy.extent.isSome do
    let a ← pendingEnd saved.payloadEnd texts.entryId (previous.map (·.texts.entryId))
    let b ← pendingEnd a texts.entryComment (previous.map (·.texts.entryComment))
    let c ← pendingEnd b texts.exitComment (previous.map (·.texts.exitComment))
    let pending ← pendingEnd c texts.exitId (previous.map (·.texts.exitId))
    reserve (max saved.index.length (offset + recordBytes)) pending

/-- A descriptor that may have been damaged is written back. -/
def restore (offset : ℕ) : Option Record → Action Unit
  | none => pure ()
  | some previous => writeFile false .index offset (encode previous)

/-- Undo a failed store. -/
def undo (saved : Ledger) (offset : ℕ) (damaged : Option Record) : Action Unit := do
  restore offset damaged
  truncateFile .index saved.index.length
  truncateFile .payload saved.payload.length

/-- The files are brought back to a saved state, or the ledger is refused from then on. -/
def rollback (saved : Ledger) (offset : ℕ) (damaged : Option Record) (e : Failure) (st : Ledger) :
    Ledger :=
  match undo saved offset damaged st with
  | (.ok (), st) => { st with payloadEnd := saved.payloadEnd }
  | (.error _, st) => ({ st with payloadEnd := saved.payloadEnd, rollbackFailure := some e } :
    Ledger).invalidateCache

/-- The texts that were written are remembered once the descriptor is. -/
def publish (saved : Ledger) (texts : Texts Bytes) (extents : Texts StringExtent) (st : Ledger) :
    Ledger :=
  let put (text : Bytes) (extent : StringExtent) (tail : ℕ → Fin 256) :=
    if saved.payloadEnd ≤ extent.offset.toNat then rememberPayload extent.offset.toNat text tail
      else tail
  { st with
    tail := put texts.exitId extents.exitId (put texts.exitComment extents.exitComment
      (put texts.entryComment extents.entryComment (put texts.entryId extents.entryId st.tail))) }

/-- The writes of a transaction, each with what it takes to undo it. -/
def transact (saved : Ledger) (offset : ℕ) (row : Trade) (previous : Option Record) :
    Action Record := fun st =>
  match putTexts row.texts previous st with
  | (.error e, st) => (.error e, rollback saved offset none e st)
  | (.ok extents, st) =>
    let record : Record := ⟨row.figures, extents⟩
    if previous = some record then (.ok record, publish saved row.texts extents st)
    else
      match writeFile false .index offset (encode record) st with
      | (.error e, st) => (.error e, rollback saved offset previous e st)
      | (.ok (), st) => (.ok record, publish saved row.texts extents st)

/-- Store a row, or undo it. -/
def store (global : ℕ) (row : Trade) (previous : Option Record) : Action Record := do
  match (← Command.get).rollbackFailure with
  | some e => Command.throw e
  | none =>
    openFile .index
    openFile .payload
    let saved ← Command.get
    let offset ← recordOffset global
    checkExtent offset recordBytes
    reserveTexts saved offset row.texts previous
    transact saved offset row previous

/-! ## Erasing -/

/-- The bytes of one erasing write. -/
def zeroBlock : ℕ := 4096

/-- Erase bytes of the payload. -/
def eraseBytes (first stop : ℕ) : Action Unit :=
  if first < stop then do
    let count := min zeroBlock (stop - first)
    writeFile true .payload first (List.replicate count 0)
    eraseBytes (first + count) stop
  else pure ()
termination_by stop - first
decreasing_by
  unfold zeroBlock
  omega

/-- Erase them in the tail too. -/
def erasePayloadTail (offset length : ℕ) (st : Ledger) : Ledger :=
  let first := max offset (st.payloadEnd - tailBytes)
  { st with tail := putTail first (List.replicate (offset + length - first) 0) st.tail }

/-- Erase a text. -/
def erasePayload (text : StringExtent) : Action Unit :=
  Command.when (text.length.toNat ≠ 0) do
    validateString text.offset.toNat text.length.toNat
    let first ← payloadOffset text.offset.toNat
    eraseBytes first (first + text.length.toNat)
    Command.modify (erasePayloadTail text.offset.toNat text.length.toNat)

/-- The text that a replacement dropped is erased. -/
def eraseDropped (old new : Texts StringExtent) : Action Unit := do
  Command.when (old.entryId ≠ new.entryId) (erasePayload old.entryId)
  Command.when (old.entryComment ≠ new.entryComment) (erasePayload old.entryComment)
  Command.when (old.exitComment ≠ new.exitComment) (erasePayload old.exitComment)
  Command.when (old.exitId ≠ new.exitId) (erasePayload old.exitId)

/-! ## The operations -/

/-- Drop the oldest resident record. -/
def evict (st : Ledger) : Ledger :=
  { st with resident := st.resident.tail, residentFirst := st.residentFirst + 1 }

/-- A row that was stored is cached where a cache is there. -/
def rememberStored (global : ℕ) (record : Record) (row : Trade) : Action Unit := do
  if (← Command.get).cacheOpen then
    let _ ← remember global record (some row)

/-- `push_back`. -/
def pushBack (row : Trade) : Action Unit := do
  let st ← Command.get
  if st.finish = 2 ^ 64 - 1 then Command.throw .endExhausted
  else
    let record ← store st.finish row none
    Command.modify fun st => if st.resident.length = residentRows then evict st else st
    Command.modify fun st =>
      { st with resident := st.resident ++ [record], finish := st.finish + 1 }
    rememberStored st.finish record row

/-- `replace`. -/
def replace (global : ℕ) (row : Trade) : Action Unit := do
  check global true
  let previous ← descriptor global
  let record ← store global row (some previous)
  Command.modify fun st => st.invalidate global
  let st ← Command.get
  Command.when (st.policy = .retiring) (eraseDropped previous.texts record.texts)
  Command.modify fun st =>
    if st.residentFirst ≤ global then
      { st with resident := st.resident.set (global - st.residentFirst) record } else st
  Command.modify fun st =>
    if (st.materialized global).isSome then
      { st with materialized := Function.update st.materialized global (some row) }
    else st
  rememberStored global record row

/-! ## Retirement -/

/-- The bytes of one move. -/
def chunkBytes : ℕ := 1024 * 1024

/-- The bytes behind a released head move to the front, a window at a time. -/
def moveWindows (area : Area) (released offset kept : ℕ) : Action Unit :=
  if offset < kept then do
    let count := min readChunk (kept - offset)
    let window ← readFile area (released + offset) count
    writeFile false area offset window
    moveWindows area released (offset + count) kept
  else pure ()
termination_by kept - offset
decreasing_by
  unfold readChunk
  omega

/-- Cut the head of a file. -/
def releasePrefix (area : Area) (released : ℕ) : Action Unit := do
  let extent := ((← Command.get).file area).length
  if extent < released then Command.throw (.io 22)
  else
    moveWindows area released 0 (extent - released)
    truncateFile area (extent - released)

/-- Completed blocks of dead bytes are zeroed, and how far that has come is kept. -/
def zeroBlocks (area : Area) (offset limit : ℕ) : Action Unit :=
  if offset < limit then do
    let count := min zeroBlock (limit - offset)
    writeFile false area offset (List.replicate count 0)
    Command.modify fun st =>
      match area with
      | .index => { st with indexZeroed := offset + count }
      | .payload => { st with payloadZeroed := offset + count }
    zeroBlocks area (offset + count) limit
  else pure ()
termination_by limit - offset
decreasing_by
  unfold zeroBlock
  omega

/-- The first stored byte. -/
def Ledger.origin (st : Ledger) : Area → ℕ
  | .index => st.indexOrigin
  | .payload => st.payloadOrigin

/-- The bytes already zeroed. -/
def Ledger.zeroed (st : Ledger) : Area → ℕ
  | .index => st.indexZeroed
  | .payload => st.payloadZeroed

/-- The ledger with another origin. -/
def Ledger.rebase (st : Ledger) (origin zeroed : ℕ) : Area → Ledger
  | .index => { st with indexOrigin := origin, indexZeroed := zeroed }
  | .payload => { st with payloadOrigin := origin, payloadZeroed := zeroed }

/-- What lies before a position is released by whole chunks and zeroed by whole blocks. -/
def releaseHead (area : Area) (newEnd : ℕ) (empty : Bool) : Action Unit := do
  let st ← Command.get
  if newEnd = st.origin area ∧ empty = false then pure ()
  else if empty then
    Command.when (st.opened area) (truncateFile area 0)
    Command.modify fun st => st.rebase newEnd 0 area
  else
    let released := (newEnd - st.origin area) / chunkBytes * chunkBytes
    Command.when (released ≠ 0) do
      releasePrefix area released
      Command.modify fun st => st.rebase (st.origin area + released)
        (st.zeroed area - released) area
    let st ← Command.get
    let dead := newEnd - st.origin area
    zeroBlocks area (st.zeroed area) (dead - dead % zeroBlock)

/-- The first text that a row of a range holds. -/
def firstText : List ℕ → ℕ → Action ℕ
  | [], least => pure least
  | global :: rows, least => do
    let row ← descriptor global
    firstText rows ((row.texts.toList.filter (·.length.toNat ≠ 0)).foldl
      (fun least text => min least text.offset.toNat) least)

/-- Retired text after the first that stays is erased on its own. -/
def eraseRetired (textFirst : ℕ) : List StringExtent → Action Unit
  | [] => pure ()
  | text :: texts => do
    Command.when (text.length.toNat ≠ 0) do
      validateString text.offset.toNat text.length.toNat
      let first := max text.offset.toNat textFirst
      let stop := text.offset.toNat + text.length.toNat
      Command.when (first < stop) do
        let offset ← payloadOffset first
        eraseBytes offset (offset + (stop - first))
      Command.modify (erasePayloadTail text.offset.toNat text.length.toNat)
    eraseRetired textFirst texts

/-- Erase the texts of rows. -/
def eraseRows (textFirst : ℕ) : List ℕ → Action Unit
  | [] => pure ()
  | global :: rows => do
    let row ← descriptor global
    eraseRetired textFirst row.texts.toList
    eraseRows textFirst rows

/-- Retire the rows before one. -/
def retire (globalEnd : ℕ) : Action Unit := do
  let st ← Command.get
  if st.policy ≠ .retiring ∨ globalEnd = st.first then pure ()
  else
    let textFirst ← firstText (List.range' globalEnd (st.finish - globalEnd)) st.payloadEnd
    eraseRows textFirst (List.range' st.first (globalEnd - st.first))
    releaseHead .index (recordBytes * globalEnd) (globalEnd == st.finish)
    releaseHead .payload textFirst (textFirst == st.payloadEnd)
    Command.modify fun st =>
      { st.invalidateCache with
        payloadRetired := textFirst
        materialized := fun global => if global < globalEnd then none else st.materialized global }

/-- Rows are published: they leave the window, and are retired where the policy says so. -/
def sealRows (globalEnd : ℕ) : Action Unit := do
  let st ← Command.get
  match st.rollbackFailure with
  | some e => Command.throw e
  | none =>
    if globalEnd < st.first ∨ st.finish < globalEnd then Command.throw .sealOutside
    else
      retire globalEnd
      Command.modify fun st =>
        { st with
          first := globalEnd
          resident := st.resident.drop (globalEnd - st.residentFirst)
          residentFirst := st.residentFirst + min st.resident.length
            (globalEnd - st.residentFirst) }

/-- A row of a ledger that was made longer. -/
def emptyTrade : Trade :=
  ⟨{ (default : Figures) with entryBarIndex := 0xFFFFFFFF, exitBarIndex := 0xFFFFFFFF },
    ⟨[], [], [], []⟩⟩

/-- Append empty rows. -/
def appendEmpty : ℕ → Action Unit
  | 0 => pure ()
  | n + 1 => do
    pushBack emptyTrade
    appendEmpty n

/-- `resize`. -/
def resize (globalEnd : ℕ) : Action Unit := do
  let st ← Command.get
  match st.rollbackFailure with
  | some e => Command.throw e
  | none =>
    if globalEnd < st.first then Command.throw .rewindBelow
    else
      Command.modify Ledger.invalidateCache
      if globalEnd < st.finish then
        Command.modify fun st =>
          { st with
            resident := []
            finish := globalEnd
            residentFirst := globalEnd
            materialized := fun global => if global < globalEnd then
              st.materialized global else none }
      else
        appendEmpty (globalEnd - st.finish)
        Command.modify Ledger.invalidateCache

end PineForge.Trades
