import Mathlib
import PineForge.Machine.ByteFile
import PineForge.Machine.Command
import PineForge.Trades.Records

/-!
# The files of a trade ledger

The descriptors of the rows are at fixed places of the index file, and the texts in the payload
file, whose last bytes are also kept in memory. Any operation on a file may fail: the outcomes of
the coming ones are part of the state, those of the writes that erase text apart from the others. A
write that fails leaves something of its range written, a short one a beginning of its bytes.
-/

namespace PineForge.Trades

open BigEndian ByteFile

/-- What a call throws. -/
inductive Failure where
  /-- A file operation failed with this code. -/
  | io (errno : ℕ)
  /-- A read went past the end of the file. -/
  | shortRead
  /-- An offset is beyond the largest one. -/
  | offset
  /-- The supplied history file is full. -/
  | capacity
  | stringExtent
  | retiredRead
  | outsideWindow
  | endExhausted
  | sealOutside
  | rewindBelow
deriving DecidableEq, Repr

/-- What a file operation does. -/
inductive Outcome where
  | ok
  | fails (errno : ℕ) (left : Bytes)
deriving DecidableEq

/-- The outcomes of the file operations to come; all beyond them succeed. -/
structure Faults where
  calls : List Outcome
  erasures : List Outcome
deriving DecidableEq

/-- A row in the read cache, with its texts packed where they fit. -/
structure CacheEntry where
  global : ℕ
  record : Record
  strings : Option Bytes

/-- The most resident records. -/
def residentRows : ℕ := 64

/-- The bytes of the payload's end that are kept in memory. -/
def tailBytes : ℕ := residentRows * recordBytes

/-- Whether sealed rows stay readable, in a history file of a given size if one was supplied, or are
retired. -/
inductive Policy where
  | retaining (extent : Option ℕ)
  | retiring
deriving DecidableEq

/-- The bytes a policy allows. -/
def Policy.extent : Policy → Option ℕ
  | .retaining extent => extent
  | .retiring => none

/-- What a transaction changes only once it is through. -/
structure Core where
  resident : List Record
  first : ℕ
  finish : ℕ
  residentFirst : ℕ
  indexOrigin : ℕ
  payloadOrigin : ℕ
  payloadRetired : ℕ
  indexZeroed : ℕ
  payloadZeroed : ℕ
  policy : Policy
  rollbackFailure : Option Failure
  tail : ℕ → Fin 256
  materialized : ℕ → Option Trade
  cacheRows : ℕ
  cacheOpen : Bool
  entries : ℕ → Option CacheEntry

/-- The ledger and its files. -/
structure Ledger extends Core where
  index : Bytes
  payload : Bytes
  indexOpened : Bool
  payloadOpened : Bool
  payloadEnd : ℕ
  ranks : ℕ → ℕ
  io : Faults

/-- A call on the ledger. -/
abbrev Action := Command Ledger Failure

/-- The files. -/
inductive Area where
  | index
  | payload
deriving DecidableEq

/-- The bytes of a file. -/
def Ledger.file (st : Ledger) : Area → Bytes
  | .index => st.index
  | .payload => st.payload

/-- The ledger with another file. -/
def Ledger.setFile (st : Ledger) : Area → Bytes → Ledger
  | .index, bytes => { st with index := bytes }
  | .payload, bytes => { st with payload := bytes }

/-! ## File operations -/

/-- How the next operation turns out. -/
def outcome (erasing : Bool) : Action Outcome := fun st =>
  if erasing then
    match st.io.erasures with
    | [] => (.ok .ok, st)
    | o :: rest => (.ok o, { st with io := { st.io with erasures := rest } })
  else
    match st.io.calls with
    | [] => (.ok .ok, st)
    | o :: rest => (.ok o, { st with io := { st.io with calls := rest } })

/-- The largest `off_t`. -/
def maxOffset : ℕ := 2 ^ 63 - 1

/-- The bytes fit an `off_t`. -/
def checkExtent (offset length : ℕ) : Action Unit :=
  if maxOffset < offset + length then Command.throw .offset else pure ()

/-- Read bytes of a file. -/
def readFile (area : Area) (offset length : ℕ) : Action Bytes := do
  checkExtent offset length
  match ← outcome false with
  | .fails errno _ => Command.throw (.io errno)
  | .ok =>
    match readAt ((← Command.get).file area) offset length with
    | none => Command.throw .shortRead
    | some bytes => pure bytes

/-- A supplied history file holds both areas. -/
def Ledger.overfull (st : Ledger) (indexBytes payloadBytes : ℕ) : Bool :=
  st.policy.extent.any (· < indexBytes + payloadBytes)

/-- Whether a file of a size is too much. -/
def Ledger.overfullBy (st : Ledger) : Area → ℕ → Bool
  | .index, size => st.overfull (max st.index.length size) st.payload.length
  | .payload, size => st.overfull st.index.length (max st.payload.length size)

/-- The files fit the extent. -/
def reserve (indexBytes payloadBytes : ℕ) : Action Unit := do
  if (← Command.get).overfull indexBytes payloadBytes then Command.throw .capacity

/-- A write fits the extent. -/
def reserveWrite (area : Area) (size : ℕ) : Action Unit := do
  if (← Command.get).overfullBy area size then Command.throw .capacity

/-- Write bytes of a file. -/
def writeFile (erasing : Bool) (area : Area) (offset : ℕ) (data : Bytes) : Action Unit := do
  checkExtent offset data.length
  reserveWrite area (offset + data.length)
  match ← outcome erasing with
  | .fails errno left =>
    Command.modify fun st => st.setFile area (writeAt (st.file area) offset (left.take data.length))
    Command.throw (.io errno)
  | .ok => Command.modify fun st => st.setFile area (writeAt (st.file area) offset data)

/-- Cut or grow a file. -/
def truncateFile (area : Area) (size : ℕ) : Action Unit := do
  checkExtent size 0
  match ← outcome false with
  | .fails errno _ => Command.throw (.io errno)
  | .ok => Command.modify fun st => st.setFile area (truncateTo (st.file area) size)

/-- Whether a file is open. -/
def Ledger.opened (st : Ledger) : Area → Bool
  | .index => st.indexOpened
  | .payload => st.payloadOpened

/-- The ledger with a file open. -/
def Ledger.setOpened (st : Ledger) : Area → Ledger
  | .index => { st with indexOpened := true }
  | .payload => { st with payloadOpened := true }

/-- Open a file once. -/
def openFile (area : Area) : Action Unit := do
  if (← Command.get).opened area then pure ()
  else
    match ← outcome false with
    | .fails errno _ => Command.throw (.io errno)
    | .ok => Command.modify fun st => st.setOpened area

/-! ## Places in the files -/

/-- Where a descriptor is in the index file. Below its origin the unsigned difference is over the
largest offset. -/
def recordOffset (global : ℕ) : Action ℕ := do
  let st ← Command.get
  if (2 ^ 64 - 1) / recordBytes < global ∨ recordBytes * global < st.indexOrigin then
    Command.throw .offset
  else pure (recordBytes * global - st.indexOrigin)

/-- Where a payload byte is stored. -/
def payloadOffset (offset : ℕ) : Action ℕ := do
  let st ← Command.get
  if offset < st.payloadOrigin then Command.throw .offset else pure (offset - st.payloadOrigin)

/-! ## Texts -/

/-- Bytes into the ring of the payload's end. -/
def putTail (offset : ℕ) (data : Bytes) (tail : ℕ → Fin 256) (slot : ℕ) : Fin 256 :=
  (data[(slot + tailBytes - offset % tailBytes) % tailBytes]?).getD (tail slot)

/-- Bytes of the tail. -/
def getTail (tail : ℕ → Fin 256) (offset length : ℕ) : Bytes :=
  (List.range length).map fun i => tail ((offset + i) % tailBytes)

/-- The tail with a text's last bytes. -/
def rememberPayload (offset : ℕ) (text : Bytes) (tail : ℕ → Fin 256) : ℕ → Fin 256 :=
  putTail (offset + (text.length - tailBytes)) (text.drop (text.length - tailBytes)) tail

/-- A text is stored and not retired. -/
def validateString (offset length : ℕ) : Action Unit := do
  let st ← Command.get
  if st.payloadEnd < offset ∨ st.payloadEnd - offset < length ∨
    (length ≠ 0 ∧ offset < st.payloadRetired) then
    Command.throw .stringExtent

/-- Read a text, from the tail if it is there. -/
def readString (offset length : ℕ) : Action Bytes := do
  validateString offset length
  let st ← Command.get
  if length = 0 then pure []
  else if st.payloadEnd - offset ≤ tailBytes then pure (getTail st.tail offset length)
  else readFile .payload (← payloadOffset offset) length

/-- Read the text of an extent. -/
def getString (text : StringExtent) : Action Bytes := readString text.offset.toNat text.length.toNat

/-- The four texts of a row. -/
def getTexts (texts : Texts StringExtent) : Action (Texts Bytes) := do
  let entryId ← getString texts.entryId
  let entryComment ← getString texts.entryComment
  let exitComment ← getString texts.exitComment
  let exitId ← getString texts.exitId
  pure ⟨entryId, entryComment, exitComment, exitId⟩

/-- The bytes of one compared chunk. -/
def readChunk : ℕ := 64 * 1024

/-- A window of a stored text. -/
def readWindow (text : StringExtent) (offset count : ℕ) : Action Bytes := do
  if (← Command.get).payloadEnd - text.offset.toNat ≤ tailBytes then
    readString (text.offset.toNat + offset) count
  else readFile .payload (← payloadOffset (text.offset.toNat + offset)) count

/-- The comparison of a stored text, a window at a time. A mismatch does not stop the reads. -/
def equalsFrom (text : StringExtent) (rhs : Bytes) (offset : ℕ) (equal : Bool) : Action Bool :=
  if offset < text.length.toNat then do
    let count := min readChunk (text.length.toNat - offset)
    let chunk ← readWindow text offset count
    equalsFrom text rhs (offset + count) (equal && chunk == (rhs.drop offset).take count)
  else pure equal
termination_by text.length.toNat - offset
decreasing_by
  unfold readChunk
  omega

/-- Compare a text chunk by chunk. -/
def stringEqualsChunks (text : StringExtent) (rhs : Bytes) : Action Bool := do
  validateString text.offset.toNat text.length.toNat
  equalsFrom text rhs 0 (text.length.toNat == rhs.length)

/-- The extent of a text. -/
def extentAt (offset : ℕ) (text : Bytes) : StringExtent :=
  ⟨UInt64.ofNat offset, UInt64.ofNat text.length⟩

/-- Bytes behind the payload's end. -/
def appendPayload (data : Bytes) : Action Unit := do
  let st ← Command.get
  writeFile false .payload (← payloadOffset st.payloadEnd) data

/-- Append a text. -/
def putString (text : Bytes) : Action StringExtent := do
  let st ← Command.get
  checkExtent st.payloadEnd text.length
  Command.when (text ≠ []) (appendPayload text)
  Command.modify fun st => { st with payloadEnd := st.payloadEnd + text.length }
  pure (extentAt st.payloadEnd text)

/-- Keep a text that is the same, else append. -/
def reuseString (text : Bytes) (old : StringExtent) : Action StringExtent := do
  if text.length = old.length.toNat then
    if ← stringEqualsChunks old text then pure old else putString text
  else putString text

/-- Several short texts of a new row go out in one write. -/
def putAppendStrings (texts : Texts Bytes) : Action (Option (Texts StringExtent)) := do
  let all := texts.toList.flatten
  if tailBytes < all.length ∨ (texts.toList.filter (· ≠ [])).length ≤ 1 then pure none
  else
    let st ← Command.get
    let entryComment := st.payloadEnd + texts.entryId.length
    let exitComment := entryComment + texts.entryComment.length
    let exitId := exitComment + texts.exitComment.length
    checkExtent st.payloadEnd texts.entryId.length
    checkExtent entryComment texts.entryComment.length
    checkExtent exitComment texts.exitComment.length
    checkExtent exitId texts.exitId.length
    appendPayload all
    Command.modify fun st => { st with payloadEnd := st.payloadEnd + all.length }
    pure (some ⟨extentAt st.payloadEnd texts.entryId, extentAt entryComment texts.entryComment,
      extentAt exitComment texts.exitComment, extentAt exitId texts.exitId⟩)

/-- The texts of a row into the payload file; a replacement keeps the texts that are equal. -/
def putTexts (texts : Texts Bytes) : Option Record → Action (Texts StringExtent)
  | none => do
    match ← putAppendStrings texts with
    | some extents => pure extents
    | none =>
      pure ⟨← putString texts.entryId, ← putString texts.entryComment,
        ← putString texts.exitComment,
        ← putString texts.exitId⟩
  | some previous => do
    pure ⟨← reuseString texts.entryId previous.texts.entryId,
      ← reuseString texts.entryComment previous.texts.entryComment,
      ← reuseString texts.exitComment previous.texts.exitComment,
      ← reuseString texts.exitId previous.texts.exitId⟩

end PineForge.Trades
