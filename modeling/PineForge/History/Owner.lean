import Mathlib
import PineForge.Machine.Endian
import PineForge.Machine.Command
import PineForge.Machine.Window

/-!
# The owner of an issued-range history

`native_issued_range_state.hpp`: an append-only log of records in one extent of fixed size, each a
header page, the payload in whole pages and a witness page. The committed records are dense by their
logical offsets. A record is staged as a candidate, accepted as the pending record, and published;
while a record is pending the next candidate is put beside it, so a published record may stand away
from its logical place until the next preparation copies it there.

Any system call may fail: the outcomes of the coming ones are part of the state. A write that fails
leaves a beginning of its bytes.
-/

namespace PineForge.History

open Window LittleEndian

/-- Bytes of the history. -/
abbrev Bytes := List (Fin 256)

/-- The bytes of a page. -/
@[irreducible] def pageBytes : ℕ := 512

/-- The largest `uint64_t`. -/
def wordMax : ℕ := 2 ^ 64 - 1

/-- The kinds of records. -/
inductive RecordKind where
  | issued
  | cohortOpen
  | cohortReceipt
deriving DecidableEq, Repr

/-- The code of a kind. -/
def RecordKind.code : RecordKind → ℕ
  | .issued => 1
  | .cohortOpen => 2
  | .cohortReceipt => 3

/-- The kind of a code between one and three. -/
def RecordKind.ofCode : ℕ → RecordKind
  | 1 => .issued
  | 2 => .cohortOpen
  | _ => .cohortReceipt

/-- What a call throws. -/
inductive Failure where
  | io (errno : ℕ) (operation : String)
  /-- `verify_geometry` refused the capability. -/
  | geometry
  | overflow
  | recursivePreparation
  /-- The source's own failure, or an I/O error in its place. -/
  | source
deriving DecidableEq, Repr

/-- How a call ends that does not return. -/
inductive Stop where
  | thrown (failure : Failure)
  | terminate
deriving DecidableEq, Repr

/-- What a system call does. -/
inductive Outcome where
  | ok
  | fails (errno : ℕ) (left : ℕ)
deriving DecidableEq, Repr

/-- `ENOSPC`. -/
def enospc : ℕ := 28

/-- `EIO`. -/
def eio : ℕ := 5

/-- The guard of a staged record. -/
structure Candidate where
  start : ℕ
  finish : ℕ
  logicalEnd : ℕ
  span : ℕ
  kind : RecordKind
deriving DecidableEq, Repr

/-- A record's payload as a visitor reads it: where it begins in the log, and its size. -/
structure RecordSource where
  offset : ℕ
  size : ℕ
deriving DecidableEq, Repr

/-- The owner of the history file. -/
structure Owner where
  file : ℕ → Fin 256
  extentBytes : ℕ
  ownerId : ℕ
  committedBytes : ℕ := 0
  committedRecords : ℕ := 0
  pendingBytes : ℕ := 0
  candidateBytes : ℕ := 0
  relocationBytes : ℕ := 0
  demandHighWaterBytes : ℕ := 0
  ioHighWaterBytes : ℕ := 0
  pendingStart : ℕ := 0
  pendingEnd : ℕ := 0
  pendingLogicalEnd : ℕ := 0
  relocationLogical : ℕ := 0
  relocationStart : ℕ := 0
  pendingKind : RecordKind := .issued
  pending : Bool := false
  staging : Bool := false
  relocated : Bool := false
  /-- The one guard that holds the owner. -/
  candidate : Option Candidate := none
  /-- What the current visit has handed to its visitor. -/
  visited : List (RecordKind × RecordSource) := []
  /-- The outcomes of the system calls to come; all beyond them succeed. -/
  io : List Outcome := []

/-- A call on the owner. -/
abbrev Action := Command Owner Stop

/-- Throw a failure. -/
def fail {β : Type} (failure : Failure) : Action β := Command.throw (.thrown failure)

/-- Terminate where a check holds. -/
def terminateIf (c : Prop) [Decidable c] : Action Unit :=
  if c then Command.throw .terminate else pure ()

/-- Throw where a check holds. -/
def failIf (c : Prop) [Decidable c] (failure : Failure) : Action Unit :=
  if c then fail failure else pure ()

/-! ## Arithmetic -/

/-- A sum that does not overflow. -/
def historyAdd (a b : ℕ) : Action ℕ := if b > wordMax - a then fail .overflow else pure (a + b)

/-- Bytes in whole units. -/
def historyRound (bytes unit : ℕ) : Action ℕ :=
  if bytes % unit ≠ 0 then historyAdd bytes (unit - bytes % unit) else pure bytes

/-- FNV-1a over some bytes. -/
def digestBytes (digest : ℕ) (bytes : Bytes) : ℕ :=
  bytes.foldl (fun d b => (d ^^^ b.val) * 1099511628211 % 2 ^ 64) digest

/-- The basis of FNV-1a. -/
def digestSeed : ℕ := 14695981039346656037

/-! ## System calls -/

/-- The next outcome. -/
def outcome : Action Outcome := fun st =>
  match st.io with
  | [] => (.ok .ok, st)
  | o :: rest => (.ok o, { st with io := rest })

/-- The capability still has its geometry. -/
def verifyGeometry : Action Unit := do
  match ← outcome with
  | .ok => pure ()
  | .fails _ _ => fail .geometry

/-- Read bytes of the capability. -/
def readPhysical (offset length : ℕ) : Action Bytes := do
  verifyGeometry
  failIf ((← Command.get).extentBytes < offset + length)
    (.io eio "native history read outside capability")
  match ← outcome with
  | .fails errno _ => fail (.io errno "native history pread")
  | .ok => pure (window (← Command.get).file offset length)

/-- The end of a range that a write may have touched. -/
def noteRange (finish : ℕ) : Action Unit :=
  Command.modify fun st => { st with ioHighWaterBytes := max st.ioHighWaterBytes finish }

/-- Store bytes of the file. -/
def store (offset : ℕ) (data : Bytes) : Action Unit :=
  Command.modify fun st => { st with file := put st.file offset data }

/-- Write bytes of the capability. -/
def write (offset : ℕ) (data : Bytes) : Action Unit := do
  verifyGeometry
  failIf ((← Command.get).extentBytes < offset + data.length)
    (.io enospc "native history write outside capability")
  noteRange (offset + data.length)
  match ← outcome with
  | .fails errno left => do
    store offset (data.take left)
    fail (.io errno "native history pwrite")
  | .ok => store offset data

/-! ## Records -/

/-- The magic of a header. -/
def magic : ℕ := 0x3154534948464e50

/-- A page, filled with zeroes. -/
def pageOf (bytes : Bytes) : Bytes := bytes ++ List.replicate (pageBytes - bytes.length) 0

/-- The words of a header, and the last word of a witness in the place of its zero. -/
def headerBytes (ownerId : ℕ) (kind : RecordKind) (size pages sequence start last : ℕ) : Bytes :=
  [magic, kind.code, size, pages, sequence, start, ownerId, last].flatMap (bytes 8)

/-! ## Preparation -/

/-- The pages of the displaced record, one after the other. -/
def copyPages (source destination : ℕ) : ℕ → Action Unit
  | 0 => pure ()
  | pages + 1 => do
    write destination (← readPhysical source pageBytes)
    copyPages (source + pageBytes) (destination + pageBytes) pages

/-- Move a displaced record behind the history. -/
def compactRelocation : Action Unit := do
  let st ← Command.get
  if st.relocated then do
    terminateIf st.pending
    terminateIf (st.relocationStart < st.committedBytes)
    copyPages st.relocationStart st.relocationLogical (st.relocationBytes / pageBytes)
    Command.modify fun st => { st with relocated := false, relocationBytes := 0 }
  else pure ()

/-- The bytes a record is made from, and the reads of them that fail. -/
structure ByteSource where
  bytes : Bytes
  fails : ℕ → Bool

/-- The pages of a payload from a position on, and the digest over them. -/
def writePayload (source : ByteSource) (start : ℕ) : ℕ → ℕ → ℕ → Action ℕ
  | 0, _, digest => pure digest
  | pages + 1, position, digest => do
    failIf (source.fails position) .source
    let chunk := (source.bytes.drop position).take pageBytes
    write (start + pageBytes + position) (pageOf chunk)
    writePayload source start pages (position + pageBytes) (digestBytes digest chunk)

/-- The header page, the payload and the witness page, which has the digest in the header's last
word. -/
def writeRecord (header : ℕ → Bytes) (source : ByteSource) (start finish pages : ℕ) : Action Unit :=
  do
  write start (pageOf (header 0))
  let digest ← writePayload source start pages 0 digestSeed
  write (finish - pageBytes) (pageOf (header digest))

/-- Where a record of a span is put. -/
def candidateStart (st : Owner) (logicalEnd span : ℕ) : ℕ :=
  if st.pending ∧ span > st.pendingStart - st.committedBytes then max st.pendingEnd logicalEnd
  else st.committedBytes

/-- Count a candidate's demand. -/
def noteDemand (finish span : ℕ) : Action Unit :=
  Command.modify fun st => { st with
    demandHighWaterBytes := max st.demandHighWaterBytes finish
    candidateBytes := span }

/-- The record of a source, written behind the committed ones and beside the pending one. -/
def writeCandidate (kind : RecordKind) (source : ByteSource) : Action Candidate := do
  let size := source.bytes.length
  let payload ← historyRound size pageBytes
  let span ← historyAdd payload (2 * pageBytes)
  let logicalStart := (← Command.get).committedBytes
  let logicalEnd ← historyAdd logicalStart span
  let st ← Command.get
  terminateIf (st.pending ∧ st.pendingStart < logicalStart)
  let start := candidateStart st logicalEnd span
  let finish ← historyAdd start span
  let sequence ← historyAdd st.committedRecords 1
  noteDemand finish span
  failIf (st.extentBytes < finish) (.io enospc "native history extent exhausted")
  verifyGeometry
  writeRecord (headerBytes st.ownerId kind size (payload / pageBytes) sequence logicalStart)
    source start finish
    (payload / pageBytes)
  pure ⟨start, finish, logicalEnd, span, kind⟩

/-- `~Candidate` and `discard`: the guard lets go of the owner. -/
def Owner.release (st : Owner) : Owner :=
  { st with candidateBytes := 0, staging := false, candidate := none }

/-- A command whose guard is discarded where it throws. -/
def guarded (m : Action Candidate) : Action Unit := fun st =>
  match m st with
  | (.ok c, st) => (.ok (), { st with candidate := some c })
  | (.error (.thrown failure), st) => (.error (.thrown failure), st.release)
  | (.error .terminate, st) => (.error .terminate, st)

/-- Compact, then write the candidate. -/
def prepare (kind : RecordKind) (source : ByteSource) : Action Candidate := do
  compactRelocation
  writeCandidate kind source

/-- Stage a record of a source. -/
def stage (kind : RecordKind) (source : ByteSource) : Action Unit := do
  failIf (← Command.get).staging .recursivePreparation
  Command.modify fun st => { st with staging := true }
  guarded (prepare kind source)

/-! ## Publication -/

/-- `accept` of the guard that is held; one that was let go terminates. -/
def accept : Action Unit := do
  match (← Command.get).candidate with
  | none => Command.throw .terminate
  | some c => Command.modify fun st => Owner.release { st with
      pendingStart := c.start
      pendingEnd := c.finish
      pendingLogicalEnd := c.logicalEnd
      pendingKind := c.kind
      pending := true
      pendingBytes := c.span }

/-- The destructor of the guard that is held. -/
def discard : Action Unit := do
  match (← Command.get).candidate with
  | none => pure ()
  | some _ => Command.modify Owner.release

/-- Publish the pending record. -/
def publish (kind : RecordKind) : Action Unit := do
  let st ← Command.get
  terminateIf (st.pending = false ∨ st.pendingKind ≠ kind ∨ st.staging ∨ st.relocated)
  let relocated := decide (st.pendingStart ≠ st.committedBytes)
  Command.modify fun st => { st with
    relocationLogical := st.committedBytes
    relocationStart := st.pendingStart
    relocated := relocated
    relocationBytes := if relocated then st.pendingBytes else 0
    committedBytes := st.pendingLogicalEnd
    committedRecords := st.committedRecords + 1
    pending := false
    pendingBytes := 0 }

/-- Give up the pending record. -/
def abandon : Action Unit := do
  terminateIf (← Command.get).staging
  Command.modify fun st => { st with pending := false, pendingBytes := 0 }

/-! ## Visits -/

/-- A read by logical offset, in parts where it goes over into the displaced record. -/
def readParts (offset length : ℕ) : Action Bytes := do
  if length = 0 then pure []
  else
    let st ← Command.get
    if _h : st.relocated ∧ offset < st.relocationLogical then
      let n := min length (st.relocationLogical - offset)
      let head ← readPhysical offset n
      let rest ← readParts (offset + n) (length - n)
      pure (head ++ rest)
    else if st.relocated then
      readPhysical (st.relocationStart + (offset - st.relocationLogical)) length
    else readPhysical offset length
termination_by length
decreasing_by omega

/-- Read committed bytes. -/
def read (offset length : ℕ) : Action Bytes := do
  verifyGeometry
  let st ← Command.get
  failIf (st.committedBytes < offset + length)
    (.io eio "native history read outside committed history")
  readParts offset length

/-- A word of a header. -/
def headerWord (header : Bytes) (index : ℕ) : ℕ := word ((header.drop (8 * index)).take 8)

/-- The digest of a payload, read a page at a time. -/
def readDigest (offset size : ℕ) : ℕ → ℕ → ℕ → Action ℕ
  | 0, _, digest => pure digest
  | pages + 1, position, digest => do
    let chunk ← read (offset + position) (min pageBytes (size - position))
    readDigest offset size pages (position + pageBytes) (digestBytes digest chunk)

/-- A record that is read whole and checked: its kind, its payload and the record after it. -/
def checkRecord (finish offset sequence : ℕ) : Action (RecordKind × RecordSource × ℕ) := do
  let header ← read offset 64
  let size := headerWord header 2
  let pages := headerWord header 3
  let kind := headerWord header 1
  let rounded ← historyRound size pageBytes
  failIf (headerWord header 0 ≠ magic ∨ pages ≠ rounded / pageBytes ∨ headerWord header 4 ≠ sequence
      ∨ headerWord header 5 ≠ offset ∨ headerWord header 6 ≠ (← Command.get).ownerId
      ∨ headerWord header 7 ≠ 0 ∨ kind < 1 ∨ kind > 3)
    (.io eio "native history header corrupt")
  let next ← historyAdd offset (← historyAdd rounded (2 * pageBytes))
  failIf (next > finish) (.io eio "native history prefix corrupt")
  let digest ← readDigest (offset + pageBytes) size (rounded / pageBytes) 0 digestSeed
  let witness ← read (next - pageBytes) 64
  failIf (header.take 56 ≠ witness.take 56 ∨ headerWord witness 7 ≠ digest)
    (.io eio "native history witness corrupt")
  pure (RecordKind.ofCode kind, ⟨offset + pageBytes, size⟩, next)

/-- The records of a prefix; `visit` is what the visitor answers for a record. -/
def visitFrom (visit : ℕ → Bool) (finish : ℕ) : ℕ → ℕ → ℕ → Action Unit
  | 0, _, offset => failIf (offset ≠ finish) (.io eio "native history end corrupt")
  | count + 1, index, offset => do
    let (kind, source, next) ← checkRecord finish offset (index + 1)
    Command.modify fun st => { st with visited := st.visited ++ [(kind, source)] }
    if visit index then visitFrom visit finish count (index + 1) next else pure ()

/-- Visit the committed records. -/
def visitRecords (visit : ℕ → Bool) : Action Unit := do
  Command.modify fun st => { st with visited := [] }
  let st ← Command.get
  visitFrom visit st.committedBytes st.committedRecords 0 0

/-- `RecordSource::read`. -/
def RecordSource.read (source : RecordSource) (offset length : ℕ) : Action Bytes := do
  failIf (source.size < offset + length) .source
  History.read (source.offset + offset) length

/-! ## Calls -/

/-- The calls on an owner. -/
inductive Call where
  | stage (kind : RecordKind) (source : ByteSource)
  | accept
  | discard
  | publish (kind : RecordKind)
  | abandon
  | visit (visit : ℕ → Bool)

/-- What a call runs. -/
def call : Call → Action Unit
  | .stage kind source => stage kind source
  | .accept => accept
  | .discard => discard
  | .publish kind => publish kind
  | .abandon => abandon
  | .visit visit => visitRecords visit

end PineForge.History
