import PineForge.Runner.Stale
import PineForge.Runner.Document

/-!
# The ledger of report rows

`store.cpp`: a committed input carries a report row, whose digest covers the input, its events, the
row and the digest before it. A document is the fold of the rows. At some cursors the ledger also
keeps a checkpoint, the printed document of the rows so far; a read may start from one.

SHA-256, the number reading of `stod` and the equity statistics are parameters. Whether SQLite takes
a transaction is the storage's choice, and a transaction it does not take changes nothing.
-/

namespace PineForge.Runner

open Json

/-! ## Rows -/

/-- An event of an input. -/
structure EventRow where
  ordinal : ℕ
  id : Bytes
  payload : Bytes
  target : Option Bytes
  deliveryId : Bytes
deriving DecidableEq, Repr

/-- A stored input. -/
structure InputRow where
  canonicalJson : Bytes
  stateHash : Bytes
  events : List EventRow
deriving DecidableEq, Repr

/-- A stored checkpoint. -/
structure CheckpointRow where
  cursor : ℕ
  integrityDigest : Bytes
  previousIntegrityDigest : Bytes
  payloadHash : Bytes
  payload : Bytes
deriving DecidableEq, Repr

/-- The tables of a ledger; the rows of reports, digests and checkpoints are keyed by input
cursor. -/
structure Ledger where
  identity : Bytes
  inputs : List InputRow := []
  snapshots : List (ℕ × Bytes) := []
  integrity : List (ℕ × Bytes) := []
  checkpoints : List (ℕ × CheckpointRow) := []
  checkpointInterval : ℕ
deriving DecidableEq, Repr

/-- Why a checkpoint is refused. -/
inductive CheckpointFailureCode
  | invalidPayload
  | payloadHashMismatch
  | missingIntegrity
  | previousHashMismatch
  | integrityMismatch
deriving DecidableEq, Repr

/-- What a read throws. -/
inductive ReadFailure
  | runtime (text : Error)
  | checkpoint (code : CheckpointFailureCode) (cursor : ℕ) (text : Error)
deriving DecidableEq, Repr

/-- A step that throws no checkpoint failure. -/
def thrown {β : Type} (x : Except Error β) : Except ReadFailure β := x.mapError ReadFailure.runtime

/-- What a failed statement throws. -/
def databaseError : Error := ascii "native ledger database operation failed"

/-- The largest integer of SQLite. -/
def sqliteMax : ℕ := 2 ^ 63 - 1

/-- `bind` of an unsigned integer. -/
def bindInteger (n : ℕ) : Except Error Unit :=
  refuseIf (n > sqliteMax) "native ledger ordinal exceeds SQLite range"

/-- The most bytes of a record. -/
def maxRecordBytes : ℕ := 1024 * 1024

/-- A record is neither empty nor too large. -/
def validateBytes (bytes : Bytes) (label : String) : Except Error Unit :=
  if bytes = [] ∨ bytes.length > maxRecordBytes then
    .error (ascii "native ledger invalid " ++ ascii label ++ ascii " size")
  else .ok ()

/-! ## Digests -/

section

variable (sha256 : Bytes → Bytes)

/-- One event in what a digest covers. -/
def eventMaterial (position : ℕ) (e : EventRow) : Json :=
  object (Assoc.ofFields [(ascii "ordinal", number (decimal e.ordinal)),
    (ascii "position", number (decimal position)), (ascii "event_id", string e.id),
    (ascii "payload", string e.payload),
    (ascii "target", match e.target with
      | none => null
      | some target => string target),
    (ascii "delivery_id", string e.deliveryId)])

/-- The digest of a row, from the one before. -/
def reportIntegrity (l : Ledger) (cursor : ℕ) (payload previousHash : Bytes) : Except Error Bytes :=
  let material := Assoc.ofFields
    [(ascii "schema_version", string (ascii "pineforge-ledger-report-integrity/v1")),
     (ascii "deployment", string l.identity), (ascii "cursor", number (decimal cursor)),
     (ascii "previous_hash", string previousHash), (ascii "report", string payload)]
  match cursor with
  | 0 => .ok (sha256 (object material).dump)
  | index + 1 =>
    match l.inputs[index]? with
    | none => .error (ascii "native ledger report integrity mismatch")
    | some input =>
      let material := Assoc.put (ascii "input") (string input.canonicalJson) material
      let material := Assoc.put (ascii "state_hash") (string input.stateHash) material
      let material := Assoc.put (ascii "actions")
        (array (input.events.mapIdx eventMaterial)) material
      .ok (sha256 (object material).dump)

/-- The stored digest of a row. -/
def storedReportDigest (l : Ledger) (cursor : ℕ) : Option Bytes := Assoc.find cursor l.integrity

/-- The digest before a cursor's, where there is one. -/
def previousHash (l : Ledger) : ℕ → Bytes
  | 0 => []
  | cursor + 1 => (storedReportDigest l cursor).getD []

/-- Compare a row's digest, or store it. -/
def verifyReportIntegrity (l : Ledger) (cursor : ℕ) (payload : Bytes) : Except Error Ledger := do
  let digest ← reportIntegrity sha256 l cursor payload (previousHash l cursor)
  match storedReportDigest l cursor with
  | some stored => do
    refuseIf (stored ≠ digest) "native ledger report integrity mismatch"
    .ok l
  | none => .ok { l with integrity := Assoc.put cursor digest l.integrity }

/-! ## Reads -/

/-- The checkpoint of the greatest cursor up to a target. -/
def nearestCheckpoint (l : Ledger) (target : ℕ) : Except Error (Option CheckpointRow) := do
  bindInteger target
  .ok ((l.checkpoints.filter fun e => e.1 ≤ target).getLast?.map Prod.snd)

/-- A check of a checkpoint. -/
def refuseCheckpoint (c : Prop) [Decidable c] (code : CheckpointFailureCode) (cursor : ℕ)
    (text : String) : Except ReadFailure Unit :=
  if c then .error (.checkpoint code cursor (ascii text)) else .ok ()

/-- Where an optional part or a step that may throw is missing, the checkpoint is refused. -/
def orRefuse {β : Type} (x : Option β) (code : CheckpointFailureCode) (cursor : ℕ) (text : String) :
    Except ReadFailure β :=
  match x with
  | some v => .ok v
  | none => .error (.checkpoint code cursor (ascii text))

/-- The checks of a checkpoint. -/
def verifyCheckpoint (l : Ledger) (c : CheckpointRow) : Except ReadFailure Json := do
  refuseCheckpoint (c.cursor = 0) .invalidPayload c.cursor
    "native ledger report checkpoint has an invalid cursor"
  refuseCheckpoint (sha256 c.payload ≠ c.payloadHash) .payloadHashMismatch c.cursor
    "native ledger report checkpoint payload hash mismatch"
  let document ← orRefuse (parseJson c.payload).toOption .invalidPayload c.cursor
    "native ledger report checkpoint payload is invalid"
  refuseCheckpoint (document.kind ≠ .object) .invalidPayload c.cursor
    "native ledger report checkpoint payload is not an object"
  let previous ← orRefuse (storedReportDigest l (c.cursor - 1)) .missingIntegrity c.cursor
    "native ledger report checkpoint has no previous integrity digest"
  refuseCheckpoint (c.previousIntegrityDigest ≠ previous) .previousHashMismatch c.cursor
    "native ledger report checkpoint previous hash does not chain"
  let stored ← orRefuse (storedReportDigest l c.cursor) .missingIntegrity c.cursor
    "native ledger report checkpoint has no integrity digest"
  refuseCheckpoint (stored ≠ c.integrityDigest) .integrityMismatch c.cursor
    "native ledger report checkpoint integrity digest mismatch"
  let report ← orRefuse (Assoc.find c.cursor l.snapshots) .missingIntegrity c.cursor
    "native ledger report checkpoint has no report snapshot"
  let expected ← orRefuse (reportIntegrity sha256 l c.cursor report previous).toOption
    .integrityMismatch c.cursor
    "native ledger report checkpoint integrity chain cannot be verified"
  refuseCheckpoint (expected ≠ c.integrityDigest) .integrityMismatch c.cursor
    "native ledger report checkpoint integrity chain mismatch"
  .ok document

/-- A row is a delta of the document or the next document itself. -/
def applyReportSnapshot (document : Json) (bytes : Bytes) : Except Error Json := do
  let payload ← parseJson bytes
  match Assoc.find (ascii "schema_version") payload.members with
  | none => .ok payload
  | some _ => do
    let schema ← (← payload.atKey (ascii "schema_version")).text
    if schema = schemaV1 ∨ schema = schemaV2 then applyReportDelta document payload
    else .ok payload

/-- What a read of the rows carries from one row to the next. -/
structure Reading where
  document : Json
  found : Bool
  expectedCursor : ℕ
  previousHash : Bytes

/-- The digest of a row that is the next one and has the digest stored for it. -/
def checkRow (l : Ledger) (expectedCursor : ℕ) (previousHash : Bytes) (row : ℕ × Bytes) :
    Except Error Bytes := do
  refuseIf (row.1 ≠ expectedCursor) "cumulative report delta hole"
  match storedReportDigest l row.1 with
  | none => .error (ascii "resume this ledger with run before exporting reports")
  | some stored => do
    let digest ← reportIntegrity sha256 l row.1 row.2 previousHash
    refuseIf (stored ≠ digest) "native ledger report integrity mismatch"
    .ok digest

/-- A full read checks the rows after the target too. -/
def readFullRow (l : Ledger) (target : ℕ) (s : Reading) (row : ℕ × Bytes) :
    Except Error Reading := do
  let digest ← checkRow sha256 l s.expectedCursor s.previousHash row
  if row.1 > target then
    .ok { s with expectedCursor := s.expectedCursor + 1, previousHash := digest }
  else do
    let document ← applyReportSnapshot s.document row.2
    .ok ⟨document, row.1 = target, s.expectedCursor + 1, digest⟩

/-- Read from the first row on. -/
def readFullReport (l : Ledger) (target : ℕ) : Except Error Json := do
  let s ← l.snapshots.foldlM (readFullRow sha256 l target) ⟨null, false, 0, []⟩
  refuseIf (s.expectedCursor ≠ l.inputs.length + 1) "cumulative report delta hole"
  refuseIf (s.found = false) "no cumulative report at requested input cursor"
  .ok s.document

/-- Apply a row behind a checkpoint. -/
def readSuffixRow (l : Ledger) (s : Reading) (row : ℕ × Bytes) : Except Error Reading := do
  let digest ← checkRow sha256 l s.expectedCursor s.previousHash row
  let document ← applyReportSnapshot s.document row.2
  .ok ⟨document, s.found, s.expectedCursor + 1, digest⟩

/-- Read from a checkpoint on. -/
def readCheckpointedReport (l : Ledger) (target : ℕ) (c : CheckpointRow) :
    Except ReadFailure Json := do
  let document ← verifyCheckpoint sha256 l c
  thrown do
    let s ← (l.snapshots.filter fun row => c.cursor < row.1 ∧ row.1 ≤ target).foldlM
      (readSuffixRow sha256 l) ⟨document, false, c.cursor + 1, c.integrityDigest⟩
    refuseIf (s.expectedCursor ≠ target + 1) "cumulative report delta hole"
    .ok s.document

/-- Read the document of a cursor. -/
def readReportDocument (l : Ledger) (target : ℕ) (useCheckpoints checkpointsAvailable : Bool) :
    Except ReadFailure Json :=
  if useCheckpoints && checkpointsAvailable then do
    match ← thrown (nearestCheckpoint l target) with
    | some c => readCheckpointedReport sha256 l target c
    | none => thrown (readFullReport sha256 l target)
  else thrown (readFullReport sha256 l target)

/-! ## Exports -/

/-- `report_number` of the four ratios of an equity curve. -/
structure Ratios where
  sharpeMonthly : Json
  sortinoMonthly : Json
  sharpeBar : Json
  sortinoBar : Json

/-- A point of the equity curve. -/
structure EquityPoint (F : Type) where
  timeMs : ℤ
  equity : F
  openProfit : F

/-- Floating point: the number of a token, and the ratios of a curve on a clock. -/
structure EquityMetrics (R : Type) where
  real : Bytes → Except Error R
  equityStats : List (EquityPoint R) → Bytes → Except Error Ratios

/-- `from_chars` of a signed 64-bit integer over the whole text. -/
def readSigned : Bytes → Option ℤ
  | [] => none
  | c :: rest =>
    let digits := if c = ch '-' then rest else c :: rest
    if digits ≠ [] ∧ digits.all isDigit then
      let n : ℤ := digits.foldl (fun n b => 10 * n + (b.val - 48)) 0
      let n := if c = ch '-' then -n else n
      if -2 ^ 63 ≤ n ∧ n < 2 ^ 63 then some n else none
    else none

/-- The number of a signed token. -/
def Json.signed (j : Json) : Except Error ℤ :=
  if j.kind = .number then
    match readSigned j.value with
    | some n => .ok n
    | none => .error (ascii "invalid or overflowing integer")
  else .error (ascii "expected integer")

/-- The number a library reads from a token. -/
def Json.real {R : Type} (m : EquityMetrics R) (j : Json) : Except Error R :=
  if j.kind = .number then m.real j.value else .error (ascii "expected number")

/-- `members[name]`. -/
def Json.member (j : Json) (name : Bytes) : Json := (Assoc.find name j.members).getD null

/-- Read a point of the curve. -/
def equityPoint {R : Type} (m : EquityMetrics R) (point : Json) : Except Error (EquityPoint R) := do
  let timeMs ← (← point.atKey (ascii "time_ms")).signed
  let equity ← (← point.atKey (ascii "equity")).real m
  let openProfit ← (← point.atKey (ascii "open_profit")).real m
  .ok ⟨timeMs, equity, openProfit⟩

/-- Recompute the ratios of a document. -/
def refreshReportRatios {R : Type} (m : EquityMetrics R) (document : Json) (chartTimezone : Bytes) :
    Except Error Json := do
  let points ← (← document.atKey (ascii "report")).atKey (ascii "equity_curve")
  refuseIf (points.kind ≠ .array) "invalid interval report equity curve"
  let curve ← points.items.mapM (equityPoint m)
  let result ← m.equityStats curve chartTimezone
  let report := document.member (ascii "report")
  let metrics := report.member (ascii "metrics")
  let equity := metrics.member (ascii "equity")
  let equity := equity.setMember (ascii "sharpe_monthly") result.sharpeMonthly
  let equity := equity.setMember (ascii "sortino_monthly") result.sortinoMonthly
  let equity := equity.setMember (ascii "sharpe_bar") result.sharpeBar
  let equity := equity.setMember (ascii "sortino_bar") result.sortinoBar
  .ok (document.setMember (ascii "report")
    (report.setMember (ascii "metrics") (metrics.setMember (ascii "equity") equity)))

/-- The row of a cursor, which is there. -/
def snapshotAt (l : Ledger) (target : ℕ) : Except Error Bytes := do
  bindInteger target
  match Assoc.find target l.snapshots with
  | none => .error databaseError
  | some bytes => .ok bytes

/-- The document as it is exported: its ratios are computed again where its rows did not. -/
def exportDocument {R : Type} (m : EquityMetrics R) (l : Ledger) (target : ℕ) (document : Json) :
    Except Error Bytes := do
  match ← document.find (ascii "ratios_as_of_input") with
  | some _ => do
    let zone ← (← (← document.atKey (ascii "ratio_context")).atKey (ascii "chart_timezone")).text
    let document ← refreshReportRatios m document zone
    .ok (document.setMember (ascii "ratios_as_of_input") (number (decimal target))).dump
  | none => do
    let payload ← parseJson (← snapshotAt l target)
    match ← payload.find (ascii "schema_version") with
    | none => .ok document.dump
    | some schema => do
      if (← schema.text) = schemaV2 then do
        let ratios ← reportV2Ratios payload target
        if (← (← ratios.atKey (ascii "as_of_input")).integer) ≠ target then do
          let zone ← (← ratios.atKey (ascii "chart_timezone")).text
          let document ← refreshReportRatios m document zone
          .ok document.dump
        else .ok document.dump
      else .ok document.dump

/-- Read a report and print it. -/
def exportReport {R : Type} (m : EquityMetrics R) (l : Ledger) (cursor : Option ℕ)
    (checkpointsAvailable useCheckpoints : Bool) : Except ReadFailure Bytes := do
  let committed := l.inputs.length
  let target := cursor.getD committed
  let document ← readReportDocument sha256 l target (useCheckpoints && target ≤ committed)
    checkpointsAvailable
  thrown (exportDocument m l target document)

/-- A read again without checkpoints, where the one with them refuses a checkpoint. -/
def orFull {β : Type} (read full : Except ReadFailure β) : Except ReadFailure β :=
  match read with
  | .error (.checkpoint _ _ _) => full
  | result => result

/-- The report, from a checkpoint if one is sound. -/
def reportJson {R : Type} (m : EquityMetrics R) (l : Ledger) (checkpoints : Bool)
    (cursor : Option ℕ) :
    Except ReadFailure Bytes :=
  orFull (exportReport sha256 m l cursor checkpoints true)
    (exportReport sha256 m l cursor checkpoints false)

/-- The report, from all rows. -/
def reportJsonFull {R : Type} (m : EquityMetrics R) (l : Ledger) (checkpoints : Bool)
    (cursor : Option ℕ) : Except ReadFailure Bytes :=
  exportReport sha256 m l cursor checkpoints false

/-- The base of a document: its text, with the ratio metadata of the target's row. -/
def deltaBase (l : Ledger) (target : ℕ) (document : Json) : Except Error Bytes := do
  let payload ← parseJson (← snapshotAt l target)
  let schema ← (← payload.atKey (ascii "schema_version")).text
  refuseIf (schema ≠ schemaV2)
    "delta-base requires delta-v2 report rows with a recorded ratio clock"
  let ratios ← reportV2Ratios payload target
  let base := (object (Assoc.ofFields [(ascii "document", document), (ascii "ratios", ratios),
    (ascii "schema_version", string (ascii "pineforge-native-report-base/v2"))])).dump
  .ok (ch '\x7b' :: quote (ascii "input_cursor") ++ ch ':' :: decimal target ++ ch ',' :: base.tail)

/-- The document a delta is taken from. -/
def reportDeltaBaseJson (l : Ledger) (checkpoints : Bool) (cursor : Option ℕ) (verifyFull : Bool) :
    Except ReadFailure Bytes := do
  let target := cursor.getD l.inputs.length
  let document ← orFull (readReportDocument sha256 l target (!verifyFull) checkpoints)
    (readReportDocument sha256 l target false checkpoints)
  thrown (deltaBase l target document)

/-! ## Writes -/

/-- Multiples of the interval by a power of two. -/
def reportCheckpointBoundary (cursor interval : ℕ) : Bool :=
  if cursor = 0 ∨ cursor % interval ≠ 0 then false
  else
    let multiple := cursor / interval
    multiple &&& (multiple - 1) = 0

/-- The checkpoint of a cursor. -/
def prepareReportCheckpoint (l : Ledger) (cursor : ℕ) : Except ReadFailure CheckpointRow := do
  let digest ← match storedReportDigest l cursor with
    | some digest => .ok digest
    | none =>
      .error (.runtime (ascii "native ledger report checkpoint lacks its integrity digest"))
  let previous ← if cursor = 0 then .ok [] else
    match storedReportDigest l (cursor - 1) with
    | some previous => .ok previous
    | none => .error (.runtime
        (ascii "native ledger report checkpoint lacks its previous integrity digest"))
  let document ← orFull (readReportDocument sha256 l cursor true true)
    (readReportDocument sha256 l cursor false false)
  let payload := document.dump
  if payload = [] then
    .error (.runtime (ascii "native ledger report checkpoint payload is empty"))
  else .ok ⟨cursor, digest, previous, sha256 payload, payload⟩

/-- What the storage does with a write: it takes the transaction, has the memory for a checkpoint,
and takes the checkpoint's own transaction. -/
structure Storage where
  admitted : Bool
  built : Bool
  written : Bool

/-- A checkpoint's own transaction; its failure is noted and changes nothing. -/
def writeReportCheckpoint (l : Ledger) (storage : Storage) (c : CheckpointRow) : Ledger :=
  if storage.written ∧ Assoc.find c.cursor l.checkpoints = none then
    { l with checkpoints := Assoc.put c.cursor c l.checkpoints }
  else l

/-- An event as it is handed to a commit. -/
structure Event where
  id : Bytes
  payload : Bytes
  target : Option Bytes
  deliveryId : Bytes
deriving DecidableEq, Repr

/-- The row of an event. -/
def Event.row (e : Event) (ordinal : ℕ) : EventRow :=
  ⟨ordinal, e.id, e.payload, e.target, if e.deliveryId = [] then e.id else e.deliveryId⟩

/-- The events of all inputs, by ordinal. -/
def Ledger.events (l : Ledger) : List EventRow := l.inputs.flatMap InputRow.events

/-- The checks of events. -/
def validateEvents : List Event → Except Error Unit
  | [] => .ok ()
  | e :: events => do
    validateBytes e.id "event id"
    validateBytes e.payload "event payload"
    validateEvents events

/-- A committed input, committed again. -/
def replayInput (l : Ledger) (old : InputRow) (index : ℕ) (canonicalJson hash : Bytes)
    (events : List Event) (report : Bytes) : Except Error Ledger :=
  if old.canonicalJson = canonicalJson ∧ old.stateHash = hash ∧
      old.events = List.zipWith Event.row events (old.events.map EventRow.ordinal) ∧
      old.events.length = events.length ∧
      (Assoc.find (index + 1) l.snapshots).getD [] = report then .ok l
  else .error
    (ascii "native ledger replay differs from committed input, state, events or report")

/-- The rows of an input and its events. -/
def insertInput (l : Ledger) (canonicalJson hash : Bytes) (events : List Event) :
    Except Error Ledger := do
  let last := l.events.length
  bindInteger (last + events.length)
  -- event ids are unique
  if (l.events.map EventRow.id ++ events.map Event.id).Nodup then
    .ok { l with inputs := l.inputs ++
      [⟨canonicalJson, hash, events.mapIdx fun i e => e.row (last + i + 1)⟩] }
  else .error databaseError

/-- A report row and its digest. -/
def insertReport (l : Ledger) (cursor : ℕ) (report : Bytes) : Except Error Ledger := do
  bindInteger cursor
  match Assoc.find cursor l.snapshots with
  | some _ => .error databaseError
  | none =>
    verifyReportIntegrity sha256 { l with snapshots := Assoc.put cursor report l.snapshots } cursor
      report

/-- `commit_input`. -/
def commitInput (l : Ledger) (index : ℕ) (canonicalJson : Bytes) (stateHash : ℕ)
    (events : List Event) (report : Bytes) (storage : Storage) : Except Error Ledger := do
  validateBytes canonicalJson "input"
  validateEvents events
  bindInteger index
  match l.inputs[index]? with
  | some old => replayInput l old index canonicalJson (decimal stateHash) events report
  | none => do
    refuseIf (index ≠ l.inputs.length) "native ledger input sequence must be contiguous"
    if storage.admitted = false then .error databaseError else do
    let l ← insertInput l canonicalJson (decimal stateHash) events
    if report = [] then .ok l
    else do
      let l ← insertReport sha256 l (index + 1) report
      if reportCheckpointBoundary (index + 1) l.checkpointInterval ∧ storage.built then
        match prepareReportCheckpoint sha256 l (index + 1) with
        | .ok c => .ok (writeReportCheckpoint l storage c)
        | .error _ => .ok l
      else .ok l

/-- A replayed report; `legacy` is what an earlier version of the runner would have stored. -/
def verifyReport (l : Ledger) (cursor : ℕ) (report : Bytes) (legacy : Option Bytes)
    (storage : Storage) : Except Error Ledger := do
  refuseIf (report = [] ∨ cursor > l.inputs.length) "invalid cumulative report cursor"
  if storage.admitted = false then .error databaseError else
  match Assoc.find cursor l.snapshots with
  | none =>
    verifyReportIntegrity sha256 { l with snapshots := Assoc.put cursor report l.snapshots } cursor
      report
  | some stored => do
    if stored = report then verifyReportIntegrity sha256 l cursor stored
    else do
      let old ← parseJson stored
      match legacy, Assoc.find (ascii "schema_version") old.members with
      | some legacy, some _ => do
        let schema ← (← old.atKey (ascii "schema_version")).text
        refuseIf (schema ≠ ascii "pineforge-native-report/v1" ∨ stored ≠ legacy)
          "native replay report mismatch"
        verifyReportIntegrity sha256 l cursor stored
      | _, _ => .error (ascii "native replay report mismatch")

/-- The first checkpoint of a ledger that has none. -/
def checkpointRecoveredReport (l : Ledger) (cursor : ℕ) (storage : Storage) : Ledger :=
  if cursor = 0 ∨ l.checkpoints ≠ [] ∨ storage.built = false then l
  else
    match prepareReportCheckpoint sha256 l cursor with
    | .ok c => writeReportCheckpoint l storage c
    | .error _ => l

/-! ## Runs -/

/-- What happens to a ledger: the runner's calls, an open with another interval, and bytes of a
checkpoint payload that change on disk. -/
inductive LedgerStep
  | commitInput (index : ℕ) (canonicalJson : Bytes) (stateHash : ℕ) (events : List Event)
      (report : Bytes) (storage : Storage)
  | verifyReport (cursor : ℕ) (report : Bytes) (legacy : Option Bytes) (storage : Storage)
  | checkpointRecoveredReport (cursor : ℕ) (storage : Storage)
  | reopen (checkpointInterval : ℕ)
  | alterPayload (cursor : ℕ) (payload : Bytes)

/-- A refused call leaves the ledger. -/
def Ledger.orKeep (l : Ledger) (x : Except Error Ledger) : Ledger :=
  match x with
  | .ok l' => l'
  | .error _ => l

/-- What one call leaves. -/
def Ledger.step (l : Ledger) : LedgerStep → Ledger
  | .commitInput index canonicalJson stateHash events report storage =>
    l.orKeep (Runner.commitInput sha256 l index canonicalJson stateHash events report storage)
  | .verifyReport cursor report legacy storage =>
    l.orKeep (Runner.verifyReport sha256 l cursor report legacy storage)
  | .checkpointRecoveredReport cursor storage =>
    Runner.checkpointRecoveredReport sha256 l cursor storage
  | .reopen checkpointInterval => { l with checkpointInterval }
  | .alterPayload cursor payload =>
    { l with checkpoints := l.checkpoints.map fun e =>
        if e.1 = cursor then (e.1, { e.2 with payload }) else e }

/-- An input carries a report. -/
def LedgerStep.carriesReport : LedgerStep → Prop
  | .commitInput _ _ _ _ report _ => report ≠ []
  | _ => True

/-- An empty ledger, and what the steps make of it. -/
def Ledger.run (identity : Bytes) (checkpointInterval : ℕ) (steps : List LedgerStep) : Ledger :=
  steps.foldl (Ledger.step sha256) { identity, checkpointInterval }

end

end PineForge.Runner
