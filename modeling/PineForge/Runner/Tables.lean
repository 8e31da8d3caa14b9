import PineForge.Runner.Checkpoints
import PineForge.Runner.Document

/-!
# What the last digest binds

The tables of a ledger database as SQLite keeps them: any rows with the keys of the schema, whoever
wrote them. A full read recomputes the digest of every report row from the tables, each over the
digest before it. The text that is hashed names the cursor, the identity, the row, the input and its
actions, and it is printed from a well-formed value, so two databases that a full read accepts and
that end in one digest have the same inputs and the same actions of them. That there are no other
actions is for the references of the schema, which the runner checks when it opens a ledger and a
reader does not.
-/

namespace PineForge.Runner

open Json

/-! ## Tables -/

/-- The columns of `inputs`. -/
structure InputText where
  canonicalJson : Bytes
  stateHash : Bytes
deriving DecidableEq, Repr

/-- The columns of `events` that a digest covers. -/
structure EventColumns where
  inputIndex : ℕ
  inputPosition : ℕ
  eventId : Bytes
  payload : Bytes
deriving DecidableEq, Repr

/-- The columns of `event_routes`. -/
structure Route where
  targetId : Option Bytes
  deliveryId : Bytes
deriving DecidableEq, Repr

/-- Tables by primary key: `inputs` by index, `events` and `event_routes` by ordinal,
`report_snapshots` and `report_integrity` by cursor. `metadata` has at most the row of its one
key. -/
structure Tables where
  identity : Option Bytes
  inputs : List (ℕ × InputText)
  events : List (ℕ × EventColumns)
  routes : List (ℕ × Route)
  snapshots : List (ℕ × Bytes)
  integrity : List (ℕ × Bytes)
deriving DecidableEq, Repr

/-- The keys of the tables, which SQLite keeps on every connection. -/
structure Tables.Declared (t : Tables) : Prop where
  inputs : Assoc.Sorted t.inputs
  events : Assoc.Sorted t.events
  routes : Assoc.Sorted t.routes
  snapshots : Assoc.Sorted t.snapshots
  integrity : Assoc.Sorted t.integrity
  /-- `UNIQUE(input_index,input_position)`. -/
  positions : t.events.Pairwise fun d e =>
    (d.2.inputIndex, d.2.inputPosition) ≠ (e.2.inputIndex, e.2.inputPosition)
  /-- `event_id TEXT NOT NULL UNIQUE`. -/
  eventIds : (t.events.map fun e => e.2.eventId).Nodup

/-- The references of the schema, as `PRAGMA foreign_key_check` finds them when a ledger is opened
to be run. A connection without `PRAGMA foreign_keys=ON` writes rows that break them. -/
structure Tables.References (t : Tables) : Prop where
  /-- `input_index INTEGER NOT NULL REFERENCES inputs(input_index)`. -/
  eventInput : ∀ e ∈ t.events, (Assoc.find e.2.inputIndex t.inputs).isSome
  /-- `event_routes(ordinal INTEGER PRIMARY KEY REFERENCES events(ordinal))`. -/
  routeEvent : ∀ r ∈ t.routes, (Assoc.find r.1 t.events).isSome
  /-- `report_integrity(input_cursor INTEGER PRIMARY KEY REFERENCES
report_snapshots(input_cursor))`. -/
  integritySnapshot : ∀ d ∈ t.integrity, (Assoc.find d.1 t.snapshots).isSome

/-- A ledger database. -/
structure Database extends Tables where
  declared : toTables.Declared

namespace Tables

/-- `SELECT COALESCE(MAX(input_index)+1,0) FROM inputs`; past the integers of SQLite it is a real
number. -/
def committed (t : Tables) : Except Error ℕ :=
  match t.inputs.getLast? with
  | none => .ok 0
  | some input => if input.1 ≥ sqliteMax then .error databaseError else .ok (input.1 + 1)

/-- The stored digest of a row. -/
def storedReportDigest (t : Tables) (cursor : ℕ) : Option Bytes := Assoc.find cursor t.integrity

/-- The events of an input, by position. -/
def eventsOf (t : Tables) (index : ℕ) : List (ℕ × EventColumns) :=
  (t.events.filter fun e => e.2.inputIndex = index).insertionSort
    fun d e => d.2.inputPosition ≤ e.2.inputPosition

/-- A row of the left join; an event without a route has no delivery id to read. -/
def action (t : Tables) (e : ℕ × EventColumns) : Except Error Json :=
  match Assoc.find e.1 t.routes with
  | none => .error databaseError
  | some route => .ok (eventMaterial e.2.inputPosition
      ⟨e.1, e.2.eventId, e.2.payload, route.targetId, route.deliveryId⟩)

/-- The value whose text a digest hashes. -/
def material (t : Tables) (cursor : ℕ) (payload previousHash : Bytes) : Except Error Json :=
  match t.identity with
  | none => .error databaseError
  | some identity =>
    let material := Assoc.ofFields
      [(ascii "schema_version", string (ascii "pineforge-ledger-report-integrity/v1")),
       (ascii "deployment", string identity), (ascii "cursor", number (decimal cursor)),
       (ascii "previous_hash", string previousHash), (ascii "report", string payload)]
    match cursor with
    | 0 => .ok (object material)
    | index + 1 =>
      match Assoc.find index t.inputs with
      | none => .error (ascii "native ledger report integrity mismatch")
      | some input => do
        let actions ← (t.eventsOf index).mapM t.action
        let material := Assoc.put (ascii "input") (string input.canonicalJson) material
        let material := Assoc.put (ascii "state_hash") (string input.stateHash) material
        .ok (object (Assoc.put (ascii "actions") (array actions) material))

section

variable (sha256 : Bytes → Bytes)

/-- The digest of a row. -/
def reportIntegrity (t : Tables) (cursor : ℕ) (payload previousHash : Bytes) : Except Error Bytes :=
  do
  let material ← t.material cursor payload previousHash
  .ok (sha256 material.dump)

/-- The digest of a row that is the next one and has the digest stored for it. -/
def checkRow (t : Tables) (expectedCursor : ℕ) (previousHash : Bytes) (row : ℕ × Bytes) :
    Except Error Bytes := do
  refuseIf (row.1 ≠ expectedCursor) "cumulative report delta hole"
  match t.storedReportDigest row.1 with
  | none => .error (ascii "resume this ledger with run before exporting reports")
  | some stored => do
    let digest ← t.reportIntegrity sha256 row.1 row.2 previousHash
    refuseIf (stored ≠ digest) "native ledger report integrity mismatch"
    .ok digest

/-- Read one row. -/
def readFullRow (t : Tables) (target : ℕ) (s : Reading) (row : ℕ × Bytes) : Except Error Reading :=
  do
  let digest ← t.checkRow sha256 s.expectedCursor s.previousHash row
  if row.1 > target then
    .ok { s with expectedCursor := s.expectedCursor + 1, previousHash := digest }
  else do
    let document ← applyReportSnapshot s.document row.2
    .ok ⟨document, row.1 = target, s.expectedCursor + 1, digest⟩

/-- Read all rows. -/
def readFullReport (t : Tables) (target : ℕ) : Except Error Json := do
  let committed ← t.committed
  let s ← t.snapshots.foldlM (t.readFullRow sha256 target) ⟨null, false, 0, []⟩
  refuseIf (s.expectedCursor ≠ committed + 1) "cumulative report delta hole"
  refuseIf (s.found = false) "no cumulative report at requested input cursor"
  .ok s.document

end

/-- The digest of the greatest cursor that has one. -/
def lastDigest (t : Tables) : Option Bytes := t.integrity.getLast?.map Prod.snd

/-- The digest stored for the last report row. -/
def reportDigest (t : Tables) : Option Bytes :=
  t.snapshots.getLast?.bind fun row => t.storedReportDigest row.1

/-- The digest stored before a cursor's. -/
def previousDigest (t : Tables) : ℕ → Bytes
  | 0 => []
  | cursor + 1 => (t.storedReportDigest cursor).getD []

/-- The texts that the digests of the rows are computed from. -/
def hashedTexts (t : Tables) : Set Bytes :=
  {text | ∃ row ∈ t.snapshots, ∃ material,
    t.material row.1 row.2 (t.previousDigest row.1) = .ok material ∧ text = material.dump}

/-! ## What a full read has checked -/

section

variable {sha256 : Bytes → Bytes} {t : Tables}

/-- A row whose stored digest is the one computed over the digest stored before it. -/
def Verified (sha256 : Bytes → Bytes) (t : Tables) (row : ℕ × Bytes) : Prop :=
  ∃ digest, t.storedReportDigest row.1 = some digest ∧
    t.reportIntegrity sha256 row.1 row.2 (t.previousDigest row.1) = .ok digest

theorem checkRow_eq_ok {expected : ℕ} {row : ℕ × Bytes} {previous digest : Bytes}
    (h : t.checkRow sha256 expected previous row = .ok digest) :
    row.1 = expected ∧ t.storedReportDigest row.1 = some digest ∧
      t.reportIntegrity sha256 row.1 row.2 previous = .ok digest := by
  obtain ⟨⟨⟩, hrow, hrest⟩ := Result.bind_eq_ok.mp h
  refine ⟨not_not.mp (refuseIf_eq_ok hrow), ?_⟩
  cases hstored : t.storedReportDigest row.1 with
  | none =>
    rw [hstored] at hrest
    cases hrest
  | some stored =>
    rw [hstored] at hrest
    obtain ⟨computed, hcomputed, hrest⟩ := Result.bind_eq_ok.mp hrest
    obtain ⟨⟨⟩, hsame, hdigest⟩ := Result.bind_eq_ok.mp hrest
    have hstoredComputed : stored = computed := not_not.mp (refuseIf_eq_ok hsame)
    rw [hstoredComputed, ← Except.ok.inj hdigest]
    exact ⟨rfl, hcomputed⟩

theorem readFullRow_eq_ok {target : ℕ} {s s' : Reading} {row : ℕ × Bytes}
    (h : t.readFullRow sha256 target s row = .ok s') :
    t.checkRow sha256 s.expectedCursor s.previousHash row = .ok s'.previousHash ∧
      s'.expectedCursor = s.expectedCursor + 1 := by
  obtain ⟨digest, hcheck, h⟩ := Result.bind_eq_ok.mp h
  split at h
  · cases h
    exact ⟨hcheck, rfl⟩
  · obtain ⟨document, -, h⟩ := Result.bind_eq_ok.mp h
    cases h
    exact ⟨hcheck, rfl⟩

theorem readFullRows_eq_ok {target : ℕ} (rows : List (ℕ × Bytes)) : ∀ {s s' : Reading},
    s.previousHash = t.previousDigest s.expectedCursor →
    rows.foldlM (t.readFullRow sha256 target) s = .ok s' →
    Consecutive s.expectedCursor rows ∧ s'.expectedCursor = s.expectedCursor + rows.length ∧
      ∀ row ∈ rows, t.Verified sha256 row := by
  induction rows with
  | nil =>
    intro s s' _ h
    cases h
    exact ⟨rfl, rfl, by simp⟩
  | cons row rows ih =>
    intro s s' hprevious h
    rw [List.foldlM_cons] at h
    obtain ⟨next, hnext, h⟩ := Result.bind_eq_ok.mp h
    obtain ⟨hcheck, hcursor⟩ := readFullRow_eq_ok hnext
    obtain ⟨hfirst, hstored, hdigest⟩ := checkRow_eq_ok hcheck
    -- the digest just checked is the one stored before the next cursor
    have hchain : next.previousHash = t.previousDigest next.expectedCursor := by
      rw [hcursor, ← hfirst, previousDigest, hstored, Option.getD_some]
    obtain ⟨hrows, hlength, hverified⟩ := ih hchain h
    rw [hcursor] at hrows hlength
    refine ⟨consecutive_cons.mpr ⟨hfirst, hrows⟩, by rw [hlength, List.length_cons]; omega, ?_⟩
    intro r hr
    rcases List.mem_cons.mp hr with rfl | hr
    · rw [hprevious, ← hfirst] at hdigest
      exact ⟨next.previousHash, hstored, hdigest⟩
    · exact hverified r hr

/-- Tables with a verified row for every cursor up to their number of inputs. -/
structure Accepted (sha256 : Bytes → Bytes) (t : Tables) (last : ℕ) : Prop where
  committed : t.committed = .ok last
  rows : Consecutive 0 t.snapshots
  length : t.snapshots.length = last + 1
  verified : ∀ row ∈ t.snapshots, t.Verified sha256 row

theorem accepted_of_readFullReport {target : ℕ} {document : Json}
    (h : t.readFullReport sha256 target = .ok document) : ∃ last, t.Accepted sha256 last := by
  obtain ⟨last, hcommitted, h⟩ := Result.bind_eq_ok.mp h
  obtain ⟨s, hrows, h⟩ := Result.bind_eq_ok.mp h
  obtain ⟨⟨⟩, hcount, -⟩ := Result.bind_eq_ok.mp h
  obtain ⟨hconsecutive, hcursor, hverified⟩ :=
    readFullRows_eq_ok (s := ⟨null, false, 0, []⟩) t.snapshots rfl hrows
  have hlast : s.expectedCursor = last + 1 := not_not.mp (refuseIf_eq_ok hcount)
  refine ⟨last, hcommitted, hconsecutive, ?_, hverified⟩
  rw [hlast, Nat.zero_add] at hcursor
  exact hcursor.symm

theorem Accepted.snapshot {last cursor : ℕ} (h : t.Accepted sha256 last) :
    (Assoc.find cursor t.snapshots).isSome ↔ cursor ≤ last := by
  rw [← not_iff_not, Option.not_isSome_iff_eq_none, Assoc.find_eq_none_iff, h.rows, h.length,
    List.mem_range'_1]
  omega

theorem input_lt_committed (hsorted : Assoc.Sorted t.inputs) {last : ℕ} (h : t.committed = .ok last)
    {index : ℕ} (hinput : (Assoc.find index t.inputs).isSome) : index < last := by
  obtain ⟨input, hinput⟩ := Option.isSome_iff_exists.mp hinput
  have hmem := Assoc.mem_of_find hinput
  cases hgreatest : t.inputs.getLast? with
  | none =>
    rw [List.getLast?_eq_none_iff.mp hgreatest] at hmem
    cases hmem
  | some greatest =>
    obtain ⟨before, hsplit⟩ := List.getLast?_eq_some_iff.mp hgreatest
    simp only [committed, hgreatest] at h
    split at h
    · cases h
    · cases h
      rw [hsplit, List.mem_append, List.mem_singleton] at hmem
      rw [Assoc.Sorted, hsplit, List.pairwise_append] at hsorted
      rcases hmem with hmem | hmem
      · exact Nat.lt_succ_of_lt (hsorted.2.2 _ hmem _ (by simp))
      · rw [← hmem]
        exact Nat.lt_succ_self index

/-! ## What is hashed -/

/-- What a row's text begins with. -/
def headFields (identity : Bytes) (cursor : ℕ) (payload previousHash : Bytes) : Fields :=
  [(ascii "schema_version", string (ascii "pineforge-ledger-report-integrity/v1")),
   (ascii "deployment", string identity), (ascii "cursor", number (decimal cursor)),
   (ascii "previous_hash", string previousHash), (ascii "report", string payload)]

/-- What an input adds to it. -/
def inputFields (input : InputText) (actions : List Json) : Fields :=
  [(ascii "input", string input.canonicalJson), (ascii "state_hash", string input.stateHash),
   (ascii "actions", array actions)]

theorem material_zero {payload previousHash : Bytes} {j : Json}
    (h : t.material 0 payload previousHash = .ok j) :
    ∃ identity, t.identity = some identity ∧
      j = objectOf (headFields identity 0 payload previousHash) := by
  unfold material at h
  cases hidentity : t.identity with
  | none =>
    rw [hidentity] at h
    cases h
  | some identity =>
    rw [hidentity] at h
    exact ⟨identity, rfl, (Except.ok.inj h).symm⟩

theorem material_succ {index : ℕ} {payload previousHash : Bytes} {j : Json}
    (h : t.material (index + 1) payload previousHash = .ok j) :
    ∃ identity input actions, t.identity = some identity ∧ Assoc.find index t.inputs = some input ∧
      (t.eventsOf index).mapM t.action = .ok actions ∧
      j = objectOf (headFields identity (index + 1) payload previousHash ++
        inputFields input actions) := by
  unfold material at h
  cases hidentity : t.identity with
  | none =>
    rw [hidentity] at h
    cases h
  | some identity =>
    rw [hidentity] at h
    dsimp only at h
    cases hinput : Assoc.find index t.inputs with
    | none =>
      rw [hinput] at h
      cases h
    | some input =>
      rw [hinput] at h
      obtain ⟨actions, hactions, h⟩ := Result.bind_eq_ok.mp h
      exact ⟨identity, input, actions, rfl, rfl, hactions, (Except.ok.inj h).symm⟩

theorem headFields_nodup (identity : Bytes) (cursor : ℕ) (payload previousHash : Bytes) :
    (headFields identity cursor payload previousHash).names.Nodup := by
  simp only [Fields.names, headFields, List.map_cons, List.map_nil]
  decide +kernel

theorem coveredFields_nodup (identity : Bytes) (cursor : ℕ) (payload previousHash : Bytes)
    (input : InputText) (actions : List Json) :
    (headFields identity cursor payload previousHash ++ inputFields input actions).names.Nodup := by
  simp only [Fields.names, headFields, inputFields, List.cons_append, List.nil_append,
    List.map_cons,
    List.map_nil]
  decide +kernel

theorem wellFormed_decimal (n : ℕ) : WellFormed (number (decimal n)) :=
  wellFormed_number (isNumber_decimal n)

theorem wellFormed_headFields (identity : Bytes) (cursor : ℕ) (payload previousHash : Bytes) :
    ∀ e ∈ headFields identity cursor payload previousHash, WellFormed e.2 := by
  simp only [headFields, List.forall_mem_cons, wellFormed_string, wellFormed_decimal,
    List.not_mem_nil,
    false_imp_iff, implies_true, and_self]

/-- A target, or the null of an event that has none. -/
def targetJson : Option Bytes → Json
  | none => null
  | some target => string target

/-- An event as fields. -/
def eventFields (position : ℕ) (e : EventRow) : Fields :=
  [(ascii "ordinal", number (decimal e.ordinal)), (ascii "position", number (decimal position)),
   (ascii "event_id", string e.id), (ascii "payload", string e.payload),
   (ascii "target", targetJson e.target), (ascii "delivery_id", string e.deliveryId)]

theorem eventMaterial_eq (position : ℕ) (e : EventRow) :
    eventMaterial position e = objectOf (eventFields position e) := by
  obtain ⟨ordinal, id, payload, target, deliveryId⟩ := e
  cases target with
  | none => rfl
  | some target => rfl

theorem wellFormed_targetJson (target : Option Bytes) : WellFormed (targetJson target) := by
  cases target with
  | none => exact wellFormed_null
  | some target => exact wellFormed_string target

theorem targetJson_injective : Function.Injective targetJson := by
  intro target target' h
  cases target with
  | none =>
    cases target' with
    | none => rfl
    | some w => cases congrArg Json.kind h
  | some v =>
    cases target' with
    | none => cases congrArg Json.kind h
    | some w => exact congrArg (fun j => some j.value) h

theorem eventFields_nodup (position : ℕ) (e : EventRow) : (eventFields position e).names.Nodup := by
  simp only [Fields.names, eventFields, List.map_cons, List.map_nil]
  decide +kernel

theorem wellFormed_eventMaterial (position : ℕ) (e : EventRow) :
    WellFormed (eventMaterial position e) := by
  rw [eventMaterial_eq]
  refine wellFormed_objectOf (eventFields_nodup position e) ?_
  simp only [eventFields, List.forall_mem_cons, wellFormed_string, wellFormed_decimal,
    wellFormed_targetJson, List.not_mem_nil, false_imp_iff, implies_true, and_self]

theorem string_injective : Function.Injective string := by
  intro v w h
  exact congrArg Json.value h

theorem number_decimal_injective {m n : ℕ} (h : number (decimal m) = number (decimal n)) : m = n :=
  decimal_injective (congrArg Json.value h)

theorem eventMaterial_injective {position position' : ℕ} {e e' : EventRow}
    (h : eventMaterial position e = eventMaterial position' e') :
    position = position' ∧ e = e' := by
  rw [eventMaterial_eq, eventMaterial_eq] at h
  have hnames : (eventFields position e).names = (eventFields position' e').names := rfl
  have hfields := fields_of_objectOf hnames (eventFields_nodup position e) h
  obtain ⟨ordinal, id, payload, target, deliveryId⟩ := e
  obtain ⟨ordinal', id', payload', target', deliveryId'⟩ := e'
  simp only [eventFields, List.cons.injEq, Prod.mk.injEq, true_and, and_true] at hfields
  obtain ⟨hordinal, hposition, hid, hpayload, htarget, hdelivery⟩ := hfields
  refine ⟨number_decimal_injective hposition, ?_⟩
  rw [number_decimal_injective hordinal, string_injective hid, string_injective hpayload,
    targetJson_injective htarget, string_injective hdelivery]

/-! ## What a hashed text says -/

theorem mapM_results {β ε γ : Type} {f : β → Except ε γ} {xs : List β} : ∀ {ys : List γ},
    xs.mapM f = .ok ys →
    (∀ x ∈ xs, ∃ y ∈ ys, f x = .ok y) ∧ ∀ y ∈ ys, ∃ x ∈ xs, f x = .ok y := by
  induction xs with
  | nil =>
    intro ys h
    cases h
    simp
  | cons x xs ih =>
    intro ys h
    rw [List.mapM_cons] at h
    obtain ⟨y, hy, h⟩ := Result.bind_eq_ok.mp h
    obtain ⟨rest, hrest, h⟩ := Result.bind_eq_ok.mp h
    cases h
    obtain ⟨hleft, hright⟩ := ih hrest
    constructor
    · intro x' hx'
      rcases List.mem_cons.mp hx' with rfl | hx'
      · exact ⟨y, by simp, hy⟩
      · obtain ⟨y', hmem, hy'⟩ := hleft x' hx'
        exact ⟨y', List.mem_cons_of_mem _ hmem, hy'⟩
    · intro y' hy'
      rcases List.mem_cons.mp hy' with rfl | hy'
      · exact ⟨x, by simp, hy⟩
      · obtain ⟨x', hmem, hx'⟩ := hright y' hy'
        exact ⟨x', List.mem_cons_of_mem _ hmem, hx'⟩

theorem action_eq_ok {e : ℕ × EventColumns} {j : Json} (h : t.action e = .ok j) :
    ∃ route, Assoc.find e.1 t.routes = some route ∧ j = eventMaterial e.2.inputPosition
      ⟨e.1, e.2.eventId, e.2.payload, route.targetId, route.deliveryId⟩ := by
  unfold action at h
  cases hroute : Assoc.find e.1 t.routes with
  | none =>
    rw [hroute] at h
    cases h
  | some route =>
    rw [hroute] at h
    exact ⟨route, rfl, (Except.ok.inj h).symm⟩

theorem mem_eventsOf {index : ℕ} {e : ℕ × EventColumns} :
    e ∈ t.eventsOf index ↔ e ∈ t.events ∧ e.2.inputIndex = index := by
  simp only [eventsOf, List.mem_insertionSort, List.mem_filter, decide_eq_true_eq]

theorem wellFormed_material {cursor : ℕ} {payload previousHash : Bytes} {j : Json}
    (h : t.material cursor payload previousHash = .ok j) : WellFormed j := by
  cases cursor with
  | zero =>
    obtain ⟨identity, -, rfl⟩ := material_zero h
    exact wellFormed_objectOf (headFields_nodup _ _ _ _) (wellFormed_headFields _ _ _ _)
  | succ index =>
    obtain ⟨identity, input, actions, -, -, hactions, rfl⟩ := material_succ h
    refine wellFormed_objectOf (coveredFields_nodup _ _ _ _ _ _) ?_
    have hformed : ∀ j ∈ actions, WellFormed j := by
      intro j hj
      obtain ⟨e, -, he⟩ := (mapM_results hactions).2 j hj
      obtain ⟨route, -, rfl⟩ := action_eq_ok he
      exact wellFormed_eventMaterial _ _
    intro e he
    rcases List.mem_append.mp he with he | he
    · exact wellFormed_headFields _ _ _ _ e he
    · simp only [inputFields, List.mem_cons, List.not_mem_nil, or_false] at he
      rcases he with rfl | rfl | rfl
      · exact wellFormed_string _
      · exact wellFormed_string _
      · exact wellFormed_array hformed

theorem find_cursor_head (identity : Bytes) (cursor : ℕ) (payload previousHash : Bytes)
    (rest : Fields) :
    Assoc.find (ascii "cursor") (headFields identity cursor payload previousHash ++ rest)
      = some (number (decimal cursor)) := by
  have hschema : ascii "cursor" ≠ ascii "schema_version" := by decide +kernel
  have hdeployment : ascii "cursor" ≠ ascii "deployment" := by decide +kernel
  rw [headFields, List.cons_append, Assoc.find_cons, if_neg hschema, List.cons_append,
    Assoc.find_cons,
    if_neg hdeployment, List.cons_append, Assoc.find_cons, if_pos rfl]

theorem material_cursor {cursor : ℕ} {payload previousHash : Bytes} {j : Json}
    (h : t.material cursor payload previousHash = .ok j) :
    Assoc.find (ascii "cursor") j.members = some (number (decimal cursor)) := by
  cases cursor with
  | zero =>
    obtain ⟨identity, -, rfl⟩ := material_zero h
    have hfind := find_cursor_head identity 0 payload previousHash []
    rw [List.append_nil] at hfind
    rw [find_objectOf (headFields_nodup _ _ _ _), hfind]
  | succ index =>
    obtain ⟨identity, input, actions, -, -, -, rfl⟩ := material_succ h
    rw [find_objectOf (coveredFields_nodup _ _ _ _ _ _), find_cursor_head]

end

section

variable {sha256 : Bytes → Bytes} {a b : Tables}

/-- Tables with the same input at an index, and with all that the first has of its actions. -/
def Covers (a b : Tables) (index : ℕ) : Prop :=
  Assoc.find index a.inputs = Assoc.find index b.inputs ∧
    ∀ e ∈ a.events, e.2.inputIndex = index →
      e ∈ b.events ∧ Assoc.find e.1 a.routes = Assoc.find e.1 b.routes

theorem actions_cover {index : ℕ} {actions : List Json}
    (ha : (a.eventsOf index).mapM a.action = .ok actions)
    (hb : (b.eventsOf index).mapM b.action = .ok actions) {e : ℕ × EventColumns} (he : e ∈ a.events)
    (hindex : e.2.inputIndex = index) :
    e ∈ b.events ∧ Assoc.find e.1 a.routes = Assoc.find e.1 b.routes := by
  obtain ⟨j, hj, hja⟩ := (mapM_results ha).1 e (mem_eventsOf.mpr ⟨he, hindex⟩)
  obtain ⟨e', he', hjb⟩ := (mapM_results hb).2 j hj
  obtain ⟨route, hroute, rfl⟩ := action_eq_ok hja
  obtain ⟨route', hroute', heq⟩ := action_eq_ok hjb
  obtain ⟨hposition, hrow⟩ := eventMaterial_injective heq
  obtain ⟨hmem, hindex'⟩ := mem_eventsOf.mp he'
  -- the material has every column of the event and its route, and both lists are of one input
  obtain ⟨ordinal, inputIndex, inputPosition, eventId, payload⟩ := e
  obtain ⟨ordinal', inputIndex', inputPosition', eventId', payload'⟩ := e'
  obtain ⟨targetId, deliveryId⟩ := route
  obtain ⟨targetId', deliveryId'⟩ := route'
  simp only [EventRow.mk.injEq] at hposition hrow hindex hindex'
  obtain ⟨hordinal, hid, hpayload, htarget, hdelivery⟩ := hrow
  subst hordinal hid hpayload htarget hdelivery hposition hindex hindex'
  exact ⟨hmem, hroute.trans hroute'.symm⟩

/-- The material fixes all it digests. -/
theorem material_determines {cursor : ℕ} {payload payload' previous previous' : Bytes} {j : Json}
    (ha : a.material cursor payload previous = .ok j)
    (hb : b.material cursor payload' previous' = .ok j) :
    a.identity = b.identity ∧ payload = payload' ∧ previous = previous' ∧
      ∀ index, cursor = index + 1 → Covers a b index := by
  cases cursor with
  | zero =>
    obtain ⟨identity, hidentity, rfl⟩ := material_zero ha
    obtain ⟨identity', hidentity', heq⟩ := material_zero hb
    have hnames : (headFields identity 0 payload previous).names
        = (headFields identity' 0 payload' previous').names := rfl
    have hfields := fields_of_objectOf hnames (headFields_nodup _ _ _ _) heq
    simp only [headFields, List.cons.injEq, Prod.mk.injEq, true_and, and_true] at hfields
    obtain ⟨hid, hprevious, hpayload⟩ := hfields
    refine ⟨?_, string_injective hpayload, string_injective hprevious, fun index h => by cases h⟩
    rw [hidentity, hidentity', string_injective hid]
  | succ index =>
    obtain ⟨identity, input, actions, hidentity, hinput, hactions, rfl⟩ := material_succ ha
    obtain ⟨identity', input', actions', hidentity', hinput', hactions', heq⟩ := material_succ hb
    have hnames : (headFields identity (index + 1) payload previous ++
      inputFields input actions).names
        = (headFields identity' (index + 1) payload' previous' ++
          inputFields input' actions').names :=
      rfl
    have hfields := fields_of_objectOf hnames (coveredFields_nodup _ _ _ _ _ _) heq
    simp only [headFields, inputFields, List.cons_append, List.nil_append, List.cons.injEq,
      Prod.mk.injEq, true_and, and_true] at hfields
    obtain ⟨hid, hprevious, hpayload, htext, hstate, hitems⟩ := hfields
    have hsame : actions = actions' := congrArg Json.items hitems
    subst hsame
    refine ⟨?_, string_injective hpayload, string_injective hprevious, ?_⟩
    · rw [hidentity, hidentity', string_injective hid]
    · intro index' hindex
      cases hindex
      refine ⟨?_, fun e he hindex => actions_cover hactions hactions' he hindex⟩
      have hcolumns : input = input' := by
        cases input
        cases input'
        rw [InputText.mk.injEq]
        exact ⟨string_injective htext, string_injective hstate⟩
      rw [hinput, hinput', hcolumns]

/-! ## The chain -/

theorem Accepted.row {t : Tables} {last cursor : ℕ} (h : t.Accepted sha256 last)
    (hcursor : cursor ≤ last) :
    ∃ payload material, Assoc.find cursor t.snapshots = some payload ∧
      t.material cursor payload (t.previousDigest cursor) = .ok material ∧
      material.dump ∈ t.hashedTexts ∧ t.storedReportDigest cursor
        = some (sha256 material.dump) := by
  obtain ⟨payload, hpayload⟩ := Option.isSome_iff_exists.mp (h.snapshot.mpr hcursor)
  have hmem := Assoc.mem_of_find hpayload
  obtain ⟨digest, hstored, hdigest⟩ := h.verified _ hmem
  obtain ⟨material, hmaterial, hdigest⟩ := Result.bind_eq_ok.mp hdigest
  refine ⟨payload, material, hpayload, hmaterial, ⟨_, hmem, material, hmaterial, rfl⟩, ?_⟩
  rw [hstored, ← Except.ok.inj hdigest]

variable {m n : ℕ} (hfree : Set.InjOn sha256 (a.hashedTexts ∪ b.hashedTexts))
  (ha : a.Accepted sha256 m) (hb : b.Accepted sha256 n)

include hfree ha hb

theorem rows_of_digest {cursor cursor' : ℕ} (hcursor : cursor ≤ m) (hcursor' : cursor' ≤ n)
    (h : a.storedReportDigest cursor = b.storedReportDigest cursor') :
    cursor = cursor' ∧ a.identity = b.identity ∧
      Assoc.find cursor a.snapshots = Assoc.find cursor b.snapshots ∧
      a.previousDigest cursor = b.previousDigest cursor ∧
      ∀ index, cursor = index + 1 → Covers a b index := by
  obtain ⟨payload, material, hpayload, hmaterial, htext, hstored⟩ := ha.row hcursor
  obtain ⟨payload', material', hpayload', hmaterial', htext', hstored'⟩ := hb.row hcursor'
  rw [hstored, hstored', Option.some.injEq] at h
  have hdump := hfree (Or.inl htext) (Or.inr htext') h
  have hsame : material = material' :=
    dump_injective (wellFormed_material hmaterial) (wellFormed_material hmaterial') hdump
  subst hsame
  have hnamed := (material_cursor hmaterial).symm.trans (material_cursor hmaterial')
  have hcursors : cursor = cursor' := number_decimal_injective (Option.some.inj hnamed)
  subst hcursors
  obtain ⟨hidentity, hpayloads, hprevious, hcovers⟩ := material_determines hmaterial hmaterial'
  exact ⟨rfl, hidentity, by rw [hpayload, hpayload', hpayloads], hprevious, hcovers⟩

theorem digests_below (cursor : ℕ) (hm : cursor ≤ m) (hn : cursor ≤ n)
    (h : a.storedReportDigest cursor = b.storedReportDigest cursor) :
    ∀ below ≤ cursor, a.storedReportDigest below = b.storedReportDigest below := by
  induction cursor with
  | zero =>
    intro below hbelow
    rw [Nat.le_zero.mp hbelow]
    exact h
  | succ cursor ih =>
    obtain ⟨-, -, -, hprevious, -⟩ := rows_of_digest hfree ha hb hm hn h
    obtain ⟨_, _, _, _, _, hstored⟩ := ha.row (Nat.le_of_succ_le hm)
    obtain ⟨_, _, _, _, _, hstored'⟩ := hb.row (Nat.le_of_succ_le hn)
    have hdigest : a.storedReportDigest cursor = b.storedReportDigest cursor := by
      rw [previousDigest, previousDigest, hstored, hstored', Option.getD_some,
        Option.getD_some] at hprevious
      rw [hstored, hstored', hprevious]
    intro below hbelow
    rcases Nat.le_succ_iff.mp hbelow with hbelow | rfl
    · exact ih (Nat.le_of_succ_le hm) (Nat.le_of_succ_le hn) hdigest below hbelow
    · exact h

omit hfree ha hb

theorem Accepted.reportDigest_eq {t : Tables} {last : ℕ} (h : t.Accepted sha256 last) :
    t.reportDigest = t.storedReportDigest last := by
  have hkeys : (t.snapshots.map Prod.fst).getLast? = some last := by
    rw [h.rows, h.length, List.getLast?_range', if_neg (Nat.succ_ne_zero last)]
    simp
  rw [List.getLast?_map] at hkeys
  obtain ⟨row, hrow, rfl⟩ := Option.map_eq_some_iff.mp hkeys
  rw [reportDigest, hrow]
  rfl

/-- Only the cursors of report rows have digests, so the last digest is that of the last row. -/
theorem Accepted.lastDigest_eq {t : Tables} {last : ℕ} (h : t.Accepted sha256 last)
    (hdeclared : t.Declared) (href : t.References) : t.lastDigest = t.storedReportDigest last := by
  obtain ⟨_, _, _, _, _, hstored⟩ := h.row le_rfl
  have hmem := Assoc.mem_of_find hstored
  rw [hstored, lastDigest]
  cases hgreatest : t.integrity.getLast? with
  | none =>
    rw [List.getLast?_eq_none_iff.mp hgreatest] at hmem
    cases hmem
  | some greatest =>
    obtain ⟨before, hsplit⟩ := List.getLast?_eq_some_iff.mp hgreatest
    have hle : greatest.1 ≤ last :=
      h.snapshot.mp (href.integritySnapshot greatest (by rw [hsplit]; simp))
    have hsorted := hdeclared.integrity
    rw [Assoc.Sorted, hsplit, List.pairwise_append] at hsorted
    rw [hsplit, List.mem_append, List.mem_singleton] at hmem
    rcases hmem with hmem | hmem
    · exact absurd (hsorted.2.2 _ hmem greatest (by simp)) (Nat.not_lt.mpr hle)
    · rw [← hmem]
      rfl

theorem table_ext {β : Type} {m m' : List (ℕ × β)} (h : Assoc.Sorted m) (h' : Assoc.Sorted m')
    (hmem : ∀ e ∈ m, e ∈ m') (hmem' : ∀ e ∈ m', e ∈ m) : m = m' := by
  refine h.ext h' fun k => ?_
  cases hfind : Assoc.find k m with
  | some v => exact (Assoc.find_of_mem h'.nodup (hmem _ (Assoc.mem_of_find hfind))).symm
  | none =>
    cases hfind' : Assoc.find k m' with
    | none => rfl
    | some v =>
      have hfound := Assoc.find_of_mem h.nodup (hmem' _ (Assoc.mem_of_find hfind'))
      rw [hfind] at hfound
      cases hfound

end

end Tables

/-! ## Databases of one last digest -/

section

variable {sha256 : Bytes → Bytes} {a b : Database} {last : ℕ}

theorem Database.events_mem (ha : a.Accepted sha256 last) (href : a.References)
    (hcovers : ∀ index < last, Tables.Covers a.toTables b.toTables index) :
    ∀ e ∈ a.events, e ∈ b.events := by
  intro e he
  have hinput := Tables.input_lt_committed a.declared.inputs ha.committed (href.eventInput e he)
  exact ((hcovers _ hinput).2 e he rfl).1

theorem Database.routes_mem (ha : a.Accepted sha256 last) (href : a.References)
    (hcovers : ∀ index < last, Tables.Covers a.toTables b.toTables index) :
    ∀ r ∈ a.routes, r ∈ b.routes := by
  intro r hr
  obtain ⟨columns, hevent⟩ := Option.isSome_iff_exists.mp (href.routeEvent r hr)
  have he := Assoc.mem_of_find hevent
  have hinput := Tables.input_lt_committed a.declared.inputs ha.committed (href.eventInput _ he)
  have hroute := ((hcovers _ hinput).2 _ he rfl).2
  rw [Assoc.find_of_mem a.declared.routes.nodup hr] at hroute
  exact Assoc.mem_of_find hroute.symm

theorem Database.inputs_mem (ha : a.Accepted sha256 last)
    (hcovers : ∀ index < last, Tables.Covers a.toTables b.toTables index) :
    ∀ i ∈ a.inputs, i ∈ b.inputs := by
  intro i hi
  have hfound := Assoc.find_of_mem a.declared.inputs.nodup hi
  have hinput := Tables.input_lt_committed a.declared.inputs ha.committed (by rw [hfound]; rfl)
  rw [(hcovers _ hinput).1] at hfound
  exact Assoc.mem_of_find hfound

end

/-- What one digest of the last report row binds: the identity, the report rows, the inputs, and the
actions of these inputs with their routes. -/
structure Bound (a b : Database) : Prop where
  identity : a.identity = b.identity
  snapshots : a.snapshots = b.snapshots
  inputs : a.inputs = b.inputs
  events : ∀ e, (Assoc.find e.2.inputIndex a.inputs).isSome → (e ∈ a.events ↔ e ∈ b.events)
  routes : ∀ e ∈ a.events, (Assoc.find e.2.inputIndex a.inputs).isSome →
    Assoc.find e.1 a.routes = Assoc.find e.1 b.routes

section

variable {sha256 : Bytes → Bytes} {a b : Database} {last last' : ℕ}
  (hfree : Set.InjOn sha256 (a.hashedTexts ∪ b.hashedTexts)) (ha : a.Accepted sha256 last)
  (hb : b.Accepted sha256 last') (hdigest : a.storedReportDigest last = b.storedReportDigest last')

include hfree ha hb hdigest

theorem Database.covers : last = last' ∧ a.identity = b.identity ∧
    (∀ cursor ≤ last, Assoc.find cursor a.snapshots = Assoc.find cursor b.snapshots) ∧
    ∀ index < last, Tables.Covers a.toTables b.toTables index := by
  obtain ⟨hsame, hidentity, -, -, -⟩ := Tables.rows_of_digest hfree ha hb le_rfl le_rfl hdigest
  subst hsame
  have hdigests := Tables.digests_below hfree ha hb last le_rfl le_rfl hdigest
  refine ⟨rfl, hidentity, fun cursor hcursor => ?_, fun index hindex => ?_⟩
  · exact (Tables.rows_of_digest hfree ha hb hcursor hcursor (hdigests cursor hcursor)).2.2.1
  · exact (Tables.rows_of_digest hfree ha hb hindex hindex (hdigests _ hindex)).2.2.2.2 index rfl

theorem Database.bound : Bound a b := by
  obtain ⟨hsame, hidentity, hrows, hcovers⟩ := Database.covers hfree ha hb hdigest
  subst hsame
  have hfree' : Set.InjOn sha256 (b.hashedTexts ∪ a.hashedTexts) := by rwa [Set.union_comm]
  obtain ⟨-, -, -, hcovers'⟩ := Database.covers hfree' hb ha hdigest.symm
  have hsnapshots : a.snapshots = b.snapshots := by
    refine a.declared.snapshots.ext b.declared.snapshots fun cursor => ?_
    by_cases hcursor : cursor ≤ last
    · exact hrows cursor hcursor
    · rw [Option.not_isSome_iff_eq_none.mp (mt ha.snapshot.mp hcursor),
        Option.not_isSome_iff_eq_none.mp (mt hb.snapshot.mp hcursor)]
  have hinputs : a.inputs = b.inputs :=
    Tables.table_ext a.declared.inputs b.declared.inputs (Database.inputs_mem ha hcovers)
      (Database.inputs_mem hb hcovers')
  refine ⟨hidentity, hsnapshots, hinputs, fun e hinput => ?_, fun e he hinput => ?_⟩
  · have hindex := Tables.input_lt_committed a.declared.inputs ha.committed hinput
    exact ⟨fun he => ((hcovers _ hindex).2 e he rfl).1,
      fun he => ((hcovers' _ hindex).2 e he rfl).1⟩
  · have hindex := Tables.input_lt_committed a.declared.inputs ha.committed hinput
    exact ((hcovers _ hindex).2 e he rfl).2

end

/-- Two ledger databases that a full read accepts, and whose last report rows have one digest, have
the same identity, report rows and inputs and the same actions of these inputs. Where the references
of the schema hold, the last digest of the table binds all events and routes. No two of the texts
the digests were computed from collide. -/
theorem lastDigest_binds_history (sha256 : Bytes → Bytes) (a b : Database)
    (hfree : Set.InjOn sha256 (a.hashedTexts ∪ b.hashedTexts)) {target target' : ℕ}
    {document document' : Json} (ha : a.readFullReport sha256 target = .ok document)
    (hb : b.readFullReport sha256 target' = .ok document') :
    (a.reportDigest = b.reportDigest → Bound a b) ∧
      (a.References → b.References → a.lastDigest = b.lastDigest →
        a.identity = b.identity ∧ a.snapshots = b.snapshots ∧ a.inputs = b.inputs ∧
          a.events = b.events ∧ a.routes = b.routes) := by
  obtain ⟨last, ha⟩ := Tables.accepted_of_readFullReport ha
  obtain ⟨last', hb⟩ := Tables.accepted_of_readFullReport hb
  refine ⟨fun hdigest => ?_, fun hrefa hrefb hdigest => ?_⟩
  · rw [ha.reportDigest_eq, hb.reportDigest_eq] at hdigest
    exact Database.bound hfree ha hb hdigest
  · rw [ha.lastDigest_eq a.declared hrefa, hb.lastDigest_eq b.declared hrefb] at hdigest
    have hbound := Database.bound hfree ha hb hdigest
    have hfree' : Set.InjOn sha256 (b.hashedTexts ∪ a.hashedTexts) := by rwa [Set.union_comm]
    obtain ⟨-, -, -, hcovers⟩ := Database.covers hfree ha hb hdigest
    obtain ⟨-, -, -, hcovers'⟩ := Database.covers hfree' hb ha hdigest.symm
    refine ⟨hbound.identity, hbound.snapshots, hbound.inputs, ?_, ?_⟩
    · exact Tables.table_ext a.declared.events b.declared.events
        (Database.events_mem ha hrefa hcovers) (Database.events_mem hb hrefb hcovers')
    · exact Tables.table_ext a.declared.routes b.declared.routes
        (Database.routes_mem ha hrefa hcovers) (Database.routes_mem hb hrefb hcovers')

/-- The texts that a ledger of one input and one action hashes, and their digests. -/
def firstText : Bytes :=
  ascii "\x7b\"cursor\":0,\"deployment\":\"d\",\"previous_hash\":\"\",\"report\":\"\x7b\x7d\",\"schema_version\":\"" ++
    ascii "pineforge-ledger-report-integrity/v1\"\x7d"

/-- The text of the second row. -/
def secondText : Bytes :=
  ascii "\x7b\"actions\":[\x7b\"delivery_id\":\"e\",\"event_id\":\"e\",\"ordinal\":1,\"payload\":\"p\",\"po" ++
    ascii "sition\":0,\"target\":\"default\"\x7d],\"cursor\":1,\"deployment\":\"d\",\"input\":\"\x7b\x7d\",\"pr" ++
    ascii "evious_hash\":\"c80c760cefc216578539ed10204ead9eab4bf5934dd0362a64cc899bd9659" ++
    ascii "cb3\",\"report\":\"\x7b\x7d\",\"schema_version\":\"pineforge-ledger-report-integrity/v1\"," ++
    ascii "\"state_hash\":\"7\"\x7d"

/-- Its predecessor's digest. -/
def firstDigest : Bytes := ascii "c80c760cefc216578539ed10204ead9eab4bf5934dd0362a64cc899bd9659cb3"

/-- Its own digest. -/
def secondDigest : Bytes := ascii "3b4525c117178f2208860c0e45511e653dfb5fe4bd3386cbb042417f7773b6c9"

/-- The digests of these two texts. -/
def sampleDigest (text : Bytes) : Bytes := if text = firstText then firstDigest else secondDigest

/-- A database with one action. -/
def oneAction : Database where
  identity := some (ascii "d")
  inputs := [(0, ⟨ascii "\x7b\x7d", ascii "7"⟩)]
  events := [(1, ⟨0, 0, ascii "e", ascii "p"⟩)]
  routes := [(1, ⟨some (ascii "default"), ascii "e"⟩)]
  snapshots := [(0, ascii "\x7b\x7d"), (1, ascii "\x7b\x7d")]
  integrity := [(0, firstDigest), (1, secondDigest)]
  declared := by
    constructor
    case inputs => exact List.pairwise_singleton _ _
    case events => exact List.pairwise_singleton _ _
    case routes => exact List.pairwise_singleton _ _
    case snapshots => exact List.pairwise_pair.mpr Nat.zero_lt_one
    case integrity => exact List.pairwise_pair.mpr Nat.zero_lt_one
    case positions => exact List.pairwise_singleton _ _
    case eventIds => decide

/-- The same ledger with an action of an input it does not have. -/
def strayAction : Database where
  identity := some (ascii "d")
  inputs := [(0, ⟨ascii "\x7b\x7d", ascii "7"⟩)]
  events := [(1, ⟨0, 0, ascii "e", ascii "p"⟩), (2, ⟨5, 0, ascii "f", ascii "q"⟩)]
  routes := [(1, ⟨some (ascii "default"), ascii "e"⟩), (2, ⟨some (ascii "default"), ascii "f"⟩)]
  snapshots := [(0, ascii "\x7b\x7d"), (1, ascii "\x7b\x7d")]
  integrity := [(0, firstDigest), (1, secondDigest)]
  declared := by
    constructor
    case inputs => exact List.pairwise_singleton _ _
    case events => exact List.pairwise_pair.mpr (Nat.lt_succ_self 1)
    case routes => exact List.pairwise_pair.mpr (Nat.lt_succ_self 1)
    case snapshots => exact List.pairwise_pair.mpr Nat.zero_lt_one
    case integrity => exact List.pairwise_pair.mpr Nat.zero_lt_one
    case positions => exact List.pairwise_pair.mpr (by decide)
    case eventIds => decide +kernel

theorem sampleDigest_free {t : Tables}
    (hrows : t.snapshots = [(0, ascii "\x7b\x7d"), (1, ascii "\x7b\x7d")])
    (hfirst : (t.material 0 (ascii "\x7b\x7d") (t.previousDigest 0)).map dump = .ok firstText)
    (hsecond : (t.material 1 (ascii "\x7b\x7d") (t.previousDigest 1)).map dump = .ok secondText) :
    ∀ text ∈ t.hashedTexts, text = firstText ∨ text = secondText := by
  rintro text ⟨row, hrow, material, hmaterial, rfl⟩
  have htext := congrArg (Except.map dump) hmaterial
  rw [hrows, List.mem_cons, List.mem_singleton] at hrow
  rcases hrow with rfl | rfl
  · exact Or.inl (Except.ok.inj (htext.symm.trans hfirst))
  · exact Or.inr (Except.ok.inj (htext.symm.trans hsecond))

theorem sampleDigest_injOn :
    Set.InjOn sampleDigest (oneAction.hashedTexts ∪ strayAction.hashedTexts) := by
  have hone := sampleDigest_free (t := oneAction.toTables) rfl (by decide +kernel)
    (by decide +kernel)
  have hstray := sampleDigest_free (t := strayAction.toTables) rfl (by decide +kernel)
    (by decide +kernel)
  have hdiffer : firstDigest ≠ secondDigest := by decide +kernel
  have hsecond : sampleDigest secondText = secondDigest := by decide +kernel
  have hfirst : sampleDigest firstText = firstDigest := if_pos rfl
  intro x hx y hy h
  rcases hx.elim (hone x) (hstray x) with rfl | rfl
  · rcases hy.elim (hone y) (hstray y) with rfl | rfl
    · rfl
    · rw [hfirst, hsecond] at h
      exact absurd h hdiffer
  · rcases hy.elim (hone y) (hstray y) with rfl | rfl
    · rw [hfirst, hsecond] at h
      exact absurd h.symm hdiffer
    · rfl

theorem readFullReport_ok (t : Tables) (target : ℕ) (text : Bytes)
    (h : (t.readFullReport sampleDigest target).map dump = .ok text) :
    ∃ document, t.readFullReport sampleDigest target = .ok document := by
  cases hread : t.readFullReport sampleDigest target with
  | error e =>
    rw [hread] at h
    cases h
  | ok document => exact ⟨document, rfl⟩

theorem lastDigest_binds_oneAction :
    oneAction.events ≠ strayAction.events ∧
      ∀ e ∈ strayAction.events, e.2.inputIndex = 0 → e ∈ oneAction.events := by
  obtain ⟨document, hone⟩ :=
    readFullReport_ok oneAction.toTables 1 (ascii "\x7b\x7d") (by decide +kernel)
  obtain ⟨document', hstray⟩ := readFullReport_ok strayAction.toTables 1 (ascii "\x7b\x7d")
    (by decide +kernel)
  have hbound := (lastDigest_binds_history sampleDigest oneAction strayAction
    sampleDigest_injOn hone
    hstray).1 (by decide +kernel)
  refine ⟨by decide +kernel, fun e he hinput => (hbound.events e ?_).mpr he⟩
  rw [hinput]
  rfl

/-- A full read accepts both ledgers and their last digests are equal, but the second has one action
more. -/
theorem strayAction_unbound :
    Set.InjOn sampleDigest (oneAction.hashedTexts ∪ strayAction.hashedTexts) ∧
      (∃ document, oneAction.readFullReport sampleDigest 1 = .ok document) ∧
      (∃ document, strayAction.readFullReport sampleDigest 1 = .ok document) ∧
      oneAction.lastDigest = strayAction.lastDigest ∧ oneAction.events ≠ strayAction.events :=
  ⟨sampleDigest_injOn, readFullReport_ok _ _ (ascii "\x7b\x7d") (by decide +kernel),
    readFullReport_ok _ _ (ascii "\x7b\x7d") (by decide +kernel), rfl, by decide +kernel⟩

end PineForge.Runner
