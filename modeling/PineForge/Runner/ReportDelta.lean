import PineForge.Runner.Json

/-!
# Cumulative report deltas

`report_delta.hpp`: the merge of a delta's fields and the application of a delta to a document.
-/

namespace PineForge.Runner

open Json

/-! ## Fields -/

mutual

/-- `merge_report_fields`. -/
def mergeReportFields (destination : Json) : Json → Json
  | .mk kind value items members =>
    if kind = .object then
      .mk .object destination.value destination.items (mergeMembers destination.members members)
    else .mk kind value items members

/-- Merge members one by one. -/
def mergeMembers (destination : List (Bytes × Json)) : List (Bytes × Json) → List (Bytes × Json)
  | [] => destination
  | (name, value) :: rest =>
    mergeMembers (Assoc.put name
      (mergeReportFields ((Assoc.find name destination).getD null) value) destination) rest

end

/-! ## Application -/

/-- The first schema. -/
def schemaV1 : Bytes := ascii "pineforge-native-report-delta/v1"

/-- The second schema. -/
def schemaV2 : Bytes := ascii "pineforge-native-report-delta/v2"

/-- The members are of some names only. -/
def onlyFields (j : Json) (allowed : List Bytes) : Except Error Unit :=
  if j.kind ≠ .object then .error (ascii "expected object")
  else
    match j.members.find? fun e => e.1 ∉ allowed with
    | some e => .error (ascii "unknown field: " ++ e.1)
    | none => .ok ()

/-- A check that throws. -/
def refuseIf (c : Prop) [Decidable c] (text : String) : Except Error Unit :=
  if c then .error (ascii text) else .ok ()

/-- The ratios of the second schema. -/
def reportV2Ratios (delta : Json) (cursor : ℕ) : Except Error Json := do
  let ratios ← delta.atKey (ascii "ratios")
  onlyFields ratios [ascii "as_of_input", ascii "chart_timezone", ascii "exact"]
  let asOf ← (← ratios.atKey (ascii "as_of_input")).integer
  let exact ← ratios.atKey (ascii "exact")
  refuseIf (asOf > cursor ∨ exact.kind ≠ .bool ∨ ¬(exact.value = ascii "true" ↔ asOf = cursor))
    "invalid cumulative report ratio metadata"
  let zone ← (← ratios.atKey (ascii "chart_timezone")).text
  refuseIf (zone = []) "invalid cumulative report ratio metadata"
  .ok ratios

/-- The arrays of a report document; the closed trades are a member of the document, the others of
its report. -/
inductive ArrayName
  | closedTrades
  | trades
  | equityCurve
  | securityDiag
  | trace
  | traceNames
  | brokerStateHash
deriving DecidableEq, Repr

namespace ArrayName

/-- The name of an array. -/
def text : ArrayName → Bytes
  | closedTrades => ascii "closed_trades"
  | trades => ascii "trades"
  | equityCurve => ascii "equity_curve"
  | securityDiag => ascii "security_diag"
  | trace => ascii "trace"
  | traceNames => ascii "trace_names"
  | brokerStateHash => ascii "broker_state_hash"

/-- The arrays in order. -/
def all : List ArrayName :=
  [closedTrades, trades, equityCurve, securityDiag, trace, traceNames, brokerStateHash]

end ArrayName

/-- `members[name] = v`. -/
def Json.setMember (j : Json) (name : Bytes) (v : Json) : Json :=
  .mk j.kind j.value j.items (Assoc.put name v j.members)

/-- The rows from a patch's offset on, replaced. -/
def patchRows (values patch : Json) : Except Error Json := do
  let offset ← (← patch.atKey (ascii "offset")).integer
  refuseIf (offset > values.items.length) "invalid cumulative report delta offset"
  let items ← patch.atKey (ascii "items")
  refuseIf (items.kind ≠ .array) "invalid cumulative report delta offset"
  .ok (.mk .array values.value (values.items.take offset ++ items.items) values.members)

/-- One array of a delta: its owner becomes an object if it was none. -/
def applyArrayPatch (v2 : Bool) (document : Json) (entry : Bytes × Json) : Except Error Json := do
  let (name, patch) := entry
  refuseIf (v2 = true ∧ name ∉ ArrayName.all.map ArrayName.text)
    "invalid cumulative report array name"
  if v2 then onlyFields patch [ascii "offset", ascii "items"] else .ok ()
  if name = ArrayName.closedTrades.text then do
    let values ← patchRows ((Assoc.find name document.members).getD null) patch
    .ok (.mk .object document.value document.items (Assoc.put name values document.members))
  else do
    let owner := (Assoc.find (ascii "report") document.members).getD null
    let values ← patchRows ((Assoc.find name owner.members).getD null) patch
    .ok (document.setMember (ascii "report")
      (.mk .object owner.value owner.items (Assoc.put name values owner.members)))

/-- v2 checks its ratio metadata. -/
def checkRatios (document delta : Json) : Except Error Unit := do
  let cursor ← (← document.atKey (ascii "input_cursor")).integer
  let _ ← reportV2Ratios delta cursor
  let kind ← (← delta.atKey (ascii "kind")).text
  refuseIf (kind ≠ ascii "input" ∧ kind ≠ ascii "final") "invalid cumulative report delta kind"
  if kind = ascii "final" then do
    let arrays ← delta.atKey (ascii "arrays")
    refuseIf (¬arrays.members.isEmpty) "invalid cumulative report delta kind"
  else .ok ()

/-- v1 checks that the clock of a document's ratios stays. -/
def checkClock (document : Json) (zone : Bytes) : Except Error Unit := do
  match ← document.find (ascii "ratio_context") with
  | none => .ok ()
  | some previous =>
    let clock ← (← previous.atKey (ascii "chart_timezone")).text
    refuseIf (clock ≠ zone) "interval report ratio clock changed"

/-- v1 moves its ratio metadata, where a delta has any, to the document. -/
def moveRatios (document delta : Json) : Except Error Json := do
  match ← delta.find (ascii "ratios_as_of_input") with
  | none => .ok document
  | some asOf =>
    let asOfInput ← asOf.integer
    let cursor ← (← document.atKey (ascii "input_cursor")).integer
    refuseIf (asOfInput > cursor) "invalid interval report ratio cursor"
    let context ← delta.atKey (ascii "ratio_context")
    let zone ← (← context.atKey (ascii "chart_timezone")).text
    checkClock document zone
    .ok ((document.setMember (ascii "ratios_as_of_input") asOf).setMember
      (ascii "ratio_context") context)

/-- Apply a delta to a document. -/
def applyReportDelta (document delta : Json) : Except Error Json := do
  let schema ← (← delta.atKey (ascii "schema_version")).text
  let v2 : Bool := schema = schemaV2
  refuseIf (v2 = false ∧ schema ≠ schemaV1) "unsupported cumulative report delta"
  let document := mergeReportFields document (← delta.atKey (ascii "fields"))
  let document ← if v2 then do checkRatios document delta; .ok document
    else moveRatios document delta
  (← delta.atKey (ascii "arrays")).members.foldlM (applyArrayPatch v2) document

theorem refuseIf_pass {c : Prop} [Decidable c] (h : ¬c) (text : String) :
    refuseIf c text = .ok () := if_neg h

theorem refuseIf_eq_ok {c : Prop} [Decidable c] {text : String} {u : Unit}
    (h : refuseIf c text = .ok u) : ¬c := by
  intro hc
  unfold refuseIf at h
  rw [if_pos hc] at h
  cases h

theorem Json.WellFormed.member {j v : Json} (h : WellFormed j) {k : Bytes}
    (hfind : Assoc.find k j.members = some v) : WellFormed v := by
  obtain ⟨kind, value, items, members⟩ := j
  exact (wellFormed_mk.mp h).2.2 _ (Assoc.mem_of_find hfind)

@[simp] theorem Json.object_members (members : List (Bytes × Json)) :
    (object members).members = members := rfl

@[simp] theorem Json.object_kind (members : List (Bytes × Json)) :
    (object members).kind = .object := rfl

end PineForge.Runner
