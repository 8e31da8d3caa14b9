import PineForge.Runner.Store

/-!
# Checkpoints

A checkpoint holds the printed document of its rows, and a read from it applies the rows after it to
what the parser makes of that text. Where no row leaves items or members stale in the document, the
parser gives the document back but for stale texts, so the read from a checkpoint is the full read.
-/

namespace PineForge.Runner

open Json

/-! ## Rows that leave nothing stale -/

/-- Whether a row is a delta that leaves items or members stale in a document. -/
def snapshotClash (document : Json) (bytes : Bytes) : Bool :=
  match parseJson bytes with
  | .error _ => false
  | .ok payload =>
    match (Assoc.find (ascii "schema_version") payload.members).map Json.text with
    | some (.ok schema) => (schema = schemaV1 ∨ schema = schemaV2) && deltaClash document payload
    | _ => false

/-- Apply a stored row. -/
def applyRow (document : Json) (row : ℕ × Bytes) : Except Error Json :=
  applyReportSnapshot document row.2

/-- No row, applied to the document of the rows before it, leaves items or members stale. -/
def rowsKeep (document : Json) : List (ℕ × Bytes) → Bool
  | [] => true
  | row :: rows =>
    !snapshotClash document row.2 &&
      match applyRow document row with
      | .ok document => rowsKeep document rows
      | .error _ => true

/-- The document of some rows. -/
def rowsDocument (rows : List (ℕ × Bytes)) : Except Error Json := rows.foldlM applyRow null

theorem applyReportSnapshot_alike {a b : Json} (h : Alike a b) (bytes : Bytes) :
    Same (applyReportSnapshot a bytes) (applyReportSnapshot b bytes) := by
  unfold applyReportSnapshot
  refine same_bind _ fun payload => ?_
  cases Assoc.find (ascii "schema_version") payload.members with
  | none => rfl
  | some _ =>
    refine same_bind _ fun value => same_bind _ fun schema => ?_
    split
    · exact applyReportDelta_alike h payload
    · rfl

theorem applyRows_alike (rows : List (ℕ × Bytes)) : ∀ {a b : Json}, Alike a b →
    Same (rows.foldlM applyRow a) (rows.foldlM applyRow b) := by
  induction rows with
  | nil =>
    intro a b h
    exact same_ok h
  | cons row rows ih =>
    intro a b h
    rw [List.foldlM_cons, List.foldlM_cons]
    exact (applyReportSnapshot_alike h row.2).bind fun v w hvw => ih hvw

theorem Tidy.applySnapshot {document result : Json} {bytes : Bytes} (h : Tidy document)
    (hclash : snapshotClash document bytes = false)
    (hresult : applyReportSnapshot document bytes = .ok result) : Tidy result := by
  obtain ⟨payload, hpayload, hresult⟩ := Result.bind_eq_ok.mp hresult
  have hformed := parseJson_formed hpayload
  cases hschema : Assoc.find (ascii "schema_version") payload.members with
  | none =>
    rw [hschema] at hresult
    cases hresult
    exact hformed.tidy
  | some schemaValue =>
    rw [hschema] at hresult
    obtain ⟨value, hvalue, hresult⟩ := Result.bind_eq_ok.mp hresult
    obtain ⟨schema, htext, hresult⟩ := Result.bind_eq_ok.mp hresult
    have hfind := (hformed.atKey hvalue).2
    simp only [snapshotClash, hpayload, hfind, Option.map_some, htext] at hclash
    split at hresult
    · rename_i hdelta
      simp only [hdelta, decide_true, Bool.true_and] at hclash
      exact h.apply hformed hclash hresult
    · cases hresult
      exact hformed.tidy

theorem Tidy.rows (rows : List (ℕ × Bytes)) : ∀ {document result : Json}, Tidy document →
    rowsKeep document rows = true → rows.foldlM applyRow document = .ok result → Tidy result := by
  induction rows with
  | nil =>
    intro document result h _ hresult
    cases hresult
    exact h
  | cons row rows ih =>
    intro document result h hkeep hresult
    rw [List.foldlM_cons] at hresult
    obtain ⟨next, hnext, hresult⟩ := Result.bind_eq_ok.mp hresult
    simp only [rowsKeep, hnext, Bool.and_eq_true, Bool.not_eq_true'] at hkeep
    exact ih (h.applySnapshot hkeep.1 hnext) hkeep.2 hresult

theorem rowsKeep_left (rows rest : List (ℕ × Bytes)) : ∀ {document : Json},
    rowsKeep document (rows ++ rest) = true → rowsKeep document rows = true := by
  induction rows with
  | nil =>
    intro document _
    rfl
  | cons row rows ih =>
    intro document h
    simp only [List.cons_append, rowsKeep, Bool.and_eq_true] at h ⊢
    refine ⟨h.1, ?_⟩
    cases hnext : applyRow document row with
    | error e => rfl
    | ok next =>
      rw [hnext] at h
      exact ih h.2

/-! ## Chains of digests -/

section

variable (sha256 : Bytes → Bytes)

/-- Rows with their stored digests, each over the digest before it. -/
def Chain (l : Ledger) : Bytes → List (ℕ × Bytes) → Bytes → Prop
  | previous, [], last => previous = last
  | previous, row :: rows, last =>
    ∃ digest, storedReportDigest l row.1 = some digest ∧
      reportIntegrity sha256 l row.1 row.2 previous = .ok digest ∧ Chain l digest rows last

/-- Rows by consecutive cursors. -/
def Consecutive (first : ℕ) (rows : List (ℕ × Bytes)) : Prop :=
  rows.map Prod.fst = List.range' first rows.length

/-- A ledger with a row for every cursor, and the chain of their digests. -/
structure Kept (l : Ledger) : Prop where
  rows : Consecutive 0 l.snapshots
  length : l.snapshots.length = l.inputs.length + 1
  chain : ∃ last, Chain sha256 l [] l.snapshots last

variable {sha256} {l : Ledger}

theorem chain_append {rows rest : List (ℕ × Bytes)} : ∀ {previous last : Bytes},
    Chain sha256 l previous (rows ++ rest) last ↔
      ∃ middle, Chain sha256 l previous rows middle ∧ Chain sha256 l middle rest last := by
  induction rows with
  | nil =>
    intro previous last
    simp only [List.nil_append, Chain, exists_eq_left']
  | cons row rows ih =>
    intro previous last
    simp only [List.cons_append, Chain, ih]
    constructor
    · rintro ⟨digest, hstored, hdigest, middle, hrows, hrest⟩
      exact ⟨middle, ⟨digest, hstored, hdigest, hrows⟩, hrest⟩
    · rintro ⟨middle, ⟨digest, hstored, hdigest, hrows⟩, hrest⟩
      exact ⟨digest, hstored, hdigest, middle, hrows, hrest⟩

theorem Chain.last_stored {rows : List (ℕ × Bytes)} {row : ℕ × Bytes} {previous last : Bytes}
    (h : Chain sha256 l previous (rows ++ [row]) last) :
    storedReportDigest l row.1 = some last := by
  obtain ⟨middle, -, digest, hstored, -, hlast⟩ := chain_append.mp h
  rw [hstored, hlast]

theorem consecutive_cons {first : ℕ} {row : ℕ × Bytes} {rows : List (ℕ × Bytes)} :
    Consecutive first (row :: rows) ↔ row.1 = first ∧ Consecutive (first + 1) rows := by
  unfold Consecutive
  rw [List.map_cons, List.length_cons, List.range'_succ, List.cons.injEq]

theorem consecutive_append {rows rest : List (ℕ × Bytes)} : ∀ {first : ℕ},
    Consecutive first (rows ++ rest) ↔
      Consecutive first rows ∧ Consecutive (first + rows.length) rest := by
  induction rows with
  | nil =>
    intro first
    simp [Consecutive]
  | cons row rows ih =>
    intro first
    rw [List.cons_append, consecutive_cons, ih, consecutive_cons, List.length_cons, and_assoc,
      Nat.add_right_comm first 1, Nat.add_assoc first]

theorem checkRow_chain {row : ℕ × Bytes} {previous digest : Bytes}
    (hstored : storedReportDigest l row.1 = some digest)
    (hdigest : reportIntegrity sha256 l row.1 row.2 previous = .ok digest) :
    checkRow sha256 l row.1 previous row = .ok digest := by
  unfold checkRow
  rw [refuseIf_pass (not_not.mpr rfl), Result.ok_bind, hstored]
  dsimp only
  rw [hdigest, Result.ok_bind, refuseIf_pass (not_not.mpr rfl), Result.ok_bind]

theorem checkRow_eq_ok {expected : ℕ} {row : ℕ × Bytes} {previous digest : Bytes}
    (h : checkRow sha256 l expected previous row = .ok digest) :
    row.1 = expected ∧ storedReportDigest l row.1 = some digest ∧
      reportIntegrity sha256 l row.1 row.2 previous = .ok digest := by
  obtain ⟨⟨⟩, hrow, hrest⟩ := Result.bind_eq_ok.mp h
  refine ⟨not_not.mp (refuseIf_eq_ok hrow), ?_⟩
  cases hstored : storedReportDigest l row.1 with
  | none =>
    rw [hstored] at hrest
    cases hrest
  | some stored =>
    rw [hstored] at hrest
    obtain ⟨computed, hcomputed, hrest⟩ := Result.bind_eq_ok.mp hrest
    obtain ⟨⟨⟩, hsame, hdigest⟩ := Result.bind_eq_ok.mp hrest
    have hstoredComputed : stored = computed := not_not.mp (refuseIf_eq_ok hsame)
    rw [hstoredComputed, ← Except.ok.inj hdigest]
    exact ⟨rfl, hcomputed⟩

/-! ## Reads of chained rows -/

/-- A read of chained rows up to the target applies them all; the last one is the target when the
next cursor is the one after it. -/
theorem readFullRows_apply {target : ℕ} (rows : List (ℕ × Bytes)) :
    ∀ {document : Json} {first : ℕ} {previous last : Bytes}, Consecutive first rows →
    Chain sha256 l previous rows last → first + rows.length ≤ target + 1 →
    rows.foldlM (readFullRow sha256 l target)
        ⟨document, decide (first = target + 1), first, previous⟩
      = rows.foldlM applyRow document >>= fun document =>
        .ok ⟨document, decide (first + rows.length = target + 1), first + rows.length, last⟩ := by
  induction rows with
  | nil =>
    intro document first previous last _ hchain _
    cases hchain
    rfl
  | cons row rows ih =>
    intro document first previous last hrows hchain hlength
    obtain ⟨rfl, hrows⟩ := consecutive_cons.mp hrows
    obtain ⟨digest, hstored, hdigest, hchain⟩ := hchain
    rw [List.length_cons] at hlength
    have hrow : readFullRow sha256 l target
          ⟨document, decide (row.1 = target + 1), row.1, previous⟩ row
        = applyRow document row >>= fun document =>
          .ok ⟨document, decide (row.1 + 1 = target + 1), row.1 + 1, digest⟩ := by
      have hle : ¬row.1 > target := by omega
      unfold readFullRow
      rw [checkRow_chain hstored hdigest, Result.ok_bind, if_neg hle]
      simp only [Nat.add_right_cancel_iff]
      rfl
    rw [List.foldlM_cons, List.foldlM_cons, hrow]
    cases applyRow document row with
    | error e => rfl
    | ok next =>
      rw [Result.ok_bind, Result.ok_bind, Result.ok_bind, ih hrows hchain (by omega),
        List.length_cons, Nat.add_assoc, Nat.add_comm 1]

theorem readFullRows_skip {target : ℕ} (rows : List (ℕ × Bytes)) :
    ∀ {s : Reading} {last : Bytes}, Consecutive s.expectedCursor rows →
    Chain sha256 l s.previousHash rows last → target < s.expectedCursor →
    rows.foldlM (readFullRow sha256 l target) s
      = .ok ⟨s.document, s.found, s.expectedCursor + rows.length, last⟩ := by
  induction rows with
  | nil =>
    intro s last _ hchain _
    cases hchain
    rfl
  | cons row rows ih =>
    intro s last hrows hchain htarget
    obtain ⟨hfirst, hrows⟩ := consecutive_cons.mp hrows
    obtain ⟨digest, hstored, hdigest, hchain⟩ := hchain
    have hcheck := checkRow_chain hstored hdigest
    have hgt : row.1 > target := by omega
    rw [List.foldlM_cons, readFullRow, ← hfirst, hcheck, Result.ok_bind, if_pos hgt, Result.ok_bind,
      ih (by rw [hfirst]; exact hrows) hchain (Nat.lt_succ_of_lt hgt), List.length_cons]
    rw [Nat.add_assoc row.1, Nat.add_comm 1]

theorem readSuffixRows (rows : List (ℕ × Bytes)) :
    ∀ {s : Reading} {last : Bytes}, Consecutive s.expectedCursor rows →
    Chain sha256 l s.previousHash rows last →
    rows.foldlM (readSuffixRow sha256 l) s
      = rows.foldlM applyRow s.document >>= fun document =>
        .ok ⟨document, s.found, s.expectedCursor + rows.length, last⟩ := by
  induction rows with
  | nil =>
    intro s last _ hchain
    cases hchain
    rfl
  | cons row rows ih =>
    intro s last hrows hchain
    obtain ⟨hfirst, hrows⟩ := consecutive_cons.mp hrows
    obtain ⟨digest, hstored, hdigest, hchain⟩ := hchain
    have hcheck := checkRow_chain hstored hdigest
    have hrow : readSuffixRow sha256 l s row = applyRow s.document row >>= fun document =>
        .ok ⟨document, s.found, s.expectedCursor + 1, digest⟩ := by
      unfold readSuffixRow
      rw [← hfirst, hcheck, Result.ok_bind]
      rfl
    rw [List.foldlM_cons, List.foldlM_cons, hrow]
    cases applyRow s.document row with
    | error e => rfl
    | ok next =>
      rw [Result.ok_bind, Result.ok_bind, Result.ok_bind, ih hrows hchain, List.length_cons]
      dsimp only
      rw [Nat.add_assoc, Nat.add_comm 1]

theorem readFullRows_eq_ok {target : ℕ} (rows : List (ℕ × Bytes)) : ∀ {s t : Reading},
    rows.foldlM (readFullRow sha256 l target) s = .ok t →
    Consecutive s.expectedCursor rows ∧ Chain sha256 l s.previousHash rows t.previousHash ∧
      t.expectedCursor = s.expectedCursor + rows.length := by
  induction rows with
  | nil =>
    intro s t h
    cases h
    exact ⟨rfl, rfl, rfl⟩
  | cons row rows ih =>
    intro s t h
    rw [List.foldlM_cons] at h
    obtain ⟨next, hnext, h⟩ := Result.bind_eq_ok.mp h
    obtain ⟨digest, hcheck, hnext⟩ := Result.bind_eq_ok.mp hnext
    obtain ⟨hfirst, hstored, hdigest⟩ := checkRow_eq_ok hcheck
    have hfields : next.expectedCursor = s.expectedCursor + 1 ∧ next.previousHash = digest := by
      split at hnext
      · cases hnext
        exact ⟨rfl, rfl⟩
      · obtain ⟨document, -, hnext⟩ := Result.bind_eq_ok.mp hnext
        cases hnext
        exact ⟨rfl, rfl⟩
    obtain ⟨hrows, hchain, hlength⟩ := ih h
    rw [hfields.1] at hrows hlength
    rw [hfields.2] at hchain
    refine ⟨consecutive_cons.mpr ⟨hfirst, hrows⟩, ⟨digest, hstored, hdigest, hchain⟩, ?_⟩
    rw [hlength, List.length_cons]
    omega

theorem Kept.split (h : Kept sha256 l) {cursor : ℕ} (hcursor : cursor ≤ l.inputs.length) :
    ∃ middle last, (l.snapshots.take (cursor + 1)).length = cursor + 1 ∧
      Consecutive 0 (l.snapshots.take (cursor + 1)) ∧
      Consecutive (cursor + 1) (l.snapshots.drop (cursor + 1)) ∧
      Chain sha256 l [] (l.snapshots.take (cursor + 1)) middle ∧
      Chain sha256 l middle (l.snapshots.drop (cursor + 1)) last := by
  obtain ⟨last, hchain⟩ := h.chain
  have hrows := h.rows
  rw [← List.take_append_drop (cursor + 1) l.snapshots] at hchain hrows
  obtain ⟨middle, htake, hdrop⟩ := chain_append.mp hchain
  have hlength : (l.snapshots.take (cursor + 1)).length = cursor + 1 := by
    rw [List.length_take, h.length]
    omega
  obtain ⟨hfirst, hrest⟩ := consecutive_append.mp hrows
  rw [hlength, Nat.zero_add] at hrest
  exact ⟨middle, last, hlength, hfirst, hrest, htake, hdrop⟩

theorem Kept.readFullReport (h : Kept sha256 l) {target : ℕ} (htarget : target ≤ l.inputs.length) :
    readFullReport sha256 l target = rowsDocument (l.snapshots.take (target + 1)) := by
  obtain ⟨middle, last, hlength, hfirst, hrest, htake, hdrop⟩ := h.split htarget
  have hrests : target + 1 + (l.snapshots.drop (target + 1)).length = l.inputs.length + 1 := by
    rw [List.length_drop, h.length]
    omega
  have happly := @readFullRows_apply _ _ target _ null 0 [] middle hfirst htake (by omega)
  have hskip := fun document => @readFullRows_skip _ _ target (l.snapshots.drop (target + 1))
    ⟨document, true, target + 1, middle⟩ last hrest hdrop (Nat.lt_succ_self target)
  unfold Runner.readFullReport rowsDocument
  conv_lhs => rw [← List.take_append_drop (target + 1) l.snapshots]
  have hstart : (⟨null, false, 0, []⟩ : Reading) = ⟨null, decide (0 = target + 1), 0, []⟩ := by
    simp
  rw [List.foldlM_append, hstart, happly, hlength]
  cases (l.snapshots.take (target + 1)).foldlM applyRow null with
  | error e => rfl
  | ok document =>
    have hdone := hskip document
    simp only [Nat.zero_add, decide_true, Result.ok_bind, hdone, hrests]
    rw [refuseIf_pass (not_not.mpr rfl), Result.ok_bind, refuseIf_pass (by decide),
      Result.ok_bind]

theorem kept_of_readFullReport {target : ℕ} {document : Json}
    (h : Runner.readFullReport sha256 l target = .ok document) : Kept sha256 l := by
  obtain ⟨s, hs, h⟩ := Result.bind_eq_ok.mp h
  obtain ⟨⟨⟩, hcount, -⟩ := Result.bind_eq_ok.mp h
  obtain ⟨hrows, hchain, hlength⟩ := readFullRows_eq_ok l.snapshots hs
  have hcommitted : s.expectedCursor = l.inputs.length + 1 := not_not.mp (refuseIf_eq_ok hcount)
  rw [hcommitted, Nat.zero_add] at hlength
  exact ⟨hrows, hlength.symm, s.previousHash, hchain⟩

/-! ## Checkpoints that hold the document of their rows -/

variable (sha256 l) in
/-- The hash of a checkpoint's payload is that of the document of its rows. -/
def Witnesses (c : CheckpointRow) : Prop :=
  c.cursor ≤ l.inputs.length ∧ ∃ document,
    rowsDocument (l.snapshots.take (c.cursor + 1)) = .ok document ∧
      c.payloadHash = sha256 document.dump

theorem refuseCheckpoint_eq_ok {c : Prop} [Decidable c] {code : CheckpointFailureCode} {cursor : ℕ}
    {text : String} {u : Unit} (h : refuseCheckpoint c code cursor text = .ok u) : ¬c := by
  intro hc
  unfold refuseCheckpoint at h
  rw [if_pos hc] at h
  cases h

theorem orRefuse_eq_ok {β : Type} {x : Option β} {code : CheckpointFailureCode} {cursor : ℕ}
    {text : String} {v : β} (h : orRefuse x code cursor text = .ok v) : x = some v := by
  unfold orRefuse at h
  cases x with
  | none => cases h
  | some w => rw [Except.ok.inj h]

theorem toOption_eq_some {β : Type} {x : Except Error β} {v : β} (h : x.toOption = some v) :
    x = .ok v := by
  cases x with
  | error e => cases h
  | ok w => rw [Option.some.inj h]

theorem verifyCheckpoint_eq_ok {c : CheckpointRow} {document : Json}
    (h : verifyCheckpoint sha256 l c = .ok document) :
    sha256 c.payload = c.payloadHash ∧ parseJson c.payload = .ok document ∧
      storedReportDigest l c.cursor = some c.integrityDigest := by
  obtain ⟨⟨⟩, -, h⟩ := Result.bind_eq_ok.mp h
  obtain ⟨⟨⟩, hhash, h⟩ := Result.bind_eq_ok.mp h
  obtain ⟨parsed, hparsed, h⟩ := Result.bind_eq_ok.mp h
  obtain ⟨⟨⟩, -, h⟩ := Result.bind_eq_ok.mp h
  obtain ⟨previous, -, h⟩ := Result.bind_eq_ok.mp h
  obtain ⟨⟨⟩, -, h⟩ := Result.bind_eq_ok.mp h
  obtain ⟨stored, hstored, h⟩ := Result.bind_eq_ok.mp h
  obtain ⟨⟨⟩, hdigest, h⟩ := Result.bind_eq_ok.mp h
  obtain ⟨report, -, h⟩ := Result.bind_eq_ok.mp h
  obtain ⟨expected, -, h⟩ := Result.bind_eq_ok.mp h
  obtain ⟨⟨⟩, -, h⟩ := Result.bind_eq_ok.mp h
  rw [← Except.ok.inj h, orRefuse_eq_ok hstored, not_not.mp (refuseCheckpoint_eq_ok hdigest)]
  exact ⟨not_not.mp (refuseCheckpoint_eq_ok hhash), toOption_eq_some (orRefuse_eq_ok hparsed), rfl⟩

/-- A checkpoint failure. -/
def IsCheckpoint : ReadFailure → Prop
  | .checkpoint _ _ _ => True
  | .runtime _ => False

theorem refuseCheckpoint_bind {β : Type} {c : Prop} [Decidable c] {code : CheckpointFailureCode}
    {cursor : ℕ} {text : String} {f : Unit → Except ReadFailure β} {e : ReadFailure}
    (h : (refuseCheckpoint c code cursor text >>= f) = .error e)
    (hf : f () = .error e → IsCheckpoint e) : IsCheckpoint e := by
  unfold refuseCheckpoint at h
  split at h
  · cases h
    trivial
  · exact hf h

theorem orRefuse_bind {β γ : Type} {x : Option β} {code : CheckpointFailureCode} {cursor : ℕ}
    {text : String} {f : β → Except ReadFailure γ} {e : ReadFailure}
    (h : (orRefuse x code cursor text >>= f) = .error e)
    (hf : ∀ v, f v = .error e → IsCheckpoint e) : IsCheckpoint e := by
  unfold orRefuse at h
  cases x with
  | none =>
    cases h
    trivial
  | some v => exact hf v h

theorem verifyCheckpoint_refuses {c : CheckpointRow} {e : ReadFailure}
    (h : verifyCheckpoint sha256 l c = .error e) : IsCheckpoint e := by
  refine refuseCheckpoint_bind h fun h => refuseCheckpoint_bind h fun h => orRefuse_bind h
    fun document h => refuseCheckpoint_bind h fun h => orRefuse_bind h fun previous h =>
    refuseCheckpoint_bind h fun h => orRefuse_bind h fun stored h => refuseCheckpoint_bind h
    fun h => orRefuse_bind h fun report h => orRefuse_bind h fun expected h =>
    refuseCheckpoint_bind h fun h => ?_
  cases h

theorem Consecutive.bounds {first : ℕ} {rows : List (ℕ × Bytes)} (h : Consecutive first rows)
    {row : ℕ × Bytes} (hrow : row ∈ rows) : first ≤ row.1 ∧ row.1 < first + rows.length := by
  have hmem : row.1 ∈ List.range' first rows.length := h ▸ List.mem_map_of_mem hrow
  obtain ⟨i, hi, heq⟩ := List.mem_range'.mp hmem
  omega

/-- The rows between two cursors. -/
theorem Kept.between (h : Kept sha256 l) {cursor target : ℕ} (hcursor : cursor ≤ target)
    (htarget : target ≤ l.inputs.length) :
    l.snapshots.take (target + 1) = l.snapshots.take (cursor + 1)
        ++ l.snapshots.filter fun row => cursor < row.1 ∧ row.1 ≤ target := by
  obtain ⟨-, -, hlength, hfirst, hrest, -, -⟩ := h.split htarget
  have hsplit : l.snapshots.take (target + 1)
      = l.snapshots.take (cursor + 1) ++ (l.snapshots.take (target + 1)).drop (cursor + 1) := by
    conv_lhs => rw [← List.take_append_drop (cursor + 1) (l.snapshots.take (target + 1))]
    rw [List.take_take, Nat.min_eq_left (by omega)]
  have hparts := hfirst
  rw [hsplit] at hparts
  obtain ⟨hbefore, hafter⟩ := consecutive_append.mp hparts
  have hcount : (l.snapshots.take (cursor + 1)).length = cursor + 1 := by
    rw [List.length_take, h.length]
    omega
  have hcount' : ((l.snapshots.take (target + 1)).drop (cursor + 1)).length = target - cursor := by
    rw [List.length_drop, hlength]
    omega
  -- the filter drops the rows up to the checkpoint and those after the target
  have hfilter : l.snapshots.filter (fun row => cursor < row.1 ∧ row.1 ≤ target)
      = (l.snapshots.take (target + 1)).drop (cursor + 1) := by
    conv_lhs => rw [← List.take_append_drop (target + 1) l.snapshots, hsplit]
    rw [List.filter_append, List.filter_append]
    have hnone : (l.snapshots.take (cursor + 1)).filter (fun row => cursor < row.1 ∧ row.1 ≤ target)
        = [] := by
      refine List.filter_eq_nil_iff.mpr fun row hrow => ?_
      have := hbefore.bounds hrow
      simp only [decide_eq_true_eq, not_and]
      omega
    have hall : ((l.snapshots.take (target + 1)).drop (cursor + 1)).filter
          (fun row => cursor < row.1 ∧ row.1 ≤ target)
        = (l.snapshots.take (target + 1)).drop (cursor + 1) := by
      refine List.filter_eq_self.mpr fun row hrow => ?_
      have := hafter.bounds hrow
      simp only [decide_eq_true_eq]
      omega
    have hnone' : (l.snapshots.drop (target + 1)).filter (fun row => cursor < row.1 ∧
      row.1 ≤ target)
        = [] := by
      refine List.filter_eq_nil_iff.mpr fun row hrow => ?_
      have := hrest.bounds hrow
      simp only [decide_eq_true_eq, not_and]
      omega
    rw [hnone, hall, hnone', List.nil_append, List.append_nil]
  rw [hfilter]
  exact hsplit

/-- The texts whose hashes a read with checkpoints compares: the payloads of the checkpoints, and
the printed documents of the rows. -/
def Ledger.checkpointTexts (l : Ledger) : List Bytes :=
  l.checkpoints.map (fun e => e.2.payload) ++
    (List.range (l.snapshots.length + 1)).filterMap fun n =>
      (rowsDocument (l.snapshots.take n)).toOption.map dump

theorem mem_checkpointTexts_payload {e : ℕ × CheckpointRow} (he : e ∈ l.checkpoints) :
    e.2.payload ∈ l.checkpointTexts :=
  List.mem_append_left _ (List.mem_map_of_mem he)

theorem mem_checkpointTexts_document {n : ℕ} (hn : n ≤ l.snapshots.length) {document : Json}
    (h : rowsDocument (l.snapshots.take n) = .ok document) : document.dump ∈ l.checkpointTexts := by
  refine List.mem_append_right _ (List.mem_filterMap.mpr ⟨n, List.mem_range.mpr (by omega), ?_⟩)
  rw [h]
  rfl

/-- A read that refuses a checkpoint, or is a full read but for stale texts. -/
def Reads (read : Except ReadFailure Json) (full : Except Error Json) : Prop :=
  (∃ e, read = .error e ∧ IsCheckpoint e) ∨ ∃ x, read = thrown x ∧ Same x full

theorem Witnesses.document (hfree : Set.InjOn sha256 {text | text ∈ l.checkpointTexts})
    (hkept : Kept sha256 l) (hkeep : rowsKeep null l.snapshots = true) {c : CheckpointRow}
    (hstored : c.payload ∈ l.checkpointTexts) (h : Witnesses sha256 l c) {parsed : Json}
    (hverify : verifyCheckpoint sha256 l c = .ok parsed) :
    ∃ document, rowsDocument (l.snapshots.take (c.cursor + 1)) = .ok document ∧
      Alike parsed document := by
  obtain ⟨hcursor, document, hdocument, hpayload⟩ := h
  obtain ⟨hhash, hparsed, -⟩ := verifyCheckpoint_eq_ok hverify
  have hprinted : document.dump ∈ l.checkpointTexts :=
    mem_checkpointTexts_document (by rw [hkept.length]; omega) hdocument
  have htext : c.payload = document.dump := hfree hstored hprinted (hhash.trans hpayload)
  have hrows : rowsKeep null (l.snapshots.take (c.cursor + 1)) = true := by
    rw [← List.take_append_drop (c.cursor + 1) l.snapshots] at hkeep
    exact rowsKeep_left _ _ hkeep
  have htidy : Tidy document := Tidy.rows _ tidy_null hrows hdocument
  rw [htext, ← dump_bare] at hparsed
  rw [parseJson_dump htidy hparsed]
  exact ⟨document, hdocument, bare_bare document⟩

/-- A read from a checkpoint is a full read. -/
theorem readCheckpointedReport_full (hfree : Set.InjOn sha256 {text | text ∈ l.checkpointTexts})
    (hkept : Kept sha256 l) (hkeep : rowsKeep null l.snapshots = true) {c : CheckpointRow}
    (hstored : c.payload ∈ l.checkpointTexts) (hc : Witnesses sha256 l c) {target : ℕ}
    (hcursor : c.cursor ≤ target) (htarget : target ≤ l.inputs.length) :
    Reads (readCheckpointedReport sha256 l target c) (readFullReport sha256 l target) := by
  unfold readCheckpointedReport
  cases hverify : verifyCheckpoint sha256 l c with
  | error e => exact Or.inl ⟨e, rfl, verifyCheckpoint_refuses hverify⟩
  | ok parsed =>
    refine Or.inr ⟨_, rfl, ?_⟩
    obtain ⟨document, hdocument, halike⟩ := hc.document hfree hkept hkeep hstored hverify
    have hbetween := hkept.between hcursor htarget
    obtain ⟨last, -, hlength, hrows, -, hchain, -⟩ := hkept.split htarget
    rw [hbetween] at hrows hchain
    obtain ⟨middle, hbefore, hafter⟩ := chain_append.mp hchain
    obtain ⟨-, hrest⟩ := consecutive_append.mp hrows
    have hcount : (l.snapshots.take (c.cursor + 1)).length = c.cursor + 1 := by
      rw [List.length_take, hkept.length]
      omega
    rw [hcount, Nat.zero_add] at hrest
    -- the chain up to the checkpoint ends with its digest
    have hmiddle : middle = c.integrityDigest := by
      have hne : l.snapshots.take (c.cursor + 1) ≠ [] := by
        intro hnil
        rw [hnil] at hcount
        cases hcount
      obtain ⟨front, row, hfront⟩ := List.eq_nil_or_concat' _ |>.resolve_left hne
      have hlast : row.1 = c.cursor := by
        have hrows' := (consecutive_append.mp hrows).1
        rw [hfront] at hrows' hcount
        obtain ⟨-, hrow⟩ := consecutive_append.mp hrows'
        rw [List.length_append, List.length_singleton] at hcount
        have := (consecutive_cons.mp hrow).1
        omega
      rw [hfront] at hbefore
      have hstored := hbefore.last_stored
      rw [hlast, (verifyCheckpoint_eq_ok hverify).2.2] at hstored
      exact (Option.some.inj hstored).symm
    have hlen := congrArg List.length hbetween
    rw [hlength, List.length_append, hcount] at hlen
    rw [hmiddle] at hafter
    have hsuffix := @readSuffixRows _ _ _ ⟨parsed, false, c.cursor + 1, c.integrityDigest⟩ last
      hrest hafter
    rw [hsuffix, hkept.readFullReport htarget, hbetween]
    unfold rowsDocument at hdocument ⊢
    rw [List.foldlM_append, hdocument, Result.ok_bind]
    have hdone : ∀ x : Except Error Json, ((x >>= fun document =>
          (.ok ⟨document, false, c.cursor + 1 + (l.snapshots.filter fun row =>
            c.cursor < row.1 ∧ row.1 ≤ target).length, last⟩ : Except Error Reading))
              >>= fun s => do
          refuseIf (s.expectedCursor ≠ target + 1) "cumulative report delta hole"
          .ok s.document) = x := by
      intro x
      cases x with
      | error e => rfl
      | ok document =>
        rw [Result.ok_bind, Result.ok_bind, refuseIf_pass (not_not.mpr hlen.symm), Result.ok_bind]
    rw [hdone]
    exact applyRows_alike _ halike

/-! ## Sound ledgers -/

variable (sha256 l) in
/-- What the runner's calls keep of a ledger: one with checkpoints has all its rows, chained, and
where no two of some texts collide and the rows leave nothing stale, each checkpoint holds the
document of its own. -/
structure Sound (texts : List Bytes) : Prop where
  count : l.inputs.length ≤ sqliteMax
  keys : ∀ e ∈ l.checkpoints, e.1 = e.2.cursor
  kept : l.checkpoints ≠ [] → Kept sha256 l
  witnesses : Set.InjOn sha256 {text | text ∈ texts} → rowsKeep null l.snapshots = true →
    ∀ e ∈ l.checkpoints, Witnesses sha256 l e.2

theorem nearestCheckpoint_eq {target : ℕ} (htarget : target ≤ sqliteMax) :
    nearestCheckpoint l target
      = .ok ((l.checkpoints.filter fun e => e.1 ≤ target).getLast?.map Prod.snd) := by
  unfold nearestCheckpoint bindInteger
  rw [refuseIf_pass (by omega), Result.ok_bind]

theorem Sound.readReportDocument {texts : List Bytes} (h : Sound sha256 l texts)
    (hfree : Set.InjOn sha256 {text | text ∈ texts}) (htexts : l.checkpointTexts ⊆ texts)
    (hkeep : rowsKeep null l.snapshots = true) {target : ℕ} (htarget : target ≤ l.inputs.length)
    (useCheckpoints checkpointsAvailable : Bool) :
    Reads (readReportDocument sha256 l target useCheckpoints checkpointsAvailable)
      (readFullReport sha256 l target) := by
  unfold Runner.readReportDocument
  split
  · rw [nearestCheckpoint_eq (htarget.trans h.count)]
    cases hlast : (l.checkpoints.filter fun e => e.1 ≤ target).getLast? with
    | none => exact Or.inr ⟨_, rfl, rfl⟩
    | some e =>
      have hmem := List.mem_filter.mp (List.mem_of_getLast? hlast)
      have hcursor : e.2.cursor ≤ target := by
        rw [← h.keys e hmem.1]
        exact of_decide_eq_true hmem.2
      exact readCheckpointedReport_full (hfree.mono fun _ ht => htexts ht)
        (h.kept (List.ne_nil_of_mem hmem.1)) hkeep (mem_checkpointTexts_payload hmem.1)
        (h.witnesses hfree hkeep e hmem.1) hcursor htarget
  · exact Or.inr ⟨_, rfl, rfl⟩

theorem orFull_thrown {β : Type} (x : Except Error β) (full : Except ReadFailure β) :
    orFull (thrown x) full = thrown x := by
  cases x with
  | error e => rfl
  | ok v => rfl

theorem orFull_checkpoint {β : Type} {e : ReadFailure} (he : IsCheckpoint e)
    (full : Except ReadFailure β) : orFull (.error e) full = full := by
  cases e with
  | runtime text => exact he.elim
  | checkpoint code cursor text => rfl

theorem thrown_bind {β γ : Type} (x : Except Error β) (f : β → Except Error γ) :
    (thrown x >>= fun v => thrown (f v)) = thrown (x >>= f) := by
  cases x with
  | error e => rfl
  | ok v => rfl

section

variable {β : Type} {read : Except ReadFailure Json} {full : Except Error Json}
  {f : Json → Except Error β}

theorem Reads.fall_back (h : Reads read full) (hf : ∀ a b, Alike a b → f a = f b) :
    orFull (read >>= fun document => thrown (f document))
        (thrown full >>= fun document => thrown (f document))
      = thrown full >>= fun document => thrown (f document) := by
  rcases h with ⟨e, rfl, he⟩ | ⟨x, rfl, hx⟩
  · rw [Result.error_bind]
    exact orFull_checkpoint he _
  · rw [thrown_bind, thrown_bind, orFull_thrown, hx.bind_eq hf]

theorem Reads.fall_back_first (h : Reads read full) (hf : ∀ a b, Alike a b → f a = f b) :
    (orFull read (thrown full) >>= fun document => thrown (f document))
      = thrown full >>= fun document => thrown (f document) := by
  rcases h with ⟨e, rfl, he⟩ | ⟨x, rfl, hx⟩
  · rw [orFull_checkpoint he]
  · rw [orFull_thrown, thrown_bind, thrown_bind, hx.bind_eq hf]

end

/-! ## Exports do not see stale texts -/

theorem Json.Alike.token {a b : Json} (h : Alike a b) (hkind : b.kind = .number) :
    a.value = b.value := by
  have hvalue := congrArg Json.value h
  rw [bare_value, bare_value, h.kind, hkind] at hvalue
  exact hvalue

theorem Json.Alike.signed {a b : Json} (h : Alike a b) : a.signed = b.signed := by
  unfold Json.signed
  rw [h.kind]
  split
  · rename_i hkind
    rw [h.token hkind]
  · rfl

theorem Json.Alike.real {R : Type} (m : EquityMetrics R) {a b : Json} (h : Alike a b) :
    a.real m = b.real m := by
  unfold Json.real
  rw [h.kind]
  split
  · rename_i hkind
    rw [h.token hkind]
  · rfl

theorem equityPoint_alike {R : Type} (m : EquityMetrics R) {a b : Json} (h : Alike a b) :
    equityPoint m a = equityPoint m b := by
  unfold equityPoint
  refine (h.atKey _).bind_eq fun v w hvw => ?_
  rw [hvw.signed]
  congr 1
  funext timeMs
  refine (h.atKey _).bind_eq fun v w hvw => ?_
  rw [hvw.real m]
  congr 1
  funext equity
  refine (h.atKey _).bind_eq fun v w hvw => ?_
  rw [hvw.real m]

theorem equityPoints_alike {R : Type} (m : EquityMetrics R) : ∀ {items items' : List Json},
    items.map bare = items'.map bare → items.mapM (equityPoint m) = items'.mapM (equityPoint m)
  | [], [], _ => rfl
  | [], _ :: _, h => by cases h
  | _ :: _, [], h => by cases h
  | a :: items, b :: items', h => by
    obtain ⟨hab, hrest⟩ := List.cons.inj h
    rw [List.mapM_cons, List.mapM_cons, equityPoint_alike m hab, equityPoints_alike m hrest]

theorem refreshReportRatios_alike {R : Type} (m : EquityMetrics R) {a b : Json} (h : Alike a b)
    (zone : Bytes) : Same (refreshReportRatios m a zone) (refreshReportRatios m b zone) := by
  have hreport : Alike (a.member (ascii "report")) (b.member (ascii "report")) := h.getD _
  have hmetrics := hreport.getD (ascii "metrics")
  have hequity := hmetrics.getD (ascii "equity")
  unfold refreshReportRatios
  refine (h.atKey _).bind fun v w hvw => (hvw.atKey _).bind fun points points' hpoints => ?_
  rw [hpoints.kind, equityPoints_alike m hpoints.items]
  refine same_bind _ fun _ => same_bind _ fun curve => same_bind _ fun result => same_ok ?_
  refine setMember_alike h _ (setMember_alike hreport _ (setMember_alike hmetrics _ ?_))
  exact setMember_alike (setMember_alike (setMember_alike (setMember_alike hequity _ rfl) _ rfl)
    _ rfl) _ rfl

/-- Documents that print alike are exported alike. -/
theorem exportDocument_alike {R : Type} (m : EquityMetrics R) (target : ℕ) {a b : Json}
    (h : Alike a b) : exportDocument m l target a = exportDocument m l target b := by
  have hrefresh : ∀ zone : Bytes, ∀ f : Json → Json, (∀ v w, Alike v w → Alike (f v) (f w)) →
      (refreshReportRatios m a zone >>= fun document =>
        (.ok (f document).dump : Except Error Bytes))
        = refreshReportRatios m b zone >>= fun document => .ok (f document).dump := by
    intro zone f hf
    exact (refreshReportRatios_alike m h zone).bind_eq fun v w hvw => by rw [(hf v w hvw).dump]
  have hfind := h.find (ascii "ratios_as_of_input")
  unfold exportDocument Json.find
  rw [h.kind]
  split
  · rw [Result.ok_bind, Result.ok_bind]
    cases ha : Assoc.find (ascii "ratios_as_of_input") a.members with
    | some v =>
      cases hb : Assoc.find (ascii "ratios_as_of_input") b.members with
      | none =>
        rw [ha, hb] at hfind
        cases hfind
      | some w =>
        refine (h.atKey _).bind_eq fun v w hvw => (hvw.atKey _).bind_eq fun v w hvw => ?_
        rw [hvw.text]
        congr 1
        funext zone
        exact hrefresh zone _ fun v w hvw => setMember_alike hvw _ rfl
    | none =>
      cases hb : Assoc.find (ascii "ratios_as_of_input") b.members with
      | some w =>
        rw [ha, hb] at hfind
        cases hfind
      | none =>
        have hplain := fun zone => hrefresh zone (fun document => document) fun v w hvw => hvw
        simp only [h.dump, hplain]
  · rfl

theorem deltaBase_alike (target : ℕ) {a b : Json} (h : Alike a b) :
    deltaBase l target a = deltaBase l target b := by
  have hbase : ∀ ratios : Json,
      (object (Assoc.ofFields [(ascii "document", a), (ascii "ratios", ratios),
        (ascii "schema_version", string (ascii "pineforge-native-report-base/v2"))])).dump
      = (object (Assoc.ofFields [(ascii "document", b), (ascii "ratios", ratios),
        (ascii "schema_version", string (ascii "pineforge-native-report-base/v2"))])).dump := by
    intro ratios
    refine Alike.dump (alike_mk rfl rfl ?_)
    unfold Assoc.ofFields
    simp only [List.foldl_cons, List.foldl_nil]
    exact alike_put (alike_put (alike_put rfl h) rfl) rfl
  unfold deltaBase
  simp only [hbase]

end

end PineForge.Runner
