import Mathlib.Data.List.Infix
import PineForge.Runner.Checkpoints

/-!
# Ledgers of whole runs

Commits, replayed reports, recovered checkpoints, opens and altered payloads keep a ledger sound, so
with checkpoints its exports are those of a full read for as long as no row leaves anything stale.
-/

namespace PineForge.Runner

open Json

section

variable {sha256 : Bytes → Bytes} {l l' : Ledger} {texts : List Bytes}

/-! ## Rows that are added -/

theorem reportIntegrity_append {cursor : ℕ} (hcursor : cursor ≤ l.inputs.length)
    (hidentity : l'.identity = l.identity) (hinputs : l.inputs <+: l'.inputs)
    (payload previous : Bytes) :
    reportIntegrity sha256 l' cursor payload previous
      = reportIntegrity sha256 l cursor payload previous := by
  unfold reportIntegrity
  rw [hidentity]
  cases cursor with
  | zero => rfl
  | succ index =>
    obtain ⟨rest, hrest⟩ := hinputs
    have hget : l'.inputs[index]? = l.inputs[index]? := by
      rw [← hrest, List.getElem?_append_left (by omega)]
    simp only [hget]

theorem Chain.mono {rows : List (ℕ × Bytes)} (hidentity : l'.identity = l.identity)
    (hinputs : l.inputs <+: l'.inputs)
    (hstored : ∀ row ∈ rows, storedReportDigest l' row.1 = storedReportDigest l row.1)
    (hrows : ∀ row ∈ rows, row.1 ≤ l.inputs.length) : ∀ {previous last : Bytes},
    Chain sha256 l previous rows last → Chain sha256 l' previous rows last := by
  induction rows with
  | nil =>
    intro previous last h
    exact h
  | cons row rows ih =>
    intro previous last h
    obtain ⟨digest, hdigest, hintegrity, hchain⟩ := h
    have hmem : row ∈ row :: rows := List.mem_cons_self
    refine ⟨digest, (hstored row hmem).trans hdigest, ?_, ?_⟩
    · rw [reportIntegrity_append (hrows row hmem) hidentity hinputs]
      exact hintegrity
    · exact ih (fun r hr => hstored r (List.mem_cons_of_mem _ hr))
        (fun r hr => hrows r (List.mem_cons_of_mem _ hr)) hchain

theorem Kept.congr (h : Kept sha256 l) (hidentity : l'.identity = l.identity)
    (hinputs : l'.inputs = l.inputs) (hsnapshots : l'.snapshots = l.snapshots)
    (hintegrity : l'.integrity = l.integrity) : Kept sha256 l' := by
  obtain ⟨last, hchain⟩ := h.chain
  refine ⟨hsnapshots ▸ h.rows, by rw [hsnapshots, hinputs, h.length], last, ?_⟩
  rw [hsnapshots]
  refine Chain.mono hidentity (hinputs ▸ List.prefix_refl _)
    (fun row _ => by unfold storedReportDigest; rw [hintegrity]) (fun row hrow => ?_) hchain
  have := (h.rows.bounds hrow).2
  rw [h.length] at this
  omega

/-- What checking a digest leaves of a ledger. -/
structure Checked (sha256 : Bytes → Bytes) (l l' : Ledger) (cursor : ℕ) (payload : Bytes) :
    Prop where
  same : l' = { l with integrity := l'.integrity }
  digest : ∃ digest, reportIntegrity sha256 l cursor payload (previousHash l cursor) = .ok digest ∧
    storedReportDigest l' cursor = some digest
  others : ∀ k, k ≠ cursor → storedReportDigest l' k = storedReportDigest l k
  stored : (storedReportDigest l cursor).isSome → l' = l

theorem verifyReportIntegrity_eq_ok {cursor : ℕ} {payload : Bytes}
    (h : verifyReportIntegrity sha256 l cursor payload = .ok l') :
    Checked sha256 l l' cursor payload := by
  obtain ⟨digest, hdigest, h⟩ := Result.bind_eq_ok.mp h
  cases hstored : storedReportDigest l cursor with
  | some stored =>
    rw [hstored] at h
    obtain ⟨⟨⟩, hsame, h⟩ := Result.bind_eq_ok.mp h
    cases h
    have heq : stored = digest := not_not.mp (refuseIf_eq_ok hsame)
    exact ⟨rfl, ⟨digest, hdigest, by rw [hstored, heq]⟩, fun _ _ => rfl, fun _ => rfl⟩
  | none =>
    rw [hstored] at h
    cases h
    refine ⟨rfl, ⟨digest, hdigest, Assoc.find_put_self _ _ _⟩, fun k hk => ?_, fun hsome => ?_⟩
    · exact Assoc.find_put_ne hk _ _
    · rw [hstored] at hsome
      cases hsome

theorem Kept.row (h : Kept sha256 l) {cursor : ℕ} (hcursor : cursor ≤ l.inputs.length) :
    (Assoc.find cursor l.snapshots).isSome ∧ (storedReportDigest l cursor).isSome := by
  have hmem : cursor ∈ l.snapshots.map Prod.fst := by
    rw [h.rows, h.length]
    exact List.mem_range'.mpr ⟨cursor, by omega, by omega⟩
  obtain ⟨row, hrow, rfl⟩ := List.mem_map.mp hmem
  refine ⟨Assoc.find_isSome_of_mem hrow, ?_⟩
  obtain ⟨last, hchain⟩ := h.chain
  obtain ⟨before, after, hsplit⟩ := List.append_of_mem hrow
  rw [hsplit] at hchain
  obtain ⟨middle, -, digest, hstored, -⟩ := chain_append.mp hchain
  rw [hstored]
  rfl

theorem Kept.last (h : Kept sha256 l) :
    ∃ last, Chain sha256 l [] l.snapshots last ∧
      storedReportDigest l l.inputs.length = some last := by
  obtain ⟨last, hchain⟩ := h.chain
  have hne : l.snapshots ≠ [] := by
    intro hnil
    have := h.length
    rw [hnil] at this
    cases this
  obtain ⟨front, row, hfront⟩ := List.eq_nil_or_concat' _ |>.resolve_left hne
  have hrow : row.1 = l.inputs.length := by
    have hrows := h.rows
    have hlength := h.length
    rw [hfront] at hrows hlength
    rw [List.length_append, List.length_singleton] at hlength
    have := (consecutive_cons.mp (consecutive_append.mp hrows).2).1
    omega
  have hlast := hchain
  rw [hfront] at hlast
  have hstored := hlast.last_stored
  rw [hrow] at hstored
  exact ⟨last, hchain, hstored⟩

/-- A committed input extends the chain. -/
theorem Kept.insert (h : Kept sha256 l) {input : InputRow} {report : Bytes}
    (hchecked : Checked sha256 { l with
        inputs := l.inputs ++ [input],
        snapshots := Assoc.put (l.inputs.length + 1) report l.snapshots } l'
      (l.inputs.length + 1) report) :
    Kept sha256 l' ∧ l'.inputs = l.inputs ++ [input] ∧
      l'.snapshots = l.snapshots ++ [(l.inputs.length + 1, report)] := by
  have hput : Assoc.put (l.inputs.length + 1) report l.snapshots
      = l.snapshots ++ [(l.inputs.length + 1, report)] := by
    refine Assoc.put_last fun e he => ?_
    have := (h.rows.bounds he).2
    rw [h.length] at this
    omega
  have hinputs := congrArg Ledger.inputs hchecked.same
  have hsnapshots := congrArg Ledger.snapshots hchecked.same
  have hidentity := congrArg Ledger.identity hchecked.same
  dsimp only at hinputs hsnapshots hidentity
  rw [hput] at hsnapshots
  refine ⟨⟨?_, ?_, ?_⟩, hinputs, hsnapshots⟩
  · rw [hsnapshots, consecutive_append, h.length, Nat.zero_add]
    exact ⟨h.rows, consecutive_cons.mpr ⟨rfl, rfl⟩⟩
  · rw [hsnapshots, hinputs, List.length_append, List.length_append, h.length]
    rfl
  · obtain ⟨last, hchain, hlast⟩ := h.last
    obtain ⟨digest, hdigest, hstored⟩ := hchecked.digest
    refine ⟨digest, ?_⟩
    rw [hsnapshots, chain_append]
    have hbound : ∀ row ∈ l.snapshots, row.1 ≤ l.inputs.length := by
      intro row hrow
      have := (h.rows.bounds hrow).2
      rw [h.length] at this
      omega
    have hpre : l.inputs <+: l'.inputs := ⟨[input], hinputs.symm⟩
    have hkeeps : Chain sha256 l' [] l.snapshots last :=
      Chain.mono hidentity hpre
        (fun row hrow => hchecked.others row.1 (by have := hbound row hrow; omega)) hbound hchain
    refine ⟨last, hkeeps, digest, hstored, ?_, rfl⟩
    have hprevious : previousHash { l with
        inputs := l.inputs ++ [input],
        snapshots := Assoc.put (l.inputs.length + 1) report l.snapshots } (l.inputs.length + 1)
        = last := by
      rw [previousHash]
      exact congrArg (fun o : Option Bytes => o.getD []) hlast
    rw [hprevious] at hdigest
    rw [← hdigest]
    refine @reportIntegrity_append _ { l with
      inputs := l.inputs ++ [input],
      snapshots := Assoc.put (l.inputs.length + 1) report l.snapshots } l' _ ?_ hidentity ?_ _ _
    · simp only [List.length_append, List.length_singleton, le_refl]
    · rw [hinputs]

/-! ## Checkpoints that are built -/

theorem readFullRows_found {target : ℕ} (rows : List (ℕ × Bytes)) : ∀ {s t : Reading},
    rows.foldlM (readFullRow sha256 l target) s = .ok t → t.found = true →
    s.found = true ∨ ∃ row ∈ rows, row.1 = target := by
  induction rows with
  | nil =>
    intro s t h hfound
    cases h
    exact Or.inl hfound
  | cons row rows ih =>
    intro s t h hfound
    rw [List.foldlM_cons] at h
    obtain ⟨next, hnext, h⟩ := Result.bind_eq_ok.mp h
    obtain ⟨digest, -, hnext⟩ := Result.bind_eq_ok.mp hnext
    rcases ih h hfound with hfound | ⟨r, hr, hrow⟩
    · split at hnext
      · cases hnext
        exact Or.inl hfound
      · obtain ⟨document, -, hnext⟩ := Result.bind_eq_ok.mp hnext
        cases hnext
        exact Or.inr ⟨row, List.mem_cons_self, of_decide_eq_true hfound⟩
    · exact Or.inr ⟨r, List.mem_cons_of_mem _ hr, hrow⟩

theorem readFullReport_eq_ok {target : ℕ} {document : Json}
    (h : readFullReport sha256 l target = .ok document) :
    Kept sha256 l ∧ target ≤ l.inputs.length ∧
      rowsDocument (l.snapshots.take (target + 1)) = .ok document := by
  have hkept := kept_of_readFullReport h
  have htarget : target ≤ l.inputs.length := by
    obtain ⟨s, hs, hrest⟩ := Result.bind_eq_ok.mp h
    obtain ⟨⟨⟩, -, hrest⟩ := Result.bind_eq_ok.mp hrest
    obtain ⟨⟨⟩, hfound, -⟩ := Result.bind_eq_ok.mp hrest
    have hfound : s.found = true := Bool.eq_true_of_not_eq_false (refuseIf_eq_ok hfound)
    rcases readFullRows_found _ hs hfound with hfalse | ⟨row, hrow, rfl⟩
    · cases hfalse
    · have := (hkept.rows.bounds hrow).2
      rw [hkept.length] at this
      omega
  exact ⟨hkept, htarget, hkept.readFullReport htarget ▸ h⟩

theorem thrown_eq_ok {β : Type} {x : Except Error β} {v : β} (h : thrown x = .ok v) :
    x = .ok v := by
  cases x with
  | error e => cases h
  | ok w => rw [Except.ok.inj h]

theorem readReportDocument_full (target : ℕ) (checkpointsAvailable : Bool) :
    readReportDocument sha256 l target false checkpointsAvailable
      = thrown (readFullReport sha256 l target) := rfl

theorem readReportDocument_none (hnone : l.checkpoints = []) {target : ℕ} {document : Json}
    (h : orFull (readReportDocument sha256 l target true true)
      (readReportDocument sha256 l target false false) = .ok document) :
    readFullReport sha256 l target = .ok document := by
  have hread : readReportDocument sha256 l target true true
      = thrown (bindInteger target >>= fun _ => readFullReport sha256 l target) := by
    unfold readReportDocument nearestCheckpoint
    rw [hnone]
    cases bindInteger target with
    | error e => rfl
    | ok u => rfl
  rw [hread, orFull_thrown] at h
  obtain ⟨-, -, h⟩ := Result.bind_eq_ok.mp (thrown_eq_ok h)
  exact h

/-- What a checkpoint is made of. -/
theorem prepareReportCheckpoint_eq_ok {cursor : ℕ} {c : CheckpointRow}
    (h : prepareReportCheckpoint sha256 l cursor = .ok c) :
    ∃ document, orFull (readReportDocument sha256 l cursor true true)
        (readReportDocument sha256 l cursor false false) = .ok document ∧
      c.cursor = cursor ∧ c.payloadHash = sha256 document.dump := by
  have hdone : ∀ digest previous, (orFull (readReportDocument sha256 l cursor true true)
        (readReportDocument sha256 l cursor false false) >>= fun document =>
          if document.dump = [] then
            .error (.runtime (ascii "native ledger report checkpoint payload is empty"))
          else .ok ⟨cursor, digest, previous, sha256 document.dump, document.dump⟩) = .ok c →
      ∃ document, orFull (readReportDocument sha256 l cursor true true)
        (readReportDocument sha256 l cursor false false) = .ok document ∧
      c.cursor = cursor ∧ c.payloadHash = sha256 document.dump := by
    intro digest previous hrest
    obtain ⟨document, hread, hrest⟩ := Result.bind_eq_ok.mp hrest
    split at hrest
    · cases hrest
    · cases hrest
      exact ⟨document, hread, rfl, rfl⟩
  unfold prepareReportCheckpoint at h
  cases hdigest : storedReportDigest l cursor with
  | none =>
    rw [hdigest] at h
    cases h
  | some digest =>
    rw [hdigest] at h
    dsimp only [Result.ok_bind] at h
    by_cases hzero : cursor = 0
    · rw [if_pos hzero] at h
      exact hdone digest [] h
    · rw [if_neg hzero] at h
      cases hprevious : storedReportDigest l (cursor - 1) with
      | none =>
        rw [hprevious] at h
        cases h
      | some previous =>
        rw [hprevious] at h
        dsimp only [Result.ok_bind] at h
        exact hdone digest previous h

theorem Sound.prepare (h : Sound sha256 l texts) (htexts : l.checkpointTexts ⊆ texts) {cursor : ℕ}
    (hcursor : cursor ≤ l.inputs.length ∨ l.checkpoints = []) {c : CheckpointRow}
    (hprepare : prepareReportCheckpoint sha256 l cursor = .ok c) :
    c.cursor = cursor ∧ Kept sha256 l ∧
      (Set.InjOn sha256 {text | text ∈ texts} → rowsKeep null l.snapshots = true →
        Witnesses sha256 l c) := by
  obtain ⟨document, hread, rfl, hhash⟩ := prepareReportCheckpoint_eq_ok hprepare
  refine ⟨rfl, ?_⟩
  · by_cases hnone : l.checkpoints = []
    · obtain ⟨hkept, htarget, hdocument⟩ :=
        readFullReport_eq_ok (readReportDocument_none hnone hread)
      exact ⟨hkept, fun _ _ => ⟨htarget, document, hdocument, hhash⟩⟩
    · have hkept := h.kept hnone
      have htarget := hcursor.resolve_right hnone
      refine ⟨hkept, fun hfree hkeep => ⟨htarget, ?_⟩⟩
      have hreads := h.readReportDocument hfree htexts hkeep htarget true true
      rw [readReportDocument_full] at hread
      -- the read is the full one but for stale texts, which are not printed
      have hfull : ∃ full, readFullReport sha256 l c.cursor = .ok full ∧ Alike document full := by
        rcases hreads with ⟨e, he, hcheckpoint⟩ | ⟨x, hx, hsame⟩
        · rw [he, orFull_checkpoint hcheckpoint] at hread
          exact ⟨document, thrown_eq_ok hread, rfl⟩
        · rw [hx, orFull_thrown] at hread
          rcases hsame.cases with ⟨e, rfl, -⟩ | ⟨a, b, rfl, hb, hab⟩
          · cases hread
          · cases hread
            exact ⟨b, hb, hab⟩
      obtain ⟨full, hok, halike⟩ := hfull
      rw [hkept.readFullReport htarget] at hok
      exact ⟨full, hok, hhash.trans (congrArg sha256 halike.dump)⟩

theorem Sound.write (h : Sound sha256 l texts) (storage : Storage) {c : CheckpointRow}
    (hkept : Kept sha256 l) (hc : Set.InjOn sha256 {text | text ∈ texts} →
      rowsKeep null l.snapshots = true → Witnesses sha256 l c) :
    Sound sha256 (writeReportCheckpoint l storage c) texts := by
  unfold writeReportCheckpoint
  split
  · refine ⟨h.count, ?_, fun _ => hkept.congr rfl rfl rfl rfl, ?_⟩
    · intro e he
      rcases Assoc.mem_put he with rfl | he
      · rfl
      · exact h.keys e he
    · intro hfree hkeep e he
      rcases Assoc.mem_put he with rfl | he
      · exact hc hfree hkeep
      · exact h.witnesses hfree hkeep e he
  · exact h

/-! ## Steps -/

theorem sound_nil (hcount : l.inputs.length ≤ sqliteMax) (hnone : l.checkpoints = []) :
    Sound sha256 l texts := by
  refine ⟨hcount, ?_, fun hne => absurd hnone hne, fun _ _ => ?_⟩
  · rw [hnone]
    exact fun e he => absurd he List.not_mem_nil
  · rw [hnone]
    exact fun e he => absurd he List.not_mem_nil

theorem bindInteger_eq_ok {n : ℕ} {u : Unit} (h : bindInteger n = .ok u) : n ≤ sqliteMax :=
  not_lt.mp (refuseIf_eq_ok h)

theorem Sound.insert (h : Sound sha256 l texts) {input : InputRow} {report : Bytes}
    (hinsert : insertReport sha256 { l with inputs := l.inputs ++ [input] } (l.inputs.length + 1)
      report = .ok l') :
    Sound sha256 l' texts ∧ l'.inputs.length = l.inputs.length + 1 ∧
      l'.checkpoints = l.checkpoints := by
  obtain ⟨⟨⟩, hbind, hinsert⟩ := Result.bind_eq_ok.mp hinsert
  dsimp only at hinsert
  split at hinsert
  · cases hinsert
  · have hchecked := verifyReportIntegrity_eq_ok hinsert
    have hinputs : l'.inputs = l.inputs ++ [input] := congrArg Ledger.inputs hchecked.same
    have hlength : l'.inputs.length = l.inputs.length + 1 := by
      rw [hinputs, List.length_append, List.length_singleton]
    have hcheckpoints : l'.checkpoints = l.checkpoints := by
      rw [hchecked.same]
    refine ⟨?_, hlength, hcheckpoints⟩
    have hcount : l'.inputs.length ≤ sqliteMax := hlength ▸ bindInteger_eq_ok hbind
    by_cases hnone : l.checkpoints = []
    · exact sound_nil hcount (hcheckpoints.trans hnone)
    · have hkept := h.kept hnone
      obtain ⟨hkept', -, hsnapshots⟩ := hkept.insert hchecked
      refine ⟨hcount, hcheckpoints ▸ h.keys, fun _ => hkept', fun hfree hkeep e he => ?_⟩
      rw [hsnapshots] at hkeep
      rw [hcheckpoints] at he
      obtain ⟨hcursor, document, hdocument, hhash⟩ :=
        h.witnesses hfree (rowsKeep_left _ _ hkeep) e he
      refine ⟨by omega, document, ?_, hhash⟩
      rw [hsnapshots, List.take_append_of_le_length (by rw [hkept.length]; omega)]
      exact hdocument

theorem writeReportCheckpoint_snapshots (storage : Storage) (c : CheckpointRow) :
    (writeReportCheckpoint l storage c).snapshots = l.snapshots := by
  unfold writeReportCheckpoint
  split <;> rfl

/-- The rows of one ledger and the checkpoints of another have no other texts. -/
theorem checkpointTexts_between {a b : Ledger} (hcheckpoints : l.checkpoints = a.checkpoints)
    (hsnapshots : l.snapshots = b.snapshots) (ha : a.checkpointTexts ⊆ texts)
    (hb : b.checkpointTexts ⊆ texts) : l.checkpointTexts ⊆ texts := by
  intro text htext
  unfold Ledger.checkpointTexts at htext ha hb
  rw [hcheckpoints, hsnapshots] at htext
  rcases List.mem_append.mp htext with htext | htext
  · exact ha (List.mem_append_left _ htext)
  · exact hb (List.mem_append_right _ htext)

/-- A commit keeps the checkpoints sound. -/
theorem Sound.commitInput (h : Sound sha256 l texts) (hbefore : l.checkpointTexts ⊆ texts)
    (hafter : l'.checkpointTexts ⊆ texts) {index : ℕ} {canonicalJson : Bytes} {stateHash : ℕ}
    {events : List Event} {report : Bytes} {storage : Storage} (hreport : report ≠ [])
    (hcommit : commitInput sha256 l index canonicalJson stateHash events report storage = .ok l') :
    Sound sha256 l' texts := by
  obtain ⟨⟨⟩, -, hcommit⟩ := Result.bind_eq_ok.mp hcommit
  obtain ⟨⟨⟩, -, hcommit⟩ := Result.bind_eq_ok.mp hcommit
  obtain ⟨⟨⟩, -, hcommit⟩ := Result.bind_eq_ok.mp hcommit
  cases hold : l.inputs[index]? with
  | some old =>
    rw [hold] at hcommit
    dsimp only [replayInput] at hcommit
    split at hcommit
    · cases hcommit
      exact h
    · cases hcommit
  | none =>
    rw [hold] at hcommit
    obtain ⟨⟨⟩, hindex, hcommit⟩ := Result.bind_eq_ok.mp hcommit
    obtain rfl : index = l.inputs.length := not_not.mp (refuseIf_eq_ok hindex)
    split at hcommit
    · cases hcommit
    · obtain ⟨l₁, hinput, hcommit⟩ := Result.bind_eq_ok.mp hcommit
      obtain ⟨⟨⟩, -, hinput⟩ := Result.bind_eq_ok.mp hinput
      split at hinput
      · cases hinput
        obtain ⟨l₂, hinsert, hcommit⟩ := Result.bind_eq_ok.mp hcommit
        obtain ⟨hsound, hlength, hcheckpoints⟩ := h.insert hinsert
        split at hcommit
        · split at hcommit
          · rename_i c hprepare
            cases hcommit
            have htexts := checkpointTexts_between hcheckpoints
              (writeReportCheckpoint_snapshots storage c).symm hbefore hafter
            obtain ⟨-, hkept, hwitness⟩ := hsound.prepare htexts (Or.inl hlength.ge) hprepare
            exact hsound.write storage hkept hwitness
          · cases hcommit
            exact hsound
        · cases hcommit
          exact hsound
      · cases hinput

/-- A verification keeps the checkpoints sound. -/
theorem Sound.verifyReport (h : Sound sha256 l texts) {cursor : ℕ} {report : Bytes}
    {legacy : Option Bytes} {storage : Storage}
    (hverify : verifyReport sha256 l cursor report legacy storage = .ok l') :
    Sound sha256 l' texts := by
  obtain ⟨⟨⟩, hcursor, hverify⟩ := Result.bind_eq_ok.mp hverify
  have hcursor : cursor ≤ l.inputs.length :=
    not_lt.mp fun hlt => refuseIf_eq_ok hcursor (Or.inr hlt)
  -- a checked row, with or without a row that is added
  have hchecks : ∀ {snapshots : List (ℕ × Bytes)} {payload : Bytes},
      ((Assoc.find cursor l.snapshots).isSome → snapshots = l.snapshots) →
      verifyReportIntegrity sha256 { l with snapshots } cursor payload = .ok l' →
      Sound sha256 l' texts := by
    intro snapshots payload hsnapshots hintegrity
    have hchecked := verifyReportIntegrity_eq_ok hintegrity
    by_cases hnone : l.checkpoints = []
    · refine sound_nil ?_ ?_
      · rw [hchecked.same]
        exact h.count
      · rw [hchecked.same]
        exact hnone
    · obtain ⟨hrow, hstored⟩ := (h.kept hnone).row hcursor
      rw [hchecked.stored hstored, hsnapshots hrow]
      exact h
  split at hverify
  · cases hverify
  · cases hfind : Assoc.find cursor l.snapshots with
    | none =>
      rw [hfind] at hverify
      refine hchecks (fun hsome => ?_) hverify
      rw [hfind] at hsome
      cases hsome
    | some stored =>
      rw [hfind] at hverify
      dsimp only at hverify
      split at hverify
      · exact hchecks (fun _ => rfl) hverify
      · obtain ⟨old, -, hverify⟩ := Result.bind_eq_ok.mp hverify
        split at hverify
        · obtain ⟨value, -, hverify⟩ := Result.bind_eq_ok.mp hverify
          obtain ⟨schema, -, hverify⟩ := Result.bind_eq_ok.mp hverify
          obtain ⟨⟨⟩, -, hverify⟩ := Result.bind_eq_ok.mp hverify
          exact hchecks (fun _ => rfl) hverify
        · cases hverify

theorem Sound.checkpointRecoveredReport (h : Sound sha256 l texts)
    (htexts : l.checkpointTexts ⊆ texts) (cursor : ℕ) (storage : Storage) :
    Sound sha256 (checkpointRecoveredReport sha256 l cursor storage) texts := by
  unfold Runner.checkpointRecoveredReport
  split
  · exact h
  · rename_i hgo
    have hnone : l.checkpoints = [] := not_not.mp fun hne => hgo (Or.inr (Or.inl hne))
    split
    · rename_i c hprepare
      obtain ⟨-, hkept, hwitness⟩ := h.prepare htexts (Or.inr hnone) hprepare
      exact h.write storage hkept hwitness
    · exact h

theorem Sound.alterPayload (h : Sound sha256 l texts) (cursor : ℕ) (payload : Bytes) :
    Sound sha256 { l with checkpoints := l.checkpoints.map fun e =>
      if e.1 = cursor then (e.1, { e.2 with payload }) else e } texts := by
  have hrow : ∀ e ∈ l.checkpoints.map (fun e =>
      if e.1 = cursor then (e.1, { e.2 with payload }) else e), ∃ e' ∈ l.checkpoints,
        e.1 = e'.1 ∧ e.2.cursor = e'.2.cursor ∧ e.2.payloadHash = e'.2.payloadHash := by
    intro e he
    obtain ⟨e', he', rfl⟩ := List.mem_map.mp he
    refine ⟨e', he', ?_⟩
    split
    · exact ⟨rfl, rfl, rfl⟩
    · exact ⟨rfl, rfl, rfl⟩
  refine ⟨h.count, fun e he => ?_, fun hne => ?_, fun hfree hkeep e he => ?_⟩
  · obtain ⟨e', he', hkey, hcursor, -⟩ := hrow e he
    rw [hkey, hcursor]
    exact h.keys e' he'
  · refine (h.kept fun hnil => hne ?_).congr rfl rfl rfl rfl
    dsimp only
    rw [hnil]
    rfl
  · obtain ⟨e', he', -, hcursor, hhash⟩ := hrow e he
    obtain ⟨hle, document, hdocument, hpayload⟩ := h.witnesses hfree hkeep e' he'
    exact ⟨hcursor ▸ hle, document, hcursor ▸ hdocument, hhash.trans hpayload⟩

theorem Sound.orKeep (h : Sound sha256 l texts) {x : Except Error Ledger}
    (hx : ∀ l', x = .ok l' → l.orKeep x = l' → Sound sha256 l' texts) :
    Sound sha256 (l.orKeep x) texts := by
  cases x with
  | error e => exact h
  | ok l' => exact hx l' rfl rfl

theorem Sound.step (h : Sound sha256 l texts) {step : LedgerStep}
    (hbefore : l.checkpointTexts ⊆ texts)
    (hafter : (l.step sha256 step).checkpointTexts ⊆ texts) (hreport : step.carriesReport) :
    Sound sha256 (l.step sha256 step) texts := by
  cases step with
  | commitInput index canonicalJson stateHash events report storage =>
    refine h.orKeep fun l' hcommit heq => h.commitInput hbefore ?_ hreport hcommit
    rw [← heq]
    exact hafter
  | verifyReport cursor report legacy storage => 
    exact h.orKeep fun l' hverify _ => h.verifyReport hverify
  | checkpointRecoveredReport cursor storage =>
    exact h.checkpointRecoveredReport hbefore cursor storage
  | reopen checkpointInterval =>
    exact ⟨h.count, h.keys, fun hne => (h.kept hne).congr rfl rfl rfl rfl, h.witnesses⟩
  | alterPayload cursor payload => exact h.alterPayload cursor payload

/-- The texts whose hashes are compared in a run. -/
def runTexts (sha256 : Bytes → Bytes) (identity : Bytes) (checkpointInterval : ℕ)
    (steps : List LedgerStep) : List Bytes :=
  steps.inits.flatMap fun before =>
    (Ledger.run sha256 identity checkpointInterval before).checkpointTexts

theorem sound_run (identity : Bytes) (checkpointInterval : ℕ) {steps : List LedgerStep}
    (hreports : ∀ step ∈ steps, step.carriesReport)
    (htexts : runTexts sha256 identity checkpointInterval steps ⊆ texts) :
    Sound sha256 (Ledger.run sha256 identity checkpointInterval steps) texts := by
  induction steps using List.reverseRecOn with
  | nil => exact sound_nil (Nat.zero_le _) rfl
  | append_singleton steps step ih =>
    have hstates : ∀ before, before <+: steps ++ [step] →
        (Ledger.run sha256 identity checkpointInterval before).checkpointTexts ⊆ texts :=
      fun before hpre text htext =>
        htexts (List.mem_flatMap.mpr ⟨before, (List.mem_inits _ _).mpr hpre, htext⟩)
    have hrun : Ledger.run sha256 identity checkpointInterval (steps ++ [step])
        = (Ledger.run sha256 identity checkpointInterval steps).step sha256 step := by
      unfold Ledger.run
      rw [List.foldl_append, List.foldl_cons, List.foldl_nil]
    have hsound := ih (fun s hs => hreports s (List.mem_append_left _ hs)) fun text htext => by
      obtain ⟨before, hpre, htext⟩ := List.mem_flatMap.mp htext
      exact hstates before (((List.mem_inits _ _).mp hpre).trans (List.prefix_append _ _)) htext
    rw [hrun]
    refine hsound.step (hstates steps (List.prefix_append _ _)) ?_
      (hreports step (List.mem_append_right _ (List.mem_singleton_self _)))
    rw [← hrun]
    exact hstates _ (List.prefix_refl _)

/-- In every run whose inputs carry reports, a ledger with checkpoints has a snapshot for each
cursor from zero to the last input, and the digests stored of them chain. -/
theorem checkpoints_of_run (sha256 : Bytes → Bytes) (identity : Bytes) (checkpointInterval : ℕ)
    {steps : List LedgerStep} (hreports : ∀ step ∈ steps, step.carriesReport)
    (hsome : (Ledger.run sha256 identity checkpointInterval steps).checkpoints ≠ []) :
    Kept sha256 (Ledger.run sha256 identity checkpointInterval steps) :=
  (sound_run identity checkpointInterval hreports (List.Subset.refl _)).kept hsome

/-! ## Exports with checkpoints -/

/-- With checkpoints, the exports of a committed cursor are byte for byte those of a full read, in
every run whose rows leave nothing stale in the documents of the rows before them. -/
theorem checkpoints_invisible {R : Type} (m : EquityMetrics R) (identity : Bytes)
    (checkpointInterval : ℕ) {steps : List LedgerStep}
    (hfree : Set.InjOn sha256 {text | text ∈ runTexts sha256 identity checkpointInterval steps})
    (hreports : ∀ step ∈ steps, step.carriesReport)
    (hkeep : rowsKeep null (Ledger.run sha256 identity checkpointInterval steps).snapshots = true)
    (checkpoints : Bool) (cursor : Option ℕ)
    (hcursor : cursor.getD (Ledger.run sha256 identity checkpointInterval steps).inputs.length
      ≤ (Ledger.run sha256 identity checkpointInterval steps).inputs.length) :
    reportJson sha256 m (Ledger.run sha256 identity checkpointInterval steps) checkpoints cursor
        = reportJsonFull sha256 m (Ledger.run sha256 identity checkpointInterval steps) checkpoints
          cursor ∧
      reportDeltaBaseJson sha256 (Ledger.run sha256 identity checkpointInterval steps) checkpoints
          cursor false
        = reportDeltaBaseJson sha256 (Ledger.run sha256 identity checkpointInterval steps)
          checkpoints cursor true := by
  have hsound := sound_run identity checkpointInterval hreports
    (List.Subset.refl (runTexts sha256 identity checkpointInterval steps))
  have htexts : (Ledger.run sha256 identity checkpointInterval steps).checkpointTexts
      ⊆ runTexts sha256 identity checkpointInterval steps := fun text htext =>
    List.mem_flatMap.mpr ⟨steps, (List.mem_inits _ _).mpr (List.prefix_refl _), htext⟩
  generalize Ledger.run sha256 identity checkpointInterval steps = l
    at hkeep hcursor hsound htexts ⊢
  have hreads := fun use => hsound.readReportDocument hfree htexts hkeep hcursor use checkpoints
  constructor
  · unfold reportJson reportJsonFull exportReport
    exact (hreads _).fall_back fun a b hab => exportDocument_alike m _ hab
  · unfold reportDeltaBaseJson
    refine ((hreads _).fall_back_first fun a b hab => deltaBase_alike _ hab).trans ?_
    dsimp only
    rw [Bool.not_true, readReportDocument_full, orFull_thrown]

end

/-! ## A row that hides members -/

/-- A v1 delta of some fields and arrays. -/
def deltaRow (fields arrays : String) : Bytes :=
  ascii "\x7b\"schema_version\":\"pineforge-native-report-delta/v1\",\"fields\":" ++ ascii fields
    ++ ascii ",\"arrays\":" ++ ascii arrays ++ ascii "\x7d"

/-- A storage on which every call succeeds. -/
def takesAll : Storage := ⟨true, true, true⟩

/-- The rows of `trades` are put over an object with a member, which a later row shows again. -/
def hidingRun : List LedgerStep :=
  [.verifyReport 0 (deltaRow "\x7b\x7d" "\x7b\x7d") none takesAll,
   .commitInput 0 (ascii "a") 0 [] (deltaRow "\x7b\"report\":\x7b\"trades\":\x7b\"x\":1\x7d\x7d\x7d"
     "\x7b\"trades\":\x7b\"offset\":0,\"items\":[]\x7d\x7d") takesAll,
   .commitInput 1 (ascii "b") 0 [] (deltaRow "\x7b\"report\":\x7b\"trades\":\x7b\"y\":2\x7d\x7d\x7d"
     "\x7b\x7d") takesAll]

/-- Metrics that are not asked. -/
def noMetrics : EquityMetrics Unit := ⟨fun _ => .ok (), fun _ _ => .error []⟩

/-- A digest of sixty-four hexadecimal digits. -/
def sampleHash (text : Bytes) : Bytes :=
  let code := text.foldl (fun n b => (n * 257 + b.toNat + 1) % 2 ^ 256) 0
  (List.range 64).map fun i => (ascii "0123456789abcdef").getD (code / 16 ^ i % 16) 0

theorem hidingRun_reports : ∀ step ∈ hidingRun, step.carriesReport := by
  intro step hstep
  simp only [hidingRun, List.mem_cons, List.not_mem_nil, or_false] at hstep
  rcases hstep with rfl | rfl | rfl
  · trivial
  · exact List.cons_ne_nil _ _
  · exact List.cons_ne_nil _ _

/-- A checkpoint forgets the members its rows hid. -/
theorem checkpoint_forgets_hidden :
    (∀ step ∈ hidingRun, step.carriesReport) ∧
      Set.InjOn sampleHash {text | text ∈ runTexts sampleHash (ascii "d") 1 hidingRun} ∧
      (Ledger.run sampleHash (ascii "d") 1 hidingRun).inputs.length = 2 ∧
      reportJson sampleHash noMetrics (Ledger.run sampleHash (ascii "d") 1 hidingRun) true none
        = .ok (ascii "\x7b\"report\":\x7b\"trades\":\x7b\"y\":2\x7d\x7d\x7d") ∧
      reportJsonFull sampleHash noMetrics (Ledger.run sampleHash (ascii "d") 1 hidingRun) true none
        = .ok (ascii "\x7b\"report\":\x7b\"trades\":\x7b\"x\":1,\"y\":2\x7d\x7d\x7d") := by
  refine ⟨hidingRun_reports, ?_, by decide +kernel, by decide +kernel, by decide +kernel⟩
  have hfree : ∀ x ∈ runTexts sampleHash (ascii "d") 1 hidingRun,
      ∀ y ∈ runTexts sampleHash (ascii "d") 1 hidingRun, sampleHash x = sampleHash y → x = y := by
    decide +kernel
  exact fun x hx y hy h => hfree x hx y hy h

/-- Rows that leave nothing stale. -/
def plainRun : List LedgerStep :=
  [.verifyReport 0 (deltaRow "\x7b\x7d" "\x7b\x7d") none takesAll,
   .commitInput 0 (ascii "a") 0 [] (deltaRow "\x7b\"x\":1\x7d"
     "\x7b\"trades\":\x7b\"offset\":0,\"items\":[1]\x7d\x7d") takesAll,
   .commitInput 1 (ascii "b") 0 [] (deltaRow "\x7b\"y\":2\x7d"
     "\x7b\"trades\":\x7b\"offset\":1,\"items\":[2]\x7d\x7d") takesAll]

theorem plainRun_reports : ∀ step ∈ plainRun, step.carriesReport := by
  intro step hstep
  simp only [plainRun, List.mem_cons, List.not_mem_nil, or_false] at hstep
  rcases hstep with rfl | rfl | rfl
  · trivial
  · exact List.cons_ne_nil _ _
  · exact List.cons_ne_nil _ _

theorem checkpoints_invisible_plain :
    (Ledger.run sampleHash (ascii "d") 1 plainRun).checkpoints.length = 2 ∧
      reportJson sampleHash noMetrics (Ledger.run sampleHash (ascii "d") 1 plainRun) true (some 2)
        = reportJsonFull sampleHash noMetrics (Ledger.run sampleHash (ascii "d") 1 plainRun) true
          (some 2) := by
  refine ⟨by decide +kernel, ?_⟩
  have hfree : ∀ x ∈ runTexts sampleHash (ascii "d") 1 plainRun,
      ∀ y ∈ runTexts sampleHash (ascii "d") 1 plainRun, sampleHash x = sampleHash y → x = y := by
    decide +kernel
  exact (checkpoints_invisible noMetrics (ascii "d") 1 (fun x hx y hy h => hfree x hx y hy h)
    plainRun_reports (by decide +kernel) true (some 2) (by decide +kernel)).1

theorem checkpoints_of_run_plain : Kept sampleHash (Ledger.run sampleHash (ascii "d") 1 plainRun) :=
  checkpoints_of_run sampleHash (ascii "d") 1 plainRun_reports (by decide +kernel)

end PineForge.Runner
