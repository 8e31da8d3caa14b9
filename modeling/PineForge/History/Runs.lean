import Mathlib
import PineForge.History.Visits

/-!
# Runs of an owner

What a history is for: the published records in order, a pending one and a candidate (`Log`).
However the calls of a run end, the extent holds the log: the committed records are dense by their
logical offsets, and the pending record and the candidate stand behind them.
-/

namespace PineForge.History

open Window

/-! ## The log -/

/-- The records as callers see them. -/
structure Log where
  candidate : Option Record := none
  pending : Option Record := none
  published : List Record := []

/-- What a call does to the log; a call that does not return does nothing. -/
def Log.step (l : Log) (returned : Bool) : Call → Log
  | .stage kind source => if returned then { l with candidate := some ⟨kind, source.bytes⟩ } else l
  | .accept =>
    match l.candidate with
    | none => l
    | some r => { l with candidate := none, pending := some r }
  | .discard => { l with candidate := none }
  | .publish _ =>
    match l.pending with
    | none => l
    | some r => { l with pending := none, published := l.published ++ [r] }
  | .abandon => { l with pending := none }
  | .visit _ => l

/-- A guard is accepted once; a publication names the kind of the pending record, and neither it nor
an abandonment comes while a guard is held. -/
def Call.Allowed (l : Log) : Call → Prop
  | .accept => l.candidate.isSome
  | .publish kind => l.candidate = none ∧ l.pending.map Record.kind = some kind
  | .abandon => l.candidate = none
  | _ => True

/-! ## What the extent holds -/

/-- A record that stands behind the committed ones: at its logical place, or behind that place. -/
structure Staged (st : Owner) (c : Candidate) (r : Record) : Prop where
  kind : c.kind = r.kind
  span : c.span = spanOf r.payload.length
  finish : c.finish = c.start + spanOf r.payload.length
  logicalEnd : c.logicalEnd = st.committedBytes + spanOf r.payload.length
  place : c.start = st.committedBytes ∨ c.logicalEnd ≤ c.start
  extent : c.finish ≤ st.extentBytes
  record : RecordAt st.file c.start st.ownerId r (st.committedRecords + 1) st.committedBytes

/-- The pending record as its guard had it. -/
def Owner.pendingGuard (st : Owner) : Candidate :=
  ⟨st.pendingStart, st.pendingEnd, st.pendingLogicalEnd, st.pendingBytes, st.pendingKind⟩

/-- The committed records and the pending one. -/
structure Kept (st : Owner) (l : Log) : Prop where
  placed : st.Placed
  owner : st.ownerId ≤ wordMax
  log : Laid st.view st.ownerId st.committedBytes 0 0 l.published
  count : st.committedRecords = l.published.length
  whole : st.relocated = true → st.relocationBytes % pageBytes = 0
  alone : st.relocated = true → st.pending = false
  pending : st.pending = l.pending.isSome
  pendingRecord : ∀ r, l.pending = some r → Staged st st.pendingGuard r

/-- The owner stores the log. -/
structure Inv (st : Owner) (l : Log) : Prop extends Kept st l where
  staging : st.staging = l.candidate.isSome
  guard : st.candidate.isSome = l.candidate.isSome
  still : l.candidate.isSome → st.relocated = false
  candidateRecord : ∀ r c, l.candidate = some r → st.candidate = some c → Staged st c r

/-- The positions of what a preparation must not change. -/
def Owner.Held (st : Owner) (i : ℕ) : Prop :=
  (i < st.committedBytes ∧ (st.relocated = true → i < st.relocationLogical)) ∨
    (st.relocated = true ∧ st.relocationStart ≤ i ∧ i < st.relocationStart + st.relocationBytes) ∨
    (st.pending = true ∧ st.pendingStart ≤ i ∧ i < st.pendingEnd)

/-! ## Content that a record keeps -/

/-- What no committed or pending record depends on. -/
structure Aside where
  io : List Outcome
  figures : Figures
  staging : Bool
  candidate : Option Candidate
  visited : List (RecordKind × RecordSource)

/-- The owner with a moved file and its asides. -/
def Owner.moved (st : Owner) (file : ℕ → Fin 256) (aside : Aside) : Owner :=
  { st.after file aside.io aside.figures with
    staging := aside.staging
    candidate := aside.candidate
    visited := aside.visited }

theorem RecordAt.congr {content content' : ℕ → Fin 256} {offset ownerId : ℕ} {r : Record}
    {sequence start : ℕ}
    (h : RecordAt content offset ownerId r sequence start)
    (hsame : ∀ i, offset ≤ i → i < offset + spanOf r.payload.length → content i = content' i) :
    RecordAt content' offset ownerId r sequence start := by
  rw [RecordAt, ← h]
  exact window_congr fun i hlow hhigh => (hsame i hlow hhigh).symm

theorem span_whole (size : ℕ) : spanOf size % pageBytes = 0 := by
  rw [spanOf, ← Nat.mul_comm pageBytes 2, ← Nat.mul_add, Nat.mul_mod_right]

/-! ## The compaction -/

theorem compactRelocation_idle {st : Owner} (h : st.relocated = false) :
    compactRelocation st = (.ok (), st) := by
  unfold compactRelocation
  rw [Command.get_bind_apply, h]
  rfl

/-- The copy goes to the logical place of the displaced record, which no record that is read
takes. -/
theorem compactRelocation_displaced {st : Owner} (hplaced : st.Placed)
    (hrelocated : st.relocated = true)
    (hwhole : st.relocationBytes % pageBytes = 0) (halone : st.pending = false) :
    ∃ file io figures, (∀ i, st.Held i → file i = st.file i) ∧
      ((compactRelocation st
            = (.ok (), { st.after file io figures with relocated := false, relocationBytes := 0 }) ∧
          ∀ i, i < st.committedBytes → file i = st.view i) ∨
        ∃ failure, compactRelocation st
          = (.error (.thrown failure), st.after file io figures)) := by
  obtain ⟨hend, hbehind, hextent⟩ := hplaced.displaced hrelocated
  have hpages : pageBytes * (st.relocationBytes / pageBytes) = st.relocationBytes :=
    Nat.mul_div_cancel' (Nat.dvd_of_mod_eq_zero hwhole)
  have hcopy := writes_copyPages (st.relocationBytes / pageBytes) st st.relocationStart
    st.relocationLogical
    (by omega)
  rw [hpages] at hcopy
  have hrun : compactRelocation st = (copyPages st.relocationStart st.relocationLogical
      (st.relocationBytes / pageBytes) >>= fun _ =>
        Command.modify fun st => { st with relocated := false, relocationBytes := 0 }) st := by
    unfold compactRelocation
    rw [Command.get_bind_apply, if_pos hrelocated]
    unfold terminateIf
    rw [if_neg (by rw [halone]; decide), if_neg (by omega)]
    rfl
  obtain ⟨file, io, figures, hstate, hframe, hresult⟩ := hcopy
  refine ⟨file, io, figures, ?_, ?_⟩
  · intro i hi
    refine hframe i ?_
    rcases hi with ⟨hlt, hbefore⟩ | ⟨-, hlow, hhigh⟩ | ⟨hpending, -, -⟩
    · exact .inl (hbefore hrelocated)
    · exact .inr (by omega)
    · rw [halone] at hpending
      cases hpending
  · rcases hresult with ⟨_, hreturns, hcopied⟩ | ⟨failure, hthrows⟩
    · refine .inl ⟨?_, ?_⟩
      · rw [hrun, Command.bind_ok (Prod.ext hreturns hstate)]
        rfl
      · intro i hi
        rcases Nat.lt_or_ge i st.relocationLogical with hlow | hhigh
        · rw [hframe i (.inl hlow), view_of_placed fun _ => hlow]
        · have hplace := hcopied (i - st.relocationLogical) (by omega)
          rw [Nat.add_sub_cancel' hhigh] at hplace
          rw [hplace, view_of_displaced hrelocated hhigh]
    · refine .inr ⟨failure, ?_⟩
      rw [hrun, Command.bind_error (Prod.ext hthrows hstate)]
      rfl

/-! ## Preparations -/

section

variable {st : Owner} {l : Log}

theorem Kept.view_held (h : Kept st l) {i : ℕ} (hi : i < st.committedBytes) :
    ∃ j, st.Held j ∧ st.view i = st.file j ∧ ∀ file aside, (st.moved file aside).view i
      = file j := by
  by_cases hdisplaced : st.relocated = true ∧ st.relocationLogical ≤ i
  · obtain ⟨hend, hbehind, hextent⟩ := h.placed.displaced hdisplaced.1
    refine ⟨_, .inr (.inl ⟨hdisplaced.1, ?_, ?_⟩), if_pos hdisplaced,
      fun file aside => if_pos hdisplaced⟩
    · omega
    · omega
  · refine ⟨i, .inl ⟨hi, fun hrelocated => ?_⟩, if_neg hdisplaced,
      fun file aside => if_neg hdisplaced⟩
    by_contra hle
    exact hdisplaced ⟨hrelocated, by omega⟩

theorem Staged.moved {c : Candidate} {r : Record} (h : Staged st c r) {file : ℕ → Fin 256}
    (aside : Aside)
    (hsame : ∀ i, c.start ≤ i → i < c.finish → file i = st.file i) :
    Staged (st.moved file aside) c r := by
  refine ⟨h.kind, h.span, h.finish, h.logicalEnd, h.place, h.extent,
    h.record.congr fun i hlow hhigh => ?_⟩
  exact (hsame i hlow (by rw [h.finish]; exact hhigh)).symm

/-- A change outside the held bytes keeps the log. -/
theorem Kept.moved (h : Kept st l) {file : ℕ → Fin 256} (aside : Aside)
    (hsame : ∀ i, st.Held i → file i = st.file i) : Kept (st.moved file aside) l where
  placed := ⟨h.placed.committed, h.placed.extent, h.placed.displaced⟩
  owner := h.owner
  log := by
    refine h.log.congr fun i hi => ?_
    obtain ⟨j, hheld, hview, hmoved⟩ := h.view_held hi
    rw [hview, hmoved, hsame j hheld]
  count := h.count
  whole := h.whole
  alone := h.alone
  pending := h.pending
  pendingRecord := by
    intro r hr
    have hpending : st.pending = true := by rw [h.pending, hr]; rfl
    exact (h.pendingRecord r hr).moved aside fun i hlow hhigh =>
      hsame i (.inr (.inr ⟨hpending, hlow, hhigh⟩))

theorem Kept.compacted (h : Kept st l) (hrelocated : st.relocated = true) {file : ℕ → Fin 256}
    {io : List Outcome} {figures : Figures}
    (hcopied : ∀ i, i < st.committedBytes → file i = st.view i) :
    Kept { st.after file io figures with relocated := false, relocationBytes := 0 } l where
  placed := ⟨h.placed.committed, h.placed.extent, fun hfalse => by cases hfalse⟩
  owner := h.owner
  log := h.log.congr fun i hi => (hcopied i hi).symm
  count := h.count
  whole := fun hfalse => by cases hfalse
  alone := fun hfalse => by cases hfalse
  pending := h.pending
  pendingRecord := by
    intro r hr
    have hpending := h.pending
    rw [hr, h.alone hrelocated] at hpending
    cases hpending

theorem Kept.pending_behind (h : Kept st l) (hpending : st.pending = true) :
    st.committedBytes ≤ st.pendingStart := by
  obtain ⟨r, hr⟩ := Option.isSome_iff_exists.mp (h.pending ▸ hpending)
  have hstaged := h.pendingRecord r hr
  have hend : st.pendingLogicalEnd = st.committedBytes + spanOf r.payload.length :=
    hstaged.logicalEnd
  rcases hstaged.place with hplace | hplace
  · exact le_of_eq hplace.symm
  · have hbehind : st.pendingLogicalEnd ≤ st.pendingStart := hplace
    omega

theorem Kept.outside_place (h : Kept st l) (hstill : st.relocated = false) {size i : ℕ}
    (hi : st.Held i) :
    i < st.placeOf size ∨ st.placeOf size + spanOf size ≤ i := by
  rcases hi with ⟨hlt, -⟩ | ⟨hrelocated, -, -⟩ | ⟨hpending, hlow, hhigh⟩
  · left
    unfold Owner.placeOf candidateStart
    split
    · omega
    · exact hlt
  · rw [hstill] at hrelocated
    cases hrelocated
  · unfold Owner.placeOf candidateStart
    split
    · omega
    · rename_i hfits
      have hgap : spanOf size ≤ st.pendingStart - st.committedBytes := by
        by_contra hlt
        exact hfits ⟨hpending, by omega⟩
      have hbehind := h.pending_behind hpending
      omega

/-- A record is staged, or the preparation throws; what is held stays either way. -/
theorem Kept.writeCandidate (h : Kept st l) (hstill : st.relocated = false) (kind : RecordKind)
    (source : ByteSource) :
    ∃ file io figures, (History.writeCandidate kind source st).2 = st.after file io figures ∧
      (∀ i, st.Held i → file i = st.file i) ∧
      ((∃ c, (History.writeCandidate kind source st).1 = .ok c ∧
          Staged (st.after file io figures) c ⟨kind, source.bytes⟩) ∨
        ∃ failure, (History.writeCandidate kind source st).1 = .error (.thrown failure)) := by
  have hbehind : ¬(st.pending = true ∧ st.pendingStart < st.committedBytes) := by
    rintro ⟨hpending, hlt⟩
    exact absurd (h.pending_behind hpending) (Nat.not_le.mpr hlt)
  obtain ⟨file, io, figures, hstate, hframe, hresult⟩ :=
    writes_writeCandidate kind source st hbehind
  refine ⟨file, io, figures, hstate, fun i hi => hframe i (h.outside_place hstill hi), ?_⟩
  rcases hresult with ⟨c, hc, rfl, hextent, hfile⟩ | hthrows
  · refine .inl ⟨_, hc, rfl, rfl, rfl, rfl, ?_, hextent, ?_⟩
    · show st.placeOf source.bytes.length = st.committedBytes ∨
        st.committedBytes + spanOf source.bytes.length ≤ st.placeOf source.bytes.length
      unfold Owner.placeOf candidateStart
      split
      · exact .inr (le_max_right ..)
      · exact .inl rfl
    · have hself := window_put_self st.file (st.placeOf source.bytes.length)
        (recordBytes st.ownerId ⟨kind, source.bytes⟩ (st.committedRecords + 1) st.committedBytes)
      rw [length_recordBytes, ← hfile] at hself
      exact hself
  · exact .inr hthrows

/-- The state after a preparation. -/
structure Prepared (st st' : Owner) (l : Log) : Prop where
  kept : Kept st' l
  staging : st'.staging = st.staging
  candidate : st'.candidate = st.candidate

/-- Preparation keeps the log, also where it fails. -/
theorem Kept.prepare (h : Kept st l) (kind : RecordKind) (source : ByteSource) :
    Prepared st (History.prepare kind source st).2 l ∧
      ((∃ c, (History.prepare kind source st).1 = .ok c ∧
        (History.prepare kind source st).2.relocated = false ∧
          Staged (History.prepare kind source st).2 c ⟨kind, source.bytes⟩) ∨
        ∃ failure, (History.prepare kind source st).1 = .error (.thrown failure)) := by
  -- a preparation of a state in which no record is displaced
  have hwrite : ∀ {s : Owner}, Kept s l → s.relocated = false →
      Prepared s (History.writeCandidate kind source s).2 l ∧
        ((∃ c, (History.writeCandidate kind source s).1 = .ok c ∧
            (History.writeCandidate kind source s).2.relocated = false ∧
            Staged (History.writeCandidate kind source s).2 c ⟨kind, source.bytes⟩) ∨
          ∃ failure, (History.writeCandidate kind source s).1 = .error (.thrown failure)) := by
    intro s hs hstill
    obtain ⟨file, io, figures, hstate, hframe, hresult⟩ := hs.writeCandidate hstill kind source
    rw [hstate]
    refine ⟨⟨hs.moved ⟨io, figures, s.staging, s.candidate, s.visited⟩ hframe, rfl, rfl⟩, ?_⟩
    rcases hresult with ⟨c, hc, hstaged⟩ | hthrows
    · exact .inl ⟨c, hc, hstill, hstaged⟩
    · exact .inr hthrows
  unfold History.prepare
  by_cases hrelocated : st.relocated = true
  · obtain ⟨file, io, figures, hframe, hresult⟩ :=
      compactRelocation_displaced h.placed hrelocated (h.whole hrelocated) (h.alone hrelocated)
    rcases hresult with ⟨hrun, hcopied⟩ | ⟨failure, hrun⟩
    · rw [Command.bind_ok hrun]
      obtain ⟨hprepared, hresult⟩ := hwrite (h.compacted hrelocated hcopied) rfl
      exact ⟨⟨hprepared.kept, hprepared.staging, hprepared.candidate⟩, hresult⟩
    · rw [Command.bind_error hrun]
      refine ⟨⟨h.moved ⟨io, figures, st.staging, st.candidate, st.visited⟩ hframe, rfl, rfl⟩,
        .inr ⟨failure, rfl⟩⟩
  · rw [Bool.not_eq_true] at hrelocated
    rw [Command.bind_ok (compactRelocation_idle hrelocated)]
    exact hwrite h hrelocated

end

/-! ## Calls -/

/-- A call that was allowed and has ended, with the log it leaves. -/
structure Ends (m : Action Unit) (st : Owner) (l : Log) (c : Call) : Prop where
  goesOn : (m st).1 ≠ .error .terminate
  inv : Inv (m st).2 (l.step (m st).1.isOk c)

section

variable {st : Owner} {l : Log}

theorem Kept.aside (h : Kept st l) (aside : Aside) : Kept (st.moved st.file aside) l :=
  h.moved aside fun _ _ => rfl

theorem Kept.withCandidate (h : Kept st l) (r : Option Record) :
    Kept st { l with candidate := r } :=
  ⟨h.placed, h.owner, h.log, h.count, h.whole, h.alone, h.pending, h.pendingRecord⟩

theorem Ends.returned {m : Action Unit} {c : Call} {st' : Owner} (hrun : m st = (.ok (), st'))
    (hinv : Inv st' (l.step true c)) : Ends m st l c := by
  refine ⟨?_, ?_⟩
  · rw [hrun]
    simp
  · rw [hrun]
    exact hinv

theorem Ends.thrown {m : Action Unit} {c : Call} {st' : Owner} {failure : Failure}
    (hrun : m st = (.error (.thrown failure), st')) (hinv : Inv st' (l.step false c)) :
    Ends m st l c := by
  refine ⟨?_, ?_⟩
  · rw [hrun]
    simp
  · rw [hrun]
    exact hinv

theorem Inv.released (h : Kept st l) (figures : Figures) :
    Inv (st.moved st.file ⟨st.io, figures, false, none,
    st.visited⟩) { l with candidate := none } where
  toKept := (h.aside _).withCandidate none
  staging := rfl
  guard := rfl
  still := fun hsome => by cases hsome
  candidateRecord := fun r c hr => by cases hr

theorem Log.candidate_none (h : l.candidate = none) : { l with candidate := none } = l := by
  obtain ⟨candidate, pending, published⟩ := l
  cases h
  rfl

theorem Inv.candidate_none (h : Inv st l) (hstaging : st.staging = false) : l.candidate = none := by
  have hl := h.staging
  rw [hstaging] at hl
  exact Option.not_isSome_iff_eq_none.mp (by rw [← hl]; decide)

/-- Staging ends in a record or as before. -/
theorem Inv.stage (h : Inv st l) (kind : RecordKind) (source : ByteSource) :
    Ends (History.stage kind source) st l (.stage kind source) := by
  by_cases hstaging : st.staging = true
  · have hrun : History.stage kind source st = (.error (.thrown .recursivePreparation), st) := by
      unfold History.stage failIf
      rw [Command.get_bind_apply, if_pos hstaging]
      rfl
    exact Ends.thrown hrun h
  · rw [Bool.not_eq_true] at hstaging
    have hnone := h.candidate_none hstaging
    have hkept : Kept { st with staging := true } l :=
      h.toKept.aside ⟨st.io, st.figures, true, st.candidate, st.visited⟩
    have hrun : History.stage kind source st
        = guarded (History.prepare kind source) { st with staging := true } := by
      unfold History.stage failIf
      rw [Command.get_bind_apply, if_neg (by rw [hstaging]; decide)]
      rfl
    obtain ⟨hprepared, hresult⟩ := hkept.prepare kind source
    generalize hprepare : History.prepare kind source { st with staging := true }
      = ended at hprepared hresult
    obtain ⟨result, st'⟩ := ended
    rcases hresult with ⟨c, rfl, hstill, hstaged⟩ | ⟨failure, rfl⟩
    · refine Ends.returned (hrun.trans (by unfold guarded; rw [hprepare])) ?_
      exact {
        toKept := (hprepared.kept.aside ⟨st'.io, st'.figures, st'.staging, some c,
          st'.visited⟩).withCandidate _
        staging := hprepared.staging
        guard := rfl
        still := fun _ => hstill
        candidateRecord := by
          intro r c' hr hc'
          cases hr
          cases hc'
          exact hstaged.moved ⟨st'.io, st'.figures, st'.staging, some c, st'.visited⟩ fun _ _ _ =>
            rfl }
    · have hthrown : History.stage kind source st = (.error (.thrown failure), st'.release) :=
        hrun.trans (by unfold guarded; rw [hprepare])
      refine Ends.thrown hthrown ?_
      have hreleased := Inv.released hprepared.kept { st'.figures with candidate := 0 }
      rw [Log.candidate_none hnone] at hreleased
      exact hreleased

/-- An accepted record is pending. -/
theorem Inv.accept (h : Inv st l) (hallowed : Call.Allowed l .accept) :
    Ends History.accept st l .accept := by
  obtain ⟨r, hr⟩ := Option.isSome_iff_exists.mp hallowed
  obtain ⟨c, hc⟩ := Option.isSome_iff_exists.mp (show st.candidate.isSome
    = true by rw [h.guard, hr]; rfl)
  have hstaged := h.candidateRecord r c hr hc
  have hstill := h.still (by rw [hr]; rfl)
  have hrun : History.accept st = (.ok (), Owner.release { st with
      pendingStart := c.start
      pendingEnd := c.finish
      pendingLogicalEnd := c.logicalEnd
      pendingKind := c.kind
      pending := true
      pendingBytes := c.span }) := by
    unfold History.accept
    rw [Command.get_bind_apply, hc]
    rfl
  refine Ends.returned hrun ?_
  have hlog : l.step true .accept = { l with candidate := none, pending := some r } := by
    rw [Log.step, hr]
  rw [hlog]
  exact {
    placed := ⟨h.placed.committed, h.placed.extent, h.placed.displaced⟩
    owner := h.owner
    log := h.log
    count := h.count
    whole := h.whole
    alone := fun hrelocated => by
      rw [show st.relocated = true from hrelocated] at hstill; cases hstill
    pending := rfl
    pendingRecord := by
      intro r' hr'
      cases hr'
      exact ⟨hstaged.kind, hstaged.span, hstaged.finish, hstaged.logicalEnd, hstaged.place,
        hstaged.extent,
        hstaged.record⟩
    staging := rfl
    guard := rfl
    still := fun hsome => by cases hsome
    candidateRecord := fun _ _ hr' => by cases hr' }

theorem Inv.discard (h : Inv st l) : Ends History.discard st l .discard := by
  cases hc : st.candidate with
  | none =>
    have hrun : History.discard st = (.ok (), st) := by
      unfold History.discard
      rw [Command.get_bind_apply, hc]
      rfl
    refine Ends.returned hrun ?_
    have hnone : l.candidate = none := by
      have hl := h.guard
      rw [hc] at hl
      exact Option.not_isSome_iff_eq_none.mp (by rw [← hl]; decide)
    rw [Log.step, Log.candidate_none hnone]
    exact h
  | some c =>
    have hrun : History.discard st = (.ok (), st.release) := by
      unfold History.discard
      rw [Command.get_bind_apply, hc]
      rfl
    exact Ends.returned hrun (Inv.released h.toKept { st.figures with candidate := 0 })

theorem Inv.abandon (h : Inv st l) (hallowed : Call.Allowed l .abandon) :
    Ends History.abandon st l .abandon := by
  have hnone : l.candidate = none := hallowed
  have hstaging : st.staging = false := by rw [h.staging, hnone]; rfl
  have hrun : History.abandon st = (.ok (), { st with pending := false, pendingBytes := 0 }) := by
    unfold History.abandon terminateIf
    rw [Command.get_bind_apply, if_neg (by rw [hstaging]; decide)]
    rfl
  refine Ends.returned hrun ?_
  exact {
    placed := ⟨h.placed.committed, h.placed.extent, h.placed.displaced⟩
    owner := h.owner
    log := h.log
    count := h.count
    whole := h.whole
    alone := fun _ => rfl
    pending := rfl
    pendingRecord := fun _ hr => by cases hr
    staging := h.staging
    guard := h.guard
    still := h.still
    candidateRecord := fun r c hr => by rw [Log.step, hnone] at hr; cases hr }

/-- The state after a publication. -/
def Owner.published (st : Owner) : Owner :=
  { st with
    relocationLogical := st.committedBytes
    relocationStart := st.pendingStart
    relocated := decide (st.pendingStart ≠ st.committedBytes)
    relocationBytes := if decide (st.pendingStart ≠ st.committedBytes) then st.pendingBytes else 0
    committedBytes := st.pendingLogicalEnd
    committedRecords := st.committedRecords + 1
    pending := false
    pendingBytes := 0 }

theorem view_published (hstill : st.relocated = false) (i : ℕ) :
    (i < st.committedBytes → st.published.view i = st.view i) ∧
      st.published.view (st.committedBytes + i) = st.file (st.pendingStart + i) := by
  have hview : st.view = st.file := by
    funext j
    exact view_of_placed fun h => by rw [hstill] at h; cases h
  constructor
  · intro hi
    rw [hview]
    exact view_of_placed fun _ => hi
  · by_cases hplace : st.pendingStart = st.committedBytes
    · rw [view_of_placed fun h => absurd hplace (of_decide_eq_true h), hplace]
      rfl
    · rw [view_of_displaced (show st.published.relocated = true from decide_eq_true hplace)
        (Nat.le_add_right st.committedBytes i)]
      show st.file (st.pendingStart + (st.committedBytes + i - st.committedBytes)) = _
      rw [Nat.add_sub_cancel_left]

/-- A published record joins the log. -/
theorem Inv.publish (h : Inv st l) {kind : RecordKind} (hallowed : Call.Allowed l (.publish kind)) :
    Ends (History.publish kind) st l (.publish kind) := by
  obtain ⟨hnone, hkind⟩ := hallowed
  obtain ⟨r, hr, hkind⟩ := Option.map_eq_some_iff.mp hkind
  have hstaged := h.pendingRecord r hr
  have hpending : st.pending = true := by rw [h.pending, hr]; rfl
  have hstaging : st.staging = false := by rw [h.staging, hnone]; rfl
  have hstill : st.relocated = false := by
    by_contra hrelocated
    rw [h.alone (by simpa using hrelocated)] at hpending
    cases hpending
  have hpendingKind : st.pendingKind = kind := hstaged.kind.trans hkind
  have hrun : History.publish kind st = (.ok (), st.published) := by
    unfold History.publish terminateIf
    rw [Command.get_bind_apply, if_neg (by simp [hpending, hpendingKind, hstaging, hstill])]
    rfl
  refine Ends.returned hrun ?_
  have hlog : l.step true (.publish kind)
      = { l with pending := none, published := l.published ++ [r] } := by
    rw [Log.step, hr]
  rw [hlog]
  have hend : st.pendingLogicalEnd = st.committedBytes + spanOf r.payload.length :=
    hstaged.logicalEnd
  have hfinish : st.pendingEnd = st.pendingStart + spanOf r.payload.length := hstaged.finish
  have hspan : st.pendingBytes = spanOf r.payload.length := hstaged.span
  have hextent : st.pendingEnd ≤ st.extentBytes := hstaged.extent
  have hbehind := h.pending_behind hpending
  have hplace : st.pendingStart = st.committedBytes ∨ st.pendingLogicalEnd ≤ st.pendingStart :=
    hstaged.place
  exact {
    placed := by
      refine ⟨?_, h.placed.extent, fun hrelocated => ?_⟩
      · show st.pendingLogicalEnd ≤ st.extentBytes
        omega
      · have hapart : st.pendingStart ≠ st.committedBytes := of_decide_eq_true hrelocated
        have hbytes : st.published.relocationBytes = st.pendingBytes :=
          if_pos (decide_eq_true hapart)
        rw [hbytes]
        refine ⟨?_, ?_, ?_⟩
        · show st.committedBytes + st.pendingBytes = st.pendingLogicalEnd
          omega
        · exact hplace.resolve_left hapart
        · show st.pendingStart + st.pendingBytes ≤ st.extentBytes
          omega
    owner := h.owner
    log := by
      have hkept := h.log.congr fun i hi => ((view_published hstill i).1 hi).symm
      have hrecord : RecordAt st.published.view st.committedBytes st.ownerId r
        (0 + l.published.length + 1)
          st.committedBytes := by
        have hshift := window_shift fun i (_ : i < spanOf r.payload.length) =>
          (view_published hstill i).2
        rw [Nat.zero_add, ← h.count]
        exact hshift.trans hstaged.record
      have hsnoc := hkept.snoc l.published hrecord
      rw [← hend] at hsnoc
      exact hsnoc
    count := by
      show st.committedRecords + 1 = (l.published ++ [r]).length
      rw [h.count, List.length_append, List.length_singleton]
    whole := by
      intro hrelocated
      have hbytes : st.published.relocationBytes = st.pendingBytes := if_pos hrelocated
      rw [hbytes, hspan, span_whole]
    alone := fun _ => rfl
    pending := rfl
    pendingRecord := fun _ hr' => by cases hr'
    staging := h.staging
    guard := h.guard
    still := fun hsome => by rw [hnone] at hsome; cases hsome
    candidateRecord := fun r' c hr' => by rw [hnone] at hr'; cases hr' }

/-- A visit hands over the published records, all of them where no system call fails and no answer
stops it. -/
theorem Inv.visitRecords (h : Inv st l) (visit : ℕ → Bool) :
    ∃ n ≤ l.published.length, ∃ io, io <:+ st.io ∧
      (History.visitRecords visit st).2 = (st.seen ((sourcesFrom 0 l.published).take n)).withIo io ∧
      (((History.visitRecords visit st).1 = .ok () ∧
        ((∀ i, visit i = true) → n = l.published.length)) ∨
        (∃ failure, (History.visitRecords visit st).1 = .error (.thrown failure)) ∧ ¬st.Quiet) := by
  have hlength := h.log.offset_le
  have hcommitted := h.placed.committed
  have hextent := h.placed.extent
  have hword : wordMax = 2 ^ 64 - 1 := rfl
  have hvisit := @visitFrom_laid st.Quiet st h.placed id h.owner visit l.published 0 0 [] st.io
    List.suffix_rfl h.log
    (by omega)
  have hrun : History.visitRecords visit st
      = visitFrom visit st.committedBytes l.published.length 0 0 ((st.seen []).withIo st.io) := by
    rw [← h.count]
    rfl
  rw [hrun]
  exact hvisit

theorem Inv.visit (h : Inv st l) (visit : ℕ → Bool) :
    Ends (History.visitRecords visit) st l (.visit visit) := by
  obtain ⟨n, -, io, -, hstate, hresult⟩ := h.visitRecords visit
  have hinv : Inv ((st.seen ((sourcesFrom 0 l.published).take n)).withIo io) l := {
    toKept := h.toKept.aside ⟨io, st.figures, st.staging, st.candidate,
      (sourcesFrom 0 l.published).take n⟩
    staging := h.staging
    guard := h.guard
    still := h.still
    candidateRecord := fun r c hr hc => (h.candidateRecord r c hr hc).moved
      ⟨io, st.figures, st.staging, st.candidate, (sourcesFrom 0 l.published).take n⟩ fun _ _ _ =>
        rfl }
  rcases hresult with ⟨hreturns, -⟩ | ⟨⟨failure, hthrows⟩, -⟩
  · exact Ends.returned (Prod.ext hreturns hstate) hinv
  · exact Ends.thrown (Prod.ext hthrows hstate) hinv

theorem Inv.call (h : Inv st l) {c : Call} (hallowed : c.Allowed l) :
    Ends (History.call c) st l c := by
  cases c with
  | stage kind source => exact h.stage kind source
  | accept => exact h.accept hallowed
  | discard => exact h.discard
  | publish kind => exact h.publish hallowed
  | abandon => exact h.abandon hallowed
  | visit visit => exact h.visit visit

/-- A call that is not allowed terminates. -/
theorem Inv.terminates (h : Inv st l) {c : Call} (hallowed : ¬c.Allowed l) :
    (History.call c st).1 = .error .terminate := by
  cases c with
  | stage kind source => exact absurd trivial hallowed
  | discard => exact absurd trivial hallowed
  | visit visit => exact absurd trivial hallowed
  | accept =>
    have hnone : st.candidate = none := by
      rw [← Option.not_isSome_iff_eq_none, h.guard]
      exact hallowed
    show (History.accept st).1 = _
    unfold History.accept
    rw [Command.get_bind_apply, hnone]
    rfl
  | abandon =>
    have hstaging : st.staging = true := by
      rw [h.staging]
      exact Option.isSome_iff_ne_none.mpr hallowed
    show (History.abandon st).1 = _
    unfold History.abandon terminateIf
    rw [Command.get_bind_apply, if_pos hstaging]
    rfl
  | publish kind =>
    have hguard : st.pending = false ∨ st.pendingKind ≠ kind ∨ st.staging = true ∨
        st.relocated = true := by
      by_cases hstaging : st.staging = true
      · exact .inr (.inr (.inl hstaging))
      · have hnone := h.candidate_none (by simpa using hstaging)
        cases hr : l.pending with
        | none =>
          left
          rw [h.pending, hr]
          rfl
        | some r =>
          refine .inr (.inl fun hkind => hallowed ⟨hnone, ?_⟩)
          rw [hr, Option.map_some, ← (h.pendingRecord r hr).kind]
          exact congrArg some hkind
    show (History.publish kind st).1 = _
    unfold History.publish terminateIf
    rw [Command.get_bind_apply, if_pos hguard]
    rfl

end

/-! ## Every run -/

/-- A new owner of an extent, whatever it holds and whatever the system calls do. -/
def Owner.fresh (file : ℕ → Fin 256) (extentBytes ownerId : ℕ) (io : List Outcome) : Owner :=
  { file, extentBytes, ownerId, io }

/-- The states that calls lead to, with the log they make. -/
inductive Reaches (start : Owner) : Owner → Log → Prop
  | none : Reaches start start {}
  | call {st : Owner} {l : Log} (h : Reaches start st l) (c : Call)
      (hgoesOn : (call c st).1 ≠ .error .terminate) :
      Reaches start (History.call c st).2 (l.step (History.call c st).1.isOk c)

theorem inv_fresh (file : ℕ → Fin 256) {extentBytes ownerId : ℕ} (io : List Outcome)
    (hextent : extentBytes < 2 ^ 63)
    (howner : ownerId ≤ wordMax) : Inv (Owner.fresh file extentBytes ownerId io) {} where
  placed := ⟨Nat.zero_le _, hextent, fun h => by cases h⟩
  owner := howner
  log := rfl
  count := rfl
  whole := fun h => by cases h
  alone := fun h => by cases h
  pending := rfl
  pendingRecord := fun _ h => by cases h
  staging := rfl
  guard := rfl
  still := fun h => by cases h
  candidateRecord := fun _ _ h => by cases h

theorem Reaches.inv {start st : Owner} {l : Log} (h : Reaches start st l) (hstart : Inv start {}) :
    Inv st l := by
  induction h with
  | none => exact hstart
  | @call s l h c hgoesOn ih =>
    by_cases hallowed : c.Allowed l
    · exact (ih.call hallowed).inv
    · exact absurd (ih.terminates hallowed) hgoesOn

/-- A visitor is handed a record: its kind, its size, and a source that reads as its payload. -/
def Owner.Shows (st : Owner) (r : Record) (handed : RecordKind × RecordSource) : Prop :=
  handed.1 = r.kind ∧ handed.2.size = r.payload.length ∧
    ∀ io offset length, (∀ o ∈ io, o = Outcome.ok) →
    offset + length ≤ r.payload.length →
    (handed.2.read offset length (st.withIo io)).1 = .ok ((r.payload.drop offset).take length)

/-- A visit hands over the first of some records in their order, and all of them where no system
call fails and no answer stops it. -/
def Owner.Yields (st : Owner) (records : List Record) : Prop :=
  ∀ visit io, ∃ n ≤ records.length,
    List.Forall₂ st.Shows (records.take n) (visitRecords visit (st.withIo io)).2.visited ∧
    (((visitRecords visit (st.withIo io)).1 = .ok () ∧
      ((∀ i, visit i = true) → n = records.length)) ∨
      (∃ failure, (visitRecords visit (st.withIo io)).1 = .error (.thrown failure)) ∧
        ∃ o ∈ io, o ≠ .ok)

/-- A preparation changes nothing of what is held: neither in the compaction, nor in the writes
after it. -/
def Owner.Spares (st : Owner) (kind : RecordKind) (source : ByteSource) : Prop :=
  (∀ i, st.Held i → (compactRelocation st).2.file i = st.file i) ∧
    ((compactRelocation st).1 = .ok () → ∀ i, (compactRelocation st).2.Held i →
      (writeCandidate kind source (compactRelocation st).2).2.file i
        = (compactRelocation st).2.file i)

section

variable {st : Owner} {l : Log}

theorem shows_sources (hplaced : st.Placed) (records : List Record) : ∀ {index offset : ℕ},
    Laid st.view st.ownerId st.committedBytes index offset records →
    List.Forall₂ st.Shows records (sourcesFrom offset records) := by
  induction records with
  | nil =>
    intro index offset _
    exact .nil
  | cons r records ih =>
    intro index offset h
    refine .cons ⟨rfl, rfl, ?_⟩ (ih h.2)
    intro io skip length hquiet hlength
    have hle := h.2.offset_le
    have hpages := size_le_pages r.payload.length
    have hspan : spanOf r.payload.length = pageBytes * pagesOf r.payload.length + 2 * pageBytes :=
      rfl
    have hplaced' : (st.withIo io).Placed := ⟨hplaced.committed, hplaced.extent, hplaced.displaced⟩
    have hread : Looks True (RecordSource.read ⟨offset + pageBytes, r.payload.length⟩ skip length)
      (st.withIo io)
        fun bytes => bytes = (r.payload.drop skip).take length := by
      unfold RecordSource.read
      refine (looks_failIf (Nat.not_lt.mpr hlength) _).bind fun _ _ => ?_
      refine (looks_read hplaced' (fun _ => hquiet) (by
        show offset + pageBytes + skip + length ≤ st.committedBytes
        omega)).mono fun bytes hbytes => ?_
      rw [hbytes]
      exact h.1.payload hlength
    obtain ⟨io', -, -, ⟨bytes, hbytes, rfl⟩ | ⟨-, hnoisy⟩⟩ := hread io List.suffix_rfl
    · exact hbytes
    · exact absurd trivial hnoisy

theorem Inv.yields (h : Inv st l) : st.Yields l.published := by
  intro visit io
  have hinv : Inv (st.withIo io) l := {
    toKept := h.toKept.aside ⟨io, st.figures, st.staging, st.candidate, st.visited⟩
    staging := h.staging
    guard := h.guard
    still := h.still
    candidateRecord := fun r c hr hc => (h.candidateRecord r c hr hc).moved
      ⟨io, st.figures, st.staging, st.candidate, st.visited⟩ fun _ _ _ => rfl }
  obtain ⟨n, hn, io', -, hstate, hresult⟩ := hinv.visitRecords visit
  refine ⟨n, hn, ?_, ?_⟩
  · rw [hstate]
    exact List.forall₂_take n (shows_sources h.placed l.published h.log)
  · rcases hresult with hreturns | ⟨hthrows, hnoisy⟩
    · exact .inl hreturns
    · refine .inr ⟨hthrows, ?_⟩
      obtain ⟨o, ho⟩ := not_forall.mp hnoisy
      obtain ⟨hmem, hfails⟩ := Classical.not_imp.mp ho
      exact ⟨o, hmem, hfails⟩

theorem Kept.spares (h : Kept st l) (kind : RecordKind) (source : ByteSource) :
    st.Spares kind source := by
  by_cases hrelocated : st.relocated = true
  · obtain ⟨file, io, figures, hframe, hresult⟩ :=
      compactRelocation_displaced h.placed hrelocated (h.whole hrelocated) (h.alone hrelocated)
    rcases hresult with ⟨hrun, hcopied⟩ | ⟨failure, hrun⟩
    · unfold Owner.Spares
      rw [hrun]
      refine ⟨hframe, fun _ i hi => ?_⟩
      obtain ⟨file', io', figures', hstate, hframe', -⟩ :=
        (h.compacted hrelocated hcopied).writeCandidate rfl kind source
      rw [hstate]
      exact hframe' i hi
    · unfold Owner.Spares
      rw [hrun]
      exact ⟨hframe, fun hreturns => by cases hreturns⟩
  · rw [Bool.not_eq_true] at hrelocated
    unfold Owner.Spares
    rw [compactRelocation_idle hrelocated]
    refine ⟨fun _ _ => rfl, fun _ i hi => ?_⟩
    obtain ⟨file, io, figures, hstate, hframe, -⟩ := h.writeCandidate hrelocated kind source
    rw [hstate]
    exact hframe i hi

end

/-- In every state that a run of calls reaches, however its system calls end: a visit yields the
published records in order; a preparation spares the committed records, the pending one and a
displaced one that is not copied yet; and a call terminates just where it is not allowed. -/
theorem history_appendOnly {file : ℕ → Fin 256} {extentBytes ownerId : ℕ} {io : List Outcome}
    (hextent : extentBytes < 2 ^ 63) (howner : ownerId < 2 ^ 64) {st : Owner} {l : Log}
    (h : Reaches (Owner.fresh file extentBytes ownerId io) st l) :
    st.Yields l.published ∧ (∀ kind source, Owner.Spares { st with staging := true } kind source) ∧
      ∀ c, (call c st).1 = .error .terminate ↔ ¬c.Allowed l := by
  have hinv := h.inv (inv_fresh file io hextent (Nat.le_sub_one_of_lt howner))
  refine ⟨hinv.yields, ?_, ?_⟩
  · intro kind source
    exact (hinv.toKept.aside ⟨st.io, st.figures, true, st.candidate, st.visited⟩).spares kind source
  · intro c
    constructor
    · intro hterminates hallowed
      exact (hinv.call hallowed).goesOn hterminates
    · exact hinv.terminates

/-- An extent of eight pages, and an owner of it. -/
def sampleOwner : Owner := Owner.fresh (fun _ => 0) 4096 1 []

/-- A publication without a pending record terminates. -/
theorem publish_terminates :
    Reaches sampleOwner sampleOwner {} ∧ (call (.publish .issued) sampleOwner).1
      = .error .terminate := by
  refine ⟨.none, ?_⟩
  rfl

/-- A source of one byte. -/
def sampleSource (payload : Fin 256) : ByteSource := ⟨[payload], fun _ => false⟩

/-- An owner whose eighteenth system call writes only 100 bytes. -/
def failingOwner : Owner :=
  Owner.fresh (fun _ => 0) 4096 1 (List.replicate 17 .ok ++ [.fails eio 100])

/-- A second record is put behind the pending one, takes its place and is published from there. The
compaction that the next preparation begins with fails, and the record is read from where it was
displaced to. -/
theorem history_appendOnly_displaced : ∃ st l, Reaches failingOwner st l ∧ l.published
    = [⟨.issued, [8]⟩] ∧
    st.relocated = true ∧ (visitRecords (fun _ => true) st).2.visited = [(.issued, ⟨512, 1⟩)] ∧
    st.Yields l.published := by
  have hnone : Reaches failingOwner failingOwner {} := .none
  have hfirst := hnone.call (.stage .issued (sampleSource 7)) (by decide +kernel)
  have hpending := hfirst.call .accept (by decide +kernel)
  have hsecond := hpending.call (.stage .issued (sampleSource 8)) (by decide +kernel)
  have hbeside := hsecond.call .accept (by decide +kernel)
  have hpublished := hbeside.call (.publish .issued) (by decide +kernel)
  have hfailed := hpublished.call (.stage .issued (sampleSource 9)) (by decide +kernel)
  refine ⟨_, _, hfailed, ?_, ?_, ?_, ?_⟩
  · decide +kernel
  · decide +kernel
  · decide +kernel
  · exact (history_appendOnly (by decide) (by decide) hfailed).1

end PineForge.History
