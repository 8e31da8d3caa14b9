import Mathlib
import PineForge.Trades.Erasing

/-!
# The ledger under failures

Over a history of operations, each under its own outcomes of the file operations, an append or a
replacement that fails leaves every row readable as before it, or a ledger that refuses every read
from then on (`failureAtomic_of_meets`). A retiring ledger does so only while the text it erases
lies in its payload file and no erasing write fails: the text of the replaced row goes before its
descriptor in memory does.
-/

namespace PineForge.Trades

open BigEndian ByteFile Command

/-- The descriptor of a row. -/
def recordOf (st : Ledger) (global : ℕ) : Except Failure Record :=
  match st.cachedSlot global with
  | some slot => .ok ((st.entries slot).elim default (·.record))
  | none => descriptorOf st global

/-- What a file read that succeeds returns. -/
theorem readFile_ok {area : Area} {offset length : ℕ} {bytes : Bytes} {st st' : Ledger}
    (h : readFile area offset length st = (.ok bytes, st')) :
    readAt (st.file area) offset length = some bytes ∧ ¬ maxOffset < offset + length := by
  unfold readFile at h
  obtain ⟨u, st1, hcheck, h⟩ := bind_eq_ok h
  rw [checkExtent_eq] at hcheck
  split at hcheck
  · cases hcheck
  · rename_i hextent
    cases hcheck
    refine ⟨?_, hextent⟩
    obtain ⟨o, io, ho, -⟩ := outcome_eq false st
    rw [bind_ok ho] at h
    cases o with
    | fails errno left => cases h
    | ok =>
      dsimp only at h
      rw [get_bind_apply] at h
      have hfile : ({ st with io := io } : Ledger).file area = st.file area := by
        cases area with
        | index => rfl
        | payload => rfl
      rw [hfile] at h
      cases hread : readAt (st.file area) offset length with
      | none =>
        rw [hread] at h
        cases h
      | some found =>
        rw [hread] at h
        cases h
        rfl

theorem uncachedDescriptor_ok {global : ℕ} {record : Record} {st st' : Ledger}
    (h : uncachedDescriptor global st = (.ok record, st')) :
    descriptorOf st global = .ok record := by
  unfold uncachedDescriptor at h
  unfold descriptorOf
  rw [get_bind_apply] at h
  split at h
  · rename_i hresident
    cases h
    rw [if_pos hresident]
  · rename_i hresident
    rw [if_neg hresident]
    obtain ⟨offset, st1, hoffset, h⟩ := bind_eq_ok h
    rw [recordOffset_eq] at hoffset
    split at hoffset
    · cases hoffset
    · rename_i hplace
      cases hoffset
      rw [if_neg hplace]
      obtain ⟨bytes, st2, hread, h⟩ := bind_eq_ok h
      obtain ⟨hbytes, hextent⟩ := readFile_ok hread
      have hfile : st.file .index = st.index := rfl
      rw [hfile] at hbytes
      rw [if_neg hextent, hbytes]
      cases h
      rfl

theorem descriptor_ok {global : ℕ} {record : Record} {st st' : Ledger}
    (h : descriptor global st = (.ok record, st')) : recordOf st global = .ok record := by
  unfold descriptor at h
  unfold recordOf
  rw [get_bind_apply] at h
  cases hcached : st.cachedSlot global with
  | some slot =>
    rw [hcached] at h
    cases h
    rfl
  | none =>
    rw [hcached] at h
    exact uncachedDescriptor_ok h

/-! ## Rows that are kept -/

theorem Kept.alike_of_finish {old new : Ledger} {previous : Option Record}
    (h : Kept old.finish previous old new) :
    Alike old new := by
  refine ⟨h.core, h.payloadEnd, h.payload, fun global hfinish hresident hcached horigin => ?_⟩
  rw [h.others global hfinish.ne horigin]

theorem Kept.alike_of_record {old new : Ledger} {global : ℕ} {record : Record}
    (h : Kept global (some record) old new)
    (hrecord : recordOf old global = .ok record) : Alike old new := by
  refine ⟨h.core, h.payloadEnd, h.payload, fun other hfinish hresident hcached horigin => ?_⟩
  by_cases hother : other = global
  · subst hother
    -- the row is only in the index file, and its descriptor is what was read there
    have hread : (readAt old.index (recordBytes * other - old.indexOrigin) recordBytes).map decode
        = some record := by
      unfold recordOf descriptorOf at hrecord
      rw [hcached] at hrecord
      dsimp only at hrecord
      rw [if_neg (by omega)] at hrecord
      split at hrecord
      · cases hrecord
      · split at hrecord
        · cases hrecord
        · cases hbytes : readAt old.index (recordBytes * other - old.indexOrigin) recordBytes with
          | none =>
            rw [hbytes] at hrecord
            cases hrecord
          | some bytes =>
            rw [hbytes] at hrecord
            exact congrArg some (Except.ok.inj hrecord)
    rw [hread]
    exact h.own record rfl hread
  · rw [h.others other hother horigin]

theorem Still.alike {old new : Ledger} (h : Still old new) : Alike old new :=
  (h.kept old.finish none).alike_of_finish

/-! ## Appends and replacements that fail -/

/-- Refused with a failure, or alike. -/
def Atomic (old : Ledger) (e : Failure) (new : Ledger) : Prop :=
  new.rollbackFailure = some e ∨ Alike old new

theorem remember_row (global : ℕ) (record : Record) (row : Trade) (st : Ledger) :
    ∃ entry st', remember global record (some row) st = (.ok entry, st') := by
  unfold remember packStrings
  rw [get_bind_apply]
  cases st.victimSlot global with
  | none => exact ⟨_, _, rfl⟩
  | some slot =>
    dsimp only
    rw [modify_bind_apply]
    split
    · exact ⟨_, _, rfl⟩
    · exact ⟨_, _, rfl⟩

theorem rememberStored_ok (global : ℕ) (record : Record) (row : Trade) (st : Ledger) :
    ∃ st', rememberStored global record row st = (.ok (), st') := by
  unfold rememberStored
  rw [get_bind_apply]
  split
  · obtain ⟨entry, st', hrun⟩ := remember_row global record row st
    exact ⟨st', bind_ok hrun _⟩
  · exact ⟨st, rfl⟩

theorem pushBack_failed {st st' : Ledger} {row : Trade} {e : Failure}
    (h : pushBack row st = (.error e, st')) :
    Atomic st e st' := by
  unfold pushBack at h
  rw [get_bind_apply] at h
  split at h
  · cases h
    exact .inr (Still.ioFrame.refl st).alike
  · rcases bind_eq_error h with hfail | ⟨record, st1, -, h⟩
    · rcases store_failed hfail with hrefused | hkept
      · exact .inl hrefused
      · exact .inr hkept.alike_of_finish
    · -- nothing after the transaction fails
      rw [modify_bind_apply, modify_bind_apply] at h
      obtain ⟨st2, hrun⟩ := rememberStored_ok st.finish record row _
      cases h.symm.trans hrun

/-- The texts of a row that a replacement may drop lie in the payload file, and no write that erases
text fails. -/
structure DropsWell (st : Ledger) (global : ℕ) : Prop where
  texts : ∀ record, recordOf st global = .ok record → ∀ text ∈ record.texts.toList, Erasable st text
  erasures : ∀ o ∈ st.io.erasures, o = .ok

theorem invalidate_eq (st : Ledger) (global : ℕ) :
    (st.invalidate global).policy = st.policy ∧ (st.invalidate global).payloadOrigin
    = st.payloadOrigin ∧
      (st.invalidate global).payloadRetired = st.payloadRetired ∧ (st.invalidate global).payloadEnd
        = st.payloadEnd ∧
      (st.invalidate global).io = st.io := by
  unfold Ledger.invalidate
  split
  · exact ⟨rfl, rfl, rfl, rfl, rfl⟩
  · exact ⟨rfl, rfl, rfl, rfl, rfl⟩

theorem check_state (global : ℕ) (mutableRow : Bool) (st : Ledger) :
    (check global mutableRow st).2 = st := by
  unfold check
  rw [get_bind_apply]
  cases st.rollbackFailure with
  | some e => rfl
  | none =>
    dsimp only
    split
    · rfl
    · split
      · rfl
      · rfl

theorem eraseDropped_stored {st st1 st2 : Ledger} {global : ℕ} {previous : Record}
    (hmeets : st.policy = .retiring → DropsWell st global) (hst1 : Still st st1)
    (hst2 : Advanced st1 st2)
    (hprevious : recordOf st global = .ok previous) (record : Record) :
    ∃ st', when ((st2.invalidate global).policy = .retiring)
      (eraseDropped previous.texts record.texts)
      (st2.invalidate global) = (.ok (), st') := by
  obtain ⟨hpolicy, horigin, hretired, hend, hio⟩ := invalidate_eq st2 global
  have hadvanced := hst1.advanced.trans hst2
  unfold when
  split
  · rename_i hretiring
    have hst : st.policy = .retiring := by rw [← hadvanced.policy, ← hpolicy, hretiring]
    obtain ⟨htexts, herasures⟩ := hmeets hst
    refine eraseDropped_ok ⟨hretiring, ?_⟩ ?_ record.texts
    · rw [hio, hadvanced.erasures]
      exact herasures
    · intro text htext
      refine (htexts previous hprevious text htext).of_bounds ?_ ?_ ?_
      · rw [horigin, hadvanced.payloadOrigin]
      · rw [hretired, hadvanced.payloadRetired]
      · rw [hend]
        exact hadvanced.payloadEnd
  · exact ⟨_, rfl⟩

theorem replace_failed {st st' : Ledger} {global : ℕ} {row : Trade} {e : Failure}
    (hmeets : st.policy = .retiring → DropsWell st global)
    (h : replace global row st = (.error e, st')) :
    Atomic st e st' := by
  have hR := Still.ioFrame
  have hcheck := check_state global true st
  unfold replace at h
  rcases bind_eq_error h with hfail | ⟨_, st0, hrun, h⟩
  · rw [hfail] at hcheck
    have hst' : st' = st := hcheck
    rw [hst']
    exact .inr (hR.refl st).alike
  rw [hrun] at hcheck
  have hst0 : st0 = st := hcheck
  rw [hst0] at h
  rcases bind_eq_error h with hfail | ⟨previous, st1, hdescriptor, h⟩
  · exact .inr ((hR.refl st).after (still_descriptor global) hfail).alike
  have hprevious := descriptor_ok hdescriptor
  have hst1 := (hR.refl st).after (still_descriptor global) hdescriptor
  rcases bind_eq_error h with hfail | ⟨record, st2, hstore, h⟩
  · rcases store_failed hfail with hrefused | hkept
    · exact .inl hrefused
    · exact .inr ((hkept.of_still hst1).alike_of_record hprevious)
  · -- the descriptor is stored, and nothing after it fails
    rw [modify_bind_apply, get_bind_apply] at h
    obtain ⟨st3, herase⟩ := eraseDropped_stored hmeets hst1 (store_ok hstore) hprevious record
    rw [bind_ok herase, modify_bind_apply, modify_bind_apply] at h
    obtain ⟨st4, hrun⟩ := rememberStored_ok global record row _
    cases h.symm.trans hrun

/-! ## Reads of alike ledgers -/

/-- What a row reads as while no file operation fails. -/
def Ledger.readable (st : Ledger) (global : ℕ) : Except Failure Trade :=
  (read global { st with io := quiet }).1

/-- What is seen of a row while no file operation fails. -/
def Ledger.viewable (st : Ledger) (global : ℕ) : Except Failure Trade :=
  (materialize global { st with io := quiet }).1

theorem readable_eq (st : Ledger) (global : ℕ) : st.readable global = readingOf st global := by
  have hio : ({ st with io := quiet } : Ledger).io.calls = [] := rfl
  exact read_quiet hio global

theorem Alike.readable {old new : Ledger} (h : Alike old new) (global : ℕ) :
    new.readable global = old.readable global := by
  rw [readable_eq, readable_eq, h.readingOf]

theorem viewable_eq (st : Ledger) (global : ℕ) :
    st.viewable global = checkOf st global >>= fun _ => (st.materialized global).elim
      (st.readable global) .ok := by
  unfold Ledger.viewable materialize
  rw [bind_apply, check_eq]
  have hcheck : checkOf { st with io := quiet } global = checkOf st global := rfl
  rw [hcheck]
  cases checkOf st global with
  | error e => rfl
  | ok u =>
    rw [Result.ok_bind]
    dsimp only
    rw [get_bind_apply]
    cases hrow : st.materialized global with
    | some row => rfl
    | none =>
      dsimp only
      rw [bind_apply]
      unfold Ledger.readable
      cases read global { st with io := quiet } with
      | mk outcome st' =>
        cases outcome with
        | error e => rfl
        | ok row => rfl

theorem Alike.viewable {old new : Ledger} (h : Alike old new) (global : ℕ) :
    new.viewable global = old.viewable global := by
  rw [viewable_eq, viewable_eq, h.checkOf, h.readable, congrArg Core.materialized h.core]

/-! ## Ledgers that are refused -/

section

variable {st : Ledger} {e : Failure} (h : st.rollbackFailure = some e)

include h

theorem check_refused (global : ℕ) (mutableRow : Bool) :
    check global mutableRow st = (.error e, st) := by
  unfold check
  rw [get_bind_apply, h]
  rfl

theorem read_refused (global : ℕ) : read global st = (.error e, st) :=
  bind_error (check_refused h global false) _

theorem materialize_refused (global : ℕ) : materialize global st = (.error e, st) :=
  bind_error (check_refused h global false) _

theorem replace_refused (global : ℕ) (row : Trade) : replace global row st = (.error e, st) :=
  bind_error (check_refused h global true) _

theorem pushBack_refused (row : Trade) : (pushBack row st).2 = st := by
  unfold pushBack
  rw [get_bind_apply]
  split
  · rfl
  · have hstore : store st.finish row none st = (.error e, st) := by
      unfold store
      rw [get_bind_apply, h]
      rfl
    rw [bind_error hstore]

theorem sealRows_refused (globalEnd : ℕ) : sealRows globalEnd st = (.error e, st) := by
  unfold sealRows
  rw [get_bind_apply, h]
  rfl

theorem resize_refused (globalEnd : ℕ) : resize globalEnd st = (.error e, st) := by
  unfold resize
  rw [get_bind_apply, h]
  rfl

end

/-! ## Histories -/

/-- The operations of a ledger. -/
inductive Op where
  | pushBack (row : Trade)
  | replace (global : ℕ) (row : Trade)
  | read (global : ℕ)
  | materialize (global : ℕ)
  | sealRows (globalEnd : ℕ)
  | resize (globalEnd : ℕ)

/-- What a call runs. -/
def Op.run : Op → Action Unit
  | .pushBack row => Trades.pushBack row
  | .replace global row => Trades.replace global row
  | .read global => Trades.read global >>= fun _ => pure ()
  | .materialize global => Trades.materialize global >>= fun _ => pure ()
  | .sealRows globalEnd => Trades.sealRows globalEnd
  | .resize globalEnd => Trades.resize globalEnd

/-- An operation and the outcomes of the file operations it makes. -/
structure Step where
  op : Op
  faults : Faults

/-- A call under its faults. -/
def Step.run (step : Step) (st : Ledger) : Except Failure Unit × Ledger :=
  step.op.run { st with io := step.faults }

/-- The ledger after a history. -/
def runSteps (st : Ledger) (steps : List Step) : Ledger :=
  steps.foldl (fun st step => (step.run st).2) st

/-- A ledger without rows. -/
def emptyLedger (policy : Policy) (cacheRows : ℕ) : Ledger where
  resident := []
  first := 0
  finish := 0
  residentFirst := 0
  indexOrigin := 0
  payloadOrigin := 0
  payloadRetired := 0
  indexZeroed := 0
  payloadZeroed := 0
  policy := policy
  rollbackFailure := none
  tail := fun _ => 0
  materialized := fun _ => none
  cacheRows := cacheRows
  cacheOpen := false
  entries := fun _ => none
  index := []
  payload := []
  indexOpened := false
  payloadOpened := false
  payloadEnd := 0
  ranks := fun _ => 0
  io := quiet

theorem run_refused {st : Ledger} {e : Failure} (h : st.rollbackFailure = some e) (step : Step) :
    (step.run st).2.rollbackFailure = some e := by
  have hio : ({ st with io := step.faults } : Ledger).rollbackFailure = some e := h
  obtain ⟨op, faults⟩ := step
  unfold Step.run
  cases op with
  | pushBack row =>
    have hrun := pushBack_refused hio row
    exact (congrArg (fun st => Core.rollbackFailure st.toCore) hrun).trans hio
  | replace global row =>
    have hrun := replace_refused hio global row
    exact (congrArg (fun r => Core.rollbackFailure r.2.toCore) hrun).trans hio
  | read global =>
    have hrun := bind_error (read_refused hio global) fun _ => (pure () : Action Unit)
    exact (congrArg (fun r => Core.rollbackFailure r.2.toCore) hrun).trans hio
  | materialize global =>
    have hrun := bind_error (materialize_refused hio global) fun _ => (pure () : Action Unit)
    exact (congrArg (fun r => Core.rollbackFailure r.2.toCore) hrun).trans hio
  | sealRows globalEnd =>
    have hrun := sealRows_refused hio globalEnd
    exact (congrArg (fun r => Core.rollbackFailure r.2.toCore) hrun).trans hio
  | resize globalEnd =>
    have hrun := resize_refused hio globalEnd
    exact (congrArg (fun r => Core.rollbackFailure r.2.toCore) hrun).trans hio

theorem runSteps_refused {st : Ledger} {e : Failure} (h : st.rollbackFailure = some e)
    (steps : List Step) :
    (runSteps st steps).rollbackFailure = some e := by
  induction steps generalizing st with
  | nil => exact h
  | cons step steps ih => exact ih (run_refused h step)

/-- Every read of a ledger, now and after any history, throws a failure. -/
def RefusesWith (st : Ledger) (e : Failure) : Prop :=
  ∀ later faults global, (read global { runSteps st later with io := faults }).1 = .error e ∧
    (materialize global { runSteps st later with io := faults }).1 = .error e

theorem refusesWith_of_refused {st : Ledger} {e : Failure} (h : st.rollbackFailure = some e) :
    RefusesWith st e := by
  intro later faults global
  have hrefused : ({ runSteps st later with io := faults } : Ledger).rollbackFailure = some e :=
    runSteps_refused h later
  exact ⟨congrArg Prod.fst (read_refused hrefused global),
    congrArg Prod.fst (materialize_refused hrefused global)⟩

theorem RefusesWith.readable {st : Ledger} {e : Failure} (h : RefusesWith st e) (global : ℕ) :
    st.readable global = .error e :=
  (h [] quiet global).1

/-- An append or a replacement. -/
def Op.stores : Op → Bool
  | .pushBack _ | .replace _ _ => true
  | .read _ | .materialize _ | .sealRows _ | .resize _ => false

/-- An append or a replacement that fails leaves every row readable as before, or a ledger that
refuses every read from then on with that failure. -/
def FailureAtomic (st : Ledger) (step : Step) : Prop :=
  step.op.stores = true → ∀ e st', step.run st = (.error e, st') →
    (∀ global, st'.readable global = st.readable global ∧ st'.viewable global
      = st.viewable global) ∨ RefusesWith st' e

/-- A replacement on a retiring ledger drops text that it can erase. -/
def Meets (st : Ledger) (step : Step) : Prop :=
  match step.op with
  | .replace global _ => st.policy = .retiring → DropsWell { st with io := step.faults } global
  | .pushBack _ | .read _ | .materialize _ | .sealRows _ | .resize _ => True

theorem failureAtomic_of_meets {st : Ledger} {step : Step} (h : Meets st step) :
    FailureAtomic st step := by
  intro hstores e st' hrun
  have hconclude : Atomic { st with io := step.faults } e st' →
      (∀ global, st'.readable global = st.readable global ∧ st'.viewable global
        = st.viewable global) ∨
        RefusesWith st' e := by
    rintro (hrefused | halike)
    · exact .inr (refusesWith_of_refused hrefused)
    · exact .inl fun global => ⟨halike.readable global, halike.viewable global⟩
  apply hconclude
  obtain ⟨op, faults⟩ := step
  cases op with
  | pushBack row => exact pushBack_failed hrun
  | replace global row => exact replace_failed h hrun
  | read global => cases hstores
  | materialize global => cases hstores
  | sealRows globalEnd => cases hstores
  | resize globalEnd => cases hstores

/-- Every step of a history meets the condition in the state it is taken in. -/
def AllMeet : Ledger → List Step → Prop
  | _, [] => True
  | st, step :: steps => Meets st step ∧ AllMeet (step.run st).2 steps

theorem AllMeet.reached {st : Ledger} {before after : List Step} {step : Step}
    (h : AllMeet st (before ++ step :: after)) : Meets (runSteps st before) step := by
  induction before generalizing st with
  | nil => exact h.1
  | cons first before ih => exact ih h.2

/-- A ledger whose replacements can erase what they drop is failure-atomic over every history. -/
theorem ledger_failureAtomic (policy : Policy) (cacheRows : ℕ) (before : List Step) (step : Step)
    (after : List Step)
    (h : AllMeet (emptyLedger policy cacheRows) (before ++ step :: after)) :
    FailureAtomic (runSteps (emptyLedger policy cacheRows) before) step :=
  failureAtomic_of_meets h.reached

/-- A row with two texts of a byte each. -/
def twoTexts : Trade := ⟨default, ⟨[97], [98], [], []⟩⟩

/-- Its replacement by a row without text. -/
def dropTexts (faults : Faults) : Step := ⟨.replace 0 emptyTrade, faults⟩

/-- A retiring ledger with one row. -/
def retiringLedger : Ledger := runSteps (emptyLedger .retiring 0) [⟨.pushBack twoTexts, quiet⟩]

theorem recordOf_io (st : Ledger) (io : Faults) (global : ℕ) :
    recordOf { st with io := io } global = recordOf st global := rfl

/-- The descriptor's write fails, and the row is the old one. -/
theorem ledger_failureAtomic_write :
    ((dropTexts ⟨[.fails 28 [1]], []⟩).run retiringLedger).1 = .error (.io 28) ∧
      FailureAtomic retiringLedger (dropTexts ⟨[.fails 28 [1]], []⟩) := by
  refine ⟨by decide +kernel, ledger_failureAtomic .retiring 0 [⟨.pushBack twoTexts, quiet⟩] _ []
    ⟨trivial, ?_, trivial⟩⟩
  intro _
  refine ⟨fun record hrecord text htext => ?_, fun o ho => by cases ho⟩
  rw [show (Step.run ⟨.pushBack twoTexts, quiet⟩ (emptyLedger .retiring 0)).2
    = retiringLedger from rfl] at hrecord ⊢
  have hfound : recordOf retiringLedger 0 = .ok ⟨default, ⟨⟨0, 1⟩, ⟨1, 1⟩, ⟨2, 0⟩, ⟨2, 0⟩⟩⟩ := by
    decide +kernel
  rw [recordOf_io, hfound] at hrecord
  cases hrecord
  revert text
  decide +kernel

/-- The second of two texts is not erased: the replacement fails, and the row has lost the first. -/
theorem retiring_mixes : ¬ ∀ policy cacheRows before step,
    FailureAtomic (runSteps (emptyLedger policy cacheRows) before) step := by
  intro h
  have hatomic : FailureAtomic retiringLedger (dropTexts ⟨[], [.ok, .fails 28 []]⟩) :=
    h .retiring 0 [⟨.pushBack twoTexts, quiet⟩] _
  have hfails : ((dropTexts ⟨[], [.ok, .fails 28 []]⟩).run retiringLedger).1 = .error (.io 28) := by
    decide +kernel
  have hread : retiringLedger.readable 0 = .ok twoTexts := by decide +kernel
  have hmixed : ((dropTexts ⟨[], [.ok, .fails 28 []]⟩).run retiringLedger).2.readable 0
      = .ok ⟨default, ⟨[0], [98], [], []⟩⟩ := by decide +kernel
  have hrun : (dropTexts ⟨[], [.ok, .fails 28 []]⟩).run retiringLedger
      = (.error (.io 28), ((dropTexts ⟨[], [.ok, .fails 28 []]⟩).run retiringLedger).2) := by
        rw [← hfails]
  rcases hatomic rfl (.io 28) _ hrun with hsame | hrefuses
  · have hsame := (hsame 0).1
    have hwrong : (Except.ok ⟨default, ⟨[0], [98], [], []⟩⟩ : Except Failure Trade)
        = .ok twoTexts :=
      hmixed.symm.trans (hsame.trans hread)
    cases hwrong
  · cases hmixed.symm.trans (hrefuses.readable 0)

end PineForge.Trades
