import Mathlib
import PineForge.Trades.Frames
import PineForge.Trades.Readings

/-!
# A row that was not stored

A transaction that fails leaves the ledger refused or every row readable as before: the other
descriptors are in their places, and its own descriptor is the one it found there (`store_failed`).
Ledgers that differ in no more than dead bytes read alike (`Alike.readingOf`).

What it has written lies behind the payload's end and in the place of its descriptor. The undoing
leaves the files as they were everywhere else, and the descriptor as it was (`Restored`), or the
ledger is refused.
-/

namespace PineForge.Trades

open BigEndian ByteFile Command

/-! ## Transactions that fail -/

theorem truncateFile_cases (area : Area) (size : ℕ) (st : Ledger) :
    ∃ io, (∃ e, truncateFile area size st = (.error e, { st with io := io })) ∨
      truncateFile area size st
        = (.ok (), ({ st with io := io } : Ledger).setFile area
          (truncateTo (st.file area) size)) := by
  by_cases hextent : maxOffset < size + 0
  · have hcheck : checkExtent size 0 st = (.error .offset, st) := by
      rw [checkExtent_eq, if_pos hextent]
    exact ⟨st.io, .inl ⟨_, bind_error hcheck _⟩⟩
  have hcheck : checkExtent size 0 st = (.ok (), st) := by rw [checkExtent_eq, if_neg hextent]
  obtain ⟨o, io, ho, -⟩ := outcome_eq false st
  refine ⟨io, ?_⟩
  unfold truncateFile
  rw [bind_ok hcheck, bind_ok ho]
  cases o with
  | fails errno left => exact .inl ⟨_, rfl⟩
  | ok =>
    refine .inr ?_
    cases area with
    | index => rfl
    | payload => rfl

/-- The index file once a descriptor has been written back. -/
def repaired (index : Bytes) (offset : ℕ) : Option Record → Bytes
  | none => index
  | some previous => writeAt index offset (encode previous)

theorem restore_ok {offset : ℕ} {damaged : Option Record} {st st' : Ledger}
    (h : restore offset damaged st = (.ok (), st')) :
    ∃ io, st' = { st with index := repaired st.index offset damaged, io := io } := by
  cases damaged with
  | none =>
    cases h
    exact ⟨st.io, rfl⟩
  | some previous =>
    change writeFile false .index offset (encode previous) st = _ at h
    obtain ⟨io, -, ⟨e, hrun⟩ | ⟨e, left, -, hrun⟩ | hrun⟩ :=
      writeFile_cases false .index offset (encode previous) st
    · rw [hrun] at h
      cases h
    · rw [hrun] at h
      cases h
    · rw [hrun] at h
      cases h
      exact ⟨io, rfl⟩

/-- What was undone: the descriptor is written back and both files cut to their old lengths. -/
theorem undo_ok {saved st st' : Ledger} {offset : ℕ} {damaged : Option Record}
    (h : undo saved offset damaged st = (.ok (), st')) :
    ∃ io, st' = { st with
      index := truncateTo (repaired st.index offset damaged) saved.index.length
      payload := truncateTo st.payload saved.payload.length
      io := io } := by
  unfold undo at h
  rw [bind_apply] at h
  cases hrestore : restore offset damaged st with
  | mk outcome st1 =>
    rw [hrestore] at h
    cases outcome with
    | error e => cases h
    | ok u =>
      obtain ⟨io1, rfl⟩ := restore_ok hrestore
      dsimp only at h
      obtain ⟨io2, ⟨e, hindex⟩ | hindex⟩ := truncateFile_cases .index saved.index.length
        { st with index := repaired st.index offset damaged, io := io1 }
      · rw [bind_error hindex] at h
        cases h
      · rw [bind_ok hindex] at h
        obtain ⟨io3, ⟨e, hpayload⟩ | hpayload⟩ := truncateFile_cases .payload saved.payload.length
          { st with index := truncateTo (repaired st.index offset damaged) saved.index.length,
                    io := io2 }
        · cases h.symm.trans hpayload
        · cases h.symm.trans hpayload
          exact ⟨io3, rfl⟩

/-- Where a transaction that failed may have written. -/
structure Touched (saved : Ledger) (offset : ℕ) (st : Ledger) : Prop where
  core : st.toCore = saved.toCore
  payload : AgreesOn (· < saved.live) saved.payload st.payload
  index : AgreesOn (fun i => i < offset ∨ offset + recordBytes ≤ i) saved.index st.index

/-- A ledger that is as it was, but for dead bytes and one descriptor. -/
structure Restored (saved : Ledger) (offset : ℕ) (st : Ledger) : Prop where
  core : st.toCore = saved.toCore
  payloadEnd : st.payloadEnd = saved.payloadEnd
  payload : ∀ o length, o + length ≤ saved.live → readAt st.payload o length
    = readAt saved.payload o length
  index : ∀ o length, o + length ≤ offset ∨ offset + recordBytes ≤ o →
    readAt st.index o length = readAt saved.index o length

theorem agreesOn_repaired {saved st : Ledger} {offset : ℕ} (h : Touched saved offset st)
    (damaged : Option Record) :
    AgreesOn (fun i => i < offset ∨ offset + recordBytes ≤ i) saved.index
      (repaired st.index offset damaged) := by
  cases damaged with
  | none => exact h.index
  | some previous =>
    refine h.index.trans (agreesOn_writeAt st.index fun i hi => ?_)
    rw [length_encode]
    exact hi

theorem rollback_spec {saved st : Ledger} {offset : ℕ} (h : Touched saved offset st)
    (damaged : Option Record)
    (e : Failure) :
    (rollback saved offset damaged e st).rollbackFailure = some e ∨
      Restored saved offset (rollback saved offset damaged e st) ∧
        (rollback saved offset damaged e st).index
          = truncateTo (repaired st.index offset damaged) saved.index.length := by
  unfold rollback
  cases hundo : undo saved offset damaged st with
  | mk outcome st' =>
    cases outcome with
    | error e' => exact .inl rfl
    | ok u =>
      obtain ⟨io, rfl⟩ := undo_ok hundo
      refine .inr ⟨⟨h.core, rfl, fun o length hlive => ?_, fun o length hoff => ?_⟩, rfl⟩
      · exact readAt_truncate h.payload fun i hlow hhigh => by omega
      · exact readAt_truncate (agreesOn_repaired h damaged) fun i hlow hhigh => by omega

/-! ## Ledgers that read alike -/

/-- The same rows: what memory holds, the live payload, and the descriptors that are only in the
index file. -/
structure Alike (old new : Ledger) : Prop where
  core : new.toCore = old.toCore
  payloadEnd : new.payloadEnd = old.payloadEnd
  payload : ∀ o length, o + length ≤ old.live → readAt new.payload o length
    = readAt old.payload o length
  index : ∀ global, global < old.finish → global < old.residentFirst →
    old.cachedSlot global = none →
    old.indexOrigin ≤ recordBytes * global →
    (readAt new.index (recordBytes * global - old.indexOrigin) recordBytes).map decode
      = (readAt old.index (recordBytes * global - old.indexOrigin) recordBytes).map decode

namespace Alike

variable {old new : Ledger} (h : Alike old new)

include h

theorem textOf (offset length : ℕ) : textOf new offset length = textOf old offset length := by
  have hcore := h.core
  have hend := h.payloadEnd
  have hpayload := h.payload
  obtain ⟨newCore, newIndex, newPayload, newIndexOpened, newPayloadOpened, newEnd, newRanks,
      newIo⟩ := new
  obtain ⟨oldCore, oldIndex, oldPayload, oldIndexOpened, oldPayloadOpened, oldEnd, oldRanks,
      oldIo⟩ := old
  subst hcore
  subst hend
  unfold Trades.textOf
  dsimp only
  split
  · rfl
  · rename_i hvalid
    split
    · rfl
    · split
      · rfl
      · split
        · rfl
        · split
          · rfl
          · rename_i horigin hextent
            rw [hpayload]
            unfold Ledger.live
            dsimp only
            omega

theorem textsOf (texts : Texts StringExtent) : textsOf new texts = textsOf old texts := by
  unfold Trades.textsOf
  simp only [h.textOf]

theorem cachedSlot (global : ℕ) : new.cachedSlot global = old.cachedSlot global := by
  unfold Ledger.cachedSlot Ledger.cacheSet Ledger.cacheSlot
  rw [h.core]

theorem cacheSet (global : ℕ) : new.cacheSet global = old.cacheSet global := by
  unfold Ledger.cacheSet Ledger.cacheSlot
  rw [h.core]

theorem rowOf (record : Record) : rowOf new record = rowOf old record := by
  unfold Trades.rowOf
  rw [h.textsOf]

theorem uncachedRow (global : ℕ) (record : Record) :
    uncachedRow new global record = uncachedRow old global record := by
  unfold Trades.uncachedRow
  rw [h.cacheSet, h.rowOf, h.textsOf]

theorem entryRow (entry : CacheEntry) : entryRow new entry = entryRow old entry := by
  unfold Trades.entryRow
  rw [h.rowOf]

theorem checkOf (global : ℕ) : checkOf new global = checkOf old global := by
  unfold Trades.checkOf
  rw [h.core]

theorem descriptorOf {global : ℕ} (hfinish : global < old.finish)
    (hcached : old.cachedSlot global = none) :
    descriptorOf new global = descriptorOf old global := by
  unfold Trades.descriptorOf
  rw [h.core]
  split
  · rfl
  · rename_i hresident
    split
    · rfl
    · rename_i hplace
      split
      · rfl
      · have hread := h.index global hfinish (by omega) hcached (by omega)
        cases hold : readAt old.index (recordBytes * global - old.indexOrigin) recordBytes with
        | none =>
          rw [hold, Option.map_none, Option.map_eq_none_iff] at hread
          rw [hread]
        | some bytes =>
          rw [hold, Option.map_some, Option.map_eq_some_iff] at hread
          obtain ⟨bytes', hnew, hdecode⟩ := hread
          rw [hnew]
          exact congrArg Except.ok hdecode

theorem readingOf (global : ℕ) : readingOf new global = readingOf old global := by
  unfold Trades.readingOf
  rw [h.checkOf]
  cases hcheck : Trades.checkOf old global with
  | error e => rfl
  | ok u =>
    have hfinish : global < old.finish := by
      unfold Trades.checkOf at hcheck
      split at hcheck
      · cases hcheck
      · split at hcheck
        · cases hcheck
        · split at hcheck
          · cases hcheck
          · omega
    rw [Result.ok_bind, Result.ok_bind, h.cachedSlot]
    cases hcached : old.cachedSlot global with
    | some slot =>
      dsimp only
      rw [h.entryRow, h.core]
    | none =>
      dsimp only
      rw [h.descriptorOf hfinish hcached]
      simp only [h.uncachedRow]

end Alike

/-! ## What goes before the writes -/

/-- Nothing has been written. -/
structure Still (old new : Ledger) : Prop where
  core : new.toCore = old.toCore
  index : new.index = old.index
  payload : new.payload = old.payload
  payloadEnd : new.payloadEnd = old.payloadEnd
  erasures : new.io.erasures = old.io.erasures

theorem Still.ioFrame : IoFrame Still where
  refl _ := ⟨rfl, rfl, rfl, rfl, rfl⟩
  io _ _ h := ⟨rfl, rfl, rfl, rfl, h⟩
  trans h h' := ⟨h'.core.trans h.core, h'.index.trans h.index, h'.payload.trans h.payload,
    h'.payloadEnd.trans h.payloadEnd, h'.erasures.trans h.erasures⟩

theorem Still.after {β : Type} {m : Action β} {a u v : Ledger} {o : Except Failure β}
    (hu : Still a u)
    (hm : Moves Still m) (hrun : m u = (o, v)) : Still a v := by
  have hmoves := hm u
  rw [hrun] at hmoves
  exact Still.ioFrame.trans hu hmoves

theorem still_openFile (area : Area) : Moves Still (openFile area) := by
  have hR := Still.ioFrame
  refine hR.bind hR.get fun _ => Moves.ite (hR.pure _) (hR.bind hR.outcome fun o => ?_)
  cases o with
  | fails errno left => exact hR.throw _
  | ok =>
    intro st
    cases area with
    | index => exact ⟨rfl, rfl, rfl, rfl, rfl⟩
    | payload => exact ⟨rfl, rfl, rfl, rfl, rfl⟩

theorem still_pendingEnd (pending : ℕ) (text : Bytes) (old : Option StringExtent) :
    Moves Still (pendingEnd pending text old) := by
  have hR := Still.ioFrame
  have hend : ∀ kept : Bool, Moves Still (if kept then pure pending
      else checkExtent pending text.length >>= fun _ => pure (pending + text.length) :
        Action ℕ) := fun _ =>
    Moves.ite (hR.pure _) (hR.bind (hR.checkExtent _ _) fun _ => hR.pure _)
  cases old with
  | none => exact hend false
  | some old => exact Moves.ite (hR.bind (hR.stringEqualsChunks _ _) hend) (hend false)

theorem still_reserveTexts (saved : Ledger) (offset : ℕ) (texts : Texts Bytes)
    (previous : Option Record) :
    Moves Still (reserveTexts saved offset texts previous) := by
  have hR := Still.ioFrame
  refine Moves.ite ?_ (hR.pure _)
  exact hR.bind (still_pendingEnd _ _ _) fun _ => hR.bind (still_pendingEnd _ _ _) fun _ =>
    hR.bind (still_pendingEnd _ _ _) fun _ => hR.bind (still_pendingEnd _ _ _) fun _ =>
      hR.reserve _ _

theorem still_uncachedDescriptor (global : ℕ) : Moves Still (uncachedDescriptor global) := by
  have hR := Still.ioFrame
  exact hR.bind hR.get fun _ => Moves.ite (hR.pure _) (hR.bind (hR.recordOffset _) fun _ =>
    hR.bind (hR.readFile _ _ _) fun _ => hR.pure _)

theorem still_descriptor (global : ℕ) : Moves Still (descriptor global) := by
  have hR := Still.ioFrame
  refine hR.bind hR.get fun st => ?_
  cases st.cachedSlot global with
  | some slot => exact hR.bind (fun _ => ⟨rfl, rfl, rfl, rfl, rfl⟩) fun _ => hR.pure _
  | none => exact still_uncachedDescriptor global

/-! ## Transactions -/

/-- Every row as it was, but for dead bytes; the descriptor in one place is the previous one if it
was so before. -/
structure Kept (global : ℕ) (previous : Option Record) (old new : Ledger) : Prop where
  core : new.toCore = old.toCore
  payloadEnd : new.payloadEnd = old.payloadEnd
  payload : ∀ o length, o + length ≤ old.live → readAt new.payload o length
    = readAt old.payload o length
  others : ∀ other, other ≠ global → old.indexOrigin ≤ recordBytes * other →
    readAt new.index (recordBytes * other - old.indexOrigin) recordBytes
      = readAt old.index (recordBytes * other - old.indexOrigin) recordBytes
  own : ∀ record, previous = some record →
    (readAt old.index (recordBytes * global - old.indexOrigin) recordBytes).map decode
      = some record →
    (readAt new.index (recordBytes * global - old.indexOrigin) recordBytes).map decode = some record

theorem Still.kept {old new : Ledger} (h : Still old new) (global : ℕ) (previous : Option Record) :
    Kept global previous old new := by
  refine ⟨h.core, h.payloadEnd, ?_, ?_, ?_⟩
  · intro o length _
    rw [h.payload]
  · intro other _ _
    rw [h.index]
  · intro record _ hread
    rw [h.index, hread]

theorem Kept.of_still {global : ℕ} {previous : Option Record} {a b c : Ledger} (h : Still a b)
    (hkept : Kept global previous b c) : Kept global previous a c := by
  have horigin : b.indexOrigin = a.indexOrigin := congrArg Core.indexOrigin h.core
  have hlive : b.live = a.live := by
    unfold Ledger.live
    rw [h.payloadEnd, congrArg Core.payloadOrigin h.core]
  refine ⟨hkept.core.trans h.core, hkept.payloadEnd.trans h.payloadEnd, ?_, ?_, ?_⟩
  · intro o length hle
    rw [hkept.payload o length (hlive ▸ hle), h.payload]
  · have hothers := hkept.others
    rw [horigin, h.index] at hothers
    exact hothers
  · have hown := hkept.own
    rw [horigin, h.index] at hown
    exact hown

theorem Restored.kept {saved new : Ledger} {global : ℕ} {previous : Option Record}
    (h : Restored saved (recordBytes * global - saved.indexOrigin) new)
    (hglobal : saved.indexOrigin ≤ recordBytes * global)
    (hown : ∀ record, previous = some record →
      (readAt saved.index (recordBytes * global - saved.indexOrigin) recordBytes).map decode
        = some record →
      (readAt new.index (recordBytes * global - saved.indexOrigin) recordBytes).map decode
        = some record) :
    Kept global previous saved new := by
  refine ⟨h.core, h.payloadEnd, h.payload, ?_, hown⟩
  intro other hne hother
  apply h.index
  -- places of different rows do not overlap
  unfold recordBytes at *
  omega

theorem truncateTo_length (bytes : Bytes) : truncateTo bytes bytes.length = bytes := by
  rw [truncateTo_eq bytes le_rfl, List.take_length]

theorem readAt_written {saved index : Bytes} {offset : ℕ} {record : Record}
    (hlength : saved.length ≤ index.length)
    (hread : (readAt saved offset recordBytes).map decode = some record) :
    (readAt (truncateTo (writeAt index offset (encode record)) saved.length) offset recordBytes).map
    decode
      = some record := by
  have hencode : encode record ≠ [] := by
    intro hnil
    have := length_encode record
    rw [hnil] at this
    cases this
  have hroom : offset + recordBytes ≤ saved.length := by
    by_contra hshort
    unfold readAt at hread
    rw [if_neg hshort] at hread
    cases hread
  have hsize : saved.length ≤ (writeAt index offset (encode record)).length := by
    rw [length_writeAt index offset hencode]
    exact hlength.trans (le_max_left ..)
  have hback := readAt_writeAt index offset hencode
  rw [length_encode] at hback
  rw [truncateTo_eq _ hsize, readAt_take hroom hsize, hback, Option.map_some, decode_encode]

/-- A transaction that fails leaves the ledger refused or every row as it was. -/
theorem transact_failed {saved st st' : Ledger} {global : ℕ} {row : Trade}
    {previous : Option Record} {e : Failure}
    (hst : Still saved st) (hglobal : saved.indexOrigin ≤ recordBytes * global)
    (h : transact saved (recordBytes * global - saved.indexOrigin) row previous st
      = (.error e, st')) :
    st'.rollbackFailure = some e ∨ Kept global previous saved st' := by
  unfold transact at h
  have hgrown := grown_putTexts row.texts previous st
  cases hput : putTexts row.texts previous st with
  | mk outcome st1 =>
    rw [hput] at h hgrown
    have hindex : st1.index = saved.index := hgrown.index.trans hst.index
    have hcore : st1.toCore = saved.toCore := hgrown.core.trans hst.core
    have hpayload : AgreesOn (· < saved.live) saved.payload st1.payload := by
      have hagrees := hgrown.payload
      unfold Ledger.live at hagrees ⊢
      rw [hst.payload, hst.payloadEnd, congrArg Core.payloadOrigin hst.core] at hagrees
      exact hagrees
    cases outcome with
    | error e1 =>
      cases h
      have htouched : Touched saved (recordBytes * global - saved.indexOrigin) st1 :=
        ⟨hcore, hpayload, by rw [hindex]; exact .refl _ _⟩
      rcases rollback_spec htouched none e with hrefused | ⟨hrestored, hback⟩
      · exact .inl hrefused
      · refine .inr (hrestored.kept hglobal fun record _ hread => ?_)
        rw [hback, repaired, hindex, truncateTo_length, hread]
    | ok extents =>
      dsimp only at h
      split at h
      · cases h
      · obtain ⟨io, -, ⟨e1, hrun⟩ | ⟨e1, left, hleft, hrun⟩ | hrun⟩ :=
          writeFile_cases false .index (recordBytes * global - saved.indexOrigin)
            (encode ⟨row.figures, extents⟩) st1
        · rw [hrun] at h
          cases h
          have htouched : Touched saved (recordBytes * global - saved.indexOrigin)
              { st1 with io := io } :=
            ⟨hcore, hpayload, by rw [hindex]; exact .refl _ _⟩
          rcases rollback_spec htouched previous e with hrefused | ⟨hrestored, hback⟩
          · exact .inl hrefused
          · refine .inr (hrestored.kept hglobal fun record hprevious hread => ?_)
            rw [hback, hprevious]
            exact readAt_written (congrArg List.length hindex).ge hread
        · rw [hrun] at h
          cases h
          have hagrees : AgreesOn (fun i => i < recordBytes * global - saved.indexOrigin ∨
              recordBytes * global - saved.indexOrigin + recordBytes ≤ i) saved.index
              (writeAt st1.index (recordBytes * global - saved.indexOrigin) left) := by
            rw [hindex]
            refine agreesOn_writeAt saved.index fun i hi => ?_
            rw [length_encode] at hleft
            omega
          have htouched : Touched saved (recordBytes * global - saved.indexOrigin)
              (({ st1 with io := io } : Ledger).setFile .index
                (writeAt (st1.file .index) (recordBytes * global - saved.indexOrigin) left)) :=
            ⟨hcore, hpayload, hagrees⟩
          rcases rollback_spec htouched previous e with hrefused | ⟨hrestored, hback⟩
          · exact .inl hrefused
          · refine .inr (hrestored.kept hglobal fun record hprevious hread => ?_)
            rw [hback, hprevious]
            exact readAt_written hagrees.length hread
        · rw [hrun] at h
          cases h

/-- A row that is not stored leaves the ledger refused or every row as it was. -/
theorem store_failed {st st' : Ledger} {global : ℕ} {row : Trade} {previous : Option Record}
    {e : Failure}
    (h : store global row previous st = (.error e, st')) :
    st'.rollbackFailure = some e ∨ Kept global previous st st' := by
  have hR := Still.ioFrame
  unfold store at h
  rw [get_bind_apply] at h
  cases hrefused : st.rollbackFailure with
  | some e0 =>
    rw [hrefused] at h
    cases h
    exact .inl hrefused
  | none =>
    rw [hrefused] at h
    dsimp only at h
    -- nothing is written before the transaction
    rcases bind_eq_error h with hfail | ⟨_, st1, hopen, h⟩
    · exact .inr (((hR.refl st).after (still_openFile _) hfail).kept _ _)
    have hst1 := (hR.refl st).after (still_openFile _) hopen
    rcases bind_eq_error h with hfail | ⟨_, st2, hopen, h⟩
    · exact .inr ((hst1.after (still_openFile _) hfail).kept _ _)
    have hst2 := hst1.after (still_openFile _) hopen
    rw [get_bind_apply] at h
    rcases bind_eq_error h with hfail | ⟨offset, st3, hoffset, h⟩
    · exact .inr ((hst2.after (hR.recordOffset _) hfail).kept _ _)
    have hplace : offset = recordBytes * global - st2.indexOrigin ∧ st3 = st2 ∧
        st2.indexOrigin ≤ recordBytes * global := by
      rw [recordOffset_eq] at hoffset
      split at hoffset
      · cases hoffset
      · rename_i hplace
        cases hoffset
        exact ⟨rfl, rfl, by omega⟩
    obtain ⟨rfl, rfl, hglobal⟩ := hplace
    rcases bind_eq_error h with hfail | ⟨_, st4, hcheck, h⟩
    · exact .inr ((hst2.after (hR.checkExtent _ _) hfail).kept _ _)
    have hst4 := (hR.refl st3).after (hR.checkExtent _ _) hcheck
    rcases bind_eq_error h with hfail | ⟨_, st5, hreserve, h⟩
    · exact .inr ((hR.trans hst2 (hst4.after (still_reserveTexts _ _ _ _) hfail)).kept _ _)
    have hst5 := hst4.after (still_reserveTexts _ _ _ _) hreserve
    rcases transact_failed hst5 hglobal h with hrefuse | hkept
    · exact .inl hrefuse
    · exact .inr (hkept.of_still hst2)

end PineForge.Trades
