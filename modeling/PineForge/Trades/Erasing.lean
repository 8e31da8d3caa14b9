import Mathlib
import PineForge.Trades.Stored

/-!
# Erasing the text that a replacement drops

Once a descriptor is stored, the text it dropped is erased. That is through where the text still
lies in the payload file and no erasing write fails (`eraseDropped_ok`): the transaction has moved
the payload's end only forwards, and has taken no outcome of the erasing writes (`store_ok`).
-/

namespace PineForge.Trades

open BigEndian ByteFile Command

/-! ## What a transaction that is through has moved -/

/-- The payload's end goes forwards; its other bounds, the policy and the erasing outcomes stay. -/
structure Advanced (old new : Ledger) : Prop where
  policy : new.policy = old.policy
  payloadOrigin : new.payloadOrigin = old.payloadOrigin
  payloadRetired : new.payloadRetired = old.payloadRetired
  payloadEnd : old.payloadEnd ≤ new.payloadEnd
  erasures : new.io.erasures = old.io.erasures

theorem Advanced.trans {a b c : Ledger} (h : Advanced a b) (h' : Advanced b c) : Advanced a c :=
  ⟨h'.policy.trans h.policy, h'.payloadOrigin.trans h.payloadOrigin,
    h'.payloadRetired.trans h.payloadRetired,
    h.payloadEnd.trans h'.payloadEnd, h'.erasures.trans h.erasures⟩

theorem Still.advanced {old new : Ledger} (h : Still old new) : Advanced old new :=
  ⟨congrArg Core.policy h.core, congrArg Core.payloadOrigin h.core,
    congrArg Core.payloadRetired h.core,
    h.payloadEnd.ge, h.erasures⟩

theorem Grown.advanced {old new : Ledger} (h : Grown old new) : Advanced old new :=
  ⟨congrArg Core.policy h.core, congrArg Core.payloadOrigin h.core,
    congrArg Core.payloadRetired h.core, h.grows,
    h.erasures⟩

theorem publish_advanced (saved st : Ledger) (texts : Texts Bytes) (extents : Texts StringExtent) :
    Advanced st (publish saved texts extents st) :=
  ⟨rfl, rfl, rfl, le_rfl, rfl⟩

theorem transact_ok {saved st st' : Ledger} {offset : ℕ} {row : Trade} {previous : Option Record}
    {record : Record}
    (h : transact saved offset row previous st = (.ok record, st')) : Advanced st st' := by
  unfold transact at h
  have hgrown := grown_putTexts row.texts previous st
  cases hput : putTexts row.texts previous st with
  | mk outcome st1 =>
    rw [hput] at h hgrown
    cases outcome with
    | error e => cases h
    | ok extents =>
      dsimp only at h
      split at h
      · cases h
        exact hgrown.advanced.trans (publish_advanced ..)
      · obtain ⟨io, hio, ⟨e1, hrun⟩ | ⟨e1, left, hleft, hrun⟩ | hrun⟩ :=
          writeFile_cases false .index offset (encode ⟨row.figures, extents⟩) st1
        · rw [hrun] at h
          cases h
        · rw [hrun] at h
          cases h
        · rw [hrun] at h
          cases h
          have hwritten : Advanced st1 (({ st1 with io := io } : Ledger).setFile .index
              (writeAt (st1.file .index) offset (encode ⟨row.figures, extents⟩))) :=
            ⟨rfl, rfl, rfl, le_rfl, hio rfl⟩
          exact hgrown.advanced.trans (hwritten.trans (publish_advanced ..))

theorem store_ok {st st' : Ledger} {global : ℕ} {row : Trade} {previous : Option Record}
    {record : Record}
    (h : store global row previous st = (.ok record, st')) : Advanced st st' := by
  have hR := Still.ioFrame
  unfold store at h
  rw [get_bind_apply] at h
  cases hrefused : st.rollbackFailure with
  | some e0 =>
    rw [hrefused] at h
    cases h
  | none =>
    rw [hrefused] at h
    dsimp only at h
    obtain ⟨_, st1, hopen, h⟩ := bind_eq_ok h
    have hst1 := (hR.refl st).after (still_openFile _) hopen
    obtain ⟨_, st2, hopen, h⟩ := bind_eq_ok h
    have hst2 := hst1.after (still_openFile _) hopen
    rw [get_bind_apply] at h
    obtain ⟨offset, st3, hoffset, h⟩ := bind_eq_ok h
    have hst3 := hst2.after (hR.recordOffset _) hoffset
    obtain ⟨_, st4, hcheck, h⟩ := bind_eq_ok h
    have hst4 := hst3.after (hR.checkExtent _ _) hcheck
    obtain ⟨_, st5, hreserve, h⟩ := bind_eq_ok h
    have hst5 := hst4.after (still_reserveTexts _ _ _ _) hreserve
    exact hst5.advanced.trans (transact_ok h)

/-! ## Erasing -/

/-- A text that lies in the payload file, or an empty one. -/
def Erasable (st : Ledger) (text : StringExtent) : Prop :=
  text.length.toNat = 0 ∨
    st.payloadRetired ≤ text.offset.toNat ∧ st.payloadOrigin ≤ text.offset.toNat ∧
      text.offset.toNat + text.length.toNat ≤ st.payloadEnd ∧
      text.offset.toNat - st.payloadOrigin + text.length.toNat ≤ maxOffset

instance (st : Ledger) (text : StringExtent) : Decidable (Erasable st text) := by
  unfold Erasable
  infer_instance

/-- A retiring ledger whose erasing writes succeed. -/
structure Erases (st : Ledger) : Prop where
  policy : st.policy = .retiring
  erasures : ∀ o ∈ st.io.erasures, o = .ok

theorem Erasable.of_bounds {old new : Ledger} {text : StringExtent} (h : Erasable old text)
    (horigin : new.payloadOrigin = old.payloadOrigin)
    (hretired : new.payloadRetired = old.payloadRetired)
    (hend : old.payloadEnd ≤ new.payloadEnd) : Erasable new text := by
  unfold Erasable at h ⊢
  omega

/-- Erased text is all that changes, and fewer outcomes are left. -/
structure Erased (old new : Ledger) : Prop where
  policy : new.policy = old.policy
  payloadOrigin : new.payloadOrigin = old.payloadOrigin
  payloadRetired : new.payloadRetired = old.payloadRetired
  payloadEnd : new.payloadEnd = old.payloadEnd
  erasures : ∀ o ∈ new.io.erasures, o ∈ old.io.erasures

theorem Erased.refl (st : Ledger) : Erased st st := ⟨rfl, rfl, rfl, rfl, fun _ h => h⟩

theorem Erased.trans {a b c : Ledger} (h : Erased a b) (h' : Erased b c) : Erased a c :=
  ⟨h'.policy.trans h.policy, h'.payloadOrigin.trans h.payloadOrigin,
    h'.payloadRetired.trans h.payloadRetired,
    h'.payloadEnd.trans h.payloadEnd, fun o ho => h.erasures o (h'.erasures o ho)⟩

theorem Erased.erases {old new : Ledger} (h : Erased old new) (herases : Erases old) : Erases new :=
  ⟨h.policy.trans herases.policy, fun o ho => herases.erasures o (h.erasures o ho)⟩

theorem Erased.erasable {old new : Ledger} (h : Erased old new) {text : StringExtent}
    (hold : Erasable old text) :
    Erasable new text :=
  hold.of_bounds h.payloadOrigin h.payloadRetired h.payloadEnd.ge

theorem outcome_erasing {st : Ledger} (h : ∀ o ∈ st.io.erasures, o = .ok) :
    ∃ io, (∀ o ∈ io.erasures, o ∈ st.io.erasures) ∧ outcome true st
      = (.ok .ok, { st with io := io }) := by
  unfold outcome
  rw [if_pos rfl]
  split
  · rename_i hnil
    exact ⟨st.io, fun _ ho => ho, rfl⟩
  · rename_i o rest hcons
    refine ⟨{ st.io with erasures := rest }, ?_, ?_⟩
    · intro o' ho'
      rw [hcons]
      exact List.mem_cons_of_mem _ ho'
    · rw [h o (by rw [hcons]; exact List.mem_cons_self ..)]

theorem eraseBytes_ok (first stop : ℕ) {st : Ledger} (h : Erases st) (hstop : stop ≤ maxOffset) :
    ∃ st', Erased st st' ∧ eraseBytes first stop st = (.ok (), st') := by
  fun_induction eraseBytes first stop generalizing st with
  | case1 first hlt count =>
    rename_i ih
    have hcount : first + count ≤ stop := by
      have : count ≤ stop - first := Nat.min_le_right ..
      omega
    obtain ⟨io, hio, ho⟩ := outcome_erasing h.erasures
    have hextent : ¬ maxOffset < first + (List.replicate count (0 : Fin 256)).length := by
      rw [List.length_replicate]
      omega
    have hfull : ¬ st.overfullBy .payload
        (first + (List.replicate count (0 : Fin 256)).length) := by
      unfold Ledger.overfullBy Ledger.overfull
      rw [h.policy]
      exact Bool.false_ne_true
    rcases writeFile_eq true .payload first _ hextent hfull ho with ⟨-, hrun⟩ |
      ⟨errno, left, hbad, -⟩
    · have hwritten : Erased st (({ st with io := io } : Ledger).setFile .payload
          (writeAt (st.file .payload) first (List.replicate count 0))) := ⟨rfl, rfl, rfl, rfl, hio⟩
      obtain ⟨st', herased, hrest⟩ := ih (hwritten.erases h)
      exact ⟨st', hwritten.trans herased, (bind_ok hrun _).trans hrest⟩
    · cases hbad
  | case2 first hlt => exact ⟨st, .refl st, rfl⟩

theorem erasePayload_ok {st : Ledger} (h : Erases st) {text : StringExtent}
    (htext : Erasable st text) :
    ∃ st', Erased st st' ∧ erasePayload text st = (.ok (), st') := by
  unfold erasePayload when
  split
  · rename_i hlength
    rcases htext with hzero | ⟨hretired, horigin, hend, hmax⟩
    · exact absurd hzero hlength
    have hvalid : validateString text.offset.toNat text.length.toNat st = (.ok (), st) := by
      unfold validateString
      rw [get_bind_apply, if_neg (by omega)]
      rfl
    have hplace : payloadOffset text.offset.toNat st
        = (.ok (text.offset.toNat - st.payloadOrigin), st) := by
      rw [payloadOffset_eq, if_neg (by omega)]
    obtain ⟨st1, herased, hrun⟩ := eraseBytes_ok (text.offset.toNat - st.payloadOrigin)
      (text.offset.toNat - st.payloadOrigin + text.length.toNat) h hmax
    refine ⟨erasePayloadTail text.offset.toNat text.length.toNat st1,
      herased.trans ⟨rfl, rfl, rfl, rfl, fun _ ho => ho⟩,
      ?_⟩
    rw [bind_ok hvalid, bind_ok hplace, bind_ok hrun]
    rfl
  · exact ⟨st, .refl st, rfl⟩

theorem when_erasePayload_ok {st : Ledger} (h : Erases st) {text : StringExtent}
    (htext : Erasable st text) (c : Prop)
    [Decidable c] : ∃ st', Erased st st' ∧ when c (erasePayload text) st = (.ok (), st') := by
  unfold when
  split
  · exact erasePayload_ok h htext
  · exact ⟨st, .refl st, rfl⟩

/-- Text that lies in the payload file is erased where no erasing write fails. -/
theorem eraseDropped_ok {st : Ledger} (h : Erases st) {old : Texts StringExtent}
    (htexts : ∀ text ∈ old.toList, Erasable st text) (new : Texts StringExtent) :
    ∃ st', eraseDropped old new st = (.ok (), st') := by
  have hentryId : Erasable st old.entryId := htexts _ (by simp [Texts.toList])
  have hentryComment : Erasable st old.entryComment := htexts _ (by simp [Texts.toList])
  have hexitComment : Erasable st old.exitComment := htexts _ (by simp [Texts.toList])
  have hexitId : Erasable st old.exitId := htexts _ (by simp [Texts.toList])
  unfold eraseDropped
  obtain ⟨st1, h1, hrun⟩ := when_erasePayload_ok h hentryId (old.entryId ≠ new.entryId)
  rw [bind_ok hrun]
  obtain ⟨st2, h2, hrun⟩ :=
    when_erasePayload_ok (h1.erases h) (h1.erasable hentryComment)
      (old.entryComment ≠ new.entryComment)
  rw [bind_ok hrun]
  have h12 := h1.trans h2
  obtain ⟨st3, h3, hrun⟩ :=
    when_erasePayload_ok (h12.erases h) (h12.erasable hexitComment)
      (old.exitComment ≠ new.exitComment)
  rw [bind_ok hrun]
  have h13 := h12.trans h3
  obtain ⟨st4, -, hrun⟩ := when_erasePayload_ok (h13.erases h) (h13.erasable hexitId)
    (old.exitId ≠ new.exitId)
  exact ⟨st4, hrun⟩

end PineForge.Trades
