import Mathlib
import PineForge.Trades.Ledger

/-!
# What the parts of a transaction leave alone

A read changes no more than the outcomes to come. The texts of a row are written from the payload's
end on, and its descriptor in its own place (`Grown`, `writeFile_cases`). None of them takes an
outcome of the writes that erase text.
-/

namespace PineForge.Trades

open BigEndian ByteFile Command

/-- A preorder of states that passes over the outcomes to come, those of the erasing writes
apart. -/
structure IoFrame (R : Ledger → Ledger → Prop) : Prop where
  refl : ∀ st, R st st
  trans : ∀ {a b c}, R a b → R b c → R a c
  io : ∀ (st : Ledger) (io : Faults), io.erasures = st.io.erasures → R st { st with io := io }

namespace IoFrame

variable {R : Ledger → Ledger → Prop} (hR : IoFrame R)

include hR

theorem bind {β γ : Type} {m : Action β} {k : β → Action γ} (hm : Moves R m)
    (hk : ∀ b, Moves R (k b)) :
    Moves R (m >>= k) :=
  Moves.bind (R := R) (fun _ _ _ => hR.trans) hm hk

theorem pure {β : Type} (b : β) : Moves R (Pure.pure b : Action β) := Moves.pure hR.refl b

theorem throw {β : Type} (e : Failure) : Moves R (throw e : Action β) := Moves.throw hR.refl e

theorem get : Moves R (Command.get : Action Ledger) := fun st => hR.refl st

theorem outcome : Moves R (outcome false) := by
  intro st
  unfold Trades.outcome
  rw [if_neg Bool.false_ne_true]
  split
  · exact hR.refl st
  · exact hR.io st _ rfl

theorem checkExtent (offset length : ℕ) : Moves R (checkExtent offset length) :=
  Moves.ite (hR.throw _) (hR.pure _)

theorem readFile (area : Area) (offset length : ℕ) : Moves R (readFile area offset length) := by
  refine hR.bind (hR.checkExtent _ _) fun _ => hR.bind hR.outcome fun o => ?_
  cases o with
  | fails errno left => exact hR.throw _
  | ok =>
    refine hR.bind hR.get fun st => ?_
    cases readAt (st.file area) offset length with
    | none => exact hR.throw _
    | some bytes => exact hR.pure _

theorem reserve (indexBytes payloadBytes : ℕ) : Moves R (reserve indexBytes payloadBytes) :=
  hR.bind hR.get fun _ => Moves.ite (hR.throw _) (hR.pure _)

theorem payloadOffset (offset : ℕ) : Moves R (payloadOffset offset) :=
  hR.bind hR.get fun _ => Moves.ite (hR.throw _) (hR.pure _)

theorem recordOffset (global : ℕ) : Moves R (recordOffset global) :=
  hR.bind hR.get fun _ => Moves.ite (hR.throw _) (hR.pure _)

theorem validateString (offset length : ℕ) : Moves R (validateString offset length) :=
  hR.bind hR.get fun _ => Moves.ite (hR.throw _) (hR.pure _)

theorem readString (offset length : ℕ) : Moves R (readString offset length) :=
  hR.bind (hR.validateString _ _) fun _ => hR.bind hR.get fun _ =>
    Moves.ite (hR.pure _) (Moves.ite (hR.pure _) (hR.bind (hR.payloadOffset _) fun _ =>
      hR.readFile _ _ _))

theorem readWindow (text : StringExtent) (offset count : ℕ) :
    Moves R (readWindow text offset count) :=
  hR.bind hR.get fun _ =>
    Moves.ite (hR.readString _ _) (hR.bind (hR.payloadOffset _) fun _ => hR.readFile _ _ _)

theorem equalsFrom (text : StringExtent) (rhs : Bytes) (offset : ℕ) (equal : Bool) :
    Moves R (equalsFrom text rhs offset equal) := by
  fun_induction Trades.equalsFrom text rhs offset equal with
  | case1 offset equal hlt count ih =>
    exact hR.bind (hR.readWindow _ _ _) fun chunk => ih _
  | case2 offset equal hlt => exact hR.pure _

theorem stringEqualsChunks (text : StringExtent) (rhs : Bytes) :
    Moves R (stringEqualsChunks text rhs) :=
  hR.bind (hR.validateString _ _) fun _ => hR.equalsFrom _ _ _ _

end IoFrame

/-! ## The writes of a transaction -/

/-- The live part of the payload file. -/
def Ledger.live (st : Ledger) : ℕ := st.payloadEnd - st.payloadOrigin

/-- From the payload's end on texts were written, and nothing else was. -/
structure Grown (old new : Ledger) : Prop where
  core : new.toCore = old.toCore
  index : new.index = old.index
  grows : old.payloadEnd ≤ new.payloadEnd
  erasures : new.io.erasures = old.io.erasures
  payload : AgreesOn (· < old.live) old.payload new.payload

theorem Grown.ioFrame : IoFrame Grown where
  refl st := ⟨rfl, rfl, le_rfl, rfl, .refl _ _⟩
  io st io h := ⟨rfl, rfl, le_rfl, h, .refl _ _⟩
  trans {a b c} h h' := by
    refine ⟨h'.core.trans h.core, h'.index.trans h.index, h.grows.trans h'.grows,
      h'.erasures.trans h.erasures,
      h.payload.trans ?_⟩
    have horigin : b.payloadOrigin = a.payloadOrigin := congrArg Core.payloadOrigin h.core
    refine ⟨h'.payload.length, fun i hi hlt => h'.payload.bytes i ?_ hlt⟩
    have hgrows := h.grows
    unfold Ledger.live at hi ⊢
    omega

theorem outcome_eq (erasing : Bool) (st : Ledger) :
    ∃ o io, outcome erasing st = (.ok o, { st with io := io }) ∧
      (erasing = false → io.erasures = st.io.erasures) := by
  unfold outcome
  cases erasing with
  | true =>
    rw [if_pos rfl]
    split
    · exact ⟨_, st.io, rfl, fun _ => rfl⟩
    · exact ⟨_, _, rfl, fun h => absurd h (by decide)⟩
  | false =>
    rw [if_neg Bool.false_ne_true]
    split
    · exact ⟨_, st.io, rfl, fun _ => rfl⟩
    · exact ⟨_, _, rfl, fun _ => rfl⟩

theorem checkExtent_eq (offset length : ℕ) (st : Ledger) :
    checkExtent offset length st = if maxOffset < offset + length then (.error .offset, st)
      else (.ok (), st) := by
  unfold checkExtent
  split
  · rfl
  · rfl

theorem reserveWrite_eq (area : Area) (size : ℕ) (st : Ledger) :
    reserveWrite area size st = if st.overfullBy area size then (.error .capacity, st)
      else (.ok (), st) := by
  unfold reserveWrite
  rw [get_bind_apply]
  split
  · rfl
  · rfl

theorem writeFile_eq (erasing : Bool) (area : Area) (offset : ℕ) (data : Bytes) {st : Ledger}
    (hextent : ¬ maxOffset < offset + data.length)
    (hfull : ¬ st.overfullBy area (offset + data.length)) {o : Outcome}
    {io : Faults} (ho : outcome erasing st = (.ok o, { st with io := io })) :
    (o = .ok ∧ writeFile erasing area offset data st
        = (.ok (), ({ st with io := io } : Ledger).setFile area
          (writeAt (st.file area) offset data))) ∨
      ∃ errno left, o = .fails errno left ∧ writeFile erasing area offset data st
        = (.error (.io errno),
            ({ st with io := io } : Ledger).setFile area
              (writeAt (st.file area) offset (left.take data.length))) := by
  have hcheck : checkExtent offset data.length st = (.ok (), st) := by
    rw [checkExtent_eq, if_neg hextent]
  have hreserve : reserveWrite area (offset + data.length) st = (.ok (), st) := by
    rw [reserveWrite_eq, if_neg hfull]
  unfold writeFile
  rw [bind_ok hcheck, bind_ok hreserve, bind_ok ho]
  cases o with
  | ok =>
    refine .inl ⟨rfl, ?_⟩
    cases area with
    | index => rfl
    | payload => rfl
  | fails errno left =>
    refine .inr ⟨errno, left, rfl, ?_⟩
    cases area with
    | index => rfl
    | payload => rfl

/-- A write fails without effect, fails with some of its range written, or is through. -/
theorem writeFile_cases (erasing : Bool) (area : Area) (offset : ℕ) (data : Bytes) (st : Ledger) :
    ∃ io, (erasing = false → io.erasures = st.io.erasures) ∧
      ((∃ e, writeFile erasing area offset data st = (.error e, { st with io := io })) ∨
      (∃ e left, left.length ≤ data.length ∧ writeFile erasing area offset data st
        = (.error e, ({ st with io := io } : Ledger).setFile area
          (writeAt (st.file area) offset left))) ∨
      writeFile erasing area offset data st
        = (.ok (), ({ st with io := io } : Ledger).setFile area
          (writeAt (st.file area) offset data))) := by
  by_cases hextent : maxOffset < offset + data.length
  · have hcheck : checkExtent offset data.length st = (.error .offset, st) := by
      rw [checkExtent_eq, if_pos hextent]
    exact ⟨st.io, fun _ => rfl, .inl ⟨_, bind_error hcheck _⟩⟩
  by_cases hfull : st.overfullBy area (offset + data.length)
  · have hcheck : checkExtent offset data.length st = (.ok (), st) := by
      rw [checkExtent_eq, if_neg hextent]
    have hreserve : reserveWrite area (offset + data.length) st = (.error .capacity, st) := by
      rw [reserveWrite_eq, if_pos hfull]
    refine ⟨st.io, fun _ => rfl, .inl ⟨.capacity, ?_⟩⟩
    unfold writeFile
    rw [bind_ok hcheck, bind_error hreserve]
  obtain ⟨o, io, ho, hio⟩ := outcome_eq erasing st
  refine ⟨io, hio, .inr ?_⟩
  rcases writeFile_eq erasing area offset data hextent hfull ho with ⟨-, hok⟩ |
    ⟨errno, left, -, hfails⟩
  · exact .inr hok
  · exact .inl ⟨_, left.take data.length, by rw [List.length_take]; exact Nat.min_le_left ..,
      hfails⟩

theorem payloadOffset_eq (offset : ℕ) (st : Ledger) :
    payloadOffset offset st
      = if offset < st.payloadOrigin then (.error .offset, st)
        else (.ok (offset - st.payloadOrigin), st) := by
  unfold payloadOffset
  rw [get_bind_apply]
  split
  · rfl
  · rfl

theorem grown_setFile (st : Ledger) {io : Faults} (hio : io.erasures = st.io.erasures)
    (data : Bytes) :
    Grown st (({ st with io := io } : Ledger).setFile .payload (writeAt st.payload st.live data)) :=
  ⟨rfl, rfl, le_rfl, hio, agreesOn_writeAt st.payload fun _ hi => .inl hi⟩

theorem grown_appendPayload (data : Bytes) : Moves Grown (appendPayload data) := by
  intro st
  unfold appendPayload
  rw [get_bind_apply, bind_apply, payloadOffset_eq]
  split
  · rename_i b t heq
    split at heq
    · cases heq
    · cases heq
      obtain ⟨io, hio, ⟨e, h⟩ | ⟨e, left, -, h⟩ | h⟩ :=
        writeFile_cases false .payload (st.payloadEnd - st.payloadOrigin) data st
      · rw [h]
        exact Grown.ioFrame.io st io (hio rfl)
      · rw [h]
        exact grown_setFile st (hio rfl) left
      · rw [h]
        exact grown_setFile st (hio rfl) data
  · rename_i e t heq
    split at heq
    · cases heq
      exact Grown.ioFrame.refl st
    · cases heq

theorem grown_advance (n : ℕ) :
    Moves Grown (modify fun st => { st with payloadEnd := st.payloadEnd + n } : Action Unit) :=
  fun _ => ⟨rfl, rfl, Nat.le_add_right .., rfl, .refl _ _⟩

theorem grown_putString (text : Bytes) : Moves Grown (putString text) := by
  have hR := Grown.ioFrame
  exact hR.bind hR.get fun _ => hR.bind (hR.checkExtent _ _) fun _ =>
    hR.bind (Moves.ite (grown_appendPayload _) (hR.pure _)) fun _ =>
      hR.bind (grown_advance _) fun _ => hR.pure _

theorem grown_reuseString (text : Bytes) (old : StringExtent) :
    Moves Grown (reuseString text old) := by
  have hR := Grown.ioFrame
  refine Moves.ite (hR.bind (hR.stringEqualsChunks _ _) fun equal => ?_) (grown_putString _)
  exact Moves.ite (hR.pure _) (grown_putString _)

theorem grown_putAppendStrings (texts : Texts Bytes) : Moves Grown (putAppendStrings texts) := by
  have hR := Grown.ioFrame
  refine Moves.ite (hR.pure _) (hR.bind hR.get fun _ => ?_)
  exact hR.bind (hR.checkExtent _ _) fun _ => hR.bind (hR.checkExtent _ _) fun _ =>
    hR.bind (hR.checkExtent _ _) fun _ => hR.bind (hR.checkExtent _ _) fun _ =>
      hR.bind (grown_appendPayload _) fun _ => hR.bind (grown_advance _) fun _ => hR.pure _

/-- Whatever becomes of them, the texts of a row are written behind the payload's end. -/
theorem grown_putTexts (texts : Texts Bytes) (previous : Option Record) :
    Moves Grown (putTexts texts previous) := by
  have hR := Grown.ioFrame
  cases previous with
  | none =>
    refine hR.bind (grown_putAppendStrings _) fun extents => ?_
    cases extents with
    | some extents => exact hR.pure _
    | none =>
      exact hR.bind (grown_putString _) fun _ => hR.bind (grown_putString _) fun _ =>
        hR.bind (grown_putString _) fun _ => hR.bind (grown_putString _) fun _ => hR.pure _
  | some previous =>
    exact hR.bind (grown_reuseString _ _) fun _ => hR.bind (grown_reuseString _ _) fun _ =>
      hR.bind (grown_reuseString _ _) fun _ => hR.bind (grown_reuseString _ _) fun _ => hR.pure _

end PineForge.Trades
