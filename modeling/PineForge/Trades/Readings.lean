import Mathlib
import PineForge.Trades.Frames

/-!
# What a row reads as

A row read while no file operation fails is the value of its state: its entry in the cache, or its
descriptor in the window or in the index file, with its texts out of the payload (`read_quiet`).
Ledgers that agree on these read alike (`readingOf_congr`).
-/

namespace PineForge.Trades

open BigEndian ByteFile Command

/-- No operation to come fails. -/
def quiet : Faults := ⟨[], []⟩

section

variable (st : Ledger)

/-- What a text reads as. -/
def textOf (offset length : ℕ) : Except Failure Bytes :=
  if st.payloadEnd < offset ∨ st.payloadEnd - offset < length ∨
    (length ≠ 0 ∧ offset < st.payloadRetired) then
    .error .stringExtent
  else if length = 0 then .ok []
  else if st.payloadEnd - offset ≤ tailBytes then .ok (getTail st.tail offset length)
  else if offset < st.payloadOrigin then .error .offset
  else if maxOffset < offset - st.payloadOrigin + length then .error .offset
  else (readAt st.payload (offset - st.payloadOrigin) length).elim (.error .shortRead) .ok

/-- What a descriptor outside the cache reads as. -/
def descriptorOf (global : ℕ) : Except Failure Record :=
  if st.residentFirst ≤ global then .ok (st.resident.getD (global - st.residentFirst) default)
  else if (2 ^ 64 - 1) / recordBytes < global ∨ recordBytes * global < st.indexOrigin then
    .error .offset
  else if maxOffset < recordBytes * global - st.indexOrigin + recordBytes then .error .offset
  else
    (readAt st.index (recordBytes * global - st.indexOrigin) recordBytes).elim (.error .shortRead)
      (.ok ∘ decode)

/-- The four texts of a descriptor. -/
def textsOf (texts : Texts StringExtent) : Except Failure (Texts Bytes) := do
  let entryId ← textOf st texts.entryId.offset.toNat texts.entryId.length.toNat
  let entryComment ← textOf st texts.entryComment.offset.toNat texts.entryComment.length.toNat
  let exitComment ← textOf st texts.exitComment.offset.toNat texts.exitComment.length.toNat
  let exitId ← textOf st texts.exitId.offset.toNat texts.exitId.length.toNat
  pure ⟨entryId, entryComment, exitComment, exitId⟩

/-- The row a record stands for. -/
def rowOf (record : Record) : Except Failure Trade :=
  (textsOf st record.texts).map (⟨record.figures, ·⟩)

/-- Whether a row may be read. -/
def checkOf (global : ℕ) : Except Failure Unit :=
  match st.rollbackFailure with
  | some e => .error e
  | none =>
    if st.policy = .retiring ∧ global < st.first then .error .retiredRead
    else if st.finish ≤ global then .error .outsideWindow
    else .ok ()

/-- A row out of the cache. -/
def entryRow (entry : CacheEntry) : Except Failure Trade :=
  match entry.strings with
  | some strings => .ok ⟨entry.record.figures, unpack entry.record.texts strings⟩
  | none => rowOf st entry.record

/-- A row that is not in the cache: where there is room its texts go through it. -/
def uncachedRow (global : ℕ) (record : Record) : Except Failure Trade :=
  if st.cacheSet global = [] ∨ packs record = false then rowOf st record
  else (textsOf st record.texts).map fun texts =>
    ⟨record.figures, unpack record.texts texts.toList.flatten⟩

/-- What a row reads as. -/
def readingOf (global : ℕ) : Except Failure Trade := do
  checkOf st global
  match st.cachedSlot global with
  | some slot => entryRow st ((st.entries slot).getD ⟨global, default, none⟩)
  | none => uncachedRow st global (← descriptorOf st global)

end

/-! ## Reads that do not fail on a file -/

theorem bind_quiet {st : Ledger} {β γ : Type} {m : Action β} {v : Except Failure β}
    (h : m st = (v, st)) {k : β → Action γ}
    {w : β → Except Failure γ} (hk : ∀ b, k b st = (w b, st)) : (m >>= k) st = (v >>= w, st) := by
  rw [bind_apply, h]
  cases v with
  | error e => rfl
  | ok b => exact hk b

theorem recordOffset_eq (global : ℕ) (st : Ledger) : recordOffset global st
    = (if (2 ^ 64 - 1) / recordBytes < global ∨ recordBytes * global < st.indexOrigin then
      .error .offset
        else .ok (recordBytes * global - st.indexOrigin), st) := by
  unfold recordOffset
  rw [get_bind_apply]
  split
  · rfl
  · rfl

section

variable {st : Ledger} (hio : st.io.calls = [])

include hio

theorem outcome_quiet : outcome false st = (.ok .ok, st) := by
  unfold outcome
  rw [if_neg (by decide), hio]

theorem readFile_quiet (area : Area) (offset length : ℕ) :
    readFile area offset length st = (if maxOffset < offset + length then .error .offset
      else (readAt (st.file area) offset length).elim (.error .shortRead) .ok, st) := by
  unfold readFile
  rw [bind_apply, checkExtent_eq]
  by_cases hextent : maxOffset < offset + length
  · rw [if_pos hextent, if_pos hextent]
  · rw [if_neg hextent, if_neg hextent]
    dsimp only
    rw [bind_ok (outcome_quiet hio)]
    dsimp only
    rw [get_bind_apply]
    cases readAt (st.file area) offset length with
    | none => rfl
    | some bytes => rfl

/-- A string read when no call fails. -/
theorem readString_quiet (offset length : ℕ) :
    readString offset length st = (textOf st offset length, st) := by
  have hvalid : validateString offset length st
      = if st.payloadEnd < offset ∨ st.payloadEnd - offset < length ∨
        (length ≠ 0 ∧ offset < st.payloadRetired) then
        (.error .stringExtent, st) else (.ok (), st) := by
    unfold validateString
    rw [get_bind_apply]
    split
    · rfl
    · rfl
  unfold readString textOf
  rw [bind_apply, hvalid]
  by_cases hbad : st.payloadEnd < offset ∨ st.payloadEnd - offset < length ∨
    (length ≠ 0 ∧ offset < st.payloadRetired)
  · rw [if_pos hbad, if_pos hbad]
  · rw [if_neg hbad, if_neg hbad]
    dsimp only
    rw [get_bind_apply]
    by_cases hzero : length = 0
    · rw [if_pos hzero, if_pos hzero]
      rfl
    · rw [if_neg hzero, if_neg hzero]
      by_cases htail : st.payloadEnd - offset ≤ tailBytes
      · rw [if_pos htail, if_pos htail]
        rfl
      · rw [if_neg htail, if_neg htail, bind_apply, payloadOffset_eq]
        by_cases horigin : offset < st.payloadOrigin
        · rw [if_pos horigin, if_pos horigin]
        · rw [if_neg horigin, if_neg horigin]
          exact readFile_quiet hio _ _ _

theorem getString_quiet (text : StringExtent) :
    getString text st = (textOf st text.offset.toNat text.length.toNat, st) :=
  readString_quiet hio _ _

theorem getTexts_quiet (texts : Texts StringExtent) : getTexts texts st = (textsOf st texts, st) :=
  bind_quiet (getString_quiet hio _) fun _ => bind_quiet (getString_quiet hio _) fun _ =>
    bind_quiet (getString_quiet hio _) fun _ => bind_quiet (getString_quiet hio _) fun _ => rfl

theorem decodeRow_quiet (record : Record) : decodeRow record st = (rowOf st record, st) := by
  unfold decodeRow rowOf
  rw [bind_apply, getTexts_quiet hio]
  cases textsOf st record.texts with
  | error e => rfl
  | ok texts => rfl

theorem uncachedDescriptor_quiet (global : ℕ) :
    uncachedDescriptor global st = (descriptorOf st global, st) := by
  unfold uncachedDescriptor descriptorOf
  rw [get_bind_apply]
  by_cases hresident : st.residentFirst ≤ global
  · rw [if_pos hresident, if_pos hresident]
    rfl
  · rw [if_neg hresident, if_neg hresident, bind_apply, recordOffset_eq]
    by_cases hoffset : (2 ^ 64 - 1) / recordBytes < global ∨ recordBytes * global < st.indexOrigin
    · rw [if_pos hoffset, if_pos hoffset]
    · rw [if_neg hoffset, if_neg hoffset]
      dsimp only
      rw [bind_apply, readFile_quiet hio]
      by_cases hextent : maxOffset < recordBytes * global - st.indexOrigin + recordBytes
      · rw [if_pos hextent, if_pos hextent]
      · rw [if_neg hextent, if_neg hextent]
        have hfile : st.file .index = st.index := rfl
        rw [hfile]
        cases readAt st.index (recordBytes * global - st.indexOrigin) recordBytes with
        | none => rfl
        | some bytes => rfl

end

theorem check_eq (global : ℕ) (st : Ledger) : check global false st = (checkOf st global, st) := by
  unfold check checkOf
  rw [get_bind_apply]
  cases st.rollbackFailure with
  | some e => rfl
  | none =>
    dsimp only
    split
    · rfl
    · rename_i hretired
      by_cases hend : st.finish ≤ global
      · rw [if_pos (.inl hend), if_pos hend]
        rfl
      · rw [if_neg (by simp [hend]), if_neg hend]
        rfl

theorem cacheSet_of_rows {st : Ledger} (h : st.cacheRows = 0) (global : ℕ) :
    st.cacheSet global = [] := by
  unfold Ledger.cacheSet
  rw [h, Nat.zero_sub, Nat.min_zero]
  rfl

theorem oldest_isSome (ranks : ℕ → ℕ) (slots : List ℕ) (oldest : ℕ) :
    (slots.foldl (fun victim slot =>
      match victim with
      | none => some slot
      | some oldest => if ranks oldest < ranks slot then some slot else victim)
        (some oldest)).isSome := by
  induction slots generalizing oldest with
  | nil => rfl
  | cons slot slots ih =>
    rw [List.foldl_cons]
    dsimp only
    split
    · exact ih slot
    · exact ih oldest

theorem victimSlot_isSome {st : Ledger} {global : ℕ} (h : st.cacheSet global ≠ []) :
    (st.victimSlot global).isSome := by
  unfold Ledger.victimSlot
  split
  · rfl
  · cases hset : st.cacheSet global with
    | nil => exact absurd hset h
    | cons slot slots => exact oldest_isSome st.ranks slots slot

theorem victimSlot_of_nil {st : Ledger} {global : ℕ} (h : st.cacheSet global = []) :
    st.victimSlot global = none := by
  unfold Ledger.victimSlot
  rw [h]
  rfl

/-- A record kept when no call fails. -/
theorem remember_quiet {st : Ledger} (hio : st.io.calls = []) {global slot : ℕ}
    (hslot : st.victimSlot global = some slot)
    (record : Record) :
    ∃ st', (∀ texts, textsOf st' texts = textsOf st texts) ∧ st'.io.calls = [] ∧
      remember global record none st
        = (if packs record then
            (textsOf st record.texts).map fun texts => ⟨global, record, some texts.toList.flatten⟩
          else .ok ⟨global, record, none⟩, st') := by
  unfold remember packStrings
  rw [get_bind_apply, hslot]
  dsimp only
  rw [modify_bind_apply]
  split
  · have hquiet : (({ st with
        cacheOpen := true, ranks := Function.update st.ranks slot 0 } : Ledger).setEntry slot
          none).io.calls = [] := hio
    have htexts := getTexts_quiet hquiet record.texts
    have hvalue : textsOf (({ st with
      cacheOpen := true, ranks := Function.update st.ranks slot 0 } : Ledger).setEntry slot none)
        record.texts
        = textsOf st record.texts := rfl
    rw [hvalue] at htexts
    cases hread : textsOf st record.texts with
    | error e =>
      rw [hread] at htexts
      refine ⟨_, ?_, ?_, bind_error (bind_error htexts _) _⟩
      · intro texts
        rfl
      · exact hio
    | ok texts =>
      rw [hread] at htexts
      have hpack := bind_ok htexts fun texts =>
        (pure (some texts.toList.flatten) : Action (Option Bytes))
      refine ⟨_, ?_, ?_, bind_ok hpack _⟩
      · intro texts
        rfl
      · exact hio
  · refine ⟨_, ?_, ?_, rfl⟩
    · intro texts
      rfl
    · exact hio

/-- The entry of a row that is not in the cache. -/
def loadedEntry (st : Ledger) (global : ℕ) (record : Record) : Except Failure CacheEntry :=
  if st.cacheSet global = [] ∨ packs record = false then .ok ⟨global, record, none⟩
  else (textsOf st record.texts).map fun texts => ⟨global, record, some texts.toList.flatten⟩

theorem remember_loaded {st : Ledger} (hio : st.io.calls = []) (global : ℕ) (record : Record) :
    ∃ st', (∀ texts, textsOf st' texts = textsOf st texts) ∧ st'.io.calls = [] ∧
      remember global record none st = (loadedEntry st global record, st') := by
  unfold loadedEntry
  by_cases hset : st.cacheSet global = []
  · refine ⟨st, fun _ => rfl, hio, ?_⟩
    unfold remember
    rw [get_bind_apply, victimSlot_of_nil hset, if_pos (.inl hset)]
    rfl
  · obtain ⟨slot, hslot⟩ := Option.isSome_iff_exists.mp (victimSlot_isSome hset)
    obtain ⟨st', htexts, hquiet, hrun⟩ := remember_quiet hio hslot record
    refine ⟨st', htexts, hquiet, ?_⟩
    rw [hrun]
    cases hpacks : packs record with
    | true => simp [hset]
    | false => simp

theorem load_quiet {st : Ledger} (hio : st.io.calls = []) {global : ℕ}
    (hcached : st.cachedSlot global = none) :
    ∃ st', (∀ texts, textsOf st' texts = textsOf st texts) ∧ st'.io.calls = [] ∧
      load global st = (descriptorOf st global >>= loadedEntry st global, st') := by
  unfold load
  rw [get_bind_apply, hcached]
  dsimp only
  cases hread : descriptorOf st global with
  | error e =>
    have hrun := uncachedDescriptor_quiet hio global
    rw [hread] at hrun
    refine ⟨st, fun _ => rfl, hio, ?_⟩
    split
    · exact bind_error hrun _
    · exact bind_error hrun _
  | ok record =>
    have hrun := uncachedDescriptor_quiet hio global
    rw [hread] at hrun
    rw [Result.ok_bind]
    split
    · rename_i hrows
      refine ⟨st, fun _ => rfl, hio, ?_⟩
      rw [bind_ok hrun, loadedEntry, if_pos (.inl (cacheSet_of_rows hrows global))]
      rfl
    · rw [bind_ok hrun]
      exact remember_loaded hio global record

/-- A read when no call fails. -/
theorem read_quiet {st : Ledger} (hio : st.io.calls = []) (global : ℕ) :
    (read global st).1 = readingOf st global := by
  unfold read readingOf
  rw [bind_apply, check_eq]
  cases checkOf st global with
  | error e => rfl
  | ok u =>
    dsimp only
    rw [Result.ok_bind]
    cases hcached : st.cachedSlot global with
    | some slot =>
      unfold load
      rw [bind_apply, get_bind_apply, hcached]
      dsimp only
      rw [modify_bind_apply, pure_apply]
      unfold entryRow
      dsimp only
      cases ((st.entries slot).getD ⟨global, default, none⟩).strings with
      | some strings => rfl
      | none =>
        dsimp only
        have hquiet : (st.touch global slot).io.calls = [] := hio
        rw [decodeRow_quiet hquiet]
        rfl
    | none =>
      obtain ⟨st', htexts, hquiet, hload⟩ := load_quiet hio hcached
      rw [bind_apply, hload]
      cases descriptorOf st global with
      | error e => rfl
      | ok record =>
        rw [Result.ok_bind, Result.ok_bind]
        unfold loadedEntry uncachedRow
        by_cases hroom : st.cacheSet global = [] ∨ packs record = false
        · rw [if_pos hroom, if_pos hroom]
          dsimp only
          rw [decodeRow_quiet hquiet]
          unfold rowOf
          rw [htexts]
        · rw [if_neg hroom, if_neg hroom]
          cases textsOf st record.texts with
          | error e => rfl
          | ok texts => rfl

end PineForge.Trades
