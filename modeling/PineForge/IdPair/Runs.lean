import Mathlib
import PineForge.Machine.Runs
import PineForge.IdPair.Index

/-!
# An id table is a map

A call changes one record, or adds one, or is refused: the map that the table stands for changes at
the key of the call, as it says, or not at all. Over any run of calls a lookup answers the last
value of a key that was not erased since.
-/

namespace PineForge.IdPair

open Probing

/-- The value that a record gives its key. -/
def Record.shown (record : Record) : Option ℤ := if record.live then some record.value else none

namespace Store

variable {st t : Store} {key : Key} {m : Key → Option ℤ} {record old : Record} {offset : ℕ}

/-! ## What is held back -/

/-- Nothing is pending. -/
def Cleared (st : Store) : Prop := st.pending = none ∧ st.slotPending = none

theorem recordAt_flushPending (st : Store) : st.flushPending.recordAt = st.recordAt := by
  funext offset
  cases hpending : st.pending with
  | none => simp only [flushPending, hpending]
  | some held =>
    simp only [flushPending, recordAt, hpending]
    by_cases hat : offset = held.1
    · rw [hat, Function.update_self, if_pos rfl]
    · rw [Function.update_of_ne hat, if_neg hat]

theorem slotAt_flushPending (st : Store) : st.flushPending.slotAt = st.slotAt := by
  funext i
  cases hpending : st.pending with
  | none => simp only [flushPending, hpending]
  | some held =>
    cases hslot : st.slotPending with
    | none => simp only [flushPending, slotAt, hpending, hslot]
    | some waiting =>
      simp only [flushPending, slotAt, hpending, hslot]
      by_cases hat : i = waiting.1
      · rw [hat, Function.update_self, if_pos rfl]
      · rw [Function.update_of_ne hat, if_neg hat]

theorem flushPending_cleared (h : Indexed st) : st.flushPending.Cleared := by
  cases hpending : st.pending with
  | none =>
    simp only [flushPending, hpending]
    exact ⟨hpending, h.held hpending⟩
  | some held =>
    simp only [flushPending, hpending]
    exact ⟨rfl, rfl⟩

theorem flushPending_fields (st : Store) :
    st.flushPending.hash = st.hash ∧ st.flushPending.slots = st.slots ∧
    st.flushPending.dataBytes = st.dataBytes ∧ st.flushPending.used = st.used ∧
      st.flushPending.size = st.size ∧
    st.flushPending.slab = st.slab := by
  unfold flushPending
  split <;> exact ⟨rfl, rfl, rfl, rfl, rfl, rfl⟩

theorem Maps.flushPending (h : Maps st m) : Maps st.flushPending m := by
  obtain ⟨hhash, hslots, hbytes, hused, hsize, -⟩ := flushPending_fields st
  have hmember : st.flushPending.Member = st.Member := by
    unfold Member
    rw [recordAt_flushPending]
  refine ⟨⟨?_, ?_, ?_, ?_, ?_, ?_, ?_, fun _ => (flushPending_cleared h.toIndexed).2⟩, ?_, ?_⟩
  · rw [hslots]
    exact h.sized
  · rw [hslots, slotAt_flushPending, hmember]
    exact h.placed
  · rw [recordAt_flushPending, hhash]
    exact h.hashed
  · rw [recordAt_flushPending, hbytes]
    exact h.behind
  · rw [recordAt_flushPending]
    exact h.once
  · rw [hslots, slotAt_flushPending, hused]
    exact h.load
  · rw [hused, hslots]
    exact h.half
  · rw [recordAt_flushPending]
    exact h.holds
  · rw [hsize]
    exact h.counted

/-! ## One record changes -/

theorem recordAt_publish (hclear : st.Cleared) (offset : ℕ) (record : Record) :
    (st.publish offset record).recordAt = Function.update st.recordAt offset (some record) := by
  have hold : st.recordAt = st.records := by
    funext i
    simp only [recordAt, hclear.1]
  rw [hold]
  funext i
  unfold publish
  split_ifs
  · by_cases hat : i = offset
    · simp only [recordAt, hat, if_pos, Function.update_self]
    · simp only [recordAt, if_neg hat, Function.update_of_ne hat]
  · simp only [recordAt, hclear.1]

theorem slotAt_publish (hclear : st.Cleared) (offset : ℕ) (record : Record) :
    (st.publish offset record).slotAt = st.slotAt := by
  funext i
  unfold publish
  split_ifs <;> simp only [slotAt, hclear.2]

theorem publish_fields (st : Store) (offset : ℕ) (record : Record) :
    (st.publish offset record).hash = st.hash ∧ (st.publish offset record).slots = st.slots ∧
    (st.publish offset record).dataBytes = st.dataBytes ∧ (st.publish offset record).used
    = st.used := by
  unfold publish
  split_ifs <;> exact ⟨rfl, rfl, rfl, rfl⟩

theorem publish_held (hclear : st.Cleared) (offset : ℕ) (record : Record) :
    (st.publish offset record).slotPending = none := by
  unfold publish
  split_ifs
  · rfl
  · exact hclear.2

/-- The live keys after one update. -/
theorem exists_live_update {n : ℕ}
    (h : ∃ live : Finset Key, live.card = n ∧ ∀ key, key ∈ live ↔ (m key).isSome)
    (key : Key) (value : Option ℤ) : ∃ live : Finset Key,
      live.card + (m key).isSome.toNat = n + value.isSome.toNat ∧
        ∀ k, k ∈ live ↔ (Function.update m key value k).isSome := by
  obtain ⟨live, hcard, hlive⟩ := h
  have herase : (live.erase key).card + (m key).isSome.toNat = n := by
    cases hsome : (m key).isSome with
    | true =>
      rw [← hcard]
      exact Finset.card_erase_add_one ((hlive key).mpr hsome)
    | false =>
      rw [← hcard, Finset.erase_eq_of_notMem fun hmem =>
        Bool.false_ne_true (hsome.symm.trans ((hlive key).mp hmem))]
      rfl
  have hother : ∀ k, k ≠ key → (k ∈ live.erase key ↔ (Function.update m key value k).isSome) := by
    intro k hk
    rw [Finset.mem_erase, Function.update_of_ne hk, hlive k]
    exact ⟨fun h => h.2, fun h => ⟨hk, h⟩⟩
  cases hvalue : value.isSome with
  | true =>
    refine ⟨insert key (live.erase key), ?_, fun k => ?_⟩
    · rw [Finset.card_insert_of_notMem (Finset.notMem_erase key live), ← herase]
      change _ + 1 + _ = _ + _ + 1
      omega
    · by_cases hk : k = key
      · rw [hk, Function.update_self, hvalue]
        exact ⟨fun _ => rfl, fun _ => Finset.mem_insert_self ..⟩
      · rw [Finset.mem_insert, hother k hk]
        exact ⟨fun h => h.resolve_left hk, Or.inr⟩
  | false =>
    refine ⟨live.erase key, herase, fun k => ?_⟩
    by_cases hk : k = key
    · rw [hk, Function.update_self, hvalue]
      exact ⟨fun hmem => absurd hmem (Finset.notMem_erase key live),
        fun habsurd => absurd habsurd Bool.false_ne_true⟩
    · exact hother k hk

/-- The record at one offset is the one of its key; the map changes there. -/
theorem holds_update (h : Maps st m)
    (hat : ∀ i r, st.recordAt i = some r → (r.key = record.key ↔ i = offset))
    (hrecords : t.recordAt = Function.update st.recordAt offset (some record)) (key : Key) (v : ℤ) :
    Function.update m record.key (Record.shown record) key = some v ↔
      ∃ offset record, t.recordAt offset = some record ∧ record.key = key ∧ record.live = true ∧
        record.value = v := by
  rw [hrecords]
  by_cases hkey : key = record.key
  · rw [hkey, Function.update_self, Record.shown]
    constructor
    · intro hshown
      split_ifs at hshown with hlive
      exact ⟨offset, record, Function.update_self .., rfl, hlive, Option.some.inj hshown⟩
    · rintro ⟨i, r, hr, hsame, hlive, rfl⟩
      by_cases hi : i = offset
      · rw [hi, Function.update_self] at hr
        rw [Option.some.inj hr, if_pos hlive]
      · rw [Function.update_of_ne hi] at hr
        exact absurd ((hat i r hr).mp hsame) hi
  · rw [Function.update_of_ne hkey, h.holds]
    constructor
    · rintro ⟨i, r, hr, hsame, hrest⟩
      have hi : i ≠ offset := fun hi => hkey (hsame ▸ (hat i r hr).mpr hi)
      exact ⟨i, r, by rw [Function.update_of_ne hi, hr], hsame, hrest⟩
    · rintro ⟨i, r, hr, hsame, hrest⟩
      by_cases hi : i = offset
      · rw [hi, Function.update_self] at hr
        rw [← Option.some.inj hr] at hsame
        exact absurd hsame.symm hkey
      · rw [Function.update_of_ne hi] at hr
        exact ⟨i, r, hr, hsame, hrest⟩

theorem at_iff (h : Indexed st) (hold : st.recordAt offset = some old) (i : ℕ) (r : Record)
    (hr : st.recordAt i = some r) : r.key = old.key ↔ i = offset := by
  constructor
  · exact fun hkey => h.once i offset r old hr hold hkey
  · rintro rfl
    rw [hold] at hr
    rw [Option.some.inj hr]

/-- A record is rewritten in place. -/
theorem Maps.rewrite (h : Maps st m) (hclear : st.Cleared) (hold : st.recordAt offset = some old)
    (hkey : record.key = old.key) (hhash : record.hash = old.hash) {n : ℕ}
    (hsize : n + (m record.key).isSome.toNat = st.size + (Record.shown record).isSome.toNat) :
    Maps { st.publish offset record with size := n }
      (Function.update m record.key (Record.shown record)) := by
  obtain ⟨hsameHash, hslots, hbytes, hused⟩ := publish_fields st offset record
  have hrecords := recordAt_publish hclear offset record
  have hindex := slotAt_publish hclear offset record
  -- what a record of the new table was in the old one
  have hback : ∀ i r, (st.publish offset record).recordAt i = some r →
      ∃ r', st.recordAt i = some r' ∧ r'.key = r.key ∧ r'.hash = r.hash := by
    intro i r hr
    rw [hrecords] at hr
    by_cases hi : i = offset
    · rw [hi, Function.update_self] at hr
      rw [hi, ← Option.some.inj hr]
      exact ⟨old, hold, hkey.symm, hhash.symm⟩
    · rw [Function.update_of_ne hi] at hr
      exact ⟨r, hr, rfl, rfl⟩
  have hforth : ∀ i r', st.recordAt i = some r' → ∃ r, (st.publish offset record).recordAt i
      = some r ∧ r.hash = r'.hash := by
    intro i r' hr'
    rw [hrecords]
    by_cases hi : i = offset
    · rw [hi, hold] at hr'
      rw [hi, Function.update_self]
      exact ⟨record, rfl, by rw [hhash, Option.some.inj hr']⟩
    · rw [Function.update_of_ne hi]
      exact ⟨r', hr', rfl⟩
  have hmember : (st.publish offset record).Member = st.Member := by
    funext slot
    rw [eq_iff_iff]
    constructor
    · rintro ⟨r, hr, hslot⟩
      obtain ⟨r', hr', -, hsame⟩ := hback _ r hr
      exact ⟨r', hr', hsame.trans hslot⟩
    · rintro ⟨r', hr', hslot⟩
      obtain ⟨r, hr, hsame⟩ := hforth _ r' hr'
      exact ⟨r, hr, hsame.trans hslot⟩
  refine ⟨⟨?_, ?_, ?_, ?_, ?_, ?_, ?_, fun _ => publish_held hclear offset record⟩, ?_, ?_⟩
  · change Sized (st.publish offset record).slots
    rw [hslots]
    exact h.sized
  · change Placed (st.publish offset record).slots (st.publish offset record).slotAt Slot.hash
      (st.publish offset record).Member
    rw [hslots, hindex, hmember]
    exact h.placed
  · intro i r hr
    obtain ⟨r', hr', hsameKey, hsame⟩ := hback i r hr
    change r.hash = (st.publish offset record).hash r.key
    rw [hsameHash, ← hsame, ← hsameKey]
    exact h.hashed i r' hr'
  · intro i r hr
    obtain ⟨r', hr', -⟩ := hback i r hr
    change i < (st.publish offset record).dataBytes
    rw [hbytes]
    exact h.behind i r' hr'
  · intro i j r s hr hs hsame
    obtain ⟨r', hr', hrKey, -⟩ := hback i r hr
    obtain ⟨s', hs', hsKey, -⟩ := hback j s hs
    exact h.once i j r' s' hr' hs' (by rw [hrKey, hsKey, hsame])
  · change occupied (st.publish offset record).slots (st.publish offset record).slotAt
      = (st.publish offset record).used
    rw [hslots, hindex, hused]
    exact h.load
  · change (st.publish offset record).used ≤ (st.publish offset record).slots / 2
    rw [hslots, hused]
    exact h.half
  · refine holds_update h (fun i r hr => ?_) hrecords
    rw [hkey]
    exact at_iff h.toIndexed hold i r hr
  · obtain ⟨live, hcard, hlive⟩ := exists_live_update h.counted record.key (Record.shown record)
    exact ⟨live, by change live.card = n; omega, hlive⟩

/-! ## One record more -/

theorem recordAt_append (hclear : st.Cleared) (i : ℕ) (record : Record) :
    (st.append i record).recordAt = Function.update st.recordAt st.dataBytes (some record) := by
  have hold : st.recordAt = st.records := by
    funext j
    simp only [recordAt, hclear.1]
  rw [hold]
  funext j
  unfold append
  by_cases hfold : (st.folded && st.slab.isNone) = true
  · simp only [hfold, if_true, recordAt]
    by_cases hat : j = st.dataBytes
    · rw [if_pos hat, hat, Function.update_self]
    · rw [if_neg hat]
  · simp only [hfold, Bool.false_eq_true, if_false, recordAt, hclear.1]

theorem slotAt_append (hclear : st.Cleared) (i : ℕ) (record : Record) :
    (st.append i record).slotAt = Function.update st.slotAt i
    (some ⟨record.hash, st.dataBytes⟩) := by
  have hold : st.slotAt = st.index := by
    funext j
    simp only [slotAt, hclear.2]
  rw [hold]
  funext j
  unfold append
  by_cases hfold : (st.folded && st.slab.isNone) = true
  · simp only [hfold, if_true, slotAt]
    by_cases hat : j = i
    · rw [if_pos hat, hat, Function.update_self]
    · rw [if_neg hat, Function.update_of_ne hat]
  · simp only [hfold, Bool.false_eq_true, if_false, slotAt, hclear.2]

theorem append_fields (st : Store) (i : ℕ) (record : Record) :
    (st.append i record).hash = st.hash ∧ (st.append i record).slots = st.slots ∧
    st.dataBytes < (st.append i record).dataBytes ∧ (st.append i record).used = st.used + 1 ∧
    (st.append i record).size = st.size + 1 := by
  have hbytes : st.dataBytes < st.dataBytes + headerBytes + record.key.first.length
      + record.key.secondSize := by
    unfold headerBytes
    omega
  unfold append
  dsimp only
  split_ifs <;> exact ⟨rfl, rfl, hbytes, rfl, rfl⟩

theorem append_held (hclear : st.Cleared) (i : ℕ) (record : Record) :
    (st.append i record).pending = none → (st.append i record).slotPending = none := by
  unfold append
  by_cases hfold : (st.folded && st.slab.isNone) = true
  · simp only [hfold, if_true]
    exact fun habsurd => absurd habsurd (Option.some_ne_none _)
  · simp only [hfold, Bool.false_eq_true, if_false]
    exact fun _ => hclear.2

theorem recordAt_end (h : Indexed st) : st.recordAt st.dataBytes = none := by
  by_contra hsome
  obtain ⟨r, hr⟩ := Option.ne_none_iff_exists'.mp hsome
  exact lt_irrefl _ (h.behind _ r hr)

/-- A record is appended and indexed. -/
theorem Maps.extend (h : Maps st m) (hclear : st.Cleared) (hkey : ¬st.Known record.key)
    (hhash : record.hash = st.hash record.key) (hlive : record.live = true)
    (hroom : st.used < st.slots / 2) {d : ℕ}
    (hd : d < st.slots) (hempty : st.slotAt ((record.hash + d) % st.slots) = none)
    (hchain : ∀ j, j < d → st.slotAt ((record.hash + j) % st.slots) ≠ none) :
    Maps (st.append ((record.hash + d) % st.slots) record)
      (Function.update m record.key (some record.value)) := by
  obtain ⟨hsameHash, hslots, hbytes, hused, hsize⟩ :=
    append_fields st ((record.hash + d) % st.slots) record
  have hrecords := recordAt_append hclear ((record.hash + d) % st.slots) record
  have hindex := slotAt_append hclear ((record.hash + d) % st.slots) record
  have hfresh := recordAt_end h.toIndexed
  have hcases : ∀ i r, (st.append ((record.hash + d) % st.slots) record).recordAt i = some r →
      (i = st.dataBytes ∧ r = record) ∨ st.recordAt i = some r := by
    intro i r hr
    rw [hrecords] at hr
    by_cases hi : i = st.dataBytes
    · rw [hi, Function.update_self] at hr
      exact Or.inl ⟨hi, (Option.some.inj hr).symm⟩
    · rw [Function.update_of_ne hi] at hr
      exact Or.inr hr
  have hkeeps : ∀ i r, st.recordAt i = some r →
      (st.append ((record.hash + d) % st.slots) record).recordAt i = some r := by
    intro i r hr
    rw [hrecords, Function.update_of_ne, hr]
    rintro rfl
    rw [hfresh] at hr
    exact Option.some_ne_none r hr.symm
  have hmember : (st.append ((record.hash + d) % st.slots) record).Member =
      fun slot => st.Member slot ∨ slot = ⟨record.hash, st.dataBytes⟩ := by
    funext slot
    rw [eq_iff_iff]
    constructor
    · rintro ⟨r, hr, hslot⟩
      obtain ⟨hoffset, rfl⟩ | hr := hcases _ r hr
      · right
        cases slot
        rw [Slot.mk.injEq]
        exact ⟨hslot.symm, hoffset⟩
      · exact Or.inl ⟨r, hr, hslot⟩
    · rintro (⟨r, hr, hslot⟩ | rfl)
      · exact ⟨r, hkeeps _ r hr, hslot⟩
      · exact ⟨record, by rw [hrecords, Function.update_self], rfl⟩
  have hnew : ¬st.Member ⟨record.hash, st.dataBytes⟩ := by
    rintro ⟨r, hr, -⟩
    rw [hfresh] at hr
    exact Option.some_ne_none r hr.symm
  refine ⟨⟨?_, ?_, ?_, ?_, ?_, ?_, ?_, append_held hclear _ record⟩, ?_, ?_⟩
  · rw [hslots]
    exact h.sized
  · rw [hslots, hindex, hmember]
    exact h.placed.insert hnew hd hempty hchain
  · intro i r hr
    rw [hsameHash]
    obtain ⟨-, rfl⟩ | hr := hcases i r hr
    · exact hhash
    · exact h.hashed i r hr
  · intro i r hr
    obtain ⟨rfl, -⟩ | hr := hcases i r hr
    · exact hbytes
    · exact (h.behind i r hr).trans hbytes
  · intro i j r s hr hs hsame
    obtain ⟨hi, hrNew⟩ | hrOld := hcases i r hr
    · obtain ⟨hj, -⟩ | hsOld := hcases j s hs
      · rw [hi, hj]
      · exact absurd ⟨j, s, hsOld, by rw [← hsame, hrNew]⟩ hkey
    · obtain ⟨-, hsNew⟩ | hsOld := hcases j s hs
      · exact absurd ⟨i, r, hrOld, by rw [hsame, hsNew]⟩ hkey
      · exact h.once i j r s hrOld hsOld hsame
  · rw [hslots, hindex, hused, occupied_update (Nat.mod_lt _ (by omega)) hempty, h.load]
  · rw [hused, hslots]
    omega
  · have hshown : some record.value = record.shown := by rw [Record.shown, if_pos hlive]
    rw [hshown]
    refine holds_update h (fun i r hr => ?_) hrecords
    constructor
    · exact fun hsame => absurd ⟨i, r, hr, hsame⟩ hkey
    · rintro rfl
      rw [hfresh] at hr
      exact absurd hr.symm (Option.some_ne_none r)
  · obtain ⟨live, hcard, hmem⟩ := exists_live_update h.counted record.key (some record.value)
    rw [h.of_unknown hkey] at hcard
    exact ⟨live, by rw [hsize]; exact hcard, hmem⟩

/-! ## Calls -/

/-- The call changed the map and returned, or it was refused. -/
def Answered {β : Type} (r : Except Failure β × Store) (b : β) (m m' : Key → Option ℤ) : Prop :=
  (r.1 = .ok b ∧ Maps r.2 m') ∨ ∃ failure, r.1 = .error failure ∧ failure.refusal
    = true ∧ Maps r.2 m

theorem Answered.refused {β : Type} {b : β} {m' : Key → Option ℤ} {failure : Failure}
    (h : Maps st m)
    (hfailure : failure.refusal = true) : Answered (.error failure, st) b m m' :=
      Or.inr ⟨failure, rfl, hfailure, h⟩

theorem assignNew_answered (h : Maps st m) (hclear : st.Cleared) (hkey : ¬st.Known key)
    (hroom : st.used < st.slots / 2)
    (v : ℤ) : ∃ i, st.locate key = .ok (i, none) ∧
      Answered (st.assignNew key v i) true m (Function.update m key (some v)) := by
  obtain ⟨d, hd, hlocate, hempty, hchain⟩ := locate_unknown h.toIndexed (by omega) hkey
  refine ⟨_, hlocate, ?_⟩
  unfold assignNew
  split_ifs
  · exact .refused h rfl
  · exact .refused h rfl
  · have hextended : Maps (st.append ((st.hash key + d) % st.slots) ⟨st.hash key, key, v, true⟩)
        (Function.update m key (some v)) := h.extend hclear hkey rfl rfl hroom hd hempty hchain
    exact Or.inl ⟨rfl, hextended⟩

theorem assignFlushed_known (h : Maps st m) (hclear : st.Cleared)
    (hrecord : st.recordAt offset = some record) (v : ℤ) :
    Answered (st.assignFlushed record.key v) (m record.key).isNone m
      (Function.update m record.key (some v)) := by
  obtain ⟨-, i, hlocate⟩ := locate_known h.toIndexed hrecord rfl
  have hvalue := h.of_record hrecord
  simp only [assignFlushed, hlocate, hrecord]
  refine Or.inl ⟨?_, ?_⟩
  · rw [hvalue]
    cases record.live <;> rfl
  · have hsize : (if record.live then st.size else st.size + 1) + (m record.key).isSome.toNat
        = st.size + 1 := by
      rw [hvalue]
      cases record.live <;> rfl
    let new : Record := { record with value := v, live := true }
    exact @Maps.rewrite st m new record offset h hclear hrecord rfl rfl _ hsize

theorem withIndex_known (index : ℕ → Option Slot) (slots : ℕ) :
    (st.withIndex index slots).Known key ↔ st.Known key :=
  Iff.rfl

theorem assignFlushed_answered (h : Maps st m) (hclear : st.Cleared) (hn : st.slots ≠ 0)
    (key : Key) (v : ℤ) :
    Answered (st.assignFlushed key v) (m key).isNone m (Function.update m key (some v)) := by
  by_cases hkey : st.Known key
  · obtain ⟨offset, record, hrecord, rfl⟩ := hkey
    exact assignFlushed_known h hclear hrecord v
  · rw [h.of_unknown hkey]
    by_cases hroom : st.used ≥ st.slots / 2
    · obtain ⟨d, -, hlocate, -⟩ := locate_unknown h.toIndexed hn hkey
      by_cases hslab : st.slab.isSome = true
      · simp only [assignFlushed, hlocate, makeRoom, hroom, hslab, if_true]
        exact .refused h rfl
      · obtain hfull | ⟨index, slots, hgrown, hmaps, hused⟩ := growIndex_cases h hclear.2
        · simp only [assignFlushed, hlocate, makeRoom, hroom, hslab, Bool.false_eq_true, if_true,
            if_false, hfull]
          exact .refused h rfl
        · obtain ⟨i, hagain, hanswer⟩ :=
            assignNew_answered hmaps hclear ((withIndex_known index slots).not.mpr hkey) hused v
          simp only [assignFlushed, hlocate, makeRoom, hroom, hslab, Bool.false_eq_true, if_true,
            if_false, hgrown, hagain]
          exact hanswer
    · obtain ⟨i, hlocate, hanswer⟩ := assignNew_answered h hclear hkey (by omega) v
      simp only [assignFlushed, hlocate, makeRoom, hroom, if_false]
      exact hanswer

theorem admitNewKey_refusal {slab : Slab} {failure : Failure}
    (h : admitNewKey slab st key = .error failure) :
    failure.refusal = true := by
  unfold admitNewKey at h
  split_ifs at h <;> exact Except.error.inj h ▸ rfl

theorem preflightAssign_cases (h : Indexed st) (key : Key) :
    (∃ failure, st.preflightAssign key = .error failure ∧ failure.refusal = true) ∨
      (st.preflightAssign key = .ok () ∧ (st.slab = none ∨ st.slots ≠ 0)) := by
  have hadmitted : ∀ slab, (∃ failure, admitNewKey slab st key = .error failure ∧
    failure.refusal = true) ∨
      (admitNewKey slab st key = .ok () ∧ st.slots ≠ 0) := by
    intro slab
    cases hresult : admitNewKey slab st key with
    | error failure => exact Or.inl ⟨failure, rfl, admitNewKey_refusal hresult⟩
    | ok done =>
      refine Or.inr ⟨rfl, fun hzero => ?_⟩
      unfold admitNewKey at hresult
      rw [if_pos (Or.inr (Or.inl (by rw [hzero]; exact Nat.zero_le _)))] at hresult
      nomatch hresult
  unfold preflightAssign
  cases hslab : st.slab with
  | none => exact Or.inr ⟨rfl, Or.inl rfl⟩
  | some slab =>
    dsimp only
    split_ifs with hcontrol hlong hzero
    · exact Or.inl ⟨_, rfl, rfl⟩
    · exact Or.inl ⟨_, rfl, rfl⟩
    · exact (hadmitted slab).imp_right fun hok => ⟨hok.1, Or.inr hok.2⟩
    · obtain ⟨⟨i, found⟩, hfound⟩ := locate_total h hzero key
      rw [hfound]
      cases found with
      | none => exact (hadmitted slab).imp_right fun hok => ⟨hok.1, Or.inr hok.2⟩
      | some slot => exact Or.inr ⟨rfl, Or.inr hzero⟩

theorem insertOrAssign_answered (h : Maps st m) (key : Key) (v : ℤ) :
    Answered (st.insertOrAssign key v) (m key).isNone m (Function.update m key (some v)) := by
  unfold insertOrAssign
  obtain ⟨failure, hrefused, hrefusal⟩ | ⟨hok, hslots⟩ := preflightAssign_cases h.toIndexed key
  · rw [hrefused]
    exact .refused h hrefusal
  · rw [hok]
    dsimp only
    have hflushed := h.flushPending
    have hclear := flushPending_cleared h.toIndexed
    obtain ⟨-, hsame, -, -, -, hslab⟩ := flushPending_fields st
    by_cases hfirst : st.flushPending.slab = none ∧ st.flushPending.slots = 0
    · rw [if_pos hfirst]
      obtain hfull | ⟨index, slots, hgrown, hmaps, hused⟩ := growIndex_cases hflushed hclear.2
      · rw [hfull]
        exact .refused hflushed rfl
      · rw [hgrown]
        exact assignFlushed_answered hmaps hclear (show slots ≠ 0 by omega) key v
    · rw [if_neg hfirst]
      refine assignFlushed_answered hflushed hclear (fun hzero => ?_) key v
      exact hslots.elim (fun hnone => hfirst ⟨hslab.trans hnone, hzero⟩) fun hn =>
        hn (hsame.symm.trans hzero)

theorem minAssign_answered (h : Maps st m) (key : Key) (v : ℤ) :
    Answered (st.minAssign key v) () m (if (m key).all (v < ·) then Function.update m key (some v)
      else m) := by
  unfold minAssign
  rw [lookup_eq h]
  dsimp only
  split_ifs with hless
  · obtain ⟨hok, hmaps⟩ | ⟨failure, hrefused, hrefusal, hmaps⟩ := insertOrAssign_answered h key v
    · exact Or.inl ⟨by rw [hok]; rfl, hmaps⟩
    · exact Or.inr ⟨failure, by rw [hrefused]; rfl, hrefusal, hmaps⟩
  · exact Or.inl ⟨rfl, h⟩

/-- An erase answers whether the key was there. -/
theorem erase_answered (h : Maps st m) (key : Key) :
    (st.erase key).1 = .ok (m key).isSome ∧ Maps (st.erase key).2 (Function.update m key none) := by
  have hflushed := h.flushPending
  have hclear := flushPending_cleared h.toIndexed
  have hkeeps : m key = none → Function.update m key none = m := fun hnone => by
    rw [← hnone, Function.update_eq_self]
  unfold erase
  by_cases hkey : st.flushPending.Known key
  · obtain ⟨offset, record, hrecord, rfl⟩ := hkey
    obtain ⟨hn, -⟩ := locate_known hflushed.toIndexed hrecord rfl
    have hvalue := hflushed.of_record hrecord
    simp only [if_neg hn, find_known hflushed.toIndexed hrecord rfl]
    by_cases hlive : record.live = true
    · rw [if_pos hlive] at hvalue ⊢
      have hpos : 0 < st.flushPending.size := by
        obtain ⟨live, hcard, hmem⟩ := hflushed.counted
        rw [← hcard]
        exact Finset.card_pos.mpr ⟨record.key, (hmem _).mpr (by rw [hvalue]; rfl)⟩
      refine ⟨by rw [hvalue]; rfl, ?_⟩
      let new : Record := { record with live := false }
      refine @Maps.rewrite _ m new record offset hflushed hclear hrecord rfl rfl _ ?_
      change st.flushPending.size - 1 + (m record.key).isSome.toNat = st.flushPending.size + 0
      rw [hvalue]
      change st.flushPending.size - 1 + 1 = _
      omega
    · rw [if_neg hlive] at hvalue ⊢
      rw [hkeeps hvalue]
      exact ⟨by rw [hvalue]; rfl, hflushed⟩
  · have hnone := hflushed.of_unknown hkey
    rw [hkeeps hnone, hnone]
    by_cases hn : st.flushPending.slots = 0
    · simp only [if_pos hn]
      exact ⟨rfl, hflushed⟩
    · simp only [if_neg hn, find_unknown hflushed.toIndexed hn hkey]
      exact ⟨rfl, hflushed⟩

end Store

/-! ## Runs -/

/-- The calls that change a store. -/
inductive Call where
  | insertOrAssign (key : Key) (value : ℤ)
  | minAssign (key : Key) (value : ℤ)
  | erase (key : Key)
deriving DecidableEq, Repr

/-- A call with what it returned; `min_assign` returns nothing. -/
structure Event where
  call : Call
  answer : Except Failure (Option Bool)

namespace Call

/-- The key of a call. -/
def key : Call → Key
  | insertOrAssign key _ => key
  | minAssign key _ => key
  | erase key => key

/-- What a call runs. -/
def run (st : Store) : Call → Except Failure (Option Bool) × Store
  | insertOrAssign key value =>
    let result := st.insertOrAssign key value
    (result.1.map some, result.2)
  | minAssign key value =>
    let result := st.minAssign key value
    (result.1.map fun _ => none, result.2)
  | erase key =>
    let result := st.erase key
    (result.1.map some, result.2)

/-- What the call asks of a map. -/
def apply (m : Key → Option ℤ) : Call → Key → Option ℤ
  | insertOrAssign key value => Function.update m key (some value)
  | minAssign key value => if (m key).all (value < ·) then Function.update m key (some value) else m
  | erase key => Function.update m key none

/-- What a call returns on a map. -/
def returned (m : Key → Option ℤ) : Call → Option Bool
  | insertOrAssign key _ => some (m key).isNone
  | minAssign _ _ => none
  | erase key => some (m key).isSome

end Call

/-- One call and its answer. -/
def Step (st : Store) (e : Event) (t : Store) : Prop := e.call.run st = (e.answer, t)

/-- A call that was refused asked for nothing. -/
def Event.apply (m : Key → Option ℤ) (e : Event) : Key → Option ℤ :=
  match e.answer with
  | .ok _ => e.call.apply m
  | .error _ => m

/-- The last value of each key that was not erased since. -/
def contents (events : List Event) : Key → Option ℤ := events.foldl Event.apply fun _ => none

theorem contents_concat (events : List Event) (e : Event) :
    contents (events ++ [e]) = e.apply (contents events) := by
  rw [contents, List.foldl_append]
  rfl

variable {st t : Store} {e : Event} {events : List Event} {m : Key → Option ℤ}

theorem Call.apply_of_ne (m : Key → Option ℤ) (call : Call) {key : Key} (h : key ≠ call.key) :
    call.apply m key = m key := by
  cases call with
  | insertOrAssign _ _ => exact Function.update_of_ne h ..
  | minAssign _ _ =>
    dsimp only [Call.apply]
    split_ifs
    · exact Function.update_of_ne h ..
    · rfl
  | erase _ => exact Function.update_of_ne h ..

theorem Step.maps (h : Step st e t) (hst : st.Maps m) : t.Maps (e.apply m) ∧
    (e.answer = .ok (e.call.returned m) ∨ ∃ failure, e.answer = .error failure ∧ failure.refusal
      = true) := by
  obtain ⟨call, answer⟩ := e
  have hanswer : answer = (call.run st).1 := (congrArg Prod.fst h).symm
  have hnext : t = (call.run st).2 := (congrArg Prod.snd h).symm
  have hsettle : ((call.run st).1 = .ok (call.returned m) ∧ (call.run st).2.Maps (call.apply m)) ∨
      ∃ failure, (call.run st).1 = .error failure ∧ failure.refusal = true ∧
        (call.run st).2.Maps m := by
    cases call with
    | insertOrAssign key v =>
      obtain ⟨hok, hmaps⟩ | ⟨failure, hrefused, hrefusal, hmaps⟩ :=
        Store.insertOrAssign_answered hst key v
      · exact Or.inl ⟨congrArg (Except.map some) hok, hmaps⟩
      · exact Or.inr ⟨failure, congrArg (Except.map some) hrefused, hrefusal, hmaps⟩
    | minAssign key v =>
      obtain ⟨hok, hmaps⟩ | ⟨failure, hrefused, hrefusal, hmaps⟩ :=
        Store.minAssign_answered hst key v
      · exact Or.inl ⟨congrArg (Except.map fun _ => none) hok, hmaps⟩
      · exact Or.inr ⟨failure, congrArg (Except.map fun _ => none) hrefused, hrefusal, hmaps⟩
    | erase key =>
      obtain ⟨hok, hmaps⟩ := Store.erase_answered hst key
      exact Or.inl ⟨congrArg (Except.map some) hok, hmaps⟩
  obtain ⟨hok, hmaps⟩ | ⟨failure, hrefused, hrefusal, hmaps⟩ := hsettle
  · have hanswered := hanswer.trans hok
    rw [hanswered, hnext]
    exact ⟨hmaps, Or.inl rfl⟩
  · have hanswered := hanswer.trans hrefused
    rw [hanswered, hnext]
    exact ⟨hmaps, Or.inr ⟨failure, rfl, hrefusal⟩⟩

theorem create_maps {hash : Key → ℕ} {folded : Bool} {slab : Option Slab}
    (h : Store.create hash folded slab = some st) :
    st.Maps fun _ => none := by
  obtain ⟨slots, hsized, rfl⟩ : ∃ slots, Sized slots ∧
      st = { hash := hash, folded := folded, slab := slab, slots := slots } := by
    cases slab with
    | none => exact ⟨0, Or.inl rfl, (Option.some.inj h).symm⟩
    | some slab =>
      obtain ⟨slots, hslots, hst⟩ := Option.map_eq_some_iff.mp h
      exact ⟨slots, slotsOf_sized hslots, hst.symm⟩
  have hnone : ∀ (i : ℕ) (r : Record), (none : Option Record) ≠ some r :=
    fun _ r habsurd => Option.some_ne_none r habsurd.symm
  refine ⟨⟨hsized, ?_, fun i r hr => absurd hr (hnone i r), fun i r hr => absurd hr (hnone i r),
    fun i _ r _ hr => absurd hr (hnone i r), occupied_empty slots, Nat.zero_le _, fun _ => rfl⟩,
      fun key v => ?_, ?_⟩
  · have hmember : (Store.mk hash folded slab (fun _ => none) (fun _ => none) 0 slots 0 0 none
      none).Member =
        fun _ => False := by
      funext slot
      exact eq_false fun ⟨r, hr, _⟩ => hnone slot.offset r hr
    rw [hmember]
    exact placed_empty slots Slot.hash
  · exact ⟨fun habsurd => absurd habsurd.symm (Option.some_ne_none v),
      fun ⟨i, r, hr, _⟩ => absurd hr (hnone i r)⟩
  · exact ⟨∅, rfl, fun key => ⟨fun habsurd => absurd habsurd (Finset.notMem_empty key),
      fun habsurd => absurd habsurd Bool.false_ne_true⟩⟩

theorem runs_maps {start : Store} (hstart : start.Maps fun _ => none)
    (h : Runs Step start events st) :
    st.Maps (contents events) := by
  induction h with
  | nil => exact hstart
  | snoc _ hstep ih =>
    rw [contents_concat]
    exact (hstep.maps ih).1

theorem Event.apply_of_ne (m : Key → Option ℤ) (e : Event) {key : Key} (h : key ≠ e.call.key) :
    e.apply m key = m key := by
  unfold Event.apply
  cases e.answer with
  | ok _ => exact e.call.apply_of_ne m h
  | error _ => rfl

/-- After any calls, with any hash: lookups answer the last values, the size is the number of the
keys that have one, half of the slots are free and every probe ends, a larger index answers alike,
and a call on one key, a single or a pair, is not seen at another. -/
theorem exact_map {hash : Key → ℕ} {folded : Bool} {slab : Option Slab} {start : Store}
    (hstart : Store.create hash folded slab = some start) (h : Runs Step start events st) :
    (∀ key, st.lookup key = .ok (contents events key)) ∧
      (∃ live : Finset Key, live.card = st.size ∧ ∀ key, key ∈ live ↔
        (contents events key).isSome) ∧
      (occupied st.slots st.slotAt = st.used ∧ 2 * st.used ≤ st.slots) ∧
      (st.slots ≠ 0 → ∀ key, ∃ found, st.locate key = .ok found) ∧
      (∀ grown, st.flushPending.growIndex = .ok grown → ∀ key, grown.lookup key = st.lookup key) ∧
      ∀ e t, Step st e t →
        (e.answer = .ok (e.call.returned (contents events)) ∨ ∃ failure, e.answer = .error failure ∧
          failure.refusal = true) ∧
        ∀ key, key ≠ e.call.key → t.lookup key = st.lookup key := by
  have hmaps := runs_maps (create_maps hstart) h
  have hhalf := hmaps.half
  refine ⟨Store.lookup_eq hmaps, hmaps.counted, ⟨hmaps.load, by omega⟩,
    fun hn key => Store.locate_total hmaps.toIndexed hn key, fun grown hgrown key => ?_,
      fun e t hstep => ?_⟩
  · obtain hfull | ⟨index, slots, hgrow, hsame, -⟩ :=
      Store.growIndex_cases hmaps.flushPending (Store.flushPending_cleared hmaps.toIndexed).2
    · rw [hfull] at hgrown
      nomatch hgrown
    · rw [hgrow] at hgrown
      rw [← Except.ok.inj hgrown, Store.lookup_eq hsame, Store.lookup_eq hmaps]
  · obtain ⟨hnext, hanswer⟩ := hstep.maps hmaps
    refine ⟨hanswer, fun key hkey => ?_⟩
    rw [Store.lookup_eq hnext, Store.lookup_eq hmaps, e.apply_of_ne _ hkey]

/-- A table of a fold, with all of its keys at one home. -/
def collidingStore : Store := { hash := fun _ => 7, folded := true, slab := none, slots := 0 }

/-- The key of one string. -/
def singleKey : Key := ⟨[1, 2], none⟩

/-- The key of two, with the same hash below. -/
def pairKey : Key := ⟨[1], some [2]⟩

/-- Calls on two keys of one hash. -/
def collidingCalls : List Call :=
  [.insertOrAssign singleKey 5, .insertOrAssign pairKey 6, .erase singleKey, .minAssign pairKey 4,
    .insertOrAssign singleKey 9]

/-- The calls one after the other, with their answers. -/
def play (st : Store) (calls : List Call) : List Event × Store :=
  calls.foldl (fun done call => (done.1 ++ [⟨call, (call.run done.2).1⟩], (call.run done.2).2))
    ([], st)

theorem play_runs (st : Store) (calls : List Call) :
    Runs Step st (play st calls).1 (play st calls).2 := by
  induction calls using List.reverseRecOn with
  | nil => exact .nil
  | append_singleton calls call ih =>
    rw [play, List.foldl_append]
    exact .snoc ih rfl

theorem exact_map_colliding : (play collidingStore collidingCalls).2.lookup singleKey
    = .ok (some 9) ∧
    (play collidingStore collidingCalls).2.lookup pairKey = .ok (some 4) ∧
    2 * (play collidingStore collidingCalls).2.used
      ≤ (play collidingStore collidingCalls).2.slots := by
  have hstart : Store.create (fun _ => 7) true none = some collidingStore := rfl
  have hrun := exact_map hstart (play_runs collidingStore collidingCalls)
  have hsingle : contents (play collidingStore collidingCalls).1 singleKey = some 9 := by
    decide +kernel
  have hpair : contents (play collidingStore collidingCalls).1 pairKey = some 4 := by decide +kernel
  exact ⟨by rw [hrun.1, hsingle], by rw [hrun.1, hpair], hrun.2.2.1.2⟩

end PineForge.IdPair
