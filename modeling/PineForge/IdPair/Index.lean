import Mathlib
import PineForge.IdPair.Store

/-!
# The index of an id table

What the files say through what is held back: every record has its slot behind its home, no key has
two records, and half of the slots are empty (`Indexed`). Then a probe ends at the slot of the key,
or where it may be put. `Maps st m`: the table stands for `m`.
-/

namespace PineForge.IdPair

open Probing

/-- What an admission refuses; the other failures are of files that are not what was written. -/
def Failure.refusal : Failure → Bool
  | .truncatedRecord | .mismatchedIndex | .fullIndex | .rehashOverflow => false
  | _ => true

/-- No slots, or a power of two of them. -/
def Sized (n : ℕ) : Prop := n = 0 ∨ ∃ k, n = 2 ^ (k + 1)

theorem Sized.and_eq {n : ℕ} (h : Sized n) (hn : n ≠ 0) (i : ℕ) : i &&& (n - 1) = i % n := by
  obtain rfl | ⟨k, rfl⟩ := h
  · exact absurd rfl hn
  · exact Nat.and_two_pow_sub_one_eq_mod i (k + 1)

theorem Sized.two_le {n : ℕ} (h : Sized n) (hn : n ≠ 0) : 2 ≤ n := by
  obtain rfl | ⟨k, rfl⟩ := h
  · exact absurd rfl hn
  · rw [pow_succ]
    have := Nat.one_le_two_pow (n := k)
    omega

theorem Sized.double {n : ℕ} (h : Sized n) : Sized (if n = 0 then initialSlots else n * 2) := by
  obtain rfl | ⟨k, rfl⟩ := h
  · exact Or.inr ⟨5, rfl⟩
  · rw [if_neg (by positivity)]
    exact Or.inr ⟨k + 1, by rw [pow_succ 2 (k + 1)]⟩

theorem slotsFrom_sized {minimum : ℕ} :
    ∀ {fuel result n : ℕ}, slotsFrom minimum fuel result = some n →
    Sized result → result ≠ 0 → Sized n := by
  intro fuel
  induction fuel with
  | zero =>
    intro result n h
    exact absurd h.symm (Option.some_ne_none n)
  | succ fuel ih =>
    intro result n h hsized hpos
    rw [slotsFrom] at h
    split_ifs at h
    · refine ih h ?_ (by omega)
      have hdouble := hsized.double
      rwa [if_neg hpos] at hdouble
    · exact Option.some.inj h ▸ hsized

theorem slotsOf_sized {keys n : ℕ} (h : slotsOf keys = some n) : Sized n := by
  unfold slotsOf at h
  split_ifs at h
  · exact Or.inl (Option.some.inj h).symm
  · exact slotsFrom_sized h (Or.inr ⟨5, rfl⟩) (by decide)

namespace Store

variable {st t : Store} {key : Key} {m : Key → Option ℤ}

/-- A slot of a record. -/
def Member (st : Store) (slot : Slot) : Prop :=
  ∃ record, st.recordAt slot.offset = some record ∧ record.hash = slot.hash

/-- The index places every record. -/
structure Indexed (st : Store) : Prop where
  sized : Sized st.slots
  placed : Placed st.slots st.slotAt Slot.hash st.Member
  hashed : ∀ offset record, st.recordAt offset = some record → record.hash = st.hash record.key
  behind : ∀ offset record, st.recordAt offset = some record → offset < st.dataBytes
  once : ∀ i j r s, st.recordAt i = some r → st.recordAt j = some s → r.key = s.key → i = j
  load : occupied st.slots st.slotAt = st.used
  half : st.used ≤ st.slots / 2
  held : st.pending = none → st.slotPending = none

/-- The table stands for the map, and counts its keys. -/
structure Maps (st : Store) (m : Key → Option ℤ) : Prop extends Indexed st where
  holds : ∀ key v, m key = some v ↔
    ∃ offset record, st.recordAt offset = some record ∧ record.key = key ∧ record.live = true ∧
      record.value = v
  counted : ∃ live : Finset Key, live.card = st.size ∧ ∀ key, key ∈ live ↔ (m key).isSome

/-- The key has a record, live or not. -/
def Known (st : Store) (key : Key) : Prop :=
  ∃ offset record, st.recordAt offset = some record ∧ record.key = key

/-! ## Probes -/

/-- The slot is the one of the key. -/
def sought (st : Store) (key : Key) (slot : Slot) : Bool :=
  decide (slot.hash = st.hash key) && (st.recordAt slot.offset).any fun record =>
    decide (record.key = key)

theorem locateFrom_eq (h : Indexed st) (hn : st.slots ≠ 0) (key : Key) (fuel : ℕ) {i : ℕ}
    (hi : i < st.slots) :
    st.locateFrom key (st.hash key) fuel i =
      (probe st.slots st.slotAt (st.sought key) fuel i).elim (.error .fullIndex) fun j =>
        .ok (j, st.slotAt j) := by
  induction fuel generalizing i with
  | zero => rfl
  | succ fuel ih =>
    rw [locateFrom, probe]
    rw [h.sized.and_eq hn]
    have hnext := ih (Nat.mod_lt (i + 1) (show 0 < st.slots by omega))
    cases hslot : st.slotAt i with
    | none =>
      rw [Option.all_none, if_pos rfl, Option.elim_some, hslot]
    | some slot =>
      obtain ⟨record, hrecord, hhash⟩ := (h.placed.holds slot).mpr ⟨i, hi, hslot⟩
      rw [Option.all_some, sought]
      by_cases hsame : slot.hash = st.hash key
      · by_cases hkey : record.key = key
        · simp only [hrecord, Option.any_some, hsame, hkey, hhash, decide_true, Bool.and_self,
            if_true, ne_eq, not_true_eq_false, if_false,
            Option.elim_some, hslot]
        · simp only [hrecord, Option.any_some, hsame, hkey, hhash, decide_true, decide_false,
            Bool.and_false, if_true, ne_eq,
            not_true_eq_false, if_false, Bool.false_eq_true]
          exact hnext
      · simp only [hsame, decide_false, Bool.false_and, if_false, Bool.false_eq_true]
        exact hnext

theorem locate_eq (h : Indexed st) (hn : st.slots ≠ 0) (key : Key) :
    st.locate key = (probe st.slots st.slotAt (st.sought key) st.slots
      (st.hash key % st.slots)).elim
      (.error .fullIndex) fun j => .ok (j, st.slotAt j) := by
  rw [locate, h.sized.and_eq hn]
  exact locateFrom_eq h hn key st.slots (Nat.mod_lt _ (by omega))

theorem locate_known (h : Indexed st) {offset : ℕ} {record : Record}
    (hrecord : st.recordAt offset = some record)
    (hkey : record.key = key) :
    st.slots ≠ 0 ∧ ∃ i, st.locate key = .ok (i, some ⟨st.hash key, offset⟩) := by
  have hhash : record.hash = st.hash key := hkey ▸ h.hashed offset record hrecord
  have hmember : st.Member ⟨st.hash key, offset⟩ := ⟨record, hrecord, hhash⟩
  have hn : st.slots ≠ 0 := by
    obtain ⟨i, hi, -⟩ := (h.placed.holds _).mp hmember
    omega
  have hhit : st.sought key ⟨st.hash key, offset⟩ = true := by
    rw [sought, hrecord, Option.any_some, decide_eq_true hkey, decide_eq_true rfl, Bool.and_self]
  have honly : ∀ slot, st.Member slot → st.sought key slot = true →
      slot = ⟨st.hash key, offset⟩ := by
    rintro ⟨hash, other⟩ ⟨found, hfound, -⟩ hsought
    rw [sought, hfound, Option.any_some, Bool.and_eq_true, decide_eq_true_eq,
      decide_eq_true_eq] at hsought
    have hsame : other = offset :=
      h.once other offset found record hfound hrecord (hsought.2.trans hkey.symm)
    rw [hsame, show hash = st.hash key from hsought.1]
  obtain ⟨i, hi, hcell, hprobe⟩ := probe_member h.placed hmember hhit honly
  refine ⟨hn, i, ?_⟩
  rw [locate_eq h hn, hprobe, Option.elim_some, hcell]

theorem not_sought (h : ¬st.Known key) {slot : Slot} (hslot : st.Member slot) :
    st.sought key slot = false := by
  obtain ⟨record, hrecord, -⟩ := hslot
  rw [sought, hrecord, Option.any_some, decide_eq_false fun hkey =>
    h ⟨slot.offset, record, hrecord, hkey⟩, Bool.and_false]

theorem occupied_lt (h : Indexed st) (hn : st.slots ≠ 0) :
    occupied st.slots st.slotAt < st.slots := by
  have := h.half
  rw [h.load]
  omega

theorem locate_unknown (h : Indexed st) (hn : st.slots ≠ 0) (hkey : ¬st.Known key) :
    ∃ d, d < st.slots ∧ st.locate key = .ok ((st.hash key + d) % st.slots, none) ∧
      st.slotAt ((st.hash key + d) % st.slots) = none ∧
      ∀ j, j < d → st.slotAt ((st.hash key + j) % st.slots) ≠ none := by
  obtain ⟨d, hd, hprobe, hempty, hchain⟩ :=
    probe_empty h.placed (occupied_lt h hn) (fun slot hslot => not_sought hkey hslot) (st.hash key)
  refine ⟨d, hd, ?_, hempty, hchain⟩
  rw [locate_eq h hn, hprobe, Option.elim_some, hempty]

theorem locate_total (h : Indexed st) (hn : st.slots ≠ 0) (key : Key) :
    ∃ found, st.locate key = .ok found := by
  by_cases hkey : st.Known key
  · obtain ⟨offset, record, hrecord, hsame⟩ := hkey
    obtain ⟨-, i, hi⟩ := locate_known h hrecord hsame
    exact ⟨_, hi⟩
  · obtain ⟨d, -, hd, -⟩ := locate_unknown h hn hkey
    exact ⟨_, hd⟩

theorem Maps.of_record (h : Maps st m) {offset : ℕ} {record : Record}
    (hrecord : st.recordAt offset = some record) :
    m record.key = if record.live then some record.value else none := by
  cases hlive : record.live with
  | true =>
    rw [if_pos rfl]
    exact (h.holds _ _).mpr ⟨offset, record, hrecord, rfl, hlive, rfl⟩
  | false =>
    rw [if_neg Bool.false_ne_true]
    by_contra hsome
    obtain ⟨v, hv⟩ := Option.ne_none_iff_exists'.mp hsome
    obtain ⟨other, found, hfound, hkey, hfoundLive, -⟩ := (h.holds _ _).mp hv
    have hsame := h.once other offset found record hfound hrecord hkey
    rw [hsame, hrecord] at hfound
    rw [← Option.some.inj hfound, hlive] at hfoundLive
    exact Bool.false_ne_true hfoundLive

theorem Maps.of_unknown (h : Maps st m) (hkey : ¬st.Known key) : m key = none := by
  by_contra hsome
  obtain ⟨v, hv⟩ := Option.ne_none_iff_exists'.mp hsome
  obtain ⟨offset, record, hrecord, hsame, -⟩ := (h.holds _ _).mp hv
  exact hkey ⟨offset, record, hrecord, hsame⟩

theorem find_known (h : Indexed st) {offset : ℕ} {record : Record}
    (hrecord : st.recordAt offset = some record)
    (hkey : record.key = key) : st.find key = .ok (some (offset, record)) := by
  obtain ⟨-, i, hi⟩ := locate_known h hrecord hkey
  simp only [find, hi, hrecord]

theorem find_unknown (h : Indexed st) (hn : st.slots ≠ 0) (hkey : ¬st.Known key) :
    st.find key = .ok none := by
  obtain ⟨d, -, hd, -⟩ := locate_unknown h hn hkey
  simp only [find, hd]

theorem lookup_eq (h : Maps st m) (key : Key) : st.lookup key = .ok (m key) := by
  by_cases hkey : st.Known key
  · obtain ⟨offset, record, hrecord, rfl⟩ := hkey
    obtain ⟨hn, -⟩ := locate_known h.toIndexed hrecord rfl
    rw [lookup, if_neg hn, find_known h.toIndexed hrecord rfl, h.of_record hrecord]
    rfl
  · rw [lookup, h.of_unknown hkey]
    by_cases hn : st.slots = 0
    · rw [if_pos hn]
    · rw [if_neg hn, find_unknown h.toIndexed hn hkey]
      rfl

/-! ## Growth -/

section

variable {n : ℕ} {index old : ℕ → Option Slot} {members : Slot → Prop} {slot : Slot}

theorem placeFrom_eq (hsized : Sized n) (hn : n ≠ 0) (index : ℕ → Option Slot) (slot : Slot)
    (fuel i : ℕ) :
    placeFrom n index slot fuel i
      = (probe n index (fun _ => false) fuel i).elim (.error .rehashOverflow)
      fun j => .ok (Function.update index j (some slot)) := by
  induction fuel generalizing i with
  | zero => rfl
  | succ fuel ih =>
    rw [placeFrom, probe]
    cases hcell : index i with
    | none => rw [Option.all_none, if_pos rfl, Option.elim_some]
    | some other =>
      rw [Option.all_some, if_neg Bool.false_ne_true, ← ih, hsized.and_eq hn]

theorem placeSlot_placed (hsized : Sized n) (h : Placed n index Slot.hash members)
    (hroom : occupied n index < n)
    (hnew : ¬members slot) : ∃ placed, placeSlot n index slot = .ok placed ∧
      Placed n placed Slot.hash (fun s => members s ∨ s = slot) ∧ occupied n placed
        = occupied n index + 1 := by
  have hn : n ≠ 0 := by omega
  obtain ⟨d, hd, hprobe, hempty, hchain⟩ := probe_empty h hroom (fun _ _ => rfl) slot.hash
  refine ⟨_, ?_, h.insert hnew hd hempty hchain,
    occupied_update (Nat.mod_lt _ (by omega)) hempty slot⟩
  rw [placeSlot, hsized.and_eq hn, placeFrom_eq hsized hn, hprobe, Option.elim_some]

/-- A new index places every slot. -/
theorem placeAll_placed (hsized : Sized n) : ∀ {places : List ℕ} {index : ℕ → Option Slot}
    {members : Slot → Prop},
    Placed n index Slot.hash members →
    occupied n index + places.countP (fun i => (old i).isSome) ≤ n → places.Nodup →
    (∀ i ∈ places, ∀ s, old i = some s → ¬members s) →
    (∀ i ∈ places, ∀ j ∈ places, ∀ s, old i = some s → old j = some s → i = j) →
    ∃ placed, placeAll n old places index = .ok placed ∧
      Placed n placed Slot.hash (fun s => members s ∨ ∃ i ∈ places, old i = some s) ∧
      occupied n placed = occupied n index + places.countP fun i => (old i).isSome := by
  intro places
  induction places with
  | nil =>
    intro index members h _ _ _ _
    refine ⟨index, rfl, ?_, rfl⟩
    simpa only [List.not_mem_nil, false_and, exists_false, or_false] using h
  | cons i rest ih =>
    intro index members h hroom hnodup hfresh hinj
    rw [List.nodup_cons] at hnodup
    have hrestInj : ∀ j ∈ rest, ∀ k ∈ rest, ∀ s, old j = some s → old k = some s → j = k :=
      fun j hj k hk => hinj j (List.mem_cons_of_mem i hj) k (List.mem_cons_of_mem i hk)
    rw [placeAll]
    rw [List.countP_cons] at hroom ⊢
    cases hold : old i with
    | none =>
      simp only [hold, Option.isSome_none, Bool.false_eq_true, if_false, Nat.add_zero] at hroom ⊢
      obtain ⟨placed, hplaced, hmembers, hload⟩ :=
        ih h hroom hnodup.2 (fun j hj => hfresh j (List.mem_cons_of_mem i hj)) hrestInj
      refine ⟨placed, hplaced, ?_, hload⟩
      have hsame : (fun s => members s ∨ ∃ j ∈ i :: rest, old j = some s) =
          fun s => members s ∨ ∃ j ∈ rest, old j = some s := by
        funext s
        rw [List.exists_mem_cons_iff, hold, eq_false (Option.some_ne_none s).symm, false_or]
      rwa [hsame]
    | some slot =>
      simp only [hold, Option.isSome_some, if_true] at hroom ⊢
      obtain ⟨once, honce, hmembers, hload⟩ := placeSlot_placed hsized h (by omega)
        (hfresh i List.mem_cons_self slot hold)
      have hfreshRest : ∀ j ∈ rest, ∀ s, old j = some s → ¬(members s ∨ s = slot) := by
        rintro j hj s hs (hmember | rfl)
        · exact hfresh j (List.mem_cons_of_mem i hj) s hs hmember
        · have := hinj i List.mem_cons_self j (List.mem_cons_of_mem i hj) s hold hs
          exact hnodup.1 (this ▸ hj)
      obtain ⟨placed, hplaced, hall, hsum⟩ := ih hmembers (by omega) hnodup.2 hfreshRest hrestInj
      rw [honce]
      refine ⟨placed, hplaced, ?_, by omega⟩
      have hsame : (fun s => members s ∨ ∃ j ∈ i :: rest, old j = some s) =
          fun s => (members s ∨ s = slot) ∨ ∃ j ∈ rest, old j = some s := by
        funext s
        rw [List.exists_mem_cons_iff, hold, Option.some.injEq, or_assoc, @eq_comm _ slot s]
      rwa [hsame]

end

/-- The table with another index. -/
def withIndex (st : Store) (index : ℕ → Option Slot) (slots : ℕ) : Store :=
  { st with index := index, slots := slots }

/-- The index grows unless it is exhausted. -/
theorem growIndex_cases (h : Maps st m) (hslot : st.slotPending = none) :
    st.growIndex = .error .indexExhausted ∨
    ∃ index slots, st.growIndex = .ok (st.withIndex index slots) ∧
      Maps (st.withIndex index slots) m ∧
      st.used < slots / 2 := by
  rw [growIndex]
  by_cases hlarge : st.slots > offsetMax / slotBytes / 2
  · exact Or.inl (if_pos hlarge)
  · refine Or.inr ?_
    rw [if_neg hlarge]
    dsimp only
    have hslotAt : ∀ i, st.slotAt i = st.index i := fun i => by rw [slotAt, hslot]
    have hview : st.slotAt = st.index := funext hslotAt
    have hplaced := hview ▸ h.placed
    have hload := hview ▸ h.load
    have hhalf := h.half
    have hsized := h.sized.double
    have hgrown : st.slots + 2 ≤ if st.slots = 0 then initialSlots else st.slots * 2 := by
      split_ifs with hzero
      · rw [hzero]
        decide
      · have := h.sized.two_le hzero
        omega
    generalize (if st.slots = 0 then initialSlots else st.slots * 2) = slots at hsized hgrown ⊢
    have hcount : (List.range st.slots).countP (fun i => (st.index i).isSome) = st.used := hload
    obtain ⟨index, hindex, hmembers, hsum⟩ := placeAll_placed hsized (placed_empty slots Slot.hash)
      (show occupied slots (fun _ => none) + (List.range st.slots).countP
        (fun i => (st.index i).isSome) ≤ slots by
        rw [hcount, occupied_empty]
        omega)
      List.nodup_range (fun _ _ _ _ => not_false) (fun i hi j hj s =>
        hplaced.unique i j s (List.mem_range.mp hi) (List.mem_range.mp hj))
    rw [hindex]
    refine ⟨index, slots, rfl, ?_, by omega⟩
    have hsame : (fun s => False ∨ ∃ i ∈ List.range st.slots, st.index i = some s) = st.Member := by
      funext s
      rw [false_or, eq_iff_iff, hplaced.holds s]
      simp only [List.mem_range]
    rw [hsame] at hmembers
    have hnew : (st.withIndex index slots).slotAt = index := by
      funext i
      rw [slotAt, show (st.withIndex index slots).slotPending = none from hslot]
      rfl
    refine ⟨⟨hsized, ?_, h.hashed, h.behind, h.once, ?_, ?_, h.held⟩, h.holds, h.counted⟩
    · rw [hnew]
      exact hmembers
    · rw [hnew]
      rw [occupied_empty, hcount, Nat.zero_add] at hsum
      exact hsum
    · change st.used ≤ slots / 2
      omega

end Store

end PineForge.IdPair
