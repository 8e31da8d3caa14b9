import Mathlib
import PineForge.Resident.Table

/-!
# Residency and content

`Sound codec backing st table`: the table's rows, each with its offset, key and value, are in memory
with that value or on disk as the record of it, and the derived maps name exactly the rows in
memory. A pass changes which of the two holds of a row, and nothing else.
-/

namespace PineForge.Resident

open DiskTable (Key Backing Label Holding valueAt)

variable {Rec Val : Type} {codec : Codec Rec Val} {backing : Backing} {st t : State Rec Val}
  {table : List (Label × Val)}

/-! ## Sorted entries -/

section

variable {κ β : Type} [LinearOrder κ] {m m' : List (κ × β)} {k : κ} {v : β}

theorem sorted_ext (h : Assoc.Sorted m) (h' : Assoc.Sorted m') (hmem : ∀ e, e ∈ m ↔ e ∈ m') :
    m = m' := by
  have hperm : m.Perm m' := by
    refine (List.perm_ext_iff_of_nodup ?_ ?_).mpr hmem
    · exact (Assoc.Sorted.nodup h).of_map
    · exact (Assoc.Sorted.nodup h').of_map
  exact hperm.eq_of_pairwise (fun a b _ _ hab hba => absurd hab (lt_asymm hba)) h h'

theorem find_eq_some (h : Assoc.Sorted m) : Assoc.find k m = some v ↔ (k, v) ∈ m :=
  ⟨Assoc.mem_of_find, fun hmem => Assoc.find_of_mem (Assoc.Sorted.nodup h) hmem⟩

theorem mem_put_iff (hk : k ∉ m.map Prod.fst) (e : κ × β) :
    e ∈ Assoc.put k v m ↔ e = (k, v) ∨ e ∈ m := by
  induction m with
  | nil => simp [Assoc.put]
  | cons x m ih =>
    obtain ⟨k', v'⟩ := x
    rw [List.map_cons, List.mem_cons, not_or] at hk
    rw [Assoc.put]
    split
    · exact List.mem_cons
    · rw [if_neg hk.1, List.mem_cons, List.mem_cons, ih hk.2]
      tauto

theorem mem_emplaced (hk : k ∉ m.map Prod.fst) (e : κ × β) :
    e ∈ emplaced k v m ↔ e = (k, v) ∨ e ∈ m := by
  unfold emplaced
  rw [Assoc.find_eq_none_iff.mpr hk, if_neg (by simp)]
  exact mem_put_iff hk e

theorem sorted_emplaced (h : Assoc.Sorted m) (k : κ) (v : β) : Assoc.Sorted (emplaced k v m) := by
  unfold emplaced
  split
  · exact h
  · exact h.put k v

theorem mem_erase {e : κ × β} : e ∈ Assoc.erase k m ↔ e ∈ m ∧ e.1 ≠ k := by
  unfold Assoc.erase
  rw [List.mem_filter, decide_eq_true_eq]

end

/-! ## The invariant -/

/-- Whether a resident entry is held. -/
def isHeld (codec : Codec Rec Val) (st : State Rec Val) (e : ℕ × ℕ) : Bool :=
  (st.rows e.2).any fun row => codec.held row.value

/-- The rows are in memory or on disk; a row of the offset `gap` may be on neither yet. -/
structure SoundBut (codec : Codec Rec Val) (backing : Backing) (st : State Rec Val)
    (table : List (Label × Val))
    (gap : Option ℕ) : Prop where
  index : ∃ tree, Holding backing st.index tree (table.map Prod.fst)
  inMemory : ∀ x ∈ table, ∀ row, (x.1.1, row) ∈ st.resident → st.rows row = some ⟨x.1.2, x.2⟩
  onDisk : ∀ x ∈ table, gap ≠ some x.1.1 → x.1.1 ∉ st.resident.map Prod.fst →
    codec.spillable x.2 = true ∧ valueAt st.index x.1.1 = some (codec.retiredRecord x.2)
  sorted : Assoc.Sorted st.resident
  known : ∀ e ∈ st.resident, ∃ x ∈ table, x.1.1 = e.1
  objects : (st.resident.map Prod.snd).Nodup
  below : ∀ e ∈ st.resident, e.2 < st.born
  byKeySorted : Assoc.Sorted st.residentByKey
  byKey : ∀ k o, (k, o) ∈ st.residentByKey ↔ o ∈ st.resident.map Prod.fst ∧ ∃ v, ((o, k), v) ∈ table
  held : st.heldRows = st.resident.filter (isHeld codec st)
  pins : ∀ pin ∈ st.pins, (pin.offset, pin.row) ∈ st.resident

/-- The rows and the index hold the table. -/
abbrev Sound (codec : Codec Rec Val) (backing : Backing) (st : State Rec Val)
    (table : List (Label × Val)) : Prop :=
  SoundBut codec backing st table none

namespace SoundBut

variable {gap : Option ℕ}

theorem offsets_nodup (h : SoundBut codec backing st table gap) :
    (table.map fun x => x.1.1).Nodup := by
  obtain ⟨tree, hholding⟩ := h.index
  have hnodup := (hholding.perm.map Prod.fst).nodup_iff.mp hholding.nodup
  rw [List.map_map] at hnodup
  exact hnodup

theorem keys_nodup (h : SoundBut codec backing st table gap) :
    (table.map fun x => x.1.2).Nodup := by
  obtain ⟨tree, hholding⟩ := h.index
  have hnodup := hholding.keys_nodup
  rw [List.map_map] at hnodup
  exact hnodup

theorem eq_of_offset (h : SoundBut codec backing st table gap) {x y : Label × Val} (hx : x ∈ table)
    (hy : y ∈ table)
    (heq : x.1.1 = y.1.1) : x = y := List.inj_on_of_nodup_map h.offsets_nodup hx hy heq

theorem eq_of_key (h : SoundBut codec backing st table gap) {x y : Label × Val} (hx : x ∈ table)
    (hy : y ∈ table)
    (heq : x.1.2 = y.1.2) : x = y := List.inj_on_of_nodup_map h.keys_nodup hx hy heq

theorem eq_of_resident (h : SoundBut codec backing st table gap) {e e' : ℕ × ℕ}
    (he : e ∈ st.resident)
    (he' : e' ∈ st.resident) (heq : e.1 = e'.1) : e = e' :=
  List.inj_on_of_nodup_map (Assoc.Sorted.nodup h.sorted) he he' heq

theorem eq_of_object (h : SoundBut codec backing st table gap) {e e' : ℕ × ℕ} (he : e ∈ st.resident)
    (he' : e' ∈ st.resident) (heq : e.2 = e'.2) : e = e' :=
      List.inj_on_of_nodup_map h.objects he he' heq

theorem rowAt (h : SoundBut codec backing st table gap) {e : ℕ × ℕ} (he : e ∈ st.resident) :
    ∃ x ∈ table, x.1.1 = e.1 ∧ st.rows e.2 = some ⟨x.1.2, x.2⟩ := by
  obtain ⟨x, hx, hoffset⟩ := h.known e he
  refine ⟨x, hx, hoffset, h.inMemory x hx e.2 ?_⟩
  rw [hoffset]
  exact he

end SoundBut

/-! ## A pass -/

theorem rowOf_eq {row : ℕ} {found : Row Val} (h : st.rows row = some found) :
    rowOf row st = (.ok found, st) := by
  unfold rowOf
  rw [Command.get_bind_apply, h]
  rfl

theorem onIndex_ok {β : Type} {call : DiskTable.Action Rec β} {b : β} {index : DiskTable.Table Rec}
    (h : call st.index = (.ok b, index)) : onIndex call st = (.ok b, st.withIndex index) := by
  unfold onIndex
  rw [h]
  rfl

theorem onIndex_read {β : Type} {call : DiskTable.Action Rec β} {b : β}
    (h : call st.index = (.ok b, st.index)) :
    onIndex call st = (.ok b, st) := onIndex_ok h

theorem unshared_of_useCount {row : ℕ} {e : ℕ × ℕ} (he : e ∈ st.resident)
    (hrow : e.2 = row) (hone : st.useCount row = 1) :
    (∀ e' ∈ st.heldRows, e'.2 ≠ row) ∧ ∀ pin ∈ st.pins, pin.row ≠ row := by
  have hpos : 0 < st.resident.countP fun e => e.2 = row := by
    rw [List.countP_pos_iff]
    exact ⟨e, he, decide_eq_true hrow⟩
  unfold State.useCount at hone
  have hheld : st.heldRows.countP (fun e => e.2 = row) = 0 := by omega
  have hpins : st.pins.countP (fun pin => pin.row = row) = 0 := by omega
  rw [List.countP_eq_zero] at hheld hpins
  refine ⟨fun e' he' heq => hheld e' he' (decide_eq_true heq),
    fun pin hpin heq => hpins pin hpin (decide_eq_true heq)⟩

/-- A spilled row is stored as it is. -/
theorem spillRow_eq (h : Sound codec backing st table) {e : ℕ × ℕ} (he : e ∈ st.resident) :
    ∃ t, spillRow codec backing e st = (.ok (), t) ∧ Sound codec backing t table ∧
      t.pins = st.pins ∧
      ∀ e' ∈ st.resident, e'.1 ≠ e.1 → e' ∈ t.resident := by
  obtain ⟨x, hx, hoffset, hrow⟩ := h.rowAt he
  unfold spillRow
  rw [Command.get_bind_apply, Command.bind_ok (rowOf_eq hrow), Command.when]
  by_cases hspills : st.spills codec e.2 ⟨x.1.2, x.2⟩ = true
  case neg =>
    rw [if_neg hspills]
    exact ⟨st, rfl, h, rfl, fun e' he' _ => he'⟩
  rw [if_pos hspills]
  unfold State.spills at hspills
  rw [Bool.and_eq_true, Bool.and_eq_true, decide_eq_true_eq] at hspills
  obtain ⟨⟨hone, hspillable⟩, -⟩ := hspills
  obtain ⟨hnotHeld, hnotPinned⟩ := unshared_of_useCount he rfl hone
  obtain ⟨tree, hholding⟩ := h.index
  have hmem : e.1 ∈ (table.map Prod.fst).map Prod.fst := by
    rw [List.map_map, ← hoffset]
    exact List.mem_map_of_mem hx
  obtain ⟨index, hset, hholding', hvalue⟩ := hholding.set_eq hmem (codec.retiredRecord x.2)
  rw [Command.bind_ok (onIndex_ok hset)]
  -- the entries that are left
  have hleft : ∀ e', e' ∈ Assoc.erase e.1 st.resident ↔ e' ∈ st.resident ∧ e' ≠ e := by
    intro e'
    rw [mem_erase]
    constructor
    · rintro ⟨he', hne⟩
      exact ⟨he', fun heq => hne (congrArg Prod.fst heq)⟩
    · rintro ⟨he', hne⟩
      exact ⟨he', fun heq => hne (h.eq_of_resident he' he heq)⟩
  have hoffsets : ∀ o, o ∈ (Assoc.erase e.1 st.resident).map Prod.fst ↔
      o ∈ st.resident.map Prod.fst ∧ o ≠ e.1 := by
    intro o
    simp only [List.mem_map, mem_erase]
    constructor
    · rintro ⟨e', ⟨he', hne⟩, rfl⟩
      exact ⟨⟨e', he', rfl⟩, hne⟩
    · rintro ⟨⟨e', he', rfl⟩, hne⟩
      exact ⟨e', ⟨he', hne⟩, rfl⟩
  refine ⟨(st.withIndex index).dropped e.1 x.1.2, rfl, ?_, rfl,
    fun e' he' hne => (hleft e').mpr ⟨he', fun heq => hne (by rw [heq])⟩⟩
  refine ⟨⟨tree, hholding'⟩, ?_, ?_, h.sorted.erase e.1, ?_, ?_, ?_,
    h.byKeySorted.erase _, ?_, ?_, ?_⟩
  · intro y hy row hmem
    exact h.inMemory y hy row ((hleft _).mp hmem).1
  · intro y hy _ hnot
    have hindex : valueAt ((st.withIndex index).dropped e.1 x.1.2).index y.1.1 = _ := hvalue y.1.1
    rw [hindex]
    by_cases heq : y.1.1 = e.1
    · rw [if_pos heq]
      obtain rfl := h.eq_of_offset hy hx (heq.trans hoffset.symm)
      exact ⟨hspillable, rfl⟩
    · rw [if_neg heq]
      exact h.onDisk y hy (by simp) fun hin => hnot ((hoffsets _).mpr ⟨hin, heq⟩)
  · intro e' he'
    exact h.known e' ((hleft e').mp he').1
  · exact h.objects.sublist ((List.filter_sublist).map _)
  · intro e' he'
    exact h.below e' ((hleft e').mp he').1
  · intro k o
    change (k, o) ∈ Assoc.erase x.1.2 st.residentByKey ↔
      o ∈ (Assoc.erase e.1 st.resident).map Prod.fst ∧ _
    rw [mem_erase, h.byKey, hoffsets]
    constructor
    · rintro ⟨⟨hin, v, hv⟩, hne⟩
      refine ⟨⟨hin, ?_⟩, v, hv⟩
      intro heq
      apply hne
      have hsame := h.eq_of_offset hv hx (heq.trans hoffset.symm)
      exact congrArg (fun y => y.1.2) hsame
    · rintro ⟨⟨hin, hne⟩, v, hv⟩
      refine ⟨⟨hin, v, hv⟩, ?_⟩
      intro heq
      apply hne
      have hsame := h.eq_of_key hv hx heq
      exact (congrArg (fun y => y.1.1) hsame).trans hoffset
  · change st.heldRows = (Assoc.erase e.1 st.resident).filter (isHeld codec st)
    rw [h.held]
    unfold Assoc.erase
    rw [List.filter_filter]
    refine List.filter_congr fun e' he' => ?_
    by_cases heq : e' = e
    · subst heq
      have hnot : isHeld codec st e' = false := by
        by_contra hheld
        rw [Bool.not_eq_false] at hheld
        refine hnotHeld e' ?_ rfl
        rw [h.held, List.mem_filter]
        exact ⟨he', hheld⟩
      rw [hnot, Bool.false_and]
    · have hne : e'.1 ≠ e.1 := fun hfst => heq (h.eq_of_resident he' he hfst)
      rw [decide_eq_true hne, Bool.and_true]
  · intro pin hpin
    refine (hleft _).mpr ⟨h.pins pin hpin, fun heq => hnotPinned pin hpin (congrArg Prod.snd heq)⟩

theorem spillEach_eq (h : Sound codec backing st table) {entries : List (ℕ × ℕ)}
    (hmem : ∀ e ∈ entries, e ∈ st.resident)
    (hnodup : (entries.map Prod.fst).Nodup) :
    ∃ t, spillEach codec backing entries st = (.ok (), t) ∧ Sound codec backing t table ∧
      t.pins = st.pins := by
  induction entries generalizing st with
  | nil => exact ⟨st, rfl, h, rfl⟩
  | cons e entries ih =>
    rw [List.map_cons, List.nodup_cons] at hnodup
    obtain ⟨t, hrun, hsound, hpins, hkept⟩ := spillRow_eq h (hmem e List.mem_cons_self)
    have hrest : ∀ e' ∈ entries, e' ∈ t.resident := by
      intro e' he'
      refine hkept e' (hmem e' (List.mem_cons_of_mem _ he')) fun heq => hnodup.1 ?_
      rw [← heq]
      exact List.mem_map_of_mem he'
    obtain ⟨u, hrun', hsound', hpins'⟩ := ih hsound hrest hnodup.2
    refine ⟨u, ?_, hsound', hpins'.trans hpins⟩
    rw [spillEach, Command.bind_ok hrun]
    exact hrun'

theorem SoundBut.counters {gap : Option ℕ} (h : SoundBut codec backing st table gap)
    (threshold interval calls fixture : ℕ)
    (predicate : Option (Key → Bool)) :
    SoundBut codec backing { st with
      spillThreshold := threshold
      spillInterval := interval
      callsSinceSpill := calls
      fixtureSpillInterval := fixture
      fixtureSpillPredicate := predicate } table gap :=
  ⟨h.index, h.inMemory, h.onDisk, h.sorted, h.known, h.objects, h.below, h.byKeySorted, h.byKey,
    h.held, h.pins⟩

theorem spill_eq (h : Sound codec backing st table) :
    ∃ t, spill codec backing st = (.ok (), t) ∧ Sound codec backing t table ∧ t.pins = st.pins := by
  obtain ⟨t, hrun, hsound, hpins⟩ := spillEach_eq h (fun e he => he) (Assoc.Sorted.nodup h.sorted)
  refine ⟨t.rearmed, ?_, hsound.counters .., hpins⟩
  unfold spill
  rw [Command.get_bind_apply, Command.bind_ok hrun]
  rfl

theorem when_spill_eq (h : Sound codec backing st table) (c : Prop) [Decidable c] :
    ∃ t, Command.when c (spill codec backing) st = (.ok (), t) ∧ Sound codec backing t table ∧
      t.pins = st.pins := by
  unfold Command.when
  split
  · exact spill_eq h
  · exact ⟨st, rfl, h, rfl⟩

theorem spillImplicitly_eq (h : Sound codec backing st table) :
    ∃ t, spillImplicitly codec backing st = (.ok (), t) ∧ Sound codec backing t table ∧
      t.pins = st.pins := by
  unfold spillImplicitly
  rw [Command.modify_bind_apply, Command.get_bind_apply]
  have hcalled : Sound codec backing st.called table := h.counters ..
  exact when_spill_eq hcalled _

theorem spillBeforeAdmission_eq (h : Sound codec backing st table) (extra : ℕ) :
    ∃ t, spillBeforeAdmission codec backing extra st = (.ok (), t) ∧ Sound codec backing t table ∧
      t.pins = st.pins := by
  unfold spillBeforeAdmission
  rw [Command.get_bind_apply]
  exact when_spill_eq h _

/-! ## Live rows -/

/-- The rows of the table that own live data. -/
def liveRows (codec : Codec Rec Val) (values : List Val) : ℕ :=
  values.countP fun value => !codec.spillable value

theorem live_eq (h : Sound codec backing st table) :
    st.live codec = liveRows codec (table.map Prod.snd) := by
  unfold State.live liveRows
  rw [List.countP_map, List.countP_eq_length_filter, List.countP_eq_length_filter]
  -- both sides list the same offsets once
  have hperm : ((st.resident.filter fun e => (st.rows e.2).any fun row =>
    !codec.spillable row.value).map Prod.fst).Perm
      ((table.filter ((fun value => !codec.spillable value) ∘ Prod.snd)).map fun x => x.1.1) := by
    refine (List.perm_ext_iff_of_nodup ?_ ?_).mpr fun o => ?_
    · exact (Assoc.Sorted.nodup h.sorted).sublist (List.filter_sublist.map _)
    · exact h.offsets_nodup.sublist (List.filter_sublist.map _)
    simp only [List.mem_map, List.mem_filter, Function.comp_apply]
    constructor
    · rintro ⟨e, ⟨he, hlive⟩, rfl⟩
      obtain ⟨x, hx, hoffset, hrow⟩ := h.rowAt he
      rw [hrow] at hlive
      exact ⟨x, ⟨hx, hlive⟩, hoffset⟩
    · rintro ⟨x, ⟨hx, hlive⟩, rfl⟩
      by_cases hin : x.1.1 ∈ st.resident.map Prod.fst
      · obtain ⟨e, he, hoffset⟩ := List.mem_map.mp hin
        have hrow := h.inMemory x hx e.2 (by rw [← hoffset]; exact he)
        refine ⟨e, ⟨he, ?_⟩, hoffset⟩
        rw [hrow]
        exact hlive
      · rw [(h.onDisk x hx (by simp) hin).1] at hlive
        cases hlive
  have hlength := hperm.length_eq
  rw [List.length_map, List.length_map] at hlength
  exact hlength

theorem requireLiveGrowth_eq (h : Sound codec backing st table) (extra : ℕ) :
    requireLiveGrowth codec backing extra st =
      if extra ≠ 0 ∧ boundedCohorts backing = true ∧
        maxResidentCohorts < liveRows codec (table.map Prod.snd) + extra
      then (.error (.thrown (.liveLimit maxResidentCohorts)), st) else (.ok (), st) := by
  have hle : st.live codec ≤ st.resident.length := List.countP_le_length
  unfold requireLiveGrowth
  rw [Command.get_bind_apply, Command.when, ← live_eq h]
  by_cases hbounded : extra ≠ 0 ∧ boundedCohorts backing = true
  · by_cases hroom : st.resident.length ≤ maxResidentCohorts ∧
      extra ≤ maxResidentCohorts - st.resident.length
    · rw [if_neg (by tauto), if_neg (by omega)]
      rfl
    · rw [if_pos ⟨hbounded.1, hbounded.2, hroom⟩, failIf]
      by_cases hmore : maxResidentCohorts < st.live codec + extra
      · rw [if_pos (by omega), if_pos ⟨hbounded.1, hbounded.2, hmore⟩]
        rfl
      · rw [if_neg (by omega), if_neg (by tauto)]
        rfl
  · rw [if_neg (by tauto), if_neg (by tauto)]
    rfl

end PineForge.Resident
