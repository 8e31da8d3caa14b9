import Mathlib
import PineForge.Resident.Sound

/-!
# Calls of a resident table

Each call leaves the content as a table that keeps every row in memory would: a lookup shows the
row's key and value, an insertion adds a row or refuses by what the rows are, and nothing depends on
the passes before it.
-/

namespace PineForge.Resident

open DiskTable (Key Backing Label Holding valueAt)

variable {Rec Val : Type} {codec : Codec Rec Val} {backing : Backing} {st t : State Rec Val}
  {table : List (Label × Val)}

/-- The iterator's row has this key and value, and is the one in memory. -/
structure Shows (st : State Rec Val) (pin : Pin) (x : Label × Val) : Prop where
  offset : pin.offset = x.1.1
  resident : (pin.offset, pin.row) ∈ st.resident
  row : st.rows pin.row = some ⟨x.1.2, x.2⟩

/-! ## Rows that come into memory -/

/-- A restored row is resident. -/
theorem SoundBut.admit {x : Label × Val} (h : SoundBut codec backing st table (some x.1.1))
    (hx : x ∈ table)
    (hnot : x.1.1 ∉ st.resident.map Prod.fst) :
    Sound codec backing (st.admitted codec x.1.1 ⟨x.1.2, x.2⟩) table ∧
      Shows (st.admitted codec x.1.1 ⟨x.1.2, x.2⟩) ⟨x.1.1, st.born⟩ x := by
  have hmem : ∀ e, e ∈ (st.admitted codec x.1.1 ⟨x.1.2, x.2⟩).resident ↔ e = (x.1.1, st.born) ∨
      e ∈ st.resident :=
    mem_emplaced hnot
  have hnewRow : (st.admitted codec x.1.1 ⟨x.1.2, x.2⟩).rows st.born = some ⟨x.1.2, x.2⟩ :=
    Function.update_self ..
  have holdRow : ∀ e ∈ st.resident, (st.admitted codec x.1.1 ⟨x.1.2, x.2⟩).rows e.2 = st.rows e.2 :=
    fun e he => Function.update_of_ne (h.below e he).ne ..
  have hoffsets : ∀ o, o ∈ (st.admitted codec x.1.1 ⟨x.1.2, x.2⟩).resident.map Prod.fst ↔
      o = x.1.1 ∨ o ∈ st.resident.map Prod.fst := by
    intro o
    simp only [List.mem_map, hmem]
    constructor
    · rintro ⟨e, rfl | he, rfl⟩
      · exact .inl rfl
      · exact .inr ⟨e, he, rfl⟩
    · rintro (rfl | ⟨e, he, rfl⟩)
      · exact ⟨_, .inl rfl, rfl⟩
      · exact ⟨e, .inr he, rfl⟩
  have hsorted : Assoc.Sorted (st.admitted codec x.1.1 ⟨x.1.2, x.2⟩).resident :=
    sorted_emplaced h.sorted ..
  have hkeyFresh : x.1.2 ∉ st.residentByKey.map Prod.fst := by
    intro hin
    obtain ⟨⟨k, o⟩, hko, hk⟩ := List.mem_map.mp hin
    obtain ⟨hresident, v, hv⟩ := (h.byKey k o).mp hko
    have hsame := h.eq_of_key hv hx hk
    apply hnot
    rw [← hsame]
    exact hresident
  refine ⟨⟨h.index, ?_, ?_, hsorted, ?_, ?_, ?_, sorted_emplaced h.byKeySorted .., ?_, ?_, ?_⟩,
    ⟨rfl, (hmem _).mpr (.inl rfl), hnewRow⟩⟩
  · intro y hy row hrow
    rcases (hmem _).mp hrow with heq | hrow
    · obtain ⟨hoffset, rfl⟩ := Prod.mk.inj heq
      rw [hnewRow, h.eq_of_offset hy hx hoffset]
    · rw [holdRow _ hrow]
      exact h.inMemory y hy row hrow
  · intro y hy _ hout
    rw [hoffsets, not_or] at hout
    exact h.onDisk y hy (fun heq => hout.1 (Option.some.inj heq).symm) hout.2
  · intro e he
    rcases (hmem e).mp he with rfl | he
    · exact ⟨x, hx, rfl⟩
    · exact h.known e he
  · have hperm : (st.admitted codec x.1.1 ⟨x.1.2, x.2⟩).resident.Perm
        ((x.1.1, st.born) :: st.resident) := by
      refine (List.perm_ext_iff_of_nodup (Assoc.Sorted.nodup hsorted).of_map ?_).mpr fun e => ?_
      · refine List.nodup_cons.mpr ⟨fun hin => hnot (List.mem_map_of_mem hin),
          (Assoc.Sorted.nodup h.sorted).of_map⟩
      · rw [hmem, List.mem_cons]
    rw [(hperm.map Prod.snd).nodup_iff, List.map_cons, List.nodup_cons]
    refine ⟨fun hin => ?_, h.objects⟩
    obtain ⟨e, he, heq⟩ := List.mem_map.mp hin
    exact (h.below e he).ne heq
  · intro e he
    rcases (hmem e).mp he with rfl | he
    · exact Nat.lt_succ_self _
    · exact (h.below e he).trans (Nat.lt_succ_self _)
  · intro k o
    refine (mem_emplaced hkeyFresh (k, o)).trans ?_
    rw [hoffsets, h.byKey]
    constructor
    · rintro (heq | ⟨hin, v, hv⟩)
      · obtain ⟨rfl, rfl⟩ := Prod.mk.inj heq
        exact ⟨.inl rfl, x.2, hx⟩
      · exact ⟨.inr hin, v, hv⟩
    · rintro ⟨rfl | hin, v, hv⟩
      · have hsame := h.eq_of_offset hv hx rfl
        exact .inl (Prod.ext (congrArg (fun y => y.1.2) hsame) rfl)
      · exact .inr ⟨hin, v, hv⟩
  · -- the held rows are the entries whose value is held, the new one among them
    have hheldSorted : Assoc.Sorted st.heldRows := by
      rw [h.held]
      exact h.sorted.filter _
    have hheldFresh : x.1.1 ∉ st.heldRows.map Prod.fst := by
      rw [h.held]
      exact fun hin => hnot ((List.filter_sublist.map _).subset hin)
    refine sorted_ext ?_ (hsorted.filter _) fun e => ?_
    · unfold State.admitted
      dsimp only
      split
      · exact sorted_emplaced hheldSorted ..
      · exact hheldSorted
    have hisHeld : ∀ e ∈ st.resident, isHeld codec (st.admitted codec x.1.1 ⟨x.1.2, x.2⟩) e
        = isHeld codec st e := by
      intro e he
      unfold isHeld
      rw [holdRow e he]
    have hnew : isHeld codec (st.admitted codec x.1.1 ⟨x.1.2, x.2⟩) (x.1.1, st.born)
        = codec.held x.2 := by
      unfold isHeld
      rw [hnewRow]
      rfl
    have hold : e ∈ st.heldRows ↔ e ∈ st.resident ∧ isHeld codec st e = true := by
      rw [h.held, List.mem_filter]
    have hfirst : e ∈ (st.admitted codec x.1.1 ⟨x.1.2, x.2⟩).heldRows ↔
        (e = (x.1.1, st.born) ∧ codec.held x.2 = true) ∨ e ∈ st.heldRows := by
      unfold State.admitted
      dsimp only
      split
      · next hheld => rw [mem_emplaced hheldFresh, hheld, eq_self, and_true]
      · next hheld => simp [hheld]
    rw [hfirst, List.mem_filter, hmem, hold]
    constructor
    · rintro (⟨rfl, hheld⟩ | ⟨he, hheld⟩)
      · exact ⟨.inl rfl, hnew.trans hheld⟩
      · exact ⟨.inr he, (hisHeld e he).trans hheld⟩
    · rintro ⟨rfl | he, hheld⟩
      · exact .inl ⟨rfl, hnew.symm.trans hheld⟩
      · exact .inr ⟨he, (hisHeld e he).symm.trans hheld⟩
  · intro pin hpin
    exact (hmem _).mpr (.inr (h.pins pin hpin))

theorem insertResident_eq (offset : ℕ) (row : Row Val) :
    insertResident codec offset row st = (.ok ⟨offset, st.born⟩, st.admitted codec offset row) :=
      rfl

/-- A load gives the row of the table. -/
theorem load_eq (h : Sound codec backing st table) {x : Label × Val} (hx : x ∈ table) :
    ∃ pin t, load codec backing x.1.1 st = (.ok pin, t) ∧ Sound codec backing t table ∧
      Shows t pin x ∧
      t.pins = st.pins := by
  unfold load
  rw [Command.get_bind_apply]
  cases hfind : Assoc.find x.1.1 st.resident with
  | some row =>
    have hmem := Assoc.mem_of_find hfind
    exact ⟨_, st, rfl, h, ⟨rfl, hmem, h.inMemory x hx row hmem⟩, rfl⟩
  | none =>
    have hnot := Assoc.find_eq_none_iff.mp hfind
    obtain ⟨hspillable, hvalue⟩ := h.onDisk x hx (by simp) hnot
    obtain ⟨tree, hholding⟩ := h.index
    have hoffset : x.1.1 ∈ (table.map Prod.fst).map Prod.fst := by
      rw [List.map_map]
      exact List.mem_map_of_mem hx
    obtain ⟨record, hrecord, hget⟩ := hholding.get_eq hoffset
    obtain rfl := Option.some.inj (hrecord.symm.trans hvalue)
    have hkey := hholding.keyAt_eq (List.mem_map_of_mem hx : x.1 ∈ table.map Prod.fst)
    have hgap : SoundBut codec backing st table (some x.1.1) :=
      ⟨h.index, h.inMemory, fun y hy _ => h.onDisk y hy (by simp), h.sorted, h.known, h.objects,
        h.below, h.byKeySorted,
        h.byKey, h.held, h.pins⟩
    obtain ⟨hsound, hshows⟩ := hgap.admit hx hnot
    refine ⟨_, _, ?_, hsound, hshows, rfl⟩
    dsimp only
    unfold restore
    rw [Command.bind_ok (onIndex_read hget), codec.restore_retired _ hspillable, if_pos hspillable,
      Command.bind_ok (show requireLiveGrowth codec backing 0 st = (.ok (), st) by
        rw [requireLiveGrowth_eq h, if_neg (by simp)]),
      Command.bind_ok (show spillBeforeAdmission codec backing 0 st = (.ok (), st) by
        unfold spillBeforeAdmission
        rw [Command.get_bind_apply, Command.when, if_neg (by simp)]
        rfl),
      Command.bind_ok (onIndex_read hkey)]
    exact insertResident_eq ..

theorem loadFound_eq (h : Sound codec backing st table) {x : Label × Val} (hx : x ∈ table) :
    ∃ pin t, loadFound codec backing (some x.1.1) st = (.ok (some pin), t) ∧
      Sound codec backing t table ∧ Shows t pin x ∧
      t.pins = st.pins := by
  obtain ⟨pin, t, hrun, hsound, hshows, hpins⟩ := load_eq h hx
  refine ⟨pin, t, ?_, hsound, hshows, hpins⟩
  change (load codec backing x.1.1 >>= fun pin => pure (some pin)) st = _
  rw [Command.bind_ok hrun]
  rfl

/-! ## Lookups -/

theorem indexFind_eq (h : Sound codec backing st table) (key : Key) :
    (∃ x ∈ table, x.1.2 = key ∧ DiskTable.find backing key st.index
      = (.ok (some x.1.1), st.index)) ∨
      (∀ x ∈ table, x.1.2 ≠ key) ∧ DiskTable.find backing key st.index = (.ok none, st.index) := by
  obtain ⟨tree, hholding⟩ := h.index
  rcases hholding.find_eq key with ⟨o, hmem, hrun⟩ | ⟨hnone, hrun⟩
  · obtain ⟨x, hx, heq⟩ := List.mem_map.mp hmem
    refine .inl ⟨x, hx, by rw [heq], ?_⟩
    rw [heq]
    exact hrun
  · exact .inr ⟨fun x hx => hnone x.1 (List.mem_map_of_mem hx), hrun⟩

theorem find_eq (h : Sound codec backing st table) (key : Key) :
    (∃ x ∈ table, x.1.2 = key ∧ ∃ pin t, find codec backing key st = (.ok (some pin), t) ∧
        Sound codec backing t table ∧ Shows t pin x ∧ t.pins = st.pins) ∨
      (∀ x ∈ table, x.1.2 ≠ key) ∧ ∃ t, find codec backing key st = (.ok none, t) ∧
        Sound codec backing t table ∧
        t.pins = st.pins := by
  obtain ⟨t, hspill, hsound, hpins⟩ := spillImplicitly_eq h
  unfold find
  rw [Command.bind_ok hspill]
  rcases indexFind_eq hsound key with ⟨x, hx, hkey, hrun⟩ | ⟨hnone, hrun⟩
  · obtain ⟨pin, u, hload, hsound', hshows, hpins'⟩ := loadFound_eq hsound hx
    refine .inl ⟨x, hx, hkey, pin, u, ?_, hsound', hshows, hpins'.trans hpins⟩
    rw [Command.bind_ok (onIndex_read hrun)]
    exact hload
  · refine .inr ⟨hnone, t, ?_, hsound, hpins⟩
    rw [Command.bind_ok (onIndex_read hrun)]
    rfl

theorem contains_eq (h : Sound codec backing st table) (key : Key) :
    contains backing key st = (.ok (decide (key ∈ table.map fun x => x.1.2)), st) := by
  unfold contains
  rcases indexFind_eq h key with ⟨x, hx, rfl, hrun⟩ | ⟨hnone, hrun⟩
  · rw [Command.bind_ok (onIndex_read hrun),
      decide_eq_true (List.mem_map_of_mem (f := fun x => x.1.2) hx)]
    rfl
  · have hnot : key ∉ table.map fun x => x.1.2 := by
      intro hmem
      obtain ⟨x, hx, hkey⟩ := List.mem_map.mp hmem
      exact hnone x hx hkey
    rw [Command.bind_ok (onIndex_read hrun), decide_eq_false hnot]
    rfl

theorem size_eq (h : Sound codec backing st table) : size st = (.ok table.length, st) := by
  obtain ⟨tree, hholding⟩ := h.index
  unfold size
  rw [Command.get_bind_apply, hholding.size, List.length_map]
  rfl

theorem findResident_eq (h : Sound codec backing st table) (key : Key) :
    (∃ x ∈ table, x.1.2 = key ∧ x.1.1 ∈ st.resident.map Prod.fst ∧
        ∃ pin, findResident key st = (.ok (some pin), st) ∧ Shows st pin x) ∨
      (∀ x ∈ table, x.1.2 = key → x.1.1 ∉ st.resident.map Prod.fst) ∧ findResident key st
        = (.ok none, st) := by
  unfold findResident
  rw [Command.get_bind_apply]
  cases hfind : Assoc.find key st.residentByKey with
  | none =>
    refine .inr ⟨fun x hx hkey hin => ?_, rfl⟩
    apply Assoc.find_eq_none_iff.mp hfind
    exact List.mem_map.mpr ⟨(key, x.1.1), (h.byKey _ _).mpr ⟨hin, x.2, hkey ▸ hx⟩, rfl⟩
  | some offset =>
    obtain ⟨hin, v, hv⟩ := (h.byKey _ _).mp (Assoc.mem_of_find hfind)
    obtain ⟨e, he, rfl⟩ := List.mem_map.mp hin
    refine .inl ⟨_, hv, rfl, hin, ⟨e.1, e.2⟩, ?_, ⟨rfl, he, h.inMemory _ hv e.2 he⟩⟩
    dsimp only
    rw [(find_eq_some h.sorted).mpr he]
    rfl

/-! ## Values written through iterators -/

/-- The table with another value in the row of an offset. -/
def rewritten (offset : ℕ) (value : Val) (table : List (Label × Val)) : List (Label × Val) :=
  table.map fun x => if x.1.1 = offset then (x.1, value) else x

theorem map_fst_rewritten (offset : ℕ) (value : Val) (table : List (Label × Val)) :
    (rewritten offset value table).map Prod.fst = table.map Prod.fst := by
  unfold rewritten
  rw [List.map_map]
  refine List.map_congr_left fun x _ => ?_
  rw [Function.comp_apply]
  split
  · rfl
  · rfl

theorem mem_rewritten {offset : ℕ} {value : Val} {y : Label × Val} :
    y ∈ rewritten offset value table ↔ ∃ x ∈ table, y = if x.1.1 = offset then
      (x.1, value) else x := by
  unfold rewritten
  rw [List.mem_map]
  constructor
  · rintro ⟨x, hx, rfl⟩
    exact ⟨x, hx, rfl⟩
  · rintro ⟨x, hx, rfl⟩
    exact ⟨x, hx, rfl⟩

/-- A value written through an iterator and the held rows brought up to it. -/
theorem refreshHeld_written_eq (h : Sound codec backing st table) {pin : Pin}
    (hpin : (pin.offset, pin.row) ∈ st.resident) (value : Val) :
    ∃ t, refreshHeld codec pin (st.written pin value) = (.ok (), t) ∧
      Sound codec backing t (rewritten pin.offset value table) ∧ t.pins = st.pins := by
  obtain ⟨x, hx, hoffset, hrow⟩ := h.rowAt hpin
  have hself : (st.written pin value).rows pin.row = some ⟨x.1.2, value⟩ := by
    change Function.update st.rows pin.row _ pin.row = _
    rw [Function.update_self, hrow]
    rfl
  have hother : ∀ row, row ≠ pin.row → (st.written pin value).rows row = st.rows row :=
    fun row hne => Function.update_of_ne hne ..
  have hentry : ∀ e ∈ st.resident, e.2 = pin.row ↔ e = (pin.offset, pin.row) := by
    intro e he
    constructor
    · intro heq
      exact h.eq_of_object he hpin heq
    · rintro rfl
      rfl
  have hisSelf : isHeld codec (st.written pin value) (pin.offset, pin.row) = codec.held value := by
    unfold isHeld
    rw [hself]
    rfl
  have hisOther : ∀ e ∈ st.resident, e ≠ (pin.offset, pin.row) →
      isHeld codec (st.written pin value) e = isHeld codec st e := by
    intro e he hne
    unfold isHeld
    rw [hother e.2 fun heq => hne ((hentry e he).mp heq)]
  have hheldSorted : Assoc.Sorted st.heldRows := by
    rw [h.held]
    exact h.sorted.filter _
  have hheldMem : ∀ e, e ∈ st.heldRows ↔ e ∈ st.resident ∧ isHeld codec st e = true := by
    intro e
    rw [h.held, List.mem_filter]
  -- whatever the held rows become, the rest of the invariant is of the written value
  have hrest : ∀ held, held = st.resident.filter (isHeld codec (st.written pin value)) →
      Sound codec backing ((st.written pin value).withHeld held)
        (rewritten pin.offset value table) := by
    intro held hheld
    refine ⟨?_, ?_, ?_, h.sorted, ?_, h.objects, h.below, h.byKeySorted, ?_, hheld, h.pins⟩
    · rw [map_fst_rewritten]
      exact h.index
    · intro y hy row hmem
      obtain ⟨x', hx', rfl⟩ := mem_rewritten.mp hy
      by_cases heq : x'.1.1 = pin.offset
      · rw [if_pos heq] at hmem ⊢
        have hsame := h.eq_of_offset hx' hx (heq.trans hoffset.symm)
        subst hsame
        have hobject := h.eq_of_resident hmem hpin heq
        have hrow' : row = pin.row := congrArg Prod.snd hobject
        subst hrow'
        exact hself
      · rw [if_neg heq] at hmem ⊢
        have hne : row ≠ pin.row := by
          intro hobject
          exact heq (congrArg Prod.fst ((hentry _ hmem).mp hobject))
        exact (hother row hne).trans (h.inMemory x' hx' row hmem)
    · intro y hy _ hout
      obtain ⟨x', hx', rfl⟩ := mem_rewritten.mp hy
      by_cases heq : x'.1.1 = pin.offset
      · rw [if_pos heq] at hout
        refine absurd ?_ hout
        rw [heq]
        exact List.mem_map.mpr ⟨_, hpin, rfl⟩
      · rw [if_neg heq] at hout ⊢
        exact h.onDisk x' hx' (by simp) hout
    · intro e he
      obtain ⟨x', hx', heq⟩ := h.known e he
      refine ⟨_, mem_rewritten.mpr ⟨x', hx', rfl⟩, ?_⟩
      split
      · exact heq
      · exact heq
    · intro k o
      refine (h.byKey k o).trans (and_congr_right fun _ => ?_)
      constructor
      · rintro ⟨v, hv⟩
        by_cases heq : o = pin.offset
        · exact ⟨value, mem_rewritten.mpr ⟨_, hv, by rw [if_pos heq]⟩⟩
        · exact ⟨v, mem_rewritten.mpr ⟨_, hv, by rw [if_neg heq]⟩⟩
      · rintro ⟨v, hv⟩
        obtain ⟨x', hx', heq⟩ := mem_rewritten.mp hv
        refine ⟨x'.2, ?_⟩
        have hlabel : x'.1 = (o, k) := by
          split at heq
          · exact (congrArg Prod.fst heq).symm
          · exact (congrArg Prod.fst heq).symm
        rw [← hlabel]
        exact hx'
  have hat : ∀ e ∈ st.heldRows, e.1 = pin.offset → e = (pin.offset, pin.row) :=
    fun e he heq => h.eq_of_resident ((hheldMem e).mp he).1 hpin heq
  have hrefresh : ∃ held, refreshHeld codec pin (st.written pin value)
    = (.ok (), (st.written pin value).withHeld held) ∧
      Assoc.Sorted held ∧ ∀ e, e ∈ held ↔
        e = (pin.offset, pin.row) ∧ codec.held value = true ∨ e ≠ (pin.offset, pin.row) ∧
          e ∈ st.heldRows := by
    unfold refreshHeld
    rw [Command.bind_ok (rowOf_eq hself), Command.get_bind_apply]
    dsimp only
    have hlist : (st.written pin value).heldRows = st.heldRows := rfl
    rw [hlist]
    by_cases hheld : codec.held value = true
    · rw [if_pos hheld, Command.when]
      cases hfind : Assoc.find pin.offset st.heldRows with
      | none =>
        have hfresh := Assoc.find_eq_none_iff.mp hfind
        refine ⟨_, rfl, hheldSorted.put .., fun e => ?_⟩
        rw [mem_put_iff hfresh]
        constructor
        · rintro (rfl | he)
          · exact .inl ⟨rfl, hheld⟩
          · refine .inr ⟨?_, he⟩
            rintro rfl
            exact hfresh (List.mem_map.mpr ⟨_, he, rfl⟩)
        · rintro (⟨rfl, -⟩ | ⟨-, he⟩)
          · exact .inl rfl
          · exact .inr he
      | some row =>
        have hmem := Assoc.mem_of_find hfind
        have hrow' := hat _ hmem rfl
        rw [hrow'] at hmem
        refine ⟨st.heldRows, rfl, hheldSorted, fun e => ?_⟩
        constructor
        · intro he
          by_cases heq : e = (pin.offset, pin.row)
          · exact .inl ⟨heq, hheld⟩
          · exact .inr ⟨heq, he⟩
        · rintro (⟨rfl, -⟩ | ⟨-, he⟩)
          · exact hmem
          · exact he
    · rw [if_neg hheld, Command.when]
      cases hfind : Assoc.find pin.offset st.heldRows with
      | none =>
        refine ⟨st.heldRows, rfl, hheldSorted, fun e => ?_⟩
        constructor
        · intro he
          refine .inr ⟨?_, he⟩
          rintro rfl
          exact Assoc.find_eq_none_iff.mp hfind (List.mem_map.mpr ⟨_, he, rfl⟩)
        · rintro (⟨-, habsurd⟩ | ⟨-, he⟩)
          · exact absurd habsurd hheld
          · exact he
      | some row =>
        refine ⟨_, rfl, hheldSorted.erase _, fun e => ?_⟩
        rw [mem_erase]
        constructor
        · rintro ⟨he, hne⟩
          exact .inr ⟨fun heq => hne (by rw [heq]), he⟩
        · rintro (⟨-, habsurd⟩ | ⟨hne, he⟩)
          · exact absurd habsurd hheld
          · exact ⟨he, fun heq => hne (hat e he heq)⟩
  obtain ⟨held, hrun, hsorted, hmem⟩ := hrefresh
  refine ⟨_, hrun, hrest held (sorted_ext hsorted (h.sorted.filter _) fun e => ?_), rfl⟩
  rw [hmem, List.mem_filter, hheldMem]
  constructor
  · rintro (⟨rfl, hheld⟩ | ⟨hne, he, hheld⟩)
    · exact ⟨hpin, hisSelf.trans hheld⟩
    · exact ⟨he, (hisOther e he hne).trans hheld⟩
  · rintro ⟨he, hheld⟩
    by_cases heq : e = (pin.offset, pin.row)
    · subst heq
      exact .inl ⟨rfl, hisSelf.symm.trans hheld⟩
    · exact .inr ⟨heq, he, (hisOther e he heq).symm.trans hheld⟩

end PineForge.Resident
