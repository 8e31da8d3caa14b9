import Mathlib
import PineForge.Resident.Calls

/-!
# Runs of a resident table

Whatever passes come between the calls, and whatever rows are pinned, the calls answer as a table of
keys and values in memory does. Its refusals are those of the id table and of the limit on live
rows, both read off the keys and values.
-/

namespace PineForge.Resident

open DiskTable (Key Backing Label Holding valueAt)

variable {Rec Val : Type} {codec : Codec Rec Val} {backing : Backing} {st t : State Rec Val}
  {table : List (Label × Val)}

/-! ## Refusals -/

/-- The id table with these keys, as its checks see it. -/
def blank (backing : Backing) (labels : List Label) : DiskTable.Table Rec where
  nodes := fun _ => none
  finish := 1 + DiskTable.rowsBytes backing labels
  size := labels.length

/-- The failure a call threw. -/
def failureOf {ε β : Type} : Except (Stop ε) β → Option ε
  | .error (.thrown failure) => some failure
  | _ => none

/-- Why a new row is refused. -/
def refusal (codec : Codec Rec Val) (backing : Backing) (table : List (Label × Val)) (key : Key)
    (value : Val) :
    Option Failure :=
  if let some failure := failureOf
    (DiskTable.requireNewKey backing key.length (blank backing (table.map Prod.fst) :
      DiskTable.Table Rec)).1 then some (.index failure)
  else if boundedCohorts backing = true ∧ codec.spillable value = false ∧
      maxResidentCohorts < liveRows codec (table.map Prod.snd) + 1 then
        some (.liveLimit maxResidentCohorts)
  else
    (failureOf (DiskTable.admitKey backing key.length
      (blank backing (table.map Prod.fst) : DiskTable.Table Rec)).1).map .index

theorem onIndex_error {β : Type} {call : DiskTable.Action Rec β} {failure : DiskTable.Failure}
    {index : DiskTable.Table Rec} (h : call st.index = (.error (.thrown failure), index)) :
    onIndex call st = (.error (.thrown (.index failure)), st.withIndex index) := by
  unfold onIndex
  rw [h]
  rfl

/-- The check before an insertion. -/
theorem requireInsert_eq (h : Sound codec backing st table) (key : Key) :
    ((∃ x ∈ table, x.1.2 = key) ∧ onIndex (DiskTable.requireInsert backing key) st = (.ok (), st)) ∨
      (∀ x ∈ table, x.1.2 ≠ key) ∧
        ((onIndex (DiskTable.requireInsert backing key) st = (.ok (), st) ∧
            failureOf (DiskTable.requireNewKey backing key.length st.index).1 = none) ∨
          ∃ failure, onIndex (DiskTable.requireInsert backing key) st
            = (.error (.thrown (.index failure)), st) ∧
            failureOf (DiskTable.requireNewKey backing key.length st.index).1 = some failure) := by
  have hslab : DiskTable.requireInsert backing key st.index
    = backing.slab.elim (.ok (), st.index) fun _ =>
      (DiskTable.find backing key >>= fun found =>
        Command.when found.isNone (DiskTable.requireNewKey backing key.length)) st.index := by
    unfold DiskTable.requireInsert
    cases backing.slab with
    | none => rfl
    | some slab => rfl
  rcases indexFind_eq h key with ⟨x, hx, hkey, hrun⟩ | ⟨hnone, hrun⟩
  · refine .inl ⟨⟨x, hx, hkey⟩, onIndex_read ?_⟩
    rw [hslab]
    cases backing.slab with
    | none => rfl
    | some slab =>
      rw [Option.elim_some, Command.bind_ok hrun]
      rfl
  · refine .inr ⟨hnone, ?_⟩
    rcases (DiskTable.requireNewKey_ends key.length : Ends
      (DiskTable.requireNewKey backing key.length) st.index _ _) with
      ⟨_, _, hnew, rfl⟩ | ⟨failure, _, hnew, rfl⟩
    · refine .inl ⟨onIndex_read ?_, by rw [hnew]; rfl⟩
      rw [hslab]
      cases backing.slab with
      | none => rfl
      | some slab =>
        rw [Option.elim_some, Command.bind_ok hrun]
        exact hnew
    · refine .inr ⟨failure, onIndex_error ?_, by rw [hnew]; rfl⟩
      cases hs : backing.slab with
      | none =>
        unfold DiskTable.requireNewKey at hnew
        rw [hs] at hnew
        cases (Prod.mk.inj hnew).1
      | some slab =>
        rw [hslab, hs]
        rw [Option.elim_some, Command.bind_ok hrun]
        exact hnew

theorem admission_eq (h : Sound codec backing st table) (key : Key) (value : Val) :
    ((∃ x ∈ table, x.1.2 = key) → admission codec backing key value st = (.ok 0, st)) ∧
      ((∀ x ∈ table, x.1.2 ≠ key) →
        if boundedCohorts backing = true ∧ codec.spillable value = false ∧
          maxResidentCohorts < liveRows codec (table.map Prod.snd) + 1
        then admission codec backing key value st
          = (.error (.thrown (.liveLimit maxResidentCohorts)), st)
        else ∃ extra, admission codec backing key value st = (.ok extra, st)) := by
  unfold admission
  by_cases hbounded : boundedCohorts backing = true ∧ codec.spillable value = false
  · rw [if_pos hbounded]
    rcases indexFind_eq h key with ⟨x, hx, hkey, hrun⟩ | ⟨hnone, hrun⟩
    · refine ⟨fun _ => ?_, fun hnone => absurd hkey (hnone x hx)⟩
      rw [Command.bind_ok (onIndex_read hrun)]
      rfl
    · refine ⟨fun ⟨x, hx, hkey⟩ => absurd hkey (hnone x hx), fun _ => ?_⟩
      rw [Command.bind_ok (onIndex_read hrun),
        if_pos (show (none : Option ℕ).isNone = true from rfl)]
      have hgrowth := requireLiveGrowth_eq h 1
      by_cases hmore : maxResidentCohorts < liveRows codec (table.map Prod.snd) + 1
      · rw [if_pos ⟨hbounded.1, hbounded.2, hmore⟩]
        rw [if_pos ⟨Nat.one_ne_zero, hbounded.1, hmore⟩] at hgrowth
        exact Command.bind_error hgrowth _
      · rw [if_neg (by tauto)]
        rw [if_neg (by tauto)] at hgrowth
        exact ⟨1, by rw [Command.bind_ok hgrowth]; rfl⟩
  · rw [if_neg hbounded]
    exact ⟨fun _ => rfl, fun _ => by rw [if_neg (by tauto)]; exact ⟨0, rfl⟩⟩

/-- A row placed in the index, not yet resident. -/
theorem SoundBut.placed (h : Sound codec backing st table) (value : Val)
    {index : DiskTable.Table Rec}
    {tree : Avl.BinTree Label} {key : Key}
    (hholding : Holding backing index tree (table.map Prod.fst ++ [(st.index.finish, key)]))
    (hvalue : ∀ o, o ≠ st.index.finish → valueAt index o = valueAt st.index o) :
    SoundBut codec backing (st.withIndex index) (table ++ [((st.index.finish, key), value)])
      (some st.index.finish) ∧
      st.index.finish ∉ st.resident.map Prod.fst := by
  have hnew : ∀ x ∈ table, x.1.1 ≠ st.index.finish := by
    intro x hx heq
    obtain ⟨old, hold⟩ := h.index
    have hmem : x.1.1 ∈ DiskTable.offsets old := by
      refine hold.offset_mem.mpr ?_
      rw [List.map_map]
      exact List.mem_map_of_mem hx
    exact (hold.lt_finish hmem).ne heq
  have hout : st.index.finish ∉ st.resident.map Prod.fst := by
    intro hin
    obtain ⟨e, he, heq⟩ := List.mem_map.mp hin
    obtain ⟨x, hx, hoffset⟩ := h.known e he
    exact hnew x hx (hoffset.trans heq)
  refine ⟨⟨⟨tree, ?_⟩, ?_, ?_, h.sorted, ?_, h.objects, h.below, h.byKeySorted, ?_, h.held, h.pins⟩,
    hout⟩
  · rw [List.map_append]
    exact hholding
  · intro x hx row hrow
    rcases List.mem_append.mp hx with hx | hx
    · exact h.inMemory x hx row hrow
    · obtain rfl := List.mem_singleton.mp hx
      exact absurd (List.mem_map.mpr ⟨_, hrow, rfl⟩) hout
  · intro x hx hgap hnot
    rcases List.mem_append.mp hx with hx | hx
    · have hdisk := h.onDisk x hx (by simp) hnot
      refine ⟨hdisk.1, ?_⟩
      exact (hvalue x.1.1 (hnew x hx)).trans hdisk.2
    · obtain rfl := List.mem_singleton.mp hx
      exact absurd rfl hgap
  · intro e he
    obtain ⟨x, hx, hoffset⟩ := h.known e he
    exact ⟨x, List.mem_append_left _ hx, hoffset⟩
  · intro k o
    refine (h.byKey k o).trans (and_congr_right fun hin => ?_)
    constructor
    · rintro ⟨v, hv⟩
      exact ⟨v, List.mem_append_left _ hv⟩
    · rintro ⟨v, hv⟩
      rcases List.mem_append.mp hv with hv | hv
      · exact ⟨v, hv⟩
      · have heq := List.mem_singleton.mp hv
        have ho : o = st.index.finish := congrArg (fun x => x.1.1) heq
        subst ho
        exact absurd hin hout

theorem index_blank (h : Sound codec backing st table) :
    st.index.finish = (blank backing (table.map Prod.fst) : DiskTable.Table Rec).finish ∧
      st.index.size = (blank backing (table.map Prod.fst) : DiskTable.Table Rec).size := by
  obtain ⟨tree, hholding⟩ := h.index
  exact ⟨hholding.finish, hholding.size⟩

/-- An emplacement finds, adds or refuses. -/
theorem emplace_eq (h : Sound codec backing st table) (key : Key) (value : Val) :
    (∃ x ∈ table, x.1.2 = key ∧ ∃ pin t, emplace codec backing key value st
      = (.ok (pin, false), t) ∧
        Sound codec backing t table ∧ Shows t pin x ∧ t.pins = st.pins) ∨
      (∀ x ∈ table, x.1.2 ≠ key) ∧
        ((refusal codec backing table key value = none ∧ ∃ offset pin t,
            emplace codec backing key value st = (.ok (pin, true), t) ∧
            Sound codec backing t (table ++ [((offset, key), value)]) ∧
              Shows t pin ((offset, key), value) ∧
            t.pins = st.pins) ∨
          ∃ failure t, refusal codec backing table key value = some failure ∧
            emplace codec backing key value st = (.error (.thrown failure), t) ∧
              Sound codec backing t table ∧
            t.pins = st.pins) := by
  obtain ⟨hfinish, hsize⟩ := index_blank h
  have hnewKey : (DiskTable.requireNewKey backing key.length _).1
      = (DiskTable.requireNewKey backing key.length st.index).1 :=
    DiskTable.requireNewKey_congr hfinish.symm hsize.symm key.length
  obtain ⟨hpresent, habsent⟩ := admission_eq h key value
  unfold emplace
  rcases requireInsert_eq h key with ⟨⟨x, hx, hkey⟩, hticket⟩ |
    ⟨hnone, ⟨hticket, hfree⟩ | ⟨failure, hticket, hrefused⟩⟩
  · -- the key is there: the row comes into memory
    refine .inl ⟨x, hx, hkey, ?_⟩
    obtain ⟨t, hspill, hsound, hpins⟩ := spillBeforeAdmission_eq h 0
    obtain ⟨u, hspill', hsound', hpins'⟩ := spillImplicitly_eq hsound
    obtain ⟨tree, hholding⟩ := hsound'.index
    have hinsert : ∃ o, (o, key) ∈ table.map Prod.fst ∧
        DiskTable.insert backing key (codec.retiredRecord value) u.index
          = (.ok (o, false), u.index) := by
      rcases hholding.insert_eq key (codec.retiredRecord value) with hfound | ⟨hnone, -⟩
      · exact hfound
      · exact absurd hkey (hnone x.1 (List.mem_map_of_mem hx))
    obtain ⟨o, ho, hrun⟩ := hinsert
    obtain ⟨y, hy, hlabel⟩ := List.mem_map.mp ho
    obtain rfl : y = x := h.eq_of_key hy hx (by rw [hlabel, hkey])
    obtain ⟨pin, w, hload, hsound'', hshows, hpins''⟩ := load_eq hsound' hx
    have hoffset : y.1.1 = o := congrArg Prod.fst hlabel
    refine ⟨pin, w, ?_, hsound'', hshows, hpins''.trans (hpins'.trans hpins)⟩
    rw [Command.bind_ok hticket, Command.bind_ok (hpresent ⟨y, hx, hkey⟩), Command.bind_ok hspill,
      Command.bind_ok hspill', Command.bind_ok (onIndex_read hrun), settle,
        if_neg Bool.false_ne_true]
    rw [hoffset] at hload
    rw [Command.bind_ok hload]
    rfl
  · refine .inr ⟨hnone, ?_⟩
    have hadmission := habsent hnone
    rw [← hnewKey] at hfree
    unfold refusal
    rw [hfree]
    dsimp only
    by_cases hlimit : boundedCohorts backing = true ∧ codec.spillable value = false ∧
        maxResidentCohorts < liveRows codec (table.map Prod.snd) + 1
    · rw [if_pos hlimit] at hadmission ⊢
      refine .inr ⟨_, st, rfl, ?_, h, rfl⟩
      rw [Command.bind_ok hticket]
      exact Command.bind_error hadmission _
    · rw [if_neg hlimit] at hadmission ⊢
      obtain ⟨extra, hextra⟩ := hadmission
      obtain ⟨t, hspill, hsound, hpins⟩ := spillBeforeAdmission_eq h extra
      obtain ⟨u, hspill', hsound', hpins'⟩ := spillImplicitly_eq hsound
      obtain ⟨tree, hholding⟩ := hsound'.index
      obtain ⟨hfinish', hsize'⟩ := index_blank hsound'
      have hadmitted : (DiskTable.admitKey backing key.length _).1
          = (DiskTable.admitKey backing key.length u.index).1 :=
        DiskTable.admitKey_congr hfinish'.symm hsize'.symm key.length
      rw [hadmitted, Command.bind_ok hticket, Command.bind_ok hextra, Command.bind_ok hspill,
        Command.bind_ok hspill']
      rcases hholding.insert_eq key (codec.retiredRecord value) with ⟨o, ho, -⟩ |
        ⟨-, ⟨index, tree', hrun, hgrown, hvalue,
        hcheck⟩ | ⟨failure, hrun, hcheck⟩⟩
      · obtain ⟨y, hy, hlabel⟩ := List.mem_map.mp ho
        exact absurd (congrArg Prod.snd hlabel) (hnone y hy)
      · obtain ⟨hplaced, hout⟩ := SoundBut.placed hsound' value hgrown fun o ho => by
          rw [hvalue, if_neg ho]
        obtain ⟨hadmitted, hshows⟩ :=
          hplaced.admit (List.mem_append_right _ (List.mem_singleton.mpr rfl)) hout
        refine .inl ⟨by rw [hcheck]; rfl, u.index.finish, _, _, ?_, hadmitted, hshows,
          hpins'.trans hpins⟩
        rw [Command.bind_ok (onIndex_ok hrun), settle, if_pos rfl]
        rfl
      · refine .inr ⟨.index failure, u, by rw [hcheck]; rfl, ?_, hsound', hpins'.trans hpins⟩
        exact Command.bind_error (onIndex_error hrun) _
  · refine .inr ⟨hnone, .inr ⟨.index failure, st, ?_, Command.bind_error hticket _, h, rfl⟩⟩
    rw [← hnewKey] at hrefused
    unfold refusal
    rw [hrefused]

/-! ## The sorted walk -/

/-- An iterator at the first of some rows, or none behind the last. -/
def ShowsFirst (st : State Rec Val) : Option Pin → List (Label × Val) → Prop
  | none, [] => True
  | some pin, x :: _ => Shows st pin x
  | _, _ => False

/-- The rows in the order of their keys. -/
def ordered (table : List (Label × Val)) : List (Label × Val) :=
  table.mergeSort fun x y => x.1.2 ≤ y.1.2

theorem ordered_perm (table : List (Label × Val)) : (ordered table).Perm table :=
  List.mergeSort_perm ..

theorem inorder_eq (h : Sound codec backing st table) {tree : Avl.BinTree Label}
    (hholding : Holding backing st.index tree (table.map Prod.fst)) :
    (ordered table).map Prod.fst = tree.inorder ∧ (ordered table).Pairwise fun x y => x.1.2
    < y.1.2 := by
  have hle : (ordered table).Pairwise fun x y => x.1.2 ≤ y.1.2 := by
    have hsorted : (ordered table).Pairwise fun x y => decide (x.1.2 ≤ y.1.2) = true := by
      apply List.pairwise_mergeSort
      · intro a b c hab hbc
        exact decide_eq_true (le_trans (of_decide_eq_true hab) (of_decide_eq_true hbc))
      · intro a b
        rw [Bool.or_eq_true, decide_eq_true_eq, decide_eq_true_eq]
        exact le_total _ _
    exact hsorted.imp fun hxy => of_decide_eq_true hxy
  have hnodup : ((ordered table).map fun x => x.1.2).Nodup :=
    ((ordered_perm table).map _).nodup_iff.mpr h.keys_nodup
  have hlt : (ordered table).Pairwise fun x y => x.1.2 < y.1.2 := by
    rw [List.nodup_iff_pairwise_ne, List.pairwise_map] at hnodup
    exact hle.imp₂ (fun _ _ hxy hne => lt_of_le_of_ne hxy hne) hnodup
  refine ⟨?_, hlt⟩
  have hperm : ((ordered table).map Prod.fst).Perm tree.inorder :=
    ((ordered_perm table).map Prod.fst).trans hholding.perm.symm
  refine hperm.eq_of_pairwise (fun a b _ _ hab hba => absurd hab (lt_asymm hba)) ?_ hholding.sorted
  rw [List.pairwise_map]
  exact hlt

theorem loadSorted_eq (h : Sound codec backing st table) {suf : List (Label × Val)}
    (hsuf : ∀ x ∈ suf, x ∈ table) :
    ∃ found t, loadSorted codec backing (DiskTable.headOffset (suf.map Prod.fst)) st
      = (.ok found, t) ∧
      Sound codec backing t table ∧ ShowsFirst t found suf ∧ t.pins = st.pins := by
  cases suf with
  | nil => exact ⟨none, st, rfl, h, trivial, rfl⟩
  | cons x suf =>
    have hx := hsuf x List.mem_cons_self
    obtain ⟨tree, hholding⟩ := h.index
    have hne : x.1.1 ≠ 0 := by
      intro hzero
      apply hholding.nonzero
      rw [← hzero]
      refine hholding.offset_mem.mpr ?_
      rw [List.map_map]
      exact List.mem_map_of_mem hx
    obtain ⟨pin, t, hload, hsound, hshows, hpins⟩ := loadFound_eq h hx
    refine ⟨some pin, t, ?_, hsound, hshows, hpins⟩
    unfold loadSorted
    change loadFound codec backing (if x.1.1 = 0 then none else some x.1.1) st = _
    rw [if_neg hne]
    exact hload

theorem sortedBegin_eq (h : Sound codec backing st table) :
    ∃ found t, sortedBegin codec backing st = (.ok found, t) ∧ Sound codec backing t table ∧
      ShowsFirst t found (ordered table) ∧ t.pins = st.pins := by
  obtain ⟨tree, hholding⟩ := h.index
  have hfirst := hholding.firstSorted_eq
  rw [← (inorder_eq h hholding).1] at hfirst
  obtain ⟨found, t, hload, hrest⟩ := loadSorted_eq h fun x hx => (ordered_perm table).mem_iff.mp hx
  refine ⟨found, t, ?_, hrest⟩
  unfold sortedBegin
  rw [Command.bind_ok (onIndex_read hfirst)]
  exact hload

theorem SoundBut.release {gap : Option ℕ} (h : SoundBut codec backing st table gap) (pin : Pin) :
    SoundBut codec backing (st.released pin) table gap :=
  ⟨h.index, h.inMemory, h.onDisk, h.sorted, h.known, h.objects, h.below, h.byKeySorted,
    h.byKey, h.held,
    fun other hmem => h.pins other (List.mem_of_mem_erase hmem)⟩

theorem SoundBut.pin {gap : Option ℕ} (h : SoundBut codec backing st table gap) {pin : Pin}
    (hpin : (pin.offset, pin.row) ∈ st.resident) :
    SoundBut codec backing (st.pinned pin) table gap := by
  refine ⟨h.index, h.inMemory, h.onDisk, h.sorted, h.known, h.objects, h.below, h.byKeySorted,
    h.byKey, h.held, ?_⟩
  intro other hmem
  rcases List.mem_cons.mp hmem with rfl | hmem
  · exact hpin
  · exact h.pins other hmem

theorem sortedNext_eq (h : Sound codec backing st table) {pre suf : List (Label × Val)}
    {x : Label × Val}
    (hsplit : ordered table = pre ++ x :: suf) {pin : Pin} (hpin : pin.offset = x.1.1) :
    ∃ found t, sortedNext codec backing pin st = (.ok found, t) ∧ Sound codec backing t table ∧
      ShowsFirst t found suf ∧ t.pins = st.pins.erase pin := by
  obtain ⟨tree, hholding⟩ := h.index
  have horder := (inorder_eq h hholding).1
  rw [hsplit, List.map_append, List.map_cons] at horder
  have hnext := hholding.nextSorted_eq horder.symm
  rw [← hpin] at hnext
  obtain ⟨t, hspill, hsound, hpins⟩ := spillImplicitly_eq (h.release pin)
  have hsuf : ∀ y ∈ suf, y ∈ table := by
    intro y hy
    refine (ordered_perm table).mem_iff.mp ?_
    rw [hsplit]
    exact List.mem_append_right _ (List.mem_cons_of_mem _ hy)
  obtain ⟨found, u, hload, hsound', hshows, hpins'⟩ := loadSorted_eq hsound hsuf
  refine ⟨found, u, ?_, hsound', hshows, hpins'.trans hpins⟩
  unfold sortedNext
  rw [Command.bind_ok (onIndex_read hnext), Command.modify_bind_apply, Command.bind_ok hspill]
  exact hload

/-! ## Runs -/

/-- The iterator a call returned stays alive. -/
def State.keeps (st : State Rec Val) : Option Pin → State Rec Val
  | none => st
  | some pin => st.pinned pin

/-- Every sequence of calls with the iterators kept or let go of, under any schedule of passes. The
table is what the calls make of its rows: a new row behind the others, and a value written through
an iterator in place. -/
inductive Run (codec : Codec Rec Val) (backing : Backing) :
    State Rec Val → List (Label × Val) → Prop
  | start : Run codec backing State.empty []
  | emplaced {st t : State Rec Val} {table : List (Label × Val)} {key : Key} {value : Val}
    {pin : Pin} {fresh : Bool} :
    Run codec backing st table → emplace codec backing key value st = (.ok (pin, fresh), t) →
      Run codec backing (t.pinned pin) (if fresh then table ++ [((pin.offset, key), value)]
        else table)
  | refused {st t : State Rec Val} {table : List (Label × Val)} {key : Key} {value : Val}
    {stop : Stop Failure} :
    Run codec backing st table → emplace codec backing key value st = (.error stop, t) →
      Run codec backing t table
  | found {st t : State Rec Val} {table : List (Label × Val)} {key : Key} {found : Option Pin} :
    Run codec backing st table → find codec backing key st = (.ok found, t) →
      Run codec backing (t.keeps found) table
  | foundResident {st t : State Rec Val} {table : List (Label × Val)} {key : Key}
    {found : Option Pin} :
    Run codec backing st table → findResident key st = (.ok found, t) →
      Run codec backing (t.keeps found) table
  | began {st t : State Rec Val} {table : List (Label × Val)} {found : Option Pin} :
    Run codec backing st table → sortedBegin codec backing st = (.ok found, t) →
      Run codec backing (t.keeps found) table
  | advanced {st t : State Rec Val} {table : List (Label × Val)} {pin : Pin} {found : Option Pin} :
    Run codec backing st table → pin ∈ st.pins → sortedNext codec backing pin st = (.ok found, t) →
      Run codec backing (t.keeps found) table
  | written {st t : State Rec Val} {table : List (Label × Val)} {pin : Pin} {value : Val}
      {outcome : Except (Stop Failure) Unit} :
    Run codec backing st table → pin ∈ st.pins → refreshHeld codec pin (st.written pin value)
      = (outcome, t) →
      Run codec backing t (rewritten pin.offset value table)
  | spilled {st t : State Rec Val} {table : List (Label × Val)}
    {outcome : Except (Stop Failure) Unit} :
    Run codec backing st table → spill codec backing st = (outcome, t) → Run codec backing t table
  | spilledImplicitly {st t : State Rec Val} {table : List (Label × Val)}
    {outcome : Except (Stop Failure) Unit} :
    Run codec backing st table → spillImplicitly codec backing st = (outcome, t) →
      Run codec backing t table
  | pinned {st : State Rec Val} {table : List (Label × Val)} {pin : Pin} :
    Run codec backing st table → (pin.offset, pin.row) ∈ st.resident →
      Run codec backing (st.pinned pin) table
  | released {st : State Rec Val} {table : List (Label × Val)} (pin : Pin) :
    Run codec backing st table → Run codec backing (st.released pin) table
  | scheduled {st : State Rec Val} {table : List (Label × Val)} (interval : ℕ)
    (predicate : Option (Key → Bool)) :
    Run codec backing st table → Run codec backing (st.scheduled interval predicate) table

theorem sound_empty (codec : Codec Rec Val) (backing : Backing) :
    Sound codec backing State.empty [] where
  index := ⟨.nil, DiskTable.holding_empty backing⟩
  inMemory := fun _ hx => absurd hx List.not_mem_nil
  onDisk := fun _ hx => absurd hx List.not_mem_nil
  sorted := List.Pairwise.nil
  known := fun _ he => absurd he List.not_mem_nil
  objects := List.nodup_nil
  below := fun _ he => absurd he List.not_mem_nil
  byKeySorted := List.Pairwise.nil
  byKey := fun k o => by simp [State.empty]
  held := rfl
  pins := fun _ hp => absurd hp List.not_mem_nil

theorem SoundBut.keeps (h : Sound codec backing st table) {found : Option Pin}
    {rows : List (Label × Val)}
    (hshows : ShowsFirst st found rows) : Sound codec backing (st.keeps found) table := by
  cases found with
  | none => exact h
  | some pin =>
    cases rows with
    | nil => exact hshows.elim
    | cons x rows => exact h.pin hshows.resident

/-- Every run keeps rows and index in step. -/
theorem Run.sound (h : Run codec backing st table) : Sound codec backing st table := by
  induction h with
  | start => exact sound_empty codec backing
  | @emplaced st t table key value pin fresh _ hrun ih =>
    rcases emplace_eq ih key value with ⟨x, -, -, pin', t', hrun', hsound, hshows, -⟩ |
      ⟨-, ⟨-, offset, pin', t', hrun', hsound, hshows, -⟩ | ⟨failure, t', -, hrun', -⟩⟩
    · obtain ⟨hresult, rfl⟩ := Prod.mk.inj (hrun'.symm.trans hrun)
      obtain ⟨rfl, rfl⟩ := Prod.mk.inj (Except.ok.inj hresult)
      exact hsound.pin hshows.resident
    · obtain ⟨hresult, rfl⟩ := Prod.mk.inj (hrun'.symm.trans hrun)
      obtain ⟨rfl, rfl⟩ := Prod.mk.inj (Except.ok.inj hresult)
      rw [if_pos rfl, show pin'.offset = offset from hshows.offset]
      exact hsound.pin hshows.resident
    · cases (Prod.mk.inj (hrun'.symm.trans hrun)).1
  | @refused st t table key value stop _ hrun ih =>
    rcases emplace_eq ih key value with ⟨x, -, -, pin', t', hrun', -⟩ |
      ⟨-, ⟨-, offset, pin', t', hrun', -⟩ | ⟨failure, t', -, hrun', hsound, -⟩⟩
    · cases (Prod.mk.inj (hrun'.symm.trans hrun)).1
    · cases (Prod.mk.inj (hrun'.symm.trans hrun)).1
    · obtain ⟨-, rfl⟩ := Prod.mk.inj (hrun'.symm.trans hrun)
      exact hsound
  | @found st t table key found _ hrun ih =>
    rcases find_eq ih key with ⟨x, -, -, pin, t', hrun', hsound, hshows, -⟩ |
      ⟨-, t', hrun', hsound, -⟩
    · obtain ⟨hresult, rfl⟩ := Prod.mk.inj (hrun'.symm.trans hrun)
      obtain rfl := Except.ok.inj hresult
      exact hsound.pin hshows.resident
    · obtain ⟨hresult, rfl⟩ := Prod.mk.inj (hrun'.symm.trans hrun)
      obtain rfl := Except.ok.inj hresult
      exact hsound
  | @foundResident st t table key found _ hrun ih =>
    rcases findResident_eq ih key with ⟨x, -, -, -, pin, hrun', hshows⟩ | ⟨-, hrun'⟩
    · obtain ⟨hresult, rfl⟩ := Prod.mk.inj (hrun'.symm.trans hrun)
      obtain rfl := Except.ok.inj hresult
      exact ih.pin hshows.resident
    · obtain ⟨hresult, rfl⟩ := Prod.mk.inj (hrun'.symm.trans hrun)
      obtain rfl := Except.ok.inj hresult
      exact ih
  | @began st t table found _ hrun ih =>
    obtain ⟨found', t', hrun', hsound, hshows, -⟩ := sortedBegin_eq ih
    obtain ⟨hresult, rfl⟩ := Prod.mk.inj (hrun'.symm.trans hrun)
    obtain rfl := Except.ok.inj hresult
    exact SoundBut.keeps hsound hshows
  | @advanced st t table pin found _ hpin hrun ih =>
    obtain ⟨x, hx, hoffset⟩ := ih.known _ (ih.pins pin hpin)
    obtain ⟨pre, suf, hsplit⟩ := List.append_of_mem ((ordered_perm table).mem_iff.mpr hx)
    obtain ⟨found', t', hrun', hsound, hshows, -⟩ :=
      sortedNext_eq ih hsplit (show pin.offset = x.1.1 from hoffset.symm)
    obtain ⟨hresult, rfl⟩ := Prod.mk.inj (hrun'.symm.trans hrun)
    obtain rfl := Except.ok.inj hresult
    exact SoundBut.keeps hsound hshows
  | @written st t table pin value outcome _ hpin hrun ih =>
    obtain ⟨t', hrun', hsound, -⟩ := refreshHeld_written_eq ih (ih.pins pin hpin) value
    obtain ⟨-, rfl⟩ := Prod.mk.inj (hrun'.symm.trans hrun)
    exact hsound
  | @spilled st t table outcome _ hrun ih =>
    obtain ⟨t', hrun', hsound, -⟩ := spill_eq ih
    obtain ⟨-, rfl⟩ := Prod.mk.inj (hrun'.symm.trans hrun)
    exact hsound
  | @spilledImplicitly st t table outcome _ hrun ih =>
    obtain ⟨t', hrun', hsound, -⟩ := spillImplicitly_eq ih
    obtain ⟨-, rfl⟩ := Prod.mk.inj (hrun'.symm.trans hrun)
    exact hsound
  | pinned _ hpin ih => exact ih.pin hpin
  | released pin _ ih => exact ih.release pin
  | scheduled interval predicate _ ih => exact ih.counters ..

/-- After every run the calls answer by the table alone: a search shows the row of its key, the
sorted walk goes through the rows by their keys, an insertion adds a row exactly where the key is
new and nothing refuses it. The maps by offset and by key name the same rows, and the held rows are
those of the rows in memory whose value is held. -/
theorem residency_invisible (h : Run codec backing st table) :
    (∀ key, (∃ x ∈ table, x.1.2 = key ∧ ∃ pin t, find codec backing key st = (.ok (some pin), t) ∧
      Shows t pin x) ∨
        (∀ x ∈ table, x.1.2 ≠ key) ∧ ∃ t, find codec backing key st = (.ok none, t)) ∧
      (∀ key, contains backing key st = (.ok (decide (key ∈ table.map fun x => x.1.2)), st)) ∧
      size st = (.ok table.length, st) ∧
      ((ordered table).Pairwise fun x y => x.1.2 < y.1.2) ∧
      (∃ found t, sortedBegin codec backing st = (.ok found, t) ∧
        ShowsFirst t found (ordered table)) ∧
      (∀ pre x suf pin, ordered table = pre ++ x :: suf → pin.offset = x.1.1 →
        ∃ found t, sortedNext codec backing pin st = (.ok found, t) ∧ ShowsFirst t found suf) ∧
      (∀ key value, (∃ x ∈ table, x.1.2 = key ∧ ∃ pin t, emplace codec backing key value st
        = (.ok (pin, false), t) ∧
          Shows t pin x) ∨
        (∀ x ∈ table, x.1.2 ≠ key) ∧
          ((refusal codec backing table key value = none ∧ ∃ offset pin t,
              emplace codec backing key value st = (.ok (pin, true), t) ∧
                Shows t pin ((offset, key), value)) ∨
            ∃ failure t, refusal codec backing table key value = some failure ∧
              emplace codec backing key value st = (.error (.thrown failure), t))) ∧
      (∀ k o, (k, o) ∈ st.residentByKey ↔ ∃ row, (o, row) ∈ st.resident ∧
        (st.rows row).map Row.key = some k) ∧
      st.heldRows = st.resident.filter (isHeld codec st) ∧ Assoc.Sorted st.heldRows := by
  have hsound := h.sound
  obtain ⟨tree, hholding⟩ := hsound.index
  refine ⟨fun key => ?_, contains_eq hsound, size_eq hsound, (inorder_eq hsound hholding).2, ?_, ?_,
    fun key value => ?_,
    fun k o => ?_, hsound.held, ?_⟩
  · rcases find_eq hsound key with ⟨x, hx, hkey, pin, t, hrun, -, hshows, -⟩ | ⟨hnone, t, hrun, -⟩
    · exact .inl ⟨x, hx, hkey, pin, t, hrun, hshows⟩
    · exact .inr ⟨hnone, t, hrun⟩
  · obtain ⟨found, t, hrun, -, hshows, -⟩ := sortedBegin_eq hsound
    exact ⟨found, t, hrun, hshows⟩
  · intro pre x suf pin hsplit hpin
    obtain ⟨found, t, hrun, -, hshows, -⟩ := sortedNext_eq hsound hsplit hpin
    exact ⟨found, t, hrun, hshows⟩
  · rcases emplace_eq hsound key value with ⟨x, hx, hkey, pin, t, hrun, -, hshows, -⟩ |
      ⟨hnone, ⟨hfree, offset, pin, t, hrun, -, hshows, -⟩ | ⟨failure, t, hrefused, hrun, -⟩⟩
    · exact .inl ⟨x, hx, hkey, pin, t, hrun, hshows⟩
    · exact .inr ⟨hnone, .inl ⟨hfree, offset, pin, t, hrun, hshows⟩⟩
    · exact .inr ⟨hnone, .inr ⟨failure, t, hrefused, hrun⟩⟩
  · rw [hsound.byKey]
    constructor
    · rintro ⟨hin, v, hv⟩
      obtain ⟨e, he, rfl⟩ := List.mem_map.mp hin
      refine ⟨e.2, he, ?_⟩
      rw [hsound.inMemory _ hv e.2 he]
      rfl
    · rintro ⟨row, hmem, hkey⟩
      obtain ⟨x, hx, hoffset, hrow⟩ := hsound.rowAt hmem
      rw [hrow] at hkey
      obtain rfl : x.1.2 = k := Option.some.inj hkey
      obtain rfl : x.1.1 = o := hoffset
      exact ⟨List.mem_map.mpr ⟨_, hmem, rfl⟩, x.2, hx⟩
  · rw [hsound.held]
    exact hsound.sorted.filter _

/-- Numbers that are their own records; zero can be spilled. -/
def numbers : Codec ℕ ℕ where
  retiredRecord := id
  restoreRecord := id
  spillable := fun n => n = 0
  held := fun n => n = 1
  restore_retired := fun _ _ => rfl

/-- One row, pinned. -/
def oneRow : State ℕ ℕ := (emplace numbers ⟨8, none⟩ [97] 0 State.empty).2.pinned ⟨1, 0⟩

/-- The one row let go of and spilled. -/
def spilledRow : State ℕ ℕ := (spill numbers ⟨8, none⟩ (oneRow.released ⟨1, 0⟩)).2

theorem run_spilledRow : Run numbers ⟨8, none⟩ spilledRow [((1, [97]), 0)] := by
  have hone : Run numbers ⟨8, none⟩ oneRow [((1, [97]), 0)] := by
    have hrun : emplace numbers ⟨8, none⟩ [97] 0 State.empty =
        (.ok (⟨1, 0⟩, true), (emplace numbers ⟨8, none⟩ [97] 0 State.empty).2) :=
          Prod.ext (by decide +kernel) rfl
    exact Run.start.emplaced hrun
  have hrun : spill numbers ⟨8, none⟩ (oneRow.released ⟨1, 0⟩) = (.ok (), spilledRow) :=
    Prod.ext (by decide +kernel) (by rw [spilledRow])
  exact (hone.released ⟨1, 0⟩).spilled hrun

theorem residency_invisible_spilledRow :
    Run numbers ⟨8, none⟩ spilledRow [((1, [97]), 0)] ∧ spilledRow.resident = [] ∧
      ∃ found t, sortedBegin numbers ⟨8, none⟩ spilledRow = (.ok found, t) ∧
        ShowsFirst t found (ordered [((1, [97]), 0)]) :=
  ⟨run_spilledRow, by decide +kernel, (residency_invisible run_spilledRow).2.2.2.2.1⟩

/-- In every run, whatever was spilled since, every handle that is out shows the row of its offset
as the table has it now, and two handles of one offset are of one object. -/
theorem pins_of_run (h : Run codec backing st table) :
    (∀ pin ∈ st.pins, ∃ x ∈ table, Shows st pin x) ∧
      ∀ pin ∈ st.pins, ∀ other ∈ st.pins, pin.offset = other.offset → pin.row = other.row := by
  have hsound := h.sound
  refine ⟨fun pin hpin => ?_, fun pin hpin other hother heq => ?_⟩
  · obtain ⟨x, hx, hoffset, hrow⟩ := hsound.rowAt (hsound.pins pin hpin)
    exact ⟨x, hx, hoffset.symm, hsound.pins pin hpin, hrow⟩
  · have hpinned := Assoc.find_of_mem hsound.sorted.nodup (hsound.pins pin hpin)
    have hothers := Assoc.find_of_mem hsound.sorted.nodup (hsound.pins other hother)
    rw [heq, hothers] at hpinned
    exact (Option.some.inj hpinned).symm

/-- The spilled row found again, in an object of its own. -/
def restoredRow : State ℕ ℕ := (find numbers ⟨8, none⟩ [97] spilledRow).2.keeps (some ⟨1, 1⟩)

theorem pins_of_run_restoredRow :
    spilledRow.resident = [] ∧ ∃ x ∈ [((1, [97]), 0)], Shows restoredRow ⟨1, 1⟩ x := by
  have hrun : find numbers ⟨8, none⟩ [97] spilledRow =
      (.ok (some ⟨1, 1⟩), (find numbers ⟨8, none⟩ [97] spilledRow).2) :=
        Prod.ext (by decide +kernel) rfl
  exact ⟨by decide +kernel, (pins_of_run (run_spilledRow.found hrun)).1 ⟨1, 1⟩ List.mem_cons_self⟩

end PineForge.Resident
