import PineForge.Book.Allowances

/-!
# Waking by price

The level index holds one entry for each sleeping row. A scan of one of its lists wakes rows from
the first key on and stops at the first level that the segment does not reach; since reachability
can only turn off along a list, nothing behind it is due. A promotion on the way may move other rows
between the tiers, and one that has to spill an active row ends the fast path, and the scan with it.
-/

namespace PineForge.Book

open Orders BigEndian FloatOrder

/-- The index holds one entry for each sleeping row and no other. -/
structure Indexed (b : BookSpill) : Prop extends Shelved b where
  indexSorted : Assoc.Sorted b.levelIndex
  entries : ∀ key incarnation, Assoc.find key b.levelIndex = some incarnation ↔
    ∃ row spec, Stands b true row ∧ dormantClass row = some spec ∧
      key = levelKey spec row.priority ∧ incarnation = row.handle.incarnation
  classed : ∀ row, Stands b true row → ∃ spec, dormantClass row = some spec
  words : ∀ asleep row, Stands b asleep row → row.priority < 2 ^ 64
  handles : ∀ asleep asleep' row row', Stands b asleep row → Stands b asleep' row' →
    row.handle.incarnation = row'.handle.incarnation → row.priority = row'.priority

/-- What a segment wakes: a row of a class that may run, at a level within reach. -/
def Due (context : EvaluationContext) (lo hi delta : Float) (spec : DormantSpec) : Prop :=
  classPermitted context spec.cls = true ∧ dormantReachable spec.ge spec.level lo hi delta = true

/-! ## Searches of the index -/

theorem lowerBound_of_find {key : Bytes} {value : ℕ} {index : List (Bytes × ℕ)}
    (hsorted : Assoc.Sorted index) (hfind : Assoc.find key index = some value) :
    BookSpill.lowerBound key index = some (key, value) := by
  induction index with
  | nil => cases hfind
  | cons e index ih =>
    obtain ⟨key', value'⟩ := e
    rw [Assoc.find_cons] at hfind
    unfold BookSpill.lowerBound
    split at hfind
    · rename_i heq
      rw [List.find?_cons_of_pos (by simp [heq]), heq, Option.some.inj hfind]
    · have hlt := (List.pairwise_cons.mp hsorted).1 _ (Assoc.mem_of_find hfind)
      rw [List.find?_cons_of_neg (by simpa using hlt)]
      exact ih hsorted.tail hfind

theorem lowerBound_le {key : Bytes} {e e' : Bytes × ℕ} {index : List (Bytes × ℕ)}
    (hsorted : Assoc.Sorted index) (hfirst : BookSpill.lowerBound key index = some e)
    (hmem : e' ∈ index) (hle : key ≤ e'.1) : e.1 ≤ e'.1 := by
  induction index with
  | nil => cases hmem
  | cons head index ih =>
    unfold BookSpill.lowerBound at hfirst
    by_cases hhead : key ≤ head.1
    · rw [List.find?_cons_of_pos (by simpa using hhead), Option.some.injEq] at hfirst
      subst hfirst
      rcases List.mem_cons.mp hmem with rfl | hmem
      · exact le_rfl
      · exact ((List.pairwise_cons.mp hsorted).1 e' hmem).le
    · rw [List.find?_cons_of_neg (by simpa using hhead)] at hfirst
      rcases List.mem_cons.mp hmem with rfl | hmem
      · exact absurd hle hhead
      · exact ih hsorted.tail hfirst hmem

theorem tag_le_levelKey (spec : DormantSpec) (priority : ℕ) :
    [listTag spec.cls spec.ge] ≤ levelKey spec priority := by
  unfold levelKey
  rw [List.cons_append, ← not_lt, List.cons_lt_cons_iff]
  rintro (hlt | ⟨-, hlt⟩)
  · exact lt_irrefl _ hlt
  · exact List.not_lt_nil _ hlt

theorem keyTag_of_between {tag : Fin 256} {key : Bytes} {spec : DormantSpec} {priority : ℕ}
    (hle : [tag] ≤ key) (hkey : key ≤ levelKey spec priority)
    (htag : listTag spec.cls spec.ge = tag) : keyTag key = tag := by
  cases key with
  | nil => exact absurd hle (not_le.mpr (List.nil_lt_cons _ _))
  | cons head rest =>
    unfold levelKey at hkey
    rw [List.cons_append, ← not_lt, List.cons_lt_cons_iff, htag, not_or] at hkey
    rw [← not_lt, List.cons_lt_cons_iff, not_or] at hle
    exact le_antisymm (not_lt.mp hkey.1) (not_lt.mp hle.1)

theorem eraseIndex_found {b : BookSpill} {row : LiveRequest Float} {spec : DormantSpec}
    (hpoison : b.poison = false) (hindex : b.hasIndex = true) (hspec : dormantClass row = some spec)
    (hsorted : Assoc.Sorted b.levelIndex)
    (hfind : Assoc.find (levelKey spec row.priority) b.levelIndex = some row.handle.incarnation) :
    b.eraseIndex row
      = { b with levelIndex := Assoc.erase (levelKey spec row.priority) b.levelIndex } := by
  unfold BookSpill.eraseIndex
  rw [if_neg (by rw [hpoison, hindex]; exact Bool.false_ne_true), hspec]
  dsimp only
  rw [lowerBound_of_find hsorted hfind]
  dsimp only
  rw [if_neg (by rw [not_or, not_not, not_not]; exact ⟨rfl, rfl⟩)]

/-! ## Rows whose allowance was refreshed -/

theorem dormantClass_project {b : BookSpill} {slot : BookSlot} {spec : DormantSpec}
    (h : dormantClass slot.row = some spec) : dormantClass (b.project slot) = some spec := by
  have hunits : ∀ point, (allowanceInitial (evaluatedAllowance slot.row point)).isSome = true := by
    intro point
    obtain ⟨q, hq, -, -⟩ := dormantClass_spec h
    unfold evaluatedAllowance initializeAllowance
    rw [hq]
    dsimp only
    split <;> rfl
  unfold BookSpill.project
  split
  · exact h
  · dsimp only
    split
    · exact h
    · split
      · split
        · exact h
        · exact dormantClass_allowance h (hunits _)
      · exact dormantClass_allowance h (hunits _)

/-- The index loses the woken row. -/
theorem Indexed.woke {b b' : BookSpill} (h : Indexed b) (hshelved : Shelved b')
    {row row' : LiveRequest Float} (hwoke : Woke b b' row row') {spec : DormantSpec}
    (hspec : dormantClass row = some spec)
    (hindex : b'.levelIndex = Assoc.erase (levelKey spec row.priority) b.levelIndex) :
    Indexed b' := by
  have hasleep : ∀ other, Stands b' true other ↔
      Stands b true other ∧ other.priority ≠ row.priority := by
    intro other
    rw [hwoke.stands]
    exact or_iff_left fun hfalse => Bool.false_ne_true hfalse.1.symm
  have hback : ∀ asleep other, Stands b' asleep other → ∃ asleep' other',
      Stands b asleep' other' ∧ other'.definition = other.definition := by
    intro asleep other hother
    rcases (hwoke.stands asleep other).mp hother with ⟨hold, -⟩ | ⟨-, rfl⟩
    · exact ⟨asleep, other, hold, rfl⟩
    · exact ⟨true, row, hwoke.asleep, hwoke.definition.symm⟩
  refine ⟨hshelved, hindex ▸ h.indexSorted.erase _, ?_, ?_, ?_, ?_⟩
  · intro key incarnation
    rw [hindex, Assoc.find_erase]
    constructor
    · intro hfind
      split at hfind
      · cases hfind
      · rename_i hne
        obtain ⟨other, spec', hother, hspec', rfl, rfl⟩ := (h.entries key incarnation).mp hfind
        refine ⟨other, spec', (hasleep other).mpr ⟨hother, fun hpriority => hne ?_⟩,
          hspec', rfl, rfl⟩
        obtain rfl := (h.stands_unique hother hwoke.asleep hpriority).1
        rw [hspec, Option.some.injEq] at hspec'
        rw [hspec']
    · rintro ⟨other, spec', hother, hspec', rfl, rfl⟩
      obtain ⟨hother, hne⟩ := (hasleep other).mp hother
      rw [if_neg fun hkey => hne (priority_of_levelKey_eq (h.words _ _ hother)
        (h.words _ _ hwoke.asleep) hkey)]
      exact (h.entries _ _).mpr ⟨other, spec', hother, hspec', rfl, rfl⟩
  · exact fun other hother => h.classed other ((hasleep other).mp hother).1
  · intro asleep other hother
    obtain ⟨asleep', other', hold, hdefinition⟩ := hback asleep other hother
    have := h.words asleep' other' hold
    unfold LiveRequest.priority at this ⊢
    rwa [hdefinition] at this
  · intro asleep asleep' other other' hother hother' hincarnation
    obtain ⟨_, first, hfirst, hfirstDef⟩ := hback asleep other hother
    obtain ⟨_, second, hsecond, hsecondDef⟩ := hback asleep' other' hother'
    have := h.handles _ _ first second hfirst hsecond
    unfold LiveRequest.handle at this hincarnation
    unfold LiveRequest.priority at this ⊢
    rw [hfirstDef, hsecondDef] at this
    exact this hincarnation

/-! ## Room leaves the index alone -/

/-- What the index and its failures are. -/
structure SameIndex (b b' : BookSpill) : Prop where
  levelIndex : b'.levelIndex = b.levelIndex
  hasIndex : b'.hasIndex = b.hasIndex
  poison : b'.poison = b.poison

theorem SameIndex.trans {b b' b'' : BookSpill} (h : SameIndex b b') (h' : SameIndex b' b'') :
    SameIndex b b'' :=
  ⟨h'.levelIndex.trans h.levelIndex, h'.hasIndex.trans h.hasIndex, h'.poison.trans h.poison⟩

theorem sameIndex_bumpEpoch (b : BookSpill) : SameIndex b b.bumpEpoch := by
  obtain ⟨epoch, hbump⟩ := bumpEpoch_eq b
  rw [hbump]
  exact ⟨rfl, rfl, rfl⟩

theorem sameIndex_spillAt (b : BookSpill) (index : ℕ) : SameIndex b (b.spillAt index) := by
  unfold BookSpill.spillAt
  split
  · refine SameIndex.trans ?_ (sameIndex_bumpEpoch _)
    unfold BookSpill.dropSpilled
    split <;> exact ⟨rfl, rfl, rfl⟩
  · exact ⟨rfl, rfl, rfl⟩

theorem sameIndex_spillRounds (b : BookSpill) (n : ℕ) :
    SameIndex b (BookSpill.spillRounds n b) := by
  induction n generalizing b with
  | zero => exact ⟨rfl, rfl, rfl⟩
  | succ n ih => exact (sameIndex_spillAt b _).trans (ih _)

theorem sameIndex_rebuilt (b : BookSpill) (rebuild : Bool) :
    SameIndex b (if rebuild then b.compact else b) := by
  split <;> exact ⟨rfl, rfl, rfl⟩

theorem sameIndex_makeBookRoom (b : BookSpill) (rebuild : Bool) :
    SameIndex b (b.makeBookRoom rebuild) := by
  unfold BookSpill.makeBookRoom
  split
  · exact ⟨rfl, rfl, rfl⟩
  · exact (sameIndex_rebuilt b rebuild).trans (sameIndex_spillRounds _ _)

theorem sameIndex_roomFor (b : BookSpill) (rebuild : Bool) : SameIndex b (b.roomFor rebuild) :=
  (sameIndex_rebuilt b rebuild).trans (sameIndex_makeBookRoom _ rebuild)

/-! ## A book that fits the resident tier -/

/-- There is room for every row of the book among the resident ones. -/
def Fits (b : BookSpill) : Prop :=
  b.live.length + (b.rows.filter (·.2.alive)).length ≤ b.bookMax

theorem filter_alive_put {rows : List (ℕ × BookSlot)} {p : ℕ} {slot : BookSlot}
    (hsorted : Assoc.Sorted rows) (hfind : Assoc.find p rows = some slot)
    (halive : slot.alive = true) :
    ((Assoc.put p { slot with alive := false } rows).filter (·.2.alive)).length + 1
      = (rows.filter (·.2.alive)).length := by
  induction rows with
  | nil => cases hfind
  | cons e rows ih =>
    obtain ⟨q, other⟩ := e
    rw [Assoc.find_cons] at hfind
    unfold Assoc.put
    split at hfind
    · rename_i hq
      rw [if_neg (by omega), if_pos hq, Option.some.inj hfind, List.filter_cons_of_neg (by simp),
        List.filter_cons_of_pos (by simpa using halive), List.length_cons]
    · rename_i hq
      have hlt := (List.pairwise_cons.mp hsorted).1 _ (Assoc.mem_of_find hfind)
      rw [if_neg (not_lt.mpr hlt.le), if_neg hq]
      have hrest := ih hsorted.tail hfind
      cases hother : other.alive with
      | true =>
        rw [List.filter_cons_of_pos (by simpa using hother),
          List.filter_cons_of_pos (by simpa using hother), List.length_cons,
            List.length_cons, hrest]
      | false =>
        rw [List.filter_cons_of_neg (by simpa using hother),
          List.filter_cons_of_neg (by simpa using hother), hrest]

theorem fastPathOk_of {b b' : BookSpill} {context : EvaluationContext}
    (h : b.fastPathOk context = true) (hpoison : b'.poison = b.poison)
    (hindex : b'.hasIndex = b.hasIndex) (hactive : b'.activeSpilled = b.activeSpilled)
    (hlengths : b'.resident.length = b'.live.length) (hfailure : b'.failure = b.failure)
    (hguards : ∀ cls, (b'.reg cls).guarded = (b.reg cls).guarded ∧
      (b'.reg cls).maxAcceptance = (b.reg cls).maxAcceptance ∧
      (b'.reg cls).maxFloor = (b.reg cls).maxFloor) : b'.fastPathOk context = true := by
  have hclass : b'.classGuardsOk context = b.classGuardsOk context := by
    unfold BookSpill.classGuardsOk
    congr 1
    funext cls
    obtain ⟨hguarded, hacceptance, hfloor⟩ := hguards cls
    rw [hguarded, hacceptance, hfloor]
  unfold BookSpill.fastPathOk at h ⊢
  rw [hpoison, hindex, hactive, hfailure, hclass]
  simp only [Bool.and_eq_true] at h ⊢
  exact ⟨⟨⟨h.1.1.1, decide_eq_true hlengths⟩, h.1.2⟩, h.2⟩

theorem roomFor_of_fits {b : BookSpill} (hfits : Fits b) {p : ℕ} {slot : BookSlot}
    (hfind : Assoc.find p b.rows = some slot) (halive : slot.alive = true) (rebuild : Bool) :
    b.roomFor rebuild = if rebuild then b.compact else b := by
  have hmem : (p, slot) ∈ b.rows.filter (·.2.alive) :=
    List.mem_filter.mpr ⟨Assoc.mem_of_find hfind, halive⟩
  have hpos := List.length_pos_of_mem hmem
  unfold Fits at hfits
  unfold BookSpill.roomFor BookSpill.makeBookRoom
  rw [if_pos]
  split
  · show b.live.length < b.bookMax
    omega
  · omega

theorem rebuilt_fits {b : BookSpill} {context : EvaluationContext}
    (hfast : b.fastPathOk context = true) (hfits : Fits b) (rebuild : Bool) :
    (if rebuild then b.compact else b).fastPathOk context = true ∧
      Fits (if rebuild then b.compact else b) := by
  split
  · refine ⟨hfast, ?_⟩
    unfold Fits BookSpill.compact
    rw [List.filter_filter]
    simp only [Bool.and_self]
    exact hfits
  · exact ⟨hfast, hfits⟩

/-- A promoted row keeps the fast path. -/
theorem promoted_fits {b : BookSpill} {context : EvaluationContext} (h : Shelved b)
    (hfast : b.fastPathOk context = true) (hfits : Fits b) {p : ℕ} {slot : BookSlot}
    (hfind : Assoc.find p b.rows = some slot) (halive : slot.alive = true) {cls : RowClass}
    (hcls : slot.dormancy = some cls) {row : LiveRequest Float} {levelIndex : List (Bytes × ℕ)}
    (herase : (b.moveIn p slot row).eraseIndex row = { b.moveIn p slot row with levelIndex }) :
    ((b.moveIn p slot row).promoted slot row (BookSpill.rowPlace p b.live)).fastPathOk context
    = true ∧
      Fits ((b.moveIn p slot row).promoted slot row (BookSpill.rowPlace p b.live)) := by
  have hlive : (BookSpill.insertRow row b.live).length = b.live.length + 1 :=
    (insertRow_perm row b.live).length_eq
  have hplace : BookSpill.rowPlace p b.live ≤ b.resident.length :=
    h.lengths ▸ (List.takeWhile_sublist _).length_le
  have hcount := filter_alive_put h.sorted hfind halive
  unfold BookSpill.promoted
  rw [hcls]
  dsimp only
  rw [herase]
  constructor
  · refine fastPathOk_of hfast rfl rfl rfl ?_ rfl ?_
    · show (b.resident.insertIdx _ _).length = (BookSpill.insertRow row b.live).length
      rw [hlive, List.length_insertIdx, if_pos hplace, h.lengths]
    · intro cls'
      show (Function.update b.reg cls _ cls').guarded = _ ∧
        (Function.update b.reg cls _ cls').maxAcceptance = _ ∧
        (Function.update b.reg cls _ cls').maxFloor = _
      by_cases heq : cls' = cls
      · subst heq
        rw [Function.update_self]
        exact ⟨rfl, rfl, rfl⟩
      · rw [Function.update_of_ne heq]
        exact ⟨rfl, rfl, rfl⟩
  · unfold Fits at hfits ⊢
    show (BookSpill.insertRow row b.live).length +
      ((Assoc.put p { slot with alive := false } b.rows).filter (·.2.alive)).length ≤ b.bookMax
    omega

/-! ## One row -/

section

variable {b b' : BookSpill}

theorem Indexed.wakeResident (h : Indexed b) (hpoison : b.poison = false)
    (hindex : b.hasIndex = true) {index : ℕ} {row : LiveRequest Float} {m : ResidentMeta}
    (hrow : b.live[index]? = some row) (hm : b.resident[index]? = some m)
    (hdormant : m.dormant = true)
    {spec : DormantSpec} (hspec : dormantClass row = some spec) :
    Woke b (b.wakeResident index) row row ∧
      (b.wakeResident index).levelIndex
        = Assoc.erase (levelKey spec row.priority) b.levelIndex ∧
      ∀ context, b.fastPathOk context = true → Fits b →
        (b.wakeResident index).fastPathOk context = true ∧ Fits (b.wakeResident index) := by
  have hfind := (h.entries _ _).mpr
    ⟨row, spec, Or.inl ⟨m, ⟨index, hrow, hm⟩, hdormant⟩, hspec, rfl, rfl⟩
  have herase := eraseIndex_found hpoison hindex hspec h.indexSorted hfind
  unfold BookSpill.wakeResident
  rw [hrow, hm]
  dsimp only
  rw [if_pos hdormant, herase]
  refine ⟨h.woke_resident hrow hm hdormant rfl rfl rfl, rfl, fun context hfast hfits => ⟨?_, hfits⟩⟩
  refine fastPathOk_of hfast rfl rfl rfl ?_ rfl fun _ => ⟨rfl, rfl, rfl⟩
  exact List.length_set.trans h.lengths.symm

theorem Indexed.spilledAt (h : Indexed b) {p : ℕ} {slot : BookSlot}
    (hfind : Assoc.find p b.rows = some slot) (halive : slot.alive = true) :
    b.spilledAt slot.row.handle.incarnation = some (p, slot) := by
  unfold BookSpill.spilledAt
  cases hfound : b.rows.find? fun e => e.2.alive &&
      e.2.row.handle.incarnation = slot.row.handle.incarnation with
  | none =>
    have := List.find?_eq_none.mp hfound (p, slot) (Assoc.mem_of_find hfind)
    simp [halive] at this
  | some e =>
    obtain ⟨p', slot'⟩ := e
    have hmem := Assoc.find_of_mem h.sorted.nodup (List.mem_of_find?_eq_some hfound)
    have hcheck := List.find?_some hfound
    simp only [Bool.and_eq_true, decide_eq_true_eq] at hcheck
    have hpriority := h.handles _ _ _ _ (Or.inr ⟨p', slot', hmem, hcheck.1, rfl, rfl⟩)
      (Or.inr ⟨p, slot, hfind, halive, rfl, rfl⟩) hcheck.2
    rw [h.keyed p' slot' hmem hcheck.1, h.keyed p slot hfind halive] at hpriority
    subst hpriority
    dsimp only at hmem
    rw [hfind, Option.some.injEq] at hmem
    rw [hmem]

/-- A sleeping row that was spilled wakes as it is promoted, and leaves the index. -/
theorem Indexed.promote (h : Indexed b) (hpoison : b.poison = false) (hindex : b.hasIndex = true)
    {p : ℕ} {slot : BookSlot} (hfind : Assoc.find p b.rows = some slot) (halive : slot.alive = true)
    (hasleep : slot.dormancy.isSome = true) {spec : DormantSpec}
    (hspec : dormantClass slot.row = some spec) (rebuild : Bool) :
    ∃ b' row', b.promote slot.row.handle.incarnation rebuild = some b' ∧ Woke b b' slot.row row' ∧
      b'.levelIndex = Assoc.erase (levelKey spec slot.row.priority) b.levelIndex ∧
      ∀ context, b.fastPathOk context = true → Fits b → b'.fastPathOk context = true ∧ Fits b' := by
  have hspilled := h.spilledAt hfind halive
  have hroom : Assoc.find p (b.roomFor rebuild).rows = some slot :=
    (h.rebuilt rebuild).find_makeBookRoom rebuild (h.find_rebuilt rebuild hfind halive) halive
  have hsame := sameIndex_roomFor b rebuild
  have hstands := h.stands_roomFor rebuild
  have hentry := (h.entries _ _).mpr
    ⟨slot.row, spec, Or.inr ⟨p, slot, hfind, halive, rfl, hasleep⟩, hspec, rfl, rfl⟩
  have hshelved := h.roomFor rebuild
  have hpromote : b.promote slot.row.handle.incarnation rebuild
      = some ((((b.roomFor rebuild).moveIn p slot ((b.roomFor rebuild).project slot)).promoted slot
        ((b.roomFor rebuild).project slot)
        (BookSpill.rowPlace p (b.roomFor rebuild).live)).bumpEpoch) := by
    unfold BookSpill.promote
    rw [hspilled]
    dsimp only
    rw [hroom]
  have hrebuilt := fun hfits : Fits b => roomFor_of_fits hfits hfind halive rebuild
  generalize b.roomFor rebuild = room at *
  obtain ⟨cls, hcls⟩ := Option.isSome_iff_exists.mp hasleep
  obtain ⟨allowance, hproject⟩ := project_eq room slot
  obtain ⟨epoch, hbump⟩ := bumpEpoch_eq ((room.moveIn p slot (room.project slot)).promoted slot
    (room.project slot) (BookSpill.rowPlace p room.live))
  have herase := @eraseIndex_found (room.moveIn p slot (room.project slot)) (room.project slot) spec
    (hsame.poison.trans hpoison) (hsame.hasIndex.trans hindex) (dormantClass_project hspec)
    (hsame.levelIndex ▸ h.indexSorted) (by
      rw [hproject]
      exact hsame.levelIndex ▸ hentry)
  refine ⟨_, room.project slot, hpromote, ?_, ?_, ?_⟩
  · obtain ⟨hlive, hresident, hrows⟩ := promoted_rows (room.moveIn p slot (room.project slot)) slot
      (room.project slot) (BookSpill.rowPlace p room.live)
    rw [hbump]
    have hwoke := hshelved.woke_moved hroom halive hasleep
      (show (room.project slot).definition = _ by rw [hproject]) hlive hresident hrows
    refine ⟨(hstands true slot.row).mp hwoke.asleep, hwoke.definition, fun asleep other => ?_⟩
    rw [← hstands asleep other]
    exact hwoke.stands asleep other
  · rw [(sameIndex_bumpEpoch _).levelIndex]
    unfold BookSpill.promoted
    rw [hcls]
    dsimp only
    rw [herase, ← hsame.levelIndex, hproject]
    rfl
  · intro context hfast hfits
    obtain ⟨hfastRoom, hfitsRoom⟩ := rebuilt_fits hfast hfits rebuild
    rw [← hrebuilt hfits] at hfastRoom hfitsRoom
    rw [hbump]
    exact promoted_fits hshelved hfastRoom hfitsRoom hroom halive hcls herase

theorem fastPathOk_index {context : EvaluationContext} (h : b.fastPathOk context = true) :
    b.poison = false ∧ b.hasIndex = true := by
  unfold BookSpill.fastPathOk at h
  simp only [Bool.and_eq_true, Bool.not_eq_true'] at h
  exact ⟨h.1.1.1.1.1, h.1.1.1.1.2⟩

variable {context : EvaluationContext} {tag : Fin 256} {lo hi delta : Float} {rebuild : Bool}

theorem reachable_key {spec : DormantSpec} {row : LiveRequest Float}
    (hspec : dormantClass row = some spec) (priority : ℕ) :
    dormantReachable ((keyTag (levelKey spec priority)).val % 2 = 0)
        (keyLevel (levelKey spec priority)) lo hi delta
      = dormantReachable spec.ge spec.level lo hi delta := by
  have hfinite := dormantClass_level hspec
  rw [keyLevel_levelKey (isNaN_of_isFinite hfinite), reachable_unsignedZero hfinite,
    keyTag_levelKey,
    show decide ((listTag spec.cls spec.ge).val % 2 = 0) = spec.ge by
      rw [Bool.eq_iff_iff, decide_eq_true_eq]
      exact listTag_even spec.cls spec.ge]

theorem Shelved.findIdx_live (h : Shelved b) {index : ℕ} {row : LiveRequest Float}
    (hrow : b.live[index]? = some row) :
    b.live.findIdx? (·.priority = row.priority) = some index := by
  cases hfound : b.live.findIdx? (·.priority = row.priority) with
  | none =>
    have := List.findIdx?_eq_none_iff.mp hfound row (List.mem_of_getElem? hrow)
    simp at this
  | some j =>
    obtain ⟨hlt, hj, -⟩ := List.findIdx?_eq_some_iff_getElem.mp hfound
    rw [decide_eq_true_eq] at hj
    rw [Aligned.eq_of_get? h.distinct (List.getElem?_eq_getElem hlt) hrow hj]

/-- A wake takes a reachable row of its list. -/
theorem Indexed.wakeNext_some (h : Indexed b)
    (hnext : b.wakeNext context tag lo hi delta rebuild = some b') :
    b.fastPathOk context = true ∧ Indexed b' ∧ ∃ row row' spec, Woke b b' row row' ∧
      dormantClass row = some spec ∧ listTag spec.cls spec.ge = tag ∧
      dormantReachable spec.ge spec.level lo hi delta = true ∧
      b'.levelIndex = Assoc.erase (levelKey spec row.priority) b.levelIndex ∧
      (Fits b → b'.fastPathOk context = true ∧ Fits b') := by
  unfold BookSpill.wakeNext at hnext
  split at hnext
  · cases hnext
  rename_i hfast
  rw [Bool.not_eq_true', Bool.not_eq_false] at hfast
  obtain ⟨hpoison, hindex⟩ := fastPathOk_index hfast
  refine ⟨hfast, ?_⟩
  split at hnext
  · cases hnext
  rename_i key incarnation hfirst
  split at hnext
  · cases hnext
  rename_i htag
  rw [not_not] at htag
  split at hnext
  · cases hnext
  rename_i hreach
  rw [Bool.not_eq_true', Bool.not_eq_false, ← htag] at hreach
  have hentry := Assoc.find_of_mem h.indexSorted.nodup (List.mem_of_find?_eq_some hfirst)
  obtain ⟨row, spec, hrow, hspec, rfl, rfl⟩ := (h.entries _ _).mp hentry
  rw [reachable_key hspec] at hreach
  rw [keyPriority_levelKey (h.words _ _ hrow)] at hnext
  have hwakes : ∃ row', Woke b b' row row' ∧ Shelved b' ∧
      b'.levelIndex = Assoc.erase (levelKey spec row.priority) b.levelIndex ∧
      (Fits b → b'.fastPathOk context = true ∧ Fits b') := by
    rcases hrow with ⟨m, ⟨index, hlive, hm⟩, hdormant⟩ | ⟨p, slot, hfind, halive, rfl, hasleep⟩
    · rw [h.findIdx_live hlive] at hnext
      dsimp only at hnext
      rw [hlive, hm] at hnext
      dsimp only at hnext
      rw [if_neg (by rw [hdormant]; simp), Option.some.injEq] at hnext
      subst hnext
      obtain ⟨hwoke, hlevels, hfits⟩ := h.wakeResident hpoison hindex hlive hm hdormant hspec
      exact ⟨row, hwoke, h.toShelved.wakeResident index, hlevels, hfits context hfast⟩
    · have hnone : b.live.findIdx? (·.priority = slot.row.priority) = none := by
        rw [List.findIdx?_eq_none_iff]
        intro other hother
        rw [decide_eq_false_iff_not, h.keyed p slot hfind halive]
        exact (h.find_ne hother hfind halive).symm
      obtain ⟨promoted, row', hpromote, hwoke, hlevels, hfits⟩ :=
        h.promote hpoison hindex hfind halive hasleep hspec rebuild
      rw [hnone] at hnext
      dsimp only at hnext
      rw [hpromote, Option.some.injEq] at hnext
      subst hnext
      exact ⟨row', hwoke, h.toShelved.promote hpromote, hlevels, hfits context hfast⟩
  obtain ⟨row', hwoke, hshelved, hlevels, hfits⟩ := hwakes
  exact ⟨h.woke hshelved hwoke hspec hlevels, row, row', spec, hwoke, hspec, htag, hreach, hlevels,
    hfits⟩

/-- No wake: no row of the list is reachable. -/
theorem Indexed.wakeNext_none (h : Indexed b)
    (hnext : b.wakeNext context tag lo hi delta rebuild = none)
    (hfast : b.fastPathOk context = true) {row : LiveRequest Float} {spec : DormantSpec}
    (hrow : Stands b true row) (hspec : dormantClass row = some spec)
    (htag : listTag spec.cls spec.ge = tag) :
    dormantReachable spec.ge spec.level lo hi delta = false := by
  have hentry := (h.entries _ _).mpr ⟨row, spec, hrow, hspec, rfl, rfl⟩
  have hmem := Assoc.mem_of_find hentry
  have hafter : [tag] ≤ levelKey spec row.priority := htag ▸ tag_le_levelKey spec row.priority
  unfold BookSpill.wakeNext at hnext
  rw [hfast] at hnext
  rw [if_neg (by simp)] at hnext
  split at hnext
  · rename_i hfirst
    have := List.find?_eq_none.mp hfirst _ hmem
    exact absurd (decide_eq_true hafter) this
  rename_i key incarnation hfirst
  have hle := lowerBound_le h.indexSorted hfirst hmem hafter
  have hge := List.find?_some hfirst
  split at hnext
  · rename_i hne
    exact absurd (keyTag_of_between (of_decide_eq_true hge) hle htag) hne
  rename_i hsame
  rw [not_not] at hsame
  split at hnext
  · rename_i hreach
    rw [Bool.not_eq_true', ← hsame] at hreach
    have hfirstEntry := Assoc.find_of_mem h.indexSorted.nodup (List.mem_of_find?_eq_some hfirst)
    obtain ⟨first, firstSpec, hfirstRow, hfirstSpec, hkey, -⟩ := (h.entries _ _).mp hfirstEntry
    dsimp only at hkey
    subst hkey
    rw [reachable_key hfirstSpec] at hreach
    by_contra hdue
    rw [Bool.not_eq_false] at hdue
    rw [reachable_of_levelKey_le (hsame.trans htag.symm) (dormantClass_level hfirstSpec)
      (dormantClass_level hspec) hle hdue] at hreach
    cases hreach
  · split at hnext
    · split at hnext
      · split at hnext <;> cases hnext
      · cases hnext
    · split at hnext <;> cases hnext

end

/-! ## Whole scans -/

/-- What a scan did: it woke rows that were due and nothing else. -/
structure Roused (context : EvaluationContext) (lo hi delta : Float) (b b' : BookSpill) :
    Prop where
  indexed : Indexed b'
  asleep : ∀ row, Stands b' true row → Stands b true row
  due : ∀ row spec, Stands b true row → dormantClass row = some spec →
    Stands b' true row ∨ Due context lo hi delta spec
  woken : ∀ row, Stands b true row →
    Stands b' true row ∨ ∃ row', Stands b' false row' ∧ row'.definition = row.definition
  awake : ∀ row, Stands b false row → Stands b' false row

section

variable {context : EvaluationContext} {lo hi delta : Float} {b b' b'' : BookSpill}

theorem Roused.refl (h : Indexed b) : Roused context lo hi delta b b :=
  ⟨h, fun _ => id, fun _ _ hrow _ => Or.inl hrow, fun _ hrow => Or.inl hrow, fun _ => id⟩

theorem Roused.trans (h : Roused context lo hi delta b b')
    (h' : Roused context lo hi delta b' b'') :
    Roused context lo hi delta b b'' := by
  refine ⟨h'.indexed, fun row hrow => h.asleep row (h'.asleep row hrow), ?_, ?_,
    fun row hrow => h'.awake row (h.awake row hrow)⟩
  · intro row spec hrow hspec
    rcases h.due row spec hrow hspec with hstill | hdue
    · exact h'.due row spec hstill hspec
    · exact Or.inr hdue
  · intro row hrow
    rcases h.woken row hrow with hstill | ⟨row', hawake, hdefinition⟩
    · exact h'.woken row hstill
    · exact Or.inr ⟨row', h'.awake row' hawake, hdefinition⟩

theorem Indexed.roused (h : Indexed b) (h' : Indexed b') {row row' : LiveRequest Float}
    {spec : DormantSpec} (hwoke : Woke b b' row row') (hspec : dormantClass row = some spec)
    (hdue : Due context lo hi delta spec) : Roused context lo hi delta b b' := by
  have hwakes : ∀ other, Stands b true other → Stands b' true other ∨ other = row := by
    intro other hother
    by_cases hpriority : other.priority = row.priority
    · exact Or.inr (h.stands_unique hother hwoke.asleep hpriority).1
    · exact Or.inl ((hwoke.stands true other).mpr (Or.inl ⟨hother, hpriority⟩))
  refine ⟨h', ?_, ?_, ?_, ?_⟩
  · intro other hother
    rcases (hwoke.stands true other).mp hother with ⟨hold, -⟩ | ⟨hfalse, -⟩
    · exact hold
    · cases hfalse
  · intro other spec' hother hspec'
    rcases hwakes other hother with hstill | rfl
    · exact Or.inl hstill
    · rw [hspec, Option.some.injEq] at hspec'
      exact Or.inr (hspec' ▸ hdue)
  · intro other hother
    rcases hwakes other hother with hstill | rfl
    · exact Or.inl hstill
    · exact Or.inr ⟨row', (hwoke.stands false row').mpr (Or.inr ⟨rfl, rfl⟩), hwoke.definition⟩
  · intro other hother
    refine (hwoke.stands false other).mpr (Or.inl ⟨hother, fun hpriority => ?_⟩)
    have := (h.stands_unique hother hwoke.asleep hpriority).2
    cases this

theorem wakeList_closed {tag : Fin 256} {rebuild : ℕ → Bool}
    (hclosed : b.fastPathOk context = false)
    (n : ℕ) : BookSpill.wakeList context tag lo hi delta rebuild n b = b := by
  cases n with
  | zero => rfl
  | succ n =>
    have hnext : b.wakeNext context tag lo hi delta (rebuild n) = none := by
      unfold BookSpill.wakeNext
      rw [hclosed]
      rfl
    unfold BookSpill.wakeList
    rw [hnext]

/-- The scan of a list: as many turns as it has entries, and one that finds nothing. -/
theorem Indexed.wakeList (h : Indexed b) {cls : RowClass} {ge : Bool}
    (hpermitted : classPermitted context cls = true) (rebuild : ℕ → Bool) {n : ℕ}
    (hn : b.levelIndex.length < n) :
    Roused context lo hi delta b
        (BookSpill.wakeList context (listTag cls ge) lo hi delta rebuild n b) ∧
      ((BookSpill.wakeList context (listTag cls ge) lo hi delta rebuild n b).fastPathOk context
        = true →
        ∀ row spec, Stands (BookSpill.wakeList context (listTag cls ge) lo hi delta rebuild n b)
          true row → dormantClass row = some spec → listTag spec.cls spec.ge = listTag cls ge →
          ¬Due context lo hi delta spec) := by
  induction n generalizing b with
  | zero => exact absurd hn (Nat.not_lt_zero _)
  | succ n ih =>
    unfold BookSpill.wakeList
    cases hnext : b.wakeNext context (listTag cls ge) lo hi delta (rebuild n) with
    | none =>
      refine ⟨Roused.refl h, fun hfast row spec hrow hspec htag hdue => ?_⟩
      have hreach := h.wakeNext_none hnext hfast hrow hspec htag
      rw [hdue.2] at hreach
      cases hreach
    | some next =>
      obtain ⟨-, hindexed, row, row', spec, hwoke, hspec, htag, hreach, hlevels, -⟩ :=
        h.wakeNext_some hnext
      have hshorter : next.levelIndex.length < b.levelIndex.length := by
        rw [hlevels]
        refine List.length_filter_lt_length_iff_exists.mpr ⟨_, Assoc.mem_of_find
          ((h.entries _ _).mpr ⟨row, spec, hwoke.asleep, hspec, rfl, rfl⟩), ?_⟩
        simp
      have hdue : Due context lo hi delta spec :=
        ⟨(listTag_injective htag).1 ▸ hpermitted, hreach⟩
      obtain ⟨hroused, hdone⟩ := ih hindexed (by omega)
      exact ⟨(h.roused hindexed hwoke hspec hdue).trans hroused, hdone⟩

/-- The scan of some of the lists. -/
def wakeSome (context : EvaluationContext) (lo hi delta : Float) (rebuild : ℕ → Bool)
    (b : BookSpill) (list : RowClass × Bool) : BookSpill :=
  if classPermitted context list.1 then
    BookSpill.wakeList context (listTag list.1 list.2) lo hi delta rebuild
      (b.levelIndex.length + 1) b
  else b

theorem wakeSome_closed {rebuild : ℕ → Bool} (hclosed : b.fastPathOk context = false)
    (lists : List (RowClass × Bool)) :
    lists.foldl (wakeSome context lo hi delta rebuild) b = b := by
  induction lists with
  | nil => rfl
  | cons list lists ih =>
    rw [List.foldl_cons]
    have : wakeSome context lo hi delta rebuild b list = b := by
      unfold wakeSome
      split
      · exact wakeList_closed hclosed _
      · rfl
    rw [this]
    exact ih

/-- The lists are emptied one by one. -/
theorem Indexed.wakeSome (h : Indexed b) (rebuild : ℕ → Bool) (lists : List (RowClass × Bool)) :
    Roused context lo hi delta b (lists.foldl (Book.wakeSome context lo hi delta rebuild) b) ∧
      ((lists.foldl (Book.wakeSome context lo hi delta rebuild) b).fastPathOk context = true →
        ∀ row spec, Stands (lists.foldl (Book.wakeSome context lo hi delta rebuild) b) true row →
          dormantClass row = some spec → (spec.cls, spec.ge) ∈ lists →
          ¬Due context lo hi delta spec) := by
  induction lists generalizing b with
  | nil => exact ⟨Roused.refl h, fun _ _ _ _ _ hmem => nomatch hmem⟩
  | cons list lists ih =>
    rw [List.foldl_cons]
    have hfirst : Roused context lo hi delta b (Book.wakeSome context lo hi delta rebuild b list) ∧
        ((Book.wakeSome context lo hi delta rebuild b list).fastPathOk context = true →
          ∀ row spec, Stands (Book.wakeSome context lo hi delta rebuild b list) true row →
            dormantClass row = some spec → (spec.cls, spec.ge) = list →
            ¬Due context lo hi delta spec) := by
      unfold Book.wakeSome
      split
      · rename_i hpermitted
        obtain ⟨hroused, hdone⟩ := h.wakeList hpermitted rebuild (Nat.lt_succ_self _)
        exact ⟨hroused, fun hfast row spec hrow hspec hlist =>
          hdone hfast row spec hrow hspec (by rw [← hlist])⟩
      · rename_i hforbidden
        refine ⟨Roused.refl h, fun _ row spec _ _ hlist hdue => hforbidden ?_⟩
        rw [← hlist]
        exact hdue.1
    obtain ⟨hroused, hdone⟩ := hfirst
    obtain ⟨hrest, hrestDone⟩ := ih hroused.indexed
    refine ⟨hroused.trans hrest, fun hfast row spec hrow hspec hmem => ?_⟩
    rcases List.mem_cons.mp hmem with hlist | hmem
    · refine hdone ?_ row spec (hrest.asleep row hrow) hspec hlist
      -- a scan that the fast path had closed would have left the book as it was
      by_contra hclosed
      rw [wakeSome_closed (eq_false_of_ne_true hclosed)] at hfast
      exact hclosed hfast
    · exact hrestDone hfast row spec hrow hspec hmem

theorem Indexed.wakeList_fits (h : Indexed b) (hfast : b.fastPathOk context = true) (hfits : Fits b)
    (tag : Fin 256) (rebuild : ℕ → Bool) (n : ℕ) :
    (BookSpill.wakeList context tag lo hi delta rebuild n b).fastPathOk context = true ∧
      Fits (BookSpill.wakeList context tag lo hi delta rebuild n b) := by
  induction n generalizing b with
  | zero => exact ⟨hfast, hfits⟩
  | succ n ih =>
    unfold BookSpill.wakeList
    split
    · exact ⟨hfast, hfits⟩
    · rename_i next hnext
      obtain ⟨-, hindexed, _, _, _, -, -, -, -, -, hkeeps⟩ := h.wakeNext_some hnext
      exact ih hindexed (hkeeps hfits).1 (hkeeps hfits).2

theorem Indexed.wakeSome_fits (h : Indexed b) (hfast : b.fastPathOk context = true) (hfits : Fits b)
    (rebuild : ℕ → Bool) (lists : List (RowClass × Bool)) :
    (lists.foldl (Book.wakeSome context lo hi delta rebuild) b).fastPathOk context = true := by
  induction lists generalizing b with
  | nil => exact hfast
  | cons list lists ih =>
    rw [List.foldl_cons]
    unfold Book.wakeSome
    split
    · rename_i hpermitted
      obtain ⟨hnextFast, hnextFits⟩ := @Indexed.wakeList_fits context lo hi delta b h hfast hfits
        (listTag list.1 list.2) rebuild (b.levelIndex.length + 1)
      exact ih (h.wakeList hpermitted rebuild (Nat.lt_succ_self _)).1.indexed hnextFast hnextFits
    · exact ih h hfast hfits

theorem Indexed.wakeByPrice (h : Indexed b) (context : EvaluationContext) (lo hi delta : Float)
    (rebuild : ℕ → Bool) :
    Roused context lo hi delta b (b.wakeByPrice context lo hi delta rebuild) ∧
      ((b.wakeByPrice context lo hi delta rebuild).fastPathOk context = true →
        ∀ row spec, Stands (b.wakeByPrice context lo hi delta rebuild) true row →
          dormantClass row = some spec → ¬Due context lo hi delta spec) := by
  obtain ⟨hroused, hdone⟩ := @Indexed.wakeSome context lo hi delta b h rebuild BookSpill.wakeLists
  refine ⟨hroused, fun hfast row spec hrow hspec => hdone hfast row spec hrow hspec ?_⟩
  cases spec.cls <;> cases spec.ge <;> decide

/-- A scan wakes only rows that are due, and leaves the others asleep and in the index; if the fast
path is still open at its end, no row that is due is left asleep. The fast path stays open where the
whole book fits the resident tier. -/
theorem wakeByPrice_exact (h : Indexed b) (context : EvaluationContext) (lo hi delta : Float)
    (rebuild : ℕ → Bool) :
    Roused context lo hi delta b (b.wakeByPrice context lo hi delta rebuild) ∧
      (∀ key incarnation,
        Assoc.find key (b.wakeByPrice context lo hi delta rebuild).levelIndex = some incarnation →
        Assoc.find key b.levelIndex = some incarnation) ∧
      ((b.wakeByPrice context lo hi delta rebuild).fastPathOk context = true →
        ∀ row spec, Stands b true row → dormantClass row = some spec →
          (Stands (b.wakeByPrice context lo hi delta rebuild) true row ↔
            ¬Due context lo hi delta spec)) ∧
      (b.fastPathOk context = true → Fits b →
        (b.wakeByPrice context lo hi delta rebuild).fastPathOk context = true) := by
  obtain ⟨hroused, hdone⟩ := h.wakeByPrice context lo hi delta rebuild
  refine ⟨hroused, ?_, ?_, ?_⟩
  · intro key incarnation hfind
    obtain ⟨row, spec, hrow, hspec, hkey, hincarnation⟩ :=
      (hroused.indexed.entries key incarnation).mp hfind
    exact (h.entries key incarnation).mpr
      ⟨row, spec, hroused.asleep row hrow, hspec, hkey, hincarnation⟩
  · intro hfast row spec hrow hspec
    constructor
    · exact fun hstill => hdone hfast row spec hstill hspec
    · exact (hroused.due row spec hrow hspec).resolve_right
  · intro hfast hfits
    exact h.wakeSome_fits hfast hfits rebuild BookSpill.wakeLists

end

/-! ## Sleepers in the table -/

/-- A buy limit at 90. -/
def limitSpec : DormantSpec := ⟨90.0, 1.0, .limit, true⟩

theorem dormantClass_limitRow (incarnation : ℕ) :
    dormantClass (limitRow incarnation 5) = some limitSpec := by
  have hunit : ((1.0 : Float).isFinite && decide ((0.0 : Float) < 1.0)) = true := by decide +kernel
  have hshape : dormantShape (limitRow incarnation 5) = true := by
    unfold dormantShape
    simp [limitRow, hunit, LiveRequest.request, allowanceInitial]
  have hbuy : workingIsBuy (limitRow incarnation 5) none = true := by
    show decide ((0 : Float) < 1.0) = true
    decide +kernel
  have hfinite : (90.0 : Float).isFinite = true := by decide +kernel
  unfold dormantClass
  rw [if_pos hshape, hbuy]
  show (if (90.0 : Float).isFinite then _ else _) = _
  rw [if_pos hfinite]
  rfl

theorem priority_limitRow (incarnation : ℕ) : (limitRow incarnation 5).priority = incarnation := rfl

/-- Active rows in the resident tier, and two that sleep in the table. -/
def restingBook (bookMax n : ℕ) : BookSpill where
  bookMax := bookMax
  live := (List.range n).map fun i => limitRow (i + 1) 5
  resident := (List.range n).map fun i => activeMeta (i + 1)
  rows := [(n + 1, ⟨limitRow (n + 1) 5, true, 0, some .limit⟩),
    (n + 2, ⟨limitRow (n + 2) 5, true, 0, some .limit⟩)]
  levelIndex := [(levelKey limitSpec (n + 1), n + 1), (levelKey limitSpec (n + 2), n + 2)]
  hasIndex := true
  middleSpill := true

section

variable {bookMax n : ℕ}

theorem find_restingBook {p : ℕ} {slot : BookSlot}
    (h : Assoc.find p (restingBook bookMax n).rows = some slot) :
    slot = ⟨limitRow p 5, true, 0, some .limit⟩ ∧ (p = n + 1 ∨ p = n + 2) := by
  unfold restingBook at h
  dsimp only at h
  rw [Assoc.find_cons, Assoc.find_cons] at h
  split at h
  · rename_i hp
    subst hp
    exact ⟨(Option.some.inj h).symm, Or.inl rfl⟩
  · split at h
    · rename_i hp
      subst hp
      exact ⟨(Option.some.inj h).symm, Or.inr rfl⟩
    · cases h

theorem stands_restingBook {asleep : Bool} {row : LiveRequest Float}
    (h : Stands (restingBook bookMax n) asleep row) : ∃ p, row = limitRow p 5 ∧ p ≤ n + 2 ∧
      (asleep = true ↔ p = n + 1 ∨ p = n + 2) := by
  rcases h with ⟨m, ⟨i, hi, hm⟩, hasleep⟩ | ⟨p, slot, hfind, -, hrow, hasleep⟩
  · unfold restingBook at hi hm
    dsimp only at hi hm
    rw [List.getElem?_map] at hi hm
    obtain ⟨j, hj, rfl⟩ := Option.map_eq_some_iff.mp hi
    rw [hj, Option.map_some, Option.some.injEq] at hm
    have hlt : j < n := List.mem_range.mp (List.mem_of_getElem? hj)
    refine ⟨j + 1, rfl, by omega, iff_of_false ?_ (by omega)⟩
    rw [← hasleep, ← hm]
    exact Bool.false_ne_true
  · obtain ⟨rfl, hp⟩ := find_restingBook hfind
    exact ⟨p, hrow.symm, by omega, iff_of_true hasleep.symm hp⟩

theorem shelved_restingBook (bookMax n : ℕ) : Shelved (restingBook bookMax n) where
  lengths := by
    show ((List.range n).map _).length = ((List.range n).map _).length
    rw [List.length_map, List.length_map]
  distinct := by
    show (((List.range n).map fun i => limitRow (i + 1) 5).map (·.priority)).Nodup
    rw [List.map_map]
    exact List.nodup_range.map fun i j h => Nat.succ.inj h
  sorted := List.pairwise_pair.mpr (Nat.lt_succ_self _)
  keyed p slot hfind _ := by
    rw [(find_restingBook hfind).1]
    rfl
  apart row hrow slot hfind := by
    obtain ⟨i, hi, rfl⟩ := List.mem_map.mp hrow
    have hlt := List.mem_range.mp hi
    have := (find_restingBook hfind).2
    rw [priority_limitRow] at this
    omega

theorem sleeps_restingBook {p : ℕ} (hp : p = n + 1 ∨ p = n + 2) :
    Stands (restingBook bookMax n) true (limitRow p 5) := by
  refine Or.inr ⟨p, ⟨limitRow p 5, true, 0, some .limit⟩, ?_, rfl, rfl, rfl⟩
  unfold restingBook
  dsimp only
  rw [Assoc.find_cons, Assoc.find_cons]
  rcases hp with rfl | rfl
  · rw [if_pos rfl]
  · rw [if_neg (by omega), if_pos rfl]

/-- The book at rest is indexed. -/
theorem indexed_restingBook (hn : n + 2 < 2 ^ 64) : Indexed (restingBook bookMax n) := by
  have hkeys : levelKey limitSpec (n + 1) < levelKey limitSpec (n + 2) := by
    unfold levelKey
    rw [List.cons_append, List.cons_append, List.cons_lt_cons_iff]
    refine Or.inr ⟨rfl, (append_lt rfl).mpr (Or.inr ⟨rfl, ?_⟩)⟩
    exact (bytes_lt (by omega) (by omega)).mpr (Nat.lt_succ_self _)
  refine ⟨shelved_restingBook bookMax n, List.pairwise_pair.mpr hkeys, ?_, ?_, ?_, ?_⟩
  · intro key incarnation
    show Assoc.find key [(levelKey limitSpec (n + 1), n + 1), (levelKey limitSpec (n + 2), n + 2)]
      = some incarnation ↔ _
    rw [Assoc.find_cons, Assoc.find_cons, Assoc.find_nil]
    constructor
    · intro hfind
      split at hfind
      · rename_i hkey
        exact ⟨_, _, sleeps_restingBook (Or.inl rfl), dormantClass_limitRow _, hkey,
          (Option.some.inj hfind).symm⟩
      · split at hfind
        · rename_i hkey
          exact ⟨_, _, sleeps_restingBook (Or.inr rfl), dormantClass_limitRow _, hkey,
            (Option.some.inj hfind).symm⟩
        · cases hfind
    · rintro ⟨row, spec, hrow, hspec, rfl, rfl⟩
      obtain ⟨p, rfl, -, hp⟩ := stands_restingBook hrow
      rw [dormantClass_limitRow, Option.some.injEq] at hspec
      subst hspec
      rw [priority_limitRow]
      rcases hp.mp rfl with rfl | rfl
      · rw [if_pos rfl]
        rfl
      · rw [if_neg hkeys.ne', if_pos rfl]
        rfl
  · intro row hrow
    obtain ⟨p, rfl, -, -⟩ := stands_restingBook hrow
    exact ⟨_, dormantClass_limitRow p⟩
  · intro asleep row hrow
    obtain ⟨p, rfl, hp, -⟩ := stands_restingBook hrow
    rw [priority_limitRow]
    omega
  · intro asleep asleep' row row' hrow hrow' hincarnation
    obtain ⟨p, rfl, -, -⟩ := stands_restingBook hrow
    obtain ⟨p', rfl, -, -⟩ := stands_restingBook hrow'
    exact hincarnation

end

theorem limitSpec_due : Due (printContext 6) 80.0 81.0 0.0 limitSpec := by
  unfold Due
  decide +kernel

/-- The scan of a book that has room. -/
def roomyScan : BookSpill :=
  (restingBook 4096 1).wakeByPrice (printContext 6) 80.0 81.0 0.0 fun _ => false

/-- Where the book has room both rows wake. -/
theorem wakeByPrice_exact_resting : Indexed (restingBook 4096 1) ∧
    ¬Stands roomyScan true (limitRow 2 5) ∧ ¬Stands roomyScan true (limitRow 3 5) := by
  have hindexed : Indexed (restingBook 4096 1) := indexed_restingBook (by norm_num)
  obtain ⟨-, -, hexact, hfits⟩ :=
    wakeByPrice_exact hindexed (printContext 6) 80.0 81.0 0.0 fun _ => false
  have hopen := hfits (by decide +kernel) (by unfold Fits; decide +kernel)
  refine ⟨hindexed, fun hstill => ?_, fun hstill => ?_⟩
  · have hrow : Stands (restingBook 4096 1) true (limitRow 2 5) := sleeps_restingBook (Or.inl rfl)
    exact (hexact hopen _ _ hrow (dormantClass_limitRow 2)).mp hstill limitSpec_due
  · have hrow : Stands (restingBook 4096 1) true (limitRow 3 5) := sleeps_restingBook (Or.inr rfl)
    exact (hexact hopen _ _ hrow (dormantClass_limitRow 3)).mp hstill limitSpec_due

/-- The scan of a book whose resident tier is full of active rows. -/
def crowdedScan : BookSpill :=
  (restingBook 4096 4096).wakeByPrice (printContext 6) 80.0 81.0 0.0 fun _ => false

theorem crowdedScan_stops :
    (Assoc.find 4098 crowdedScan.rows).map (fun slot => (slot.alive, slot.dormancy.isSome))
      = some (true, true) := by
  decide +kernel

/-- With an exact index and an open fast path a scan may still leave a row asleep that is due: the
first promotion finds no room, spills an active row and ends the scan. -/
theorem wakeByPrice_leaves_due : Indexed (restingBook 4096 4096) ∧
    (restingBook 4096 4096).fastPathOk (printContext 6) = true ∧
    ¬∀ row spec, Stands (restingBook 4096 4096) true row → dormantClass row = some spec →
      Due (printContext 6) 80.0 81.0 0.0 spec → ¬Stands crowdedScan true row := by
  have hindexed : Indexed (restingBook 4096 4096) := indexed_restingBook (by norm_num)
  refine ⟨hindexed, by decide +kernel, fun hall => ?_⟩
  obtain ⟨slot, hfind, hslot⟩ := Option.map_eq_some_iff.mp crowdedScan_stops
  obtain ⟨halive, hasleep⟩ := Prod.mk.inj hslot
  have hstands : Stands crowdedScan true slot.row :=
    Or.inr ⟨4098, slot, hfind, halive, rfl, hasleep⟩
  have hbefore := (hindexed.wakeByPrice (printContext 6) 80.0 81.0 0.0 fun _ => false).1.asleep
    slot.row hstands
  obtain ⟨p, hrow, -, -⟩ := stands_restingBook hbefore
  exact hall slot.row limitSpec hbefore (hrow ▸ dormantClass_limitRow p) limitSpec_due hstands

end PineForge.Book
