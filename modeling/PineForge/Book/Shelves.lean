import PineForge.Book.Spill
import PineForge.Machine.Aligned

/-!
# Rows on their shelves

Every row of the book stands in one place: among the resident rows, or in the table under its
priority. `Shelved` says so, and `Stands` says of a row that the book holds it, asleep or not. Moves
between the tiers change neither; a wake changes one row, from asleep to awake.
-/

namespace PineForge.Book

open Orders BigEndian FloatOrder

/-! ## What the index and the counters leave alone -/

theorem eraseIndex_eq (b : BookSpill) (row : LiveRequest Float) :
    ∃ poison levelIndex, b.eraseIndex row = { b with poison, levelIndex } := by
  unfold BookSpill.eraseIndex BookSpill.indexFailed
  split
  · exact ⟨_, _, rfl⟩
  · split
    · exact ⟨_, _, rfl⟩
    · dsimp only
      split
      · exact ⟨_, _, rfl⟩
      · split
        · exact ⟨_, _, rfl⟩
        · exact ⟨_, _, rfl⟩

theorem bumpEpoch_eq (b : BookSpill) : ∃ epoch, b.bumpEpoch = { b with epoch } := by
  unfold BookSpill.bumpEpoch
  split
  · exact ⟨_, rfl⟩
  · exact ⟨_, rfl⟩

theorem spillAt_rows {b : BookSpill} {index : ℕ} {row : LiveRequest Float} {m : ResidentMeta}
    (hrow : b.live[index]? = some row) (hm : b.resident[index]? = some m) :
    (b.spillAt index).live = b.live.eraseIdx index ∧
      (b.spillAt index).resident = b.resident.eraseIdx index ∧
      (b.spillAt index).rows = Assoc.put row.priority (b.spillSlot row m) b.rows := by
  unfold BookSpill.spillAt
  rw [hrow, hm]
  dsimp only
  obtain ⟨epoch, hbump⟩ := bumpEpoch_eq (BookSpill.dropSpilled
    { b with rows := Assoc.put row.priority (b.spillSlot row m) b.rows } index m)
  rw [hbump]
  unfold BookSpill.dropSpilled
  split
  · exact ⟨rfl, rfl, rfl⟩
  · exact ⟨rfl, rfl, rfl⟩

theorem spillAt_none {b : BookSpill} {index : ℕ}
    (h : b.live[index]? = none ∨ b.resident[index]? = none) : b.spillAt index = b := by
  unfold BookSpill.spillAt
  split
  · rename_i hrow hm
    rcases h with h | h
    · rw [h] at hrow
      cases hrow
    · rw [h] at hm
      cases hm
  · rfl

theorem spillSlot_row (b : BookSpill) (row : LiveRequest Float) (m : ResidentMeta) :
    (b.spillSlot row m).row = row ∧ (b.spillSlot row m).alive = true ∧
      ((b.spillSlot row m).dormancy.isSome ↔ m.dormant = true) := by
  unfold BookSpill.spillSlot
  split
  · rename_i hdormant
    exact ⟨rfl, rfl, iff_of_true rfl hdormant⟩
  · rename_i hdormant
    exact ⟨rfl, rfl, iff_of_false Bool.false_ne_true hdormant⟩

theorem spillAt_cases (b : BookSpill) (index : ℕ) :
    b.spillAt index = b ∨ ∃ row m, b.live[index]? = some row ∧ b.resident[index]? = some m := by
  cases hrow : b.live[index]? with
  | none => exact Or.inl (spillAt_none (Or.inl hrow))
  | some row =>
    cases hm : b.resident[index]? with
    | none => exact Or.inl (spillAt_none (Or.inr hm))
    | some m => exact Or.inr ⟨row, m, rfl, rfl⟩

theorem find_filter_alive {rows : List (ℕ × BookSlot)} (hsorted : Assoc.Sorted rows) {p : ℕ}
    {slot : BookSlot} :
    Assoc.find p (rows.filter (·.2.alive)) = some slot ↔
      Assoc.find p rows = some slot ∧ slot.alive = true := by
  have hfiltered : Assoc.Sorted (rows.filter (·.2.alive)) := hsorted.filter _
  constructor
  · intro hfind
    have hmem := List.mem_filter.mp (Assoc.mem_of_find hfind)
    exact ⟨Assoc.find_of_mem hsorted.nodup hmem.1, hmem.2⟩
  · intro hfind
    exact Assoc.find_of_mem hfiltered.nodup
      (List.mem_filter.mpr ⟨Assoc.mem_of_find hfind.1, hfind.2⟩)

theorem insertRow_eq (row : LiveRequest Float) (rows : List (LiveRequest Float)) :
    BookSpill.insertRow row rows = rows.insertIdx (BookSpill.rowPlace row.priority rows) row := by
  induction rows with
  | nil => rfl
  | cons head tail ih =>
    unfold BookSpill.insertRow BookSpill.rowPlace
    by_cases hlt : head.priority < row.priority
    · rw [if_pos hlt, List.takeWhile_cons_of_pos (by simpa using hlt), List.length_cons,
        List.insertIdx_succ_cons, ih]
      rfl
    · rw [if_neg hlt, List.takeWhile_cons_of_neg (by simpa using hlt)]
      rfl

theorem insertRow_perm (row : LiveRequest Float) (rows : List (LiveRequest Float)) :
    (BookSpill.insertRow row rows).Perm (row :: rows) := by
  induction rows with
  | nil => exact .refl _
  | cons head tail ih =>
    unfold BookSpill.insertRow
    split
    · exact (ih.cons head).trans (.swap _ _ _)
    · exact .refl _

theorem project_eq (b : BookSpill) (slot : BookSlot) :
    ∃ allowance, b.project slot = { slot.row with allowance } := by
  unfold BookSpill.project
  split
  · exact ⟨_, rfl⟩
  · dsimp only
    split
    · exact ⟨_, rfl⟩
    · split
      · split
        · exact ⟨_, rfl⟩
        · exact ⟨_, rfl⟩
      · exact ⟨_, rfl⟩

theorem wakeResident_frame (b : BookSpill) (index : ℕ) :
    (b.wakeResident index).live = b.live ∧ (b.wakeResident index).rows = b.rows ∧
      (b.wakeResident index).lastPriority = b.lastPriority := by
  unfold BookSpill.wakeResident
  split
  · split
    · rename_i row _ _ _ _
      obtain ⟨poison, levelIndex, herase⟩ := eraseIndex_eq b row
      rw [herase]
      exact ⟨rfl, rfl, rfl⟩
    · exact ⟨rfl, rfl, rfl⟩
  · exact ⟨rfl, rfl, rfl⟩

/-! ## One place for each row -/

/-- The rows are kept in one place each. -/
structure Shelved (b : BookSpill) : Prop where
  lengths : b.live.length = b.resident.length
  distinct : (b.live.map (·.priority)).Nodup
  sorted : Assoc.Sorted b.rows
  keyed : ∀ p slot, Assoc.find p b.rows = some slot → slot.alive = true → slot.row.priority = p
  apart : ∀ row ∈ b.live, ∀ slot, Assoc.find row.priority b.rows = some slot → slot.alive = false

namespace Shelved

variable {b b' : BookSpill}

theorem congr (h : Shelved b) (hlive : b'.live = b.live)
    (hresident : b'.resident.length = b.resident.length) (hrows : b'.rows = b.rows) :
    Shelved b' where
  lengths := by rw [hlive, hresident]; exact h.lengths
  distinct := by rw [hlive]; exact h.distinct
  sorted := by rw [hrows]; exact h.sorted
  keyed := by rw [hrows]; exact h.keyed
  apart := by rw [hlive, hrows]; exact h.apart

theorem find_ne (h : Shelved b) {row : LiveRequest Float} (hrow : row ∈ b.live) {p : ℕ}
    {slot : BookSlot} (hfind : Assoc.find p b.rows = some slot) (halive : slot.alive = true) :
    p ≠ row.priority := by
  intro hp
  have hdead := h.apart row hrow slot (hp ▸ hfind)
  rw [halive] at hdead
  exact Bool.false_ne_true hdead.symm

theorem wakeResident (h : Shelved b) (index : ℕ) : Shelved (b.wakeResident index) := by
  obtain ⟨hlive, hrows, -⟩ := wakeResident_frame b index
  refine h.congr hlive ?_ hrows
  unfold BookSpill.wakeResident
  split
  · split
    · exact List.length_set
    · rfl
  · rfl

theorem spillAt (h : Shelved b) (index : ℕ) : Shelved (b.spillAt index) := by
  rcases spillAt_cases b index with hsame | ⟨row, m, hrow, hm⟩
  · exact hsame.symm ▸ h
  obtain ⟨hlive, hresident, hrows⟩ := spillAt_rows hrow hm
  refine ⟨?_, ?_, hrows ▸ h.sorted.put _ _, ?_, ?_⟩
  · rw [hlive, hresident, List.length_eraseIdx, List.length_eraseIdx, h.lengths]
  · rw [hlive]
    exact h.distinct.sublist ((List.eraseIdx_sublist _ _).map _)
  · intro p slot hfind halive
    rw [hrows, Assoc.find_put] at hfind
    split at hfind
    · rename_i hp
      rw [← Option.some.inj hfind, hp, (spillSlot_row b row m).1]
    · exact h.keyed p slot hfind halive
  · intro other hother slot hfind
    rw [hlive] at hother
    have hne := Aligned.ne_of_mem_eraseIdx h.distinct hrow hother
    rw [hrows, Assoc.find_put_ne hne] at hfind
    exact h.apart other (List.mem_of_mem_eraseIdx hother) slot hfind

theorem find_spillAt (h : Shelved b) (index : ℕ) {p : ℕ} {slot : BookSlot}
    (hfind : Assoc.find p b.rows = some slot) (halive : slot.alive = true) :
    Assoc.find p (b.spillAt index).rows = some slot := by
  rcases spillAt_cases b index with hsame | ⟨row, m, hrow, hm⟩
  · exact hsame.symm ▸ hfind
  · rw [(spillAt_rows hrow hm).2.2,
      Assoc.find_put_ne (h.find_ne (List.mem_of_getElem? hrow) hfind halive)]
    exact hfind

theorem spillRounds (h : Shelved b) (n : ℕ) : Shelved (BookSpill.spillRounds n b) := by
  induction n generalizing b with
  | zero => exact h
  | succ n ih => exact ih (h.spillAt _)

theorem find_spillRounds (h : Shelved b) (n : ℕ) {p : ℕ} {slot : BookSlot}
    (hfind : Assoc.find p b.rows = some slot) (halive : slot.alive = true) :
    Assoc.find p (BookSpill.spillRounds n b).rows = some slot := by
  induction n generalizing b with
  | zero => exact hfind
  | succ n ih => exact ih (h.spillAt _) (h.find_spillAt _ hfind halive)

theorem compact (h : Shelved b) : Shelved b.compact where
  lengths := h.lengths
  distinct := h.distinct
  sorted := h.sorted.filter _
  keyed p slot hfind := h.keyed p slot ((find_filter_alive h.sorted).mp hfind).1
  apart row hrow slot hfind := h.apart row hrow slot ((find_filter_alive h.sorted).mp hfind).1

theorem rebuilt (h : Shelved b) (rebuild : Bool) : Shelved (if rebuild then b.compact else b) := by
  split
  · exact h.compact
  · exact h

theorem find_rebuilt (h : Shelved b) (rebuild : Bool) {p : ℕ} {slot : BookSlot}
    (hfind : Assoc.find p b.rows = some slot) (halive : slot.alive = true) :
    Assoc.find p (if rebuild then b.compact else b).rows = some slot := by
  split
  · exact (find_filter_alive h.sorted).mpr ⟨hfind, halive⟩
  · exact hfind

theorem makeBookRoom (h : Shelved b) (rebuild : Bool) : Shelved (b.makeBookRoom rebuild) := by
  unfold BookSpill.makeBookRoom
  split
  · exact h
  · exact (h.rebuilt rebuild).spillRounds _

theorem find_makeBookRoom (h : Shelved b) (rebuild : Bool) {p : ℕ} {slot : BookSlot}
    (hfind : Assoc.find p b.rows = some slot) (halive : slot.alive = true) :
    Assoc.find p (b.makeBookRoom rebuild).rows = some slot := by
  unfold BookSpill.makeBookRoom
  split
  · exact hfind
  · exact (h.rebuilt rebuild).find_spillRounds _ (h.find_rebuilt rebuild hfind halive) halive

/-- A spilled row moves in. -/
theorem moveIn (h : Shelved b) {p : ℕ} {slot : BookSlot}
    (hfind : Assoc.find p b.rows = some slot) (halive : slot.alive = true)
    {row : LiveRequest Float} (hpriority : row.priority = p)
    (hlive : b'.live = BookSpill.insertRow row b.live) {m : ResidentMeta}
    (hresident : b'.resident = b.resident.insertIdx (BookSpill.rowPlace p b.live) m)
    (hrows : b'.rows = Assoc.put p { slot with alive := false } b.rows) : Shelved b' := by
  have hfresh : ∀ other ∈ b.live, other.priority ≠ p := fun other hother =>
    (h.find_ne hother hfind halive).symm
  refine ⟨?_, ?_, hrows ▸ h.sorted.put _ _, ?_, ?_⟩
  · rw [hlive, hresident, insertRow_eq, hpriority, List.length_insertIdx, List.length_insertIdx,
      h.lengths]
  · rw [hlive, ((insertRow_perm _ _).map _).nodup_iff, List.map_cons, List.nodup_cons]
    refine ⟨?_, h.distinct⟩
    intro hin
    obtain ⟨other, hother, heq⟩ := List.mem_map.mp hin
    exact hfresh other hother (heq.trans hpriority)
  · intro q slot' hfind' halive'
    rw [hrows, Assoc.find_put] at hfind'
    split at hfind'
    · rw [← Option.some.inj hfind'] at halive'
      exact absurd halive' Bool.false_ne_true
    · exact h.keyed q slot' hfind' halive'
  · intro other hother slot' hfind'
    rw [hlive, (insertRow_perm _ _).mem_iff, List.mem_cons] at hother
    rw [hrows] at hfind'
    rcases hother with rfl | hother
    · rw [hpriority, Assoc.find_put_self] at hfind'
      rw [← Option.some.inj hfind']
    · rw [Assoc.find_put_ne (hfresh other hother)] at hfind'
      exact h.apart other hother slot' hfind'

end Shelved

theorem Shelved.roomFor {b : BookSpill} (h : Shelved b) (rebuild : Bool) :
    Shelved (b.roomFor rebuild) :=
  (h.rebuilt rebuild).makeBookRoom rebuild

/-- What a promotion does: the entry it found is still there once there is room. -/
theorem Shelved.promote_cases {b b' : BookSpill} (h : Shelved b) {incarnation : ℕ} {rebuild : Bool}
    (hpromote : b.promote incarnation rebuild = some b') :
    ∃ p slot, b.spilledAt incarnation = some (p, slot) ∧
      Assoc.find p (b.roomFor rebuild).rows = some slot ∧ slot.alive = true ∧
      ((b.roomFor rebuild).project slot).priority = p ∧
      b' = (((b.roomFor rebuild).moveIn p slot ((b.roomFor rebuild).project slot)).promoted slot
        ((b.roomFor rebuild).project slot)
          (BookSpill.rowPlace p (b.roomFor rebuild).live)).bumpEpoch := by
  unfold BookSpill.promote at hpromote
  split at hpromote
  · cases hpromote
  · rename_i p found hspilled
    have hmem := List.mem_of_find?_eq_some hspilled
    have halive : found.alive = true := by
      have := List.find?_some hspilled
      simp only [Bool.and_eq_true] at this
      exact this.1
    have hfind := Assoc.find_of_mem h.sorted.nodup hmem
    have hroom : Assoc.find p (b.roomFor rebuild).rows = some found :=
      (h.rebuilt rebuild).find_makeBookRoom rebuild (h.find_rebuilt rebuild hfind halive) halive
    dsimp only at hpromote
    rw [hroom] at hpromote
    have hpriority : ((b.roomFor rebuild).project found).priority = p := by
      obtain ⟨allowance, hproject⟩ := project_eq (b.roomFor rebuild) found
      rw [hproject]
      exact (h.roomFor rebuild).keyed p found hroom halive
    exact ⟨p, found, hspilled, hroom, halive, hpriority, (Option.some.inj hpromote).symm⟩

theorem promoted_rows (b : BookSpill) (slot : BookSlot) (row : LiveRequest Float) (place : ℕ) :
    (b.promoted slot row place).live = b.live ∧
      (b.promoted slot row place).resident
        = b.resident.insertIdx place (activeMeta row.priority) ∧
      (b.promoted slot row place).rows = b.rows := by
  unfold BookSpill.promoted
  split
  · obtain ⟨poison, levelIndex, herase⟩ := eraseIndex_eq b row
    dsimp only
    rw [herase]
    exact ⟨rfl, rfl, rfl⟩
  · exact ⟨rfl, rfl, rfl⟩

theorem Shelved.promote {b b' : BookSpill} (h : Shelved b) {incarnation : ℕ} {rebuild : Bool}
    (hpromote : b.promote incarnation rebuild = some b') : Shelved b' := by
  obtain ⟨p, slot, -, hfind, halive, hpriority, rfl⟩ := h.promote_cases hpromote
  obtain ⟨hlive, hresident, hrows⟩ := promoted_rows ((b.roomFor rebuild).moveIn p slot
    ((b.roomFor rebuild).project slot)) slot ((b.roomFor rebuild).project slot)
    (BookSpill.rowPlace p (b.roomFor rebuild).live)
  obtain ⟨epoch, hbump⟩ := bumpEpoch_eq (((b.roomFor rebuild).moveIn p slot
    ((b.roomFor rebuild).project slot)).promoted slot ((b.roomFor rebuild).project slot)
    (BookSpill.rowPlace p (b.roomFor rebuild).live))
  rw [hbump]
  exact (h.roomFor rebuild).moveIn hfind halive hpriority hlive hresident hrows

/-! ## Which rows the book holds -/

/-- The book holds a row, asleep or not. -/
def Stands (b : BookSpill) (asleep : Bool) (row : LiveRequest Float) : Prop :=
  (∃ m, Aligned.Paired b.live b.resident row m ∧ m.dormant = asleep) ∨
    ∃ p slot, Assoc.find p b.rows = some slot ∧ slot.alive = true ∧ slot.row = row ∧
      slot.dormancy.isSome = asleep

namespace Shelved

variable {b b' : BookSpill}

theorem stands_unique (h : Shelved b) {asleep asleep' : Bool} {row row' : LiveRequest Float}
    (hrow : Stands b asleep row) (hrow' : Stands b asleep' row')
    (hpriority : row.priority = row'.priority) : row = row' ∧ asleep = asleep' := by
  rcases hrow with ⟨m, ⟨i, hi, hm⟩, rfl⟩ | ⟨p, slot, hfind, halive, rfl, rfl⟩
  · rcases hrow' with ⟨m', ⟨j, hj, hm'⟩, rfl⟩ | ⟨q, slot', hfind', halive', rfl, rfl⟩
    · obtain rfl := Aligned.eq_of_get? h.distinct hi hj hpriority
      rw [hi, Option.some.injEq] at hj
      rw [hm, Option.some.injEq] at hm'
      exact ⟨hj, congrArg _ hm'⟩
    · have hkeyed := h.keyed q slot' hfind' halive'
      exact absurd (hkeyed.symm.trans hpriority.symm)
        (h.find_ne (List.mem_of_getElem? hi) hfind' halive')
  · have hkeyed := h.keyed p slot hfind halive
    rcases hrow' with ⟨m', ⟨j, hj, hm'⟩, rfl⟩ | ⟨q, slot', hfind', halive', rfl, rfl⟩
    · exact absurd (hkeyed.symm.trans hpriority) (h.find_ne (List.mem_of_getElem? hj) hfind halive)
    · have hkeyed' := h.keyed q slot' hfind' halive'
      obtain rfl : p = q := hkeyed.symm.trans (hpriority.trans hkeyed')
      rw [hfind, Option.some.injEq] at hfind'
      subst hfind'
      exact ⟨rfl, rfl⟩

/-- Spilling moves no row between sleep and work. -/
theorem stands_spillAt (h : Shelved b) (index : ℕ) (asleep : Bool) (row : LiveRequest Float) :
    Stands (b.spillAt index) asleep row ↔ Stands b asleep row := by
  rcases spillAt_cases b index with hsame | ⟨spilled, m, hspilled, hm⟩
  · rw [hsame]
  obtain ⟨hlive, hresident, hrows⟩ := spillAt_rows hspilled hm
  obtain ⟨hslotRow, hslotAlive, hslotAsleep⟩ := spillSlot_row b spilled m
  have hslotAsleep := Bool.eq_iff_iff.mpr hslotAsleep
  unfold Stands
  rw [hlive, hresident]
  constructor
  · rintro (⟨m', hpaired, hm'⟩ | ⟨p, slot, hfind, halive, hrow, hasleep⟩)
    · obtain ⟨j, -, hj⟩ := Aligned.paired_eraseIdx.mp hpaired
      exact Or.inl ⟨m', ⟨j, hj⟩, hm'⟩
    · rw [hrows, Assoc.find_put] at hfind
      split at hfind
      · obtain rfl := Option.some.inj hfind
        refine Or.inl ⟨m, ⟨index, ?_, hm⟩, hslotAsleep.symm.trans hasleep⟩
        rw [← hrow, hslotRow]
        exact hspilled
      · exact Or.inr ⟨p, slot, hfind, halive, hrow, hasleep⟩
  · rintro (⟨m', ⟨j, hj, hjm⟩, hm'⟩ | ⟨p, slot, hfind, halive, hrow, hasleep⟩)
    · by_cases heq : j = index
      · subst heq
        rw [hspilled, Option.some.injEq] at hj
        rw [hm, Option.some.injEq] at hjm
        subst hj hjm
        exact Or.inr ⟨spilled.priority, b.spillSlot spilled m, by rw [hrows, Assoc.find_put_self],
          hslotAlive, hslotRow, hslotAsleep.trans hm'⟩
      · exact Or.inl ⟨m', Aligned.paired_eraseIdx.mpr ⟨j, heq, hj, hjm⟩, hm'⟩
    · exact Or.inr ⟨p, slot, h.find_spillAt index hfind halive, halive, hrow, hasleep⟩

theorem stands_spillRounds (h : Shelved b) (n : ℕ) (asleep : Bool) (row : LiveRequest Float) :
    Stands (BookSpill.spillRounds n b) asleep row ↔ Stands b asleep row := by
  induction n generalizing b with
  | zero => exact Iff.rfl
  | succ n ih => exact (ih (h.spillAt _)).trans (h.stands_spillAt _ asleep row)

theorem stands_rebuilt (h : Shelved b) (rebuild : Bool) (asleep : Bool) (row : LiveRequest Float) :
    Stands (if rebuild then b.compact else b) asleep row ↔ Stands b asleep row := by
  split
  · refine or_congr Iff.rfl (exists_congr fun p => exists_congr fun slot => ?_)
    have hfind := @find_filter_alive _ h.sorted p slot
    constructor
    · rintro ⟨hfound, hrest⟩
      exact ⟨(hfind.mp hfound).1, hrest⟩
    · rintro ⟨hfound, hrest⟩
      exact ⟨hfind.mpr ⟨hfound, hrest.1⟩, hrest⟩
  · exact Iff.rfl

theorem stands_makeBookRoom (h : Shelved b) (rebuild : Bool) (asleep : Bool)
    (row : LiveRequest Float) :
    Stands (b.makeBookRoom rebuild) asleep row ↔ Stands b asleep row := by
  unfold BookSpill.makeBookRoom
  split
  · exact Iff.rfl
  · exact ((h.rebuilt rebuild).stands_spillRounds _ asleep row).trans
      (h.stands_rebuilt rebuild asleep row)

theorem stands_roomFor (h : Shelved b) (rebuild : Bool) (asleep : Bool) (row : LiveRequest Float) :
    Stands (b.roomFor rebuild) asleep row ↔ Stands b asleep row :=
  ((h.rebuilt rebuild).stands_makeBookRoom rebuild asleep row).trans
    (h.stands_rebuilt rebuild asleep row)

end Shelved

/-- One row wakes: it stands awake under its definition, and the other rows stand as they did. -/
structure Woke (b b' : BookSpill) (row row' : LiveRequest Float) : Prop where
  asleep : Stands b true row
  definition : row'.definition = row.definition
  stands : ∀ asleep other, Stands b' asleep other ↔
    (Stands b asleep other ∧ other.priority ≠ row.priority) ∨ (asleep = false ∧ other = row')

namespace Shelved

variable {b b' : BookSpill}

/-- A resident row wakes. -/
theorem woke_resident (h : Shelved b) {index : ℕ} {row : LiveRequest Float} {m : ResidentMeta}
    (hrow : b.live[index]? = some row) (hm : b.resident[index]? = some m)
    (hdormant : m.dormant = true)
    (hlive : b'.live = b.live) (hrows : b'.rows = b.rows)
    (hresident : b'.resident = b.resident.set index { m with dormant := false }) :
    Woke b b' row row := by
  refine ⟨Or.inl ⟨m, ⟨index, hrow, hm⟩, hdormant⟩, rfl, fun asleep other => ?_⟩
  constructor
  · rintro (⟨m', ⟨j, hj, hjm⟩, hm'⟩ | ⟨p, slot, hfind, halive, rfl, hasleep⟩)
    · rw [hlive] at hj
      rw [hresident] at hjm
      by_cases heq : j = index
      · subst heq
        rw [hrow, Option.some.injEq] at hj
        rw [List.getElem?_set_self', hm] at hjm
        exact Or.inr ⟨by rw [← hm', ← Option.some.inj hjm]; rfl, hj.symm⟩
      · rw [List.getElem?_set_ne (Ne.symm heq)] at hjm
        refine Or.inl ⟨Or.inl ⟨m', ⟨j, hj, hjm⟩, hm'⟩, fun hpriority => ?_⟩
        exact heq (Aligned.eq_of_get? h.distinct hj hrow hpriority)
    · rw [hrows] at hfind
      refine Or.inl ⟨Or.inr ⟨p, slot, hfind, halive, rfl, hasleep⟩, ?_⟩
      rw [h.keyed p slot hfind halive]
      exact h.find_ne (List.mem_of_getElem? hrow) hfind halive
  · rintro (⟨⟨m', ⟨j, hj, hjm⟩, hm'⟩ | ⟨p, slot, hfind, halive, hslot, hasleep⟩, hne⟩ | ⟨rfl, rfl⟩)
    · have heq : j ≠ index := by
        rintro rfl
        rw [hrow, Option.some.injEq] at hj
        exact hne (hj ▸ rfl)
      refine Or.inl ⟨m', ⟨j, hlive ▸ hj, ?_⟩, hm'⟩
      rw [hresident, List.getElem?_set_ne (Ne.symm heq)]
      exact hjm
    · exact Or.inr ⟨p, slot, hrows ▸ hfind, halive, hslot, hasleep⟩
    · refine Or.inl ⟨{ m with dormant := false }, ⟨index, hlive ▸ hrow, ?_⟩, rfl⟩
      rw [hresident, List.getElem?_set_self', hm]
      rfl

/-- A spilled row moves in and wakes. -/
theorem woke_moved (h : Shelved b) {p : ℕ} {slot : BookSlot}
    (hfind : Assoc.find p b.rows = some slot) (halive : slot.alive = true)
    (hasleep : slot.dormancy.isSome = true) {row : LiveRequest Float}
    (hdefinition : row.definition = slot.row.definition)
    (hlive : b'.live = BookSpill.insertRow row b.live)
    (hresident : b'.resident = b.resident.insertIdx (BookSpill.rowPlace p b.live)
      (activeMeta row.priority))
    (hrows : b'.rows = Assoc.put p { slot with alive := false } b.rows) :
    Woke b b' slot.row row := by
  have hkeyed := h.keyed p slot hfind halive
  have hpriority : row.priority = p := by
    rw [← hkeyed]
    unfold LiveRequest.priority
    rw [hdefinition]
  have hplace : BookSpill.rowPlace p b.live ≤ b.live.length :=
    (List.takeWhile_sublist _).length_le
  have hpaired : ∀ other m, Aligned.Paired b'.live b'.resident other m ↔
      (other = row ∧ m = activeMeta row.priority) ∨ Aligned.Paired b.live b.resident other m := by
    intro other m
    rw [hlive, hresident, insertRow_eq, hpriority]
    exact Aligned.paired_insertIdx hplace (h.lengths ▸ hplace)
  refine ⟨Or.inr ⟨p, slot, hfind, halive, rfl, hasleep⟩, hdefinition, fun asleep other => ?_⟩
  rw [hkeyed]
  constructor
  · rintro (⟨m, hstand, hm⟩ | ⟨q, slot', hfind', halive', rfl, hasleep'⟩)
    · rcases (hpaired other m).mp hstand with ⟨rfl, rfl⟩ | hold
      · exact Or.inr ⟨hm.symm, rfl⟩
      · obtain ⟨j, hj, hjm⟩ := hold
        exact Or.inl ⟨Or.inl ⟨m, ⟨j, hj, hjm⟩, hm⟩,
          (h.find_ne (List.mem_of_getElem? hj) hfind halive).symm⟩
    · rw [hrows, Assoc.find_put] at hfind'
      split at hfind'
      · rw [← Option.some.inj hfind'] at halive'
        exact absurd halive' Bool.false_ne_true
      · rename_i hne
        refine Or.inl ⟨Or.inr ⟨q, slot', hfind', halive', rfl, hasleep'⟩, ?_⟩
        rw [h.keyed q slot' hfind' halive']
        exact hne
  · rintro (⟨⟨m, hstand, hm⟩ | ⟨q, slot', hfind', halive', rfl, hasleep'⟩, hne⟩ | ⟨rfl, rfl⟩)
    · exact Or.inl ⟨m, (hpaired other m).mpr (Or.inr hstand), hm⟩
    · rw [h.keyed q slot' hfind' halive'] at hne
      refine Or.inr ⟨q, slot', ?_, halive', rfl, hasleep'⟩
      rw [hrows, Assoc.find_put_ne hne]
      exact hfind'
    · exact Or.inl ⟨_, (hpaired other _).mpr (Or.inl ⟨rfl, rfl⟩), rfl⟩

end Shelved

end PineForge.Book
