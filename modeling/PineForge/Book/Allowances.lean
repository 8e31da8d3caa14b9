import PineForge.Book.Shelves
import PineForge.Orders.Rows

/-!
# Allowances of sleeping rows

A sleeping row that stays resident is given its allowance by the sweep of every point. A spilled one
is given nothing: its stamp counts the sweeps it has seen, and a read compares the stamp with the
register of its class. `Agrees` ties the two together: beside the book it keeps, for every sleeping
row, the allowance that sweeps would have left it, and every step of the book keeps the two in step
as long as a class begins a point only when its last sweep was finished.
-/

namespace PineForge.Book

open Orders BigEndian FloatOrder

/-! ## Runs -/

/-- What a sleeping row would hold had it stayed resident. -/
structure Sleeper where
  cls : RowClass
  initial : Float
  allowance : Allowance Float

/-- The sleeping rows by priority. An entry of a row that woke is never looked at. -/
abbrev Eager := ℕ → Option Sleeper

/-- One step: a point's begin, advance and end, joins and wakes, moves between the tiers, and what
commands and the level index do to the book. -/
inductive Act
  | begin (context : EvaluationContext)
  | advance (priority : ℕ)
  | complete
  | join (incarnation : ℕ) (context : EvaluationContext) (lo hi delta : Float)
  | wake (index : ℕ)
  | wakeByPrice (context : EvaluationContext) (lo hi delta : Float) (rebuild : ℕ → Bool)
  | promote (incarnation : ℕ) (rebuild : Bool)
  | makeRoom (rebuild : Bool)
  | compact
  | scope (middleSpill : Bool)
  | push (row : LiveRequest Float) (rebuild : Bool)
  | erase (index : ℕ)
  | update (index : ℕ) (row : LiveRequest Float)
  | reprice (index : ℕ) (row : LiveRequest Float)
  | rewrite (priority : ℕ) (row : LiveRequest Float)
  | attach (hasIndex poison failure : Bool) (levelIndex : List (Bytes × ℕ))

/-- `none` where a sweep throws, or no spilled row is there to promote. -/
def Act.apply (b : BookSpill) : Act → Option BookSpill
  | .begin context => some (b.beginPoint context)
  | .advance priority => b.advance priority
  | .complete => b.complete
  | .join incarnation context lo hi delta => some (b.join incarnation context lo hi delta)
  | .wake index => some (b.wakeResident index)
  | .wakeByPrice context lo hi delta rebuild => some (b.wakeByPrice context lo hi delta rebuild)
  | .promote incarnation rebuild => b.promote incarnation rebuild
  | .makeRoom rebuild => some (b.makeBookRoom rebuild)
  | .compact => some b.compact
  | .scope middleSpill => some { b with middleSpill }
  | .push row rebuild => some (b.pushRow row rebuild)
  | .erase index => some (b.eraseRow index)
  | .update index row => some (b.updateRow index row)
  | .reprice index row => some (b.repriceRow index row)
  | .rewrite priority row => some (b.rewriteSlot priority row)
  | .attach hasIndex poison failure levelIndex =>
    some { b with hasIndex, poison, failure, levelIndex }

/-- The row a join put to sleep. -/
def joined (b b' : BookSpill) (incarnation : ℕ) : Option (ℕ × Sleeper) :=
  match b.residentIndex incarnation with
  | none => none
  | some index =>
    match b.resident[index]?, b'.live[index]?, b'.resident[index]? with
    | some before, some row, some after =>
      if !before.dormant && after.dormant then
        some (row.priority, ⟨after.cls, after.initial, row.allowance⟩)
      else none
    | _, _, _ => none

/-- A sleeper of a priority after a sweep. -/
def Sleeper.swept (s : Sleeper) (r : SweepRegister) (priority : ℕ) (finish : Bool)
    (p : ℕ) : Sleeper :=
  { s with
    allowance := BookSpill.sweptAllowance r priority finish p s.initial s.allowance }

/-- The sleepers after one priority's sweep. -/
def sweptSleepers (b : BookSpill) (priority : ℕ) (finish : Bool) (eager : Eager) : Eager := fun p =>
  (eager p).map fun s => s.swept (b.reg s.cls) priority finish p

/-- The sleepers after a step: a join adds one, a sweep goes over all of them. -/
def Act.eager (b b' : BookSpill) (eager : Eager) : Act → Eager
  | .advance priority => sweptSleepers b priority false eager
  | .complete => sweptSleepers b u64Max true eager
  | .join incarnation _ _ _ _ =>
    (joined b b' incarnation).elim eager fun entry => Function.update eager entry.1 (some entry.2)
  | _ => eager

/-- What `validate_request` leaves of a point budget. -/
def Budgeted (row : LiveRequest Float) : Prop :=
  match row.request.capacity with
  | .immediateRemaining => True
  | .pointBudget units => finitePositive units = true

/-- Each class that the context begins a point of has finished its last one. -/
def Finished (b : BookSpill) (context : EvaluationContext) : Prop :=
  ∀ cls, classPermitted context cls = true → (b.reg cls).cur ≠ context.cursor.point.ordinal →
    (b.reg cls).inProgress = false

/-- What callers keep to. Priorities are handed out in increasing order. -/
def Act.Proper (b : BookSpill) : Act → Prop
  | .begin context => Finished b context
  | .join _ context _ _ _ => Finished b context
  | .push row _ => b.lastPriority < row.priority ∧ Budgeted row
  | .update index row => (b.live[index]?.map (·.priority)) = some row.priority ∧ Budgeted row
  | .reprice _ row => b.lastPriority < row.priority ∧ Budgeted row
  | .rewrite priority row => row.priority = priority ∧ Budgeted row
  | _ => True

/-- The books a run reaches, each with what its sleepers would hold. -/
inductive Reaches : BookSpill → Eager → Prop
  | start (bookMax : ℕ) : Reaches { bookMax } fun _ => none
  | step {b b' : BookSpill} {eager : Eager} {act : Act} (h : Reaches b eager)
    (hproper : act.Proper b)
      (hstep : act.apply b = some b') : Reaches b' (act.eager b b' eager)

/-! ## What a sweep register says -/

/-- The part of a register that sweeps use. -/
structure SweepView where
  seq : ℕ
  cur : ℕ
  prev : ℕ
  W : ℕ
  inProgress : Bool

/-- What a sweep reads of a register. -/
def SweepRegister.view (r : SweepRegister) : SweepView := ⟨r.seq, r.cur, r.prev, r.W, r.inProgress⟩

/-- What a sweep reads of the book. -/
def BookSpill.views (b : BookSpill) (cls : RowClass) : SweepView := (b.reg cls).view

/-- A sleeper has the allowance of its class's current point, or of the one before while the sweep
has not come to it. -/
def Settled (v : SweepView) (p : ℕ) (s : Sleeper) : Prop :=
  s.allowance = .units v.cur s.initial s.initial ∨
    (v.inProgress = true ∧ v.W ≤ p ∧ s.allowance = .units v.prev s.initial s.initial)

/-- Every evaluation of a row gives it the same units. -/
def Evaluates (row : LiveRequest Float) (initial : Float) : Prop :=
  ∀ point, evaluatedAllowance row point = .units point initial initial

/-- What a stamp says of the allowance a row was spilled with. -/
structure Stamped (v : SweepView) (p : ℕ) (slot : BookSlot) (s : Sleeper) : Prop where
  settled : Settled v p s
  evaluates : Evaluates slot.row s.initial
  le : slot.stamp ≤ v.seq
  seen : slot.stamp = v.seq →
    (v.inProgress = true → p < v.W) ∧ slot.row.allowance = s.allowance
  last : v.inProgress = true → v.W ≤ p → slot.stamp + 1 = v.seq → slot.row.allowance = s.allowance
  older : v.inProgress = true → v.W ≤ p → slot.stamp + 1 < v.seq →
    s.allowance = .units v.prev s.initial s.initial

/-- A resident row agrees with its sleeper. -/
structure ResidentOk (views : RowClass → SweepView) (eager : Eager) (row : LiveRequest Float)
    (m : ResidentMeta) : Prop where
  priority : m.priority = row.priority
  budgeted : Budgeted row
  asleep : m.dormant = true → ∃ s, eager row.priority = some s ∧ s.cls = m.cls ∧
    s.initial = m.initial ∧ s.allowance = row.allowance ∧ Evaluates row m.initial ∧
    Settled (views m.cls) row.priority s

/-- A spilled row agrees with its sleeper. -/
structure SlotOk (views : RowClass → SweepView) (eager : Eager) (p : ℕ) (slot : BookSlot) :
    Prop where
  budgeted : Budgeted slot.row
  asleep : ∀ cls, slot.dormancy = some cls →
    ∃ s, eager p = some s ∧ s.cls = cls ∧ Stamped (views cls) p slot s

/-- The book and its sleepers are in step. -/
structure Agrees (b : BookSpill) (eager : Eager) : Prop extends Shelved b where
  residents : List.Forall₂ (ResidentOk b.views eager) b.live b.resident
  slots : ∀ p slot, Assoc.find p b.rows = some slot → slot.alive = true →
    SlotOk b.views eager p slot
  liveKnown : ∀ row ∈ b.live, row.priority ≤ b.lastPriority
  rowsKnown : ∀ p slot, Assoc.find p b.rows = some slot → p ≤ b.lastPriority
  begun : ∀ cls, (b.views cls).inProgress = true → 0 < (b.views cls).seq

/-! ## What the index and the counters leave alone -/

theorem views_update (b : BookSpill) (cls : RowClass) {r : SweepRegister}
    (hview : r.view = (b.reg cls).view) : (b.setReg cls r).views = b.views := by
  funext cls'
  show (Function.update b.reg cls r cls').view = (b.reg cls').view
  by_cases hcls : cls' = cls
  · subst hcls
    rw [Function.update_self, hview]
  · rw [Function.update_of_ne hcls]

theorem views_dropSpilled (b : BookSpill) (index : ℕ) (m : ResidentMeta) :
    (b.dropSpilled index m).views = b.views := by
  unfold BookSpill.dropSpilled
  split
  · exact views_update b m.cls rfl
  · rfl

/-- A stamp is of the current point, which has then come to the row, or of the one before. -/
theorem spillStamp_spec (r : SweepRegister) (priority : ℕ) :
    BookSpill.spillStamp r priority ≤ r.seq ∧ r.seq ≤ BookSpill.spillStamp r priority + 1 ∧
      (BookSpill.spillStamp r priority = r.seq → r.inProgress = true → 0 < r.seq →
        priority < r.W) := by
  unfold BookSpill.spillStamp
  split
  · rename_i hpending
    have := hpending.2.2
    exact ⟨by omega, by omega, fun heq => absurd heq (by omega)⟩
  · rename_i hpending
    refine ⟨le_rfl, Nat.le_succ _, fun _ hprogress hpos => ?_⟩
    by_contra hlt
    exact hpending ⟨hprogress, not_lt.mp hlt, hpos.ne'⟩

theorem spillAt_views (b : BookSpill) (index : ℕ) :
    (b.spillAt index).views = b.views ∧ (b.spillAt index).lastPriority = b.lastPriority := by
  unfold BookSpill.spillAt
  split
  · rename_i row m hrow hm
    dsimp only
    obtain ⟨epoch, hbump⟩ := bumpEpoch_eq (BookSpill.dropSpilled
      { b with rows := Assoc.put row.priority (b.spillSlot row m) b.rows } index m)
    have hviews := views_dropSpilled
      { b with rows := Assoc.put row.priority (b.spillSlot row m) b.rows } index m
    rw [hbump]
    refine ⟨hviews, ?_⟩
    unfold BookSpill.dropSpilled
    split <;> rfl
  · exact ⟨rfl, rfl⟩

theorem promoted_views (b : BookSpill) (slot : BookSlot) (row : LiveRequest Float) (place : ℕ) :
    (b.promoted slot row place).views = b.views ∧
      (b.promoted slot row place).lastPriority = b.lastPriority := by
  unfold BookSpill.promoted
  split
  · rename_i cls _
    obtain ⟨poison, levelIndex, herase⟩ := eraseIndex_eq b row
    dsimp only
    rw [herase]
    exact ⟨views_update { b with poison, levelIndex } cls rfl, rfl⟩
  · exact ⟨rfl, rfl⟩

namespace Agrees

variable {b b' : BookSpill} {eager : Eager}

theorem congr (h : Agrees b eager) (hlive : b'.live = b.live) (hresident : b'.resident = b.resident)
    (hrows : b'.rows = b.rows) (hviews : b'.views = b.views)
    (hlast : b'.lastPriority = b.lastPriority) : Agrees b' eager where
  toShelved := h.toShelved.congr hlive (by rw [hresident]) hrows
  residents := by rw [hlive, hresident, hviews]; exact h.residents
  slots := by rw [hrows, hviews]; exact h.slots
  liveKnown := by rw [hlive, hlast]; exact h.liveKnown
  rowsKnown := by rw [hrows, hlast]; exact h.rowsKnown
  begun := by rw [hviews]; exact h.begun

/-- A projected row has the swept allowance. -/
theorem project_allowance (h : Agrees b eager) {p : ℕ} {slot : BookSlot} {cls : RowClass}
    (hfind : Assoc.find p b.rows = some slot) (halive : slot.alive = true)
    (hdormancy : slot.dormancy = some cls) :
    ∃ s, eager p = some s ∧ s.cls = cls ∧ (b.project slot).allowance = s.allowance := by
  have hok := h.slots p slot hfind halive
  obtain ⟨s, heager, hcls, hstamped⟩ := hok.asleep cls hdormancy
  refine ⟨s, heager, hcls, ?_⟩
  have hbegun := h.begun cls
  have hle := hstamped.le
  have hsettled := hstamped.settled
  unfold BookSpill.project
  rw [hdormancy]
  dsimp only
  split
  · rename_i hseen
    exact (hstamped.seen (le_antisymm hle hseen)).2
  · rename_i hseen
    split
    · rename_i hpending
      rw [h.keyed p slot hfind halive] at hpending
      split
      · rename_i hlast
        refine hstamped.last hpending.1 hpending.2 ?_
        have : (b.views cls).seq = (b.reg cls).seq := rfl
        omega
      · rename_i hlast
        refine (hstamped.evaluates _).trans (hstamped.older hpending.1 hpending.2 ?_).symm
        have : (b.views cls).seq = (b.reg cls).seq := rfl
        omega
    · rename_i hpending
      rw [h.keyed p slot hfind halive] at hpending
      rcases hsettled with hcur | hprev
      · exact (hstamped.evaluates _).trans hcur.symm
      · exact absurd ⟨hprev.1, hprev.2.1⟩ hpending

/-! ## Wakes and moves between the tiers -/

theorem reside (h : Agrees b eager) (hlive : b'.live = b.live)
    (hresident : List.Forall₂ (ResidentOk b.views eager) b.live b'.resident)
    (hrows : b'.rows = b.rows) (hviews : b'.views = b.views)
    (hlast : b'.lastPriority = b.lastPriority) : Agrees b' eager where
  toShelved := h.toShelved.congr hlive (hresident.length_eq.symm.trans h.lengths) hrows
  residents := by rw [hlive, hviews]; exact hresident
  slots := by rw [hrows, hviews]; exact h.slots
  liveKnown := by rw [hlive, hlast]; exact h.liveKnown
  rowsKnown := by rw [hrows, hlast]; exact h.rowsKnown
  begun := by rw [hviews]; exact h.begun

theorem wakeResident (h : Agrees b eager) (index : ℕ) : Agrees (b.wakeResident index) eager := by
  unfold BookSpill.wakeResident
  split
  · rename_i row m hrow hm
    split
    · obtain ⟨poison, levelIndex, herase⟩ := eraseIndex_eq b row
      rw [herase]
      refine h.reside rfl ?_ rfl rfl rfl
      refine Aligned.set h.residents ?_ fun j a m' _ ha hm' => Aligned.get? h.residents ha hm'
      intro a ha
      have hok := Aligned.get? h.residents ha hm
      exact ⟨hok.priority, hok.budgeted, fun hd => absurd hd Bool.false_ne_true⟩
    · exact h
  · exact h

theorem slotOk_spillSlot (h : Agrees b eager) {row : LiveRequest Float} {m : ResidentMeta}
    (hok : ResidentOk b.views eager row m) :
    SlotOk b.views eager row.priority (b.spillSlot row m) := by
  unfold BookSpill.spillSlot
  split
  · rename_i hdormant
    refine ⟨hok.budgeted, ?_⟩
    intro cls hcls
    obtain rfl : m.cls = cls := Option.some.inj hcls
    obtain ⟨s, heager, hs, hinitial, hallowance, hevaluates, hsettled⟩ := hok.asleep hdormant
    obtain ⟨hle, hge, hpassed⟩ := spillStamp_spec (b.reg m.cls) row.priority
    refine ⟨s, heager, hs, ⟨hsettled, hinitial ▸ hevaluates, hle, ?_, ?_, ?_⟩⟩
    · intro hseen
      exact ⟨fun hprogress => hpassed hseen hprogress (h.begun m.cls hprogress), hallowance.symm⟩
    · intro _ _ _
      exact hallowance.symm
    · intro _ _ hstamp
      exact absurd hge (not_le.mpr hstamp)
  · exact ⟨hok.budgeted, fun cls hcls => nomatch hcls⟩

theorem spillAt (h : Agrees b eager) (index : ℕ) : Agrees (b.spillAt index) eager := by
  rcases spillAt_cases b index with hsame | ⟨row, m, hrow, hm⟩
  · exact hsame.symm ▸ h
  have hok := Aligned.get? h.residents hrow hm
  obtain ⟨hlive, hresident, hrows⟩ := spillAt_rows hrow hm
  obtain ⟨hviews, hlast⟩ := spillAt_views b index
  refine ⟨h.toShelved.spillAt index, ?_, ?_, ?_, ?_, hviews ▸ h.begun⟩
  · rw [hlive, hresident, hviews]
    exact Aligned.eraseIdx h.residents index
  · intro p slot hfind halive
    rw [hrows, Assoc.find_put] at hfind
    rw [hviews]
    split at hfind
    · rename_i hp
      rw [hp, ← Option.some.inj hfind]
      exact h.slotOk_spillSlot hok
    · exact h.slots p slot hfind halive
  · intro other hother
    rw [hlive] at hother
    rw [hlast]
    exact h.liveKnown other (List.mem_of_mem_eraseIdx hother)
  · intro p slot hfind
    rw [hrows, Assoc.find_put] at hfind
    rw [hlast]
    split at hfind
    · rename_i hp
      exact hp ▸ h.liveKnown row (List.mem_of_getElem? hrow)
    · exact h.rowsKnown p slot hfind

theorem spillRounds (h : Agrees b eager) (n : ℕ) : Agrees (BookSpill.spillRounds n b) eager := by
  induction n generalizing b with
  | zero => exact h
  | succ n ih => exact ih (h.spillAt _)

theorem compact (h : Agrees b eager) : Agrees b.compact eager where
  toShelved := h.toShelved.compact
  residents := h.residents
  slots p slot hfind halive := h.slots p slot ((find_filter_alive h.sorted).mp hfind).1 halive
  liveKnown := h.liveKnown
  rowsKnown p slot hfind := h.rowsKnown p slot ((find_filter_alive h.sorted).mp hfind).1
  begun := h.begun

theorem rebuilt (h : Agrees b eager) (rebuild : Bool) :
    Agrees (if rebuild then b.compact else b) eager := by
  split
  · exact h.compact
  · exact h

theorem makeBookRoom (h : Agrees b eager) (rebuild : Bool) :
    Agrees (b.makeBookRoom rebuild) eager := by
  unfold BookSpill.makeBookRoom
  split
  · exact h
  · exact (h.rebuilt rebuild).spillRounds _

/-- A promoted row is the sleeper's. -/
theorem promoted (h : Agrees b eager) (hshelved : Shelved b') {p : ℕ} {slot : BookSlot}
    (hfind : Assoc.find p b.rows = some slot) (halive : slot.alive = true)
    (hpriority : (b.project slot).priority = p)
    (hlive : b'.live = BookSpill.insertRow (b.project slot) b.live)
    (hresident : b'.resident = b.resident.insertIdx
      (BookSpill.rowPlace (b.project slot).priority b.live) (activeMeta (b.project slot).priority))
    (hrows : b'.rows = Assoc.put p { slot with alive := false } b.rows)
    (hviews : b'.views = b.views) (hlast : b'.lastPriority = b.lastPriority) : Agrees b' eager := by
  refine ⟨hshelved, ?_, ?_, ?_, ?_, hviews ▸ h.begun⟩
  · rw [hlive, hresident, hviews, insertRow_eq]
    refine Aligned.insertIdx h.residents _ ⟨rfl, ?_, fun hd => absurd hd Bool.false_ne_true⟩
    obtain ⟨allowance, hproject⟩ := project_eq b slot
    rw [hproject]
    exact (h.slots p slot hfind halive).budgeted
  · intro q slot' hfind' halive'
    rw [hrows, Assoc.find_put] at hfind'
    rw [hviews]
    split at hfind'
    · rw [← Option.some.inj hfind'] at halive'
      exact absurd halive' Bool.false_ne_true
    · exact h.slots q slot' hfind' halive'
  · intro row hrow
    rw [hlive, (insertRow_perm _ _).mem_iff, List.mem_cons] at hrow
    rw [hlast]
    rcases hrow with rfl | hrow
    · rw [hpriority]
      exact h.rowsKnown p slot hfind
    · exact h.liveKnown row hrow
  · intro q slot' hfind'
    rw [hrows, Assoc.find_put] at hfind'
    rw [hlast]
    split at hfind'
    · rename_i hq
      rw [hq]
      exact h.rowsKnown p slot hfind
    · exact h.rowsKnown q slot' hfind'

theorem promote (h : Agrees b eager) {incarnation : ℕ} {rebuild : Bool}
    (hpromote : b.promote incarnation rebuild = some b') : Agrees b' eager := by
  have hshelved := h.toShelved.promote hpromote
  obtain ⟨p, slot, -, hfind, halive, hpriority, rfl⟩ := h.toShelved.promote_cases hpromote
  have hroom : Agrees (b.roomFor rebuild) eager := (h.rebuilt rebuild).makeBookRoom rebuild
  generalize b.roomFor rebuild = room at *
  obtain ⟨hlive, hresident, hrows⟩ := promoted_rows (room.moveIn p slot (room.project slot)) slot
    (room.project slot) (BookSpill.rowPlace p room.live)
  obtain ⟨hviews, hlast⟩ := promoted_views (room.moveIn p slot (room.project slot)) slot
    (room.project slot) (BookSpill.rowPlace p room.live)
  obtain ⟨epoch, hbump⟩ := bumpEpoch_eq ((room.moveIn p slot (room.project slot)).promoted slot
    (room.project slot) (BookSpill.rowPlace p room.live))
  rw [hbump] at hshelved ⊢
  refine hroom.promoted hshelved hfind halive hpriority hlive ?_ hrows hviews hlast
  rw [hpriority]
  rw [hpriority] at hresident
  exact hresident

/-! ## Commands -/

/-- A new row sleeps nowhere. -/
theorem append (h : Agrees b eager) {row : LiveRequest Float}
    (hfresh : b.lastPriority < row.priority)
    (hbudgeted : Budgeted row) (hlive : b'.live = b.live ++ [row])
    (hresident : b'.resident = b.resident ++ [activeMeta row.priority]) (hrows : b'.rows = b.rows)
    (hviews : b'.views = b.views) (hlast : b'.lastPriority = row.priority) : Agrees b' eager := by
  have hne : ∀ other ∈ b.live, other.priority ≠ row.priority := fun other hother =>
    ((h.liveKnown other hother).trans_lt hfresh).ne
  have hshelved : Shelved b' := by
    refine ⟨?_, ?_, hrows ▸ h.sorted, hrows ▸ h.keyed, ?_⟩
    · rw [hlive, hresident, List.length_append, List.length_append, h.lengths]
      rfl
    · rw [hlive, List.map_append, List.nodup_append]
      refine ⟨h.distinct, List.nodup_singleton _, ?_⟩
      intro p hp q hq heq
      obtain ⟨other, hother, rfl⟩ := List.mem_map.mp hp
      exact hne other hother (heq.trans (List.mem_singleton.mp hq))
    · intro other hother slot hfind
      rw [hrows] at hfind
      rw [hlive, List.mem_append, List.mem_singleton] at hother
      rcases hother with hother | rfl
      · exact h.apart other hother slot hfind
      · exact absurd (h.rowsKnown _ slot hfind) (not_le.mpr hfresh)
  refine ⟨hshelved, ?_, ?_, ?_, ?_, hviews ▸ h.begun⟩
  · rw [hlive, hresident, hviews]
    refine List.rel_append h.residents (.cons ⟨rfl, hbudgeted, ?_⟩ .nil)
    exact fun hd => absurd hd Bool.false_ne_true
  · rw [hrows, hviews]
    exact h.slots
  · intro other hother
    rw [hlive, List.mem_append, List.mem_singleton] at hother
    rw [hlast]
    rcases hother with hother | rfl
    · exact (h.liveKnown other hother).trans hfresh.le
    · exact le_rfl
  · intro p slot hfind
    rw [hrows] at hfind
    rw [hlast]
    exact (h.rowsKnown p slot hfind).trans hfresh.le

theorem eraseRow (h : Agrees b eager) (index : ℕ) : Agrees (b.eraseRow index) eager := by
  have hwoken := h.wakeResident index
  refine ⟨⟨?_, ?_, hwoken.sorted, hwoken.keyed, ?_⟩, Aligned.eraseIdx hwoken.residents index,
    hwoken.slots, ?_, hwoken.rowsKnown, hwoken.begun⟩
  · exact (Aligned.eraseIdx hwoken.residents index).length_eq
  · exact hwoken.distinct.sublist ((List.eraseIdx_sublist _ _).map _)
  · exact fun row hrow => hwoken.apart row (List.mem_of_mem_eraseIdx hrow)
  · exact fun row hrow => hwoken.liveKnown row (List.mem_of_mem_eraseIdx hrow)

theorem awake_wakeResident (h : Agrees b eager) {index : ℕ} {m : ResidentMeta}
    (hm : (b.wakeResident index).resident[index]? = some m) : m.dormant = false := by
  have hlength := h.residents.length_eq
  unfold BookSpill.wakeResident at hm
  split at hm
  · rename_i row before hrow hbefore
    split at hm
    · dsimp only at hm
      rw [List.getElem?_set_self', hbefore] at hm
      exact Option.some.inj hm ▸ rfl
    · rename_i hawake
      rw [hbefore, Option.some.injEq] at hm
      exact hm ▸ eq_false_of_ne_true hawake
  · rename_i hnone
    have hlt := (List.getElem?_eq_some_iff.mp hm).1
    exact absurd hm (hnone _ m (List.getElem?_eq_getElem (hlength ▸ hlt)))

theorem repriceRow (h : Agrees b eager) {index : ℕ} {row : LiveRequest Float}
    (hfresh : b.lastPriority < row.priority) (hbudgeted : Budgeted row) :
    Agrees (b.repriceRow index row) eager := by
  refine (h.eraseRow index).append ?_ hbudgeted rfl rfl rfl rfl rfl
  show (b.wakeResident index).lastPriority < row.priority
  rw [(wakeResident_frame b index).2.2]
  exact hfresh

/-- A resident row may change. -/
theorem updateRow (h : Agrees b eager) {index : ℕ} {row : LiveRequest Float}
    (hpriority : b.live[index]?.map (·.priority) = some row.priority) (hbudgeted : Budgeted row) :
    Agrees (b.updateRow index row) eager := by
  have hwoken := h.wakeResident index
  obtain ⟨old, hold, hsame⟩ := Option.map_eq_some_iff.mp hpriority
  rw [← (wakeResident_frame b index).1] at hold
  have hmap : ((b.wakeResident index).live.set index row).map (·.priority)
      = (b.wakeResident index).live.map (·.priority) := by
    rw [List.map_set, ← hsame]
    refine List.ext_getElem? fun j => ?_
    by_cases hj : j = index
    · subst hj
      rw [List.getElem?_set_self', List.getElem?_map, hold]
      rfl
    · rw [List.getElem?_set_ne (Ne.symm hj)]
  have hin : ∀ {other}, other ∈ (b.wakeResident index).live.set index row →
      ∃ before ∈ (b.wakeResident index).live, before.priority = other.priority := by
    intro other hother
    have := List.mem_map_of_mem (f := (·.priority)) hother
    rw [hmap] at this
    exact List.mem_map.mp this
  refine ⟨⟨?_, hmap ▸ hwoken.distinct, hwoken.sorted, hwoken.keyed, ?_⟩, ?_, hwoken.slots, ?_,
    hwoken.rowsKnown, hwoken.begun⟩
  · exact List.length_set.trans hwoken.lengths
  · intro other hother slot hfind
    obtain ⟨before, hbefore, heq⟩ := hin hother
    exact hwoken.apart before hbefore slot (heq ▸ hfind)
  · refine Aligned.set_left hwoken.residents fun m hm => ⟨?_, hbudgeted, fun hd => ?_⟩
    · exact (Aligned.get? hwoken.residents hold hm).priority.trans hsame
    · rw [h.awake_wakeResident hm] at hd
      exact absurd hd Bool.false_ne_true
  · intro other hother
    obtain ⟨before, hbefore, heq⟩ := hin hother
    exact heq ▸ hwoken.liveKnown before hbefore

theorem lastPriority_makeBookRoom (b : BookSpill) (rebuild : Bool) :
    (b.makeBookRoom rebuild).lastPriority = b.lastPriority := by
  have hrounds : ∀ n (b : BookSpill), (BookSpill.spillRounds n b).lastPriority
      = b.lastPriority := by
    intro n
    induction n with
    | zero => exact fun b => rfl
    | succ n ih => exact fun b => (ih _).trans (spillAt_views b _).2
  unfold BookSpill.makeBookRoom
  split
  · rfl
  · rw [hrounds]
    split <;> rfl

theorem pushRow (h : Agrees b eager) {row : LiveRequest Float} {rebuild : Bool}
    (hfresh : b.lastPriority < row.priority) (hbudgeted : Budgeted row) :
    Agrees (b.pushRow row rebuild) eager := by
  refine (h.makeBookRoom rebuild).append ?_ hbudgeted rfl rfl rfl rfl rfl
  rw [lastPriority_makeBookRoom]
  exact hfresh

/-- A spilled row may change. -/
theorem rewriteSlot (h : Agrees b eager) {p : ℕ} {row : LiveRequest Float}
    (hpriority : row.priority = p) (hbudgeted : Budgeted row) :
    Agrees (b.rewriteSlot p row) eager := by
  unfold BookSpill.rewriteSlot
  split
  · rename_i slot hfind
    split
    · rename_i hactive
      rw [Bool.and_eq_true, Option.isNone_iff_eq_none] at hactive
      refine ⟨⟨h.lengths, h.distinct, h.sorted.put _ _, ?_, ?_⟩, h.residents, ?_, h.liveKnown, ?_,
        h.begun⟩
      · intro q slot' hfind' halive'
        rw [Assoc.find_put] at hfind'
        split at hfind'
        · rename_i hq
          rw [← Option.some.inj hfind']
          exact hpriority.trans hq.symm
        · exact h.keyed q slot' hfind' halive'
      · intro other hother slot' hfind'
        rw [Assoc.find_put_ne (h.find_ne hother hfind hactive.1).symm] at hfind'
        exact h.apart other hother slot' hfind'
      · intro q slot' hfind' halive'
        rw [Assoc.find_put] at hfind'
        split at hfind'
        · rw [← Option.some.inj hfind']
          refine ⟨hbudgeted, fun cls hcls => ?_⟩
          dsimp only at hcls
          rw [hactive.2] at hcls
          cases hcls
        · exact h.slots q slot' hfind' halive'
      · intro q slot' hfind'
        rw [Assoc.find_put] at hfind'
        split at hfind'
        · rename_i hq
          exact hq ▸ h.rowsKnown p slot hfind
        · exact h.rowsKnown q slot' hfind'
    · exact h
  · exact h

/-! ## Waking by price -/

theorem indexFailed (h : Agrees b eager) : Agrees b.indexFailed eager :=
  h.congr rfl rfl rfl rfl rfl

theorem wakeNext (h : Agrees b eager) {context : EvaluationContext} {tag : Fin 256}
    {lo hi delta : Float} {rebuild : Bool}
    (hnext : b.wakeNext context tag lo hi delta rebuild = some b') : Agrees b' eager := by
  unfold BookSpill.wakeNext at hnext
  split at hnext
  · cases hnext
  split at hnext
  · cases hnext
  split at hnext
  · cases hnext
  split at hnext
  · cases hnext
  split at hnext
  · split at hnext
    · split at hnext
      · exact Option.some.inj hnext ▸ h.indexFailed
      · exact Option.some.inj hnext ▸ h.wakeResident _
    · exact Option.some.inj hnext ▸ h.indexFailed
  · split at hnext
    · rename_i promoted hpromote
      exact Option.some.inj hnext ▸ h.promote hpromote
    · exact Option.some.inj hnext ▸ h.indexFailed

theorem wakeList (h : Agrees b eager) (context : EvaluationContext) (tag : Fin 256)
    (lo hi delta : Float) (rebuild : ℕ → Bool) (n : ℕ) :
    Agrees (BookSpill.wakeList context tag lo hi delta rebuild n b) eager := by
  induction n generalizing b with
  | zero => exact h
  | succ n ih =>
    unfold BookSpill.wakeList
    split
    · exact h
    · rename_i next hnext
      exact ih (h.wakeNext hnext)

theorem wakeByPrice (h : Agrees b eager) (context : EvaluationContext) (lo hi delta : Float)
    (rebuild : ℕ → Bool) : Agrees (b.wakeByPrice context lo hi delta rebuild) eager := by
  unfold BookSpill.wakeByPrice
  generalize BookSpill.wakeLists = lists
  induction lists generalizing b with
  | nil => exact h
  | cons list lists ih =>
    refine ih ?_
    dsimp only
    split
    · exact h.wakeList context _ lo hi delta rebuild _
    · exact h

/-! ## Points -/

theorem resettle (h : Agrees b eager) {eager' : Eager}
    (hresidents : List.Forall₂ (ResidentOk b'.views eager') b'.live b'.resident)
    (hpriority : b'.live.map (·.priority) = b.live.map (·.priority)) (hrows : b'.rows = b.rows)
    (hslots : ∀ p slot, Assoc.find p b.rows = some slot → slot.alive = true →
      SlotOk b.views eager p slot → SlotOk b'.views eager' p slot)
    (hbegun : ∀ cls, (b'.views cls).inProgress = true → 0 < (b'.views cls).seq)
    (hlast : b'.lastPriority = b.lastPriority) : Agrees b' eager' := by
  have hin : ∀ {other}, other ∈ b'.live → ∃ before ∈ b.live, before.priority = other.priority := by
    intro other hother
    have := List.mem_map_of_mem (f := (·.priority)) hother
    rw [hpriority] at this
    exact List.mem_map.mp this
  refine ⟨⟨hresidents.length_eq, hpriority ▸ h.distinct, hrows ▸ h.sorted, hrows ▸ h.keyed, ?_⟩,
    hresidents, ?_, ?_, ?_, hbegun⟩
  · intro other hother slot hfind
    obtain ⟨before, hbefore, heq⟩ := hin hother
    rw [hrows] at hfind
    exact h.apart before hbefore slot (heq ▸ hfind)
  · intro p slot hfind halive
    rw [hrows] at hfind
    exact hslots p slot hfind halive (h.slots p slot hfind halive)
  · intro other hother
    obtain ⟨before, hbefore, heq⟩ := hin hother
    rw [hlast]
    exact heq ▸ h.liveKnown before hbefore
  · rw [hrows, hlast]
    exact h.rowsKnown

end Agrees

theorem beginClass_cases (b : BookSpill) (context : EvaluationContext) (cls : RowClass) :
    (b.beginClass context cls = (b, true) ∧ (classPermitted context cls = false ∨
        (b.reg cls).cur = context.cursor.point.ordinal)) ∨
      b.beginClass context cls = (b.indexFailed, false) ∨
      ∃ epoch, classPermitted context cls = true ∧
        (b.reg cls).cur ≠ context.cursor.point.ordinal ∧
        b.beginClass context cls = ({ b with
          reg := Function.update b.reg cls ((b.reg cls).begun context.cursor.point.ordinal)
          epoch }, true) := by
  unfold BookSpill.beginClass BookSpill.setReg
  dsimp only
  split
  · rename_i hskip
    exact Or.inl ⟨rfl, hskip⟩
  rename_i hbegins
  rw [not_or, Bool.not_eq_false] at hbegins
  split
  · exact Or.inr (Or.inl rfl)
  split
  · exact Or.inr (Or.inl rfl)
  split
  · exact Or.inr (Or.inr ⟨_, hbegins.1, hbegins.2, rfl⟩)
  · exact Or.inr (Or.inr ⟨_, hbegins.1, hbegins.2, rfl⟩)

theorem beginClass_frame (b : BookSpill) (context : EvaluationContext) (cls : RowClass) :
    (b.beginClass context cls).1.live = b.live ∧
      (b.beginClass context cls).1.resident = b.resident ∧
      ∀ cls', cls' ≠ cls → (b.beginClass context cls).1.reg cls' = b.reg cls' := by
  rcases beginClass_cases b context cls with ⟨hsame, -⟩ | hfails | ⟨epoch, -, -, hbegun⟩
  · rw [hsame]
    exact ⟨rfl, rfl, fun _ _ => rfl⟩
  · rw [hfails]
    exact ⟨rfl, rfl, fun _ _ => rfl⟩
  · rw [hbegun]
    exact ⟨rfl, rfl, fun _ hne => Function.update_of_ne hne _ _⟩

theorem cur_beginClass {b begun : BookSpill} {context : EvaluationContext} {cls : RowClass}
    (hpermitted : classPermitted context cls = true)
    (hbegun : b.beginClass context cls = (begun, true)) :
    (begun.reg cls).cur = context.cursor.point.ordinal := by
  rcases beginClass_cases b context cls with ⟨hsame, hskip⟩ | hfails | ⟨epoch, -, -, hnew⟩
  · rw [hsame] at hbegun
    obtain ⟨rfl, -⟩ := Prod.mk.inj hbegun
    refine hskip.resolve_left ?_
    rw [hpermitted]
    exact Bool.false_ne_true ∘ Eq.symm
  · rw [hfails] at hbegun
    cases hbegun
  · rw [hnew] at hbegun
    obtain ⟨rfl, -⟩ := Prod.mk.inj hbegun
    show (Function.update b.reg cls _ cls).cur = _
    rw [Function.update_self]
    rfl

theorem poison_beginClass {b begun : BookSpill} {context : EvaluationContext} {cls : RowClass}
    (hbegun : b.beginClass context cls = (begun, false)) : begun.poison = true := by
  rcases beginClass_cases b context cls with ⟨hsame, -⟩ | hfails | ⟨epoch, -, -, hnew⟩
  · rw [hsame] at hbegun
    cases hbegun
  · rw [hfails] at hbegun
    exact (Prod.mk.inj hbegun).1 ▸ rfl
  · rw [hnew] at hbegun
    cases hbegun

/-- What the begin of a point makes of a register. -/
structure Begins (v v' : SweepView) : Prop where
  idle : v.inProgress = false
  seq : v'.seq = v.seq + 1
  prev : v'.prev = v.cur
  W : v'.W = 0
  inProgress : v'.inProgress = true

theorem Begins.settled {v v' : SweepView} (h : Begins v v') {p : ℕ} {s : Sleeper}
    (hsettled : Settled v p s) : Settled v' p s := by
  refine Or.inr ⟨h.inProgress, h.W ▸ Nat.zero_le p, ?_⟩
  rw [h.prev]
  rcases hsettled with hcur | hpending
  · exact hcur
  · rw [h.idle] at hpending
    exact absurd hpending.1 Bool.false_ne_true

theorem Begins.stamped {v v' : SweepView} (h : Begins v v') {p : ℕ} {slot : BookSlot} {s : Sleeper}
    (hstamped : Stamped v p slot s) : Stamped v' p slot s := by
  have hle := hstamped.le
  have hseq := h.seq
  refine ⟨h.settled hstamped.settled, hstamped.evaluates, by omega, ?_, ?_, ?_⟩
  · intro hseen
    omega
  · intro _ _ hstamp
    exact (hstamped.seen (by omega)).2
  · intro _ _ hstamp
    rw [h.prev]
    rcases hstamped.settled with hcur | hpending
    · exact hcur
    · rw [h.idle] at hpending
      exact absurd hpending.1 Bool.false_ne_true

namespace Agrees

variable {b b' : BookSpill} {eager : Eager}

theorem begins (h : Agrees b eager) (hlive : b'.live = b.live)
    (hresident : b'.resident = b.resident)
    (hrows : b'.rows = b.rows) (hlast : b'.lastPriority = b.lastPriority)
    (hviews : ∀ cls, b'.views cls = b.views cls ∨ Begins (b.views cls) (b'.views cls)) :
    Agrees b' eager := by
  refine h.resettle ?_ (by rw [hlive]) hrows ?_ ?_ hlast
  · rw [hlive, hresident]
    refine h.residents.imp fun row m hok => ⟨hok.priority, hok.budgeted, fun hdormant => ?_⟩
    obtain ⟨s, heager, hs, hinitial, hallowance, hevaluates, hsettled⟩ := hok.asleep hdormant
    refine ⟨s, heager, hs, hinitial, hallowance, hevaluates, ?_⟩
    rcases hviews m.cls with hsame | hbegins
    · exact hsame ▸ hsettled
    · exact hbegins.settled hsettled
  · intro p slot _ _ hok
    refine ⟨hok.budgeted, fun cls hcls => ?_⟩
    obtain ⟨s, heager, hs, hstamped⟩ := hok.asleep cls hcls
    refine ⟨s, heager, hs, ?_⟩
    rcases hviews cls with hsame | hbegins
    · exact hsame ▸ hstamped
    · exact hbegins.stamped hstamped
  · intro cls
    rcases hviews cls with hsame | hbegins
    · rw [hsame]
      exact h.begun cls
    · rw [hbegins.seq]
      exact fun _ => Nat.succ_pos _

theorem beginClass (h : Agrees b eager) {context : EvaluationContext} {cls : RowClass}
    (hfinished : classPermitted context cls = true →
      (b.reg cls).cur ≠ context.cursor.point.ordinal → (b.reg cls).inProgress = false) :
    Agrees (b.beginClass context cls).1 eager := by
  rcases beginClass_cases b context cls with ⟨hsame, -⟩ | hfails | ⟨epoch, hpermitted, hcur, hbegun⟩
  · rw [hsame]
    exact h
  · rw [hfails]
    exact h.indexFailed
  · rw [hbegun]
    refine h.begins rfl rfl rfl rfl fun cls' => ?_
    show (Function.update b.reg cls _ cls').view = _ ∨
      Begins _ (Function.update b.reg cls _ cls').view
    by_cases hcls : cls' = cls
    · subst hcls
      rw [Function.update_self]
      exact Or.inr ⟨hfinished hpermitted hcur, rfl, rfl, rfl, rfl⟩
    · rw [Function.update_of_ne hcls]
      exact Or.inl rfl

theorem beginPoint (h : Agrees b eager) {context : EvaluationContext}
    (hfinished : Finished b context) : Agrees (b.beginPoint context) eager := by
  have hlimit := h.beginClass (hfinished .limit)
  unfold BookSpill.beginPoint
  split
  · rename_i begun hbegun
    rw [hbegun] at hlimit
    refine hlimit.beginClass ?_
    have hother := (beginClass_frame b context .limit).2.2 .other (by decide)
    rw [hbegun] at hother
    rw [hother]
    exact hfinished .other
  · rename_i begun hbegun
    rw [hbegun] at hlimit
    exact hlimit

end Agrees

/-- What a sweep makes of a register, at a priority that it passes or not. -/
structure Sweeps (v v' : SweepView) (p : ℕ) (passed : Prop) : Prop where
  seq : v'.seq = v.seq
  cur : v'.cur = v.cur
  prev : v'.prev = v.prev
  pending : v'.inProgress = true ∧ v'.W ≤ p ↔ (v.inProgress = true ∧ v.W ≤ p) ∧ ¬passed

/-- A sweep gives the allowance of the point to the rows it passes for the first time. -/
theorem sweptAllowance_of_settled {r : SweepRegister} {priority p : ℕ} {finish : Bool} {s : Sleeper}
    (hsettled : Settled r.view p s) :
    BookSpill.sweptAllowance r priority finish p s.initial s.allowance =
      if (r.inProgress = true ∧ r.W ≤ p) ∧ (finish = true ∨ p < priority) then
        .units r.cur s.initial s.initial
      else s.allowance := by
  have hunits : ∃ point, s.allowance = .units point s.initial s.initial := by
    rcases hsettled with hcur | hpending
    · exact ⟨_, hcur⟩
    · exact ⟨_, hpending.2.2⟩
  obtain ⟨point, hpoint⟩ := hunits
  unfold BookSpill.sweptAllowance
  rw [hpoint]
  by_cases hpass : (r.inProgress = true ∧ r.W ≤ p) ∧ (finish = true ∨ p < priority)
  · rw [if_pos hpass]
    split
    · rename_i hskip
      rcases hskip with hidle | hlow | hhigh | hcurrent
      · rw [hpass.1.1] at hidle
        exact absurd hidle (Bool.false_ne_true ∘ Eq.symm)
      · exact absurd hlow (not_lt.mpr hpass.1.2)
      · rcases hpass.2 with hfinish | hlt
        · rw [hhigh.1] at hfinish
          exact absurd hfinish Bool.false_ne_true
        · exact absurd hhigh.2 (not_le.mpr hlt)
      · rw [of_decide_eq_true hcurrent]
    · rfl
  · rw [if_neg hpass, if_pos]
    by_contra hskip
    simp only [not_or, not_and, Bool.not_eq_false, not_lt, not_le] at hskip
    refine hpass ⟨⟨hskip.1, hskip.2.1⟩, ?_⟩
    cases hfinish : finish with
    | true => exact Or.inl rfl
    | false => exact Or.inr (hskip.2.2.1 hfinish)

namespace Sweeps

variable {r : SweepRegister} {v' : SweepView} {p priority : ℕ} {finish : Bool} {s : Sleeper}

theorem settled (h : Sweeps r.view v' p (finish = true ∨ p < priority))
    (hsettled : Settled r.view p s) : Settled v' p (s.swept r priority finish p) := by
  unfold Settled Sleeper.swept
  dsimp only
  rw [sweptAllowance_of_settled hsettled, h.cur, h.prev]
  split
  · exact Or.inl rfl
  · rename_i hpass
    rcases hsettled with hcur | hpending
    · exact Or.inl hcur
    · have hpending' := h.pending.mpr
        ⟨⟨hpending.1, hpending.2.1⟩, fun hp => hpass ⟨⟨hpending.1, hpending.2.1⟩, hp⟩⟩
      exact Or.inr ⟨hpending'.1, hpending'.2, hpending.2.2⟩

theorem stamped (h : Sweeps r.view v' p (finish = true ∨ p < priority)) {slot : BookSlot}
    (hstamped : Stamped r.view p slot s) : Stamped v' p slot (s.swept r priority finish p) := by
  have hswept : ¬((r.inProgress = true ∧ r.W ≤ p) ∧ (finish = true ∨ p < priority)) →
      (s.swept r priority finish p).allowance = s.allowance := fun hpass =>
    (sweptAllowance_of_settled hstamped.settled).trans (if_neg hpass)
  refine ⟨h.settled hstamped.settled, hstamped.evaluates, h.seq ▸ hstamped.le, ?_, ?_, ?_⟩
  · intro hseen
    obtain ⟨hpassed, hallowance⟩ := hstamped.seen (h.seq ▸ hseen)
    have hdone : ¬(r.inProgress = true ∧ r.W ≤ p) := fun hpending =>
      absurd (hpassed hpending.1) (not_lt.mpr hpending.2)
    refine ⟨fun hprogress => ?_, hallowance.trans (hswept fun hpass => hdone hpass.1).symm⟩
    by_contra hlt
    exact hdone (h.pending.mp ⟨hprogress, not_lt.mp hlt⟩).1
  · intro hprogress hW hstamp
    obtain ⟨hpending, hpass⟩ := h.pending.mp ⟨hprogress, hW⟩
    exact (hstamped.last hpending.1 hpending.2 (h.seq ▸ hstamp)).trans
      (hswept fun hboth => hpass hboth.2).symm
  · intro hprogress hW hstamp
    obtain ⟨hpending, hpass⟩ := h.pending.mp ⟨hprogress, hW⟩
    rw [hswept fun hboth => hpass hboth.2, h.prev]
    exact hstamped.older hpending.1 hpending.2 (h.seq ▸ hstamp)

end Sweeps

theorem sweptRow_ok {b : BookSpill} {eager : Eager} {views' : RowClass → SweepView} {priority : ℕ}
    {finish : Bool}
    (hviews : ∀ cls p, Sweeps (b.views cls) (views' cls) p (finish = true ∨ p < priority))
    {row : LiveRequest Float} {m : ResidentMeta} (hok : ResidentOk b.views eager row m)
    {allowance : Allowance Float}
    (hallowance : m.dormant = true → allowance
      = BookSpill.sweptAllowance (b.reg m.cls) priority finish
      m.priority m.initial row.allowance) :
    ResidentOk views' (sweptSleepers b priority finish eager) { row with allowance } m := by
  refine ⟨hok.priority, hok.budgeted, fun hdormant => ?_⟩
  obtain ⟨s, heager, hs, hinitial, hrow, hevaluates, hsettled⟩ := hok.asleep hdormant
  refine ⟨s.swept (b.reg s.cls) priority finish row.priority, ?_, hs, hinitial, ?_, hevaluates, ?_⟩
  · show (eager row.priority).map _ = _
    rw [heager]
    rfl
  · rw [hallowance hdormant, hok.priority, ← hinitial, ← hrow, ← hs]
    rfl
  · rw [hs]
    exact (hviews m.cls row.priority).settled hsettled

/-- One pass over the live rows sweeps each. -/
theorem sweepRows_ok {b : BookSpill} {eager : Eager} {views' : RowClass → SweepView} {priority : ℕ}
    {finish : Bool}
    (hviews : ∀ cls p, Sweeps (b.views cls) (views' cls) p (finish = true ∨ p < priority))
    {rows rows' : List (LiveRequest Float)} {metas : List ResidentMeta}
    (h : List.Forall₂ (ResidentOk b.views eager) rows metas) {epoch epoch' : ℕ}
    (hsweep : BookSpill.sweepRows b.reg priority finish epoch metas rows = some (epoch', rows')) :
    List.Forall₂ (ResidentOk views' (sweptSleepers b priority finish eager)) rows' metas ∧
      rows'.map (·.priority) = rows.map (·.priority) := by
  induction h generalizing epoch epoch' rows' with
  | nil =>
    rw [BookSpill.sweepRows, Option.some.injEq, Prod.mk.injEq] at hsweep
    · rw [← hsweep.2]
      exact ⟨.nil, rfl⟩
    · intro _ _ _ _ h
      cases h
  | @cons row m rows metas hok _ ih =>
    unfold BookSpill.sweepRows at hsweep
    dsimp only at hsweep
    split at hsweep
    · rename_i hskip
      obtain ⟨⟨epoch'', rest⟩, hrest, heq⟩ := Option.map_eq_some_iff.mp hsweep
      obtain ⟨hforall, hmap⟩ := ih hrest
      rw [← (Prod.mk.inj heq).2]
      refine ⟨.cons (sweptRow_ok hviews hok fun hdormant => ?_) hforall, ?_⟩
      · unfold BookSpill.sweptAllowance
        rw [if_pos (hskip.resolve_left (by rw [hdormant]; exact Bool.false_ne_true ∘ Eq.symm))]
      · rw [List.map_cons, List.map_cons, hmap]
    · rename_i hskip
      split at hsweep
      · cases hsweep
      · obtain ⟨⟨epoch'', rest⟩, hrest, heq⟩ := Option.map_eq_some_iff.mp hsweep
        obtain ⟨hforall, hmap⟩ := ih hrest
        rw [← (Prod.mk.inj heq).2]
        refine ⟨.cons (sweptRow_ok hviews hok fun _ => ?_) hforall, ?_⟩
        · unfold BookSpill.sweptAllowance
          rw [if_neg fun hrest => hskip (Or.inr hrest)]
        · rw [List.map_cons, List.map_cons, hmap]
          rfl

namespace Agrees

variable {b b' : BookSpill} {eager : Eager}

theorem swept (h : Agrees b eager) {priority : ℕ} {finish : Bool} {epoch epoch' : ℕ}
    (hsweep : BookSpill.sweepRows b.reg priority finish epoch b.resident b.live
      = some (epoch', b'.live))
    (hviews : ∀ cls p, Sweeps (b.views cls) (b'.views cls) p (finish = true ∨ p < priority))
    (hprogress : ∀ cls, (b'.views cls).inProgress = true → (b.views cls).inProgress = true)
    (hresident : b'.resident = b.resident) (hrows : b'.rows = b.rows)
    (hlast : b'.lastPriority = b.lastPriority) :
    Agrees b' (sweptSleepers b priority finish eager) := by
  obtain ⟨hresidents, hmap⟩ := sweepRows_ok hviews h.residents hsweep
  refine h.resettle (by rw [hresident]; exact hresidents) hmap hrows ?_ ?_ hlast
  · intro p slot _ _ hok
    refine ⟨hok.budgeted, fun cls hcls => ?_⟩
    obtain ⟨s, heager, hs, hstamped⟩ := hok.asleep cls hcls
    refine ⟨s.swept (b.reg s.cls) priority finish p, ?_, hs, ?_⟩
    · show (eager p).map _ = _
      rw [heager]
      rfl
    · rw [hs]
      exact (hviews cls p).stamped hstamped
  · intro cls hcls
    rw [(hviews cls 0).seq]
    exact h.begun cls (hprogress cls hcls)

theorem sweptSleepers_idle (hidle : ∀ cls, (b.reg cls).inProgress = false) (priority : ℕ)
    (finish : Bool) : sweptSleepers b priority finish eager = eager := by
  have hswept : ∀ (s : Sleeper) p, s.swept (b.reg s.cls) priority finish p = s := by
    intro s p
    unfold Sleeper.swept BookSpill.sweptAllowance
    rw [if_pos (Or.inl (hidle s.cls))]
  funext p
  unfold sweptSleepers
  simp only [hswept]
  exact Option.map_id'

theorem all_idle (h : (RowClass.all.all fun cls => !(b.reg cls).inProgress) = true)
    (cls : RowClass) :
    (b.reg cls).inProgress = false := by
  have hall := List.all_eq_true.mp h cls (by cases cls <;> decide)
  simpa using hall

theorem advance (h : Agrees b eager) {priority : ℕ} (hstep : b.advance priority = some b') :
    Agrees b' (sweptSleepers b priority false eager) := by
  unfold BookSpill.advance BookSpill.sweep at hstep
  split at hstep
  · rename_i hidle
    rw [sweptSleepers_idle (all_idle hidle), ← Option.some.inj hstep]
    exact h
  · obtain ⟨⟨epoch, rows⟩, hrows, heq⟩ := Option.map_eq_some_iff.mp hstep
    subst heq
    refine h.swept hrows ?_ ?_ rfl rfl rfl
    · intro cls p
      unfold BookSpill.views BookSpill.sweptRegister
      dsimp only
      split
      · rename_i hprogress
        refine ⟨rfl, rfl, rfl, ?_⟩
        show (b.reg cls).inProgress = true ∧ max (b.reg cls).W priority ≤ p ↔
          ((b.reg cls).inProgress = true ∧ (b.reg cls).W ≤ p) ∧ _
        simp only [max_le_iff, Bool.false_eq_true, false_or, not_lt]
        tauto
      · rename_i hidle
        exact ⟨rfl, rfl, rfl, iff_of_false (fun h => hidle h.1) fun h => hidle h.1.1⟩
    · intro cls
      unfold BookSpill.views BookSpill.sweptRegister
      dsimp only
      split
      · exact id
      · exact id

theorem complete (h : Agrees b eager) (hstep : b.complete = some b') :
    Agrees b' (sweptSleepers b u64Max true eager) := by
  unfold BookSpill.complete BookSpill.sweep at hstep
  split at hstep
  · rename_i hidle
    rw [sweptSleepers_idle (all_idle hidle)]
    rw [Option.map_some, Option.some.injEq] at hstep
    subst hstep
    refine h.congr rfl rfl rfl ?_ rfl
    funext cls
    show SweepView.mk _ _ _ _ false = SweepView.mk _ _ _ _ _
    rw [all_idle hidle cls]
  · rw [Option.map_map] at hstep
    obtain ⟨⟨epoch, rows⟩, hrows, heq⟩ := Option.map_eq_some_iff.mp hstep
    subst heq
    refine h.swept hrows ?_ ?_ rfl rfl rfl
    · intro cls p
      unfold BookSpill.views BookSpill.sweptRegister
      dsimp only [Function.comp]
      split
      · exact ⟨rfl, rfl, rfl, iff_of_false (fun h => Bool.false_ne_true h.1) fun h =>
          h.2 (Or.inl rfl)⟩
      · exact ⟨rfl, rfl, rfl, iff_of_false (fun h => Bool.false_ne_true h.1) fun h =>
          h.2 (Or.inl rfl)⟩
    · intro cls hcls
      exact absurd hcls Bool.false_ne_true

end Agrees

/-! ## Joins -/

theorem evaluates_of_dormantClass {row : LiveRequest Float} {spec : DormantSpec}
    (h : dormantClass row = some spec) : Evaluates row spec.initial := by
  obtain ⟨q, hq, -, hzero⟩ := dormantClass_spec h
  intro point
  unfold evaluatedAllowance initializeAllowance at hzero ⊢
  rw [hq] at hzero ⊢
  dsimp only at hzero ⊢
  split at hzero
  · rw [(Allowance.units.inj hzero).2.1]
  · rw [(Allowance.units.inj hzero).2.1]

theorem initial_pos {row : LiveRequest Float} {spec : DormantSpec}
    (h : dormantClass row = some spec) (hbudgeted : Budgeted row) : 0.0 < spec.initial := by
  obtain ⟨q, hq, hpos, hzero⟩ := dormantClass_spec h
  unfold evaluatedAllowance initializeAllowance at hzero
  unfold Budgeted at hbudgeted
  rw [hq] at hzero
  dsimp only at hzero
  split at hzero
  · rw [← (Allowance.units.inj hzero).2.1]
    exact hpos
  · rename_i units hcapacity
    rw [hcapacity] at hbudgeted
    rw [← (Allowance.units.inj hzero).2.1]
    unfold Arith.cmin
    split
    · have hunits := (of_decide_eq_true hbudgeted).2
      have hzero : (0 : Float) = 0.0 := by decide +kernel
      exact hzero ▸ hunits
    · exact hpos

theorem joinable_allowance {row : LiveRequest Float} {spec : DormantSpec}
    {context : EvaluationContext} {lo hi delta : Float}
    (h : BookSpill.joinable row spec context lo hi delta = true) (hpos : 0.0 < spec.initial) :
    classPermitted context spec.cls = true ∧
      row.allowance = .units context.cursor.point.ordinal spec.initial spec.initial := by
  unfold BookSpill.joinable at h
  simp only [Bool.and_eq_true] at h
  obtain ⟨hchecks, hsettled⟩ := h
  refine ⟨hchecks.1.1.1.1.1.1.1, ?_⟩
  split at hsettled
  · rename_i point initial left hallowance
    simp only [Bool.and_eq_true, decide_eq_true_eq] at hsettled
    rw [hallowance, hsettled.1.1, eq_of_beq_pos hsettled.1.2 hpos, eq_of_beq_pos hsettled.2 hpos]
  · exact absurd hsettled Bool.false_ne_true

theorem beginPoint_frame (b : BookSpill) (context : EvaluationContext) :
    (b.beginPoint context).live = b.live ∧ (b.beginPoint context).resident = b.resident := by
  have hlimit := beginClass_frame b context .limit
  unfold BookSpill.beginPoint
  split
  · rename_i begun hbegun
    rw [hbegun] at hlimit
    have hother := beginClass_frame begun context .other
    exact ⟨hother.1.trans hlimit.1, hother.2.1.trans hlimit.2.1⟩
  · rename_i begun hbegun
    rw [hbegun] at hlimit
    exact ⟨hlimit.1, hlimit.2.1⟩

/-- Unless the book gives up, a class that may run has the point as its current one. -/
theorem cur_beginPoint {b : BookSpill} {context : EvaluationContext} {cls : RowClass}
    (hpermitted : classPermitted context cls = true)
    (hpoison : (b.beginPoint context).poison = false) :
    ((b.beginPoint context).reg cls).cur = context.cursor.point.ordinal := by
  unfold BookSpill.beginPoint at hpoison ⊢
  split at hpoison
  · rename_i begun hbegun
    cases cls with
    | limit =>
      rw [(beginClass_frame begun context .other).2.2 .limit (by decide)]
      exact cur_beginClass hpermitted hbegun
    | other =>
      cases hother : begun.beginClass context .other with
      | mk last ok =>
        rw [hother] at hpoison
        cases ok with
        | true => exact cur_beginClass hpermitted hother
        | false =>
          rw [poison_beginClass hother] at hpoison
          cases hpoison
  · rename_i begun hbegun
    rw [poison_beginClass hbegun] at hpoison
    cases hpoison

namespace Agrees

variable {b b' : BookSpill} {eager : Eager}

theorem markDormant (h : Agrees b eager) {index : ℕ} {row : LiveRequest Float} {m : ResidentMeta}
    {spec : DormantSpec} (hrow : b.live[index]? = some row) (hm : b.resident[index]? = some m)
    (hevaluates : Evaluates row spec.initial)
    (hallowance : row.allowance = .units (b.reg spec.cls).cur spec.initial spec.initial) :
    Agrees (b.markDormant index row spec)
      (Function.update eager row.priority (some ⟨spec.cls, spec.initial, row.allowance⟩)) := by
  have hviews : (b.markDormant index row spec).views = b.views := views_update b spec.cls rfl
  have hmem := List.mem_of_getElem? hrow
  refine h.resettle ?_ rfl rfl ?_ (hviews ▸ h.begun) rfl
  · rw [hviews]
    refine Aligned.set h.residents ?_ ?_
    · intro a ha
      rw [hrow, Option.some.injEq] at ha
      subst ha
      refine ⟨rfl, (Aligned.get? h.residents hrow hm).budgeted, fun _ => ?_⟩
      exact ⟨_, Function.update_self _ _ _, rfl, rfl, rfl, hevaluates, Or.inl hallowance⟩
    · intro j a m' hj ha hm'
      have hok := Aligned.get? h.residents ha hm'
      have hne : a.priority ≠ row.priority :=
        fun heq => hj (Aligned.eq_of_get? h.distinct ha hrow heq)
      refine ⟨hok.priority, hok.budgeted, fun hdormant => ?_⟩
      rw [Function.update_of_ne hne]
      exact hok.asleep hdormant
  · intro p slot hfind halive hok
    rw [hviews]
    refine ⟨hok.budgeted, fun cls hcls => ?_⟩
    rw [Function.update_of_ne (h.find_ne hmem hfind halive)]
    exact hok.asleep cls hcls

theorem joined_same (hresident : b'.resident = b.resident) (incarnation : ℕ) :
    joined b b' incarnation = none := by
  unfold joined
  split
  · rfl
  · rw [hresident]
    split
    · rename_i before row after hbefore _ hafter
      rw [hbefore, Option.some.injEq] at hafter
      rw [hafter]
      cases after.dormant <;> rfl
    · rfl

/-- A row joins where the sweep is finished. -/
theorem join (h : Agrees b eager) {incarnation : ℕ} {context : EvaluationContext}
    {lo hi delta : Float} (hfinished : Finished b context) :
    Agrees (b.join incarnation context lo hi delta)
      (Act.eager b (b.join incarnation context lo hi delta) eager
        (.join incarnation context lo hi delta)) := by
  have hsame : ∀ b', Agrees b' eager → b'.resident = b.resident →
      Agrees b' (Act.eager b b' eager (.join incarnation context lo hi delta)) := by
    intro b' hagrees hresident
    unfold Act.eager
    dsimp only
    rw [joined_same hresident]
    exact hagrees
  unfold BookSpill.join
  split
  · exact hsame b h rfl
  split
  · exact hsame b h rfl
  rename_i index hindex
  split
  · rename_i row m hrow hm
    split
    · rename_i spec hspec
      split
      · exact hsame b h rfl
      rename_i hjoins
      simp only [Bool.or_eq_true, Bool.not_eq_true', not_or, Bool.not_eq_true,
        Bool.not_eq_false] at hjoins
      have hbegun := h.beginPoint hfinished
      obtain ⟨hlive, hresident⟩ := beginPoint_frame b context
      dsimp only
      split
      · exact hsame _ hbegun hresident
      · rename_i hindexed
        rw [Bool.or_eq_true, not_or, Bool.not_eq_true] at hindexed
        have hbudgeted := (Aligned.get? h.residents hrow hm).budgeted
        obtain ⟨hpermitted, hallowance⟩ :=
          joinable_allowance hjoins.2 (initial_pos hspec hbudgeted)
        rw [← cur_beginPoint hpermitted hindexed.1] at hallowance
        have hmark := hbegun.markDormant (hlive ▸ hrow) (hresident ▸ hm)
          (evaluates_of_dormantClass hspec) hallowance
        unfold Act.eager
        dsimp only
        have hjoined : joined b ((b.beginPoint context).markDormant index row spec) incarnation
            = some (row.priority, ⟨spec.cls, spec.initial, row.allowance⟩) := by
          unfold joined BookSpill.markDormant
          rw [hindex]
          dsimp only [BookSpill.setReg]
          rw [hm, hlive, hrow, List.getElem?_set_self', hresident, hm]
          dsimp only [Option.map_some, Option.map_eq_map, Function.const]
          rw [hjoins.1]
          rfl
        rw [hjoined]
        exact hmark
    · exact hsame b h rfl
  · exact hsame b h rfl

/-- Each act keeps the book and the eager one in agreement. -/
theorem step (h : Agrees b eager) {act : Act} (hproper : act.Proper b)
    (hstep : act.apply b = some b') : Agrees b' (act.eager b b' eager) := by
  cases act with
  | begin context => exact Option.some.inj hstep ▸ h.beginPoint hproper
  | advance priority => exact h.advance hstep
  | complete => exact h.complete hstep
  | join incarnation context lo hi delta =>
    obtain rfl := Option.some.inj hstep
    exact h.join hproper
  | wake index => exact Option.some.inj hstep ▸ h.wakeResident index
  | wakeByPrice context lo hi delta rebuild =>
    exact Option.some.inj hstep ▸ h.wakeByPrice context lo hi delta rebuild
  | promote incarnation rebuild => exact h.promote hstep
  | makeRoom rebuild => exact Option.some.inj hstep ▸ h.makeBookRoom rebuild
  | compact => exact Option.some.inj hstep ▸ h.compact
  | scope middleSpill => exact Option.some.inj hstep ▸ h.congr rfl rfl rfl rfl rfl
  | push row rebuild => exact Option.some.inj hstep ▸ h.pushRow hproper.1 hproper.2
  | erase index => exact Option.some.inj hstep ▸ h.eraseRow index
  | update index row => exact Option.some.inj hstep ▸ h.updateRow hproper.1 hproper.2
  | reprice index row => exact Option.some.inj hstep ▸ h.repriceRow hproper.1 hproper.2
  | rewrite priority row => exact Option.some.inj hstep ▸ h.rewriteSlot hproper.1 hproper.2
  | attach hasIndex poison failure levelIndex =>
    exact Option.some.inj hstep ▸ h.congr rfl rfl rfl rfl rfl

theorem start (bookMax : ℕ) : Agrees { bookMax } eager where
  lengths := rfl
  residents := .nil
  distinct := List.nodup_nil
  sorted := List.Pairwise.nil
  keyed _ _ hfind := nomatch hfind
  apart _ hrow := nomatch hrow
  slots _ _ hfind := nomatch hfind
  liveKnown _ hrow := nomatch hrow
  rowsKnown _ _ hfind := nomatch hfind
  begun _ hprogress := absurd hprogress Bool.false_ne_true

end Agrees

theorem Reaches.agrees {b : BookSpill} {eager : Eager} (h : Reaches b eager) : Agrees b eager := by
  induction h with
  | start bookMax => exact Agrees.start bookMax
  | step _ hproper hstep ih => exact ih.step hproper hstep

/-- A sleeping row that was spilled reads with the allowance that it would hold had it stayed
resident and been swept at every point. -/
theorem spilled_allowance_eager {b : BookSpill} {eager : Eager} (h : Reaches b eager) {p : ℕ}
    {slot : BookSlot} (hfind : Assoc.find p b.rows = some slot) (halive : slot.alive = true)
    {cls : RowClass} (hdormancy : slot.dormancy = some cls) :
    ∃ s, eager p = some s ∧ s.cls = cls ∧ (b.project slot).allowance = s.allowance :=
  h.agrees.project_allowance hfind halive hdormancy

/-- A limit order for one unit, at the allowance of a point. -/
def limitRow (incarnation point : ℕ) : LiveRequest Float where
  definition := {
    handle := ⟨⟨"s", 1⟩, incarnation⟩
    request := ⟨.transact 1.0, .limit 90.0, .immediateRemaining, .independent, .noGroup, .absolute⟩
    birth := ⟨1, 0⟩ }
  remaining := .units 1.0
  authority := .bookTransaction
  triggerState := .limitReady
  allowance := .units point 1.0 1.0
  pending := .none

/-- A print as the context of a sweep. -/
def printContext (ordinal : ℕ) : EvaluationContext :=
  ⟨⟨⟨ordinal, 0, .observedPrint⟩⟩, .observedPrint, true⟩

/-- The row joins at point 5 and is spilled. -/
def spilledLimit : BookSpill :=
  let pushed := BookSpill.pushRow { bookMax := 1 } (limitRow 1 5) false
  let begun := BookSpill.beginPoint { pushed with hasIndex := true } (printContext 5)
  (begun.join 1 (printContext 5) 100.0 101.0 0.0).makeBookRoom false

theorem spilledLimit_reached : ∃ eager, Reaches spilledLimit eager := by
  have hpush := @Reaches.step _ _ _ (.push (limitRow 1 5) false) (.start 1) ⟨by decide, trivial⟩ rfl
  have hattach := @Reaches.step _ _ _ (.attach true false false []) hpush trivial rfl
  have hbegin := @Reaches.step _ _ _ (.begin (printContext 5)) hattach
    (fun cls _ _ => by cases cls <;> rfl) rfl
  have hjoin := @Reaches.step _ _ _ (.join 1 (printContext 5) 100.0 101.0 0.0) hbegin
    (fun cls _ hcur => by cases cls <;> exact absurd rfl hcur) rfl
  exact ⟨_, @Reaches.step _ _ _ (.makeRoom false) hjoin trivial rfl⟩

theorem spilledLimit_completes : spilledLimit.complete.isSome = true := by decide +kernel

/-- The sweep of point 6 has come by the row. -/
def sweptLimit : Option BookSpill :=
  ((spilledLimit.complete.get spilledLimit_completes).beginPoint (printContext 6)).advance 10

theorem sweptLimit_advances : sweptLimit.isSome = true := by decide +kernel

theorem sweptLimit_reached : ∃ eager, Reaches (sweptLimit.get sweptLimit_advances) eager := by
  obtain ⟨eager, hspilled⟩ := spilledLimit_reached
  have hcomplete := @Reaches.step _ _ _ .complete hspilled trivial
    (Option.some_get spilledLimit_completes).symm
  have hbegin := @Reaches.step _ _ _ (.begin (printContext 6)) hcomplete
    (fun cls _ _ => by cases cls <;> decide +kernel) rfl
  exact ⟨_, @Reaches.step _ _ _ (.advance 10) hbegin trivial
    (Option.some_get sweptLimit_advances).symm⟩

theorem sweptLimit_found :
    (Assoc.find 1 (sweptLimit.get sweptLimit_advances).rows).isSome = true := by
  decide +kernel

theorem spilled_allowance_eager_limit :
    ∃ eager s, Reaches (sweptLimit.get sweptLimit_advances) eager ∧ eager 1 = some s ∧
      ((sweptLimit.get sweptLimit_advances).project (Option.get _ sweptLimit_found)).allowance
        = s.allowance ∧ BookSpill.ofPoint 6 s.allowance = true := by
  obtain ⟨eager, hreached⟩ := sweptLimit_reached
  obtain ⟨s, heager, -, hallowance⟩ := @spilled_allowance_eager _ _ hreached 1 _
    (Option.some_get sweptLimit_found).symm (by decide +kernel) .limit (by decide +kernel)
  refine ⟨eager, s, hreached, heager, hallowance, ?_⟩
  rw [← hallowance]
  decide +kernel

end PineForge.Book
