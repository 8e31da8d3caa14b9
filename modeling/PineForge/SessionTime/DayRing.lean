import Mathlib
import PineForge.SessionTime.Readings
import PineForge.SessionTime.LocalTime

/-!
# The session cache

Thirty-two entries remember session arguments, and each its days in sixty-four slots that a day
shares with every sixty-fourth one. The session clock keeps pointers to slots while it resolves
further days. The days of one reading lie closer together than the ring is long, so no slot that is
pointed to is given to another day (`Inv`), and what is read is what the day's own computation gives
(`Answers`).
-/

namespace PineForge.SessionTime

open Calendar Timeframe

/-! ## Days in a ring -/

/-- What is kept of a day. -/
structure DaySlot where
  day : ℤ
  used : Bool
  windows : Option (List (ℤ × ℤ))
  daySwitch : Option DaySwitch
  occurrences : Option (List WallOccurrence)

/-- An unused slot. -/
def DaySlot.blank : DaySlot := ⟨0, false, none, none, none⟩

/-- Sixty-four slots, by the residue of the day. -/
abbrev Ring := ℤ → DaySlot

/-- A ring of unused slots. -/
def Ring.empty : Ring := fun _ => .blank

/-- The slot of a day. -/
def ringIndex (day : ℤ) : ℤ := (day.tmod 64 + 64).tmod 64

/-- Keep a day in its slot. -/
def keepDay (day : ℤ) (slot : DaySlot) : StateM Ring Unit :=
  modify fun ring => Function.update ring (ringIndex day) slot

/-- The slot of a day; what it holds of another day is dropped. -/
def argCacheDay (day : ℤ) : StateM Ring DaySlot := do
  let ring ← get
  let slot := ring (ringIndex day)
  if slot.used = false ∨ slot.day ≠ day then
    keepDay day { DaySlot.blank with used := true, day }
    return { DaySlot.blank with used := true, day }
  else return slot

section

variable (clock : Clock) (s : ArgSession)

/-- The windows of a day, kept if new. -/
def argDayWindows (day : ℤ) : StateM Ring (List (ℤ × ℤ)) := do
  let slot ← argCacheDay day
  match slot.windows with
  | some ws => return ws
  | none =>
    keepDay day { slot with windows := some (dayWindows clock s day) }
    return dayWindows clock s day

/-- The switch of a day, kept if new. -/
def argDaySwitch (day : ℤ) : StateM Ring DaySwitch := do
  let slot ← argCacheDay day
  match slot.daySwitch with
  | some sw => return sw
  | none =>
    keepDay day { slot with daySwitch := some (findDaySwitch clock day) }
    return findDaySwitch clock day

/-- The occurrences of a day, kept if new. -/
def argDayOccurrences (day : ℤ) : StateM Ring (List WallOccurrence) := do
  let slot ← argCacheDay day
  match slot.occurrences with
  | some os => return os
  | none =>
    let os ← occurrencesOf (argDaySwitch clock) clock (s.trades day) day s.windows
    let kept ← argCacheDay day
    keepDay day { kept with occurrences := some os }
    return os

/-- The occurrences of a day as a reading asks for them: a slot that has them is pointed to, and a
day asked for before is read through its pointer, whatever its slot holds by then. -/
def askOccurrences (day : ℤ) : StateM (Ring × List ℤ) (List WallOccurrence) := do
  let (ring, asked) ← get
  let slot := ring (ringIndex day)
  if day ∈ asked then return slot.occurrences.getD []
  else if slot.used ∧ slot.day = day ∧ slot.occurrences.isSome then
    set (ring, day :: asked)
    return slot.occurrences.getD []
  else
    let (os, ring) := (argDayOccurrences clock s day).run ring
    set (ring, day :: asked)
    return os

/-- The two readings through the ring. -/
def readRing (barMs tfMs : ℤ) (onClock : Bool) (ring : Ring) : Option (ℤ × ℤ) × Ring :=
  if onClock then
    let (bar, ring, _) := (clockIntradayBar (askOccurrences clock s) barMs clock s tfMs).run
      (ring, [])
    (bar, ring)
  else (plainIntradayBar barMs (argDayWindows clock s) clock tfMs).run ring

end

/-! ## Reads that change no answer -/

/-- A computation keeps an invariant of its state and gives values of a kind. -/
def Gives {σ α : Type} (I : σ → Prop) (x : StateM σ α) (P : α → Prop) : Prop :=
  ∀ st, I st → P (x.run st).1 ∧ I (x.run st).2

/-- It gives one answer. -/
def Answers {σ α : Type} (I : σ → Prop) (x : StateM σ α) (v : α) : Prop := Gives I x (· = v)

section

variable {σ α β : Type} {I : σ → Prop}

theorem Gives.bind {x : StateM σ α} {f : α → StateM σ β} {P : α → Prop} {Q : β → Prop}
    (hx : Gives I x P)
    (hf : ∀ a, P a → Gives I (f a) Q) : Gives I (x >>= f) Q := by
  intro st hst
  obtain ⟨hval, hinv⟩ := hx st hst
  exact hf _ hval _ hinv

theorem Answers.pure (v : α) : Answers I (Pure.pure v) v := fun _ hst => ⟨rfl, hst⟩

theorem Answers.bind {x : StateM σ α} {f : α → StateM σ β} {v : α} {w : β} (hx : Answers I x v)
    (hf : Answers I (f v) w) : Answers I (x >>= f) w := by
  refine Gives.bind hx ?_
  rintro a rfl
  exact hf

end

section

variable {σ : Type} {I : σ → Prop} {clock : Clock}

/-- Switches that are read as they are computed give the occurrences as they are computed. -/
theorem answers_occurrenceOf {daySwitch : ℤ → StateM σ DaySwitch} {day : ℤ} {w : ArgWindow}
    (traded : Bool)
    (hday : Answers I (daySwitch day) (findDaySwitch clock day))
    (hends : w.onClock = true → ∀ minute, w.startOn day ≤ minute →
      minute ≤ w.startOn day + w.length →
      Answers I (daySwitch (floorDiv minute 1440)) (findDaySwitch clock (floorDiv minute 1440))) :
    Answers I (occurrenceOf daySwitch clock traded day w)
      (occurrenceOf (m := Id) (findDaySwitch clock) clock traded day w) := by
  have hinstant : w.onClock = true → ∀ minute, w.startOn day ≤ minute →
    minute ≤ w.startOn day + w.length →
      ∀ later, Answers I (clockWallInstant daySwitch clock minute later)
        (clockWallInstant (m := Id) (findDaySwitch clock) clock minute later) :=
    fun hclock minute hlow hhigh later => (hends hclock minute hlow hhigh).bind (Answers.pure _)
  unfold occurrenceOf
  cases hclock : w.onClock with
  | false => exact Answers.pure _
  | true =>
    have hlength : 0 < w.length := by
      unfold ArgWindow.onClock at hclock
      rw [decide_eq_true_iff] at hclock
      exact hclock.2.2.1
    dsimp only
    rw [if_neg (by decide), if_neg (by decide)]
    refine hday.bind ?_
    rw [bind_id]
    split
    · exact Answers.pure _
    · refine (hinstant hclock _ (by omega) le_rfl _).bind
        ((hinstant hclock _ le_rfl (by omega) _).bind ?_)
      rw [bind_id, bind_id]
      split
      · exact (hends hclock _ le_rfl (by omega)).bind (Answers.pure _)
      · exact Answers.pure _

theorem answers_occurrencesOf {daySwitch : ℤ → StateM σ DaySwitch} {day : ℤ} (traded : Bool)
    (ws : List ArgWindow)
    (h : ∀ w ∈ ws, Answers I (occurrenceOf daySwitch clock traded day w)
      (occurrenceOf (m := Id) (findDaySwitch clock) clock traded day w)) :
    Answers I (occurrencesOf daySwitch clock traded day ws)
      (occurrencesOf (m := Id) (findDaySwitch clock) clock traded day ws) := by
  induction ws with
  | nil => exact Answers.pure _
  | cons w ws ih =>
    obtain ⟨hw, hws⟩ := List.forall_mem_cons.mp h
    exact hw.bind ((ih hws).bind (Answers.pure _))

end

/-! ## Sound rings -/

theorem ringIndex_eq (day : ℤ) : ringIndex day = day % 64 := by
  unfold ringIndex
  grind

section

variable (clock : Clock) (s : ArgSession)

/-- What a slot has of its day is what the day's computation gives. -/
structure DaySlot.Sound (slot : DaySlot) : Prop where
  windows : ∀ ws, slot.windows = some ws → ws = dayWindows clock s slot.day
  daySwitch : ∀ sw, slot.daySwitch = some sw → sw = findDaySwitch clock slot.day
  occurrences : ∀ os, slot.occurrences = some os → os = dayOccurrences clock s slot.day

/-- A slot is of a day and has its occurrences. -/
def HasOccurrences (ring : Ring) (day : ℤ) : Prop :=
  (ring (ringIndex day)).used = true ∧ (ring (ringIndex day)).day = day ∧
    (ring (ringIndex day)).occurrences = some (dayOccurrences clock s day)

/-- A ring during a reading: sound, and with the occurrences of the days asked for, which lie within
one turn of the ring. -/
structure Inv (base : ℤ) (asked : List ℤ) (ring : Ring) : Prop where
  sound : ∀ i, (ring i).Sound clock s
  near : ∀ d ∈ asked, base ≤ d ∧ d < base + 64
  pointed : ∀ d ∈ asked, HasOccurrences clock s ring d

variable {clock s}

theorem DaySlot.blank_sound (day : ℤ) :
    ({ DaySlot.blank with used := true, day } : DaySlot).Sound clock s := ⟨nofun, nofun, nofun⟩

variable {base day : ℤ} {asked : List ℤ} {ring : Ring}

/-- A slot that a day may be given. -/
structure Fits (clock : Clock) (s : ArgSession) (asked : List ℤ) (day : ℤ) (slot : DaySlot) :
    Prop where
  sound : slot.Sound clock s
  used : slot.used = true
  day_eq : slot.day = day
  asked : day ∈ asked → slot.occurrences = some (dayOccurrences clock s day)

theorem Inv.write (h : Inv clock s base asked ring) (hnear : base ≤ day ∧ day < base + 64)
    {slot : DaySlot}
    (hslot : Fits clock s asked day slot) :
    Inv clock s base asked (Function.update ring (ringIndex day) slot) := by
  refine ⟨?_, h.near, ?_⟩
  · intro i
    by_cases hi : i = ringIndex day
    · rw [hi, Function.update_self]
      exact hslot.sound
    · rw [Function.update_of_ne hi]
      exact h.sound i
  · intro d hd
    unfold HasOccurrences
    by_cases hsame : d = day
    · subst hsame
      rw [Function.update_self]
      exact ⟨hslot.used, hslot.day_eq, hslot.asked hd⟩
    · have hindex : ringIndex d ≠ ringIndex day := by
        have hd' := h.near d hd
        rw [ringIndex_eq, ringIndex_eq]
        omega
      rw [Function.update_of_ne hindex]
      exact h.pointed d hd

theorem answers_keepDay (hnear : base ≤ day ∧ day < base + 64) {slot : DaySlot}
    (hslot : Fits clock s asked day slot) : Answers (Inv clock s base asked)
    (keepDay day slot) () :=
  fun _ h => ⟨rfl, h.write hnear hslot⟩

theorem gives_argCacheDay (hnear : base ≤ day ∧ day < base + 64) :
    Gives (Inv clock s base asked) (argCacheDay day) (Fits clock s asked day) := by
  intro ring h
  by_cases hother : (ring (ringIndex day)).used = false ∨ (ring (ringIndex day)).day ≠ day
  · have hrun : (argCacheDay day).run ring = ({ DaySlot.blank with used := true, day },
        Function.update ring (ringIndex day) { DaySlot.blank with used := true, day }) := by
      unfold argCacheDay
      change (if _ then _ else _ : StateM Ring DaySlot).run ring = _
      rw [if_pos hother]
      rfl
    have hnot : day ∉ asked := by
      intro hd
      obtain ⟨hused, hday, -⟩ := h.pointed day hd
      rw [hused, hday] at hother
      exact hother.elim (fun hf => absurd hf (by decide)) (fun hne => hne rfl)
    have hfits : Fits clock s asked day { DaySlot.blank with used := true, day } :=
      ⟨DaySlot.blank_sound day, rfl, rfl, fun hd => absurd hd hnot⟩
    rw [hrun]
    exact ⟨hfits, h.write hnear hfits⟩
  · have hrun : (argCacheDay day).run ring = (ring (ringIndex day), ring) := by
      unfold argCacheDay
      change (if _ then _ else _ : StateM Ring DaySlot).run ring = _
      rw [if_neg hother]
      rfl
    rw [not_or, Bool.not_eq_false, not_not] at hother
    rw [hrun]
    exact ⟨⟨h.sound _, hother.1, hother.2, fun hd => (h.pointed day hd).2.2⟩, h⟩

theorem answers_argDaySwitch (hnear : base ≤ day ∧ day < base + 64) :
    Answers (Inv clock s base asked) (argDaySwitch clock day) (findDaySwitch clock day) := by
  refine (gives_argCacheDay hnear).bind fun slot hslot => ?_
  obtain ⟨hsound, hused, hday, hasked⟩ := hslot
  cases hsw : slot.daySwitch with
  | some sw =>
    have heq := hsound.daySwitch sw hsw
    rw [hday] at heq
    rw [heq]
    exact Answers.pure _
  | none =>
    have hkept : Fits clock s asked day
        { slot with daySwitch := some (findDaySwitch clock day) } := by
      refine ⟨⟨hsound.windows, ?_, hsound.occurrences⟩, hused, hday, hasked⟩
      rintro sw ⟨⟩
      rw [hday]
    exact (answers_keepDay hnear hkept).bind (Answers.pure _)

theorem answers_argDayWindows (hnear : base ≤ day ∧ day < base + 64) :
    Answers (Inv clock s base asked) (argDayWindows clock s day) (dayWindows clock s day) := by
  refine (gives_argCacheDay hnear).bind fun slot hslot => ?_
  obtain ⟨hsound, hused, hday, hasked⟩ := hslot
  cases hws : slot.windows with
  | some ws =>
    have heq := hsound.windows ws hws
    rw [hday] at heq
    rw [heq]
    exact Answers.pure _
  | none =>
    have hkept : Fits clock s asked day { slot with windows := some (dayWindows clock s day) } := by
      refine ⟨⟨?_, hsound.daySwitch, hsound.occurrences⟩, hused, hday, hasked⟩
      rintro ws ⟨⟩
      rw [hday]
    exact (answers_keepDay hnear hkept).bind (Answers.pure _)

/-- The ends of a window that the clock reads fall on its session day or one next to it. -/
theorem date_near {w : ArgWindow} (hclock : w.onClock = true)
    (hoffset : w.dayOffset = 0 ∨ w.dayOffset = -1)
    {minute : ℤ} (hlow : w.startOn day ≤ minute) (hhigh : minute ≤ w.startOn day + w.length) :
    day - 1 ≤ floorDiv minute 1440 ∧ floorDiv minute 1440 ≤ day + 1 := by
  unfold ArgWindow.onClock at hclock
  rw [decide_eq_true_iff] at hclock
  unfold ArgWindow.startOn at hlow hhigh
  rw [floorDiv_eq _ (by decide)]
  obtain hzero | hone := hoffset
  · rw [hzero] at hlow hhigh
    omega
  · rw [hone] at hlow hhigh
    omega

end

/-! ## Readings through the ring -/

section

variable {σ : Type} {I : σ → Prop} {occurrences : ℤ → StateM σ (List WallOccurrence)}
  {pureOccurrences : ℤ → List WallOccurrence} {k : ℕ} {barMs : ℤ}

theorem answers_firstHold (holds : WallOccurrence → Bool) (ds : List ℤ)
    (h : ∀ d ∈ ds, Answers I (occurrences d) (pureOccurrences d)) :
    Answers I (firstHold occurrences k holds ds)
      (firstHold (m := Id) pureOccurrences k holds ds) := by
  induction ds with
  | nil => exact Answers.pure _
  | cons d ds ih =>
    obtain ⟨hd, hds⟩ := List.forall_mem_cons.mp h
    refine hd.bind ?_
    rw [firstHold, bind_id]
    dsimp only
    split
    · exact Answers.pure _
    · exact ih hds

theorem answers_bentOwner (ds : List ℤ)
    (h : ∀ d ∈ ds, Answers I (occurrences d) (pureOccurrences d) ∧
      Answers I (occurrences (d - 1)) (pureOccurrences (d - 1))) :
    Answers I (bentOwner occurrences k barMs ds)
      (bentOwner (m := Id) pureOccurrences k barMs ds) := by
  induction ds with
  | nil => exact Answers.pure _
  | cons d ds ih =>
    obtain ⟨⟨hd, hbefore⟩, hds⟩ := List.forall_mem_cons.mp h
    refine hd.bind ?_
    rw [bentOwner, bind_id]
    dsimp only
    split
    · exact ih hds
    · refine hbefore.bind ?_
      rw [bind_id]
      split
      · exact ih hds
      · exact Answers.pure _

/-- The days of a reading: five back and two on. -/
def Near (today d : ℤ) : Prop := today - 5 ≤ d ∧ d ≤ today + 2

theorem answers_windowHold {wall today : ℤ}
    (h : ∀ d, Near today d → Answers I (occurrences d) (pureOccurrences d)) :
    Answers I (windowHold occurrences k barMs wall today)
      (windowHold (m := Id) pureOccurrences k barMs wall today) := by
  unfold Near at h
  refine (h today (by omega)).bind ?_
  rw [windowHold, bind_id]
  split
  · refine answers_firstHold _ _ fun d hd => h d ?_
    simp only [List.mem_cons, List.not_mem_nil, or_false] at hd
    omega
  · have howner : Answers I (bentOwner occurrences k barMs [today - 1, today, today + 1, today + 2])
        (bentOwner (m := Id) pureOccurrences k barMs [today - 1, today, today + 1, today + 2]) := by
      refine answers_bentOwner _ fun d hd => ?_
      simp only [List.mem_cons, List.not_mem_nil, or_false] at hd
      exact ⟨h d (by omega), h (d - 1) (by omega)⟩
    refine howner.bind ?_
    rw [bind_id]
    split
    · exact Answers.pure _
    · refine answers_firstHold _ _ fun d hd => h d ?_
      simp only [List.mem_cons, List.not_mem_nil, or_false] at hd
      omega

theorem answers_bestHold {wall today : ℤ}
    (h : ∀ d, Near today d → Answers I (occurrences d) (pureOccurrences d)) (ks : List ℕ)
    (best : Option Held) :
    Answers I (bestHold occurrences barMs wall today ks best)
      (bestHold (m := Id) pureOccurrences barMs wall today ks best) := by
  induction ks generalizing best with
  | nil => exact Answers.pure _
  | cons k ks ih => exact (answers_windowHold h).bind (ih _)

theorem answers_plainScan {windows : ℤ → StateM σ (List (ℤ × ℤ))} {pureWindows : ℤ → List (ℤ × ℤ)}
    (ds : List ℤ)
    (h : ∀ d ∈ ds, Answers I (windows d) (pureWindows d)) :
    Answers I (plainScan barMs windows ds) (plainScan (m := Id) barMs pureWindows ds) := by
  induction ds with
  | nil => exact Answers.pure _
  | cons d ds ih =>
    obtain ⟨hd, hds⟩ := List.forall_mem_cons.mp h
    refine hd.bind ?_
    rw [plainScan, bind_id]
    cases scanDay d barMs (pureWindows d) with
    | some held => exact Answers.pure _
    | none => exact ih hds

end

section

variable {clock : Clock} {s : ArgSession} {base day : ℤ} {asked : List ℤ} {ring : Ring}
  (hoffset : ∀ w ∈ s.windows, w.dayOffset = 0 ∨ w.dayOffset = -1)

theorem argCacheDay_slot (ring : Ring) (day : ℤ) :
    ((argCacheDay day).run ring).2 (ringIndex day) = ((argCacheDay day).run ring).1 := by
  unfold argCacheDay
  change ((if _ then _ else _ : StateM Ring DaySlot).run ring).2 (ringIndex day)
    = ((if _ then _ else _ : StateM Ring DaySlot).run ring).1
  split
  · exact Function.update_self _ _ _
  · rfl

theorem argDayOccurrences_kept {os : List WallOccurrence}
    (h : ((argCacheDay day).run ring).1.occurrences = some os) :
    ((argDayOccurrences clock s day).run ring).2 = ((argCacheDay day).run ring).2 := by
  unfold argDayOccurrences
  change ((match ((argCacheDay day).run ring).1.occurrences with | some os => _ | none => _ :
    StateM Ring (List WallOccurrence)).run ((argCacheDay day).run ring).2).2 = _
  rw [h]
  rfl

theorem argDayOccurrences_resolved (h : ((argCacheDay day).run ring).1.occurrences = none) :
    ∃ os kept, (occurrencesOf (argDaySwitch clock) clock (s.trades day) day s.windows).run
        ((argCacheDay day).run ring).2 = os ∧ (argCacheDay day).run os.2 = kept ∧
      ((argDayOccurrences clock s day).run ring).2
        = Function.update kept.2 (ringIndex day) { kept.1 with occurrences := some os.1 } := by
  refine ⟨_, _, rfl, rfl, ?_⟩
  unfold argDayOccurrences
  change ((match ((argCacheDay day).run ring).1.occurrences with | some os => _ | none => _ :
    StateM Ring (List WallOccurrence)).run ((argCacheDay day).run ring).2).2 = _
  rw [h]
  rfl

include hoffset

theorem answers_windows (hnear : base < day ∧ day + 1 < base + 64) :
    Answers (Inv clock s base asked)
    (occurrencesOf (argDaySwitch clock) clock (s.trades day) day s.windows)
    (dayOccurrences clock s day) := by
  refine answers_occurrencesOf _ _ fun w hw => ?_
  refine answers_occurrenceOf _ (answers_argDaySwitch (by omega)) fun hclock minute hlow hhigh => ?_
  have hdate := date_near hclock (hoffset w hw) hlow hhigh
  exact answers_argDaySwitch (by omega)

theorem answers_argDayOccurrences (hnear : base < day ∧ day + 1 < base + 64) :
    Answers (Inv clock s base asked) (argDayOccurrences clock s day)
      (dayOccurrences clock s day) := by
  refine (gives_argCacheDay (by omega)).bind fun slot hslot => ?_
  cases hos : slot.occurrences with
  | some os =>
    have heq := hslot.sound.occurrences os hos
    rw [hslot.day_eq] at heq
    rw [heq]
    exact Answers.pure _
  | none =>
    refine (answers_windows hoffset hnear).bind
      ((gives_argCacheDay (by omega)).bind fun kept hkept => ?_)
    have hfits : Fits clock s asked day
        { kept with occurrences := some (dayOccurrences clock s day) } := by
      refine ⟨⟨hkept.sound.windows, hkept.sound.daySwitch, ?_⟩, hkept.used, hkept.day_eq,
        fun _ => rfl⟩
      rintro os ⟨⟩
      rw [hkept.day_eq]
    exact (answers_keepDay (by omega) hfits).bind (Answers.pure _)

theorem hasOccurrences_resolved (h : Inv clock s base asked ring)
    (hnear : base < day ∧ day + 1 < base + 64) :
    HasOccurrences clock s ((argDayOccurrences clock s day).run ring).2 day := by
  have hday : base ≤ day ∧ day < base + 64 := by omega
  obtain ⟨hfits, hinv⟩ := gives_argCacheDay hday ring h
  unfold HasOccurrences
  cases hos : ((argCacheDay day).run ring).1.occurrences with
  | some os =>
    rw [argDayOccurrences_kept hos, argCacheDay_slot]
    refine ⟨hfits.used, hfits.day_eq, ?_⟩
    rw [hos, hfits.sound.occurrences os hos, hfits.day_eq]
  | none =>
    obtain ⟨os, kept, rfl, rfl, hrun⟩ := argDayOccurrences_resolved hos
    obtain ⟨hval, hinv'⟩ := answers_windows hoffset hnear _ hinv
    obtain ⟨hkept, -⟩ := gives_argCacheDay hday _ hinv'
    rw [hrun, Function.update_self]
    exact ⟨hkept.used, hkept.day_eq, congrArg some hval⟩

/-- The ring answers with the day's windows. -/
theorem answers_askOccurrences (hnear : base < day ∧ day + 1 < base + 64) :
    Answers (fun st => Inv clock s base st.2 st.1) (askOccurrences clock s day)
      (dayOccurrences clock s day) := by
  rintro ⟨ring, asked⟩ h
  dsimp only at h
  by_cases hasked : day ∈ asked
  · have hrun : (askOccurrences clock s day).run (ring, asked)
        = ((ring (ringIndex day)).occurrences.getD [], (ring, asked)) := by
      unfold askOccurrences
      change (if _ then _ else _ : StateM (Ring × List ℤ) _).run (ring, asked) = _
      rw [if_pos hasked]
      rfl
    rw [hrun, (h.pointed day hasked).2.2]
    exact ⟨rfl, h⟩
  · by_cases hhas : (ring (ringIndex day)).used ∧ (ring (ringIndex day)).day = day ∧
        (ring (ringIndex day)).occurrences.isSome
    · have hrun : (askOccurrences clock s day).run (ring, asked)
          = ((ring (ringIndex day)).occurrences.getD [], (ring, day :: asked)) := by
        unfold askOccurrences
        change (if _ then _ else if _ then _ else _ : StateM (Ring × List ℤ) _).run (ring, asked)
          = _
        rw [if_neg hasked, if_pos hhas]
        rfl
      obtain ⟨hused, hday, hsome⟩ := hhas
      obtain ⟨os, hos⟩ := Option.isSome_iff_exists.mp hsome
      have heq := (h.sound _).occurrences os hos
      rw [hday] at heq
      rw [hrun, hos]
      refine ⟨heq, h.sound, List.forall_mem_cons.mpr ⟨by omega, h.near⟩,
        List.forall_mem_cons.mpr ⟨⟨hused, hday, ?_⟩, h.pointed⟩⟩
      rw [hos, heq]
    · have hrun : (askOccurrences clock s day).run (ring, asked)
          = (((argDayOccurrences clock s day).run ring).1,
            (((argDayOccurrences clock s day).run ring).2, day :: asked)) := by
        unfold askOccurrences
        change (if _ then _ else if _ then _ else _ : StateM (Ring × List ℤ) _).run (ring, asked)
          = _
        rw [if_neg hasked, if_neg hhas]
        rfl
      obtain ⟨hval, hinv⟩ := answers_argDayOccurrences hoffset hnear ring h
      rw [hrun]
      exact ⟨hval, hinv.sound, List.forall_mem_cons.mpr ⟨by omega, h.near⟩,
        List.forall_mem_cons.mpr ⟨hasOccurrences_resolved hoffset h hnear, hinv.pointed⟩⟩

/-- A reading through a sound ring is the reading without one, and leaves it sound. -/
theorem readRing_sound (barMs tfMs : ℤ) (onClock : Bool) (h : ∀ i, (ring i).Sound clock s) :
    (readRing clock s barMs tfMs onClock ring).1 = intradayBar clock s barMs tfMs onClock ∧
      ∀ i, ((readRing clock s barMs tfMs onClock ring).2 i).Sound clock s := by
  obtain ⟨today, htoday⟩ : ∃ today, today = (clock.fields barMs).days := ⟨_, rfl⟩
  have hstart : Inv clock s (today - 10) [] ring := ⟨h, nofun, nofun⟩
  unfold readRing intradayBar
  cases onClock with
  | true =>
    have hbar : Answers (fun st => Inv clock s (today - 10) st.2 st.1)
        (clockIntradayBar (askOccurrences clock s) barMs clock s tfMs)
        (clockIntradayBar (m := Id) (dayOccurrences clock s) barMs clock s tfMs) := by
      refine (answers_bestHold (fun d hd => answers_askOccurrences hoffset ?_) _ _).bind
        (Answers.pure _)
      rw [← htoday] at hd
      unfold Near at hd
      omega
    obtain ⟨hval, hinv⟩ := hbar (ring, []) hstart
    exact ⟨hval, hinv.sound⟩
  | false =>
    have hbar : Answers (Inv clock s (today - 10) [])
      (plainIntradayBar barMs (argDayWindows clock s) clock tfMs)
        (plainIntradayBar (m := Id) barMs (dayWindows clock s) clock tfMs) := by
      refine (answers_plainScan _ fun d hd => answers_argDayWindows ?_).bind (Answers.pure _)
      simp only [List.mem_cons, List.not_mem_nil, or_false, ← htoday] at hd
      omega
    obtain ⟨hval, hinv⟩ := hbar ring hstart
    exact ⟨hval, hinv.sound⟩

end

/-! ## Entries -/

/-- A session argument in a zone, as a thread keeps it. -/
structure ArgCache where
  session : List Char
  tz : ZoneName
  parsed : Option ArgSession
  utc : Option Bool
  ring : Ring
  usedAt : ℕ

/-- The entries and the clock of their use. -/
structure ArgCaches where
  entries : List ArgCache
  clock : ℕ

/-- No entries. -/
def ArgCaches.empty : ArgCaches := ⟨[], 0⟩

/-- The entry used longest ago; the first of two alike. -/
def oldestFrom : List ArgCache → ℕ → ℕ → ℕ → ℕ
  | [], _, best, _ => best
  | entry :: rest, index, best, bestUsed =>
    if entry.usedAt < bestUsed then oldestFrom rest (index + 1) index entry.usedAt
    else oldestFrom rest (index + 1) best bestUsed

/-- The entry used longest ago. -/
def oldestIndex (entries : List ArgCache) : ℕ :=
  oldestFrom entries 0 0 ((entries.head?.map ArgCache.usedAt).getD 0)

/-- The entry of a session argument in a zone, and where it stands. -/
def argCache (caches : ArgCaches) (session : List Char) (tz : ZoneName) : ArgCaches × ℕ :=
  let clock := tick caches.clock
  let entries := caches.entries
  match entries.findIdx? fun entry => entry.session = session ∧ entry.tz = tz with
  | some i => (⟨entries.modify i fun entry => { entry with usedAt := clock }, clock⟩, i)
  | none =>
    let entry : ArgCache := ⟨session, tz, readArgSession session, none, Ring.empty, clock⟩
    if entries.length < 32 then (⟨entries ++ [entry], clock⟩, entries.length)
    else
      -- the oldest entry is swapped with the last, which gives way
      let back := entries.length - 1
      (⟨(entries.set (oldestIndex entries) (entries.getD back entry)).set back entry, clock⟩, back)

/-- A call; `wallClock` is the process switch of the session clock. -/
structure Query where
  barMs : ℤ
  session : List Char
  tz : ZoneName
  tfMs : ℤ
  transitionClock : Bool
  wallClock : Bool

/-- `session_argument_intraday_bar`. -/
def sessionArgumentIntradayBar (clocks : ZoneName → Clock) (caches : ArgCaches) (q : Query) :
    Option (ℤ × ℤ) × ArgCaches :=
  let found := argCache caches q.session q.tz
  match found.1.entries[found.2]? with
  | none => (none, found.1)
  | some entry =>
    match entry.parsed with
    | none => (none, found.1)
    | some s =>
      if q.tfMs ≤ 0 then (none, found.1)
      else
        let asksUtc : Bool := q.transitionClock ∧ q.wallClock
        let utc := entry.utc.getD (clocks q.tz).utc
        let read := readRing (clocks q.tz) s q.barMs q.tfMs (asksUtc ∧ utc = false) entry.ring
        let entry := { entry with utc := if asksUtc then some utc else entry.utc, ring := read.2 }
        (read.1, ⟨found.1.entries.set found.2 entry, found.1.clock⟩)

/-- The answer to a query without a cache. -/
def Query.answer (clocks : ZoneName → Clock) (q : Query) : Option (ℤ × ℤ) :=
  match readArgSession q.session with
  | none => none
  | some s =>
    if q.tfMs ≤ 0 then none
    else intradayBar (clocks q.tz) s q.barMs q.tfMs
      (q.transitionClock ∧ q.wallClock ∧ (clocks q.tz).utc = false)

/-- The caches after queries. -/
def cachesAfter (clocks : ZoneName → Clock) (caches : ArgCaches) : List Query → ArgCaches
  | [] => caches
  | q :: qs => cachesAfter clocks (sessionArgumentIntradayBar clocks caches q).2 qs

/-! ## Any sequence of queries -/

section

variable (clocks : ZoneName → Clock)

/-- An entry holds what would be computed. -/
structure ArgCache.Sound (entry : ArgCache) : Prop where
  parsed : entry.parsed = readArgSession entry.session
  utc : ∀ utc, entry.utc = some utc → utc = (clocks entry.tz).utc
  ring : ∀ s, entry.parsed = some s → ∀ i, (entry.ring i).Sound (clocks entry.tz) s

/-- Every entry does. -/
def ArgCaches.Sound (caches : ArgCaches) : Prop := ∀ entry ∈ caches.entries, entry.Sound clocks

variable {clocks}

theorem ArgCaches.empty_sound : ArgCaches.empty.Sound clocks := nofun

variable (clocks) in
theorem blankEntry_sound (session : List Char) (tz : ZoneName) (clock : ℕ) :
    ArgCache.Sound clocks ⟨session, tz, readArgSession session, none, Ring.empty, clock⟩ :=
  ⟨rfl, nofun, fun _ _ _ => ⟨nofun, nofun, nofun⟩⟩

theorem sound_set {entries : List ArgCache} (h : ∀ entry ∈ entries, entry.Sound clocks)
    {entry : ArgCache}
    (hentry : entry.Sound clocks) (i : ℕ) : ∀ e ∈ entries.set i entry, e.Sound clocks := by
  intro e he
  obtain hmem | rfl := List.mem_or_eq_of_mem_set he
  · exact h e hmem
  · exact hentry

/-- The entry found is the session's own. -/
theorem argCache_sound {caches : ArgCaches} (h : caches.Sound clocks) (session : List Char)
    (tz : ZoneName) :
    (argCache caches session tz).1.Sound clocks ∧
      ∃ entry, (argCache caches session tz).1.entries[(argCache caches session tz).2]?
        = some entry ∧
        entry.session = session ∧ entry.tz = tz := by
  have hblank := blankEntry_sound clocks session tz (tick caches.clock)
  unfold argCache
  dsimp only
  split
  · rename_i i hfound
    obtain ⟨hi, hentry, -⟩ := List.findIdx?_eq_some_iff_getElem.mp hfound
    rw [decide_eq_true_iff] at hentry
    refine ⟨?_, { caches.entries[i] with usedAt := tick caches.clock }, ?_, hentry⟩
    · intro entry hmem
      obtain ⟨j, hj, rfl⟩ := List.getElem_of_mem hmem
      dsimp only
      rw [List.getElem_modify]
      split
      · have hold := h _ (List.getElem_mem (by rwa [List.length_modify] at hj))
        exact ⟨hold.parsed, hold.utc, hold.ring⟩
      · exact h _ (List.getElem_mem _)
    · rw [List.getElem?_modify_eq, List.getElem?_eq_getElem hi]
      rfl
  · split
    · refine ⟨?_, _, List.getElem?_concat_length, rfl, rfl⟩
      intro entry hmem
      rw [List.mem_append, List.mem_singleton] at hmem
      obtain hold | rfl := hmem
      · exact h entry hold
      · exact hblank
    · rename_i hfull
      refine ⟨?_, ⟨session, tz, readArgSession session, none, Ring.empty, tick caches.clock⟩,
        ?_, rfl, rfl⟩
      · refine sound_set (sound_set h ?_ _) hblank _
        rw [List.getD_eq_getElem?_getD]
        cases hback : caches.entries[caches.entries.length - 1]? with
        | none => exact hblank
        | some back => exact h back (List.mem_of_getElem? hback)
      · rw [List.getElem?_set_self]
        rw [List.length_set]
        omega

/-- A query answers as without the caches. -/
theorem query_sound {caches : ArgCaches} (h : caches.Sound clocks) (q : Query) :
    (sessionArgumentIntradayBar clocks caches q).1 = q.answer clocks ∧
      (sessionArgumentIntradayBar clocks caches q).2.Sound clocks := by
  obtain ⟨hsound, entry, hentry, hsession, htz⟩ := argCache_sound h q.session q.tz
  have hsoundEntry := hsound entry (List.mem_of_getElem? hentry)
  unfold sessionArgumentIntradayBar Query.answer
  dsimp only
  have hparse : readArgSession q.session = entry.parsed := by
    rw [← hsession, hsoundEntry.parsed]
  rw [hentry, hparse]
  dsimp only
  cases hparsed : entry.parsed with
  | none => exact ⟨rfl, hsound⟩
  | some s =>
    dsimp only
    split
    · exact ⟨rfl, hsound⟩
    · have hread : readArgSession entry.session = some s := hsoundEntry.parsed.symm.trans hparsed
      have hutc : entry.utc.getD (clocks q.tz).utc = (clocks q.tz).utc := by
        cases hknown : entry.utc with
        | none => rfl
        | some utc =>
          rw [← htz]
          exact hsoundEntry.utc utc hknown
      have hring := hsoundEntry.ring s hparsed
      rw [htz] at hring
      rw [hutc]
      have hflag : (decide ((decide (q.transitionClock = true ∧ q.wallClock = true)) = true ∧
          (clocks q.tz).utc = false)) = decide (q.transitionClock = true ∧ q.wallClock = true ∧
          (clocks q.tz).utc = false) := by
        rw [Bool.eq_iff_iff]
        simp [and_assoc]
      rw [hflag]
      obtain ⟨hval, hleft⟩ := readRing_sound (dayOffset_of_read hread) q.barMs q.tfMs
        (decide (q.transitionClock = true ∧ q.wallClock = true ∧ (clocks q.tz).utc = false)) hring
      refine ⟨hval, sound_set hsound ⟨hread.symm, ?_, ?_⟩ _⟩
      · dsimp only
        intro utc hset
        rw [htz]
        split at hset
        · cases hset
          rfl
        · rw [← htz]
          exact hsoundEntry.utc utc hset
      · dsimp only
        rw [htz]
        rintro s' ⟨⟩
        exact hleft

theorem cachesAfter_sound {caches : ArgCaches} (h : caches.Sound clocks) (qs : List Query) :
    (cachesAfter clocks caches qs).Sound clocks := by
  induction qs generalizing caches with
  | nil => exact h
  | cons q qs ih => exact ih (query_sound h q).2

theorem cached_answer (clocks : ZoneName → Clock) (earlier : List Query) (q : Query) :
    (sessionArgumentIntradayBar clocks (cachesAfter clocks .empty earlier) q).1 = q.answer clocks :=
  (query_sound (cachesAfter_sound ArgCaches.empty_sound earlier) q).1

end

/-- An instance of a window of a session starts at an instant and holds another. -/
def InstanceHolds (offset : ℤ) (s : ArgSession) (barMs start : ℤ) : Prop :=
  ∃ day, ∃ w ∈ s.windows, holdsOn offset s barMs w day = true ∧ start = (instanceOn offset w day).1

theorem answer_fixed {clocks : ZoneName → Clock} {offset : ℤ} {q : Query} {s : ArgSession}
    (hfixed : (clocks q.tz).Fixed offset) (hutc : (clocks q.tz).utc = false)
    (hread : readArgSession q.session = some s) (htf : 0 < q.tfMs) :
    q.answer clocks = (scanned offset q.barMs s s.windows
      (scanDays ((q.barMs.tdiv 1000 + offset) / 86400))).map (·.bar q.barMs q.tfMs) := by
  unfold Query.answer
  rw [hread]
  dsimp only
  rw [if_neg (by omega)]
  exact intradayBar_fixed hfixed hutc s (dayOffset_of_read hread) q.barMs q.tfMs _

/-- In a zone of one offset that is not UTC the session clock and the plain scan answer alike,
whatever was asked before, with a bar that holds the instant at a whole number of widths from the
start of a window. -/
theorem readings_agree (clocks : ZoneName → Clock) (offset : ℤ) (earlier : List Query) (q : Query)
    (s : ArgSession) (hfixed : (clocks q.tz).Fixed offset) (hutc : (clocks q.tz).utc = false)
    (hread : readArgSession q.session = some s) (htf : 0 < q.tfMs) :
    (∀ onClock, (sessionArgumentIntradayBar clocks (cachesAfter clocks .empty earlier)
        { q with transitionClock := onClock }).1
      = (sessionArgumentIntradayBar clocks .empty { q with transitionClock := false }).1) ∧
    ∀ bar, (sessionArgumentIntradayBar clocks (cachesAfter clocks .empty earlier) q).1 = some bar →
      bar.1 ≤ q.barMs ∧ q.barMs < bar.2 ∧
        ∃ start, InstanceHolds offset s q.barMs start ∧ q.tfMs ∣ bar.1 - start := by
  refine ⟨?_, ?_⟩
  · intro onClock
    have hcached := cached_answer clocks earlier { q with transitionClock := onClock }
    have hempty := cached_answer clocks [] { q with transitionClock := false }
    rw [answer_fixed (q := { q with transitionClock := onClock }) hfixed hutc hread htf] at hcached
    rw [answer_fixed (q := { q with transitionClock := false }) hfixed hutc hread htf] at hempty
    exact hcached.trans hempty.symm
  · intro bar hbar
    rw [cached_answer, answer_fixed hfixed hutc hread htf, Option.map_eq_some_iff] at hbar
    obtain ⟨held, hheld, rfl⟩ := hbar
    obtain ⟨day, -, w, hw, hholds, rfl⟩ := mem_scanned hheld
    have hin := of_decide_eq_true hholds
    obtain ⟨hle, hlt, hdvd⟩ := (heldOn offset w day).bar_spec htf hin.2.1 hin.2.2
    exact ⟨hle, hlt, _, ⟨day, w, hw, hholds, rfl⟩, hdvd⟩

/-- Every zone on India's clock. -/
def kolkata (_ : ZoneName) : Clock := ⟨fun _ => 19800, false, fun _ => none⟩

/-- An hour of 2024-01-01 in Mumbai's session, after an hour of a week later. -/
def mumbaiQuery (barMs : ℤ) : Query :=
  ⟨barMs, "0915-1530".toList, "Asia/Kolkata".toList, 3600000, true, true⟩

theorem readings_agree_mumbai :
    (sessionArgumentIntradayBar kolkata (cachesAfter kolkata .empty [mumbaiQuery 1704693600000])
        { mumbaiQuery 1704088800000 with transitionClock := true }).1
      = (sessionArgumentIntradayBar kolkata .empty
          { mumbaiQuery 1704088800000 with transitionClock := false }).1 :=
  (readings_agree kolkata 19800 [mumbaiQuery 1704693600000] (mumbaiQuery 1704088800000)
    ⟨[⟨555, 375, 0⟩], []⟩ (fun _ => rfl) rfl (by decide +kernel) (by decide)).1 true

end PineForge.SessionTime
