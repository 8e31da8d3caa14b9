import Mathlib
import PineForge.Calc.Plan

/-!
# Cutting a schedule

A derivation reads the points collected so far nowhere: it runs the same way over any draft with the
same state. Hence a schedule may be cut anywhere, and the points need not be collected.
-/

namespace PineForge.Calc

/-! ## Drafts with the same state -/

/-- A map of drafts that keeps the state, under which the calculations of `e` become those of
`e'`. -/
structure Carries (g : Draft → Draft) (e e' : Driving) : Prop where
  time : e'.time = e.time
  state : ∀ d, (g d).state = d.state
  withState : ∀ (d : Draft) s, g (d.withState s) = (g d).withState s
  emit : ∀ phase position key inBar finality d,
    Calc.emit e' phase position key inBar finality (g d)
      = (Calc.emit e phase position key inBar finality d).map g

namespace Carries

variable {g : Draft → Draft} {e e' : Driving} {clock : BarClock}

theorem closeBar (h : Carries g e e') (d : Draft) : closeBar (g d) = g (closeBar d) := by
  unfold Calc.closeBar
  rw [h.withState, h.state]

theorem countCalc (h : Carries g e e') (d : Draft) : countCalc (g d) = g (countCalc d) := by
  unfold Calc.countCalc
  rw [h.withState, h.state]

theorem moveCursor (h : Carries g e e') (slot : Slot) (d : Draft) :
    moveCursor slot (g d) = g (moveCursor slot d) := by
  unfold Calc.moveCursor
  rw [h.withState, h.state]

theorem emit_map (h : Carries g e e') {f : Draft → Draft} (hf : ∀ d, f (g d) = g (f d))
    (phase : Phase)
    (position : ℤ) (key inBar : ℕ) (finality : Finality) (d : Draft) :
    (Calc.emit e' phase position key inBar finality (g d)).map f
      = ((Calc.emit e phase position key inBar finality d).map f).map g := by
  rw [h.emit]
  cases Calc.emit e phase position key inBar finality d with
  | error why => rfl
  | ok d' => exact congrArg Except.ok (hf d')

theorem closeDue (h : Carries g e e') (d : Draft) :
    closeDue clock e' (g d) = (closeDue clock e d).map g := by
  unfold Calc.closeDue
  rw [h.state, h.time]
  split
  · exact h.emit_map h.closeBar _ _ _ _ _ d
  · rfl

theorem quietBar (h : Carries g e e') (slot : Slot) (d : Draft) :
    quietBar e' slot (g d) = (quietBar e slot d).map g := by
  unfold Calc.quietBar
  rw [h.state]
  split
  · split
    · rfl
    · rw [← h.withState]
      exact h.emit _ _ _ _ _ _
  · rfl

/-- Quiet bars are planned the same. -/
theorem quietBars (h : Carries g e e') (d : Draft) :
    quietBars clock e' (g d) = (quietBars clock e d).map g := by
  induction d using Calc.quietBars.induct clock e with
  | case1 d hopen hslot =>
    rw [Calc.quietBars, Calc.quietBars, h.state, if_pos hopen, if_pos hopen, hslot]
    rfl
  | case2 d hopen slot hslot hbounded =>
    rw [Calc.quietBars, Calc.quietBars, h.state, if_pos hopen, if_pos hopen, hslot]
    dsimp only
    rw [if_pos hbounded, if_pos hbounded]
    rfl
  | case3 d hopen slot hslot hbounded hend =>
    rw [Calc.quietBars, Calc.quietBars, h.state, if_pos hopen, if_pos hopen, hslot]
    dsimp only
    rw [if_neg hbounded, if_neg hbounded, h.time, dif_pos hend, dif_pos hend]
    rfl
  | case4 d hopen slot hslot hbounded hend why hquiet =>
    rw [Calc.quietBars, Calc.quietBars, h.state, if_pos hopen, if_pos hopen, hslot]
    dsimp only
    rw [if_neg hbounded, if_neg hbounded, h.time, dif_neg hend, dif_neg hend, h.quietBar, hquiet]
    rfl
  | case5 d hopen slot hslot hbounded hend d' hquiet ih =>
    rw [Calc.quietBars, h.state, if_pos hopen, hslot]
    dsimp only
    rw [if_neg hbounded, h.time, dif_neg hend, h.quietBar, hquiet]
    conv_rhs => rw [Calc.quietBars, if_pos hopen, hslot]
    dsimp only
    rw [if_neg hbounded, dif_neg hend, hquiet]
    dsimp only [Except.map]
    rw [h.moveCursor]
    exact ih
  | case6 d hopen =>
    rw [Calc.quietBars, Calc.quietBars, h.state, if_neg hopen, if_neg hopen]
    rfl

theorem openBar (h : Carries g e e') (d : Draft) :
    openBar clock e' (g d) = (openBar clock e d).map g := by
  unfold Calc.openBar
  rw [h.state, h.time]
  split
  · rfl
  · split
    · rfl
    · split
      · rfl
      · exact congrArg Except.ok (h.withState d _).symm

theorem barAt (h : Carries g e e') (d : Draft) :
    barAt clock e' (g d) = (barAt clock e d).map g := by
  unfold Calc.barAt
  rw [h.state]
  split
  · rfl
  · exact h.openBar d

theorem emitProvisional (h : Carries g e e') (d : Draft) :
    emitProvisional e' (g d) = (emitProvisional e d).map g := by
  unfold Calc.emitProvisional
  rw [h.state, h.time]
  exact h.emit_map h.countCalc _ _ _ _ _ d

/-- The payload is planned the same. -/
theorem payload (h : Carries g e e') (cadence : UInt32) (kind : EventKind) (d : Draft) :
    payload clock cadence e' kind (g d) = (payload clock cadence e kind d).map g := by
  have hconfirm : ∀ d, (Calc.emit e' .post e'.time (g d).state.lastBarKey (g d).state.calcInBar
      .confirmed (g d)).map Calc.closeBar
      = ((Calc.emit e .post e.time d.state.lastBarKey d.state.calcInBar .confirmed d).map
          Calc.closeBar).map g := by
    intro d
    rw [h.state, h.time]
    exact h.emit_map h.closeBar _ _ _ _ _ d
  have hbar : ∀ next next' : Draft → Except Status Draft, (∀ d, next' (g d) = (next d).map g) →
      (Calc.barAt clock e' (g d) >>= next') = (Calc.barAt clock e d >>= next).map g := by
    intro next next' hnext
    rw [h.barAt]
    cases Calc.barAt clock e d with
    | error why => rfl
    | ok opened => exact hnext opened
  cases kind with
  | tick =>
    refine hbar _ _ fun opened => ?_
    split
    · exact h.emitProvisional opened
    · rfl
  | warmupBar => exact hbar _ _ hconfirm
  | bar => exact hbar _ _ hconfirm
  | advanceTime =>
    unfold Calc.payload
    rw [h.state]
    dsimp only
    split
    · exact h.emitProvisional d
    · rfl
  | unknown raw => rfl

end Carries

/-- The map carries every event, whose index moves by `k`. -/
structure CarriesAll (g : Draft → Draft) (want want' : Bool) (k : ℕ) : Prop where
  carries : ∀ index ordinal time, Carries g ⟨want, index, ordinal, time⟩ ⟨want', k + index,
    ordinal, time⟩
  pass : ∀ e e' d, e'.time = e.time → passEvent e' (g d) = g (passEvent e d)

namespace CarriesAll

variable {g : Draft → Draft} {want want' : Bool} {k : ℕ} {clock : BarClock} {cadence : UInt32}

theorem planEvent (h : CarriesAll g want want' k) (index : ℕ) (event : Event) (d : Draft) :
    planEvent clock cadence want' (k + index) event (g d)
      = (planEvent clock cadence want index event d).map g := by
  unfold Calc.planEvent
  have hstate := (h.carries index d.state.traceFirst event.timeMs).state d
  rw [hstate]
  split
  · rfl
  · split
    · rfl
    · dsimp only
      have hcarries := h.carries index d.state.traceFirst event.timeMs
      rw [hcarries.closeDue]
      cases closeDue clock _ d with
      | error why => rfl
      | ok closed =>
        dsimp only [Except.map, bind, Except.bind]
        rw [hcarries.quietBars]
        cases quietBars clock _ closed with
        | error why => rfl
        | ok quiet =>
          dsimp only [Except.map]
          rw [hcarries.payload]
          cases payload clock cadence _ event.kind quiet with
          | error why => rfl
          | ok paid => exact congrArg Except.ok (h.pass _ _ paid rfl)

theorem planEvents (h : CarriesAll g want want' k) (events : List Event) (index : ℕ) (d : Draft) :
    planEvents clock cadence want' (k + index) (g d) events
      = (planEvents clock cadence want index d events).map g := by
  induction events generalizing index d with
  | nil => rfl
  | cons event rest ih =>
    unfold Calc.planEvents
    rw [h.planEvent]
    cases Calc.planEvent clock cadence want index event d with
    | error why => rfl
    | ok d' => exact ih (index + 1) d'

end CarriesAll

/-! ## Points that are not collected -/

/-- The draft without its points. -/
def Draft.forget (d : Draft) : Draft := { d with rows := [] }

theorem carriesAll_forget (want : Bool) : CarriesAll Draft.forget want false 0 := by
  refine ⟨?_, fun e e' d htime => ?_⟩
  · intro index ordinal time
    refine ⟨rfl, fun d => rfl, fun d s => rfl, ?_⟩
    intro phase position key inBar finality d
    unfold emit
    have hinside : inside ⟨false, 0 + index, ordinal, time⟩ phase position d.forget.state
        = inside ⟨want, index, ordinal, time⟩ phase position d.state := rfl
    rw [hinside]
    split
    · rfl
    · rfl
  · unfold passEvent
    rw [htime]
    rfl

/-! ## Points after others -/

/-- A point of a schedule that starts `k` events later. -/
def Point.shift (k : ℕ) (p : Point) : Point := { p with eventIndex := k + p.eventIndex }

/-- The draft of a schedule that goes on `k` events after `rows`. -/
def Draft.behind (planned : UInt64) (rows : List Point) (k : ℕ) (d : Draft) : Draft :=
  { d with planned := planned + d.planned, rows := rows ++ d.rows.map (Point.shift k) }

theorem carriesAll_behind (want : Bool) (planned : UInt64) (rows : List Point) (k : ℕ) :
    CarriesAll (Draft.behind planned rows k) want want k := by
  refine ⟨?_, fun e e' d htime => ?_⟩
  · intro index ordinal time
    refine ⟨rfl, fun d => rfl, fun d s => rfl, ?_⟩
    intro phase position key inBar finality d
    unfold emit
    have hinside : inside ⟨want, k + index, ordinal, time⟩ phase position
      (d.behind planned rows k).state
        = inside ⟨want, index, ordinal, time⟩ phase position d.state := rfl
    rw [hinside]
    split
    · unfold Draft.behind
      dsimp only [Except.map]
      rw [UInt64.add_assoc]
      cases want with
      | false => rfl
      | true =>
        rw [if_pos rfl, if_pos rfl, List.map_append, ← List.append_assoc]
        rfl
    · rfl
  · unfold passEvent
    rw [htime]
    rfl

/-! ## Refusals -/

/-- The derivation does not refuse under the name of an acceptance. -/
def Named (x : Except Status Draft) : Prop := x ≠ .error .ok

section

variable {clock : BarClock} {cadence : UInt32} {e : Driving} {d : Draft}

theorem Named.ok : Named (.ok d) := nofun

theorem Named.error {why : Status} (h : why ≠ .ok) : Named (.error why) :=
  fun heq => h (by injection heq)

theorem Named.map {x : Except Status Draft} (h : Named x) (f : Draft → Draft) :
    Named (x.map f) := by
  cases x with
  | error why => exact h
  | ok d => exact Named.ok

theorem Named.bind {x : Except Status Draft} (h : Named x) {f : Draft → Except Status Draft}
    (hf : ∀ d, Named (f d)) : Named (x >>= f) := by
  cases x with
  | error why => exact h
  | ok d => exact hf d

theorem emit_named (phase : Phase) (position : ℤ) (key inBar : ℕ) (finality : Finality) :
    Named (emit e phase position key inBar finality d) := by
  unfold emit
  split
  · exact Named.ok
  · exact Named.error (by decide)

theorem closeDue_named : Named (closeDue clock e d) := by
  unfold closeDue
  split
  · exact (emit_named _ _ _ _ _).map _
  · exact Named.ok

theorem quietBar_named (slot : Slot) : Named (quietBar e slot d) := by
  unfold quietBar
  split
  · split
    · exact Named.error (by decide)
    · exact emit_named _ _ _ _ _
  · exact Named.ok

/-- Quiet bars are numbered. -/
theorem quietBars_named : Named (quietBars clock e d) := by
  induction d using quietBars.induct clock e with
  | case1 d hopen hslot =>
    rw [quietBars, if_pos hopen, hslot]
    exact Named.ok
  | case2 d hopen slot hslot hbounded =>
    rw [quietBars, if_pos hopen, hslot]
    dsimp only
    rw [if_pos hbounded]
    exact Named.ok
  | case3 d hopen slot hslot hbounded hend =>
    rw [quietBars, if_pos hopen, hslot]
    dsimp only
    rw [if_neg hbounded, dif_pos hend]
    exact Named.ok
  | case4 d hopen slot hslot hbounded hend why hquiet =>
    rw [quietBars, if_pos hopen, hslot]
    dsimp only
    rw [if_neg hbounded, dif_neg hend, hquiet]
    dsimp only
    rw [← hquiet]
    exact quietBar_named slot
  | case5 d hopen slot hslot hbounded hend d' hquiet ih =>
    rw [quietBars, if_pos hopen, hslot]
    dsimp only
    rw [if_neg hbounded, dif_neg hend, hquiet]
    exact ih
  | case6 d hopen =>
    rw [quietBars, if_neg hopen]
    exact Named.ok

theorem barAt_named : Named (barAt clock e d) := by
  unfold barAt openBar
  split
  · exact Named.ok
  · split
    · exact Named.error (by decide)
    · split
      · exact Named.error (by decide)
      · split
        · exact Named.error (by decide)
        · exact Named.ok

theorem emitProvisional_named : Named (emitProvisional e d) :=
  (emit_named _ _ _ _ _).map _

theorem payload_named (kind : EventKind) : Named (payload clock cadence e kind d) := by
  cases kind with
  | tick =>
    refine barAt_named.bind fun opened => ?_
    split
    · exact emitProvisional_named
    · exact Named.ok
  | warmupBar => exact barAt_named.bind fun opened => (emit_named _ _ _ _ _).map _
  | bar => exact barAt_named.bind fun opened => (emit_named _ _ _ _ _).map _
  | advanceTime =>
    unfold payload
    dsimp only
    split
    · exact emitProvisional_named
    · exact Named.ok
  | unknown raw => exact Named.ok

theorem planEvent_named (want : Bool) (index : ℕ) (event : Event) :
    Named (planEvent clock cadence want index event d) := by
  unfold planEvent
  split
  · exact Named.error (by decide)
  · split
    · exact Named.error (by decide)
    · refine closeDue_named.bind fun closed => ?_
      refine quietBars_named.bind fun quiet => ?_
      exact (payload_named event.kind).bind fun paid => Named.ok

theorem planEvents_named (want : Bool) (index : ℕ) (events : List Event) :
    Named (planEvents clock cadence want index d events) := by
  induction events generalizing index d with
  | nil => exact Named.ok
  | cons event rest ih => exact (planEvent_named want index event).bind fun d' => ih (index + 1)

end

/-! ## Schedules cut in two -/

section

variable {clock : BarClock} {cadence : UInt32} {want : Bool}

theorem planEvents_append (first second : List Event) (index : ℕ) (d : Draft) :
    planEvents clock cadence want index d (first ++ second)
      = (planEvents clock cadence want index d first).bind fun d =>
          planEvents clock cadence want (index + first.length) d second := by
  induction first generalizing index d with
  | nil => rfl
  | cons event rest ih =>
    rw [List.cons_append, planEvents, planEvents, List.length_cons,
      add_comm rest.length, ← add_assoc]
    cases planEvent clock cadence want index event d with
    | error why => rfl
    | ok d' => exact ih (index + 1) d'

theorem planEvents_calcInEvent {events : List Event} {index : ℕ} {d d' : Draft}
    (hstart : d.calcInEvent = 0)
    (h : planEvents clock cadence want index d events = .ok d') : d'.calcInEvent = 0 := by
  induction events generalizing index d with
  | nil =>
    cases h
    exact hstart
  | cons event rest ih =>
    unfold planEvents at h
    cases hevent : planEvent clock cadence want index event d with
    | error why =>
      rw [hevent] at h
      cases h
    | ok next =>
      rw [hevent] at h
      refine ih ?_ h
      unfold planEvent at hevent
      split at hevent
      · cases hevent
      · split at hevent
        · cases hevent
        · dsimp only [bind, Except.bind] at hevent
          split at hevent
          · cases hevent
          · split at hevent
            · cases hevent
            · split at hevent
              · cases hevent
              · cases hevent
                rfl

/-- The second part of a schedule is the schedule of its own events from the state between. -/
theorem planEvents_behind {first : List Event} {s : State} {d : Draft}
    (h : planEvents clock cadence want 0 (.start s) first = .ok d) (second : List Event) :
    planEvents clock cadence want first.length d second
      = (planEvents clock cadence want 0 (.start d.state) second).map
          (Draft.behind d.planned d.rows first.length) := by
  have hcalc := planEvents_calcInEvent rfl h
  have hd : d = Draft.behind d.planned d.rows first.length (.start d.state) := by
    cases d with
    | mk state planned calcInEvent rows =>
      cases hcalc
      unfold Draft.behind Draft.start
      rw [List.map_nil, List.append_nil, UInt64.add_zero]
      rfl
  conv_lhs => rw [hd]
  exact (carriesAll_behind want d.planned d.rows first.length).planEvents second 0 (.start d.state)

end

section

variable (clock : BarClock) (cadence : UInt32) (want : Bool) (before : State)

/-- The plan of a whole schedule is the plans of its parts in sequence, the points of the second
part counted from the end of the first. Where a part is refused the whole is refused for the same
reason, and then the first part is not kept either. -/
theorem planSchedule_append (first second : List Event) :
    planSchedule clock cadence want before (some (first ++ second)) =
      let one := planSchedule clock cadence want before (some first)
      let two := planSchedule clock cadence want one.after (some second)
      if one.status = .ok then
        if two.status = .ok then
          ⟨.ok, one.count + two.count, two.after,
            one.points ++ two.points.map (Point.shift first.length)⟩
        else refused before two.status
      else refused before one.status := by
  by_cases hcadence : cadenceValid cadence = true
  · unfold planSchedule
    dsimp only
    rw [if_pos hcadence, if_pos hcadence, if_pos hcadence, planEvents_append, zero_add]
    cases hfirst : planEvents clock cadence want 0 (.start before) first with
    | error why =>
      have hwhy : why ≠ .ok := by
        rintro rfl
        exact planEvents_named want 0 first hfirst
      exact (if_neg hwhy).symm
    | ok d =>
      dsimp only [Except.bind]
      rw [if_pos rfl, planEvents_behind hfirst second]
      cases hsecond : planEvents clock cadence want 0 (.start d.state) second with
      | error why =>
        have hwhy : why ≠ .ok := by
          rintro rfl
          exact planEvents_named want 0 second hsecond
        exact (if_neg hwhy).symm
      | ok d' => rfl
  · unfold planSchedule
    rw [if_neg hcadence, if_neg hcadence]
    rfl

theorem planSchedule_refused (events : Option (List Event))
    (h : (planSchedule clock cadence want before events).status ≠ .ok) :
    planSchedule clock cadence want before events
      = refused before (planSchedule clock cadence want before events).status := by
  unfold planSchedule at h ⊢
  split
  · split
    · rfl
    · rename_i hcadence _ events
      rw [if_pos hcadence] at h
      dsimp only at h
      split
      · rfl
      · rename_i d hd
        rw [hd] at h
        exact absurd rfl h
  · rfl

theorem planSchedule_forget (events : Option (List Event)) :
    planSchedule clock cadence false before events
      = { planSchedule clock cadence true before events with points := [] } := by
  unfold planSchedule
  split
  · cases events with
    | none => rfl
    | some events =>
      have h := @CarriesAll.planEvents _ _ _ _ clock cadence (carriesAll_forget true) events 0
        (.start before)
      have hstart : (Draft.start before).forget = Draft.start before := rfl
      rw [zero_add, hstart] at h
      dsimp only
      rw [h]
      cases planEvents clock cadence true 0 (.start before) events with
      | error why => rfl
      | ok d => rfl
  · rfl

end

end PineForge.Calc
