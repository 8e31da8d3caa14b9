import Mathlib
import PineForge.Calc.Split

/-!
# Bars and their calculations

What every step of a derivation can do to a draft, and from it the order of the points over any
clock: the calculations of a bar are numbered from zero, only the last one confirms it, and the next
bar has the next key.
-/

namespace PineForge.Calc

/-! ## What a step does -/

/-- The draft with one more calculation of the event. -/
def Draft.push (e : Driving) (phase : Phase) (position : ℤ) (key inBar : ℕ) (finality : Finality)
    (d : Draft) :
    Draft :=
  { d with
    planned := d.planned + 1
    calcInEvent := d.calcInEvent + 1
    rows := d.rows ++ [⟨e.index, e.ordinal, key, inBar, d.calcInEvent, position, phase, finality⟩] }

section

variable {clock : BarClock} {cadence : UInt32} {e : Driving} {d d' : Draft}

theorem emit_ok (he : e.wantPoints = true) {phase : Phase} {position : ℤ} {key inBar : ℕ}
    {finality : Finality} (h : emit e phase position key inBar finality d = .ok d') :
    inside e phase position d.state = true ∧ d' = d.push e phase position key inBar finality := by
  unfold emit at h
  rw [if_pos he] at h
  split at h
  · rename_i hinside
    cases h
    exact ⟨hinside, rfl⟩
  · cases h

theorem emit_map_ok (he : e.wantPoints = true) {f : Draft → Draft} {phase : Phase} {position : ℤ}
    {key inBar : ℕ} {finality : Finality}
    (h : (emit e phase position key inBar finality d).map f = .ok d') :
    inside e phase position d.state = true ∧
      d' = f (d.push e phase position key inBar finality) := by
  cases hemit : emit e phase position key inBar finality d with
  | error why =>
    rw [hemit] at h
    cases h
  | ok pushed =>
    rw [hemit] at h
    cases h
    obtain ⟨hinside, rfl⟩ := emit_ok he hemit
    exact ⟨hinside, rfl⟩

theorem closeDue_ok (he : e.wantPoints = true) (h : closeDue clock e d = .ok d') :
    (d.state.barOpen = true ∧ d.state.openEndMs ≤ e.time ∧
      inside e .pre d.state.openEndMs d.state = true ∧
      d' = closeBar (d.push e .pre d.state.openEndMs d.state.lastBarKey d.state.calcInBar
        .confirmed)) ∨
    ((d.state.barOpen = true → hasBoundaries clock e.time = true → e.time < d.state.openEndMs) ∧
      d' = d) := by
  unfold closeDue at h
  split at h
  · rename_i hdue
    rw [Bool.and_eq_true, Bool.and_eq_true, decide_eq_true_eq] at hdue
    obtain ⟨hinside, rfl⟩ := emit_map_ok he h
    exact .inl ⟨hdue.1.1, hdue.1.2, hinside, rfl⟩
  · rename_i hdue
    cases h
    refine .inr ⟨fun hopen hbounds => ?_, rfl⟩
    rw [hopen, hbounds, Bool.true_and, Bool.and_true, decide_eq_true_eq, not_le] at hdue
    exact hdue

theorem quietBar_ok (he : e.wantPoints = true) {slot : Slot} (h : quietBar e slot d = .ok d') :
    (slot.tradable = true ∧ inside e .pre slot.endMs d.state = true ∧
      d' = (d.withState { d.state with lastBarKey := d.state.lastBarKey + 1 }).push e
        .pre slot.endMs
        (d.state.lastBarKey + 1) 0 .confirmed) ∨
    (slot.tradable = false ∧ d' = d) := by
  unfold quietBar at h
  split at h
  · rename_i htradable
    split at h
    · cases h
    · obtain ⟨hinside, rfl⟩ := emit_ok he h
      exact .inl ⟨htradable, hinside, rfl⟩
  · rename_i htradable
    cases h
    exact .inr ⟨Bool.eq_false_of_not_eq_true htradable, rfl⟩

/-- The walk over the quiet intervals keeps what one interval keeps, and ends at an interval that
ends after the event. -/
theorem quietBars_ok {P : Draft → Prop}
    (hstep : ∀ d slot d', d.state.hasLastKey = true → d.state.barOpen = false →
      clock d.state.cursorMs = some slot → slot.bounded = true → slot.endMs ≤ e.time →
      quietBar e slot d = .ok d' → P d → P (moveCursor slot d'))
    (hd : P d) (h : quietBars clock e d = .ok d') :
    P d' ∧ (d'.state.hasLastKey = true → d'.state.barOpen = false →
      ∀ slot, clock d'.state.cursorMs = some slot → slot.bounded = true →
        e.time < slot.endMs ∨ slot.nextOpenMs ≤ d'.state.cursorMs) := by
  induction d using quietBars.induct clock e with
  | case1 d hopen hslot =>
    rw [quietBars, if_pos hopen, hslot] at h
    cases h
    refine ⟨hd, fun _ _ slot hsome => ?_⟩
    rw [hslot] at hsome
    cases hsome
  | case2 d hopen slot hslot hbounded =>
    rw [quietBars, if_pos hopen, hslot] at h
    dsimp only at h
    rw [if_pos hbounded] at h
    cases h
    refine ⟨hd, fun _ _ slot' hsome hbounded' => ?_⟩
    rw [hslot] at hsome
    cases hsome
    rw [hbounded] at hbounded'
    cases hbounded'
  | case3 d hopen slot hslot hbounded hend =>
    rw [quietBars, if_pos hopen, hslot] at h
    dsimp only at h
    rw [if_neg hbounded, dif_pos hend] at h
    cases h
    refine ⟨hd, fun _ _ slot' hsome _ => ?_⟩
    rw [hslot] at hsome
    cases hsome
    exact hend
  | case4 d hopen slot hslot hbounded hend why hquiet =>
    rw [quietBars, if_pos hopen, hslot] at h
    dsimp only at h
    rw [if_neg hbounded, dif_neg hend, hquiet] at h
    cases h
  | case5 d hopen slot hslot hbounded hend next hquiet ih =>
    rw [quietBars, if_pos hopen, hslot] at h
    dsimp only at h
    rw [if_neg hbounded, dif_neg hend, hquiet] at h
    rw [Bool.and_eq_true, Bool.not_eq_true'] at hopen
    rw [not_or, not_lt] at hend
    exact ih (hstep d slot next hopen.1 hopen.2 hslot (Bool.eq_true_of_not_eq_false hbounded) hend.1
      hquiet hd) h
  | case6 d hopen =>
    rw [quietBars, if_neg hopen] at h
    cases h
    refine ⟨hd, fun hkey hclosed => ?_⟩
    rw [hkey, hclosed] at hopen
    exact absurd rfl hopen

theorem openBar_ok (h : openBar clock e d = .ok d') :
    ∃ slot, clock e.time = some slot ∧ (slot.bounded = true → e.time < slot.endMs) ∧
      d' = d.withState { d.state with
        lastBarKey := if d.state.hasLastKey then d.state.lastBarKey + 1 else 0
        hasLastKey := true
        barOpen := true
        openEndMs := if slot.bounded then slot.endMs else 0
        cursorMs := if slot.bounded then slot.nextOpenMs else d.state.cursorMs
        calcInBar := 0 } := by
  unfold openBar at h
  split at h
  · cases h
  · split at h
    · cases h
    · rename_i slot hslot
      split at h
      · cases h
      · rename_i hend
        cases h
        refine ⟨slot, hslot, fun hbounded => ?_, rfl⟩
        rw [hbounded, Bool.true_and, decide_eq_true_eq, not_le] at hend
        exact hend

theorem barAt_ok (h : barAt clock e d = .ok d') :
    (d.state.barOpen = true ∧ d' = d) ∨ (d.state.barOpen = false ∧ openBar clock e d = .ok d') := by
  unfold barAt at h
  split at h
  · rename_i hopen
    cases h
    exact .inl ⟨hopen, rfl⟩
  · rename_i hclosed
    exact .inr ⟨Bool.eq_false_of_not_eq_true hclosed, h⟩

theorem barAt_open (h : barAt clock e d = .ok d') : d'.state.barOpen = true := by
  obtain ⟨hopen, rfl⟩ | ⟨-, hopened⟩ := barAt_ok h
  · exact hopen
  · obtain ⟨slot, -, -, rfl⟩ := openBar_ok hopened
    rfl

/-- The intrabar calculation of the event, and the one that confirms the bar. -/
def Draft.provisional (e : Driving) (d : Draft) : Draft :=
  countCalc (d.push e .post e.time d.state.lastBarKey d.state.calcInBar .provisional)

/-- The calculation at a bar's close. -/
def Draft.confirm (e : Driving) (d : Draft) : Draft :=
  closeBar (d.push e .post e.time d.state.lastBarKey d.state.calcInBar .confirmed)

/-- Data is calculated in the open bar, or in one opened at the event; a time advance only in an
open one. -/
theorem payload_ok (he : e.wantPoints = true) {kind : EventKind} (hkind : kind.isKnown = true)
    (h : payload clock cadence e kind d = .ok d') :
    ∃ opened, ((kind.isData = true ∧ barAt clock e d = .ok opened) ∨
      (kind.isData = false ∧ opened = d)) ∧
      (d' = opened ∨ (opened.state.barOpen = true ∧ d' = opened.provisional e) ∨
        (opened.state.barOpen = true ∧ d' = opened.confirm e)) := by
  have hbar : ∀ next : Draft → Except Status Draft, (barAt clock e d >>= next) = .ok d' →
      ∃ opened, barAt clock e d = .ok opened ∧ next opened = .ok d' := by
    intro next hnext
    cases hopened : barAt clock e d with
    | error why =>
      rw [hopened] at hnext
      cases hnext
    | ok opened =>
      rw [hopened] at hnext
      exact ⟨opened, rfl, hnext⟩
  cases kind with
  | tick =>
    obtain ⟨opened, hopened, hnext⟩ := hbar _ h
    refine ⟨opened, .inl ⟨rfl, hopened⟩, ?_⟩
    split at hnext
    · obtain ⟨-, rfl⟩ := emit_map_ok he hnext
      exact .inr (.inl ⟨barAt_open hopened, rfl⟩)
    · cases hnext
      exact .inl rfl
  | warmupBar =>
    obtain ⟨opened, hopened, hnext⟩ := hbar _ h
    obtain ⟨-, rfl⟩ := emit_map_ok he hnext
    exact ⟨opened, .inl ⟨rfl, hopened⟩, .inr (.inr ⟨barAt_open hopened, rfl⟩)⟩
  | bar =>
    obtain ⟨opened, hopened, hnext⟩ := hbar _ h
    obtain ⟨-, rfl⟩ := emit_map_ok he hnext
    exact ⟨opened, .inl ⟨rfl, hopened⟩, .inr (.inr ⟨barAt_open hopened, rfl⟩)⟩
  | advanceTime =>
    refine ⟨d, .inr ⟨rfl, rfl⟩, ?_⟩
    unfold payload at h
    dsimp only at h
    split at h
    · rename_i hcadence
      obtain ⟨-, rfl⟩ := emit_map_ok he h
      rw [Bool.and_eq_true] at hcadence
      exact .inr (.inl ⟨hcadence.1, rfl⟩)
    · cases h
      exact .inl rfl
  | unknown raw => cases hkind

/-- An event closes what is due, walks the quiet intervals, and drives its own calculations. -/
theorem planEvent_ok {want : Bool} {index : ℕ} {event : Event}
    (h : planEvent clock cadence want index event d = .ok d') :
    event.kind.isKnown = true ∧ d.state.traceFirst ≠ maxOrdinal ∧ ∃ closed quiet paid,
      closeDue clock ⟨want, index, d.state.traceFirst, event.timeMs⟩ d = .ok closed ∧
      quietBars clock ⟨want, index, d.state.traceFirst, event.timeMs⟩ closed = .ok quiet ∧
      payload clock cadence ⟨want, index, d.state.traceFirst, event.timeMs⟩ event.kind quiet
        = .ok paid ∧
      d' = passEvent ⟨want, index, d.state.traceFirst, event.timeMs⟩ paid := by
  unfold planEvent at h
  split at h
  · cases h
  · rename_i hkind
    split at h
    · cases h
    · rename_i htrace
      dsimp only [bind, Except.bind] at h
      split at h
      · cases h
      · rename_i closed hclosed
        split at h
        · cases h
        · rename_i quiet hquiet
          split at h
          · cases h
          · rename_i paid hpaid
            cases h
            exact ⟨Bool.eq_true_of_not_eq_false hkind, htrace, closed, quiet, paid, hclosed,
              hquiet, hpaid,
              rfl⟩

end

/-! ## What an event leaves alone -/

/-- The drafts belong to the same event. -/
structure SameEvent (d d' : Draft) : Prop where
  traceFirst : d'.state.traceFirst = d.state.traceFirst
  hasPrevEvent : d'.state.hasPrevEvent = d.state.hasPrevEvent
  prevEventMs : d'.state.prevEventMs = d.state.prevEventMs

namespace SameEvent

variable {clock : BarClock} {e : Driving} {d₀ d d' : Draft}

theorem refl (d : Draft) : SameEvent d d := ⟨rfl, rfl, rfl⟩

theorem closeDue (h : SameEvent d₀ d) (he : e.wantPoints = true)
    (hclose : closeDue clock e d = .ok d') :
    SameEvent d₀ d' := by
  obtain ⟨-, -, -, rfl⟩ | ⟨-, rfl⟩ := closeDue_ok he hclose
  · exact ⟨h.traceFirst, h.hasPrevEvent, h.prevEventMs⟩
  · exact h

theorem quietBar (h : SameEvent d₀ d) (he : e.wantPoints = true) {slot : Slot}
    (hquiet : quietBar e slot d = .ok d') : SameEvent d₀ (moveCursor slot d') := by
  obtain ⟨-, -, rfl⟩ | ⟨-, rfl⟩ := quietBar_ok he hquiet
  · exact ⟨h.traceFirst, h.hasPrevEvent, h.prevEventMs⟩
  · exact ⟨h.traceFirst, h.hasPrevEvent, h.prevEventMs⟩

theorem quietBars (h : SameEvent d₀ d) (he : e.wantPoints = true)
    (hquiet : quietBars clock e d = .ok d') :
    SameEvent d₀ d' := by
  refine (quietBars_ok ?_ h hquiet).1
  intro d slot d' _ _ _ _ _ hquiet h
  exact h.quietBar he hquiet

theorem barAt (h : SameEvent d₀ d) (hbar : barAt clock e d = .ok d') : SameEvent d₀ d' := by
  obtain ⟨-, rfl⟩ | ⟨-, hopened⟩ := barAt_ok hbar
  · exact h
  · obtain ⟨slot, -, -, rfl⟩ := openBar_ok hopened
    exact ⟨h.traceFirst, h.hasPrevEvent, h.prevEventMs⟩

end SameEvent

theorem planEvents_ok {clock : BarClock} {cadence : UInt32} {want : Bool}
    {P : List Event → Draft → Prop}
    (hstep : ∀ seen event index d d', P seen d →
      planEvent clock cadence want index event d = .ok d' →
      P (seen ++ [event]) d')
    {events : List Event} {seen : List Event} {index : ℕ} {d d' : Draft} (hd : P seen d)
    (h : planEvents clock cadence want index d events = .ok d') : P (seen ++ events) d' := by
  induction events generalizing seen index d with
  | nil =>
    cases h
    rw [List.append_nil]
    exact hd
  | cons event rest ih =>
    unfold planEvents at h
    cases hevent : planEvent clock cadence want index event d with
    | error why =>
      rw [hevent] at h
      cases h
    | ok next =>
      rw [hevent] at h
      have hrest := ih (hstep seen event index d next hd hevent) h
      rw [List.append_assoc, List.singleton_append] at hrest
      exact hrest

/-! ## The order of the points -/

/-- The key and the ordinal of the calculation after a point. -/
def Point.following (p : Point) : ℕ × ℕ :=
  match p.finality with
  | .provisional => (p.barKey, p.calcOrdinal + 1)
  | .confirmed => (p.barKey + 1, 0)

/-- The key and the ordinal of the next calculation. -/
def due (rows : List Point) : ℕ × ℕ :=
  match rows.getLast? with
  | none => (0, 0)
  | some p => p.following

/-- Every calculation is the one that was due. -/
inductive Ordered : List Point → Prop where
  | nil : Ordered []
  | snoc {rows : List Point} {p : Point} (h : Ordered rows) (hdue : (p.barKey, p.calcOrdinal)
    = due rows) :
    Ordered (rows ++ [p])

theorem due_snoc (rows : List Point) (p : Point) : due (rows ++ [p]) = p.following := by
  unfold due
  rw [List.getLast?_concat]

namespace Ordered

/-- The points of one bar. -/
def ofKey (key : ℕ) (rows : List Point) : List Point := rows.filter fun p => p.barKey = key

theorem ofKey_snoc (key : ℕ) (rows : List Point) (p : Point) :
    ofKey key (rows ++ [p]) = ofKey key rows ++ if p.barKey = key then [p] else [] := by
  unfold ofKey
  rw [List.filter_append, List.filter_singleton]
  by_cases hkey : p.barKey = key
  · rw [if_pos hkey, decide_eq_true hkey]
    rfl
  · rw [if_neg hkey, decide_eq_false hkey]
    rfl

/-- The bar that is due has had its calculations so far, none of which confirms it; later bars have
had none. -/
theorem ofKey_due {rows : List Point} (h : Ordered rows) (key : ℕ) :
    (key = (due rows).1 → (ofKey key rows).length = (due rows).2 ∧
      ∀ p ∈ ofKey key rows, p.finality = .provisional) ∧
    ((due rows).1 < key → ofKey key rows = []) := by
  induction h with
  | nil => exact ⟨fun _ => ⟨rfl, nofun⟩, fun _ => rfl⟩
  | @snoc rows p h hdue ih =>
    obtain ⟨hcurrent, hlater⟩ := ih
    rw [due_snoc, ofKey_snoc]
    rw [← hdue] at hcurrent hlater
    unfold Point.following
    cases hfinality : p.finality with
    | provisional =>
      dsimp only at hcurrent hlater ⊢
      refine ⟨?_, ?_⟩
      · rintro rfl
        obtain ⟨hlength, hall⟩ := hcurrent rfl
        rw [if_pos rfl, List.length_append, hlength]
        refine ⟨rfl, fun q hq => ?_⟩
        obtain hq | hq := List.mem_append.mp hq
        · exact hall q hq
        · rw [List.mem_singleton.mp hq]
          exact hfinality
      · intro hlt
        rw [hlater hlt, if_neg hlt.ne]
        rfl
    | confirmed =>
      dsimp only at hcurrent hlater ⊢
      refine ⟨?_, ?_⟩
      · rintro rfl
        rw [hlater (Nat.lt_succ_self _), if_neg (Nat.lt_succ_self _).ne]
        exact ⟨rfl, nofun⟩
      · intro hlt
        rw [hlater (by omega), if_neg (by omega)]
        rfl

/-- The calculations of a bar are numbered from zero, and only the last one may confirm it. -/
theorem ofKey_spec {rows : List Point} (h : Ordered rows) (key : ℕ) :
    (ofKey key rows).map (·.calcOrdinal) = List.range (ofKey key rows).length ∧
      ∀ p ∈ (ofKey key rows).dropLast, p.finality = .provisional := by
  induction h with
  | nil => exact ⟨rfl, nofun⟩
  | @snoc rows p h hdue ih =>
    rw [ofKey_snoc]
    by_cases hkey : p.barKey = key
    · rw [if_pos hkey, List.map_append, List.length_append, List.dropLast_concat, ih.1]
      obtain ⟨hlength, hall⟩ := (ofKey_due h key).1 (by rw [← hdue]; exact hkey.symm)
      refine ⟨?_, hall⟩
      rw [← hdue] at hlength
      rw [List.length_singleton, List.range_succ, hlength]
      rfl
    · rw [if_neg hkey, List.append_nil]
      exact ih

theorem isChain {rows : List Point} (h : Ordered rows) :
    rows.IsChain fun p q => q.barKey = p.barKey ∨ q.barKey = p.barKey + 1 := by
  induction h with
  | nil => exact List.IsChain.nil
  | @snoc rows p h hdue ih =>
    rw [List.isChain_append]
    refine ⟨ih, List.IsChain.singleton p, ?_⟩
    intro q hq r hr
    cases hr
    unfold due at hdue
    rw [Option.mem_def.mp hq] at hdue
    unfold Point.following at hdue
    dsimp only at hdue
    split at hdue
    · exact .inl (congrArg Prod.fst hdue)
    · exact .inr (congrArg Prod.fst hdue)

theorem ofKey_eq_singleton {rows : List Point} (h : Ordered rows) {p : Point} (hp : p ∈ rows)
    (hordinal : p.calcOrdinal = 0) (hfinality : p.finality = .confirmed) :
    ofKey p.barKey rows = [p] := by
  obtain ⟨hrange, hall⟩ := ofKey_spec h p.barKey
  have hmem : p ∈ ofKey p.barKey rows := List.mem_filter.mpr ⟨hp, decide_eq_true rfl⟩
  obtain ⟨i, hi, hget⟩ := List.getElem_of_mem hmem
  have hordinals : ((ofKey p.barKey rows).map (·.calcOrdinal))[i]? = some p.calcOrdinal := by
    rw [List.getElem?_map, List.getElem?_eq_getElem hi, hget]
    rfl
  rw [hrange, List.getElem?_range hi, hordinal] at hordinals
  have hzero := Option.some.inj hordinals
  -- a point that is not the last one would be provisional
  have hlast : ¬i < (ofKey p.barKey rows).dropLast.length := by
    intro hlt
    have hprovisional := hall _ (List.getElem_mem hlt)
    rw [List.getElem_dropLast, hget, hfinality] at hprovisional
    cases hprovisional
  rw [List.length_dropLast, hzero] at hlast
  have hlength : (ofKey p.barKey rows).length = 1 := by omega
  obtain ⟨q, hq⟩ := List.length_eq_one_iff.mp hlength
  rw [hq, List.mem_singleton] at hmem
  rw [hq, hmem]

end Ordered

/-! ## The state names the calculation that is due -/

/-- The points are in order and the state of the draft names the one that is due. -/
structure Keyed (d : Draft) : Prop where
  ordered : Ordered d.rows
  fresh : d.state.hasLastKey = false → d.state.barOpen = false ∧ d.rows = []
  opened : d.state.barOpen = true → (d.state.lastBarKey, d.state.calcInBar) = due d.rows
  closed : d.state.hasLastKey = true → d.state.barOpen = false → due d.rows
    = (d.state.lastBarKey + 1, 0)
  counted : d.state.calcInBar < d.state.traceFirst
  trace : d.state.traceFirst ≤ maxOrdinal

namespace Keyed

variable {clock : BarClock} {cadence : UInt32} {e : Driving} {d d' : Draft}

theorem hasLastKey (h : Keyed d) (hopen : d.state.barOpen = true) : d.state.hasLastKey = true := by
  by_contra hfresh
  rw [(h.fresh (Bool.eq_false_of_not_eq_true hfresh)).1] at hopen
  cases hopen

theorem traceFirst_pos (h : Keyed d) : 0 < d.state.traceFirst := Nat.zero_lt_of_lt h.counted

theorem closeBar_push (h : Keyed d) (hopen : d.state.barOpen = true) (phase : Phase)
    (position : ℤ) :
    Keyed (closeBar (d.push e phase position d.state.lastBarKey d.state.calcInBar .confirmed)) := by
  have hkey := h.hasLastKey hopen
  refine ⟨h.ordered.snoc (h.opened hopen), ?_, nofun, ?_, h.traceFirst_pos, h.trace⟩
  · intro hfresh
    rw [show (closeBar (d.push e phase position d.state.lastBarKey d.state.calcInBar
      .confirmed)).state.hasLastKey = d.state.hasLastKey from rfl, hkey] at hfresh
    cases hfresh
  · intro _ _
    exact due_snoc _ _

theorem closeDue (h : Keyed d) (he : e.wantPoints = true) (hclose : closeDue clock e d = .ok d') :
    Keyed d' := by
  obtain ⟨hopen, -, -, rfl⟩ | ⟨-, rfl⟩ := closeDue_ok he hclose
  · exact h.closeBar_push hopen _ _
  · exact h

theorem moveCursor (h : Keyed d) (slot : Slot) : Keyed (moveCursor slot d) :=
  ⟨h.ordered, h.fresh, h.opened, h.closed, h.counted, h.trace⟩

theorem quietBar (h : Keyed d) (he : e.wantPoints = true) (hkey : d.state.hasLastKey = true)
    (hclosed : d.state.barOpen = false) {slot : Slot} (hquiet : quietBar e slot d = .ok d') :
    Keyed d' := by
  obtain ⟨-, -, rfl⟩ | ⟨-, rfl⟩ := quietBar_ok he hquiet
  · refine ⟨h.ordered.snoc (h.closed hkey hclosed).symm, ?_, ?_, ?_, h.counted, h.trace⟩
    · intro hfresh
      change d.state.hasLastKey = false at hfresh
      rw [hkey] at hfresh
      cases hfresh
    · intro hopen
      change d.state.barOpen = true at hopen
      rw [hclosed] at hopen
      cases hopen
    · intro _ _
      exact due_snoc _ _
  · exact h

theorem quietBars (h : Keyed d) (he : e.wantPoints = true) (hquiet : quietBars clock e d = .ok d') :
    Keyed d' := by
  refine (quietBars_ok ?_ h hquiet).1
  intro d slot d' hkey hclosed _ _ _ hquiet h
  exact (h.quietBar he hkey hclosed hquiet).moveCursor slot

theorem barAt (h : Keyed d) (hbar : barAt clock e d = .ok d') : Keyed d' := by
  obtain ⟨-, rfl⟩ | ⟨hclosed, hopened⟩ := barAt_ok hbar
  · exact h
  · obtain ⟨slot, -, -, rfl⟩ := openBar_ok hopened
    refine ⟨h.ordered, nofun, ?_, nofun, h.traceFirst_pos, h.trace⟩
    intro _
    change ((if d.state.hasLastKey = true then d.state.lastBarKey + 1 else 0), 0) = due d.rows
    cases hkey : d.state.hasLastKey with
    | true =>
      rw [h.closed hkey hclosed]
      rfl
    | false =>
      rw [(h.fresh hkey).2]
      rfl

theorem pass (h : Keyed d) (htrace : d.state.traceFirst ≠ maxOrdinal) : Keyed (passEvent e d) :=
  ⟨h.ordered, h.fresh, h.opened, h.closed, Nat.lt_succ_of_lt h.counted,
    Nat.succ_le_of_lt (Nat.lt_of_le_of_ne h.trace htrace)⟩

/-- The count of the calculations of a bar stays below the count of the events, and hence does not
wrap. -/
theorem pass_provisional (h : Keyed d) (hopen : d.state.barOpen = true)
    (htrace : d.state.traceFirst ≠ maxOrdinal) : Keyed (passEvent e (d.provisional e)) := by
  have hkey := h.hasLastKey hopen
  have hcounted := h.counted
  have hle := h.trace
  have hmod : (d.state.calcInBar + 1) % 2 ^ 64 = d.state.calcInBar + 1 := by
    refine Nat.mod_eq_of_lt ?_
    unfold maxOrdinal at hle
    omega
  refine ⟨h.ordered.snoc (h.opened hopen), ?_, ?_, ?_, ?_, ?_⟩
  · intro hfresh
    change d.state.hasLastKey = false at hfresh
    rw [hkey] at hfresh
    cases hfresh
  · intro _
    change (d.state.lastBarKey, (d.state.calcInBar + 1) % 2 ^ 64) = due (d.rows ++ [_])
    rw [due_snoc, hmod]
    rfl
  · intro _ hclosed
    change d.state.barOpen = false at hclosed
    rw [hopen] at hclosed
    cases hclosed
  · change (d.state.calcInBar + 1) % 2 ^ 64 < d.state.traceFirst + 1
    rw [hmod]
    omega
  · exact Nat.succ_le_of_lt (Nat.lt_of_le_of_ne hle htrace)

theorem planEvent (h : Keyed d) {index : ℕ} {event : Event}
    (hevent : planEvent clock cadence true index event d = .ok d') : Keyed d' := by
  obtain ⟨hkind, htrace, closed, quiet, paid, hclosed, hquiet, hpaid, rfl⟩ := planEvent_ok hevent
  have hkeyed := (h.closeDue rfl hclosed).quietBars rfl hquiet
  have hsame := ((SameEvent.refl d).closeDue rfl hclosed).quietBars rfl hquiet
  obtain ⟨opened, hopened, hdone⟩ := payload_ok rfl hkind hpaid
  have hkeyed' : Keyed opened ∧ opened.state.traceFirst ≠ maxOrdinal := by
    obtain ⟨-, hbar⟩ | ⟨-, rfl⟩ := hopened
    · refine ⟨hkeyed.barAt hbar, ?_⟩
      rw [(hsame.barAt hbar).traceFirst]
      exact htrace
    · rw [hsame.traceFirst]
      exact ⟨hkeyed, htrace⟩
  obtain rfl | ⟨hopen, rfl⟩ | ⟨hopen, rfl⟩ := hdone
  · exact hkeyed'.1.pass hkeyed'.2
  · exact hkeyed'.1.pass_provisional hopen hkeyed'.2
  · exact (hkeyed'.1.closeBar_push hopen _ _).pass hkeyed'.2

end Keyed

end PineForge.Calc
