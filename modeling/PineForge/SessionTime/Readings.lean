import Mathlib
import PineForge.SessionTime.Arguments

/-!
# One offset, one reading

Where a zone has one offset at all times no window is bent, and the session clock's latest
occurrence of each window is its latest plain instance (`windowHold_fixed`). The best of the
windows, by day and then by open, is then what the plain scan finds day by day (`best_eq_scan`), so
the two readings are one (`intradayBar_fixed`).
-/

namespace PineForge.SessionTime

open Calendar Timeframe

theorem bind_id {α β : Type} (x : Id α) (f : α → Id β) : (x >>= f) = f x := rfl

theorem pure_id {α : Type} (x : α) : (pure x : Id α) = x := rfl

/-! ## Fixed clocks -/

section

variable {clock : Clock} {offset : ℤ} (hfixed : clock.Fixed offset)
include hfixed

theorem offsetAt_fixed (ms : ℤ) : offsetAt clock ms = offset := hfixed _

theorem findDaySwitch_fixed (day : ℤ) : findDaySwitch clock day = .absent := by
  unfold findDaySwitch
  dsimp only
  rw [offsetAt_fixed hfixed, offsetAt_fixed hfixed, if_pos rfl]

end

theorem days_civilFields (secs : ℤ) : (civilFields secs).days = secs / 86400 := by
  unfold Tm.days civilFields daysFromCivil
  rw [floorDays_eq]
  dsimp only
  rw [sub_add_cancel, sub_add_cancel]
  exact civilDays_civilDate _

theorem wall_civilFields (secs : ℤ) :
    (civilFields secs).days * 24 * 60 + (civilFields secs).hour * 60 + (civilFields secs).min
    = secs / 60 ∧
      (civilFields secs).sec = secs % 60 := by
  rw [days_civilFields]
  have hday : 0 ≤ secs - secs / 86400 * 86400 ∧ secs - secs / 86400 * 86400 < 86400 := by omega
  have hhour : (civilFields secs).hour = (secs - secs / 86400 * 86400) / 3600 := by
    unfold civilFields
    rw [floorDays_eq]
    exact Int.tdiv_eq_ediv_of_nonneg hday.1
  have hmin : (civilFields secs).min = (secs - secs / 86400 * 86400) / 60 % 60 := by
    unfold civilFields
    rw [floorDays_eq]
    dsimp only
    rw [Int.tdiv_eq_ediv_of_nonneg hday.1, Int.tmod_eq_emod_of_nonneg (by omega)]
  have hsec : (civilFields secs).sec = (secs - secs / 86400 * 86400) % 60 := by
    unfold civilFields
    rw [floorDays_eq]
    exact Int.tmod_eq_emod_of_nonneg hday.1
  rw [hhour, hmin, hsec]
  constructor
  · omega
  · omega

/-- The instant of a wall minute under one offset. -/
def instantAt (offset minute : ℤ) : ℤ := minute * 60000 - offset * 1000

section

variable {clock : Clock} {offset : ℤ} (hfixed : clock.Fixed offset) (hutc : clock.utc = false)
include hfixed

theorem wallMinuteCandidate_fixed (minute probe : ℤ) :
    wallMinuteCandidate clock minute probe = some (instantAt offset minute) := by
  have hsecs : (instantAt offset minute).tdiv 1000 + offset = minute * 60 := by
    unfold instantAt
    rw [show minute * 60000 - offset * 1000 = (minute * 60 - offset) * 1000 by ring,
      Int.mul_tdiv_cancel _ (by decide)]
    ring
  unfold wallMinuteCandidate Clock.fields
  dsimp only
  rw [offsetAt_fixed hfixed, offsetAt_fixed hfixed]
  change (if (civilFields ((instantAt offset minute).tdiv 1000 + offset)).days * 24 * 60
      + (civilFields ((instantAt offset minute).tdiv 1000 + offset)).hour * 60
      + (civilFields ((instantAt offset minute).tdiv 1000 + offset)).min = minute ∧
      (civilFields ((instantAt offset minute).tdiv 1000 + offset)).sec = 0
    then some (instantAt offset minute) else none) = _
  obtain ⟨hwall, hsec⟩ := wall_civilFields (minute * 60)
  rw [hsecs, hwall, hsec, if_pos (by omega)]

theorem instantOn_fixed (minute : ℤ) (later : Bool) :
    instantOn clock .absent minute later = (instantAt offset minute, false) := by
  unfold instantOn DaySwitch.absent
  simp only [offsetAt_fixed hfixed, Bool.false_eq_true, if_false, decide_true,
    List.filter_cons, if_true,
    List.filter_nil, List.getLast?_singleton, List.head?_cons, ite_self]
  rfl

include hutc

theorem wallMinuteMs_fixed (minute : ℤ) : wallMinuteMs clock minute = instantAt offset minute := by
  unfold wallMinuteMs
  dsimp only
  rw [hutc, wallMinuteCandidate_fixed hfixed, wallMinuteCandidate_fixed hfixed]
  exact min_self _

end

/-! ## Occurrences -/

/-- The start and the end of a window on a session day, under one offset. -/
def instanceOn (offset : ℤ) (w : ArgWindow) (day : ℤ) : ℤ × ℤ :=
  (instantAt offset (w.startOn day), instantAt offset (w.startOn day + w.length))

/-- The instance of a window on a traded day holds an instant. -/
def holdsOn (offset : ℤ) (s : ArgSession) (barMs : ℤ) (w : ArgWindow) (day : ℤ) : Bool :=
  s.trades day ∧ (instanceOn offset w day).1 ≤ barMs ∧ barMs < (instanceOn offset w day).2

/-- What a window holds under one offset. -/
def heldOn (offset : ℤ) (w : ArgWindow) (day : ℤ) : Held :=
  ⟨day, (instanceOn offset w day).1, (instanceOn offset w day).2⟩

/-- What is read of an occurrence under one offset. -/
structure OccursPlainly (offset : ℤ) (traded : Bool) (day : ℤ) (w : ArgWindow)
    (o : WallOccurrence) : Prop where
  traded : o.traded = traded
  clock : o.clock = w.onClock
  deviates : o.deviates = false
  startWall : o.startWall = w.startOn day * 60000
  endWall : o.endWall = (w.startOn day + w.length) * 60000
  openMs : o.openMs = (instanceOn offset w day).1
  endMs : o.endMs = (instanceOn offset w day).2

section

variable {clock : Clock} {offset : ℤ} (hfixed : clock.Fixed offset) (hutc : clock.utc = false)
include hfixed hutc

theorem occurrenceOf_fixed (traded : Bool) (day : ℤ) (w : ArgWindow) :
    OccursPlainly offset traded day w
      (occurrenceOf (m := Id) (findDaySwitch clock) clock traded day w) := by
  unfold occurrenceOf clockWallInstant
  simp only [bind_id, pure_id, findDaySwitch_fixed hfixed, instantOn_fixed hfixed,
    wallMinuteMs_fixed hfixed hutc]
  split
  · exact ⟨rfl, rfl, rfl, rfl, rfl, rfl, rfl⟩
  · rw [if_neg (by simp [DaySwitch.absent]), if_neg (by simp)]
    exact ⟨rfl, rfl, rfl, rfl, rfl, rfl, rfl⟩

theorem occurrencesOf_fixed (traded : Bool) (day : ℤ) (ws : List ArgWindow) (k : ℕ)
    (hk : k < ws.length) :
    OccursPlainly offset traded day ws[k]
      (windowOf (occurrencesOf (m := Id) (findDaySwitch clock) clock traded day ws) k) := by
  induction ws generalizing k with
  | nil => cases hk
  | cons w ws ih =>
    cases k with
    | zero => exact occurrenceOf_fixed hfixed hutc traded day w
    | succ k => exact ih k (Nat.lt_of_succ_lt_succ hk)

end

/-! ## The latest instance of a window -/

/-- The days of the plain scan. -/
def scanDays (today : ℤ) : List ℤ :=
  [today + 1, today, today - 1, today - 2, today - 3, today - 4, today - 5]

theorem scanDays_decreasing (today : ℤ) : (scanDays today).Pairwise (· > ·) := by
  unfold scanDays
  simp only [List.pairwise_cons, List.mem_cons, List.not_mem_nil, or_false,
    forall_eq_or_imp, forall_eq,
    List.Pairwise.nil, and_true, gt_iff_lt, IsEmpty.forall_iff, implies_true]
  omega

theorem firstHold_id (occurrences : ℤ → Id (List WallOccurrence)) (k : ℕ)
    (holds : WallOccurrence → Bool)
    (ds : List ℤ) :
    firstHold (m := Id) occurrences k holds ds
      = (ds.find? fun d => holds (windowOf (occurrences d) k)).map fun d =>
          ⟨d, (windowOf (occurrences d) k).openMs, (windowOf (occurrences d) k).endMs⟩ := by
  induction ds with
  | nil => rfl
  | cons d ds ih =>
    unfold firstHold
    rw [bind_id, List.find?_cons]
    dsimp only
    cases holds (windowOf (occurrences d) k) with
    | true => rfl
    | false => exact ih

theorem bentOwner_id (occurrences : ℤ → Id (List WallOccurrence)) (k : ℕ) (barMs : ℤ)
    (h : ∀ d, (windowOf (occurrences d) k).deviates = false) (ds : List ℤ) :
    bentOwner (m := Id) occurrences k barMs ds = none := by
  induction ds with
  | nil => rfl
  | cons d ds ih =>
    unfold bentOwner
    rw [bind_id]
    dsimp only
    rw [if_pos (.inr (.inl (by simp [h d])))]
    exact ih

section

variable {offset barMs day : ℤ} {s : ArgSession} {w : ArgWindow} {o : WallOccurrence}

theorem OccursPlainly.plainHolds_eq (h : OccursPlainly offset (s.trades day) day w o) :
    o.plainHolds barMs = holdsOn offset s barMs w day := by
  unfold WallOccurrence.plainHolds holdsOn
  rw [h.traded, h.openMs, h.endMs]
  refine decide_eq_decide.mpr ⟨?_, ?_⟩
  · rintro ⟨htraded, -, hin⟩
    exact ⟨htraded, hin⟩
  · rintro ⟨htraded, hle, hlt⟩
    exact ⟨htraded, lt_of_le_of_lt hle hlt, hle, hlt⟩

theorem OccursPlainly.clockHolds_eq (h : OccursPlainly offset (s.trades day) day w o) :
    o.clockHolds barMs (barMs + offset * 1000) = holdsOn offset s barMs w day := by
  unfold WallOccurrence.clockHolds holdsOn
  rw [h.traded, h.openMs, h.endMs, h.deviates, h.startWall, h.endWall]
  refine decide_eq_decide.mpr (and_congr_right fun _ => ?_)
  have hstart : (w.startOn day * 60000 ≤ barMs + offset * 1000) ↔ (instanceOn offset w day).1
      ≤ barMs := by
    unfold instanceOn instantAt
    omega
  have hend : (barMs + offset * 1000 < (w.startOn day + w.length) * 60000) ↔
      barMs < (instanceOn offset w day).2 := by
    unfold instanceOn instantAt
    omega
  rw [hstart, hend]
  cases o.overnight with
  | true => simp
  | false => simp

/-- A window that the session clock reads holds an instant on three days at most. -/
theorem day_of_holdsOn {today : ℤ} (hclock : w.onClock = true)
    (hoffset : w.dayOffset = 0 ∨ w.dayOffset = -1)
    (htoday : today = (barMs.tdiv 1000 + offset) / 86400)
    (h : holdsOn offset s barMs w day = true) :
    today - 2 ≤ day ∧ day ≤ today + 1 := by
  unfold ArgWindow.onClock at hclock
  rw [decide_eq_true_iff] at hclock
  unfold holdsOn instanceOn instantAt ArgWindow.startOn at h
  rw [decide_eq_true_iff] at h
  obtain ⟨-, hle, hlt⟩ := h
  dsimp only at hle hlt
  rw [tdiv_thousand] at htoday
  split at htoday
  · obtain hzero | hone := hoffset
    · rw [hzero] at hle hlt
      omega
    · rw [hone] at hle hlt
      omega
  · obtain hzero | hone := hoffset
    · rw [hzero] at hle hlt
      omega
    · rw [hone] at hle hlt
      omega

end

/-- At a fixed offset a hold is one scan. -/
theorem windowHold_fixed {clock : Clock} {offset : ℤ} (hfixed : clock.Fixed offset)
    (hutc : clock.utc = false)
    {s : ArgSession} (barMs : ℤ) {k : ℕ} (hk : k < s.windows.length)
    (hoffset : s.windows[k].dayOffset = 0 ∨ s.windows[k].dayOffset = -1) {today : ℤ}
    (htoday : today = (barMs.tdiv 1000 + offset) / 86400) :
    windowHold (m := Id) (dayOccurrences clock s) k barMs (barMs + offset * 1000) today
      = ((scanDays today).find? (holdsOn offset s barMs s.windows[k])).map
        (heldOn offset s.windows[k]) := by
  have hplain : ∀ d, OccursPlainly offset (s.trades d) d s.windows[k]
      (windowOf (dayOccurrences clock s d) k) :=
    fun d => occurrencesOf_fixed hfixed hutc (s.trades d) d s.windows k hk
  have hheld : (fun d => (⟨d, (windowOf (dayOccurrences clock s d) k).openMs,
      (windowOf (dayOccurrences clock s d) k).endMs⟩ : Held)) = heldOn offset s.windows[k] := by
    funext d
    rw [(hplain d).openMs, (hplain d).endMs]
    rfl
  have hplainHolds : ∀ d, (windowOf (dayOccurrences clock s d) k).plainHolds barMs
      = holdsOn offset s barMs s.windows[k] d := fun d => (hplain d).plainHolds_eq
  have hclockHolds : ∀ d, (windowOf (dayOccurrences clock s d) k).clockHolds barMs
    (barMs + offset * 1000)
      = holdsOn offset s barMs s.windows[k] d := fun d => (hplain d).clockHolds_eq
  unfold windowHold
  rw [bind_id, (hplain today).clock]
  split
  · rw [firstHold_id, hheld]
    simp only [hplainHolds]
    rfl
  · rename_i hclock
    rw [Bool.not_eq_false] at hclock
    rw [bind_id, bentOwner_id _ _ _ (fun d => (hplain d).deviates)]
    dsimp only
    rw [firstHold_id, hheld]
    simp only [hclockHolds]
    refine congrArg _ ?_
    -- outside the four days that both lists share nothing is held
    have hout : ∀ d, ¬ (today - 2 ≤ d ∧ d ≤ today + 1) → holdsOn offset s barMs s.windows[k] d
        = false := by
      intro d hd
      rw [← Bool.not_eq_true]
      exact fun hyes => hd (day_of_holdsOn hclock hoffset htoday hyes)
    unfold scanDays
    simp only [List.find?, hout (today + 2) (by omega), hout (today - 3) (by omega),
      hout (today - 4) (by omega), hout (today - 5) (by omega)]

/-! ## The best of the windows -/

section

variable (offset barMs : ℤ) (s : ArgSession)

/-- One window of a day's scan. -/
def scanStep (day : ℤ) (best : Option Held) (w : ArgWindow) : Option Held :=
  if holdsOn offset s barMs w day ∧
    (best.all fun held => decide ((heldOn offset w day).start > held.start)) = true
  then some (heldOn offset w day) else best

/-- The plain scan. -/
def scanned (ws : List ArgWindow) (ds : List ℤ) : Option Held :=
  ds.findSome? fun day => ws.foldl (scanStep offset barMs s day) none

/-- The latest instance of every window, and the best of them. -/
def bestOf (ws : List ArgWindow) (ds : List ℤ) : Option Held :=
  ws.foldl (fun best w =>
    Held.better best ((ds.find? (holdsOn offset s barMs w)).map (heldOn offset w))) none

variable {offset barMs s}

/-- What the two scans have in hand after some windows, on the latest of the days. -/
structure Agree (day : ℤ) (best scan : Option Held) : Prop where
  found : ∀ held, scan = some held → best = some held ∧ held.day = day
  nothing : scan = none → ∀ held, best = some held → held.day < day

/-- A further window keeps the agreement. -/
theorem Agree.step {day : ℤ} {best scan : Option Held} (h : Agree day best scan) {ds : List ℤ}
    (hds : ∀ d ∈ ds, d < day) (w : ArgWindow) :
    Agree day (Held.better best
      (((day :: ds).find? (holdsOn offset s barMs w)).map (heldOn offset w)))
      (scanStep offset barMs s day scan w) := by
  unfold scanStep
  rw [List.find?_cons]
  cases hholds : holdsOn offset s barMs w day with
  | true =>
    cases scan with
    | none =>
      -- the first window that holds the instant on this day: what is in hand is of an earlier day
      have hbest : Held.better best (some (heldOn offset w day)) = some (heldOn offset w day) := by
        cases hb : best with
        | none => rfl
        | some b => exact if_pos (.inl (h.nothing rfl b hb))
      dsimp only [Option.map_some]
      rw [hbest, if_pos ⟨rfl, rfl⟩]
      exact ⟨fun held heq => by cases heq; exact ⟨rfl, rfl⟩, nofun⟩
    | some held =>
      obtain ⟨rfl, rfl⟩ := h.found held rfl
      dsimp only [Option.map_some, Held.better, Option.all_some]
      by_cases hlater : (heldOn offset w held.day).start > held.start
      · rw [if_pos (.inr ⟨rfl, hlater⟩), if_pos ⟨rfl, decide_eq_true hlater⟩]
        exact ⟨fun x heq => by cases heq; exact ⟨rfl, rfl⟩, nofun⟩
      · rw [if_neg
            (by rintro (hday | ⟨-, hlate⟩); exacts [absurd hday (lt_irrefl _), hlater hlate]),
          if_neg (by rintro ⟨-, hlate⟩; exact hlater (of_decide_eq_true hlate))]
        exact ⟨fun x heq => by cases heq; exact ⟨rfl, rfl⟩, nofun⟩
  | false =>
    rw [if_neg (by rintro ⟨hyes, -⟩; cases hyes)]
    dsimp only
    have hearlier : ∀ x, ((ds.find? (holdsOn offset s barMs w)).map (heldOn offset w)) = some x →
        x.day < day := by
      intro x hx
      rw [Option.map_eq_some_iff] at hx
      obtain ⟨d, hd, rfl⟩ := hx
      exact hds d (List.mem_of_find?_eq_some hd)
    cases hx : (ds.find? (holdsOn offset s barMs w)).map (heldOn offset w) with
    | none => exact h
    | some x =>
      have hxday := hearlier x hx
      refine ⟨?_, ?_⟩
      · rintro held heq
        obtain ⟨rfl, hday⟩ := h.found held heq
        refine ⟨?_, hday⟩
        unfold Held.better
        dsimp only
        rw [if_neg (by omega)]
      · intro hnone y hy
        unfold Held.better at hy
        cases hb : best with
        | none =>
          rw [hb] at hy
          cases hy
          exact hxday
        | some b =>
          have hbday := h.nothing hnone b hb
          rw [hb] at hy
          dsimp only at hy
          split at hy
          · cases hy
            exact hxday
          · cases hy
            exact hbday

theorem agree_fold {day : ℤ} {ds : List ℤ} (hds : ∀ d ∈ ds, d < day) (ws : List ArgWindow)
    {best scan : Option Held} (h : Agree day best scan) :
    Agree day (ws.foldl (fun best w => Held.better best
        (((day :: ds).find? (holdsOn offset s barMs w)).map (heldOn offset w))) best)
      (ws.foldl (scanStep offset barMs s day) scan) := by
  induction ws generalizing best scan with
  | nil => exact h
  | cons w ws ih => exact ih (h.step hds w)

theorem scan_none {day : ℤ} (ws : List ArgWindow) {scan : Option Held}
    (h : ws.foldl (scanStep offset barMs s day) scan = none) :
    scan = none ∧ ∀ w ∈ ws, holdsOn offset s barMs w day = false := by
  induction ws generalizing scan with
  | nil => exact ⟨h, nofun⟩
  | cons w ws ih =>
    obtain ⟨hstep, hws⟩ := ih h
    unfold scanStep at hstep
    split at hstep
    · cases hstep
    · rename_i hnot
      subst hstep
      refine ⟨rfl, List.forall_mem_cons.mpr ⟨?_, hws⟩⟩
      rw [← Bool.not_eq_true]
      exact fun hyes => hnot ⟨hyes, rfl⟩

theorem best_eq_scan (ws : List ArgWindow) {ds : List ℤ} (hds : ds.Pairwise (· > ·)) :
    bestOf offset barMs s ws ds = scanned offset barMs s ws ds := by
  induction ds with
  | nil =>
    unfold bestOf scanned
    induction ws with
    | nil => rfl
    | cons w ws ih => exact ih
  | cons day ds ih =>
    obtain ⟨hday, hrest⟩ := List.pairwise_cons.mp hds
    have hagree := @agree_fold offset barMs s day ds hday ws none none ⟨nofun, fun _ => nofun⟩
    unfold scanned
    rw [List.findSome?_cons]
    cases hscan : ws.foldl (scanStep offset barMs s day) none with
    | some held =>
      rw [hscan] at hagree
      exact (hagree.found held rfl).1
    | none =>
      obtain ⟨-, hnone⟩ := scan_none ws hscan
      rw [← scanned, ← ih hrest]
      unfold bestOf
      refine List.foldl_ext _ _ none fun best w hw => ?_
      rw [List.find?_cons, hnone w hw]

theorem mem_scan {day : ℤ} {ws : List ArgWindow} {scan : Option Held} {held : Held}
    (h : ws.foldl (scanStep offset barMs s day) scan = some held) :
    scan = some held ∨ ∃ w ∈ ws, holdsOn offset s barMs w day = true ∧
      held = heldOn offset w day := by
  induction ws generalizing scan with
  | nil => exact .inl h
  | cons w ws ih =>
    obtain hstep | ⟨w', hw', hheld⟩ := ih h
    · unfold scanStep at hstep
      split at hstep
      · rename_i hholds
        cases hstep
        exact .inr ⟨w, List.mem_cons_self, hholds.1, rfl⟩
      · exact .inl hstep
    · exact .inr ⟨w', List.mem_cons_of_mem w hw', hheld⟩

theorem mem_scanned {ws : List ArgWindow} {ds : List ℤ} {held : Held}
    (h : scanned offset barMs s ws ds = some held) :
    ∃ day ∈ ds, ∃ w ∈ ws, holdsOn offset s barMs w day = true ∧ held = heldOn offset w day := by
  obtain ⟨day, hday, hscan⟩ := List.exists_of_findSome?_eq_some h
  obtain hnone | hheld := mem_scan hscan
  · cases hnone
  · exact ⟨day, hday, hheld⟩

end

/-! ## The two readings -/

theorem bestHold_id (occurrences : ℤ → Id (List WallOccurrence)) (barMs wall today : ℤ)
    (ks : List ℕ)
    (best : Option Held) :
    bestHold (m := Id) occurrences barMs wall today ks best
      = ks.foldl (fun best k =>
        Held.better best (windowHold (m := Id) occurrences k barMs wall today)) best := by
  induction ks generalizing best with
  | nil => rfl
  | cons k ks ih => exact ih _

theorem plainScan_id (barMs : ℤ) (windows : ℤ → Id (List (ℤ × ℤ))) (ds : List ℤ) :
    plainScan (m := Id) barMs windows ds = ds.findSome? fun d => scanDay d barMs (windows d) := by
  induction ds with
  | nil => rfl
  | cons d ds ih =>
    unfold plainScan
    rw [bind_id, List.findSome?_cons]
    cases scanDay d barMs (windows d) with
    | some held => rfl
    | none => exact ih

theorem foldl_windows {β : Type} (f : β → ArgWindow → β) (ws : List ArgWindow) (b : β) :
    (List.range ws.length).foldl (fun b k => f b (ws.getD k ⟨0, 0, 0⟩)) b = ws.foldl f b := by
  have hmap : (List.range ws.length).map (fun k => ws.getD k ⟨0, 0, 0⟩) = ws := by
    refine List.ext_getElem (by simp) fun k hk hk' => ?_
    rw [List.getElem_map, List.getElem_range, List.getD_eq_getElem _ _ hk']
  rw [← List.foldl_map (f := fun k => ws.getD k ⟨0, 0, 0⟩) (g := f), hmap]

section

variable {clock : Clock} {offset : ℤ} (hfixed : clock.Fixed offset) (hutc : clock.utc = false)
include hfixed

theorem today_fixed (barMs : ℤ) :
    (clock.fields barMs).days = (barMs.tdiv 1000 + offset) / 86400 := by
  unfold Clock.fields
  rw [days_civilFields, offsetAt_fixed hfixed]

include hutc

/-- A day's scan at a fixed offset. -/
theorem scanDay_fixed (s : ArgSession) (barMs day : ℤ) :
    scanDay day barMs (dayWindows clock s day)
      = s.windows.foldl (scanStep offset barMs s day) none := by
  unfold scanDay dayWindows
  simp only [wallMinuteMs_fixed hfixed hutc]
  cases htrades : s.trades day with
  | false =>
    have hnot : ∀ (ws : List ArgWindow) (best : Option Held), ws.foldl (scanStep offset barMs s day)
        best = best := by
      intro ws
      induction ws with
      | nil => exact fun _ => rfl
      | cons w ws ih =>
        intro best
        have hstep : scanStep offset barMs s day best w = best := by
          refine if_neg ?_
          rintro ⟨hyes, -⟩
          unfold holdsOn at hyes
          rw [decide_eq_true_iff, htrades] at hyes
          cases hyes.1
        rw [List.foldl_cons, hstep]
        exact ih best
    rw [hnot]
    rfl
  | true =>
    rw [if_pos rfl, List.foldl_filterMap]
    refine List.foldl_ext _ _ none fun best w _ => ?_
    have hholds : holdsOn offset s barMs w day = true ↔
        instantAt offset (w.startOn day) ≤ barMs ∧
          barMs < instantAt offset (w.startOn day + w.length) := by
      unfold holdsOn instanceOn
      rw [decide_eq_true_iff, htrades]
      exact and_iff_right rfl
    unfold scanStep
    by_cases hpos : instantAt offset (w.startOn day + w.length) > instantAt offset (w.startOn day)
    · rw [if_pos hpos]
      dsimp only
      refine if_congr ?_ rfl rfl
      rw [hholds, and_assoc]
      exact Iff.rfl
    · rw [if_neg hpos]
      dsimp only
      rw [if_neg]
      rintro ⟨hyes, -⟩
      obtain ⟨hle, hlt⟩ := hholds.mp hyes
      omega

theorem plainIntradayBar_fixed (s : ArgSession) (barMs tfMs : ℤ) :
    plainIntradayBar (m := Id) barMs (dayWindows clock s) clock tfMs
      = (scanned offset barMs s s.windows (scanDays ((barMs.tdiv 1000 + offset) / 86400))).map
          (·.bar barMs tfMs) := by
  unfold plainIntradayBar
  rw [bind_id, plainScan_id, today_fixed hfixed]
  simp only [scanDay_fixed hfixed hutc]
  rfl

theorem clockIntradayBar_fixed (s : ArgSession)
    (hoffset : ∀ w ∈ s.windows, w.dayOffset = 0 ∨ w.dayOffset = -1)
    (barMs tfMs : ℤ) :
    clockIntradayBar (m := Id) (dayOccurrences clock s) barMs clock s tfMs
      = (bestOf offset barMs s s.windows (scanDays ((barMs.tdiv 1000 + offset) / 86400))).map
          (·.bar barMs tfMs) := by
  unfold clockIntradayBar bestOf
  rw [bind_id, bestHold_id, today_fixed hfixed, offsetAt_fixed hfixed, pure_id]
  refine congrArg _ ?_
  rw [← foldl_windows]
  refine List.foldl_ext _ _ none fun best k hk => ?_
  have hlt : k < s.windows.length := List.mem_range.mp hk
  rw [windowHold_fixed hfixed hutc barMs hlt (hoffset _ (List.getElem_mem hlt)) rfl,
    List.getD_eq_getElem _ _ hlt]

theorem intradayBar_fixed (s : ArgSession)
    (hoffset : ∀ w ∈ s.windows, w.dayOffset = 0 ∨ w.dayOffset = -1)
    (barMs tfMs : ℤ) (onClock : Bool) :
    intradayBar clock s barMs tfMs onClock
      = (scanned offset barMs s s.windows (scanDays ((barMs.tdiv 1000 + offset) / 86400))).map
          (·.bar barMs tfMs) := by
  unfold intradayBar
  split
  · rw [clockIntradayBar_fixed hfixed hutc s hoffset, best_eq_scan _ (scanDays_decreasing _)]
  · exact plainIntradayBar_fixed hfixed hutc s barMs tfMs

end

/-- The bar that is cut from an instance holds the instant, at a whole number of widths from its
open. -/
theorem Held.bar_spec (held : Held) {barMs tfMs : ℤ} (htf : 0 < tfMs) (hle : held.start ≤ barMs)
    (hlt : barMs < held.stop) :
    (held.bar barMs tfMs).1 ≤ barMs ∧ barMs < (held.bar barMs tfMs).2 ∧
      tfMs ∣ (held.bar barMs tfMs).1 - held.start := by
  unfold Held.bar
  dsimp only
  rw [Int.tdiv_eq_ediv_of_nonneg (by omega)]
  have hmod := Int.mul_ediv_add_emod (barMs - held.start) tfMs
  have hnonneg := Int.emod_nonneg (barMs - held.start) htf.ne'
  have hsmall := Int.emod_lt_of_pos (barMs - held.start) htf
  rw [mul_comm] at hmod
  refine ⟨by omega, lt_min (by omega) hlt, ?_⟩
  rw [add_sub_cancel_left]
  exact dvd_mul_left _ _

theorem dayOffset_of_window {clocks : ℤ × ℤ} {w : ArgWindow} (h : argWindow clocks = some w) :
    w.dayOffset = 0 ∨ w.dayOffset = -1 := by
  unfold argWindow at h
  obtain ⟨-, heq⟩ := Option.ite_none_left_eq_some.mp h
  rw [← Option.some.inj heq]
  dsimp only
  split
  · exact .inr rfl
  · exact .inl rfl

theorem dayOffset_of_read {session : List Char} {s : ArgSession}
    (h : readArgSession session = some s) :
    ∀ w ∈ s.windows, w.dayOffset = 0 ∨ w.dayOffset = -1 := by
  have hpieces : ∀ pieces : List (List Char), ∀ w ∈ pieces.filterMap fun piece =>
      (windowClocks piece).bind argWindow, w.dayOffset = 0 ∨ w.dayOffset = -1 := by
    intro pieces w hw
    rw [List.mem_filterMap] at hw
    obtain ⟨piece, -, hpiece⟩ := hw
    rw [Option.bind_eq_some_iff] at hpiece
    obtain ⟨clocks, -, hwindow⟩ := hpiece
    exact dayOffset_of_window hwindow
  unfold readArgSession at h
  obtain ⟨-, heq⟩ := Option.ite_none_left_eq_some.mp h
  rw [← Option.some.inj heq]
  exact hpieces _

end PineForge.SessionTime
