import Mathlib
import PineForge.Calc.Keys

/-!
# Schedules over a tiling

Over a clock that tiles the time, the points of a schedule stand in time order, and every tradable
tile that is passed over after the first bar gets one bar of its own.
-/

namespace PineForge.Calc

/-- The time before a horizon cut into tiles. Each tile names the start of a later one, or the
horizon, and no tile between the two is tradable. -/
structure Tiling where
  horizon : ℤ
  start : ℤ → ℤ
  stop : ℤ → ℤ
  next : ℤ → ℤ
  tradable : ℤ → Bool
  horizon_le : horizon ≤ maxTime
  start_le : ∀ t, t < horizon → start t ≤ t
  lt_stop : ∀ t, t < horizon → t < stop t
  stop_le_next : ∀ t, t < horizon → stop t ≤ next t
  next_le : ∀ t, t < horizon → next t ≤ horizon
  start_next : ∀ t, t < horizon → next t < horizon → start (next t) = next t
  closed : ∀ t u, t < horizon → stop t ≤ u → u < next t → tradable u = false
  start_eq : ∀ t u, t < horizon → start t ≤ u → u < stop t → start u = start t
  stop_eq : ∀ t u, t < horizon → start t ≤ u → u < stop t → stop u = stop t
  next_eq : ∀ t u, t < horizon → start t ≤ u → u < stop t → next u = next t
  tradable_eq : ∀ t u, t < horizon → start t ≤ u → u < stop t → tradable u = tradable t

namespace Tiling

/-- The clock of a tiling holds one slot for each tile. -/
def clock (T : Tiling) : BarClock := fun t =>
  if h : t < T.horizon then
    some ⟨T.stop t, T.next t, T.tradable t, true, (T.next_le t h).trans T.horizon_le⟩
  else none

variable {T : Tiling}

theorem clock_eq_some {t : ℤ} {slot : Slot} (h : T.clock t = some slot) :
    t < T.horizon ∧ slot.endMs = T.stop t ∧ slot.nextOpenMs = T.next t ∧ slot.tradable
      = T.tradable t ∧
      slot.bounded = true := by
  unfold clock at h
  split at h
  · rename_i hlt
    cases h
    exact ⟨hlt, rfl, rfl, rfl, rfl⟩
  · cases h

theorem clock_of_lt {t : ℤ} (h : t < T.horizon) : ∃ slot, T.clock t = some slot := by
  unfold clock
  rw [dif_pos h]
  exact ⟨_, rfl⟩

theorem hasBoundaries (t : ℤ) : hasBoundaries T.clock t = true := by
  unfold Calc.hasBoundaries
  split
  · rfl
  · rename_i slot hslot
    exact (clock_eq_some hslot).2.2.2.2

theorem stop_le_of_lt {t a : ℤ} (ht : t < T.horizon) (hstart : T.start a = a) (hlt : t < a) :
    T.stop t ≤ a := by
  by_contra hstop
  have heq := T.start_eq t a ht ((T.start_le t ht).trans hlt.le) (not_le.mp hstop)
  rw [hstart] at heq
  have hle := T.start_le t ht
  omega

theorem eq_of_stop_eq {t a : ℤ} (ht : t < T.horizon) (ha : a < T.horizon) (hstart : T.start a = a)
    (hstop : T.stop t = T.stop a) : a ≤ t ∧ t < T.stop a := by
  refine ⟨?_, hstop ▸ T.lt_stop t ht⟩
  by_contra hlt
  have hle := stop_le_of_lt ht hstart (not_le.mp hlt)
  have hlt' := T.lt_stop a ha
  omega

end Tiling

/-! ## Tiles without data -/

/-- The times of the events that open bars. -/
def dataTimes (events : List Event) : List ℤ :=
  (events.filter fun event => event.kind.isData).map (·.timeMs)

/-- A tradable tile after the first bar in which there is no data. -/
structure Quiet (T : Tiling) (data : List ℤ) (a : ℤ) : Prop where
  lt : a < T.horizon
  start : T.start a = a
  tradable : T.tradable a = true
  after : ∃ first, data.head? = some first ∧ T.stop first ≤ a
  free : ∀ t ∈ data, ¬(a ≤ t ∧ t < T.stop a)

theorem Quiet.earlier {T : Tiling} {data : List ℤ} {a t : ℤ} (h : Quiet T (data ++ [t]) a)
    (hdata : data ≠ []) : Quiet T data a := by
  obtain ⟨first, hfirst, hle⟩ := h.after
  rw [List.head?_append_of_ne_nil data hdata] at hfirst
  exact ⟨h.lt, h.start, h.tradable, ⟨first, hfirst, hle⟩,
    fun u hu => h.free u (List.mem_append_left _ hu)⟩

/-- The point closes the tile by time. -/
def closes (T : Tiling) (a : ℤ) (p : Point) : Bool := p.phase = .pre && p.atMs = T.stop a

/-- One bar of its own, opened and closed by time. -/
def HasBar (T : Tiling) (a : ℤ) (rows : List Point) : Prop :=
  ∃ p, rows.filter (closes T a) = [p] ∧ p.calcOrdinal = 0 ∧ p.finality = .confirmed

/-! ## The walk -/

/-- What holds of a draft up to the instant `now`, with the data seen so far. -/
structure Walk (T : Tiling) (data : List ℤ) (now : ℤ) (d : Draft) : Prop where
  sorted : d.rows.Pairwise fun p q => p.atMs ≤ q.atMs
  below : ∀ p ∈ d.rows, p.atMs ≤ now
  opened : d.state.barOpen = true → ∃ t ∈ data, t < T.horizon ∧ d.state.openEndMs = T.stop t ∧
    d.state.cursorMs = T.next t
  cursor : d.state.hasLastKey = true → d.state.cursorMs < T.horizon →
    T.start d.state.cursorMs = d.state.cursorMs
  fresh : d.state.hasLastKey = false ↔ data = []
  behind : ∀ a, Quiet T data a → a < d.state.cursorMs → T.stop a ≤ now ∧ HasBar T a d.rows
  ahead : ∀ a, Quiet T data a → d.state.cursorMs ≤ a → d.rows.filter (closes T a) = []

namespace Walk

variable {T : Tiling} {data : List ℤ} {now : ℤ} {e : Driving} {d d' : Draft}

theorem mono (h : Walk T data now d) {later : ℤ} (hle : now ≤ later) : Walk T data later d :=
  ⟨h.sorted, fun p hp => (h.below p hp).trans hle, h.opened, h.cursor, h.fresh,
    fun a ha hlt => ⟨(h.behind a ha hlt).1.trans hle, (h.behind a ha hlt).2⟩, h.ahead⟩

/-- A point after the others, at or before `now`. -/
theorem sorted_push (h : Walk T data now d) {position : ℤ} (hrows : ∀ p ∈ d.rows, p.atMs ≤ position)
    (phase : Phase) (key inBar : ℕ) (finality : Finality) :
    (d.push e phase position key inBar finality).rows.Pairwise fun p q => p.atMs ≤ q.atMs := by
  unfold Draft.push
  rw [List.pairwise_append]
  refine ⟨h.sorted, List.pairwise_singleton _ _, ?_⟩
  intro p hp q hq
  rw [List.mem_singleton.mp hq]
  exact hrows p hp

theorem below_push (h : Walk T data now d) {position : ℤ} (hposition : position ≤ now)
    (phase : Phase)
    (key inBar : ℕ) (finality : Finality) :
    ∀ p ∈ (d.push e phase position key inBar finality).rows, p.atMs ≤ now := by
  intro p hp
  obtain hp | hp := List.mem_append.mp hp
  · exact h.below p hp
  · rw [List.mem_singleton.mp hp]
    exact hposition

theorem filter_push {a : ℤ} {phase : Phase} {position : ℤ}
    (hne : phase = .pre → position ≠ T.stop a) (key inBar : ℕ) (finality : Finality) :
    (d.push e phase position key inBar finality).rows.filter (closes T a)
      = d.rows.filter (closes T a) := by
  unfold Draft.push
  rw [List.filter_append, List.filter_singleton]
  have hcloses : closes T a ⟨e.index, e.ordinal, key, inBar, d.calcInEvent, position,
    phase, finality⟩
      = false := by
    unfold closes
    cases phase with
    | post => rfl
    | pre => exact Bool.and_eq_false_iff.mpr (.inr (decide_eq_false (hne rfl)))
  rw [hcloses]
  exact List.append_nil _

theorem hasBar_push {a position : ℤ} (hempty : d.rows.filter (closes T a) = [])
    (hposition : position = T.stop a) (key : ℕ) :
    HasBar T a (d.push e .pre position key 0 .confirmed).rows := by
  refine ⟨⟨e.index, e.ordinal, key, 0, d.calcInEvent, position, .pre, .confirmed⟩, ?_, rfl, rfl⟩
  unfold Draft.push
  rw [List.filter_append, hempty, List.nil_append, List.filter_singleton]
  have hcloses : closes T a ⟨e.index, e.ordinal, key, 0, d.calcInEvent, position, .pre, .confirmed⟩
      = true := by
    unfold closes
    rw [hposition, decide_eq_true rfl, decide_eq_true rfl]
    rfl
  rw [hcloses]
  rfl

theorem push (h : Walk T data now d) {phase : Phase} {position : ℤ}
    (hrows : ∀ p ∈ d.rows, p.atMs ≤ position) (hposition : position ≤ now)
    (hne : ∀ a, Quiet T data a → phase = .pre → position ≠ T.stop a) (key inBar : ℕ)
    (finality : Finality) :
    Walk T data now (d.push e phase position key inBar finality) := by
  refine ⟨h.sorted_push hrows _ _ _ _, h.below_push hposition _ _ _ _, h.opened, h.cursor,
    h.fresh, ?_, ?_⟩
  · intro a ha hlt
    obtain ⟨hle, p, hp, hbar⟩ := h.behind a ha hlt
    exact ⟨hle, p, (filter_push (hne a ha) _ _ _).trans hp, hbar⟩
  · intro a ha hle
    exact (filter_push (hne a ha) _ _ _).trans (h.ahead a ha hle)

theorem closeBar (h : Walk T data now d) : Walk T data now (closeBar d) :=
  ⟨h.sorted, h.below, nofun, h.cursor, h.fresh, h.behind, h.ahead⟩

theorem countCalc (h : Walk T data now d) : Walk T data now (countCalc d) :=
  ⟨h.sorted, h.below, h.opened, h.cursor, h.fresh, h.behind, h.ahead⟩

theorem passEvent (h : Walk T data now d) : Walk T data now (passEvent e d) :=
  ⟨h.sorted, h.below, h.opened, h.cursor, h.fresh, h.behind, h.ahead⟩

/-- The cursor jumps from `c` to `c'` where no tile without data starts from `c` on and before
`c'`. -/
theorem quiet_of_jump (h : Walk T data now d) {c' : ℤ}
    (hnone : ∀ a, Quiet T data a → d.state.cursorMs ≤ a → ¬a < c') :
    ∀ a, Quiet T data a → a < c' → T.stop a ≤ now ∧ HasBar T a d.rows := by
  intro a ha hlt
  refine h.behind a ha ?_
  by_contra hle
  exact hnone a ha (not_lt.mp hle) hlt

end Walk

/-! ## Before the payload -/

theorem inside_pre {e : Driving} {position : ℤ} {s : State} (h : inside e .pre position s = true)
    (hprev : s.hasPrevEvent = true) : s.prevEventMs ≤ position ∧ position ≤ e.time := by
  unfold inside at h
  rw [hprev, Bool.and_eq_true, Bool.not_true, Bool.false_or, decide_eq_true_eq,
    decide_eq_true_eq] at h
  exact h

/-- A draft of the event that `d₀` meets, before its payload. -/
structure Due (T : Tiling) (data : List ℤ) (e : Driving) (d₀ d : Draft) : Prop where
  walk : Walk T data e.time d
  same : SameEvent d₀ d
  bound : ∀ p ∈ d.rows, p.atMs ≤ max d₀.state.prevEventMs d.state.cursorMs
  prev : d.state.hasLastKey = true → d₀.state.hasPrevEvent = true

namespace Due

variable {T : Tiling} {data : List ℤ} {e : Driving} {d₀ d d' : Draft}

theorem inside (h : Due T data e d₀ d) {position : ℤ}
    (hinside : inside e .pre position d.state = true)
    (hkey : d.state.hasLastKey = true) : d₀.state.prevEventMs ≤ position ∧ position ≤ e.time := by
  have hprev := h.prev hkey
  rw [← h.same.hasPrevEvent] at hprev
  rw [← h.same.prevEventMs]
  exact inside_pre hinside hprev

theorem closeDue (h : Due T data e d d) (he : e.wantPoints = true) (hkeyed : Keyed d)
    (hpassed : ∀ p ∈ d.rows, p.atMs ≤ d.state.prevEventMs)
    (hclose : closeDue T.clock e d = .ok d') :
    Due T data e d d' ∧ (d'.state.barOpen = true → e.time < d'.state.openEndMs) := by
  have hsame := h.same.closeDue he hclose
  obtain ⟨hopen, -, hinside, rfl⟩ | ⟨hdue, rfl⟩ := closeDue_ok he hclose
  · obtain ⟨t, ht, hlt, hend, hcursor⟩ := h.walk.opened hopen
    obtain ⟨hprev, hle⟩ := h.inside hinside (hkeyed.hasLastKey hopen)
    have hpush : Walk T data e.time
        (d.push e .pre d.state.openEndMs d.state.lastBarKey d.state.calcInBar .confirmed) := by
      refine h.walk.push (fun p hp => (hpassed p hp).trans hprev) hle ?_ _ _ _
      intro a ha _ hstop
      rw [hend] at hstop
      exact ha.free t ht (Tiling.eq_of_stop_eq hlt ha.lt ha.start hstop)
    refine ⟨⟨hpush.closeBar, hsame, ?_, h.prev⟩, nofun⟩
    intro p hp
    obtain hp | hp := List.mem_append.mp hp
    · exact h.bound p hp
    · rw [List.mem_singleton.mp hp]
      refine le_max_of_le_right ?_
      change d.state.openEndMs ≤ d.state.cursorMs
      rw [hend, hcursor]
      exact T.stop_le_next t hlt
  · exact ⟨h, fun hopen => hdue hopen (Tiling.hasBoundaries _)⟩

/-- One tile of the walk: its bar when it is tradable, and the cursor on the next one. -/
theorem quietBar (h : Due T data e d₀ d) (he : e.wantPoints = true)
    (hkey : d.state.hasLastKey = true)
    (hclosed : d.state.barOpen = false) {slot : Slot} (hslot : T.clock d.state.cursorMs = some slot)
    (hend : slot.endMs ≤ e.time) (hquiet : quietBar e slot d = .ok d') :
    Due T data e d₀ (moveCursor slot d') := by
  obtain ⟨hlt, hstop, hnext, htradable, -⟩ := Tiling.clock_eq_some hslot
  have hsame := h.same.quietBar he hquiet
  have hstart := h.walk.cursor hkey hlt
  have hupper := T.lt_stop _ hlt
  have hle := T.stop_le_next _ hlt
  have hcursor : slot.nextOpenMs < T.horizon → T.start slot.nextOpenMs = slot.nextOpenMs := by
    rw [hnext]
    exact T.start_next _ hlt
  -- a tile without data from the cursor on is the one at the cursor, or starts after the next one
  have hcases : ∀ a, Quiet T data a → d.state.cursorMs ≤ a → a = d.state.cursorMs ∨
      slot.nextOpenMs ≤ a := by
    intro a ha hcle
    by_contra hne
    rw [not_or, not_le] at hne
    have hafter := Tiling.stop_le_of_lt hlt ha.start (lt_of_le_of_ne hcle (Ne.symm hne.1))
    have hclosed := T.closed _ a hlt hafter (hnext ▸ hne.2)
    rw [ha.tradable] at hclosed
    cases hclosed
  obtain ⟨htrue, hinside, rfl⟩ | ⟨hfalse, rfl⟩ := quietBar_ok he hquiet
  · obtain ⟨hprev, hnow⟩ := h.inside hinside hkey
    have hrows : ∀ p ∈ d.rows, p.atMs ≤ slot.endMs := by
      intro p hp
      refine (h.bound p hp).trans (max_le hprev ?_)
      rw [hstop]
      exact hupper.le
    -- the bar of a tile: of the one at the cursor this one, of the others the earlier ones
    have hother : ∀ a, Quiet T data a → a ≠ d.state.cursorMs → slot.endMs ≠ T.stop a := by
      intro a ha hne heq
      rw [hstop] at heq
      obtain ⟨hale, -⟩ := Tiling.eq_of_stop_eq hlt ha.lt ha.start heq
      have hbefore := Tiling.stop_le_of_lt ha.lt hstart (lt_of_le_of_ne hale hne)
      omega
    refine ⟨⟨?_, ?_, ?_, fun _ => hcursor, h.walk.fresh, ?_, ?_⟩, hsame, ?_, h.prev⟩
    · exact h.walk.sorted_push hrows _ _ _ _
    · exact h.walk.below_push hend _ _ _ _
    · intro hopen
      change d.state.barOpen = true at hopen
      rw [hclosed] at hopen
      cases hopen
    · intro a ha hlt'
      by_cases heq : a = d.state.cursorMs
      · refine ⟨by rw [heq, ← hstop]; exact hend, ?_⟩
        exact Walk.hasBar_push (h.walk.ahead a ha heq.ge) (by rw [hstop, heq]) _
      · have hbefore : a < d.state.cursorMs := by
          by_contra hge
          obtain hsame | hge := hcases a ha (not_lt.mp hge)
          · exact heq hsame
          · exact absurd hlt' (not_lt.mpr hge)
        obtain ⟨hnow', p, hp, hbar⟩ := h.walk.behind a ha hbefore
        exact ⟨hnow', p, (Walk.filter_push (fun _ => hother a ha heq) _ _ _).trans hp, hbar⟩
    · intro a ha hge
      change slot.nextOpenMs ≤ a at hge
      have hne : a ≠ d.state.cursorMs := by omega
      have hge' : d.state.cursorMs ≤ a := by omega
      exact (Walk.filter_push (fun _ => hother a ha hne) _ _ _).trans (h.walk.ahead a ha hge')
    · intro p hp
      refine le_max_of_le_right ?_
      change p.atMs ≤ slot.nextOpenMs
      obtain hp | hp := List.mem_append.mp hp
      · exact (hrows p hp).trans (by omega)
      · rw [List.mem_singleton.mp hp]
        change slot.endMs ≤ slot.nextOpenMs
        omega
  · have hnone : ∀ a, Quiet T data a → d'.state.cursorMs ≤ a → ¬a < slot.nextOpenMs := by
      intro a ha hge hlt'
      obtain heq | hge := hcases a ha hge
      · have htrue := ha.tradable
        rw [heq, ← htradable, hfalse] at htrue
        cases htrue
      · exact absurd hlt' (not_lt.mpr hge)
    refine ⟨⟨h.walk.sorted, h.walk.below, ?_, fun _ => hcursor, h.walk.fresh, ?_, ?_⟩,
      hsame, ?_, h.prev⟩
    · intro hopen
      change d'.state.barOpen = true at hopen
      rw [hclosed] at hopen
      cases hopen
    · exact h.walk.quiet_of_jump hnone
    · intro a ha hge
      change slot.nextOpenMs ≤ a at hge
      have hge' : d'.state.cursorMs ≤ a := by omega
      exact h.walk.ahead a ha hge'
    · intro p hp
      have hbound := h.bound p hp
      refine hbound.trans (max_le_max le_rfl ?_)
      change d'.state.cursorMs ≤ slot.nextOpenMs
      omega

end Due

/-- The bar in hand ends after `now`, and so does the tile at the cursor when there is none. -/
structure Reach (T : Tiling) (now : ℤ) (s : State) : Prop where
  opened : s.barOpen = true → now < s.openEndMs
  closed : s.hasLastKey = true → s.barOpen = false → s.cursorMs < T.horizon →
    now < T.stop s.cursorMs

/-- Every quiet tile gets its bar. -/
theorem Due.quietBars {T : Tiling} {data : List ℤ} {e : Driving} {d₀ d d' : Draft}
    (h : Due T data e d₀ d)
    (he : e.wantPoints = true) (hopen : d.state.barOpen = true → e.time < d.state.openEndMs)
    (hquiet : quietBars T.clock e d = .ok d') : Due T data e d₀ d' ∧ Reach T e.time d'.state := by
  have hkeeps : (Due T data e d₀ d' ∧ (d'.state.barOpen = true → e.time < d'.state.openEndMs)) ∧
      (d'.state.hasLastKey = true → d'.state.barOpen = false →
        ∀ slot, T.clock d'.state.cursorMs = some slot → slot.bounded = true →
          e.time < slot.endMs ∨ slot.nextOpenMs ≤ d'.state.cursorMs) := by
    refine @quietBars_ok T.clock e d d'
      (fun d => Due T data e d₀ d ∧ (d.state.barOpen = true → e.time < d.state.openEndMs))
      ?_ ⟨h, hopen⟩ hquiet
    intro d slot d' hkey hclosed hslot _ hend hquiet h
    refine ⟨h.1.quietBar he hkey hclosed hslot hend hquiet, ?_⟩
    intro hopen
    have hbar : (moveCursor slot d').state.barOpen = d.state.barOpen := by
      obtain ⟨-, -, rfl⟩ | ⟨-, rfl⟩ := quietBar_ok he hquiet
      · rfl
      · rfl
    rw [hbar, hclosed] at hopen
    cases hopen
  obtain ⟨⟨hdue, hopened⟩, hexit⟩ := hkeeps
  refine ⟨hdue, hopened, ?_⟩
  intro hkey hclosed hlt
  obtain ⟨slot, hslot⟩ := Tiling.clock_of_lt hlt
  obtain ⟨-, hstop, hnext, -, hbounded⟩ := Tiling.clock_eq_some hslot
  have hupper := T.lt_stop _ hlt
  have hle := T.stop_le_next _ hlt
  obtain hend | hback := hexit hkey hclosed slot hslot hbounded
  · rw [← hstop]
    exact hend
  · omega

/-! ## The payload -/

namespace Walk

variable {T : Tiling} {data : List ℤ} {e : Driving} {d d' : Draft}

/-- The bar of an event follows the tiles. -/
theorem barAt (h : Walk T data e.time d) (hkeyed : Keyed d) (hreach : Reach T e.time d.state)
    (hbar : barAt T.clock e d = .ok d') :
    Walk T (data ++ [e.time]) e.time d' ∧ Reach T e.time d'.state := by
  obtain ⟨hopen, rfl⟩ | ⟨hclosed, hopened⟩ := barAt_ok hbar
  · obtain ⟨t, ht, hlt, hend, hcursor⟩ := h.opened hopen
    have hdata : data ≠ [] := List.ne_nil_of_mem ht
    have hfresh : d'.state.hasLastKey = false ↔ data ++ [e.time] = [] := by
      rw [hkeyed.hasLastKey hopen]
      exact ⟨nofun, fun hnil =>
        absurd hnil (List.append_ne_nil_of_right_ne_nil _ (List.cons_ne_nil _ _))⟩
    refine ⟨⟨h.sorted, h.below, ?_, h.cursor, hfresh, ?_, ?_⟩, hreach⟩
    · intro _
      exact ⟨t, List.mem_append_left _ ht, hlt, hend, hcursor⟩
    · intro a ha
      exact h.behind a (ha.earlier hdata)
    · intro a ha
      exact h.ahead a (ha.earlier hdata)
  · obtain ⟨slot, hslot, hafter, rfl⟩ := openBar_ok hopened
    obtain ⟨hlt, hstop, hnext, -, hbounded⟩ := Tiling.clock_eq_some hslot
    have hafter := hafter hbounded
    rw [hbounded, if_pos rfl, if_pos rfl]
    have hfresh : (true = false) ↔ data ++ [e.time] = [] :=
      ⟨nofun, fun hnil => absurd hnil (List.append_ne_nil_of_right_ne_nil _ (List.cons_ne_nil _ _))⟩
    have hcursor : slot.nextOpenMs < T.horizon → T.start slot.nextOpenMs = slot.nextOpenMs := by
      rw [hnext]
      exact T.start_next _ hlt
    -- no tile without data starts in the tile of the event or before the next one
    have hskip : ∀ a, Quiet T (data ++ [e.time]) a → e.time < a → slot.nextOpenMs ≤ a := by
      intro a ha hlt'
      by_contra hge
      have hle := Tiling.stop_le_of_lt hlt ha.start hlt'
      have hnot := T.closed _ a hlt hle (hnext ▸ not_le.mp hge)
      rw [ha.tradable] at hnot
      cases hnot
    have hhere : ∀ a, Quiet T (data ++ [e.time]) a → ¬(a ≤ e.time ∧ e.time < T.stop a) := by
      intro a ha
      exact ha.free e.time (List.mem_append_right _ (List.mem_singleton_self _))
    refine ⟨⟨h.sorted, h.below, ?_, fun _ => hcursor, hfresh, ?_, ?_⟩, fun _ => hafter, nofun⟩
    · intro _
      exact ⟨e.time, List.mem_append_right _ (List.mem_singleton_self _), hlt, hstop, hnext⟩
    · intro a ha hlt'
      change a < slot.nextOpenMs at hlt'
      have hbefore : a ≤ e.time := by
        by_contra hgt
        exact absurd hlt' (not_lt.mpr (hskip a ha (not_le.mp hgt)))
      cases hkey : d.state.hasLastKey with
      | false =>
        -- the event opens the first bar, and the tile is after it
        have hdata := h.fresh.mp hkey
        obtain ⟨first, hfirst, hle⟩ := ha.after
        rw [hdata, List.nil_append, List.head?_cons] at hfirst
        cases hfirst
        have hupper := T.lt_stop _ hlt
        omega
      | true =>
        have hdata : data ≠ [] := fun hnil => by
          rw [h.fresh.mpr hnil] at hkey
          cases hkey
        refine h.behind a (ha.earlier hdata) ?_
        by_contra hge
        rw [not_lt] at hge
        have hcle : d.state.cursorMs < T.horizon := lt_of_le_of_lt hge ha.lt
        have hnow := hreach.closed hkey hclosed hcle
        have hupper := T.lt_stop a ha.lt
        obtain heq | hlt'' := eq_or_lt_of_le hge
        · rw [heq] at hnow
          exact hhere a ha ⟨hbefore, hnow⟩
        · have hle := Tiling.stop_le_of_lt hcle ha.start hlt''
          omega
    · intro a ha hge
      change slot.nextOpenMs ≤ a at hge
      change d.rows.filter (closes T a) = []
      cases hkey : d.state.hasLastKey with
      | false =>
        rw [(hkeyed.fresh hkey).2]
        rfl
      | true =>
        have hdata : data ≠ [] := fun hnil => by
          rw [h.fresh.mpr hnil] at hkey
          cases hkey
        refine h.ahead a (ha.earlier hdata) ?_
        by_contra hlt'
        rw [not_le] at hlt'
        have hpassed := (h.behind a (ha.earlier hdata) hlt').1
        have hupper := T.lt_stop a ha.lt
        have hupper' := T.lt_stop _ hlt
        have hle := T.stop_le_next _ hlt
        omega

theorem push_post (h : Walk T data e.time d) (key inBar : ℕ) (finality : Finality) :
    Walk T data e.time (d.push e .post e.time key inBar finality) :=
  h.push h.below le_rfl (fun _ _ hpre => by cases hpre) key inBar finality

end Walk

/-! ## Whole schedules -/

/-- What holds after the events `seen`. -/
structure Held (T : Tiling) (seen : List Event) (d : Draft) : Prop where
  keyed : Keyed d
  walk : ∀ now, (∀ event ∈ seen.getLast?, event.timeMs ≤ now) → Walk T (dataTimes seen) now d
  passed : ∀ p ∈ d.rows, p.atMs ≤ d.state.prevEventMs
  prev : d.state.hasLastKey = true → d.state.hasPrevEvent = true
  reach : ∀ event ∈ seen.getLast?, Reach T event.timeMs d.state

namespace Held

variable {T : Tiling} {cadence : UInt32}

theorem start : Held T [] (.start {}) := by
  refine ⟨⟨.nil, fun _ => ⟨rfl, rfl⟩, nofun, nofun, Nat.one_pos, by decide⟩, ?_, nofun,
    nofun, nofun⟩
  intro now _
  refine ⟨List.Pairwise.nil, nofun, nofun, nofun, ⟨fun _ => rfl, fun _ => rfl⟩, ?_, ?_⟩
  · intro a ha
    obtain ⟨first, hfirst, -⟩ := ha.after
    cases hfirst
  · intro a ha
    obtain ⟨first, hfirst, -⟩ := ha.after
    cases hfirst

theorem dataTimes_snoc (seen : List Event) (event : Event) :
    dataTimes (seen ++ [event])
      = if event.kind.isData then dataTimes seen ++ [event.timeMs] else dataTimes seen := by
  unfold dataTimes
  rw [List.filter_append, List.filter_singleton, List.map_append]
  cases event.kind.isData with
  | true => rfl
  | false => exact List.append_nil _

/-- One event keeps the plan's shape. -/
theorem planEvent {seen : List Event} {event : Event} {index : ℕ} {d d' : Draft} (h : Held T seen d)
    (hlast : ∀ last ∈ seen.getLast?, last.timeMs ≤ event.timeMs)
    (hevent : planEvent T.clock cadence true index event d = .ok d') :
    Held T (seen ++ [event]) d' := by
  have hkeyed := h.keyed.planEvent hevent
  obtain ⟨hkind, -, closed, quiet, paid, hclosed, hquiet, hpaid, rfl⟩ := planEvent_ok hevent
  generalize he : (⟨true, index, d.state.traceFirst, event.timeMs⟩ : Driving)
    = e at hclosed hquiet hpaid hkeyed
  have hwant : e.wantPoints = true := by rw [← he]
  have htime : event.timeMs = e.time := by rw [← he]
  rw [htime] at hlast
  have hdue : Due T (dataTimes seen) e d d :=
    ⟨h.walk _ hlast, .refl d, fun p hp => le_max_of_le_left (h.passed p hp), h.prev⟩
  obtain ⟨hdue, hopen⟩ := hdue.closeDue hwant h.keyed h.passed hclosed
  obtain ⟨hdue, hreach⟩ := hdue.quietBars hwant hopen hquiet
  obtain ⟨opened, hopened, hdone⟩ := payload_ok hwant hkind hpaid
  have hwalk : Walk T (dataTimes (seen ++ [event])) e.time opened ∧
      Reach T e.time opened.state := by
    rw [dataTimes_snoc, htime]
    obtain ⟨hdata, hbar⟩ | ⟨hdata, rfl⟩ := hopened
    · rw [if_pos hdata]
      exact hdue.walk.barAt ((h.keyed.closeDue hwant hclosed).quietBars hwant hquiet) hreach hbar
    · rw [if_neg (by rw [hdata]; exact Bool.false_ne_true)]
      exact ⟨hdue.walk, hreach⟩
  obtain ⟨hwalk, hreach⟩ := hwalk
  have hpaid : Walk T (dataTimes (seen ++ [event])) e.time paid ∧ Reach T e.time paid.state := by
    obtain rfl | ⟨-, rfl⟩ | ⟨hopen, rfl⟩ := hdone
    · exact ⟨hwalk, hreach⟩
    · exact ⟨(hwalk.push_post _ _ _).countCalc, hreach.opened, hreach.closed⟩
    · refine ⟨(hwalk.push_post _ _ _).closeBar, nofun, ?_⟩
      intro _ _ hlt
      change opened.state.cursorMs < T.horizon at hlt
      obtain ⟨t, -, ht, hend, hcursor⟩ := hwalk.opened hopen
      have hafter := hreach.opened hopen
      have hle := T.stop_le_next t ht
      have hupper := T.lt_stop _ hlt
      change e.time < T.stop opened.state.cursorMs
      omega
  obtain ⟨hwalk, hreach⟩ := hpaid
  refine ⟨hkeyed, ?_, hwalk.below, fun _ => rfl, ?_⟩
  · intro now hnow
    rw [List.getLast?_concat] at hnow
    exact hwalk.passEvent.mono (htime ▸ hnow event rfl)
  · intro event' hlast'
    rw [List.getLast?_concat] at hlast'
    cases hlast'
    rw [htime]
    exact ⟨hreach.opened, hreach.closed⟩

theorem planEvents {events : List Event} {d : Draft}
    (hsorted : events.Pairwise fun a b => a.timeMs ≤ b.timeMs)
    (h : planEvents T.clock cadence true 0 (.start {}) events = .ok d) : Held T events d := by
  have hrun := @planEvents_ok T.clock cadence true
    (fun seen d => (seen.Pairwise fun a b => a.timeMs ≤ b.timeMs) → Held T seen d) ?_
      events [] 0 _ d
    (fun _ => start) h
  · exact hrun hsorted
  · intro seen event index d d' hheld hevent hpairwise
    rw [List.pairwise_append] at hpairwise
    refine (hheld hpairwise.1).planEvent ?_ hevent
    intro last hlast
    exact hpairwise.2.2 last (List.mem_of_getLast? hlast) event (List.mem_singleton_self _)

/-- Every quiet tile passed has a bar. -/
theorem hasBar {events : List Event} {d : Draft} (h : Held T events d) {a : ℤ} {last : Event}
    (hlast : events.getLast? = some last) (ha : Quiet T (dataTimes events) a)
    (hpassed : T.stop a ≤ last.timeMs) : HasBar T a d.rows := by
  have hwalk : Walk T (dataTimes events) last.timeMs d := by
    refine h.walk last.timeMs fun event hevent => ?_
    rw [hlast] at hevent
    cases hevent
    exact le_rfl
  have hreach := h.reach last hlast
  have hupper := T.lt_stop a ha.lt
  have hkey : d.state.hasLastKey = true := by
    by_contra hfresh
    obtain ⟨first, hfirst, -⟩ := ha.after
    rw [hwalk.fresh.mp (Bool.eq_false_of_not_eq_true hfresh)] at hfirst
    cases hfirst
  refine (hwalk.behind a ha ?_).2
  by_contra hge
  rw [not_lt] at hge
  cases hopen : d.state.barOpen with
  | true =>
    obtain ⟨t, -, ht, hend, hcursor⟩ := hwalk.opened hopen
    have hafter := hreach.opened hopen
    have hle := T.stop_le_next t ht
    omega
  | false =>
    have hlt : d.state.cursorMs < T.horizon := lt_of_le_of_lt hge ha.lt
    have hnow := hreach.closed hkey hopen hlt
    obtain heq | hlt' := eq_or_lt_of_le hge
    · rw [heq] at hnow
      omega
    · have hle := Tiling.stop_le_of_lt hlt ha.start hlt'
      omega

end Held

theorem planSchedule_ok {clock : BarClock} {cadence : UInt32} {want : Bool} {before : State}
    {events : List Event} (h : (planSchedule clock cadence want before (some events)).status
      = .ok) :
    ∃ d, planEvents clock cadence want 0 (.start before) events = .ok d ∧
      planSchedule clock cadence want before (some events) = ⟨.ok, d.planned, d.state, d.rows⟩ := by
  by_cases hcadence : cadenceValid cadence = true
  · unfold planSchedule at h ⊢
    rw [if_pos hcadence] at h ⊢
    dsimp only at h ⊢
    cases hevents : planEvents clock cadence want 0 (.start before) events with
    | error why =>
      rw [hevents] at h
      cases h
      exact absurd hevents (planEvents_named want 0 events)
    | ok d => exact ⟨d, rfl, rfl⟩
  · unfold planSchedule at h
    rw [if_neg hcadence] at h
    cases h

open Ordered in
/-- A schedule is accepted exactly when its parts are accepted in sequence, and then it plans the
same points and leaves the same state; a refused one plans nothing and leaves the state as it was;
the points need not be collected. Over a tiling, with events in time order, the points stand in time
order, the bars have consecutive keys, the calculations of a bar are numbered from zero and only the
last one may confirm it, and every tradable tile without data that is passed after the first bar has
one bar of its own. -/
theorem planSchedule_splits :
    (∀ (clock : BarClock) (cadence : UInt32) (want : Bool) (before : State)
        (first second : List Event),
      let whole := planSchedule clock cadence want before (some (first ++ second))
      let one := planSchedule clock cadence want before (some first)
      let two := planSchedule clock cadence want one.after (some second)
      (whole.status = .ok ↔ one.status = .ok ∧ two.status = .ok) ∧
      (whole.status = .ok → whole.after = two.after ∧ whole.count = one.count + two.count ∧
        whole.points = one.points ++ two.points.map (Point.shift first.length))) ∧
    (∀ (clock : BarClock) (cadence : UInt32) (want : Bool) (before : State)
        (events : Option (List Event)),
      (planSchedule clock cadence want before events).status ≠ .ok →
      (planSchedule clock cadence want before events).after = before ∧
        (planSchedule clock cadence want before events).count = 0 ∧
        (planSchedule clock cadence want before events).points = []) ∧
    (∀ (clock : BarClock) (cadence : UInt32) (c : Consumer) (events : Option (List Event)),
      (c.calcScheduleApply clock cadence events).1.status ≠ .ok →
      (c.calcScheduleApply clock cadence events).2 = c) ∧
    (∀ (clock : BarClock) (cadence : UInt32) (before : State) (events : Option (List Event)),
      planSchedule clock cadence false before events
        = { planSchedule clock cadence true before events with points := [] }) ∧
    ∀ (T : Tiling) (cadence : UInt32) (events : List Event),
      (events.Pairwise fun a b => a.timeMs ≤ b.timeMs) →
      let plan := planSchedule T.clock cadence true {} (some events)
      plan.status = .ok →
      (plan.points.Pairwise fun p q => p.atMs ≤ q.atMs) ∧
      (plan.points.IsChain fun p q => q.barKey = p.barKey ∨ q.barKey = p.barKey + 1) ∧
      (∀ key, (ofKey key plan.points).map (·.calcOrdinal)
        = List.range (ofKey key plan.points).length ∧
        ∀ p ∈ (ofKey key plan.points).dropLast, p.finality = .provisional) ∧
      ∀ a last, events.getLast? = some last → Quiet T (dataTimes events) a →
        T.stop a ≤ last.timeMs →
        ∃ p, plan.points.filter (closes T a) = [p] ∧ ofKey p.barKey plan.points = [p] := by
  refine ⟨?_, ?_, ?_, planSchedule_forget, ?_⟩
  · intro clock cadence want before first second
    dsimp only
    rw [planSchedule_append]
    dsimp only
    split
    · rename_i hone
      split
      · rename_i htwo
        exact ⟨⟨fun _ => ⟨hone, htwo⟩, fun _ => rfl⟩, fun _ => ⟨rfl, rfl, rfl⟩⟩
      · rename_i htwo
        exact ⟨⟨fun h => absurd h htwo, fun h => absurd h.2 htwo⟩, fun h => absurd h htwo⟩
    · rename_i hone
      exact ⟨⟨fun h => absurd h hone, fun h => absurd h.1 hone⟩, fun h => absurd h hone⟩
  · intro clock cadence want before events hrefused
    rw [planSchedule_refused clock cadence want before events hrefused]
    exact ⟨rfl, rfl, rfl⟩
  · intro clock cadence c events hrefused
    exact if_neg hrefused
  · intro T cadence events hsorted
    dsimp only
    intro hok
    obtain ⟨d, hevents, hplan⟩ := planSchedule_ok hok
    rw [hplan]
    dsimp only
    have hheld := Held.planEvents hsorted hevents
    have hordered := hheld.keyed.ordered
    have hwalk := hheld.walk ((events.getLast?.map (·.timeMs)).getD 0) fun event hevent => by
      rw [Option.mem_def.mp hevent]
      exact le_rfl
    refine ⟨hwalk.sorted, hordered.isChain, hordered.ofKey_spec, ?_⟩
    intro a last hlast ha hpassed
    obtain ⟨p, hp, hordinal, hfinality⟩ := hheld.hasBar hlast ha hpassed
    have hmem : p ∈ d.rows := List.mem_of_mem_filter (hp ▸ List.mem_singleton_self p)
    exact ⟨p, hp, hordered.ofKey_eq_singleton hmem hordinal hfinality⟩

/-- Tiles of ten instants, each of them tradable. -/
def Tiling.tens : Tiling where
  horizon := 100
  start t := t - t % 10
  stop t := t - t % 10 + 10
  next t := t - t % 10 + 10
  tradable _ := true
  horizon_le := by decide
  start_le := by intro t _; omega
  lt_stop := by intro t _; omega
  stop_le_next := by intro t _; exact le_rfl
  next_le := by intro t _; omega
  start_next := by intro t _ _; omega
  closed := by intro t u _ _ _; omega
  start_eq := by intro t u _ _ _; omega
  stop_eq := by intro t u _ _ _; omega
  next_eq := by intro t u _ _ _; omega
  tradable_eq := by intro t u _ _ _; rfl

/-- A tick, and a time advance over two whole tiles. -/
def tickThenAdvance : List Event := [⟨.tick, 3⟩, ⟨.advanceTime, 31⟩]

/-- The second tile after the tick has its bar. -/
theorem planSchedule_splits_tens :
    (planSchedule Tiling.tens.clock cadenceBarClose true {} (some tickThenAdvance)).status = .ok ∧
      ∃ p, (planSchedule Tiling.tens.clock cadenceBarClose true {}
        (some tickThenAdvance)).points.filter
          (closes .tens 20) = [p] ∧
        Ordered.ofKey p.barKey
          (planSchedule Tiling.tens.clock cadenceBarClose true {} (some tickThenAdvance)).points
            = [p] := by
  have hok : (planSchedule Tiling.tens.clock cadenceBarClose true {} (some tickThenAdvance)).status
      = .ok := by
    decide +kernel
  have hquiet : Quiet .tens (dataTimes tickThenAdvance) 20 := by
    refine ⟨by decide, by decide, rfl, ⟨3, rfl, by decide⟩, ?_⟩
    intro t ht
    rw [List.mem_singleton.mp ht]
    decide
  refine ⟨hok, ?_⟩
  have hrun := planSchedule_splits.2.2.2.2 .tens cadenceBarClose tickThenAdvance (by decide) hok
  exact hrun.2.2.2 20 ⟨.advanceTime, 31⟩ rfl hquiet (by decide)

/-- A second part that is refused: the whole keeps nothing, the parts in sequence keep the first. -/
theorem planSchedule_parts_refused :
    let first : List Event := [⟨.tick, 3⟩]
    let second : List Event := [⟨.unknown 9, 3⟩]
    let whole := planSchedule Tiling.tens.clock cadenceBarClose true {} (some (first ++ second))
    let one := planSchedule Tiling.tens.clock cadenceBarClose true {} (some first)
    let two := planSchedule Tiling.tens.clock cadenceBarClose true one.after (some second)
    ((first ++ second).Pairwise fun a b => a.timeMs ≤ b.timeMs) ∧ whole.after ≠ two.after := by
  decide +kernel

end PineForge.Calc
