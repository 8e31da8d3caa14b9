import Mathlib
import PineForge.Machine.Generator

/-!
# The session days of a feed

A feed's bars resolve to the session days that hold them, in feed order (`walk`). A lane gives each
day once and in ascending order, with the next one read ahead: it passes over a day seen again and a
day that goes back, and notes the latter (`refill_spec`).
-/

namespace PineForge.MultiDay

/-- A session day as the calendar resolves it. -/
structure SessionDay where
  ordinal : ℤ
  originMs : ℤ
  nextOriginMs : ℤ
deriving DecidableEq, Repr

/-- The calendar of a symbol without a partition: the session day that a bar's covered instant is
in, the day stamp of an instant, and the day stamp of a date's local noon. -/
structure Sessions where
  dayAt : ℤ → Option SessionDay
  dayOpen : ℤ → ℤ
  noonOpen : ℤ → Option ℤ

/-- A day that a feed holds, and the stamp of its bar. -/
structure HeldDay where
  ordinal : ℤ
  value : ℤ
deriving DecidableEq, Repr

/-! ## Walks -/

/-- The bars that are left, and the day that the last one resolved to. -/
structure FeedWalk where
  bars : List ℤ
  cycle : Option SessionDay

/-- The instant is inside the day that the bar before it resolved to. -/
def inside (cycle : Option SessionDay) (ts : ℤ) : Bool :=
  cycle.any fun day => day.originMs ≤ ts ∧ ts < day.nextOriginMs

section

variable (s : Sessions) (ownOpen : Bool)

/-- The next day of a feed, and the walk behind it. -/
def walkFrom : List ℤ → Option SessionDay → Option HeldDay × FeedWalk
  | [], cycle => (none, ⟨[], cycle⟩)
  | ts :: bars, cycle =>
    if ¬ ownOpen ∧ inside cycle ts then walkFrom bars cycle
    else
      match s.dayAt ts with
      | none => walkFrom bars none
      | some day => (some ⟨day.ordinal, if ownOpen then ts else s.dayOpen ts⟩, ⟨bars, some day⟩)

theorem walkFrom_shorter (bars : List ℤ) (cycle : Option SessionDay) {day : HeldDay}
    (h : (walkFrom s ownOpen bars cycle).1 = some day) :
    (walkFrom s ownOpen bars cycle).2.bars.length < bars.length := by
  induction bars generalizing cycle with
  | nil => cases h
  | cons ts bars ih =>
    unfold walkFrom at h ⊢
    split
    · rename_i hin
      rw [if_pos hin] at h
      exact Nat.lt_succ_of_lt (ih cycle h)
    · rename_i hin
      rw [if_neg hin] at h
      cases hday : s.dayAt ts with
      | none =>
        rw [hday] at h
        exact Nat.lt_succ_of_lt (ih none h)
      | some day => exact Nat.lt_succ_self _

theorem walkFrom_ended (bars : List ℤ) (cycle : Option SessionDay)
    (h : (walkFrom s ownOpen bars cycle).1 = none) :
    (walkFrom s ownOpen bars cycle).2.bars = [] := by
  induction bars generalizing cycle with
  | nil => rfl
  | cons ts bars ih =>
    unfold walkFrom at h ⊢
    split
    · rename_i hin
      rw [if_pos hin] at h
      exact ih cycle h
    · rename_i hin
      rw [if_neg hin] at h
      cases hday : s.dayAt ts with
      | none =>
        rw [hday] at h
        exact ih none h
      | some day =>
        rw [hday] at h
        cases h

/-- The session days of a feed, in feed order. -/
def walk : Generator FeedWalk HeldDay where
  next w := walkFrom s ownOpen w.bars w.cycle
  size w := w.bars.length
  shrinks w _ h := walkFrom_shorter s ownOpen w.bars w.cycle h
  ends w h := by
    rw [walkFrom_ended s ownOpen w.bars w.cycle h]
    exact Nat.zero_le _

/-- The days of a feed as a table's builder resolves them. -/
def resolved : List ℤ → Option SessionDay → List HeldDay
  | [], _ => []
  | ts :: bars, cycle =>
    if ownOpen ∨ inside cycle ts = false then
      match s.dayAt ts with
      | none => resolved bars none
      | some day => ⟨day.ordinal, if ownOpen then ts else s.dayOpen ts⟩ :: resolved bars (some day)
    else resolved bars cycle

/-- The walk gives every resolved day. -/
theorem list_walk (bars : List ℤ) (cycle : Option SessionDay) :
    (walk s ownOpen).list ⟨bars, cycle⟩ = resolved s ownOpen bars cycle := by
  have hskip : ∀ (bars bars' : List ℤ) (cycle cycle' : Option SessionDay),
      walkFrom s ownOpen bars cycle = walkFrom s ownOpen bars' cycle' →
      (walk s ownOpen).list ⟨bars, cycle⟩ = (walk s ownOpen).list ⟨bars', cycle'⟩ := by
    intro bars bars' cycle cycle' heq
    have hnext : (walk s ownOpen).next ⟨bars, cycle⟩ = (walk s ownOpen).next ⟨bars', cycle'⟩ := heq
    cases h : ((walk s ownOpen).next ⟨bars, cycle⟩).1 with
    | none => rw [Generator.list_of_none h, Generator.list_of_none (hnext ▸ h)]
    | some day =>
      have h' : ((walk s ownOpen).next ⟨bars', cycle'⟩).1 = some day := hnext ▸ h
      rw [Generator.list_of_some h, Generator.list_of_some h', hnext]
  induction bars generalizing cycle with
  | nil => exact Generator.list_of_none rfl
  | cons ts bars ih =>
    unfold resolved
    by_cases hin : ¬ ownOpen ∧ inside cycle ts
    · have hrun : walkFrom s ownOpen (ts :: bars) cycle = walkFrom s ownOpen bars cycle :=
        if_pos hin
      rw [hskip _ _ _ _ hrun, ih, if_neg]
      rw [not_or, Bool.not_eq_false]
      exact hin
    · rw [if_pos (by rw [not_and_or, not_not, Bool.not_eq_true] at hin; exact hin)]
      cases hday : s.dayAt ts with
      | none =>
        have hrun : walkFrom s ownOpen (ts :: bars) cycle = walkFrom s ownOpen bars none := by
          rw [walkFrom, if_neg hin, hday]
        rw [hskip _ _ _ _ hrun, ih]
      | some day =>
        have hrun : (walk s ownOpen).next ⟨ts :: bars, cycle⟩
            = (some ⟨day.ordinal, if ownOpen then ts else s.dayOpen ts⟩, ⟨bars, some day⟩) := by
          change walkFrom s ownOpen (ts :: bars) cycle = _
          rw [walkFrom, if_neg hin, hday]
        rw [Generator.list_of_some (congrArg Prod.fst hrun), hrun, ih]

end

/-! ## Lanes -/

/-- One feed's walk and its head. -/
structure Lane where
  walk : FeedWalk
  head : HeldDay
  live : Bool
  seen : Bool

/-- The next day beyond the one given last: a day seen again is passed over, and so is one that goes
back, which is noted. -/
def refill (s : Sessions) (ownOpen : Bool) (lane : Lane) (ordered : Bool) : Lane × Bool :=
  match h : ((walk s ownOpen).next lane.walk).1 with
  | none => ({ lane with walk := ((walk s ownOpen).next lane.walk).2, live := false }, ordered)
  | some day =>
    if lane.seen ∧ day.ordinal = lane.head.ordinal then
      refill s ownOpen { lane with walk := ((walk s ownOpen).next lane.walk).2 } ordered
    else if lane.seen ∧ day.ordinal < lane.head.ordinal then
      refill s ownOpen { lane with walk := ((walk s ownOpen).next lane.walk).2 } false
    else (⟨((walk s ownOpen).next lane.walk).2, day, true, true⟩, ordered)
termination_by (walk s ownOpen).size lane.walk
decreasing_by
  · exact (walk s ownOpen).shrinks _ _ h
  · exact (walk s ownOpen).shrinks _ _ h

/-- The days beyond each other, from the last that was given. -/
def ascents : Option ℤ → List HeldDay → List HeldDay
  | _, [] => []
  | last, day :: days =>
    if last.any fun l => day.ordinal ≤ l then ascents last days
      else day :: ascents (some day.ordinal) days

/-- The days do not go back. -/
def ascends : Option ℤ → List HeldDay → Bool
  | _, [] => true
  | last, day :: days =>
    if last.any fun l => day.ordinal < l then false else ascends (some day.ordinal) days

/-- The last day a lane gave. -/
def Lane.last (lane : Lane) : Option ℤ := if lane.seen then some lane.head.ordinal else none

section

variable (s : Sessions) (ownOpen : Bool)

/-- What a lane is still to give. -/
def laneDays (lane : Lane) : List HeldDay :=
  if lane.live then lane.head :: ascents (some lane.head.ordinal) ((walk s ownOpen).list lane.walk)
    else []

/-- What is left in a lane does not go back. -/
def laneAscends (lane : Lane) : Bool := ascends lane.last ((walk s ownOpen).list lane.walk)

theorem walk_ended (w : FeedWalk) (h : ((walk s ownOpen).next w).1 = none) :
    (walk s ownOpen).list ((walk s ownOpen).next w).2 = [] := by
  have hempty : ((walk s ownOpen).next w).2.bars = [] := walkFrom_ended s ownOpen w.bars w.cycle h
  generalize ((walk s ownOpen).next w).2 = w' at hempty
  obtain ⟨bars, cycle⟩ := w'
  cases hempty
  rw [list_walk, resolved]

/-- The steps that a lane has left. -/
def laneSize (lane : Lane) : ℕ := lane.walk.bars.length + if lane.live then 1 else 0

theorem refill_size (lane : Lane) (ordered : Bool) :
    laneSize (refill s ownOpen lane ordered).1 ≤ lane.walk.bars.length := by
  fun_induction refill s ownOpen lane ordered with
  | case1 lane ordered h =>
    have hempty : ((walk s ownOpen).next lane.walk).2.bars = [] := walkFrom_ended s ownOpen _ _ h
    simp [laneSize, hempty]
  | case2 lane ordered day h hsame ih => exact ih.trans ((walk s ownOpen).shrinks _ _ h).le
  | case3 lane ordered day h hsame hback ih => exact ih.trans ((walk s ownOpen).shrinks _ _ h).le
  | case4 lane ordered day h hsame hback => exact (walk s ownOpen).shrinks _ _ h

/-- A lane whose head is one it gave, and that has nothing left once it is dead. -/
structure Sound (lane : Lane) : Prop where
  seen : lane.live = true → lane.seen = true
  ended : lane.live = false → (walk s ownOpen).list lane.walk = []

/-- What a refilled lane is left with. -/
structure Refilled (days : List HeldDay) (orderly : Bool) (lane : Lane) (ordered : Bool) :
    Prop where
  days : laneDays s ownOpen lane = days
  flag : (ordered && laneAscends s ownOpen lane) = orderly
  sound : Sound s ownOpen lane

/-- A refill skips to the next day of the lane. -/
theorem refill_spec (lane : Lane) (ordered : Bool) :
    Refilled s ownOpen (ascents lane.last ((walk s ownOpen).list lane.walk))
      (ordered && laneAscends s ownOpen lane)
      (refill s ownOpen lane ordered).1 (refill s ownOpen lane ordered).2 := by
  fun_induction refill s ownOpen lane ordered with
  | case1 lane ordered h =>
    have hempty : (walk s ownOpen).list lane.walk = [] := Generator.list_of_none h
    have hrest := walk_ended s ownOpen lane.walk h
    refine ⟨?_, ?_, ⟨nofun, fun _ => hrest⟩⟩
    · rw [hempty]
      rfl
    · simp [laneAscends, hempty, hrest, ascends]
  | case2 lane ordered day h hsame ih =>
    have hlist := Generator.list_of_some h
    have hlast : lane.last = some lane.head.ordinal := if_pos hsame.1
    have hdays : ascents lane.last ((walk s ownOpen).list lane.walk)
        = ascents lane.last ((walk s ownOpen).list ((walk s ownOpen).next lane.walk).2) := by
      rw [hlist, hlast, ascents, if_pos]
      simp [hsame.2]
    have horderly : laneAscends s ownOpen lane
        = laneAscends s ownOpen { lane with walk := ((walk s ownOpen).next lane.walk).2 } := by
      unfold laneAscends
      rw [hlist, hlast, ascends, if_neg (by simp [hsame.2]), hsame.2]
      exact congrArg (ascends · _) hlast.symm
    rw [hdays, horderly]
    exact ih
  | case3 lane ordered day h hsame hback ih =>
    have hlist := Generator.list_of_some h
    have hlast : lane.last = some lane.head.ordinal := if_pos hback.1
    have hdays : ascents lane.last ((walk s ownOpen).list lane.walk)
        = ascents lane.last ((walk s ownOpen).list ((walk s ownOpen).next lane.walk).2) := by
      rw [hlist, hlast, ascents, if_pos]
      simp [hback.2.le]
    have horderly : laneAscends s ownOpen lane = false := by
      unfold laneAscends
      rw [hlist, hlast, ascends, if_pos (by simp [hback.2])]
    rw [hdays, horderly, Bool.and_false]
    exact ih
  | case4 lane ordered day h hsame hback =>
    have hlist := Generator.list_of_some h
    have hbeyond : (lane.last.any fun l => day.ordinal ≤ l) = false := by
      unfold Lane.last
      split
      · rename_i hseen
        have hne : day.ordinal ≠ lane.head.ordinal := fun heq => hsame ⟨hseen, heq⟩
        have hnot : ¬ day.ordinal < lane.head.ordinal := fun hlt => hback ⟨hseen, hlt⟩
        simp only [Option.any_some, decide_eq_false_iff_not]
        omega
      · rfl
    refine ⟨?_, ?_, ⟨fun _ => rfl, nofun⟩⟩
    · rw [hlist, ascents, if_neg (by rw [hbeyond]; decide)]
      rfl
    · unfold laneAscends
      rw [hlist, ascends, if_neg]
      · rfl
      · cases hl : lane.last with
        | none => simp
        | some l =>
          simp only [hl, Option.any_some, decide_eq_false_iff_not] at hbeyond
          simp only [Option.any_some, decide_eq_true_eq]
          omega

theorem laneDays_refill {lane : Lane} (hsound : Sound s ownOpen lane) (hlive : lane.live = true)
    (ordered : Bool) :
    laneDays s ownOpen lane = lane.head :: laneDays s ownOpen
      (refill s ownOpen lane ordered).1 := by
  have hlast : lane.last = some lane.head.ordinal := if_pos (hsound.seen hlive)
  rw [(refill_spec s ownOpen lane ordered).days, hlast, laneDays, if_pos hlive]

theorem laneDays_dead {lane : Lane} (hlive : lane.live = false) : laneDays s ownOpen lane = [] :=
  if_neg (by rw [hlive]; decide)

end

end PineForge.MultiDay
