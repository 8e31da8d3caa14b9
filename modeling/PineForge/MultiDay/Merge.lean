import Mathlib
import PineForge.MultiDay.Feeds

/-!
# The held days of two feeds

The days of the chart and of the auxiliary feed are merged as they come (`HeldDays`): each once, in
ascending order, the chart's before the other's on a day that both hold. In the end it is known
whether a feed went back (`merged_list`), and where none did every date has the stamp of the first
bar that resolves to it (`stampOf_heldDays`).
-/

namespace PineForge.MultiDay

/-- The two lanes and whether they are in order. -/
structure HeldDays where
  chart : Lane
  aux : Lane
  ordered : Bool

section

variable (s : Sessions) (dailyChart : Bool)

/-- The next day of the two lanes. -/
def heldNext (held : HeldDays) : Option HeldDay × HeldDays :=
  if held.chart.live = false ∧ held.aux.live = false then (none, held)
  else if held.chart.live ∧
    (held.aux.live = false ∨ held.chart.head.ordinal ≤ held.aux.head.ordinal) then
    let (aux, ordered) :=
      if held.aux.live ∧ held.aux.head.ordinal = held.chart.head.ordinal then
        refill s false held.aux held.ordered
      else (held.aux, held.ordered)
    let (chart, ordered) := refill s dailyChart held.chart ordered
    (some held.chart.head, ⟨chart, aux, ordered⟩)
  else
    let (aux, ordered) := refill s false held.aux held.ordered
    (some held.aux.head, ⟨held.chart, aux, ordered⟩)

theorem live_of_not_chart {held : HeldDays}
    (hdead : ¬ (held.chart.live = false ∧ held.aux.live = false))
    (hchart : ¬ (held.chart.live = true ∧
      (held.aux.live = false ∨ held.chart.head.ordinal ≤ held.aux.head.ordinal))) :
    held.aux.live = true := by
  by_contra hnot
  rw [Bool.not_eq_true] at hnot
  refine hchart ⟨?_, Or.inl hnot⟩
  by_contra hc
  rw [Bool.not_eq_true] at hc
  exact hdead ⟨hc, hnot⟩

/-- The merge uses up its lanes. -/
theorem heldNext_shrinks (held : HeldDays) (day : HeldDay)
    (h : (heldNext s dailyChart held).1 = some day) :
    laneSize (heldNext s dailyChart held).2.chart + laneSize (heldNext s dailyChart held).2.aux
      < laneSize held.chart + laneSize held.aux := by
  have hlive : ∀ lane : Lane, lane.live = true → laneSize lane = lane.walk.bars.length + 1 :=
    fun lane hl => by rw [laneSize, if_pos hl]
  unfold heldNext at h ⊢
  split
  · rename_i hdead
    rw [if_pos hdead] at h
    cases h
  · rename_i hdead
    split
    · rename_i hchart
      have hleft := refill_size s dailyChart held.chart
      have hhead := hlive _ hchart.1
      dsimp only
      split
      · rename_i hboth
        have haux := refill_size s false held.aux held.ordered
        have hsecond := hlive _ hboth.1
        have := hleft (refill s false held.aux held.ordered).2
        omega
      · have := hleft held.ordered
        dsimp only
        omega
    · rename_i hchart
      have haux := refill_size s false held.aux held.ordered
      have hhead := hlive _ (live_of_not_chart hdead hchart)
      dsimp only
      omega

theorem heldNext_none {held : HeldDays} (h : (heldNext s dailyChart held).1 = none) :
    held.chart.live = false ∧ held.aux.live = false ∧ (heldNext s dailyChart held).2 = held := by
  unfold heldNext at h ⊢
  split
  · rename_i hdead
    exact ⟨hdead.1, hdead.2, rfl⟩
  · rename_i hdead
    rw [if_neg hdead] at h
    split at h
    · cases h
    · cases h

/-- The session days that either feed holds. -/
def heldDays : Generator HeldDays HeldDay where
  next := heldNext s dailyChart
  size held := laneSize held.chart + laneSize held.aux
  shrinks := heldNext_shrinks s dailyChart
  ends held h := by rw [(heldNext_none s dailyChart h).2.2]

/-- The next day of two ascending lists, and what is left of each. -/
inductive Merges (day : HeldDay) : List HeldDay → List HeldDay → List HeldDay → List HeldDay → Prop
  | chart {chart aux} (beyond : ∀ e ∈ aux.head?, day.ordinal < e.ordinal) :
    Merges day (day :: chart) aux chart aux
  | both {chart aux e} (same : e.ordinal = day.ordinal) : Merges day (day :: chart)
    (e :: aux) chart aux
  | aux {chart aux} (beyond : ∀ e ∈ chart.head?, day.ordinal < e.ordinal) :
    Merges day chart (day :: aux) chart aux

/-- Both lanes are sound. -/
structure HeldDays.Sound (held : HeldDays) : Prop where
  chart : MultiDay.Sound s dailyChart held.chart
  aux : MultiDay.Sound s false held.aux

/-- Neither feed has gone back, nor will. -/
def orderly (held : HeldDays) : Bool :=
  held.ordered && laneAscends s dailyChart held.chart && laneAscends s false held.aux

/-- A step gives the next day of the two lanes and keeps what is known of their order. -/
theorem heldNext_some {held : HeldDays} (hsound : held.Sound s dailyChart) {day : HeldDay}
    (h : (heldNext s dailyChart held).1 = some day) :
    (heldNext s dailyChart held).2.Sound s dailyChart ∧
      orderly s dailyChart (heldNext s dailyChart held).2 = orderly s dailyChart held ∧
      Merges day (laneDays s dailyChart held.chart) (laneDays s false held.aux)
        (laneDays s dailyChart (heldNext s dailyChart held).2.chart)
        (laneDays s false (heldNext s dailyChart held).2.aux) := by
  unfold heldNext at h ⊢
  split
  · rename_i hdead
    rw [if_pos hdead] at h
    cases h
  · rename_i hdead
    rw [if_neg hdead] at h
    split
    · rename_i hchart
      rw [if_pos hchart] at h
      cases h
      dsimp only
      split
      · rename_i hboth
        have haux := refill_spec s false held.aux held.ordered
        have hch := refill_spec s dailyChart held.chart (refill s false held.aux held.ordered).2
        refine ⟨⟨hch.sound, haux.sound⟩, ?_, ?_⟩
        · have hflag := hch.flag
          have hflag' := haux.flag
          unfold orderly
          dsimp only
          rw [hflag, Bool.and_right_comm, hflag', Bool.and_right_comm]
        · rw [laneDays_refill s dailyChart hsound.chart hchart.1
            (refill s false held.aux held.ordered).2,
            laneDays_refill s false hsound.aux hboth.1 held.ordered]
          exact .both hboth.2
      · rename_i hboth
        have hch := refill_spec s dailyChart held.chart held.ordered
        refine ⟨⟨hch.sound, hsound.aux⟩, ?_, ?_⟩
        · unfold orderly
          dsimp only
          rw [hch.flag]
        · dsimp only
          rw [laneDays_refill s dailyChart hsound.chart hchart.1 held.ordered]
          refine .chart fun e he => ?_
          cases hlive : held.aux.live with
          | false =>
            rw [laneDays_dead s false hlive] at he
            cases he
          | true =>
            rw [laneDays, if_pos hlive, List.head?_cons, Option.mem_some_iff] at he
            subst he
            have hle : held.chart.head.ordinal ≤ held.aux.head.ordinal :=
              hchart.2.resolve_left (by rw [hlive]; decide)
            have hne : held.aux.head.ordinal ≠ held.chart.head.ordinal :=
              fun heq => hboth ⟨hlive, heq⟩
            omega
    · rename_i hchart
      rw [if_neg hchart] at h
      cases h
      have haux := refill_spec s false held.aux held.ordered
      have hl : held.aux.live = true := live_of_not_chart hdead hchart
      refine ⟨⟨hsound.chart, haux.sound⟩, ?_, ?_⟩
      · have hflag := haux.flag
        unfold orderly
        dsimp only
        rw [Bool.and_right_comm, hflag, Bool.and_right_comm]
      · dsimp only
        rw [laneDays_refill s false hsound.aux hl held.ordered]
        refine .aux fun e he => ?_
        cases hlive : held.chart.live with
        | false =>
          rw [laneDays_dead s dailyChart hlive] at he
          cases he
        | true =>
          rw [laneDays, if_pos hlive, List.head?_cons, Option.mem_some_iff] at he
          subst he
          by_contra hnot
          exact hchart ⟨hlive, Or.inr (not_lt.mp hnot)⟩

/-- Each later than the one before. -/
def Ascending (days : List HeldDay) : Prop := days.Pairwise fun a b => a.ordinal < b.ordinal

theorem ascending_ascents (last : Option ℤ) (days : List HeldDay) :
    Ascending (ascents last days) ∧ ∀ e ∈ ascents last days, ∀ l ∈ last, l < e.ordinal := by
  induction days generalizing last with
  | nil => exact ⟨.nil, nofun⟩
  | cons day days ih =>
    rw [ascents]
    split
    · exact ih last
    · rename_i hbeyond
      obtain ⟨hasc, hlater⟩ := ih (some day.ordinal)
      have hday : ∀ e ∈ ascents (some day.ordinal) days, day.ordinal < e.ordinal :=
        fun e he => hlater e he _ rfl
      have hlast : ∀ l ∈ last, l < day.ordinal := by
        intro l hl
        rw [Option.mem_def.mp hl, Option.any_some, decide_eq_true_eq] at hbeyond
        exact not_le.mp hbeyond
      refine ⟨.cons hday hasc, fun e he l hl => ?_⟩
      rcases List.mem_cons.mp he with rfl | he
      · exact hlast l hl
      · exact (hlast l hl).trans (hday e he)

theorem ascending_laneDays (ownOpen : Bool) (lane : Lane) :
    Ascending (laneDays s ownOpen lane) := by
  unfold laneDays
  split
  · obtain ⟨hasc, hlater⟩ :=
      ascending_ascents (some lane.head.ordinal) ((walk s ownOpen).list lane.walk)
    exact .cons (fun e he => hlater e he _ rfl) hasc
  · exact .nil

/-- The stamp that a list of days gives a date: its first. -/
def stampOf (days : List HeldDay) (date : ℤ) : Option ℤ :=
  (days.find? (·.ordinal == date)).map (·.value)

theorem stampOf_cons (day : HeldDay) (days : List HeldDay) (date : ℤ) :
    stampOf (day :: days) date = if day.ordinal = date then some day.value
      else stampOf days date := by
  unfold stampOf
  rw [List.find?_cons]
  by_cases h : day.ordinal = date
  · rw [if_pos h, beq_iff_eq.mpr h, Option.map_some]
  · rw [if_neg h, beq_eq_false_iff_ne.mpr h]

theorem stampOf_append (days more : List HeldDay) (date : ℤ) :
    stampOf (days ++ more) date = (stampOf days date).or (stampOf more date) := by
  unfold stampOf
  rw [List.find?_append, Option.map_or]

theorem stampOf_beyond {days : List HeldDay} {date : ℤ} (h : ∀ e ∈ days, date < e.ordinal) :
    stampOf days date = none := by
  rw [stampOf, Option.map_eq_none_iff, List.find?_eq_none]
  intro e he
  rw [beq_iff_eq]
  exact (h e he).ne'

theorem le_of_ascends {l : ℤ} {days : List HeldDay} (h : ascends (some l) days = true) :
    ∀ e ∈ days, l ≤ e.ordinal := by
  induction days generalizing l with
  | nil => exact nofun
  | cons day days ih =>
    rw [ascends] at h
    split at h
    · cases h
    · rename_i hback
      simp only [Option.any_some, decide_eq_true_eq, not_lt] at hback
      intro e he
      rcases List.mem_cons.mp he with rfl | he
      · exact hback
      · exact hback.trans (ih h e he)

/-- Days that do not go back lose none of their dates' first stamps by being given once. -/
theorem stampOf_ascents {last : Option ℤ} {days : List HeldDay}
    (h : ascends last days = true) {date : ℤ}
    (hdate : ∀ l ∈ last, l < date) : stampOf (ascents last days) date = stampOf days date := by
  induction days generalizing last with
  | nil => rfl
  | cons day days ih =>
    rw [ascends] at h
    split at h
    · cases h
    · rename_i hback
      rw [ascents, stampOf_cons]
      split
      · rename_i hpassed
        -- the day is the last one again, and the date is beyond it
        cases last with
        | none => cases hpassed
        | some l =>
          simp only [Option.any_some, decide_eq_true_eq] at hback hpassed
          have hl : day.ordinal = l := by omega
          have hlt := hdate l rfl
          rw [if_neg (by omega)]
          rw [hl] at h
          exact ih h hdate
      · rw [stampOf_cons]
        split
        · rfl
        · rename_i hne
          by_cases hlt : day.ordinal < date
          · exact ih h fun l hl => by cases hl; exact hlt
          · have hbefore : date < day.ordinal := by omega
            have hleft : ∀ e ∈ days, date < e.ordinal :=
              fun e he => hbefore.trans_le (le_of_ascends h e he)
            have hright : ∀ e ∈ ascents (some day.ordinal) days, date < e.ordinal :=
              fun e he => hbefore.trans ((ascending_ascents _ days).2 e he _ rfl)
            rw [stampOf_beyond hleft, stampOf_beyond hright]

section

variable {day : HeldDay} {chart aux chart' aux' : List HeldDay}

/-- The merge ascends. -/
theorem Merges.ascending (h : Merges day chart aux chart' aux') (hchart : Ascending chart)
    (haux : Ascending aux) :
    (Ascending chart' ∧ Ascending aux') ∧ ∀ e, e ∈ chart' ∨ e ∈ aux' → day.ordinal < e.ordinal := by
  have hhead : ∀ {days : List HeldDay}, Ascending days →
    (∀ e ∈ days.head?, day.ordinal < e.ordinal) →
      ∀ e ∈ days, day.ordinal < e.ordinal := by
    intro days hdays hfirst e he
    cases hdays with
    | nil => cases he
    | cons hlater _ =>
      rcases List.mem_cons.mp he with rfl | he
      · exact hfirst _ rfl
      · exact (hfirst _ rfl).trans (hlater e he)
  cases h with
  | chart beyond =>
    obtain ⟨hday, hrest⟩ := List.pairwise_cons.mp hchart
    refine ⟨⟨hrest, haux⟩, fun e he => ?_⟩
    rcases he with he | he
    · exact hday e he
    · exact hhead haux beyond e he
  | both same =>
    obtain ⟨hday, hrest⟩ := List.pairwise_cons.mp hchart
    obtain ⟨hsame, hrest'⟩ := List.pairwise_cons.mp haux
    refine ⟨⟨hrest, hrest'⟩, fun e he => ?_⟩
    rcases he with he | he
    · exact hday e he
    · exact same ▸ hsame e he
  | aux beyond =>
    obtain ⟨hday, hrest⟩ := List.pairwise_cons.mp haux
    refine ⟨⟨hchart, hrest⟩, fun e he => ?_⟩
    rcases he with he | he
    · exact hhead hchart beyond e he
    · exact hday e he

theorem Merges.mem (h : Merges day chart aux chart' aux') :
    (day ∈ chart ∨ day ∈ aux) ∧ ∀ e, e ∈ chart' ∨ e ∈ aux' → e ∈ chart ∨ e ∈ aux := by
  cases h with
  | chart beyond => exact ⟨.inl (List.mem_cons_self ..),
    fun e he => he.imp_left (List.mem_cons_of_mem _)⟩
  | both same =>
    exact ⟨.inl (List.mem_cons_self ..),
      fun e he => he.imp (List.mem_cons_of_mem _) (List.mem_cons_of_mem _)⟩
  | aux beyond => exact ⟨.inr (List.mem_cons_self ..),
    fun e he => he.imp_right (List.mem_cons_of_mem _)⟩

theorem Merges.stampOf (h : Merges day chart aux chart' aux') (hchart : Ascending chart)
    (haux : Ascending aux)
    (date : ℤ) : (MultiDay.stampOf chart date).or (MultiDay.stampOf aux date)
      = if day.ordinal = date then some day.value
        else (MultiDay.stampOf chart' date).or (MultiDay.stampOf aux' date) := by
  cases h with
  | chart beyond =>
    rw [stampOf_cons]
    split
    · rfl
    · rfl
  | both same =>
    rw [stampOf_cons, stampOf_cons, same]
    split
    · rfl
    · rfl
  | aux beyond =>
    rw [stampOf_cons]
    split
    · rename_i hdate
      have hnone : MultiDay.stampOf chart date = none :=
        stampOf_beyond fun e he =>
          hdate ▸ (Merges.ascending (.aux beyond) hchart haux).2 e (.inl he)
      rw [hnone, Option.none_or]
    · rfl

end

/-- What the merge of two lanes gives. -/
structure Merged (held : HeldDays) (days : List HeldDay) : Prop where
  ascending : Ascending days
  mem : ∀ e ∈ days, e ∈ laneDays s dailyChart held.chart ∨ e ∈ laneDays s false held.aux
  stamps : ∀ date, stampOf days date
    = (stampOf (laneDays s dailyChart held.chart) date).or
      (stampOf (laneDays s false held.aux) date)

/-- The days come in ascending order, each with its first stamp, and in the end it is known whether
a feed went back. -/
theorem merged_list {held : HeldDays} (hsound : held.Sound s dailyChart) :
    Merged s dailyChart held ((heldDays s dailyChart).list held) ∧
      ((heldDays s dailyChart).rest held).ordered = orderly s dailyChart held := by
  induction held using Generator.ind (g := heldDays s dailyChart) with
  | stop held h =>
    obtain ⟨hchart, haux, hsame⟩ := heldNext_none s dailyChart h
    rw [Generator.list_of_none h, Generator.rest_of_none h]
    refine ⟨⟨.nil, nofun, fun date => ?_⟩, ?_⟩
    · rw [laneDays_dead s dailyChart hchart, laneDays_dead s false haux]
      rfl
    · change (heldNext s dailyChart held).2.ordered = _
      rw [hsame, orderly, laneAscends, laneAscends, hsound.chart.ended hchart,
        hsound.aux.ended haux, ascends,
        ascends, Bool.and_true, Bool.and_true]
  | step held day h ih =>
    obtain ⟨hsound', hflag, hmerges⟩ := heldNext_some s dailyChart hsound h
    obtain ⟨hmerged, hordered⟩ := ih hsound'
    obtain ⟨-, hlater⟩ := hmerges.ascending (ascending_laneDays s _ _) (ascending_laneDays s _ _)
    rw [Generator.list_of_some h, Generator.rest_of_some h]
    refine ⟨⟨.cons (fun e he => hlater e (hmerged.mem e he)) hmerged.ascending, fun e he => ?_,
      fun date => ?_⟩, ?_⟩
    · rcases List.mem_cons.mp he with rfl | he
      · exact hmerges.mem.1
      · exact hmerges.mem.2 e (hmerged.mem e he)
    · rw [stampOf_cons, hmerged.stamps date]
      exact (hmerges.stampOf (ascending_laneDays s _ _) (ascending_laneDays s _ _) date).symm
    · exact hordered.trans hflag

/-! ## From the first bars -/

/-- A lane before its first day. -/
def freshLane (bars : List ℤ) : Lane := ⟨⟨bars, none⟩, ⟨0, 0⟩, false, false⟩

/-- The merge before its first day: both lanes have read one ahead. -/
def heldStart (chart aux : List ℤ) : HeldDays :=
  let (chart, ordered) := refill s dailyChart (freshLane chart) true
  let (aux, ordered) := refill s false (freshLane aux) ordered
  ⟨chart, aux, ordered⟩

/-- All the days that the feeds resolve to, the chart's first. -/
def allDays (chart aux : List ℤ) : List HeldDay :=
  resolved s dailyChart chart none ++ resolved s false aux none

theorem refill_fresh (ownOpen : Bool) (bars : List ℤ) (ordered : Bool) :
    Refilled s ownOpen (ascents none (resolved s ownOpen bars none))
      (ordered && ascends none (resolved s ownOpen bars none))
      (refill s ownOpen (freshLane bars) ordered).1
        (refill s ownOpen (freshLane bars) ordered).2 := by
  have h := refill_spec s ownOpen (freshLane bars) ordered
  have hlist : (walk s ownOpen).list (freshLane bars).walk = resolved s ownOpen bars none :=
    list_walk s ownOpen bars none
  unfold laneAscends at h
  rwa [hlist] at h

variable (chart aux : List ℤ)

theorem heldStart_sound : (heldStart s dailyChart chart aux).Sound s dailyChart :=
  ⟨(refill_fresh s dailyChart chart true).sound, (refill_fresh s false aux _).sound⟩

theorem heldStart_days :
    laneDays s dailyChart (heldStart s dailyChart chart aux).chart
        = ascents none (resolved s dailyChart chart none) ∧
      laneDays s false (heldStart s dailyChart chart aux).aux
        = ascents none (resolved s false aux none) :=
  ⟨(refill_fresh s dailyChart chart true).days, (refill_fresh s false aux _).days⟩

theorem heldStart_orderly : orderly s dailyChart (heldStart s dailyChart chart aux)
    = (ascends none (resolved s dailyChart chart none) && ascends none
      (resolved s false aux none)) := by
  have hchart := (refill_fresh s dailyChart chart true).flag
  have haux := (refill_fresh s false aux (refill s dailyChart (freshLane chart) true).2).flag
  rw [Bool.true_and] at hchart
  unfold orderly heldStart
  dsimp only
  rw [Bool.and_right_comm, haux, Bool.and_right_comm, hchart]

theorem heldDays_ascending :
    Ascending ((heldDays s dailyChart).list (heldStart s dailyChart chart aux)) :=
  (merged_list s dailyChart (heldStart_sound s dailyChart chart aux)).1.ascending

theorem stampOf_heldDays
    (h : ((heldDays s dailyChart).rest (heldStart s dailyChart chart aux)).ordered = true)
    (date : ℤ) :
    stampOf ((heldDays s dailyChart).list (heldStart s dailyChart chart aux)) date
      = stampOf (allDays s dailyChart chart aux) date := by
  obtain ⟨hmerged, hordered⟩ := merged_list s dailyChart (heldStart_sound s dailyChart chart aux)
  obtain ⟨hchart, haux⟩ := heldStart_days s dailyChart chart aux
  rw [hordered, heldStart_orderly, Bool.and_eq_true] at h
  rw [hmerged.stamps, hchart, haux, stampOf_ascents h.1 nofun, stampOf_ascents h.2 nofun, allDays,
    stampOf_append]

theorem stampOf_isSome (days : List HeldDay) (date : ℤ) :
    (stampOf days date).isSome ↔ date ∈ days.map (·.ordinal) := by
  rw [stampOf, Option.isSome_map, List.find?_isSome, List.mem_map]
  simp only [beq_iff_eq]

theorem ascents_eq_nil (days : List HeldDay) : ascents none days = [] ↔ days = [] := by
  cases days with
  | nil => exact iff_of_true rfl rfl
  | cons day days => exact iff_of_false (by rw [ascents, if_neg (by simp)]; simp) (by simp)

/-- The merge is empty where there are no days. -/
theorem heldDays_eq_nil : (heldDays s dailyChart).list (heldStart s dailyChart chart aux) = [] ↔
    allDays s dailyChart chart aux = [] := by
  obtain ⟨hchart, haux⟩ := heldStart_days s dailyChart chart aux
  obtain ⟨hmerged, -⟩ := merged_list s dailyChart (heldStart_sound s dailyChart chart aux)
  rw [allDays, List.append_eq_nil_iff, ← ascents_eq_nil (resolved s dailyChart chart none),
    ← ascents_eq_nil (resolved s false aux none), ← hchart, ← haux]
  constructor
  · intro hnil
    have hnone : ∀ date, (stampOf (laneDays s dailyChart (heldStart s dailyChart chart aux).chart)
      date).or
        (stampOf (laneDays s false (heldStart s dailyChart chart aux).aux) date) = none := by
      intro date
      rw [← hmerged.stamps, hnil]
      rfl
    have hempty : ∀ days : List HeldDay, (∀ date, stampOf days date = none) → days = [] := by
      intro days h
      cases days with
      | nil => rfl
      | cons day days =>
        have hday := h day.ordinal
        rw [stampOf_cons, if_pos rfl] at hday
        cases hday
    exact ⟨hempty _ fun date => (Option.or_eq_none_iff.mp (hnone date)).1,
      hempty _ fun date => (Option.or_eq_none_iff.mp (hnone date)).2⟩
  · rintro ⟨hleft, hright⟩
    rw [List.eq_nil_iff_forall_not_mem]
    intro e he
    rcases hmerged.mem e he with hmem | hmem
    · rw [hleft] at hmem
      cases hmem
    · rw [hright] at hmem
      cases hmem

end

end PineForge.MultiDay
