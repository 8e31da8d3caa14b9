import Mathlib
import PineForge.Timeframe.Periods
import PineForge.MultiDay.Opens

/-!
# The two lookups of held days

Where no feed goes back a scan reads the merge alongside its days, one day ahead (`Ahead`).
Otherwise the feeds are scanned over again for each year, and the year's dates kept in slots, the
first stamp of each (`RescannedHeldDays`). Both answer a scan with the first stamp of each date, the
chart's before the other's.
-/

namespace PineForge.MultiDay

open Calendar

/-! ## Alongside the merge -/

/-- The merge, and the day read ahead of the scan. -/
structure Ahead where
  held : HeldDays
  head : Option HeldDay

section

variable (s : Sessions) (dailyChart : Bool)

/-- Skip the days before a date. -/
def skipTo (d : ℤ) (st : Ahead) : Ahead :=
  match hhead : st.head with
  | none => st
  | some day =>
    if day.ordinal < d then
      skipTo d ⟨((heldDays s dailyChart).next st.held).2, ((heldDays s dailyChart).next st.held).1⟩
    else st
termination_by (heldDays s dailyChart).size st.held + st.head.toList.length
decreasing_by
  rw [hhead, Option.toList_some, List.length_singleton]
  cases h : ((heldDays s dailyChart).next st.held).1 with
  | none => exact Nat.lt_succ_of_le ((heldDays s dailyChart).ends _ h)
  | some next =>
    have := (heldDays s dailyChart).shrinks _ _ h
    simp only [Option.toList_some, List.length_singleton]
    omega

/-- Look up a date ahead. -/
def findAhead (d : ℤ) (st : Ahead) : Option (Option ℤ) × Ahead :=
  let st := skipTo s dailyChart d st
  (some ((st.head.filter (·.ordinal == d)).map (·.value)), st)

/-- The days that a scan has not passed. -/
def Ahead.days (st : Ahead) : List HeldDay :=
  match st.head with
  | none => []
  | some day => day :: (heldDays s dailyChart).list st.held

theorem days_next (held : HeldDays) :
    Ahead.days s dailyChart ⟨((heldDays s dailyChart).next held).2,
      ((heldDays s dailyChart).next held).1⟩
      = (heldDays s dailyChart).list held := by
  unfold Ahead.days
  cases h : ((heldDays s dailyChart).next held).1 with
  | none => exact (Generator.list_of_none h).symm
  | some day => exact (Generator.list_of_some h).symm

theorem days_skipTo (d : ℤ) (st : Ahead) :
    (skipTo s dailyChart d st).days s dailyChart = (st.days s dailyChart).dropWhile
    (·.ordinal < d) := by
  fun_induction skipTo s dailyChart d st with
  | case1 st hhead =>
    rw [Ahead.days, hhead]
    rfl
  | case2 st day hhead hlt ih =>
    rw [ih, days_next, Ahead.days, hhead]
    dsimp only
    rw [List.dropWhile_cons_of_pos (by simpa using hlt)]
  | case3 st day hhead hlt =>
    rw [Ahead.days, hhead]
    dsimp only
    rw [List.dropWhile_cons_of_neg (by simpa using hlt)]

theorem stampOf_dropWhile (days : List HeldDay) {d date : ℤ} (h : d ≤ date) :
    stampOf (days.dropWhile (·.ordinal < d)) date = stampOf days date := by
  induction days with
  | nil => rfl
  | cons day days ih =>
    by_cases hlt : day.ordinal < d
    · rw [List.dropWhile_cons_of_pos (by simpa using hlt), ih, stampOf_cons, if_neg (by omega)]
    · rw [List.dropWhile_cons_of_neg (by simpa using hlt)]

/-- The first of ascending days that is not before a date tells whether the date is among them. -/
theorem stampOf_head {days : List HeldDay} (hasc : Ascending days) {d : ℤ}
    (h : ∀ e ∈ days.head?, d ≤ e.ordinal) :
    (days.head?.filter (·.ordinal == d)).map (·.value) = stampOf days d := by
  cases hasc with
  | nil => rfl
  | cons hlater hrest =>
    rename_i day days
    rw [stampOf_cons, List.head?_cons]
    split
    · rename_i heq
      rw [Option.filter_some, if_pos (by simpa using heq), Option.map_some]
    · rename_i hne
      have hday : d ≤ day.ordinal := h day rfl
      rw [Option.filter_some, if_neg (by simpa using hne), Option.map_none]
      exact (stampOf_beyond fun e he => lt_of_le_of_lt hday (hlater e he)).symm

theorem head_days (st : Ahead) : (st.days s dailyChart).head? = st.head := by
  unfold Ahead.days
  cases st.head with
  | none => rfl
  | some day => rfl

/-- The days not passed are ascending and have the stamps of the dates to come. -/
structure Ahead.Knows (stamp : ℤ → Option ℤ) (st : Ahead) (d : ℤ) : Prop where
  ascending : Ascending (st.days s dailyChart)
  stamps : ∀ date, d ≤ date → stampOf (st.days s dailyChart) date = stamp date

theorem reads_findAhead (stamp : ℤ → Option ℤ) :
    Reads stamp (findAhead s dailyChart) (Ahead.Knows s dailyChart stamp) where
  answers st d h := by
    have hasc : Ascending ((skipTo s dailyChart d st).days s dailyChart) := by
      rw [days_skipTo]
      exact h.ascending.sublist (List.dropWhile_sublist _)
    have hbeyond : ∀ e ∈ ((skipTo s dailyChart d st).days s dailyChart).head?, d ≤ e.ordinal := by
      intro e he
      rw [days_skipTo] at he
      have := List.head?_dropWhile_not (fun e : HeldDay => decide (e.ordinal < d))
        (st.days s dailyChart)
      rw [Option.mem_def.mp he] at this
      simpa using this
    have hstamp := stampOf_head hasc hbeyond
    rw [head_days, days_skipTo, stampOf_dropWhile _ le_rfl, h.stamps d le_rfl] at hstamp
    exact congrArg some hstamp
  keeps st d h := by
    refine ⟨?_, fun date hdate => ?_⟩
    · change Ascending ((skipTo s dailyChart d st).days s dailyChart)
      rw [days_skipTo]
      exact h.ascending.sublist (List.dropWhile_sublist _)
    · change stampOf ((skipTo s dailyChart d st).days s dailyChart) date = stamp date
      rw [days_skipTo, stampOf_dropWhile _ (by omega), h.stamps date (by omega)]

/-- The lookup from the first bars. -/
def aheadStart (chart aux : List ℤ) : Ahead :=
  let (head, held) := (heldDays s dailyChart).next (heldStart s dailyChart chart aux)
  ⟨held, head⟩

theorem aheadStart_knows (chart aux : List ℤ)
    (h : ((heldDays s dailyChart).rest (heldStart s dailyChart chart aux)).ordered = true) (d : ℤ) :
    (aheadStart s dailyChart chart aux).Knows s dailyChart
    (stampOf (allDays s dailyChart chart aux)) d := by
  have hdays : (aheadStart s dailyChart chart aux).days s dailyChart
      = (heldDays s dailyChart).list (heldStart s dailyChart chart aux) :=
    days_next s dailyChart (heldStart s dailyChart chart aux)
  refine ⟨?_, fun date _ => ?_⟩
  · rw [hdays]
    exact heldDays_ascending s dailyChart chart aux
  · rw [hdays]
    exact stampOf_heldDays s dailyChart chart aux h date

end

/-! ## A year at a time -/

/-- The days of one rescan. -/
def rescanDays : ℕ := 366

/-- The slots of the dates of one year, and its bounds. -/
structure RescannedHeldDays where
  slots : List (Option ℤ)
  first : ℤ
  limit : ℤ
  loaded : Bool
  failed : Bool

/-- The days of one feed into the slots of a year: a slot keeps its first stamp. `none` is a day
without slot. -/
def scanSlots (first limit : ℤ) : List HeldDay → List (Option ℤ) → Option (List (Option ℤ))
  | [], slots => some slots
  | day :: days, slots =>
    if day.ordinal < first ∨ limit ≤ day.ordinal then scanSlots first limit days slots
    else if rescanDays ≤ (day.ordinal - first).toNat then none
    else if (slots.getD (day.ordinal - first).toNat none).isSome then
      scanSlots first limit days slots
    else scanSlots first limit days (slots.set (day.ordinal - first).toNat (some day.value))

section

variable (s : Sessions) (dailyChart : Bool) (chart aux : List ℤ)

/-- Both feeds are scanned from their first bars for the year of a date. -/
def reload (ordinal : ℤ) (h : RescannedHeldDays) : RescannedHeldDays :=
  let first := yearFirst (nativeCivilDate ordinal).year
  let limit := yearFirst ((nativeCivilDate ordinal).year + 1)
  if limit ≤ first ∨ limit - first > rescanDays then
    { h with first := first, limit := limit, failed := true }
  else
    match scanSlots first limit ((walk s dailyChart).list ⟨chart, none⟩)
      (List.replicate rescanDays none) with
    | none => { h with first := first, limit := limit, loaded := true, failed := true }
    | some slots =>
      match scanSlots first limit ((walk s false).list ⟨aux, none⟩) slots with
      | none => { h with first := first, limit := limit, loaded := true, failed := true }
      | some slots => ⟨slots, first, limit, true, h.failed⟩

/-- Look up a date, rescanning for it. -/
def findRescanned (p : Params) (ordinal : ℤ) (h : RescannedHeldDays) :
    Option (Option ℤ) × RescannedHeldDays :=
  if h.failed then (none, h)
  else if ordinal < p.first ∨ p.last < ordinal then (some none, h)
  else
    let h := if h.loaded = false ∨ ordinal < h.first ∨ h.limit ≤ ordinal then
      reload s dailyChart chart aux ordinal h
      else h
    if h.failed then (none, h)
    else if ordinal < h.first ∨ h.limit ≤ ordinal then (none, { h with failed := true })
    else if rescanDays ≤ (ordinal - h.first).toNat then (none, { h with failed := true })
    else (some (h.slots.getD (ordinal - h.first).toNat none), h)

theorem year_mem (d : ℤ) :
    yearFirst (nativeCivilDate d).year ≤ d ∧ d < yearFirst ((nativeCivilDate d).year + 1) := by
  have hmonth := Timeframe.civilDate_month_bounds d
  obtain ⟨hlow, hhigh⟩ := mem_month d
  have hmono := monthFirst_strictMono.monotone
  rw [yearFirst_eq, yearFirst_eq]
  constructor
  · refine le_trans (hmono ?_) hlow
    unfold monthIndex
    omega
  · refine lt_of_lt_of_le hhigh (hmono ?_)
    unfold monthIndex
    omega

/-- The slots of a year's dates after a scan: what they had, and else the first stamp of the
days. -/
theorem scanSlots_spec {first limit : ℤ} (hsize : limit - first ≤ rescanDays) (days : List HeldDay)
    {slots : List (Option ℤ)} (hlength : slots.length = rescanDays) :
    ∃ slots', scanSlots first limit days slots = some slots' ∧ slots'.length = rescanDays ∧
      ∀ date, first ≤ date → date < limit → slots'.getD (date - first).toNat none
        = (slots.getD (date - first).toNat none).or (stampOf days date) := by
  induction days generalizing slots with
  | nil =>
    refine ⟨slots, rfl, hlength, fun date _ _ => ?_⟩
    exact (Option.or_none).symm
  | cons day days ih =>
    rw [scanSlots]
    split
    · rename_i hout
      obtain ⟨slots', hscan, hlength', hslots⟩ := ih hlength
      refine ⟨slots', hscan, hlength', fun date hlow hhigh => ?_⟩
      rw [hslots date hlow hhigh, stampOf_cons, if_neg (by omega)]
    · rename_i hin
      rw [if_neg (by omega)]
      split
      · rename_i hsome
        obtain ⟨slots', hscan, hlength', hslots⟩ := ih hlength
        refine ⟨slots', hscan, hlength', fun date hlow hhigh => ?_⟩
        rw [hslots date hlow hhigh, stampOf_cons]
        split
        · rename_i hdate
          rw [← hdate, Option.or_of_isSome hsome, Option.or_of_isSome hsome]
        · rfl
      · rename_i hnone
        have hset : (slots.set (day.ordinal - first).toNat (some day.value)).length
            = rescanDays := by
          rw [List.length_set, hlength]
        obtain ⟨slots', hscan, hlength', hslots⟩ := ih hset
        have hat : (day.ordinal - first).toNat < slots.length := by omega
        refine ⟨slots', hscan, hlength', fun date hlow hhigh => ?_⟩
        rw [hslots date hlow hhigh, stampOf_cons, List.getD_eq_getElem?_getD, List.getElem?_set]
        by_cases hdate : day.ordinal = date
        · rw [Option.not_isSome_iff_eq_none] at hnone
          rw [← hdate, if_pos rfl, if_pos rfl, if_pos hat, hnone]
          rfl
        · rw [if_neg (by omega), if_neg hdate, ← List.getD_eq_getElem?_getD]

/-- A lookup that has not failed, whose slots have the stamps of their year. -/
structure RescannedHeldDays.Knows (stamp : ℤ → Option ℤ) (h : RescannedHeldDays) : Prop where
  sound : h.failed = false
  slots : h.loaded = true → h.limit - h.first ≤ rescanDays ∧
    ∀ date, h.first ≤ date → date < h.limit → h.slots.getD (date - h.first).toNat none = stamp date

/-- A reload knows the days it was for. -/
theorem reload_knows (ordinal : ℤ) {h : RescannedHeldDays} (hsound : h.failed = false) :
    (reload s dailyChart chart aux ordinal h).Knows (stampOf (allDays s dailyChart chart aux)) ∧
      (reload s dailyChart chart aux ordinal h).loaded = true ∧
      (reload s dailyChart chart aux ordinal h).first ≤ ordinal ∧
      ordinal < (reload s dailyChart chart aux ordinal h).limit := by
  obtain ⟨hshort, hlong⟩ := yearFirst_succ (nativeCivilDate ordinal).year
  obtain ⟨hlow, hhigh⟩ := year_mem ordinal
  have hsize : yearFirst ((nativeCivilDate ordinal).year + 1) - yearFirst
    (nativeCivilDate ordinal).year
      ≤ rescanDays := by
    unfold rescanDays
    omega
  have hnew : (List.replicate rescanDays (none : Option ℤ)).length = rescanDays :=
    List.length_replicate
  obtain ⟨slots, hscan, hlength, hslots⟩ :=
    scanSlots_spec hsize ((walk s dailyChart).list ⟨chart, none⟩) hnew
  obtain ⟨slots', hscan', -, hslots'⟩ :=
    scanSlots_spec hsize ((walk s false).list ⟨aux, none⟩) hlength
  have hrun : reload s dailyChart chart aux ordinal h
      = ⟨slots', yearFirst (nativeCivilDate ordinal).year,
        yearFirst ((nativeCivilDate ordinal).year + 1), true,
          h.failed⟩ := by
    unfold reload
    dsimp only
    rw [if_neg (by omega), hscan]
    dsimp only
    rw [hscan']
  rw [hrun]
  refine ⟨⟨hsound, fun _ => ⟨hsize, fun date hfirst hlimit => ?_⟩⟩, rfl, hlow, hhigh⟩
  dsimp only
  rw [hslots' date hfirst hlimit, hslots date hfirst hlimit, list_walk, list_walk, allDays,
    stampOf_append]
  simp

/-- Asked within the bounds of what the feeds hold, or beyond them, the lookup answers with the
stamps. -/
theorem reads_findRescanned {p : Params}
    (hbounds : ∀ date, date < p.first ∨ p.last < date →
      stampOf (allDays s dailyChart chart aux) date = none) :
    Reads (stampOf (allDays s dailyChart chart aux)) (findRescanned s dailyChart chart aux p)
      fun h _ => h.Knows (stampOf (allDays s dailyChart chart aux)) := by
  have hspec : ∀ (h : RescannedHeldDays) (d : ℤ),
    h.Knows (stampOf (allDays s dailyChart chart aux)) →
      (findRescanned s dailyChart chart aux p d h).1
        = some (stampOf (allDays s dailyChart chart aux) d) ∧
        (findRescanned s dailyChart chart aux p d h).2.Knows
          (stampOf (allDays s dailyChart chart aux)) := by
    intro h d hknows
    have hkeep : ∀ h' : RescannedHeldDays, h'.Knows (stampOf (allDays s dailyChart chart aux)) →
        h'.loaded = true → h'.first ≤ d → d < h'.limit →
        (if h'.failed then (none, h')
          else if d < h'.first ∨ h'.limit ≤ d then (none, { h' with failed := true })
          else if rescanDays ≤ (d - h'.first).toNat then (none, { h' with failed := true })
          else (some (h'.slots.getD (d - h'.first).toNat none), h'))
          = (some (stampOf (allDays s dailyChart chart aux) d), h') := by
      intro h' hknows' hloaded hlow hhigh
      obtain ⟨hsize, hslots⟩ := hknows'.slots hloaded
      rw [if_neg (by rw [hknows'.sound]; decide), if_neg (by omega), if_neg (by omega),
        hslots d hlow hhigh]
    unfold findRescanned
    rw [if_neg (by rw [hknows.sound]; decide)]
    split
    · rename_i hout
      exact ⟨congrArg some (hbounds d hout).symm, hknows⟩
    · dsimp only
      split
      · obtain ⟨hknows', hloaded, hlow, hhigh⟩ := reload_knows s dailyChart chart aux d hknows.sound
        rw [hkeep _ hknows' hloaded hlow hhigh]
        exact ⟨rfl, hknows'⟩
      · rename_i hin
        rw [not_or, not_or, Bool.not_eq_false, not_lt, not_le] at hin
        rw [hkeep _ hknows hin.1 hin.2.1 hin.2.2]
        exact ⟨rfl, hknows⟩
  exact ⟨fun h d hknows => (hspec h d hknows).1, fun h d hknows => (hspec h d hknows).2⟩

/-- Nothing is scanned yet. -/
def rescanStart : RescannedHeldDays := ⟨List.replicate rescanDays none, 0, 0, false, false⟩

theorem rescanStart_knows (stamp : ℤ → Option ℤ) : rescanStart.Knows stamp := ⟨rfl, nofun⟩

end

end PineForge.MultiDay
