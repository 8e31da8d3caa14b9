import Mathlib
import PineForge.Timeframe.Nominal

/-!
# The native daily partition

`build_native_day_partition` cuts time at the stamps of the chart's native daily bars. A period's
trade day is the session day of its last input bar, and of the stamp itself where it has none; its
week and month open with the group's first stamp. `Cut` is what the partition is in terms of stamps
and of one traded instant for each of them.
-/

namespace PineForge.Timeframe

open Calendar

namespace SymbolClock

variable (k : SymbolClock)

/-- The last input bar of a period and the bars after it. -/
def scanPeriod (stamp next : ℤ) : ℤ → List ℤ → ℤ × List ℤ
  | last, [] => (last, [])
  | last, bar :: bars =>
    if bar < next then scanPeriod stamp next (if bar ≥ stamp then bar else last) bars
    else (last, bar :: bars)

/-- The trade days of the stamps, in one pass over the input bars. -/
def tradeDays (lastBound : ℤ) : List ℤ → List ℤ → List ℤ
  | [], _ => []
  | stamp :: rest, bars =>
    let scanned := scanPeriod stamp (rest.head?.getD lastBound) stamp bars
    k.sessionDayIndexNominal scanned.1 :: tradeDays lastBound rest scanned.2

/-- The opens of the groups after the first: the stamp of a new group, the last open otherwise. -/
def laterOpens (period : CalendarPeriod) : ℤ → ℤ → List (ℤ × ℤ) → List ℤ
  | _, _, [] => []
  | prev, opens, (stamp, day) :: rest =>
    let group := k.sessionPeriodFirstDay day period
    let opens := if group ≠ prev then stamp else opens
    opens :: laterOpens period group opens rest

/-- The first group opens on its nominal stamp, when that is not after the first stamp. -/
def groupOpensFrom (period : CalendarPeriod) : List (ℤ × ℤ) → List ℤ
  | [] => []
  | (stamp, day) :: rest =>
    let group := k.sessionPeriodFirstDay day period
    let opens := min stamp (k.sessionDayStampRealMs group)
    opens :: k.laterOpens period group opens rest

/-- The partition of strictly increasing stamps over the times of the input bars. -/
def buildNativeDayPartition (stamps bars : List ℤ) : Option NativeDayPartition :=
  if stamps = [] then none
  else if stamps.IsChain (· < ·) then
    let lastBound := k.sessionDayCloseRealMs (k.sessionDayIndexNominal (stamps.getLastD 0))
    let days := k.tradeDays lastBound stamps bars
    some
      { stamps
        tradeDay := days
        weekOpen := k.groupOpensFrom .week (stamps.zip days)
        monthOpen := k.groupOpensFrom .month (stamps.zip days)
        lastBound }
  else none

/-! ## What is built -/

/-- Where the period of a stamp ends. -/
def stopOf (stamps : List ℤ) (lastBound : ℤ) (i : ℕ) : ℤ :=
  if i + 1 < stamps.length then stamps.getD (i + 1) 0 else lastBound

theorem scanPeriod_mem (stamp next : ℤ) (bars : List ℤ) (last : ℤ)
    (hlast : last = stamp ∨ (stamp ≤ last ∧ last < next)) :
    (scanPeriod stamp next last bars).1 = stamp ∨
      (stamp ≤ (scanPeriod stamp next last bars).1 ∧ (scanPeriod stamp next last bars).1
        < next) := by
  induction bars generalizing last with
  | nil => exact hlast
  | cons bar bars ih =>
    unfold scanPeriod
    split
    · rename_i hlt
      refine ih _ ?_
      split
      · rename_i hge
        exact .inr ⟨hge, hlt⟩
      · exact hlast
    · exact hlast

theorem tradeDays_traded (lastBound : ℤ) (stamps bars : List ℤ) (i : ℕ) (hi : i < stamps.length) :
    ∃ x, (k.tradeDays lastBound stamps bars).getD i 0 = k.sessionDayIndexNominal x ∧
      (x = stamps.getD i 0 ∨ (stamps.getD i 0 ≤ x ∧ x < stopOf stamps lastBound i)) := by
  induction stamps generalizing bars i with
  | nil => cases hi
  | cons stamp rest ih =>
    cases i with
    | zero =>
      have hstop : stopOf (stamp :: rest) lastBound 0 = rest.head?.getD lastBound := by
        unfold stopOf
        cases rest with
        | nil => rfl
        | cons next rest => simp
      refine ⟨(scanPeriod stamp (rest.head?.getD lastBound) stamp bars).1, rfl, ?_⟩
      rw [hstop]
      exact scanPeriod_mem stamp _ bars stamp (.inl rfl)
    | succ i =>
      have hstop : stopOf (stamp :: rest) lastBound (i + 1) = stopOf rest lastBound i := by
        unfold stopOf
        simp
      rw [hstop]
      exact ih _ i (by simpa using hi)

theorem tradeDays_length (lastBound : ℤ) (stamps bars : List ℤ) :
    (k.tradeDays lastBound stamps bars).length = stamps.length := by
  induction stamps generalizing bars with
  | nil => rfl
  | cons stamp rest ih =>
    unfold tradeDays
    dsimp only
    rw [List.length_cons, ih, List.length_cons]

theorem laterOpens_getD (period : CalendarPeriod) (prev opens : ℤ) (days : List (ℤ × ℤ)) (i : ℕ)
    (hi : i < days.length) :
    (k.laterOpens period prev opens days).getD i 0 =
      if k.sessionPeriodFirstDay ((days.map Prod.snd).getD i 0) period
          ≠ (prev :: days.map fun d => k.sessionPeriodFirstDay d.2 period).getD i 0 then
        (days.map Prod.fst).getD i 0
      else (opens :: k.laterOpens period prev opens days).getD i 0 := by
  induction days generalizing prev opens i with
  | nil => cases hi
  | cons d rest ih =>
    cases i with
    | zero => rfl
    | succ i =>
      have hih := ih (k.sessionPeriodFirstDay d.2 period)
        (if k.sessionPeriodFirstDay d.2 period ≠ prev then d.1 else opens) i (by simpa using hi)
      simpa [laterOpens] using hih

/-! ## Which period holds an instant -/

theorem upperBound_le {stamps : List ℤ} {ms : ℤ} {i : ℕ} (h : i < upperBound stamps ms) :
    stamps.getD i 0 ≤ ms := by
  unfold upperBound at h
  induction stamps generalizing i with
  | nil => cases h
  | cons stamp rest ih =>
    rw [List.takeWhile_cons] at h
    split at h
    · rename_i hle
      cases i with
      | zero => exact of_decide_eq_true hle
      | succ i => exact ih (by simpa using h)
    · cases h

theorem lt_upperBound {stamps : List ℤ} {ms : ℤ} (h : upperBound stamps ms < stamps.length) :
    ms < stamps.getD (upperBound stamps ms) 0 := by
  unfold upperBound at h ⊢
  induction stamps with
  | nil => cases h
  | cons stamp rest ih =>
    rw [List.takeWhile_cons] at h ⊢
    split at h
    · rename_i hle
      rw [if_pos hle]
      exact ih (by simpa using h)
    · rename_i hgt
      rw [if_neg hgt]
      exact lt_of_not_ge fun hge => hgt (decide_eq_true hge)

theorem upperBound_length (stamps : List ℤ) (ms : ℤ) : upperBound stamps ms ≤ stamps.length :=
  (List.takeWhile_sublist _).length_le

/-- The stamps strictly increase. -/
def Increasing (stamps : List ℤ) : Prop :=
  ∀ i j, i < j → j < stamps.length → stamps.getD i 0 < stamps.getD j 0

/-- The stamp found holds the instant. -/
theorem stampIndex_eq_some {stamps : List ℤ} (h : Increasing stamps) {lastBound ms : ℤ} {i : ℕ} :
    stampIndex stamps lastBound ms = some i ↔
      i < stamps.length ∧ stamps.getD i 0 ≤ ms ∧ ms < stopOf stamps lastBound i := by
  have hlength := upperBound_length stamps ms
  unfold stampIndex stopOf
  constructor
  · intro hsome
    split at hsome
    · cases hsome
    · rename_i hzero
      split at hsome
      · cases hsome
      · rename_i hpast
        cases hsome
        refine ⟨by omega, upperBound_le (by omega), ?_⟩
        rw [Nat.sub_add_cancel (by omega)]
        split
        · rename_i hlt
          exact lt_upperBound hlt
        · by_contra hge
          exact hpast ⟨by omega, not_lt.mp hge⟩
  · rintro ⟨hi, hle, hlt⟩
    have hbelow : i < upperBound stamps ms := by
      by_contra hge
      have habove := lt_upperBound (lt_of_le_of_lt (not_lt.mp hge) hi)
      obtain heq | hlt' := (not_lt.mp hge).eq_or_lt
      · rw [heq] at habove
        omega
      · have := h _ _ hlt' hi
        omega
    have hupper : upperBound stamps ms = i + 1 := by
      by_contra hne
      have hnext := upperBound_le (show i + 1 < upperBound stamps ms by omega)
      rw [if_pos (by omega)] at hlt
      omega
    rw [if_neg (by omega), if_neg, hupper]
    · rfl
    · rintro ⟨hall, hge⟩
      rw [if_neg (by omega)] at hlt
      omega

end SymbolClock

namespace FixedZone

open SymbolClock

variable (z : FixedZone) (session : Session)

/-- A partition in terms of its stamps and of a traded instant for each. -/
structure Cut (p : NativeDayPartition) (x : ℕ → ℤ) : Prop where
  nonempty : 0 < p.stamps.length
  increasing : Increasing p.stamps
  traded : ∀ i < p.stamps.length, p.tradeDay.getD i 0 = (z.clock session none).sessionDayIndex (x i)
  within : ∀ i < p.stamps.length, p.stamps.getD i 0 ≤ x i ∧
    (p.stamps.getD i 0 < stopOf p.stamps p.lastBound i → x i < stopOf p.stamps p.lastBound i)
  first : ∀ period, period.grouped → (groupOpens p period).getD 0 0
    = min (p.stamps.getD 0 0) ((z.clock session none).sessionPeriodOpenMs (x 0) period)
  later : ∀ period, period.grouped → ∀ i, i + 1 < p.stamps.length →
    (groupOpens p period).getD (i + 1) 0
    = if z.firstDay session period (x (i + 1)) ≠ z.firstDay session period (x i) then
      p.stamps.getD (i + 1) 0
      else (groupOpens p period).getD i 0

variable {z session}

theorem groupOpensFrom_first (z : FixedZone) (session : Session) (period : CalendarPeriod)
    (pairs : List (ℤ × ℤ)) (h : 0 < pairs.length) :
    ((z.clock session none).groupOpensFrom period pairs).getD 0 0
      = min ((pairs.map Prod.fst).getD 0 0) ((z.clock session none).sessionDayStampRealMs
          ((z.clock session none).sessionPeriodFirstDay ((pairs.map Prod.snd).getD 0 0)
            period)) := by
  cases pairs with
  | nil => cases h
  | cons pair pairs => rfl

theorem groupOpensFrom_later (z : FixedZone) (session : Session) (period : CalendarPeriod)
    (pairs : List (ℤ × ℤ)) (i : ℕ)
    (h : i + 1 < pairs.length) :
    ((z.clock session none).groupOpensFrom period pairs).getD (i + 1) 0
      = if (z.clock session none).sessionPeriodFirstDay ((pairs.map Prod.snd).getD (i + 1) 0) period
          ≠ (z.clock session none).sessionPeriodFirstDay ((pairs.map Prod.snd).getD i 0) period then
          (pairs.map Prod.fst).getD (i + 1) 0
        else ((z.clock session none).groupOpensFrom period pairs).getD i 0 := by
  cases pairs with
  | nil => cases h
  | cons pair pairs =>
    have hlater := laterOpens_getD (z.clock session none) period
      ((z.clock session none).sessionPeriodFirstDay pair.2 period)
      (min pair.1 ((z.clock session none).sessionDayStampRealMs
        ((z.clock session none).sessionPeriodFirstDay pair.2 period))) pairs i (by simpa using h)
    have hgroup : ((z.clock session none).sessionPeriodFirstDay pair.2 period ::
          pairs.map fun d => (z.clock session none).sessionPeriodFirstDay d.2 period).getD i 0
        = (z.clock session none).sessionPeriodFirstDay
          (((pair :: pairs).map Prod.snd).getD i 0) period := by
      cases i with
      | zero => rfl
      | succ i =>
        have hi : i < pairs.length := by simpa using h.trans_le' (Nat.le_succ _)
        simp [List.getD_eq_getElem?_getD, hi]
    rw [hgroup] at hlater
    exact hlater

/-- A built partition cuts its stamps. -/
theorem cut_of_built {stamps bars : List ℤ} {p : NativeDayPartition}
    (h : (z.clock session none).buildNativeDayPartition stamps bars = some p) :
    p.stamps = stamps ∧ ∃ x, z.Cut session p x := by
  unfold buildNativeDayPartition at h
  split at h
  · cases h
  · rename_i hne
    split at h
    · rename_i hchain
      dsimp only at h
      cases h
      refine ⟨rfl, ?_⟩
      have hpairwise := List.isChain_iff_pairwise.mp hchain
      obtain ⟨lastBound, hbound⟩ : ∃ lastBound, lastBound
        = (z.clock session none).sessionDayCloseRealMs
        ((z.clock session none).sessionDayIndexNominal (stamps.getLastD 0)) := ⟨_, rfl⟩
      obtain ⟨days, hdays⟩ : ∃ days, days
          = (z.clock session none).tradeDays lastBound stamps bars := ⟨_, rfl⟩
      rw [← hbound, ← hdays]
      have hlength : days.length = stamps.length := by
        rw [hdays]
        exact tradeDays_length _ _ _ _
      have hfst : (stamps.zip days).map Prod.fst = stamps := List.map_fst_zip hlength.ge
      have hsnd : (stamps.zip days).map Prod.snd = days := List.map_snd_zip hlength.le
      have hzip : (stamps.zip days).length = stamps.length := by
        rw [List.length_zip, hlength, min_self]
      have htraded : ∀ i, ∃ x, i < stamps.length → days.getD i 0
        = (z.clock session none).sessionDayIndex x ∧
          (x = stamps.getD i 0 ∨ (stamps.getD i 0 ≤ x ∧ x < stopOf stamps lastBound i)) := by
        intro i
        by_cases hi : i < stamps.length
        · obtain ⟨x, hx⟩ := tradeDays_traded (z.clock session none) lastBound stamps bars i hi
          refine ⟨x, fun _ => ?_⟩
          rw [hdays]
          exact hx
        · exact ⟨0, fun h => absurd h hi⟩
      choose x hx using htraded
      refine ⟨x, List.length_pos_of_ne_nil hne, ?_, fun i hi => (hx i hi).1, ?_, ?_, ?_⟩
      · intro i j hij hj
        have hi := hij.trans hj
        have hlt := List.pairwise_iff_getElem.mp hpairwise i j hi hj hij
        change stamps.getD i 0 < stamps.getD j 0
        rwa [List.getD_eq_getElem _ _ hi, List.getD_eq_getElem _ _ hj]
      · intro i hi
        change stamps.getD i 0 ≤ x i ∧
          (stamps.getD i 0 < stopOf stamps lastBound i → x i < stopOf stamps lastBound i)
        obtain heq | ⟨hle, hlt⟩ := (hx i hi).2
        · rw [heq]
          exact ⟨le_rfl, id⟩
        · exact ⟨hle, fun _ => hlt⟩
      · intro period hgrouped
        have hpos := List.length_pos_of_ne_nil hne
        have hfirst := groupOpensFrom_first z session period (stamps.zip days) (by omega)
        rw [hfst, hsnd, (hx 0 hpos).1] at hfirst
        rw [sessionPeriodOpenMs_none z session (x 0) (grouped_ne_none hgrouped), ← hfirst]
        obtain rfl | rfl := hgrouped <;> rfl
      · intro period hgrouped i hi
        change i + 1 < stamps.length at hi
        have hlater := groupOpensFrom_later z session period (stamps.zip days) i (by omega)
        rw [hfst, hsnd, (hx i (by omega)).1, (hx (i + 1) hi).1] at hlater
        obtain rfl | rfl := hgrouped <;> exact hlater
    · cases h

end FixedZone

end PineForge.Timeframe
