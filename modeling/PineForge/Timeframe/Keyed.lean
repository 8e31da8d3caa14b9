import Mathlib
import PineForge.Timeframe.Native
import PineForge.Timeframe.Buckets

/-!
# Keys and opens under a native partition

An instant that a period holds is keyed by the period's trade day and opens with its stamps; any
other instant is keyed and opens nominally. Keys and opens tell instants apart in the same way when
they rise together: from one held period to the next, from the instants before the first stamp to
the first period, and from the last held period to the instants after it (`Regular`). `keyed_iff` is
the law and its converse.
-/

namespace PineForge.Timeframe.FixedZone

open Calendar SymbolClock

/-- A quantity and its key rise together, or stay together. -/
def Rises (u v f g : ℤ) : Prop := (u < v ∧ f < g) ∨ (u = v ∧ f = g)

theorem Rises.refl (u f : ℤ) : Rises u u f f := .inr ⟨rfl, rfl⟩

theorem Rises.trans {u v w f g h : ℤ} (huv : Rises u v f g) (hvw : Rises v w g h) :
    Rises u w f h := by
  unfold Rises at *
  omega

theorem Rises.le {u v f g : ℤ} (h : Rises u v f g) : u ≤ v := by
  unfold Rises at h
  omega

theorem Rises.ne_iff {u v f g : ℤ} (h : Rises u v f g) : f ≠ g ↔ u ≠ v := by
  unfold Rises at h
  omega

variable {z : FixedZone} {session : Session} {p : NativeDayPartition} {x : ℕ → ℤ} {a b ms : ℤ}
  {period : CalendarPeriod}

/-! ## Nominal instants -/

theorem rises_nominal (h : DayHours session) (ha : thirdDay ≤ a) (hab : a ≤ b)
    (hperiod : period ≠ .none) :
    Rises ((z.clock session none).sessionPeriodOpenMs a period)
      ((z.clock session none).sessionPeriodOpenMs b period)
      (z.firstDay session period a) (z.firstDay session period b) := by
  have hb := ha.trans hab
  obtain heq | hlt := (firstDay_mono z session period ha hab).eq_or_lt
  · right
    refine ⟨?_, heq⟩
    rw [sessionPeriodOpenMs_eq (fun _ => h) ha hperiod,
      sessionPeriodOpenMs_eq (fun _ => h) hb hperiod, heq]
  · left
    refine ⟨?_, hlt⟩
    rw [sessionPeriodOpenMs_eq (fun _ => h) ha hperiod,
      sessionPeriodOpenMs_eq (fun _ => h) hb hperiod]
    exact periodStamp_lt (firstDay_cases (fun _ => h) ha period)
      (firstDay_cases (fun _ => h) hb period) hlt

theorem lt_open_of_first_lt (h : DayHours session) (ha : thirdDay ≤ a) (hb : thirdDay ≤ b)
    (hperiod : period ≠ .none) (hlt : z.firstDay session period a < z.firstDay session period b) :
    a < (z.clock session none).sessionPeriodOpenMs b period := by
  have hindex := index_nonneg z h ha
  have hshift := h.shift
  have hafter : (z.clock session none).sessionDayIndex a < z.firstDay session period b := by
    by_contra hge
    have hmax := (firstOf_firstDay z session period a).max
      (firstOf_firstDay z session period b).starts
      (by omega)
    omega
  rw [sessionPeriodOpenMs_eq (fun _ => h) hb hperiod, periodStamp_late fun _ => by omega]
  exact (lt_readStamp ha).mpr hafter

/-! ## Held instants -/

variable (p) in
/-- The start of a period. -/
def start (i : ℕ) : ℤ := p.stamps.getD i 0

variable (p) in
/-- The end of a period. -/
def stop (i : ℕ) : ℤ := stopOf p.stamps p.lastBound i

variable (p) in
/-- A period that holds instants: every one but a last one that is bounded before it starts. -/
def HasInstants (i : ℕ) : Prop := i < p.stamps.length ∧ start p i < stop p i

variable (p) in
/-- The open of a period, for days, weeks and months. -/
def openOf (period : CalendarPeriod) (i : ℕ) : ℤ :=
  if period = .day then start p i else (groupOpens p period).getD i 0

theorem hasInstants_of_lt (hcut : z.Cut session p x) {i : ℕ} (hi : i + 1 < p.stamps.length) :
    HasInstants p i ∧ stop p i = start p (i + 1) := by
  have hstop : stop p i = start p (i + 1) := if_pos hi
  refine ⟨⟨by omega, ?_⟩, hstop⟩
  rw [hstop]
  exact hcut.increasing i (i + 1) (by omega) hi

theorem start_lt (hcut : z.Cut session p x) {i j : ℕ} (hij : i < j) (hj : j < p.stamps.length) :
    start p i < start p j := hcut.increasing i j hij hj

theorem stop_le_start (hcut : z.Cut session p x) {i j : ℕ} (hij : i < j)
    (hj : j < p.stamps.length) :
    stop p i ≤ start p j := by
  rw [(hasInstants_of_lt hcut (show i + 1 < p.stamps.length by omega)).2]
  obtain heq | hlt := (Nat.succ_le_of_lt hij).eq_or_lt
  · rw [← heq]
  · exact (start_lt hcut hlt hj).le

theorem partitionAt_eq_some (hcut : z.Cut session p x) {i : ℕ} {q : NativeDayPartition} :
    (z.clock session (some p)).partitionAt ms = some (q, i) ↔
      q = p ∧ HasInstants p i ∧ start p i ≤ ms ∧ ms < stop p i := by
  change ((stampIndex p.stamps p.lastBound ms).bind fun index => some (p, index)) = some (q, i) ↔ _
  rw [Option.bind_eq_some_iff]
  constructor
  · rintro ⟨index, hindex, heq⟩
    cases heq
    obtain ⟨hi, hle, hlt⟩ := (stampIndex_eq_some hcut.increasing).mp hindex
    exact ⟨rfl, ⟨hi, lt_of_le_of_lt hle hlt⟩, hle, hlt⟩
  · rintro ⟨rfl, ⟨hi, -⟩, hle, hlt⟩
    exact ⟨i, (stampIndex_eq_some hcut.increasing).mpr ⟨hi, hle, hlt⟩, rfl⟩

theorem partitionAt_eq_none (hcut : z.Cut session p x)
    (h : (z.clock session (some p)).partitionAt ms = none) {i : ℕ} (hi : HasInstants p i)
    (hle : start p i ≤ ms) : stop p i ≤ ms := by
  by_contra hlt
  have hsome := (partitionAt_eq_some hcut (q := p)).mpr ⟨rfl, hi, hle, not_le.mp hlt⟩
  rw [h] at hsome
  cases hsome

theorem index_held (hcut : z.Cut session p x) {i : ℕ} (hi : HasInstants p i) (hle : start p i ≤ ms)
    (hlt : ms < stop p i) :
    (z.clock session (some p)).sessionDayIndex ms
    = (z.clock session none).sessionDayIndex (x i) := by
  unfold SymbolClock.sessionDayIndex
  rw [(partitionAt_eq_some hcut).mpr ⟨rfl, hi, hle, hlt⟩]
  exact hcut.traded i hi.1

theorem open_held (hcut : z.Cut session p x) {i : ℕ} (hi : HasInstants p i) (hle : start p i ≤ ms)
    (hlt : ms < stop p i) (hperiod : period ≠ .none) :
    (z.clock session (some p)).sessionPeriodOpenMs ms period = openOf p period i := by
  unfold SymbolClock.sessionPeriodOpenMs openOf
  rw [if_neg hperiod, (partitionAt_eq_some hcut).mpr ⟨rfl, hi, hle, hlt⟩]
  cases period with
  | none => exact absurd rfl hperiod
  | day => rfl
  | week => rfl
  | month => rfl

theorem index_unheld (h : (z.clock session (some p)).partitionAt ms = none) :
    (z.clock session (some p)).sessionDayIndex ms = (z.clock session none).sessionDayIndex ms := by
  unfold SymbolClock.sessionDayIndex
  rw [h]
  rfl

theorem open_unheld (h : (z.clock session (some p)).partitionAt ms = none)
    (hperiod : period ≠ .none) :
    (z.clock session (some p)).sessionPeriodOpenMs ms period
      = (z.clock session none).sessionPeriodOpenMs ms period := by
  rw [sessionPeriodOpenMs_none z session ms hperiod, ← index_unheld h]
  unfold SymbolClock.sessionPeriodOpenMs
  rw [if_neg hperiod, h]
  rfl

theorem key_of_index {y : ℤ} (h : (z.clock session (some p)).sessionDayIndex ms
      = (z.clock session none).sessionDayIndex y) :
    (z.clock session (some p)).sessionPeriodKey ms period = z.firstDay session period y := by
  unfold SymbolClock.sessionPeriodKey firstDay
  rw [h]
  rfl

/-! ## Rising together -/

variable (z session p x period) in
/-- Opens and keys rise together from period to period and where the partition begins and ends. -/
structure Risen : Prop where
  steps : ∀ i, HasInstants p (i + 1) → Rises (openOf p period i) (openOf p period (i + 1))
    (z.firstDay session period (x i)) (z.firstDay session period (x (i + 1)))
  before : HasInstants p 0 → ∀ a, thirdDay ≤ a → a < start p 0 →
    Rises ((z.clock session none).sessionPeriodOpenMs a period) (openOf p period 0)
      (z.firstDay session period a) (z.firstDay session period (x 0))
  after : ∀ i, HasInstants p i → ¬ HasInstants p (i + 1) → ∀ b, stop p i ≤ b →
    Rises (openOf p period i) ((z.clock session none).sessionPeriodOpenMs b period)
      (z.firstDay session period (x i)) (z.firstDay session period b)

theorem Risen.held (hcut : z.Cut session p x) (h : z.Risen session p x period) {i j : ℕ}
    (hij : i ≤ j)
    (hj : HasInstants p j) :
    Rises (openOf p period i) (openOf p period j) (z.firstDay session period (x i))
      (z.firstDay session period (x j)) := by
  induction j, hij using Nat.le_induction with
  | base => exact Rises.refl _ _
  | succ j hij ih => exact (ih (hasInstants_of_lt hcut hj.1).1).trans (h.steps j hj)

theorem exists_last (hcut : z.Cut session p x) {i : ℕ} (hi : HasInstants p i) :
    ∃ l, i ≤ l ∧ HasInstants p l ∧ ¬ HasInstants p (l + 1) := by
  by_cases hlast : HasInstants p (p.stamps.length - 1)
  · refine ⟨p.stamps.length - 1, ?_, hlast, ?_⟩
    · have := hi.1
      omega
    · rintro ⟨hlt, -⟩
      have := hi.1
      omega
  · have hne : i ≠ p.stamps.length - 1 := by
      rintro rfl
      exact hlast hi
    have hlt := hi.1
    refine ⟨p.stamps.length - 2, by omega, (hasInstants_of_lt hcut (by omega)).1, ?_⟩
    rw [show p.stamps.length - 2 + 1 = p.stamps.length - 1 by omega]
    exact hlast

/-- Later instants have no earlier key. -/
theorem Risen.everywhere (hhours : DayHours session) (hcut : z.Cut session p x)
    (h : z.Risen session p x period) (hperiod : period ≠ .none) (ha : thirdDay ≤ a) (hab : a ≤ b) :
    Rises ((z.clock session (some p)).sessionPeriodOpenMs a period)
      ((z.clock session (some p)).sessionPeriodOpenMs b period)
      ((z.clock session (some p)).sessionPeriodKey a period)
      ((z.clock session (some p)).sessionPeriodKey b period) := by
  cases hheld : (z.clock session (some p)).partitionAt a with
  | none =>
    rw [open_unheld hheld hperiod, key_of_index (index_unheld hheld)]
    cases hheld' : (z.clock session (some p)).partitionAt b with
    | none =>
      rw [open_unheld hheld' hperiod, key_of_index (index_unheld hheld')]
      exact rises_nominal hhours ha hab hperiod
    | some held =>
      obtain ⟨q, j⟩ := held
      obtain ⟨-, hj, hle, hlt⟩ := (partitionAt_eq_some hcut).mp hheld'
      rw [open_held hcut hj hle hlt hperiod, key_of_index (index_held hcut hj hle hlt)]
      -- the unheld instant lies before the first stamp
      have hzero : HasInstants p 0 := by
        cases j with
        | zero => exact hj
        | succ j => exact (hasInstants_of_lt hcut (by have := hj.1; omega)).1
      have hbefore : a < start p 0 := by
        by_contra hge
        have hstart : start p 0 ≤ a := not_lt.mp hge
        have hafter : start p j ≤ a := by
          cases j with
          | zero => exact hstart
          | succ j =>
            by_contra hlow
            have hprev : ∀ l, l ≤ j → start p (l + 1) ≤ a := by
              intro l hl
              induction l with
              | zero =>
                have hstop := partitionAt_eq_none hcut hheld hzero hstart
                rwa [(hasInstants_of_lt hcut (by have := hj.1; omega)).2] at hstop
              | succ l ih =>
                have hstop := partitionAt_eq_none hcut hheld
                  (hasInstants_of_lt hcut (by have := hj.1; omega)).1 (ih (by omega))
                rwa [(hasInstants_of_lt hcut (by have := hj.1; omega)).2] at hstop
            exact hlow (hprev j le_rfl)
        have hstop := partitionAt_eq_none hcut hheld hj hafter
        omega
      exact (h.before hzero a ha hbefore).trans (h.held hcut (Nat.zero_le j) hj)
  | some held =>
    obtain ⟨q, i⟩ := held
    obtain ⟨-, hi, hle, hlt⟩ := (partitionAt_eq_some hcut).mp hheld
    rw [open_held hcut hi hle hlt hperiod, key_of_index (index_held hcut hi hle hlt)]
    cases hheld' : (z.clock session (some p)).partitionAt b with
    | none =>
      rw [open_unheld hheld' hperiod, key_of_index (index_unheld hheld')]
      obtain ⟨l, hil, hl, hlast⟩ := exists_last hcut hi
      -- and this one after the last period
      have hpast : ∀ n, i + n ≤ l → stop p (i + n) ≤ b := by
        intro n hn
        induction n with
        | zero => exact partitionAt_eq_none hcut hheld' hi (hle.trans hab)
        | succ n ih =>
          have hnext := (hasInstants_of_lt hcut
            (show i + n + 1 < p.stamps.length by have := hl.1; omega)).2
          have hstart := ih (by omega)
          rw [hnext] at hstart
          refine partitionAt_eq_none hcut hheld' ?_ hstart
          obtain heq | hlt' := hn.eq_or_lt
          · rw [heq]
            exact hl
          · exact (hasInstants_of_lt hcut (by have := hl.1; omega)).1
      have hstop := hpast (l - i) (by omega)
      rw [Nat.add_sub_cancel' hil] at hstop
      exact (h.held hcut hil hl).trans (h.after l hl hlast b hstop)
    | some held' =>
      obtain ⟨q', j⟩ := held'
      obtain ⟨-, hj, hle', hlt'⟩ := (partitionAt_eq_some hcut).mp hheld'
      rw [open_held hcut hj hle' hlt' hperiod, key_of_index (index_held hcut hj hle' hlt')]
      have hij : i ≤ j := by
        by_contra hgt
        have hsep := stop_le_start hcut (not_le.mp hgt) hi.1
        omega
      exact h.held hcut hij hj

/-! ## Regular partitions -/

variable (z session p) in
/-- The trade days increase; no instant before the first stamp is of the first trade day; after the
last period its day, week and month open nominally, or are over; and without a trading session no
period is in two weeks. -/
structure Regular : Prop where
  days : ∀ i, HasInstants p (i + 1) → p.tradeDay.getD i 0 < p.tradeDay.getD (i + 1) 0
  before : HasInstants p 0 →
    (z.clock session none).sessionDayIndex (start p 0 - 1) < p.tradeDay.getD 0 0
  after : ∀ i, HasInstants p i → ¬ HasInstants p (i + 1) → ∀ period, period ≠ .none →
    z.firstDay session period (stop p i)
        ≠ (z.clock session none).sessionPeriodFirstDay (p.tradeDay.getD i 0) period ∨
      openOf p period i = (z.clock session none).sessionDayStampRealMs
        ((z.clock session none).sessionPeriodFirstDay (p.tradeDay.getD i 0) period)
  weeks : hasTradingSession session = false → ∀ i, HasInstants p i →
    z.firstDay session .week (start p i) = z.firstDay session .week (stop p i - 1)

theorem first_traded (hcut : z.Cut session p x) {i : ℕ} (hi : i < p.stamps.length) :
    (z.clock session none).sessionPeriodFirstDay (p.tradeDay.getD i 0) period
      = z.firstDay session period (x i) := by
  rw [hcut.traded i hi]
  rfl

theorem third_lt_start (hstamps : ∀ s ∈ p.stamps, thirdDay < s) {i : ℕ}
    (hi : i < p.stamps.length) : thirdDay < start p i := by
  have hmem := hstamps p.stamps[i] (List.getElem_mem hi)
  unfold start
  rwa [List.getD_eq_getElem _ _ hi]

theorem grouped_of_ne_day (hperiod : period ≠ .none) (hday : period ≠ .day) : period.grouped := by
  cases period with
  | none => exact absurd rfl hperiod
  | day => exact absurd rfl hday
  | week => exact .inl rfl
  | month => exact .inr rfl

theorem openOf_le_start (hcut : z.Cut session p x) (hperiod : period ≠ .none) {i : ℕ}
    (hi : i < p.stamps.length) : openOf p period i ≤ start p i := by
  unfold openOf
  split
  · exact le_rfl
  · rename_i hday
    have hgrouped := grouped_of_ne_day hperiod hday
    induction i with
    | zero =>
      rw [hcut.first period hgrouped]
      exact min_le_left _ _
    | succ i ih =>
      rw [hcut.later period hgrouped i hi]
      split
      · exact le_rfl
      · exact (ih (by omega)).trans (start_lt hcut (Nat.lt_succ_self i) hi).le

/-- Weeks and months rise together whatever the stamps, until the partition ends. -/
theorem risen_steps (hcut : z.Cut session p x)
    (hstamps : ∀ s ∈ p.stamps, thirdDay < s) (hreg : z.Regular session p)
    (hperiod : period ≠ .none) (i : ℕ)
    (hi : HasInstants p (i + 1)) :
    Rises (openOf p period i) (openOf p period (i + 1)) (z.firstDay session period (x i))
      (z.firstDay session period (x (i + 1))) := by
  have hlt := start_lt hcut (Nat.lt_succ_self i) hi.1
  by_cases hday : period = .day
  · subst hday
    left
    refine ⟨hlt, ?_⟩
    have hdays := hreg.days i hi
    rw [hcut.traded i (by have := hi.1; omega), hcut.traded (i + 1) hi.1] at hdays
    exact hdays
  · have hgrouped := grouped_of_ne_day hperiod hday
    have hopen : openOf p period (i + 1) = if z.firstDay session period (x (i + 1))
        ≠ z.firstDay session period (x i) then start p (i + 1) else openOf p period i := by
      have hlater := hcut.later period hgrouped i hi.1
      unfold openOf
      rw [if_neg hday, if_neg hday]
      exact hlater
    have hthird := third_lt_start hstamps (show i < p.stamps.length by have := hi.1; omega)
    obtain ⟨hheld, hstop⟩ := hasInstants_of_lt hcut hi.1
    have hwithin := hcut.within i hheld.1
    have hwithin' := hcut.within (i + 1) hi.1
    have hle : x i ≤ x (i + 1) := by
      have hx : x i < stop p i := hwithin.2 hheld.2
      have hs : start p (i + 1) ≤ x (i + 1) := hwithin'.1
      omega
    have hxi : thirdDay ≤ x i := hthird.le.trans hwithin.1
    have hmono := firstDay_mono z session period hxi hle
    rw [hopen]
    split
    · rename_i hne
      left
      refine ⟨lt_of_le_of_lt (openOf_le_start hcut hperiod hheld.1) hlt, ?_⟩
      omega
    · rename_i heq
      right
      exact ⟨rfl, (not_not.mp heq).symm⟩

theorem risen_before (hhours : DayHours session) (hcut : z.Cut session p x)
    (hreg : z.Regular session p) (hperiod : period ≠ .none)
    (hi : HasInstants p 0) (ha : thirdDay ≤ a) (hlt : a < start p 0) :
    Rises ((z.clock session none).sessionPeriodOpenMs a period) (openOf p period 0)
      (z.firstDay session period a) (z.firstDay session period (x 0)) := by
  have hwithin := hcut.within 0 hi.1
  have hx : start p 0 ≤ x 0 := hwithin.1
  have hopen := open_le (z := z) (fun _ => hhours) ha hperiod
  have hnominal := rises_nominal (z := z) hhours ha (show a ≤ x 0 by omega) hperiod
  by_cases hday : period = .day
  · subst hday
    left
    refine ⟨lt_of_le_of_lt hopen hlt, ?_⟩
    have hbefore := hreg.before hi
    rw [hcut.traded 0 hi.1] at hbefore
    exact lt_of_le_of_lt (index_mono ha (show a ≤ start p 0 - 1 by omega)) hbefore
  · have hgrouped := grouped_of_ne_day hperiod hday
    have hfirst : openOf p period 0
        = min (start p 0) ((z.clock session none).sessionPeriodOpenMs (x 0) period) := by
      unfold openOf
      rw [if_neg hday]
      exact hcut.first period hgrouped
    rw [hfirst]
    obtain ⟨hlower, hrise⟩ | ⟨hsame, heq⟩ := hnominal
    · left
      exact ⟨lt_min (lt_of_le_of_lt hopen hlt) hlower, hrise⟩
    · right
      refine ⟨?_, heq⟩
      rw [min_eq_right (by omega), hsame]

theorem risen_after (hhours : DayHours session) (hcut : z.Cut session p x)
    (hstamps : ∀ s ∈ p.stamps, thirdDay < s) (hreg : z.Regular session p)
    (hperiod : period ≠ .none) {i : ℕ}
    (hi : HasInstants p i) (hlast : ¬ HasInstants p (i + 1)) (hb : stop p i ≤ b) :
    Rises (openOf p period i) ((z.clock session none).sessionPeriodOpenMs b period)
      (z.firstDay session period (x i)) (z.firstDay session period b) := by
  have hthird := third_lt_start hstamps hi.1
  have hwithin := hcut.within i hi.1
  have hxi : start p i ≤ x i := hwithin.1
  have hxs : x i < stop p i := hwithin.2 hi.2
  have hthird' : thirdDay ≤ x i := by omega
  have hnominal := rises_nominal (z := z) hhours hthird' (show x i ≤ b by omega) hperiod
  have hle := openOf_le_start hcut hperiod hi.1
  obtain heq | hlt := (firstDay_mono z session period hthird' (show x i ≤ b by omega)).eq_or_lt
  · -- the period goes on after the partition ends, so the partition must have opened it nominally
    right
    refine ⟨?_, heq⟩
    have hmid := firstDay_mono z session period hthird' (show x i ≤ stop p i by omega)
    have hmid' := firstDay_mono z session period (show thirdDay ≤ stop p i by omega) hb
    obtain hover | hopen := hreg.after i hi hlast period hperiod
    · rw [first_traded hcut hi.1] at hover
      omega
    · rw [first_traded hcut hi.1] at hopen
      rw [hopen, sessionPeriodOpenMs_none z session b hperiod, heq]
      rfl
  · left
    have hlater := lt_open_of_first_lt hhours hthird' (show thirdDay ≤ b by omega) hperiod hlt
    exact ⟨by omega, hlt⟩

theorem Regular.risen (hhours : DayHours session) (hcut : z.Cut session p x)
    (hstamps : ∀ s ∈ p.stamps, thirdDay < s) (hreg : z.Regular session p)
    (hperiod : period ≠ .none) :
    z.Risen session p x period :=
  ⟨risen_steps hcut hstamps hreg hperiod,
    fun hi _ ha hlt => risen_before hhours hcut hreg hperiod hi ha hlt,
    fun _ hi hlast _ hb => risen_after hhours hcut hstamps hreg hperiod hi hlast hb⟩

/-! ## Boundaries -/

/-- Without a trading session, weeks are told apart by the nominal session days. -/
theorem crosses_untraded (hhours : DayHours session) (huntraded : hasTradingSession session = false)
    (ha : thirdDay ≤ a) (hb : thirdDay ≤ b) :
    (z.clock session (some p)).crossesBoundary a b .week = true ↔
      z.firstDay session .week a ≠ z.firstDay session .week b := by
  rw [← crosses_iff_first (fun _ => hhours.stamp_le) ha hb (by decide)]
  have hnot : ¬ hasTradingSession session = true := by simp [huntraded]
  have hleft : (z.clock session (some p)).crossesBoundary a b .week
      = decide (mondayOf (clockDay ((z.clock session none).intradayClockMs a))
          ≠ mondayOf (clockDay ((z.clock session none).intradayClockMs b))) := if_neg hnot
  have hright : (z.clock session none).crossesBoundary a b .week
      = decide (mondayOf (clockDay ((z.clock session none).intradayClockMs a))
          ≠ mondayOf (clockDay ((z.clock session none).intradayClockMs b))) := if_neg hnot
  rw [hleft, hright]

/-- Days, months, and the weeks of a trading session are told apart by their keys. -/
theorem crosses_iff_keys (hhours : DayHours session) (ha : thirdDay ≤ a) (hb : thirdDay ≤ b)
    (hperiod : period ≠ .none) (htraded : period = .week → hasTradingSession session = true) :
    (z.clock session (some p)).crossesBoundary a b period = true ↔
      (z.clock session (some p)).sessionPeriodKey a period
        ≠ (z.clock session (some p)).sessionPeriodKey b period := by
  unfold SymbolClock.crossesBoundary
  dsimp only
  cases period with
  | none => exact absurd rfl hperiod
  | month =>
    rw [decide_eq_true_iff]
  | week =>
    change (if hasTradingSession session = true then _ else _) = true ↔ _
    rw [if_pos (htraded rfl), decide_eq_true_iff]
  | day =>
    dsimp only
    split
    · rw [decide_eq_true_iff]
      exact Iff.rfl
    · rename_i hunheld
      have hnone : ∀ {m}, ¬ ((z.clock session (some p)).partitionAt m).isSome = true →
          (z.clock session (some p)).partitionAt m = none := by
        intro m hm
        exact Option.not_isSome_iff_eq_none.mp hm
      rw [not_or] at hunheld
      rw [decide_eq_true_iff]
      change clockDay ((z.clock session none).intradayClockMs a)
        ≠ clockDay ((z.clock session none).intradayClockMs b) ↔
          (z.clock session (some p)).sessionDayIndex a
            ≠ (z.clock session (some p)).sessionDayIndex b
      rw [clockDay_intradayClockMs hhours.stamp_le ha, clockDay_intradayClockMs hhours.stamp_le hb,
        index_unheld (hnone hunheld.1), index_unheld (hnone hunheld.2)]

theorem key_week (hcut : z.Cut session p x) (hstamps : ∀ s ∈ p.stamps, thirdDay < s)
    (hweeks : ∀ i, HasInstants p i →
      z.firstDay session .week (start p i) = z.firstDay session .week (stop p i - 1)) :
    (z.clock session (some p)).sessionPeriodKey ms .week = z.firstDay session .week ms := by
  cases hheld : (z.clock session (some p)).partitionAt ms with
  | none => exact key_of_index (index_unheld hheld)
  | some held =>
    obtain ⟨q, i⟩ := held
    obtain ⟨-, hi, hle, hlt⟩ := (partitionAt_eq_some hcut).mp hheld
    rw [key_of_index (index_held hcut hi hle hlt)]
    have hthird := third_lt_start hstamps hi.1
    have hxi : start p i ≤ x i := (hcut.within i hi.1).1
    have hxs : x i < stop p i := (hcut.within i hi.1).2 hi.2
    have hlow := firstDay_mono z session .week hthird.le hxi
    have hhigh := firstDay_mono z session .week (show thirdDay ≤ x i by omega)
      (show x i ≤ stop p i - 1 by omega)
    have hlow' := firstDay_mono z session .week hthird.le hle
    have hhigh' := firstDay_mono z session .week (show thirdDay ≤ ms by omega)
      (show ms ≤ stop p i - 1 by omega)
    have hsame := hweeks i hi
    omega

/-! ## The law -/

variable (z session p) in
/-- The partition keys one calendar: a boundary is crossed exactly when the opens differ, and opens
are monotone and not after their instants. -/
def Keyed : Prop :=
  ∀ a b, thirdDay ≤ a → a ≤ b → ∀ period, period ≠ .none →
    ((z.clock session (some p)).crossesBoundary a b period = true ↔
      (z.clock session (some p)).sessionPeriodOpenMs a period
        ≠ (z.clock session (some p)).sessionPeriodOpenMs b period) ∧
    (z.clock session (some p)).sessionPeriodOpenMs a period
      ≤ (z.clock session (some p)).sessionPeriodOpenMs b period ∧
    (z.clock session (some p)).sessionPeriodOpenMs a period ≤ a

theorem Regular.keyed (hhours : DayHours session) (hcut : z.Cut session p x)
    (hstamps : ∀ s ∈ p.stamps, thirdDay < s) (hreg : z.Regular session p) : z.Keyed session p := by
  intro a b ha hab period hperiod
  have hb := ha.trans hab
  have hrises := (hreg.risen hhours hcut hstamps hperiod).everywhere hhours hcut hperiod ha hab
  refine ⟨?_, hrises.le, ?_⟩
  · rw [← hrises.ne_iff]
    by_cases hweek : period = .week
    · subst hweek
      cases htraded : hasTradingSession session with
      | true => exact crosses_iff_keys hhours ha hb hperiod fun _ => htraded
      | false =>
        rw [key_week hcut hstamps (hreg.weeks htraded), key_week hcut hstamps (hreg.weeks htraded)]
        exact crosses_untraded hhours htraded ha hb
    · exact crosses_iff_keys hhours ha hb hperiod fun h => absurd h hweek
  · cases hheld : (z.clock session (some p)).partitionAt a with
    | none =>
      rw [open_unheld hheld hperiod]
      exact open_le (fun _ => hhours) ha hperiod
    | some held =>
      obtain ⟨q, i⟩ := held
      obtain ⟨-, hi, hle, hlt⟩ := (partitionAt_eq_some hcut).mp hheld
      rw [open_held hcut hi hle hlt hperiod]
      exact (openOf_le_start hcut hperiod hi.1).trans hle

/-! ## The converse -/

theorem key_held (hcut : z.Cut session p x) {i : ℕ} (hi : HasInstants p i) (hle : start p i ≤ ms)
    (hlt : ms < stop p i) :
    (z.clock session (some p)).sessionPeriodKey ms period = z.firstDay session period (x i) :=
  key_of_index (index_held hcut hi hle hlt)

theorem firstDay_day (z : FixedZone) (session : Session) (ms : ℤ) :
    z.firstDay session .day ms = (z.clock session none).sessionDayIndex ms := rfl

theorem crosses_days (hhours : DayHours session) (ha : thirdDay ≤ a) (hb : thirdDay ≤ b) :
    (z.clock session (some p)).crossesBoundary a b .day = true ↔
      (z.clock session (some p)).sessionPeriodKey a .day
        ≠ (z.clock session (some p)).sessionPeriodKey b .day :=
  crosses_iff_keys hhours ha hb CalendarPeriod.noConfusion CalendarPeriod.noConfusion

theorem day_ne_none : CalendarPeriod.day ≠ .none := CalendarPeriod.noConfusion

theorem week_ne_none : CalendarPeriod.week ≠ .none := CalendarPeriod.noConfusion

theorem unheld_stop (hcut : z.Cut session p x) {i : ℕ} (hi : HasInstants p i)
    (hlast : ¬ HasInstants p (i + 1)) :
    (z.clock session (some p)).partitionAt (stop p i) = none := by
  cases hheld : (z.clock session (some p)).partitionAt (stop p i) with
  | none => rfl
  | some held =>
    exfalso
    obtain ⟨q, j⟩ := held
    obtain ⟨-, hj, hle, hlt⟩ := (partitionAt_eq_some hcut).mp hheld
    obtain hji | rfl | hij := lt_trichotomy j i
    · have hsep := stop_le_start hcut hji hi.1
      have := hi.2
      omega
    · omega
    · obtain rfl | hnext := (Nat.succ_le_of_lt hij).eq_or_lt
      · exact hlast hj
      · have := hj.1
        exact hlast (hasInstants_of_lt hcut (show i + 1 + 1 < p.stamps.length by omega)).1

section
variable (hhours : DayHours session) (hcut : z.Cut session p x)
    (hstamps : ∀ s ∈ p.stamps, thirdDay < s)
  (hkeyed : z.Keyed session p)
include hhours hcut hstamps hkeyed

/-- Days that open apart have different trade days, and trade days do not decrease. -/
theorem Keyed.days {i : ℕ} (hi : HasInstants p (i + 1)) :
    p.tradeDay.getD i 0 < p.tradeDay.getD (i + 1) 0 := by
  obtain ⟨hheld, hstop⟩ := hasInstants_of_lt hcut hi.1
  have hlt : start p i < start p (i + 1) := start_lt hcut (Nat.lt_succ_self i) hi.1
  have hthird := third_lt_start hstamps hheld.1
  have hcross := (hkeyed (start p i) (start p (i + 1)) hthird.le hlt.le .day day_ne_none).1
  rw [crosses_days hhours hthird.le (hthird.le.trans hlt.le),
    key_held hcut hheld le_rfl hheld.2, key_held hcut hi le_rfl hi.2,
    open_held hcut hheld le_rfl hheld.2 day_ne_none,
      open_held hcut hi le_rfl hi.2 day_ne_none] at hcross
  have hne := hcross.mpr (ne_of_lt hlt)
  have hx : x i < stop p i := (hcut.within i hheld.1).2 hheld.2
  have hx' : start p (i + 1) ≤ x (i + 1) := (hcut.within (i + 1) hi.1).1
  have hmono : (z.clock session none).sessionDayIndex (x i) ≤ (z.clock session none).sessionDayIndex
      (x (i + 1)) :=
    index_mono (hthird.le.trans (hcut.within i hheld.1).1) (by omega)
  rw [firstDay_day, firstDay_day] at hne
  rw [hcut.traded i hheld.1, hcut.traded (i + 1) hi.1]
  omega

theorem Keyed.before (hi : HasInstants p 0) :
    (z.clock session none).sessionDayIndex (start p 0 - 1) < p.tradeDay.getD 0 0 := by
  have hthird := third_lt_start hstamps hi.1
  have hbefore : thirdDay ≤ start p 0 - 1 := by omega
  have hunheld : (z.clock session (some p)).partitionAt (start p 0 - 1) = none := by
    cases hheld : (z.clock session (some p)).partitionAt (start p 0 - 1) with
    | none => rfl
    | some held =>
      exfalso
      obtain ⟨q, j⟩ := held
      obtain ⟨-, hj, hle, -⟩ := (partitionAt_eq_some hcut).mp hheld
      cases j with
      | zero => omega
      | succ j =>
        have hlt : start p 0 < start p (j + 1) := start_lt hcut (Nat.succ_pos j) hj.1
        omega
  have hcross := (hkeyed (start p 0 - 1) (start p 0) hbefore (by omega) .day day_ne_none).1
  rw [crosses_days hhours hbefore hthird.le, key_of_index (index_unheld hunheld),
    key_held hcut hi le_rfl hi.2, open_unheld hunheld day_ne_none,
      open_held hcut hi le_rfl hi.2 day_ne_none] at hcross
  have hopen : (z.clock session none).sessionPeriodOpenMs (start p 0 - 1) .day ≤ start p 0 - 1 :=
    open_le (fun _ => hhours) hbefore day_ne_none
  have hstart : openOf p .day 0 = start p 0 := rfl
  have hne := hcross.mpr (by omega)
  have hx : start p 0 ≤ x 0 := (hcut.within 0 hi.1).1
  have hmono : (z.clock session none).sessionDayIndex (start p 0 - 1)
      ≤ (z.clock session none).sessionDayIndex (x 0) := index_mono hbefore (by omega)
  rw [firstDay_day, firstDay_day] at hne
  rw [hcut.traded 0 hi.1]
  omega

theorem Keyed.weeks (huntraded : hasTradingSession session = false) {i : ℕ} (hi : HasInstants p i) :
    z.firstDay session .week (start p i) = z.firstDay session .week (stop p i - 1) := by
  have hthird := third_lt_start hstamps hi.1
  have hlt := hi.2
  have hcross := (hkeyed (start p i) (stop p i - 1) hthird.le (by omega) .week week_ne_none).1
  rw [crosses_untraded hhours huntraded hthird.le (by omega),
    open_held hcut hi le_rfl hi.2 week_ne_none,
    open_held hcut hi (by omega) (by omega) week_ne_none] at hcross
  by_contra hne
  exact hcross.mp hne rfl

/-- A period that goes on after the partition ends opens there as it does inside. -/
theorem Keyed.after {i : ℕ} (hi : HasInstants p i) (hlast : ¬ HasInstants p (i + 1))
    (hperiod : period ≠ .none) :
    z.firstDay session period (stop p i)
        ≠ (z.clock session none).sessionPeriodFirstDay (p.tradeDay.getD i 0) period ∨
      openOf p period i = (z.clock session none).sessionDayStampRealMs
        ((z.clock session none).sessionPeriodFirstDay (p.tradeDay.getD i 0) period) := by
  have hunheld := unheld_stop hcut hi hlast
  have hthird := third_lt_start hstamps hi.1
  have hlt := hi.2
  have hxi : start p i ≤ x i := (hcut.within i hi.1).1
  have hxs : x i < stop p i := (hcut.within i hi.1).2 hi.2
  rw [first_traded hcut hi.1, or_iff_not_imp_left, not_not]
  intro hsame
  have hcross := (hkeyed (start p i) (stop p i) hthird.le hlt.le period hperiod).1
  have hopens : (z.clock session (some p)).sessionPeriodOpenMs (start p i) period
      = (z.clock session (some p)).sessionPeriodOpenMs (stop p i) period := by
    by_contra hne
    have hcrossed := hcross.mpr hne
    by_cases hweek : period = .week ∧ hasTradingSession session = false
    · obtain ⟨rfl, huntraded⟩ := hweek
      rw [crosses_untraded hhours huntraded hthird.le (by omega)] at hcrossed
      have hone := Keyed.weeks hhours hcut hstamps hkeyed huntraded hi
      have hlow := firstDay_mono z session .week hthird.le hxi
      have hhigh := firstDay_mono z session .week (show thirdDay ≤ x i by omega)
        (show x i ≤ stop p i - 1 by omega)
      omega
    · have htraded : period = .week → hasTradingSession session = true := by
        intro hw
        exact (Bool.eq_false_or_eq_true _).resolve_right fun hfalse => hweek ⟨hw, hfalse⟩
      rw [crosses_iff_keys hhours hthird.le (by omega) hperiod htraded,
        key_held hcut hi le_rfl hi.2,
        key_of_index (index_unheld hunheld)] at hcrossed
      exact hcrossed hsame.symm
  rw [open_held hcut hi le_rfl hi.2 hperiod, open_unheld hunheld hperiod,
    sessionPeriodOpenMs_none z session _ hperiod] at hopens
  rw [hopens, ← hsame]
  rfl

theorem Keyed.regular : z.Regular session p :=
  ⟨fun _ hi => Keyed.days hhours hcut hstamps hkeyed hi,
    Keyed.before hhours hcut hstamps hkeyed,
    fun _ hi hlast _ hperiod => Keyed.after hhours hcut hstamps hkeyed hi hlast hperiod,
    fun huntraded _ hi => Keyed.weeks hhours hcut hstamps hkeyed huntraded hi⟩

end

/-- A partition of any stamps over any bars keys one calendar exactly when it is regular. -/
theorem keyed_iff (z : FixedZone) (session : Session) (stamps bars : List ℤ)
    (p : NativeDayPartition)
    (hdeclared : Declared session) (hstamps : ∀ s ∈ stamps, thirdDay < s)
    (hbuilt : (z.clock session none).buildNativeDayPartition stamps bars = some p) :
    z.Keyed session p ↔ z.Regular session p := by
  obtain ⟨hp, x, hcut⟩ := cut_of_built hbuilt
  rw [← hp] at hstamps
  exact ⟨Keyed.regular hdeclared.dayHours hcut hstamps,
    Regular.keyed hdeclared.dayHours hcut hstamps⟩

theorem nyse_declared : Declared nyse :=
  .inr (.inr ⟨_, windowsText_of_readWindows (show readWindows 2 nyse
    = some [(570, 960)] by decide +kernel)⟩)

/-- Monday and Tuesday, stamped where the session opens. -/
def twoDays : List ℤ := [1704101400000, 1704187800000]

theorem keyed_iff_nyse : ∃ p, (utc.clock nyse none).buildNativeDayPartition twoDays [] = some p ∧
    utc.Keyed nyse p := by
  refine ⟨_, rfl, (keyed_iff utc nyse twoDays [] _ nyse_declared (by decide) rfl).mpr
    ⟨?_, ?_, ?_, ?_⟩⟩
  · rintro i ⟨hi, -⟩
    obtain rfl : i = 0 := Nat.lt_one_iff.mp (Nat.lt_of_succ_lt_succ hi)
    decide +kernel
  · rintro -
    decide +kernel
  · rintro i ⟨hi, -⟩ hlast period hperiod
    obtain rfl | rfl : i = 0 ∨ i = 1 := by
      have hlt : i < 2 := hi
      omega
    · exact absurd ⟨by decide, by decide +kernel⟩ hlast
    cases period with
    | none => exact absurd rfl hperiod
    | day => decide +kernel
    | week => decide +kernel
    | month => decide +kernel
  · intro huntraded
    exact absurd huntraded (by decide +kernel)

/-- A day stamped a quarter of an hour late: 09:35 and 09:50 are of one session day and open
apart. -/
theorem keyed_late : ∃ p, (utc.clock nyse none).buildNativeDayPartition [1704102300000]
    [] = some p ∧
    ¬ utc.Keyed nyse p := by
  refine ⟨_, rfl, fun h => ?_⟩
  exact absurd (h 1704101700000 1704102600000 (by decide) (by decide) .day day_ne_none).1
    (by decide +kernel)

end PineForge.Timeframe.FixedZone
