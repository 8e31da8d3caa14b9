import Mathlib
import PineForge.Calendar.Civil
import PineForge.MultiDay.Merge

/-!
# The opens of the N-day periods

The days of a year are scanned in order, its trading dates counted from its first, and one in N
opens a period. Whether a feed holds a day is asked of a lookup as the scan comes to it. A lookup
that answers with the stamps of the dates (`Reads`) makes the scan give the opens of the table
(`opens`), of every year from the first held day's through the one after the last's.
-/

namespace PineForge.MultiDay

open Calendar

/-- What planning learned of the run. -/
structure Params where
  days : ℤ
  exchangeCalendar : Bool
  everyDay : Bool
  first : ℤ
  last : ℤ
  firstYear : ℤ
  lastYear : ℤ

/-- The first of January. -/
def yearFirst (year : ℤ) : ℤ := nativeCivilDays ⟨year, 1, 1⟩

theorem yearFirst_eq (year : ℤ) : yearFirst year = nativeCivilDays (monthFirst (year * 12)) := by
  unfold yearFirst monthFirst
  rw [floorDiv_eq _ (by decide), Int.mul_ediv_cancel _ (by decide), sub_self]
  rfl

theorem yearFirst_succ (year : ℤ) :
    yearFirst year + 365 ≤ yearFirst (year + 1) ∧ yearFirst (year + 1) ≤ yearFirst year + 366 := by
  rw [yearFirst_eq, yearFirst_eq, nativeCivilDays_monthFirst, nativeCivilDays_monthFirst]
  have hyear : (year * 12 - 2) / 12 = year - 1 := by omega
  have hyear' : ((year + 1) * 12 - 2) / 12 = year := by omega
  have hmonth : (year * 12 - 2) % 12 = 10 := by omega
  have hmonth' : ((year + 1) * 12 - 2) % 12 = 10 := by omega
  rw [hyear, hyear', hmonth, hmonth', yearBase, yearBase, yearStart, yearStart]
  omega

/-- A trading date that opens a period, with the stamp of its bar where a feed holds it. -/
structure Open where
  date : ℤ
  held : Option ℤ
deriving DecidableEq, Repr

/-- Whether a date trades. -/
def trading (p : Params) (held : Option ℤ) (d : ℤ) : Bool :=
  if p.exchangeCalendar ∧ p.first ≤ d ∧ d ≤ p.last then held.isSome
  else
    let weekday := (d.tmod 7 + 7 + 4).tmod 7
    p.everyDay ∨ (1 ≤ weekday ∧ weekday ≤ 5)

/-! ## The scan -/

/-- The scan of a year's dates. -/
structure Scan (H : Type) where
  held : H
  year : ℤ
  day : ℤ
  yearEnd : ℤ
  count : ℤ
  failed : Bool

section

variable {H : Type} (p : Params)

/-- The scan of the year after. -/
def Scan.nextYear (st : Scan H) : Scan H :=
  { st with
    year := st.year + 1
    day := yearFirst (st.year + 1)
    yearEnd := yearFirst (st.year + 1 + 1)
    count := 0 }

/-- More than the days that are left. -/
def scanSize (st : Scan H) : ℕ := (p.lastYear - st.year).toNat * 367 + (st.yearEnd - st.day).toNat

theorem scanSize_nextYear {st : Scan H} (h : st.year < p.lastYear) :
    scanSize p st.nextYear < scanSize p st := by
  have hlength := (yearFirst_succ (st.year + 1)).2
  unfold scanSize Scan.nextYear
  dsimp only
  have hyears : (p.lastYear - st.year).toNat = (p.lastYear - (st.year + 1)).toNat + 1 := by omega
  rw [hyears]
  omega

variable (find : ℤ → H → Option (Option ℤ) × H)

/-- The next trading date that opens a period. -/
def nextOpen (st : Scan H) : Option Open × Scan H :=
  if st.yearEnd ≤ st.day then
    if p.lastYear ≤ st.year then (none, st) else nextOpen st.nextYear
  else
    match find st.day st.held with
    | (none, held) => (none, { st with day := st.day + 1, held := held, failed := true })
    | (some value, held) =>
      if trading p value st.day then
        if st.count.tmod p.days = 0 then
          (some ⟨st.day, value⟩, { st with day := st.day + 1, held := held, count := st.count + 1 })
        else nextOpen { st with day := st.day + 1, held := held, count := st.count + 1 }
      else nextOpen { st with day := st.day + 1, held := held }
termination_by scanSize p st
decreasing_by
  · exact scanSize_nextYear p (by omega)
  · simp only [scanSize]
    omega
  · simp only [scanSize]
    omega

theorem nextOpen_size (st : Scan H) :
    scanSize p (nextOpen p find st).2 + (nextOpen p find st).1.toList.length ≤ scanSize p st := by
  fun_induction nextOpen p find st with
  | case1 st hend hlast => simp
  | case2 st hend hlast ih => exact ih.trans (scanSize_nextYear p (by omega)).le
  | case3 st hend held hfind =>
    simp only [scanSize, Option.toList_none, List.length_nil]
    omega
  | case4 st hend value held hfind htrading hcount =>
    simp only [scanSize, Option.toList_some, List.length_singleton]
    omega
  | case5 st hend value held hfind htrading hcount ih =>
    refine ih.trans ?_
    simp only [scanSize]
    omega
  | case6 st hend value held hfind htrading ih =>
    refine ih.trans ?_
    simp only [scanSize]
    omega

/-- The dates that open a period. -/
def openDates : Generator (Scan H) Open where
  next := nextOpen p find
  size := scanSize p
  shrinks st o h := by
    have := nextOpen_size p find st
    rw [h, Option.toList_some, List.length_singleton] at this
    omega
  ends st h := by
    have := nextOpen_size p find st
    rw [h, Option.toList_none, List.length_nil] at this
    omega

end

/-! ## The table's dates -/

theorem range_cons {a b : ℤ} (h : a < b) : Int.range a b = a :: Int.range (a + 1) b := by
  unfold Int.range
  have hsize : (b - a).toNat = (b - (a + 1)).toNat + 1 := by omega
  rw [hsize, List.range_succ_eq_map, List.map_cons, List.map_map]
  congr 1
  · simp
  · apply List.map_congr_left
    intro n _
    simp only [Function.comp_apply, Nat.succ_eq_add_one, Nat.cast_add, Nat.cast_one]
    omega

theorem range_nil {a b : ℤ} (h : b ≤ a) : Int.range a b = [] := by
  unfold Int.range
  have hsize : (b - a).toNat = 0 := by omega
  rw [hsize]
  rfl

section

variable (p : Params) (stamp : ℤ → Option ℤ)

/-- Of the dates of a year, one in N of those that trade, from a count on. -/
def yearOpens : ℤ → List ℤ → List Open
  | _, [] => []
  | count, d :: dates =>
    if trading p (stamp d) d then
      if count.tmod p.days = 0 then ⟨d, stamp d⟩ :: yearOpens (count + 1) dates
      else yearOpens (count + 1) dates
    else yearOpens count dates

/-- The dates that open a period in a run of years. -/
def opensOf (years : List ℤ) : List Open :=
  years.flatMap fun year => yearOpens p stamp 0 (Int.range (yearFirst year) (yearFirst (year + 1)))

/-- The dates that open a period, of every year from the first held day's through the one after the
last's. -/
def opens : List Open := opensOf p stamp (Int.range p.firstYear (p.lastYear + 1))

variable {H : Type}

/-- What a scan is still to give. -/
def remaining (st : Scan H) : List Open :=
  yearOpens p stamp st.count (Int.range st.day st.yearEnd) ++
    opensOf p stamp (Int.range (st.year + 1) (p.lastYear + 1))

/-- A lookup answers with the stamps of the dates it is asked for one after another. -/
structure Reads (find : ℤ → H → Option (Option ℤ) × H) (Knows : H → ℤ → Prop) : Prop where
  answers : ∀ h d, Knows h d → (find d h).1 = some (stamp d)
  keeps : ∀ h d, Knows h d → Knows (find d h).2 (d + 1)

/-- A scan inside its year whose lookup knows the days to come. -/
structure Scanning (Knows : H → ℤ → Prop) (st : Scan H) : Prop where
  day : st.day ≤ st.yearEnd
  yearEnd : st.yearEnd = yearFirst (st.year + 1)
  knows : Knows st.held st.day
  sound : st.failed = false

variable {p stamp} {find : ℤ → H → Option (Option ℤ) × H} {Knows : H → ℤ → Prop} {st : Scan H}

theorem Reads.found (hreads : Reads stamp find Knows) (h : Scanning Knows st)
    {value : Option ℤ} {held : H}
    (hfind : find st.day st.held = (some value, held)) :
    stamp st.day = value ∧ (find st.day st.held).2 = held := by
  have hanswer := hreads.answers _ _ h.knows
  rw [hfind] at hanswer ⊢
  exact ⟨(Option.some.inj hanswer).symm, rfl⟩

theorem Scanning.nextYear (h : Scanning Knows st) (hend : st.yearEnd ≤ st.day) :
    Scanning Knows st.nextYear := by
  have hday : yearFirst (st.year + 1) = st.day := by
    rw [← h.yearEnd]
    exact le_antisymm hend h.day
  refine ⟨?_, rfl, ?_, h.sound⟩
  · have := (yearFirst_succ (st.year + 1)).1
    change yearFirst (st.year + 1) ≤ yearFirst (st.year + 1 + 1)
    omega
  · change Knows st.held (yearFirst (st.year + 1))
    rw [hday]
    exact h.knows

theorem remaining_nextYear (hend : st.yearEnd ≤ st.day) (hlast : st.year < p.lastYear) :
    remaining p stamp st = remaining p stamp st.nextYear := by
  rw [remaining, range_nil hend, range_cons (show st.year + 1 < p.lastYear + 1 by omega)]
  rfl

theorem remaining_nextDay (hend : st.day < st.yearEnd) (held : H) :
    remaining p stamp st =
      if trading p (stamp st.day) st.day then
        if st.count.tmod p.days = 0 then
          ⟨st.day, stamp st.day⟩
            :: remaining p stamp { st with day := st.day + 1, held := held, count := st.count + 1 }
        else remaining p stamp { st with day := st.day + 1, held := held, count := st.count + 1 }
      else remaining p stamp { st with day := st.day + 1, held := held } := by
  rw [remaining, range_cons hend, yearOpens]
  split
  · split
    · rfl
    · rfl
  · rfl

theorem Scanning.nextDay (hreads : Reads stamp find Knows) (h : Scanning Knows st)
    (hend : st.day < st.yearEnd)
    (count : ℤ) :
    Scanning Knows { st with day := st.day + 1, held := (find st.day st.held).2, count := count } :=
  ⟨hend, h.yearEnd, hreads.keeps _ _ h.knows, h.sound⟩

theorem nextOpen_spec (hreads : Reads stamp find Knows) (h : Scanning Knows st) :
    (nextOpen p find st).1 = (remaining p stamp st).head? ∧ Scanning Knows (nextOpen p find st).2 ∧
      remaining p stamp (nextOpen p find st).2 = (remaining p stamp st).tail := by
  fun_induction nextOpen p find st with
  | case1 st hend hlast =>
    have hnil : remaining p stamp st = [] := by
      rw [remaining, range_nil hend, range_nil (show p.lastYear + 1 ≤ st.year + 1 by omega)]
      rfl
    rw [hnil]
    exact ⟨rfl, h, rfl⟩
  | case2 st hend hlast ih =>
    rw [remaining_nextYear hend (by omega)]
    exact ih (h.nextYear hend)
  | case3 st hend held hfind =>
    have hanswer := hreads.answers _ _ h.knows
    rw [hfind] at hanswer
    cases hanswer
  | case4 st hend value held hfind htrading hcount =>
    obtain ⟨rfl, rfl⟩ := hreads.found h hfind
    rw [remaining_nextDay (not_le.mp hend) (find st.day st.held).2, if_pos htrading, if_pos hcount]
    exact ⟨rfl, h.nextDay hreads (not_le.mp hend) _, rfl⟩
  | case5 st hend value held hfind htrading hcount ih =>
    obtain ⟨rfl, rfl⟩ := hreads.found h hfind
    rw [remaining_nextDay (not_le.mp hend) (find st.day st.held).2, if_pos htrading, if_neg hcount]
    exact ih (h.nextDay hreads (not_le.mp hend) _)
  | case6 st hend value held hfind htrading ih =>
    obtain ⟨rfl, rfl⟩ := hreads.found h hfind
    rw [remaining_nextDay (not_le.mp hend) (find st.day st.held).2, if_neg htrading]
    exact ih (h.nextDay hreads (not_le.mp hend) _)

theorem list_openDates (hreads : Reads stamp find Knows) (h : Scanning Knows st) :
    (openDates p find).list st = remaining p stamp st := by
  induction st using Generator.ind (g := openDates p find) with
  | stop st hnone =>
    have hnext := (nextOpen_spec (p := p) hreads h).1
    have hhead : (remaining p stamp st).head? = none := hnext.symm.trans hnone
    rw [Generator.list_of_none hnone, List.head?_eq_none_iff.mp hhead]
  | step st o hsome ih =>
    obtain ⟨hnext, hscanning, htail⟩ := nextOpen_spec (p := p) hreads h
    have hhead : (remaining p stamp st).head? = some o := hnext.symm.trans hsome
    rw [Generator.list_of_some hsome, ih hscanning]
    change o :: remaining p stamp (nextOpen p find st).2 = _
    rw [htail, List.cons_head?_tail hhead]

/-! ## The dates ascend -/

theorem yearFirst_strictMono : StrictMono yearFirst := strictMono_int_of_lt_succ fun year => by
  have := (yearFirst_succ year).1
  omega

end

end PineForge.MultiDay
