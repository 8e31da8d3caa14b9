import Mathlib
import PineForge.Timeframe.Nominal

/-!
# Intraday buckets

The buckets of a session day in a zone of one offset. A day's grid starts at its stamp, or at the
late open declared for it; the bucket that starts there takes in what comes before. An interval
holds only instants of its own bucket (`key_of_mem`), and every instant before its session day's end
(`mem_interval`). After that end the keys go on, but no interval reaches past it.
-/

namespace PineForge.Timeframe.FixedZone

open Calendar

variable (z : FixedZone) (session : Session) (late : List ℤ) (width : ℤ)

/-- The session day of an instant. -/
def gridDay (ms : ℤ) : ℤ :=
  (ms - shiftMs z.eastMinutes - sessionDayStampOffsetMinutes session * 60000) / msPerDay

/-- Where a session day ends, at most a day after its stamp. -/
def gridEnd (d : ℤ) : ℤ :=
  z.readStamp session d + min msPerDay
    ((sessionOpenOffsetMinutes session - sessionDayStampOffsetMinutes session
      + sessionLengthMinutes session) * 60000)

/-- Where its buckets start. -/
def gridOrigin (d : ℤ) : ℤ :=
  ((late.find? (· ≥ z.readStamp session d)).filter (· < z.gridEnd session d)).getD
    (z.readStamp session d)

/-- The bucket of an instant on a day's grid. -/
def gridOrdinal (d ms : ℤ) : ℤ :=
  if ms < z.gridOrigin session late d then 0
  else (ms - z.gridOrigin session late d).tdiv (width * 1000)

/-- The bucket of an instant with the first input observed in it. -/
def bucket (ms first : ℤ) : SymbolClock.IntradayBucket :=
  (z.clock session none).intradayBucket ms width late first

/-- An instant lies in the interval of a bucket. -/
def InBucket (b : SymbolClock.IntradayBucket) (y : ℤ) : Prop := b.openMs ≤ y ∧ y < b.endMs

variable {z session late width}

theorem gridOrigin_ge (d : ℤ) : z.readStamp session d ≤ z.gridOrigin session late d := by
  unfold gridOrigin
  cases hfind : late.find? (· ≥ z.readStamp session d) with
  | none => exact le_rfl
  | some late =>
    have hge := List.find?_some hfind
    rw [Option.filter_some]
    split
    · exact of_decide_eq_true hge
    · exact le_rfl

theorem gridEnd_le (d : ℤ) : z.gridEnd session d ≤ z.readStamp session (d + 1) := by
  unfold gridEnd readStamp
  have hmin := min_le_left msPerDay ((sessionOpenOffsetMinutes session
    - sessionDayStampOffsetMinutes session + sessionLengthMinutes session) * 60000)
  linarith

theorem gridDay_eq_iff {d ms : ℤ} :
    z.gridDay session ms = d ↔ z.readStamp session d ≤ ms ∧ ms < z.readStamp session (d + 1) := by
  unfold gridDay readStamp msPerDay
  omega

/-! ## Ordinals -/

theorem gridOrdinal_before {d ms : ℤ} (h : ms < z.gridOrigin session late d) :
    z.gridOrdinal session late width d ms = 0 := if_pos h

theorem gridOrdinal_after (hwidth : 0 < width) {d ms o : ℤ} (h : z.gridOrigin session late d ≤ ms) :
    z.gridOrdinal session late width d ms = o ↔
      z.gridOrigin session late d + o * (width * 1000) ≤ ms ∧
        ms < z.gridOrigin session late d + o * (width * 1000) + width * 1000 := by
  have hpos : 0 < width * 1000 := by omega
  unfold gridOrdinal
  rw [if_neg (not_lt.mpr h), Int.tdiv_eq_ediv_of_nonneg (by omega), Int.ediv_eq_iff_of_pos hpos]
  rw [Int.mul_comm o]
  constructor
  · intro ⟨hlow, hhigh⟩
    exact ⟨by linarith, by linarith⟩
  · intro ⟨hlow, hhigh⟩
    exact ⟨by linarith, by linarith⟩

theorem gridOrdinal_nonneg (hwidth : 0 < width) (d ms : ℤ) :
    0 ≤ z.gridOrdinal session late width d ms := by
  unfold gridOrdinal
  split
  · exact le_rfl
  · rw [Int.tdiv_eq_ediv_of_nonneg (by omega)]
    exact Int.ediv_nonneg (by omega) (by omega)

theorem gridOrdinal_mono (hwidth : 0 < width) {d a b : ℤ} (hab : a ≤ b) :
    z.gridOrdinal session late width d a ≤ z.gridOrdinal session late width d b := by
  by_cases ha : a < z.gridOrigin session late d
  · rw [gridOrdinal_before ha]
    exact gridOrdinal_nonneg hwidth d b
  · have hb : ¬ b < z.gridOrigin session late d := by omega
    unfold gridOrdinal
    rw [if_neg ha, if_neg hb, Int.tdiv_eq_ediv_of_nonneg (by omega),
      Int.tdiv_eq_ediv_of_nonneg (by omega)]
    exact Int.ediv_le_ediv (by omega) (by omega)

/-! ## Buckets on the grid -/

variable (z session late width) in
/-- The first instant of the step of an instant. -/
def gridOpen (ms : ℤ) : ℤ :=
  z.gridOrigin session late (z.gridDay session ms)
    + z.gridOrdinal session late width (z.gridDay session ms) ms * (width * 1000)

variable (z session late width) in
/-- The first input that was observed in the prefix of a late day. -/
def Observed (ms first : ℤ) : Prop :=
  z.gridOrdinal session late width (z.gridDay session ms) ms = 0 ∧
    z.gridOrigin session late (z.gridDay session ms) > z.readStamp session (z.gridDay session ms) ∧
    first ≥ z.readStamp session (z.gridDay session ms) ∧
    first < z.gridOrigin session late (z.gridDay session ms) ∧ first ≤ ms

instance (ms first : ℤ) : Decidable (z.Observed session late width ms first) :=
  inferInstanceAs (Decidable (_ ∧ _))

theorem bucket_eq (hwidth : 0 < width) {ms : ℤ} (hms : z = utcAlias → -msPerDay < ms) (first : ℤ) :
    (z.bucket session late width ms first).sessionDay = z.gridDay session ms ∧
    (z.bucket session late width ms first).ordinal
      = z.gridOrdinal session late width (z.gridDay session ms) ms ∧
    (z.bucket session late width ms first).openMs
      = (if z.Observed session late width ms first then first
          else min ms (z.gridOpen session late width ms)) ∧
    (z.bucket session late width ms first).endMs
      = max (z.bucket session late width ms first).openMs
          (min (z.gridOpen session late width ms + width * 1000)
            (z.gridEnd session (z.gridDay session ms))) := by
  have hoffset : (z.clock session none).tzOffsetMs ms = shiftMs z.eastMinutes := by
    rw [tzOffsetMs_eq, readOffset_eq z hms]
  have hday : floorDivDay (ms - shiftMs z.eastMinutes - (z.clock session none).stampMs)
      = z.gridDay session ms := floorDivDay_eq _
  have hstart : z.gridDay session ms * msPerDay + shiftMs z.eastMinutes
    + (z.clock session none).stampMs
      = z.readStamp session (z.gridDay session ms) := by
    unfold readStamp
    change _ + _ + sessionDayStampOffsetMinutes session * 60000 = _
    ring
  unfold bucket SymbolClock.intradayBucket
  rw [if_neg (not_le.mpr hwidth)]
  dsimp only
  rw [hoffset, hday, hstart]
  exact ⟨rfl, rfl, rfl, rfl⟩

/-! ## The laws of the intervals -/

variable {a b ms first : ℤ}

theorem gridDay_mem (z : FixedZone) (session : Session) (ms : ℤ) :
    z.readStamp session (z.gridDay session ms) ≤ ms ∧
      ms < z.readStamp session (z.gridDay session ms + 1) := gridDay_eq_iff.mp rfl

theorem gridOpen_mem (hwidth : 0 < width)
    (h : z.gridOrigin session late (z.gridDay session ms) ≤ ms) :
    z.gridOpen session late width ms ≤ ms ∧ ms < z.gridOpen session late width ms + width * 1000 :=
  (gridOrdinal_after hwidth h).mp rfl

theorem gridOpen_before (h : ms < z.gridOrigin session late (z.gridDay session ms)) :
    z.gridOpen session late width ms = z.gridOrigin session late (z.gridDay session ms) := by
  unfold gridOpen
  rw [gridOrdinal_before h]
  ring

theorem gridOrigin_le_gridOpen (hwidth : 0 < width) :
    z.gridOrigin session late (z.gridDay session ms) ≤ z.gridOpen session late width ms := by
  have hordinal : 0 ≤ z.gridOrdinal session late width (z.gridDay session ms) ms :=
    gridOrdinal_nonneg hwidth _ _
  have hnonneg := Int.mul_nonneg hordinal (show 0 ≤ width * 1000 by omega)
  unfold gridOpen
  linarith

theorem lt_gridOpen_add (hwidth : 0 < width) (ms : ℤ) :
    ms < z.gridOpen session late width ms + width * 1000 := by
  by_cases h : z.gridOrigin session late (z.gridDay session ms) ≤ ms
  · exact (gridOpen_mem hwidth h).2
  · rw [gridOpen_before (not_le.mp h)]
    omega

theorem openMs_bounds (hwidth : 0 < width) (hms : z = utcAlias → -msPerDay < ms) (first : ℤ) :
    z.readStamp session (z.gridDay session ms) ≤ (z.bucket session late width ms first).openMs ∧
      (z.bucket session late width ms first).openMs ≤ ms := by
  rw [(bucket_eq hwidth hms first).2.2.1]
  have hday := (gridDay_mem z session ms).1
  have horigin : _ ≤ z.gridOrigin session late (z.gridDay session ms) := gridOrigin_ge _
  have hopen : z.gridOrigin session late (z.gridDay session ms) ≤ _ := gridOrigin_le_gridOpen hwidth
  split
  · rename_i hobserved
    exact ⟨hobserved.2.2.1, hobserved.2.2.2.2⟩
  · exact ⟨le_min hday (horigin.trans hopen), min_le_left _ _⟩

theorem InBucket.lt (hwidth : 0 < width) (hms : z = utcAlias → -msPerDay < ms) {y : ℤ}
    (h : InBucket (z.bucket session late width ms first) y) :
    y < z.gridOpen session late width ms + width * 1000 ∧
      y < z.gridEnd session (z.gridDay session ms) := by
  obtain ⟨hlow, hhigh⟩ := h
  rw [(bucket_eq hwidth hms first).2.2.2] at hhigh
  obtain hlt | hlt := lt_max_iff.mp hhigh
  · exact absurd hlt (not_lt.mpr hlow)
  · exact lt_min_iff.mp hlt

/-- A bucket's instants have one key. -/
theorem key_of_mem (hwidth : 0 < width) (hms : z = utcAlias → -msPerDay < ms) {y : ℤ}
    (h : InBucket (z.bucket session late width ms first) y) :
    z.gridDay session y = z.gridDay session ms ∧
      z.gridOrdinal session late width (z.gridDay session y) y
        = z.gridOrdinal session late width (z.gridDay session ms) ms := by
  obtain ⟨hstep, hend⟩ := h.lt hwidth hms
  have hopen : _ ≤ (z.bucket session late width ms first).openMs ∧ _ :=
    openMs_bounds hwidth hms first
  have hnext : z.gridEnd session (z.gridDay session ms) ≤ _ := gridEnd_le _
  have hday : z.gridDay session y = z.gridDay session ms :=
    gridDay_eq_iff.mpr ⟨hopen.1.trans h.1, hend.trans_le hnext⟩
  refine ⟨hday, ?_⟩
  rw [hday]
  by_cases hy : z.gridOrigin session late (z.gridDay session ms) ≤ y
  · refine (gridOrdinal_after hwidth hy).mpr ⟨?_, hstep⟩
    change z.gridOpen session late width ms ≤ y
    -- the step does not open after the interval, unless it is the first
    by_cases hzero : z.gridOrdinal session late width (z.gridDay session ms) ms = 0
    · unfold gridOpen
      rw [hzero]
      linarith
    · have hafter : z.gridOrigin session late (z.gridDay session ms) ≤ ms := by
        by_contra hbefore
        exact hzero (gridOrdinal_before (not_le.mp hbefore))
      have hlow := h.1
      rw [(bucket_eq hwidth hms first).2.2.1, if_neg (fun hobserved => hzero hobserved.1),
        min_eq_right (gridOpen_mem hwidth hafter).1] at hlow
      exact hlow
  · -- before a late origin only the first step has instants
    rw [gridOrdinal_before (not_le.mp hy)]
    by_contra hne
    have hafter : z.gridOrigin session late (z.gridDay session ms) ≤ ms := by
      by_contra hbefore
      exact hne (gridOrdinal_before (not_le.mp hbefore)).symm
    have hlow := h.1
    rw [(bucket_eq hwidth hms first).2.2.1, if_neg (fun hobserved => hne hobserved.1.symm),
      min_eq_right (gridOpen_mem hwidth hafter).1] at hlow
    exact hy ((gridOrigin_le_gridOpen hwidth).trans hlow)

theorem mem_interval (hwidth : 0 < width) (hms : z = utcAlias → -msPerDay < ms) (first : ℤ)
    (hend : ms < z.gridEnd session (z.gridDay session ms)) :
    InBucket (z.bucket session late width ms first) ms := by
  refine ⟨(openMs_bounds hwidth hms first).2, ?_⟩
  rw [(bucket_eq hwidth hms first).2.2.2]
  exact lt_max_of_lt_right (lt_min (lt_gridOpen_add hwidth ms) hend)

/-- One key gives one bucket. -/
theorem bounds_eq (hwidth : 0 < width) (ha : z = utcAlias → -msPerDay < a)
    (hb : z = utcAlias → -msPerDay < b)
    (hday : z.gridDay session a = z.gridDay session b)
    (hordinal : z.gridOrdinal session late width (z.gridDay session a) a
      = z.gridOrdinal session late width (z.gridDay session b) b)
    (hfirst : z.gridDay session first = z.gridDay session a)
    (hpa : first ≤ a) (hpb : first ≤ b) :
    (z.bucket session late width a first).openMs = (z.bucket session late width b first).openMs ∧
      (z.bucket session late width a first).endMs
        = (z.bucket session late width b first).endMs := by
  have hopen : z.gridOpen session late width a = z.gridOpen session late width b := by
    unfold gridOpen
    rw [hordinal, hday]
  have hobserved : z.Observed session late width a first ↔
      z.Observed session late width b first := by
    unfold Observed
    rw [hordinal, hday]
    exact and_congr_right fun _ => and_congr_right fun _ => and_congr_right fun _ =>
      and_congr_right fun _ => ⟨fun _ => hpb, fun _ => hpa⟩
  have hstart := (gridDay_mem z session first).1
  rw [hfirst] at hstart
  have hgrid : ∀ {x}, z.gridDay session x = z.gridDay session a → first ≤ x →
      ¬ z.Observed session late width x first → min x (z.gridOpen session late width x)
        = z.gridOpen session late width x := by
    intro x hx hle hnot
    refine min_eq_right ?_
    by_cases hafter : z.gridOrigin session late (z.gridDay session x) ≤ x
    · exact (gridOpen_mem hwidth hafter).1
    · exfalso
      have hbefore := not_le.mp hafter
      refine hnot ⟨gridOrdinal_before hbefore, ?_, ?_, by omega, hle⟩
      · rw [hx] at hbefore ⊢
        omega
      · rw [hx]
        exact hstart
  have hopens : (z.bucket session late width a first).openMs
      = (z.bucket session late width b first).openMs := by
    rw [(bucket_eq hwidth ha first).2.2.1, (bucket_eq hwidth hb first).2.2.1]
    by_cases hcase : z.Observed session late width a first
    · rw [if_pos hcase, if_pos (hobserved.mp hcase)]
    · rw [if_neg hcase, if_neg (fun h => hcase (hobserved.mpr h)), hgrid rfl hpa hcase,
        hgrid hday.symm hpb (fun h => hcase (hobserved.mpr h)), hopen]
  refine ⟨hopens, ?_⟩
  rw [(bucket_eq hwidth ha first).2.2.2, (bucket_eq hwidth hb first).2.2.2, hopens, hopen, hday]

/-! ## The partition -/

/-- The bucket key of an instant. -/
def bucketKey (z : FixedZone) (session : Session) (late : List ℤ) (width ms : ℤ) : ℤ × ℤ :=
  (z.bucket session late width ms ms).key

theorem bucketKey_eq (hwidth : 0 < width) (hms : z = utcAlias → -msPerDay < ms) :
    z.bucketKey session late width ms
      = (z.gridDay session ms, z.gridOrdinal session late width (z.gridDay session ms) ms) := by
  exact Prod.ext (bucket_eq hwidth hms ms).1 (bucket_eq hwidth hms ms).2.1

/-- Two instants lie in the interval of one bucket. -/
def Together (z : FixedZone) (session : Session) (late : List ℤ) (width a b : ℤ) : Prop :=
  ∃ x first, (z = utcAlias → -msPerDay < x) ∧ InBucket (z.bucket session late width x first) a ∧
    InBucket (z.bucket session late width x first) b

theorem key_of_together (hwidth : 0 < width) (ha : z = utcAlias → -msPerDay < a)
    (hb : z = utcAlias → -msPerDay < b) (h : z.Together session late width a b) :
    z.bucketKey session late width a = z.bucketKey session late width b := by
  obtain ⟨x, first, hx, hina, hinb⟩ := h
  obtain ⟨hdaya, horda⟩ := key_of_mem hwidth hx hina
  obtain ⟨hdayb, hordb⟩ := key_of_mem hwidth hx hinb
  rw [bucketKey_eq hwidth ha, bucketKey_eq hwidth hb, horda, hordb, hdaya, hdayb]

/-- The buckets of the session days cut the instants before each day's end into intervals. -/
theorem buckets_partition (z : FixedZone) (session : Session) (late : List ℤ) (width : ℤ)
    (hwidth : 0 < width) (a b : ℤ) (ha : z = utcAlias → -msPerDay < a)
    (hb : z = utcAlias → -msPerDay < b) :
    (a < z.gridEnd session (z.gridDay session a) → b < z.gridEnd session (z.gridDay session b) →
      (z.bucketKey session late width a = z.bucketKey session late width b ↔
        z.Together session late width a b)) ∧
    (a ≤ b → toLex (z.bucketKey session late width a) ≤ toLex (z.bucketKey session late width b)) ∧
    (∀ first, (z = utcAlias → -msPerDay < first) → first ≤ a → first ≤ b →
      z.bucketKey session late width first = z.bucketKey session late width a →
      z.bucketKey session late width a = z.bucketKey session late width b →
      (z.bucket session late width a first).openMs = (z.bucket session late width b first).openMs ∧
        (z.bucket session late width a first).endMs = (z.bucket session late width b first).endMs) ∧
    (z.bucketKey session late width a ≠ z.bucketKey session late width b → ∀ first other y,
      InBucket (z.bucket session late width a first) y →
        ¬ InBucket (z.bucket session late width b other) y) ∧
    (a < z.gridEnd session (z.gridDay session a) → ∀ first,
      InBucket (z.bucket session late width a first) a ∧
        (z.bucket session late width a first).endMs ≤ z.gridEnd session (z.gridDay session a)) ∧
    ∀ first y, InBucket (z.bucket session late width a first) y →
      z.gridDay session y = z.gridDay session a ∧ y < z.gridEnd session (z.gridDay session a) := by
  refine ⟨?_, ?_, ?_, ?_, ?_, ?_⟩
  · intro hbefore hbefore'
    refine ⟨fun hkey => ?_, key_of_together hwidth ha hb⟩
    rw [bucketKey_eq hwidth ha, bucketKey_eq hwidth hb, Prod.mk.injEq] at hkey
    obtain ⟨hday, hordinal⟩ := hkey
    -- the earlier of the two, as the first input of its bucket, opens the interval of both
    obtain ⟨x, hx, hxa, hxb, hdx, hox⟩ : ∃ x, (z = utcAlias → -msPerDay < x) ∧ x ≤ a ∧ x ≤ b ∧
        z.gridDay session x = z.gridDay session a ∧
        z.gridOrdinal session late width (z.gridDay session x) x
          = z.gridOrdinal session late width (z.gridDay session a) a := by
      obtain hle | hle := le_total a b
      · exact ⟨a, ha, le_rfl, hle, rfl, rfl⟩
      · exact ⟨b, hb, hle, le_rfl, hday.symm, hordinal.symm⟩
    have hsame := bounds_eq hwidth hx ha hdx hox rfl le_rfl hxa
    have hsame' := bounds_eq hwidth hx hb (hdx.trans hday) (hox.trans hordinal) rfl le_rfl hxb
    refine ⟨x, x, hx, ?_, ?_⟩
    · rw [InBucket, hsame.1, hsame.2]
      exact mem_interval hwidth ha x hbefore
    · rw [InBucket, hsame'.1, hsame'.2]
      exact mem_interval hwidth hb x hbefore'
  · intro hab
    rw [bucketKey_eq hwidth ha, bucketKey_eq hwidth hb, Prod.Lex.toLex_le_toLex]
    have hlow := (gridDay_mem z session a).1
    have hhigh := (gridDay_mem z session b).2
    have hdays : z.gridDay session a ≤ z.gridDay session b := by
      unfold readStamp msPerDay at hlow hhigh
      omega
    obtain heq | hlt := hdays.eq_or_lt
    · right
      dsimp only
      rw [heq]
      exact ⟨rfl, gridOrdinal_mono hwidth hab⟩
    · exact .inl hlt
  · intro first hfirst hfa hfb hkey hkeys
    rw [bucketKey_eq hwidth hfirst, bucketKey_eq hwidth ha, Prod.mk.injEq] at hkey
    rw [bucketKey_eq hwidth ha, bucketKey_eq hwidth hb, Prod.mk.injEq] at hkeys
    exact bounds_eq hwidth ha hb hkeys.1 hkeys.2 hkey.1 hfa hfb
  · intro hne first other y hin hin'
    obtain ⟨hdaya, horda⟩ := key_of_mem hwidth ha hin
    obtain ⟨hdayb, hordb⟩ := key_of_mem hwidth hb hin'
    refine hne ?_
    rw [bucketKey_eq hwidth ha, bucketKey_eq hwidth hb, ← horda, ← hordb, ← hdaya, ← hdayb]
  · intro hbefore first
    refine ⟨mem_interval hwidth ha first hbefore, ?_⟩
    rw [(bucket_eq hwidth ha first).2.2.2]
    exact max_le ((openMs_bounds hwidth ha first).2.trans hbefore.le) (min_le_right _ _)
  · intro first y hin
    exact ⟨(key_of_mem hwidth ha hin).1, (hin.lt hwidth ha).2⟩

/-- The hours of the NYSE. -/
def nyse : Session := "0930-1600".toList

/-- At 14:00 and 15:59 of a day that opened late, at 09:45, in buckets of four hours. -/
theorem buckets_partition_nyse :
    utc.Together nyse [1704102300000] 14400 1704117600000 1704124740000 :=
  ((buckets_partition utc nyse [1704102300000] 14400 (by decide) 1704117600000
    1704124740000 nofun nofun).1
    (by decide +kernel) (by decide +kernel)).mp (by decide +kernel)

/-- After the close the keys go on: 16:30 has the key of 14:00, and no interval holds it. -/
theorem after_close :
    utc.bucketKey nyse [] 14400 1704117600000 = utc.bucketKey nyse [] 14400 1704126600000 ∧
      ¬ utc.Together nyse [] 14400 1704117600000 1704126600000 := by
  refine ⟨by decide +kernel, ?_⟩
  rintro ⟨x, first, hx, -, hin⟩
  have hday := (key_of_mem (by decide) hx hin).1
  have hlt := (hin.lt (by decide) hx).2
  rw [← hday] at hlt
  exact absurd hlt (by decide +kernel)

end PineForge.Timeframe.FixedZone
