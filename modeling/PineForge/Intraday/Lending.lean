import PineForge.Intraday.Bound

/-!
# Lent slots and the latch

A slot that an attempt inherits was lent by one counted close, whose designated order the attempt
is. The close is found in the calls before: nothing inherited since then, and no fill was committed.
Once the cap is latched, the calls of the day admit nobody but the inheritor of the slot that was
lent by then.
-/

namespace PineForge.Intraday

/-! ## The designated order -/

namespace IntradayCap

variable {c : Calculation} {before : Side}

/-- A candidate that continues, and was not created after another one of the list. -/
structure First (c : Calculation) (before : Side) (candidates : List ContinuationCandidate)
    (candidate : ContinuationCandidate) : Prop where
  mem : candidate ∈ candidates
  continues : continues c before candidate
  first : ∀ other ∈ candidates, IntradayCap.continues c before other →
    candidate.createdSeq ≤ other.createdSeq

/-- The first continuation is selected. -/
theorem selectContinuation_first (seen candidates : List ContinuationCandidate)
    {selected : Option ContinuationCandidate}
    (hsome : ∀ s, selected = some s → First c before seen s)
    (hnone : selected = none → ∀ other ∈ seen, ¬IntradayCap.continues c before other)
    {candidate : ContinuationCandidate}
    (h : selectContinuation c before candidates selected = some candidate) :
    First c before (seen ++ candidates) candidate := by
  induction candidates generalizing seen selected with
  | nil =>
    rw [List.append_nil]
    exact hsome candidate h
  | cons next candidates ih =>
    rw [List.append_cons]
    unfold selectContinuation at h
    by_cases hnext : IntradayCap.continues c before next
    · rw [if_neg (not_not_intro hnext)] at h
      have hfirst : ∀ chosen, chosen ∈ seen ++ [next] → IntradayCap.continues c before chosen →
          (∀ other ∈ seen, IntradayCap.continues c before other →
            chosen.createdSeq ≤ other.createdSeq) → chosen.createdSeq ≤ next.createdSeq →
          First c before (seen ++ [next]) chosen := by
        intro chosen hmem hcontinues hseen hle
        refine ⟨hmem, hcontinues, fun other hother hc => ?_⟩
        obtain hold | hnew := List.mem_append.mp hother
        · exact hseen other hold hc
        · rw [List.mem_singleton.mp hnew]
          exact hle
      cases hselected : selected with
      | none =>
        rw [hselected] at h
        refine ih (seen ++ [next]) (fun s hs => ?_) (fun hs => by cases hs) h
        cases hs
        exact hfirst next (List.mem_append_right seen (List.mem_singleton_self next)) hnext
          (fun other hother hc => absurd hc (hnone hselected other hother)) (Int.le_refl _)
      | some s =>
        have hs := hsome s hselected
        rw [hselected] at h
        dsimp only at h
        by_cases hlt : next.createdSeq < s.createdSeq
        · rw [if_pos hlt] at h
          refine ih (seen ++ [next]) (fun x hx => ?_) (fun hx => by cases hx) h
          cases hx
          exact hfirst next (List.mem_append_right seen (List.mem_singleton_self next)) hnext
            (fun other hother hc => hlt.le.trans (hs.first other hother hc)) (Int.le_refl _)
        · rw [if_neg hlt] at h
          refine ih (seen ++ [next]) (fun x hx => ?_) (fun hx => by cases hx) h
          cases hx
          exact hfirst s (List.mem_append_left [next] hs.mem) hs.continues hs.first
            (Int.not_lt.mp hlt)
    · rw [if_pos hnext] at h
      refine ih (seen ++ [next]) (fun s hs => ?_) (fun hs other hother => ?_) h
      · have hfirst := hsome s hs
        refine ⟨List.mem_append_left [next] hfirst.mem, hfirst.continues, fun other hother hc => ?_⟩
        obtain hold | hnew := List.mem_append.mp hother
        · exact hfirst.first other hold hc
        · rw [List.mem_singleton.mp hnew] at hc
          exact absurd hc hnext
      · obtain hold | hnew := List.mem_append.mp hother
        · exact hnone hs other hold
        · rw [List.mem_singleton.mp hnew]
          exact hnext

/-- The designated order is the first of the market orders of the bar on the opposite side. -/
theorem designated_first {candidates : List ContinuationCandidate}
    (h : designated c before candidates ≠ 0) :
    ∃ candidate, First c before candidates candidate ∧
      candidate.incarnation = designated c before candidates := by
  unfold designated at h ⊢
  split at h
  next candidate hselected =>
    have hfirst := selectContinuation_first [] candidates (fun s hs => by cases hs)
      (fun _ other hother => absurd hother List.not_mem_nil) hselected
    exact ⟨candidate, hfirst, rfl⟩
  next => exact absurd rfl h

end IntradayCap

section

variable {κ π : Type} [LT π] [DecidableLT π] {riskDay : κ → OrderRiskDay} {limit : ℤ}

/-! ## Where a slot comes from -/

/-- The calls since the start end with a close that lends the slot of `t`, and then with calls of
which none takes it over. -/
structure LentBy (riskDay : κ → OrderRiskDay) (start : Run) (calls : List (Call κ π))
    (t : CloseQuotaTransfer) (clock : κ) (c : Calculation) (before : Side)
    (candidates : List ContinuationCandidate) (early late : List (Call κ π)) : Prop where
  split : calls = early ++ .committedClose clock c before t.closeFill candidates :: late
  counted : (Call.committedClose clock c before t.closeFill candidates : Call κ π).charges riskDay
    (start.after riskDay early).cap = 1
  day : riskDay clock = t.day
  bar : c.bar = t.sourceBar
  designated : IntradayCap.designated c before candidates = t.inheritor
  positive : t.inheritor ≠ 0
  unused : ∀ mid call rest, late = mid ++ call :: rest → ¬call.Lends riskDay
    (start.after riskDay (early ++ .committedClose clock c before t.closeFill
      candidates :: mid)).cap
  fills : t.closeFill ≤ (start.after riskDay calls).latestFill
  latest : t.closeFill = (start.after riskDay calls).latestFill →
    ∀ fill, Call.fillCommitted fill ∉ late

/-- A loan is kept, or made by this close. -/
theorem transfer_step {s : Run} (h : Bounded limit s) (hlimit : 0 < limit) {call : Call κ π}
    {t : CloseQuotaTransfer} (ht : (s.step riskDay call).cap.budget.transfer = some t) :
    (s.cap.budget.transfer = some t ∧ ¬call.Lends riskDay s.cap) ∨
      ∃ clock c before candidates,
        call = .committedClose clock c before t.closeFill candidates ∧
        call.charges riskDay s.cap = 1 ∧ riskDay clock = t.day ∧ c.bar = t.sourceBar ∧
        IntradayCap.designated c before candidates = t.inheritor ∧ t.inheritor ≠ 0 := by
  have hstepped := @step_stepped κ π _ _ riskDay s limit (h.capped.active hlimit) h.capped.limit
    h.triggered call
  generalize (s.step riskDay call).cap.budget = b at hstepped ht
  generalize (s.step riskDay call).owed = owed at hstepped
  cases hstepped with
  | kept hkeeps howed hcharges hlends =>
    obtain hnone | hsame := hkeeps.transfer
    · rw [hnone] at ht
      cases ht
    · exact .inl ⟨hsame ▸ ht, hlends⟩
  | entered d hd hcharges hlends =>
    exact .inl ⟨(IntradayOrderBudget.enterDay_transfer ht).2, hlends⟩
  | inherited clock context attempt latestFill hinherits howed => cases ht
  | charged clock context attempt latestFill hcounts hown hlatched howed =>
    exact .inl ⟨(IntradayOrderBudget.enterDay_transfer ht).2, hown⟩
  | closed clock c before fill candidates =>
    unfold IntradayCap.committedClose at ht
    dsimp only at ht
    by_cases hlatched : (s.cap.budget.enterDay (riskDay clock)).latched = true
    · rw [countCommittedClose_latched hlatched] at ht
      cases ht
    · obtain ⟨-, -, -, htransfer⟩ :=
        @countCommittedClose_counted s.cap.configuration.limit s.cap.budget
        (riskDay clock) fill (IntradayCap.designated c before candidates) c.bar hlatched
      rw [htransfer] at ht
      by_cases hpos : IntradayCap.designated c before candidates ≠ 0
      · rw [if_pos hpos] at ht
        cases ht
        exact .inr ⟨clock, c, before, candidates, rfl, if_neg hlatched, rfl, rfl, rfl, hpos⟩
      · rw [if_neg hpos] at ht
        cases ht

theorem latestFill_step (riskDay) (s : Run) (call : Call κ π) :
    (s.step riskDay call).latestFill = s.latestFill ∨
      ∃ fill, call = .fillCommitted fill ∧ (s.step riskDay call).latestFill = fill := by
  cases call with
  | fillCommitted fill => exact .inr ⟨fill, rfl, rfl⟩
  | _ => exact .inl rfl

/-- Every loan was made by a close. -/
theorem transfer_lentBy {start : Run} (hstart : Bounded limit start) (hlimit : 0 < limit)
    (hfresh : start.cap.budget.transfer = none) {calls : List (Call κ π)}
    (hcalls : start.AllowsAll riskDay limit calls) {t : CloseQuotaTransfer}
    (ht : (start.after riskDay calls).cap.budget.transfer = some t) :
    ∃ clock c before candidates early late,
      LentBy riskDay start calls t clock c before candidates early late := by
  induction calls using List.reverseRecOn with
  | nil =>
    rw [show (start.after riskDay ([] : List (Call κ π))) = start from rfl, hfresh] at ht
    cases ht
  | append_singleton calls call ih =>
    obtain ⟨hearlier, hallowed, -⟩ := allowsAll_append hcalls
    have hstep : start.after riskDay (calls ++ [call])
        = (start.after riskDay calls).step riskDay call := after_append start calls [call]
    rw [hstep] at ht
    obtain ⟨hold, hlends⟩ | ⟨clock, c, before, candidates, rfl, hcharges, hday, hbar,
        hdesignated, hpos⟩ :=
      transfer_step (hstart.after hlimit hearlier) hlimit ht
    · obtain ⟨clock, c, before, candidates, early, late, hlent⟩ := ih hearlier hold
      have hfill := latestFill_step riskDay (start.after riskDay calls) call
      refine ⟨clock, c, before, candidates, early, late ++ [call], ?_, hlent.counted, hlent.day,
        hlent.bar, hlent.designated, hlent.positive, ?_, ?_, ?_⟩
      · rw [hlent.split, List.append_assoc, List.cons_append]
      · intro mid other rest hsplit
        obtain ⟨late', hlate⟩ | hlast : (∃ rest', late = mid ++ other :: rest') ∨
            (late = mid ∧ call = other) := by
          rcases List.eq_nil_or_concat rest with rfl | ⟨rest', last, rfl⟩
          · exact .inr (List.append_singleton_inj.mp hsplit)
          · rw [List.concat_eq_append, ← List.cons_append, ← List.append_assoc] at hsplit
            exact .inl ⟨rest', (List.append_singleton_inj.mp hsplit).1⟩
        · exact hlent.unused mid other late' hlate
        · obtain ⟨rfl, rfl⟩ := hlast
          rw [← hlent.split]
          exact hlends
      · rw [hstep]
        obtain hsame | ⟨fill, rfl, hnew⟩ := hfill
        · rw [hsame]
          exact hlent.fills
        · rw [hnew]
          exact hlent.fills.trans (Nat.le_of_lt hallowed)
      · rw [hstep]
        intro hlatest fill hmem
        obtain hsame | ⟨f, rfl, hnew⟩ := hfill
        · rw [hsame] at hlatest
          obtain hlate | hlast := List.mem_append.mp hmem
          · exact hlent.latest hlatest fill hlate
          · rw [← List.mem_singleton.mp hlast] at hsame
            -- A committed fill moves the latest fill past the close.
            obtain rfl := List.mem_singleton.mp hlast
            have hraised : (start.after riskDay calls).latestFill < fill := hallowed
            have hset : fill = (start.after riskDay calls).latestFill := hsame
            omega
        · have hraised : (start.after riskDay calls).latestFill < f := hallowed
          have := hlent.fills
          omega
    · refine ⟨clock, c, before, candidates, calls, [], rfl, hcharges, hday, hbar, hdesignated,
        hpos, ?_, ?_, ?_⟩
      · intro mid other rest hsplit
        exact absurd hsplit.symm (List.append_ne_nil_of_right_ne_nil mid
          (List.cons_ne_nil other rest))
      · rw [hstep]
        have hfillOf : t.closeFill = (start.after riskDay calls).latestFill := hallowed.2
        exact hfillOf.le
      · intro _ fill hmem
        exact absurd hmem List.not_mem_nil

/-! ## The latch -/

/-- Latched, on a day, with the transfer that there was or with none. -/
structure LatchedOn (day : OrderRiskDay) (transfer : Option CloseQuotaTransfer)
    (b : IntradayOrderBudget) : Prop where
  day : b.day = some day
  latched : b.latched = true
  transfer : b.transfer = none ∨ b.transfer = transfer

/-- A latched day stays latched. -/
theorem LatchedOn.step {s : Run} (hs : Bounded limit s) (hlimit : 0 < limit) {day : OrderRiskDay}
    {transfer : Option CloseQuotaTransfer} (h : LatchedOn day transfer s.cap.budget)
    {call : Call κ π}
    (hday : call.OnDay riskDay day) : LatchedOn day transfer (s.step riskDay call).cap.budget := by
  have hstepped := @step_stepped κ π _ _ riskDay s limit (hs.capped.active hlimit) hs.capped.limit
    hs.triggered call
  have hsame := IntradayOrderBudget.enterDay_of_eq h.day
  generalize (s.step riskDay call).cap.budget = b at hstepped
  generalize (s.step riskDay call).owed = owed at hstepped
  cases hstepped with
  | kept hkeeps howed hcharges hlends =>
    refine ⟨hkeeps.day.trans h.day, hkeeps.latched h.latched, ?_⟩
    obtain hnone | hkept := hkeeps.transfer
    · exact .inl hnone
    · rw [hkept]
      exact h.transfer
  | entered d hd hcharges hlends =>
    rw [hd day hday, hsame]
    exact h
  | inherited clock context attempt latestFill hinherits howed =>
    rw [show riskDay clock = day from hday, hsame]
    exact ⟨h.day, h.latched, .inl rfl⟩
  | charged clock context attempt latestFill hcounts hown hlatched howed =>
    rw [show riskDay clock = day from hday, hsame, h.latched] at hlatched
    cases hlatched
  | closed clock c before fill candidates =>
    unfold IntradayCap.committedClose
    dsimp only
    have hlatched : (s.cap.budget.enterDay (riskDay clock)).latched = true := by
      rw [show riskDay clock = day from hday, hsame]
      exact h.latched
    rw [countCommittedClose_latched hlatched, show riskDay clock = day from hday, hsame]
    exact ⟨h.day, h.latched, .inl rfl⟩

theorem LatchedOn.after {s : Run} (hs : Bounded limit s) (hlimit : 0 < limit) {day : OrderRiskDay}
    {transfer : Option CloseQuotaTransfer} (h : LatchedOn day transfer s.cap.budget)
    {calls : List (Call κ π)} (hcalls : s.AllowsAll riskDay limit calls)
    (hday : ∀ call ∈ calls, call.OnDay riskDay day) :
    LatchedOn day transfer (s.after riskDay calls).cap.budget := by
  induction calls generalizing s with
  | nil => exact h
  | cons call calls ih =>
    exact ih (hs.step hlimit hcalls.1) (h.step hs hlimit (hday call List.mem_cons_self)) hcalls.2
      fun c hc => hday c (List.mem_cons_of_mem call hc)

theorem inherits_transfer {cap : IntradayCap} {day : OrderRiskDay} {context : Calculation}
    {attempt : MatchedAttempt} {latestFill : ℕ} (h : cap.Inherits day context attempt latestFill) :
    ∃ t, cap.budget.transfer = some t ∧ t.day = day ∧ t.sourceBar = context.bar ∧
      t.inheritor = attempt.incarnation ∧ t.closeFill = latestFill := by
  obtain ⟨t, ht, -, hday, hbar, hpos, hinheritor, hfill⟩ :=
    IntradayOrderBudget.canInherit_eq_true h.2
  refine ⟨t, (IntradayOrderBudget.enterDay_transfer ht).2, hday, hbar, ?_, hfill⟩
  unfold IntradayCap.inheritorOf at hinheritor hpos
  split at hinheritor
  · exact hinheritor
  · rename_i hoff
    exact absurd (if_neg hoff) hpos

theorem inherits_of_latched {cap : IntradayCap} {day : OrderRiskDay} {context : Calculation}
    {attempt : MatchedAttempt} {latestFill : ℕ} (hactive : cap.active)
    (hlatched : (cap.budget.enterDay day).latched = true)
    (hallow : (cap.preDispatch day context attempt latestFill).2.dispatch = .allow) :
    cap.Inherits day context attempt latestFill := by
  have hattempted := @IntradayCap.preDispatch_attempted cap day context attempt latestFill hactive
  generalize cap.preDispatch day context attempt latestFill = result at hattempted hallow
  cases hattempted with
  | skipped hskip => cases hallow
  | blocked hcounts hown hlatched' => cases hallow
  | inherited hinherits trigger => exact hinherits
  | charged hcounts hown hopen trigger htrigger =>
    rw [hlatched] at hopen
    cases hopen

/-! ## The cap holds -/

/-- A cap that is attached with a limit and has not counted anything yet. -/
structure Fresh (limit : ℤ) (s : Run) : Prop where
  capped : s.cap.Capped limit
  budget : s.cap.budget = .empty
  owed : s.owed = .nothing

theorem Fresh.bounded {s : Run} (h : Fresh limit s) (hlimit : 0 < limit) : Bounded limit s := by
  refine ⟨h.capped, fun admission hadmission => ?_, ?_⟩
  · rw [h.owed] at hadmission
    cases hadmission
  · rw [h.budget]
    exact ⟨Int.le_refl 0, hlimit.le, fun hfull => absurd hlimit (Int.not_lt.mpr hfull),
      fun hpos => absurd hpos (Int.lt_irrefl 0)⟩

/-- A cap that is latched on a day is so behind calls of that day, for as long as the day lasts. -/
theorem Bounded.latched_after {s : Run} (h : Bounded limit s) (hlimit : 0 < limit)
    {day : OrderRiskDay}
    (hon : s.cap.budget.day = some day) (hlatched : s.cap.budget.latched = true)
    {mid : List (Call κ π)}
    (hcalls : s.AllowsAll riskDay limit mid) (hmid : ∀ call ∈ mid, call.OnDay riskDay day) :
    (s.after riskDay mid).cap.active ∧ ((s.after riskDay mid).cap.budget.enterDay day).latched
    = true ∧
      LatchedOn day s.cap.budget.transfer (s.after riskDay mid).cap.budget := by
  have hlater := LatchedOn.after h hlimit ⟨hon, hlatched, .inr rfl⟩ hcalls hmid
  refine ⟨(h.after hlimit hcalls).capped.active hlimit, ?_, hlater⟩
  rw [IntradayOrderBudget.enterDay_of_eq hlater.day]
  exact hlater.latched

/-- The calls of one risk day charge no more slots than the limit, and the count of them is never
above it. An attempt that inherits a slot takes that of one counted close of the same day and bar,
whose designated opposite order it is; no call in between inherited it and no fill was committed in
between. And once the cap is latched on a day, on that day no order may be placed and the calls
admit only the inheritor of the slot that was lent by then. -/
theorem intraday_cap_holds (hlimit : 0 < limit) {start : Run} (hstart : Fresh limit start)
    {calls : List (Call κ π)} (hcalls : start.AllowsAll riskDay limit calls) :
    (∀ early day some_ late, calls = early ++ some_ ++ late →
      (∀ call ∈ some_, call.OnDay riskDay day) →
      (start.after riskDay early).charges riskDay some_ ≤ limit) ∧
    (∀ early clock context attempt latestFill late,
      calls = early ++ .preDispatch clock context attempt latestFill :: late →
      (start.after riskDay early).cap.Inherits (riskDay clock) context attempt latestFill →
      ∃ t clock' c before candidates candidate first rest,
        LentBy riskDay start early t clock' c before candidates first rest ∧
        riskDay clock' = riskDay clock ∧ c.bar = context.bar ∧ t.closeFill = latestFill ∧
        IntradayCap.First c before candidates candidate ∧
        candidate.incarnation = attempt.incarnation ∧
        ∀ fill, Call.fillCommitted fill ∉ rest) ∧
    (∀ early day mid clock context attempt latestFill late,
      calls = early ++ mid ++ .preDispatch clock context attempt latestFill :: late →
      (start.after riskDay early).cap.budget.day = some day →
      (start.after riskDay early).cap.budget.latched = true →
      (∀ call ∈ mid, call.OnDay riskDay day) → riskDay clock = day →
      ((start.after riskDay (early ++ mid)).cap.preDispatch (riskDay clock) context attempt
        latestFill).2.dispatch = .allow →
      (start.after riskDay (early ++ mid)).cap.Inherits (riskDay clock) context attempt latestFill ∧
        ∃ t, (start.after riskDay early).cap.budget.transfer = some t ∧
          t.inheritor = attempt.incarnation) ∧
    (∀ early late, calls = early ++ late →
      (start.after riskDay early).cap.budget.chargedSlots ≤ limit) ∧
    (∀ early day mid late, calls = early ++ mid ++ late →
      (start.after riskDay early).cap.budget.day = some day →
      (start.after riskDay early).cap.budget.latched = true →
      (∀ call ∈ mid, call.OnDay riskDay day) →
      ((start.after riskDay (early ++ mid)).cap.placement day).2 = false) := by
  have hbounded := hstart.bounded hlimit
  refine ⟨?_, ?_, ?_, ?_, ?_⟩
  · intro early day some_ late hsplit hday
    rw [hsplit, List.append_assoc] at hcalls
    obtain ⟨hearly, hrest⟩ := allowsAll_append hcalls
    exact charges_le (hbounded.after hlimit hearly) hlimit (allowsAll_append hrest).1 hday
  · intro early clock context attempt latestFill late hsplit hinherits
    rw [hsplit] at hcalls
    obtain ⟨hearly, hattempt, -⟩ := allowsAll_append hcalls
    obtain ⟨t, ht, hday, hbar, hinheritor, hfill⟩ := inherits_transfer hinherits
    have hfresh : start.cap.budget.transfer = none := by
      rw [hstart.budget]
      rfl
    obtain ⟨clock', c, before, candidates, first, rest, hlent⟩ :=
      transfer_lentBy hbounded hlimit hfresh hearly ht
    have hdesignated : IntradayCap.designated c before candidates ≠ 0 :=
      hlent.designated ▸ hlent.positive
    obtain ⟨candidate, hfirst, hincarnation⟩ := IntradayCap.designated_first hdesignated
    refine ⟨t, clock', c, before, candidates, candidate, first, rest, hlent, hlent.day.trans hday,
      hlent.bar.trans hbar, hfill, hfirst, ?_, hlent.latest (hfill.trans hattempt.2)⟩
    rw [hincarnation, hlent.designated, hinheritor]
  · intro early day mid clock context attempt latestFill late hsplit hon hlatched hmid hclock hallow
    rw [hsplit, List.append_assoc] at hcalls
    obtain ⟨hearly, hrest⟩ := allowsAll_append hcalls
    obtain ⟨hactive, hlatchedLater, hlater⟩ :=
      (hbounded.after hlimit hearly).latched_after hlimit hon hlatched
      (allowsAll_append hrest).1 hmid
    rw [← after_append] at hactive hlatchedLater hlater
    rw [← hclock] at hlatchedLater
    have hinherits := inherits_of_latched hactive hlatchedLater hallow
    obtain ⟨t, ht, -, -, hinheritor, -⟩ := inherits_transfer hinherits
    refine ⟨hinherits, t, ?_, hinheritor⟩
    obtain hnone | hsame := hlater.transfer
    · rw [hnone] at ht
      cases ht
    · rw [← hsame]
      exact ht
  · intro early late hsplit
    rw [hsplit] at hcalls
    exact (hbounded.after hlimit (allowsAll_append hcalls).1).slots.bound
  · intro early day mid late hsplit hon hlatched hmid
    rw [hsplit, List.append_assoc] at hcalls
    obtain ⟨hearly, hrest⟩ := allowsAll_append hcalls
    obtain ⟨hactive, hlatchedLater, -⟩ :=
      (hbounded.after hlimit hearly).latched_after hlimit hon hlatched
      (allowsAll_append hrest).1 hmid
    rw [← after_append] at hactive hlatchedLater
    unfold IntradayCap.placement
    rw [if_pos hactive]
    dsimp only
    rw [hlatchedLater]
    rfl

end

/-- A calculation on the close of bar 3. -/
def closeOfBar : Calculation :=
  { processOnClose := true, calcOnFills := false, coofScheduler := false, magnifier := false,
    streamWarmup := false, streamIdle := true, fifo := true, bar := 3 }

/-- One filled order a day, with closes counted. -/
def oneFillADay : Run where
  cap :=
    { attachment := .legacySource
      configuration :=
        { limit := 1, skipNoopMarket := true, deferPoocClose := true, countPoocFullClose := true }
      declared := { skipNoopMarket := false, deferPoocClose := false, countPoocFullClose := false }
      budget := .empty, dueCause := none, nextAction := 1 }
  owed := .nothing
  latestFill := 0

/-- An entry to sell. -/
def shortEntry : MatchedAttempt :=
  { kind := .market, incarnation := 7, createdBar := 3, isLong := false, liveSide := .flat,
    liveEntries := 0, pyramiding := 1 }

/-- A long position is closed, which takes the only slot and latches the cap. -/
def closeLong : List (Call OrderRiskDay ℤ) :=
  [.fillCommitted 5, .committedClose ⟨20⟩ closeOfBar .long 5
    [{ kind := .market, createdBar := 3, isLong := false, createdSeq := 1, incarnation := 7 }]]

theorem fresh_oneFillADay : Fresh 1 oneFillADay := ⟨⟨rfl, rfl⟩, rfl, rfl⟩

theorem allowsAll_reversal : oneFillADay.AllowsAll id 1
    (closeLong ++ [.preDispatch ⟨20⟩ closeOfBar shortEntry 5]) :=
  ⟨Nat.succ_pos 4, ⟨rfl, rfl⟩, ⟨rfl, rfl⟩, trivial⟩

/-- The short entry of the reversal is admitted by the latched cap: it inherits the slot of the
close. -/
theorem intraday_cap_holds_reversal :
    oneFillADay.charges id (closeLong ++ [.preDispatch ⟨20⟩ closeOfBar shortEntry 5]) ≤ 1 ∧
      (oneFillADay.after id closeLong).cap.budget.latched = true ∧
      ∃ t, (oneFillADay.after id closeLong).cap.budget.transfer = some t ∧
        t.inheritor = shortEntry.incarnation := by
  obtain ⟨hslots, -, hlatch, -⟩ :=
    intraday_cap_holds (by decide) fresh_oneFillADay allowsAll_reversal
  have hday : ∀ call ∈ closeLong ++ [.preDispatch ⟨20⟩ closeOfBar shortEntry 5],
      call.OnDay id ⟨20⟩ := by
    intro call hcall
    simp only [closeLong, List.cons_append, List.nil_append, List.mem_cons, List.not_mem_nil,
      or_false] at hcall
    obtain rfl | rfl | rfl := hcall
    · exact trivial
    · rfl
    · rfl
  refine ⟨hslots [] ⟨20⟩ _ [] (by rw [List.nil_append, List.append_nil]) hday, rfl, ?_⟩
  exact (hlatch closeLong ⟨20⟩ [] ⟨20⟩ closeOfBar shortEntry 5 [] (by rw [List.append_nil]) rfl rfl
    (fun _ h => absurd h List.not_mem_nil) rfl (by decide)).2

end PineForge.Intraday
