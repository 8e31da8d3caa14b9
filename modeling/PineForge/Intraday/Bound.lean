import PineForge.Intraday.Runs

/-!
# The cap holds

What one call does to the budget is said once, call by call. From it follow the bound on the slots
of a day, where the slot of an inheritor comes from, and that a latched cap admits nobody else.
-/

namespace PineForge.Intraday

namespace IntradayOrderBudget

variable {b : IntradayOrderBudget} {day : OrderRiskDay}

@[simp] theorem enterDay_day (b : IntradayOrderBudget) (day : OrderRiskDay) :
    (b.enterDay day).day = some day := by
  unfold enterDay
  split
  next h => exact h
  next => rfl

theorem enterDay_of_eq (h : b.day = some day) : b.enterDay day = b := if_pos h

theorem enterDay_of_ne (h : b.day ≠ some day) :
    b.enterDay day = { day := some day, chargedSlots := 0, latched := false, transfer := none } :=
  if_neg h

theorem enterDay_charged (b : IntradayOrderBudget) (day : OrderRiskDay) :
    (b.enterDay day).chargedSlots = b.chargedOn day := by
  unfold chargedOn
  by_cases h : b.day = some day
  · rw [enterDay_of_eq h, if_pos h]
  · rw [enterDay_of_ne h, if_neg h]

theorem canInherit_eq_true {bar : ℤ} {incarnation fill : ℕ}
    (h : b.canInherit day bar incarnation fill = true) :
    ∃ t, b.transfer = some t ∧ b.day = some day ∧ t.day = day ∧ t.sourceBar = bar ∧
      incarnation ≠ 0 ∧
      t.inheritor = incarnation ∧ t.closeFill = fill := by
  unfold canInherit at h
  split at h
  next t ht => exact ⟨t, ht, of_decide_eq_true h⟩
  next => cases h

theorem enterDay_transfer {t : CloseQuotaTransfer} (h : (b.enterDay day).transfer = some t) :
    b.day = some day ∧ b.transfer = some t := by
  by_cases hday : b.day = some day
  · rw [enterDay_of_eq hday] at h
    exact ⟨hday, h⟩
  · rw [enterDay_of_ne hday] at h
    cases h

@[simp] theorem latch_day (b : IntradayOrderBudget) : b.latch.day = b.day := by
  unfold latch
  split <;> rfl

@[simp] theorem latch_charged (b : IntradayOrderBudget) :
    b.latch.chargedSlots = b.chargedSlots := by
  unfold latch
  split <;> rfl

@[simp] theorem latch_transfer (b : IntradayOrderBudget) : b.latch.transfer = b.transfer := by
  unfold latch
  split <;> rfl

theorem latch_latched (h : b.day.isSome) : b.latch.latched = true := by
  unfold latch
  rw [if_pos h]

theorem latched_latch (h : b.latched = true) : b.latch.latched = true := by
  unfold latch
  split
  · rfl
  · exact h

/-- Two budgets of which the second has the slots of the first: a transfer may be gone, and the cap
may have been latched. -/
structure Keeps (b c : IntradayOrderBudget) : Prop where
  day : c.day = b.day
  charged : c.chargedSlots = b.chargedSlots
  latched : b.latched = true → c.latched = true
  transfer : c.transfer = none ∨ c.transfer = b.transfer

theorem Keeps.refl (b : IntradayOrderBudget) : b.Keeps b := ⟨rfl, rfl, id, .inr rfl⟩

theorem keeps_expireTransfer (b : IntradayOrderBudget) : b.Keeps b.expireTransfer :=
  ⟨rfl, rfl, id, .inl rfl⟩

theorem keeps_latch (b : IntradayOrderBudget) : b.Keeps b.latch :=
  ⟨latch_day b, latch_charged b, latched_latch, .inr (latch_transfer b)⟩

theorem keeps_decline (b : IntradayOrderBudget) (incarnation : ℕ) :
    b.Keeps (b.decline incarnation) := by
  unfold decline
  split
  next t _ =>
    split
    · exact keeps_expireTransfer b
    · exact .refl b
  next => exact .refl b

end IntradayOrderBudget

namespace IntradayCap

open IntradayOrderBudget (Keeps)

variable {cap : IntradayCap} {day : OrderRiskDay} {context : Calculation} {attempt : MatchedAttempt}
variable {latestFill : ℕ}

/-- What an attempt does to an active cap. -/
inductive Attempted (cap : IntradayCap) (day : OrderRiskDay) (context : Calculation)
    (attempt : MatchedAttempt) (latestFill : ℕ) : IntradayCap × Admission → Prop
  | skipped (hskip : ¬cap.Counts attempt) :
    Attempted cap day context attempt latestFill (cap.decline attempt.incarnation, ⟨.decline, none⟩)
  | blocked (hcounts : cap.Counts attempt) (hown : ¬cap.Inherits day context attempt latestFill)
      (hlatched : (cap.budget.enterDay day).latched = true) :
    Attempted cap day context attempt latestFill
      ({ cap with budget := cap.budget.enterDay day }, ⟨.decline, none⟩)
  | inherited (hinherits : cap.Inherits day context attempt latestFill)
    (trigger : Option QuotaTrigger) :
    Attempted cap day context attempt latestFill
      ({ cap with budget := (cap.budget.enterDay day).expireTransfer }, ⟨.allow, trigger⟩)
  | charged (hcounts : cap.Counts attempt) (hown : ¬cap.Inherits day context attempt latestFill)
      (hlatched : (cap.budget.enterDay day).latched = false) (trigger : Option QuotaTrigger)
      (htrigger : cap.configuration.limit ≤ (cap.budget.enterDay day).chargedSlots + 1 →
        trigger.isSome) :
    Attempted cap day context attempt latestFill
      ({ cap with budget := { cap.budget.enterDay day with
        chargedSlots := (cap.budget.enterDay day).chargedSlots + 1 } }, ⟨.allow, trigger⟩)

/-- What an attempt may do to the cap. -/
theorem preDispatch_attempted (hactive : cap.active) :
    cap.Attempted day context attempt latestFill
      (cap.preDispatch day context attempt latestFill) := by
  unfold preDispatch
  rw [if_neg (not_not_intro hactive)]
  by_cases hskip : cap.configuration.skipNoopMarket ∧ noopMarket attempt
  · rw [if_pos hskip]
    exact .skipped fun h => h.2 hskip
  · rw [if_neg hskip]
    have hcounts : cap.Counts attempt := ⟨hactive, hskip⟩
    unfold IntradayOrderBudget.admitMatchedAttempt
    dsimp only
    by_cases hinherits : cap.Inherits day context attempt latestFill
    · rw [hinherits.2, if_neg (by simp), if_pos rfl]
      split
      next h => split at h <;> cases h
      next => exact .inherited hinherits _
      next => exact .inherited hinherits _
    · have hfalse : (cap.budget.enterDay day).canInherit day context.bar (cap.inheritorOf attempt)
          latestFill = false := by
        rw [← Bool.not_eq_true]
        exact fun h => hinherits ⟨hcounts, h⟩
      rw [hfalse]
      by_cases hlatched : (cap.budget.enterDay day).latched = true
      · rw [if_pos ⟨hlatched, Bool.false_ne_true⟩]
        exact .blocked hcounts hinherits hlatched
      · rw [if_neg (fun h => hlatched h.1), if_neg Bool.false_ne_true]
        rw [Bool.not_eq_true] at hlatched
        dsimp only
        by_cases hlimit : (cap.budget.enterDay day).chargedSlots + 1 ≥ cap.configuration.limit
        · rw [if_pos hlimit]
          exact .charged hcounts hinherits hlatched (some _) fun _ => rfl
        · rw [if_neg hlimit]
          exact .charged hcounts hinherits hlatched none fun h => absurd h hlimit

/-- The cap is attached with a limit. -/
structure Capped (limit : ℤ) (cap : IntradayCap) : Prop where
  attached : cap.attachment = .legacySource
  limit : cap.configuration.limit = limit

theorem Capped.active {limit : ℤ} (hlimit : 0 < limit) (h : cap.Capped limit) : cap.active := by
  refine ⟨?_, ?_⟩
  · rw [h.attached]
    exact fun h => by cases h
  · rw [h.limit]
    exact hlimit

end IntradayCap

/-! ## One call -/

section

variable {κ π : Type} [LT π] [DecidableLT π] {riskDay : κ → OrderRiskDay} {s : Run} {limit : ℤ}

/-- What a call does to the budget and to what is owed. -/
inductive Stepped (riskDay : κ → OrderRiskDay) (limit : ℤ) (s : Run) :
    Call κ π → IntradayOrderBudget → Owed → Prop
  | kept {call : Call κ π} {b : IntradayOrderBudget} {owed : Owed} (hkeeps : s.cap.budget.Keeps b)
      (howed : owed = s.owed ∨ owed = .close ∨ (b.day.isSome → b.latched = true))
      (hcharges : call.charges riskDay s.cap = 0) (hlends : ¬call.Lends riskDay s.cap) :
    Stepped riskDay limit s call b owed
  | entered {call : Call κ π} (day : OrderRiskDay) (hday : ∀ d, call.OnDay riskDay d → day = d)
      (hcharges : call.charges riskDay s.cap = 0) (hlends : ¬call.Lends riskDay s.cap) :
    Stepped riskDay limit s call (s.cap.budget.enterDay day) s.owed
  | inherited (clock : κ) (context : Calculation) (attempt : MatchedAttempt) (latestFill : ℕ)
      (hinherits : s.cap.Inherits (riskDay clock) context attempt latestFill) {owed : Owed}
      (howed : owed = s.owed ∨ ∃ admission, owed = .dispatch admission) :
    Stepped riskDay limit s (.preDispatch clock context attempt latestFill)
      (s.cap.budget.enterDay (riskDay clock)).expireTransfer owed
  | charged (clock : κ) (context : Calculation) (attempt : MatchedAttempt) (latestFill : ℕ)
      (hcounts : s.cap.Counts attempt)
      (hown : ¬s.cap.Inherits (riskDay clock) context attempt latestFill)
      (hlatched : (s.cap.budget.enterDay (riskDay clock)).latched = false) {owed : Owed}
      (howed : limit ≤ (s.cap.budget.enterDay (riskDay clock)).chargedSlots + 1 → owed ≠ .nothing) :
    Stepped riskDay limit s (.preDispatch clock context attempt latestFill)
      { s.cap.budget.enterDay (riskDay clock) with
        chargedSlots := (s.cap.budget.enterDay (riskDay clock)).chargedSlots + 1 } owed
  | closed (clock : κ) (c : Calculation) (before : Side) (fill : ℕ)
      (candidates : List ContinuationCandidate) :
    Stepped riskDay limit s (.committedClose clock c before fill candidates)
      (s.cap.committedClose (riskDay clock) c before fill candidates).budget s.owed

/-- What is owed is the dispatch of an admission that reached the limit. -/
def Run.OwesTriggered (s : Run) : Prop :=
  ∀ admission, s.owed = .dispatch admission → admission.trigger.isSome

omit [LT π] [DecidableLT π] in
theorem Stepped.same {call : Call κ π} (hcharges : call.charges riskDay s.cap = 0)
    (hlends : ¬call.Lends riskDay s.cap) : Stepped riskDay limit s call s.cap.budget s.owed :=
  .kept (.refl _) (.inl rfl) hcharges hlends

/-- What the end of a dispatch may do. -/
theorem postDispatch_stepped (howes : s.OwesTriggered) (admission : Admission) (c : Calculation)
    (attempt : MatchedAttempt) (side : Side) (cycle : ℤ) (prices : Prices π) :
    let call : Call κ π := .postDispatch admission c attempt side cycle prices
    Stepped riskDay limit s call (s.step riskDay call).cap.budget (s.step riskDay call).owed := by
  have howed : ∀ decision : CloseDecision π, s.owed.afterPostDispatch admission decision = s.owed ∨
      s.owed = .dispatch admission := by
    intro decision
    unfold Owed.afterPostDispatch
    split
    next h => exact .inr h
    next => exact .inl rfl
  dsimp only
  unfold Run.step IntradayCap.postDispatch
  dsimp only
  cases htrigger : admission.trigger with
  | none =>
    refine .kept (.refl _) (.inl ?_) rfl id
    obtain hsame | hdispatch := howed (.nothing)
    · exact hsame
    · have := howes admission hdispatch
      rw [htrigger] at this
      cases this
  | some trigger =>
    dsimp only
    by_cases hflat : side = .flat
    · rw [if_pos hflat]
      exact .kept (IntradayOrderBudget.keeps_latch _)
        (.inr (.inr fun h => IntradayOrderBudget.latch_latched
          (IntradayOrderBudget.latch_day s.cap.budget ▸ h))) rfl id
    · rw [if_neg hflat]
      split
      next =>
        exact .kept (IntradayOrderBudget.keeps_latch _)
          (.inr (.inr fun h => IntradayOrderBudget.latch_latched
            (IntradayOrderBudget.latch_day s.cap.budget ▸ h))) rfl id
      next =>
        refine .kept (.refl _) ?_ rfl id
        dsimp only
        unfold Owed.afterPostDispatch
        split
        next => exact .inr (.inl rfl)
        next => exact .inl rfl

theorem preDispatch_stepped (hactive : s.cap.active) (hlimit : s.cap.configuration.limit = limit)
    (clock : κ) (context : Calculation) (attempt : MatchedAttempt) (latestFill : ℕ) :
    let call : Call κ π := .preDispatch clock context attempt latestFill
    Stepped riskDay limit s call (s.step riskDay call).cap.budget (s.step riskDay call).owed := by
  have hattempted := @IntradayCap.preDispatch_attempted s.cap (riskDay clock) context attempt
    latestFill hactive
  dsimp only
  unfold Run.step
  dsimp only
  generalize s.cap.preDispatch (riskDay clock) context attempt latestFill = result at hattempted
  cases hattempted with
  | skipped hskip =>
    refine .kept (IntradayOrderBudget.keeps_decline _ _) (.inl rfl) ?_ fun h => hskip h.1
    exact if_neg fun h => hskip h.1
  | blocked hcounts hown hlatched =>
    refine .entered (riskDay clock) (fun d hd => hd) ?_ hown
    exact if_neg fun h => h.2.2 hlatched
  | inherited hinherits trigger =>
    refine .inherited clock context attempt latestFill hinherits ?_
    dsimp only
    split
    · exact .inr ⟨_, rfl⟩
    · exact .inl rfl
  | charged hcounts hown hlatched trigger htrigger =>
    refine .charged clock context attempt latestFill hcounts hown hlatched fun h => ?_
    dsimp only
    rw [if_pos (htrigger (hlimit ▸ h))]
    exact fun h => by cases h

/-- What a call may do. -/
theorem step_stepped (hactive : s.cap.active) (hlimit : s.cap.configuration.limit = limit)
    (howes : s.OwesTriggered) (call : Call κ π) :
    Stepped riskDay limit s call (s.step riskDay call).cap.budget (s.step riskDay call).owed := by
  cases call with
  | attach => exact .same rfl id
  | assign l => exact .same rfl id
  | metadata key enabled =>
    have hbudget : (s.cap.metadata key enabled).budget = s.cap.budget := by
      unfold IntradayCap.metadata
      split
      · rfl
      · split
        · rfl
        · split <;> rfl
    unfold Run.step
    dsimp only
    rw [hbudget]
    exact .same rfl id
  | adoptScriptCount => exact .same rfl id
  | placement clock =>
    unfold Run.step IntradayCap.placement
    dsimp only
    rw [if_pos hactive]
    exact .entered (riskDay clock) (fun d hd => hd) rfl id
  | decline incarnation =>
    exact .kept (IntradayOrderBudget.keeps_decline _ _) (.inl rfl) rfl id
  | preDispatch clock context attempt latestFill =>
    exact preDispatch_stepped hactive hlimit clock context attempt latestFill
  | outcome o from_ =>
    unfold Run.step IntradayCap.outcome
    dsimp only
    split
    · exact .kept (IntradayOrderBudget.keeps_expireTransfer _) (.inl rfl) rfl id
    · exact .same rfl id
  | committedClose clock c before fill candidates => exact .closed clock c before fill candidates
  | postDispatch admission c attempt side cycle prices =>
    exact postDispatch_stepped howes admission c attempt side cycle prices
  | afterImmediateCloseAttempt =>
    exact .kept (IntradayOrderBudget.keeps_latch _)
      (.inr (.inr fun h => IntradayOrderBudget.latch_latched
        (IntradayOrderBudget.latch_day s.cap.budget ▸ h))) rfl id
  | ordinaryOpen bar =>
    exact .kept (IntradayOrderBudget.keeps_expireTransfer _) (.inl rfl) rfl id
  | sourceBatchEnd => exact .kept (IntradayOrderBudget.keeps_expireTransfer _) (.inl rfl) rfl id
  | fillCommitted fill => exact .same rfl id

/-! ## The slots of a day -/

theorem countCommittedClose_latched {b : IntradayOrderBudget} {day : OrderRiskDay}
    {fill inheritor : ℕ}
    {bar : ℤ} (h : (b.enterDay day).latched = true) :
    b.countCommittedClose day limit fill bar inheritor = (b.enterDay day).expireTransfer :=
  if_pos h

/-- A close that is counted: it charges a slot, may lend it, and latches the cap at the limit. -/
theorem countCommittedClose_counted {b : IntradayOrderBudget} {day : OrderRiskDay}
    {fill inheritor : ℕ}
    {bar : ℤ} (h : ¬(b.enterDay day).latched = true) :
    let c := b.countCommittedClose day limit fill bar inheritor
    c.day = some day ∧ c.chargedSlots = (b.enterDay day).chargedSlots + 1 ∧
      (limit ≤ c.chargedSlots → c.latched = true) ∧
      c.transfer = if inheritor ≠ 0 then some ⟨day, fill, bar, inheritor⟩ else none := by
  unfold IntradayOrderBudget.countCommittedClose
  dsimp only
  rw [if_neg (show ¬(b.enterDay day).expireTransfer.latched = true from h)]
  have hday : (b.enterDay day).expireTransfer.day = some day := b.enterDay_day day
  have hcharged : (b.enterDay day).expireTransfer.chargedSlots = (b.enterDay day).chargedSlots :=
    rfl
  rw [hcharged]
  split
  next hfull =>
    refine ⟨?_, ?_, fun _ => ?_, ?_⟩
    · rw [IntradayOrderBudget.latch_day]
      exact hday
    · rw [IntradayOrderBudget.latch_charged]
    · apply IntradayOrderBudget.latch_latched
      dsimp only
      rw [hday]
      rfl
    · rw [IntradayOrderBudget.latch_transfer]
  next hfull => exact ⟨hday, rfl, fun h => absurd h hfull, rfl⟩

/-- A budget within its limit: when it is full it is latched, or its latch is owed. -/
structure Within (limit : ℤ) (b : IntradayOrderBudget) (owed : Owed) : Prop where
  nonneg : 0 ≤ b.chargedSlots
  bound : b.chargedSlots ≤ limit
  full : limit ≤ b.chargedSlots → b.latched = true ∨ owed ≠ .nothing
  day : 0 < b.chargedSlots → b.day.isSome

/-- What the cap keeps within the limit. -/
structure Bounded (limit : ℤ) (s : Run) : Prop where
  capped : s.cap.Capped limit
  triggered : s.OwesTriggered
  slots : Within limit s.cap.budget s.owed

/-- No call changes the limit. -/
theorem capped_step (hcapped : s.cap.Capped limit) {call : Call κ π} (hcall : s.Allows limit call) :
    (s.step riskDay call).cap.Capped limit := by
  cases call with
  | attach => exact ⟨rfl, hcapped.limit⟩
  | assign l => exact ⟨rfl, hcall⟩
  | metadata key enabled =>
    unfold Run.step IntradayCap.metadata
    dsimp only
    split
    · exact ⟨hcapped.attached, hcapped.limit⟩
    · split
      · exact ⟨hcapped.attached, hcapped.limit⟩
      · split
        · exact ⟨hcapped.attached, hcapped.limit⟩
        · exact hcapped
  | adoptScriptCount => exact ⟨hcapped.attached, hcapped.limit⟩
  | placement clock =>
    unfold Run.step IntradayCap.placement
    dsimp only
    split
    · exact ⟨hcapped.attached, hcapped.limit⟩
    · exact hcapped
  | decline incarnation => exact ⟨hcapped.attached, hcapped.limit⟩
  | preDispatch clock context attempt latestFill =>
    unfold Run.step IntradayCap.preDispatch
    dsimp only
    split
    · exact hcapped
    · split
      · exact ⟨hcapped.attached, hcapped.limit⟩
      · split <;> exact ⟨hcapped.attached, hcapped.limit⟩
  | outcome o from_ =>
    unfold Run.step IntradayCap.outcome
    dsimp only
    split
    · exact ⟨hcapped.attached, hcapped.limit⟩
    · exact hcapped
  | committedClose clock c before fill candidates => exact ⟨hcapped.attached, hcapped.limit⟩
  | postDispatch admission c attempt side cycle prices =>
    unfold Run.step IntradayCap.postDispatch
    dsimp only
    split
    · exact hcapped
    · split
      · exact ⟨hcapped.attached, hcapped.limit⟩
      · split <;> exact ⟨hcapped.attached, hcapped.limit⟩
  | afterImmediateCloseAttempt => exact ⟨hcapped.attached, hcapped.limit⟩
  | ordinaryOpen bar => exact ⟨hcapped.attached, hcapped.limit⟩
  | sourceBatchEnd => exact ⟨hcapped.attached, hcapped.limit⟩
  | fillCommitted fill => exact hcapped

/-- What is owed stays triggered. -/
theorem owesTriggered_step (howes : s.OwesTriggered) (call : Call κ π) :
    (s.step riskDay call).OwesTriggered := by
  intro admission hadmission
  cases call with
  | preDispatch clock context attempt latestFill =>
    unfold Run.step at hadmission
    dsimp only at hadmission
    split at hadmission
    next hsome =>
      cases hadmission
      exact hsome
    next => exact howes admission hadmission
  | postDispatch a c attempt side cycle prices =>
    unfold Run.step Owed.afterPostDispatch at hadmission
    dsimp only at hadmission
    split at hadmission
    · split at hadmission <;> cases hadmission
    · exact howes admission hadmission
  | afterImmediateCloseAttempt =>
    unfold Run.step at hadmission
    dsimp only at hadmission
    split at hadmission
    · cases hadmission
    · exact howes admission hadmission
  | attach => exact howes admission hadmission
  | assign l => exact howes admission hadmission
  | metadata key enabled => exact howes admission hadmission
  | adoptScriptCount => exact howes admission hadmission
  | placement clock => exact howes admission hadmission
  | decline incarnation => exact howes admission hadmission
  | outcome o from_ => exact howes admission hadmission
  | committedClose clock c before fill candidates => exact howes admission hadmission
  | ordinaryOpen bar => exact howes admission hadmission
  | sourceBatchEnd => exact howes admission hadmission
  | fillCommitted fill => exact howes admission hadmission

theorem Within.enterDay {b : IntradayOrderBudget} {owed : Owed} (h : Within limit b owed)
    (hlimit : 0 < limit) (day : OrderRiskDay) : Within limit (b.enterDay day) owed := by
  by_cases hday : b.day = some day
  · rw [IntradayOrderBudget.enterDay_of_eq hday]
    exact h
  · rw [IntradayOrderBudget.enterDay_of_ne hday]
    exact ⟨Int.le_refl 0, hlimit.le, fun hfull => absurd hlimit (Int.not_lt.mpr hfull),
      fun _ => rfl⟩

/-- One call keeps the bound. -/
theorem Bounded.step (h : Bounded limit s) (hlimit : 0 < limit) {call : Call κ π}
    (hcall : s.Allows limit call) : Bounded limit (s.step riskDay call) := by
  have hstepped := @step_stepped κ π _ _ riskDay s limit (h.capped.active hlimit) h.capped.limit
    h.triggered call
  refine ⟨capped_step h.capped hcall, owesTriggered_step h.triggered call, ?_⟩
  generalize (s.step riskDay call).cap.budget = b at hstepped
  generalize (s.step riskDay call).owed = owed at hstepped
  cases hstepped with
  | kept hkeeps howed hcharges hlends =>
    have hslots := h.slots
    refine ⟨hkeeps.charged ▸ hslots.nonneg, hkeeps.charged ▸ hslots.bound, fun hfull => ?_,
      fun hpos => ?_⟩
    · rw [hkeeps.charged] at hfull
      obtain hlatched | howes := hslots.full hfull
      · exact .inl (hkeeps.latched hlatched)
      · obtain hsame | hclose | hlatch := howed
        · exact .inr (hsame ▸ howes)
        · exact .inr (by rw [hclose]; exact fun h => by cases h)
        · have hsome := hslots.day (hlimit.trans_le hfull)
          exact .inl (hlatch (hkeeps.day ▸ hsome))
    · rw [hkeeps.charged] at hpos
      rw [hkeeps.day]
      exact hslots.day hpos
  | entered day hday hcharges hlends => exact h.slots.enterDay hlimit day
  | inherited clock context attempt latestFill hinherits howed =>
    have hslots := h.slots.enterDay hlimit (riskDay clock)
    refine ⟨hslots.nonneg, hslots.bound, fun hlimited => ?_, hslots.day⟩
    obtain hlatched | howes := hslots.full hlimited
    · exact .inl hlatched
    · obtain hsame | ⟨admission, hdispatch⟩ := howed
      · exact .inr (hsame ▸ howes)
      · exact .inr (by rw [hdispatch]; exact fun h => by cases h)
  | charged clock context attempt latestFill hcounts hown hlatched howed =>
    have hslots := h.slots.enterDay hlimit (riskDay clock)
    have hnonneg := hslots.nonneg
    refine ⟨by dsimp only; omega, ?_, fun hlimited => .inr (howed hlimited), fun _ => ?_⟩
    · -- A full budget would have been latched: nothing is owed when an attempt is admitted.
      by_contra hover
      obtain hlatched' | howes := hslots.full (by dsimp only at hover; omega)
      · rw [hlatched] at hlatched'
        cases hlatched'
      · exact howes hcall.1
    · dsimp only
      rw [IntradayOrderBudget.enterDay_day]
      rfl
  | closed clock c before fill candidates =>
    have hslots := h.slots.enterDay hlimit (riskDay clock)
    have hnonneg := hslots.nonneg
    unfold IntradayCap.committedClose
    dsimp only
    rw [h.capped.limit]
    by_cases hlatched : (s.cap.budget.enterDay (riskDay clock)).latched = true
    · rw [countCommittedClose_latched hlatched]
      exact ⟨hnonneg, hslots.bound, fun _ => .inl hlatched, hslots.day⟩
    · obtain ⟨hday, hcharged, hlatch, -⟩ := @countCommittedClose_counted limit s.cap.budget
        (riskDay clock) fill (IntradayCap.designated c before candidates) c.bar hlatched
      refine ⟨by rw [hcharged]; omega, ?_, fun hlimited => .inl (hlatch hlimited), fun _ => ?_⟩
      · rw [hcharged]
        by_contra hover
        obtain hlatched' | howes := hslots.full (by omega)
        · exact hlatched hlatched'
        · exact howes hcall.1
      · rw [hday]
        rfl

/-- A call changes the charged slots by its charge. -/
theorem chargedOn_step (h : Bounded limit s) (hlimit : 0 < limit) {call : Call κ π}
    {day : OrderRiskDay}
    (hday : call.OnDay riskDay day) :
    (s.step riskDay call).cap.budget.chargedOn day
      = s.cap.budget.chargedOn day + call.charges riskDay s.cap := by
  have hstepped := @step_stepped κ π _ _ riskDay s limit (h.capped.active hlimit) h.capped.limit
    h.triggered call
  have hentered : ∀ b : IntradayOrderBudget, b.day = some day → b.chargedOn day = b.chargedSlots :=
    fun b hb => if_pos hb
  have hbefore : s.cap.budget.chargedOn day = (s.cap.budget.enterDay day).chargedSlots :=
    (IntradayOrderBudget.enterDay_charged _ _).symm
  generalize (s.step riskDay call).cap.budget = b at hstepped
  generalize (s.step riskDay call).owed = owed at hstepped
  cases hstepped with
  | kept hkeeps howed hcharges hlends =>
    rw [hcharges, Int.add_zero]
    unfold IntradayOrderBudget.chargedOn
    rw [hkeeps.day, hkeeps.charged]
  | entered d hd hcharges hlends =>
    rw [hcharges, Int.add_zero, hd day hday, hbefore]
    exact hentered _ (IntradayOrderBudget.enterDay_day _ _)
  | inherited clock context attempt latestFill hinherits howed =>
    have hclock : riskDay clock = day := hday
    have hcharges : (Call.preDispatch clock context attempt latestFill : Call κ π).charges
      riskDay s.cap
        = 0 := if_neg fun h => h.2.1 hinherits
    rw [hcharges, Int.add_zero, hclock, hbefore]
    exact hentered _ (IntradayOrderBudget.enterDay_day _ _)
  | charged clock context attempt latestFill hcounts hown hlatched howed =>
    have hclock : riskDay clock = day := hday
    have hcharges : (Call.preDispatch clock context attempt latestFill : Call κ π).charges
      riskDay s.cap
        = 1 := if_pos ⟨hcounts, hown, by rw [hlatched]; exact Bool.false_ne_true⟩
    rw [hcharges, hclock, hbefore]
    exact hentered _ (IntradayOrderBudget.enterDay_day _ _)
  | closed clock c before fill candidates =>
    have hclock : riskDay clock = day := hday
    unfold IntradayCap.committedClose Call.charges
    dsimp only
    rw [hclock, hbefore]
    by_cases hlatched : (s.cap.budget.enterDay day).latched = true
    · rw [countCommittedClose_latched hlatched, if_pos hlatched, Int.add_zero]
      exact hentered _ (IntradayOrderBudget.enterDay_day _ _)
    · obtain ⟨hclosed, hcharged, -⟩ :=
        @countCommittedClose_counted s.cap.configuration.limit s.cap.budget
        day fill (IntradayCap.designated c before candidates) c.bar hlatched
      rw [if_neg hlatched, hentered _ hclosed, hcharged]

/-! ## Whole runs -/

theorem after_append (s : Run) (calls more : List (Call κ π)) :
    s.after riskDay (calls ++ more) = (s.after riskDay calls).after riskDay more :=
      List.foldl_append

theorem allowsAll_append {calls more : List (Call κ π)}
    (h : s.AllowsAll riskDay limit (calls ++ more)) :
    s.AllowsAll riskDay limit calls ∧ (s.after riskDay calls).AllowsAll riskDay limit more := by
  induction calls generalizing s with
  | nil => exact ⟨trivial, h⟩
  | cons call calls ih => exact ⟨⟨h.1, (ih h.2).1⟩, (ih h.2).2⟩

theorem Bounded.after (h : Bounded limit s) (hlimit : 0 < limit) {calls : List (Call κ π)}
    (hcalls : s.AllowsAll riskDay limit calls) : Bounded limit (s.after riskDay calls) := by
  induction calls generalizing s with
  | nil => exact h
  | cons call calls ih => exact ih (h.step hlimit hcalls.1) hcalls.2

theorem charges_le (h : Bounded limit s) (hlimit : 0 < limit) {day : OrderRiskDay}
    {calls : List (Call κ π)} (hcalls : s.AllowsAll riskDay limit calls)
    (hday : ∀ call ∈ calls, call.OnDay riskDay day) : s.charges riskDay calls ≤ limit := by
  have hsum : (s.after riskDay calls).cap.budget.chargedOn day
      = s.cap.budget.chargedOn day + s.charges riskDay calls := by
    induction calls generalizing s with
    | nil => exact (Int.add_zero _).symm
    | cons call calls ih =>
      have hfirst := hday call List.mem_cons_self
      have hrest := ih (h.step hlimit hcalls.1) hcalls.2
        fun c hc => hday c (List.mem_cons_of_mem call hc)
      rw [chargedOn_step h hlimit hfirst] at hrest
      unfold Run.charges
      rw [← Int.add_assoc]
      exact hrest
  have hon : ∀ {t : Run}, Bounded limit t → 0 ≤ t.cap.budget.chargedOn day ∧
      t.cap.budget.chargedOn day ≤ limit := by
    intro t ht
    unfold IntradayOrderBudget.chargedOn
    split
    · exact ⟨ht.slots.nonneg, ht.slots.bound⟩
    · exact ⟨Int.le_refl 0, hlimit.le⟩
  have hstart := hon h
  have hend := hon (h.after hlimit hcalls)
  omega

end

end PineForge.Intraday
