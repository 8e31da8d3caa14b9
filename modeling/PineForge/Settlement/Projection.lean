import PineForge.Settlement.Effects
import PineForge.Settlement.Fused
import PineForge.Machine.Binary64

/-!
# Projection equals settlement

What an execution reports before it runs is what the engine holds after it ran
(`settle_eq_projection`). The projection re-computes the effect of the commit without changing
anything; the proof reads the engine a commit leaves (`After`) and compares fact by fact, by the
same operations in the same order.
-/

namespace PineForge.Settlement

open Arith

variable {α : Type} [Arith α]

/-! ## The engine a commit leaves -/

/-- The engine after a stage: its lots, side, quantity and cycle, with the configuration kept. -/
structure After (e : Engine α) (s : Staged α) (lot : PyramidEntry α) (e' : Engine α) : Prop where
  lots : e'.pyramidEntries = s.survivors ++ if s.opens then [lot] else []
  side : e'.positionSide = s.resultingSide e
  qty : e'.positionQty = s.afterQty
  price : e'.positionEntryPrice = s.afterPrice
  cycle : e'.positionCycleSeq = if s.resultingLotCount = 0 then 0
    else if s.survivors ≠ [] then e.positionCycleSeq else e.nextPositionCycleSeq
  capital : e'.initialCapital = e.initialCapital
  pointvalue : e'.pointvalue = e.pointvalue
  schedule : e'.commissionType = e.commissionType ∧ e'.commissionValue = e.commissionValue
    ∧ e'.activeAccountCurrencyFx = e.activeAccountCurrencyFx

theorem After.withLedger {e : Engine α} {s : Staged α} {lot : PyramidEntry α} {e' : Engine α}
    (h : After e s lot e') (l : Ledger α) : After e s lot (e'.withLedger l) :=
  ⟨h.lots, h.side, h.qty, h.price, h.cycle, h.capital, h.pointvalue, h.schedule⟩

theorem closeBook_frame (e : Engine α) (s : Staged α) :
    (closeBook e s).nextPositionCycleSeq = e.nextPositionCycleSeq
      ∧ (closeBook e s).initialCapital = e.initialCapital
      ∧ (closeBook e s).pointvalue = e.pointvalue
      ∧ (closeBook e s).commissionType = e.commissionType
      ∧ (closeBook e s).commissionValue = e.commissionValue
      ∧ (closeBook e s).activeAccountCurrencyFx = e.activeAccountCurrencyFx := by
  unfold closeBook
  split
  · split <;> exact ⟨rfl, rfl, rfl, rfl, rfl, rfl⟩
  · exact ⟨rfl, rfl, rfl, rfl, rfl, rfl⟩

section After

variable [Lawful α] {e : Engine α} {s : Staged α} {fill : Fill α} {fx : α} {lot : PyramidEntry α}

omit [Lawful α] in
theorem Staged.Sound.survivors_of_flat (h : s.Sound e fill fx) (hflat : e.positionSide = .flat) :
    s.survivors = [] := by
  have hlots := h.side.1 hflat
  have hnil : s.closings = [] := by
    cases hc : s.closings with
    | nil => rfl
    | cons c cs =>
      have := h.indices c (by simp [hc])
      simp [hlots] at this
  rw [(h.untouched hnil).2, hlots]

/-- **The book a sound stage leaves.** -/
theorem Staged.Sound.after (h : s.Sound e fill fx) (hlot : lot.qty = s.opening)
    (hprice : lot.price = fill.price) : After e s lot (bookAfter e s lot) := by
  have hcloses : s.opens = false → 0 < s.closed := fun ho =>
    h.closed (h.effect.resolve_right (by simp [ho]))
  have hqty := h.afterQty
  have hmean := h.afterPrice
  cases ho : s.opens with
  | false =>
    have hpos := hcloses ho
    rw [ho] at hqty
    by_cases hs : s.survivors = []
    · have hzero : s.afterPrice = 0 := by
        simp [hmean, Staged.meanPrice, hs, ho, hqty, not_zero_lt_zero]
      clear hmean
      constructor <;> simp_all [bookAfter, closeBook, resetPositionStateToFlat,
        Staged.resultingSide, Staged.resultingLotCount]
    · constructor <;> simp_all [bookAfter, closeBook, Staged.resultingSide,
        Staged.resultingLotCount]
  | true =>
    rw [ho] at hqty
    by_cases hs : s.survivors = []
    · have hflat := h.closeBook_flat.2 (.inr hs)
      have hnext := closeBook_frame e s
      have hfill : s.afterPrice = fill.price := by simp [hmean, Staged.meanPrice, hs, ho]
      clear hmean
      have hopening : 0 + s.opening = s.opening :=
        Lawful.zero_add (by simpa [Staged.opens] using ho)
      constructor <;> simp_all [bookAfter, installPosition, Staged.resultingSide,
        Staged.resultingLotCount]
    · obtain ⟨hclosed, hsurv⟩ := h.untouched (h.beside ho hs)
      have hbook : closeBook e s = e := by simp [closeBook, hclosed, not_zero_lt_zero]
      have hflat : e.positionSide ≠ .flat := fun hf => hs (h.survivors_of_flat hf)
      constructor <;> simp_all [bookAfter, installLot, Staged.resultingSide,
        Staged.resultingLotCount]

end After

/-! ## The facts of the account -/

/-- What a projection reports of an execution, and what an engine holds after it. -/
structure AccountFacts (α : Type) where
  closedUnits : α
  openedUnits : α
  currentTicket : α
  lotCount : Nat
  signedUnits : α
  cycle : Int
  realizedBalance : α
  remainingEntryCost : α
  markedEquity : α

/-- What a projection says of the account. -/
def AccountEffectProjection.facts (p : AccountEffectProjection α) : AccountFacts α where
  closedUnits := p.closedUnits
  openedUnits := p.openedUnits
  currentTicket := p.currentTicket
  lotCount := p.resultingLotCount
  signedUnits := p.signedUnitsAfter
  cycle := p.cycleAfter
  realizedBalance := p.realizedBalance
  remainingEntryCost := p.remainingEntryCost
  markedEquity := p.markedEquity

/-- The facts an engine holds, with the units and the ticket of the settlement `r` it ran. -/
def Engine.facts (e : Engine α) (r : Result α) (price fx : α) : AccountFacts α where
  closedUnits := r.closedUnits
  openedUnits := r.openedUnits
  currentTicket := r.currentTicket
  lotCount := e.pyramidEntries.length
  signedUnits := signedSide e.positionSide e.positionQty
  cycle := e.positionCycleSeq
  realizedBalance := e.initialCapital + e.netProfitSum
  remainingEntryCost := sumFrom 0 (e.pyramidEntries.map (openEntryCommission e))
  markedEquity := markedEquityAt e price fx

/-- The notional of the held position at a price. -/
def Engine.notionalAt (e : Engine α) (price fx : α) : α :=
  e.positionQty * Arith.abs price * e.pointvalue * fx

/-- Every amount of the facts, and the notional, is a finite number. -/
def AccountFacts.finite (a : AccountFacts α) (notional : α) : Bool :=
  isFinite a.realizedBalance && isFinite a.remainingEntryCost && isFinite a.markedEquity
    && isFinite notional && isFinite a.signedUnits

/-- An inspection reports the settlement `r` that left the engine `e`. -/
structure SettlementInspection.Reports (i : SettlementInspection α) (e : Engine α) (r : Result α)
    (price fx : α) : Prop where
  status : i.status = .applied
  closedUnits : i.closedUnits = r.closedUnits
  openedUnits : i.openedUnits = r.openedUnits
  currentTicket : i.currentTicket = r.currentTicket
  lotCount : i.resultingLotCount = e.pyramidEntries.length
  absUnits : i.resultingAbsUnits = e.positionQty
  absNotional : i.resultingAbsNotional = e.notionalAt price fx

/-- A projection reports the settlement `r` that left the engine `e`: as applied and with exactly
the facts the engine holds when every amount among them is finite, and as invalid accounting when
one is not. -/
def AccountEffectProjection.Reports (p : AccountEffectProjection α) (e : Engine α) (r : Result α)
    (price fx : α) : Prop :=
  if (e.facts r price fx).finite (e.notionalAt price fx) then
    p.status = .applied ∧ p.facts = e.facts r price fx
  else p = invalidProjection .invalidAccounting

/-- A preview reports the settlement `r` that left the engine `e`, with the profits of its rows. -/
structure Preview.Reports (v : Preview α) (e : Engine α) (r : Result α) (price fx : α) : Prop where
  readiness : v.readiness = .applied
  account : v.account.Reports e r price fx
  rowPnl : v.rowPnl = (e.trades.drop r.firstTradeIndex).map (·.pnl)

section Facts

variable {e e' : Engine α} {s : Staged α} {fill : Fill α} {fx : α}
  {context : PhysicalExecutionContext α}

theorem After.openEntryCommission_eq {lot : PyramidEntry α} (ha : After e s lot e')
    (pe : PyramidEntry α) : openEntryCommission e' pe = openEntryCommission e pe := by
  obtain ⟨ht, hv, hx⟩ := ha.schedule
  simp only [openEntryCommission, calcCommission, calcCommissionAt, ht, hv, hx, ha.pointvalue]

theorem openEntryCommission_opened (hf : isFinite s.costs.opening = true) :
    openEntryCommission e (openedLot s.opening s.costs.opening fill context)
      = s.costs.opening := by
  simp [openEntryCommission, openedLot, hf]

theorem remaining_after (h : s.Sound e fill fx)
    (ha : After e s (openedLot s.opening s.costs.opening fill context) e') (realized : α) :
    sumFrom 0 (e'.pyramidEntries.map (openEntryCommission e'))
      = (s.projection e fill realized).remainingEntryCost := by
  rw [show openEntryCommission e' = openEntryCommission e from funext ha.openEntryCommission_eq,
    ha.lots]
  simp only [Staged.projection]
  cases s.opens
  · simp
  · simp [openEntryCommission_opened h.openCost]

variable [Lawful α]

theorem finite_of_sumFrom {start : α} {xs : List α} (h : isFinite (sumFrom start xs) = true) :
    isFinite start = true ∧ ∀ x ∈ xs, isFinite x = true := by
  induction xs generalizing start with
  | nil => exact ⟨h, fun _ h => (List.not_mem_nil h).elim⟩
  | cons x xs ih =>
    obtain ⟨hsum, hxs⟩ := ih h
    obtain ⟨hs, hx⟩ := Lawful.finite_of_add hsum
    refine ⟨hs, fun y hy => ?_⟩
    rcases List.mem_cons.1 hy with rfl | hy
    · exact hx
    · exact hxs y hy

theorem lots_after (h : s.Sound e fill fx)
    (ha : After e s (openedLot s.opening s.costs.opening fill context) e')
    (hqty : isFinite s.afterQty = true) : ∀ lot ∈ e'.pyramidEntries,
      isFinite lot.qty = true ∧ ¬ lot.qty ≤ 0 ∧ isFinite lot.price = true := by
  rw [h.afterQty] at hqty
  have hfin := (finite_of_sumFrom hqty).2
  intro lot hl
  rw [ha.lots] at hl
  rcases List.mem_append.1 hl with hl | hl
  · obtain ⟨hpos, hprice⟩ := h.survivors lot hl
    exact ⟨hfin _ (List.mem_append_left _ (List.mem_map_of_mem hl)), Lawful.not_le_of_pos hpos,
      hprice⟩
  · cases ho : s.opens with
    | false => simp [ho] at hl
    | true =>
      rw [ho, if_pos rfl, List.mem_singleton] at hl
      subst hl
      exact ⟨hfin _ (by simp [ho]),
        Lawful.not_le_of_pos (by simpa [Staged.opens] using ho), h.price⟩

omit [Lawful α] in
theorem side_after (h : s.Sound e fill fx)
    (ha : After e s (openedLot s.opening s.costs.opening fill context) e') :
    e'.positionSide = .flat ↔ e'.pyramidEntries = [] := by
  rw [ha.side, ha.lots, Staged.resultingSide]
  by_cases hs : s.survivors = []
  · cases ho : s.opens <;> simp [hs, h.incoming]
  · have hflat : e.positionSide ≠ .flat := fun hf => hs (h.survivors_of_flat hf)
    simp [hs, hflat]

theorem equity_after (h : s.Sound e fill fx)
    (ha : After e s (openedLot s.opening s.costs.opening fill context) e')
    (hqty : isFinite s.afterQty = true) (hfx : isFinite fx = true) :
    markedEquityAt e' fill.price fx
      = (s.projection e fill (e'.netProfitSum + e.initialCapital)).markedEquity := by
  have hlots := lots_after h ha hqty
  have hany : (e'.pyramidEntries.any fun lot => !isFinite lot.qty || decide (lot.qty ≤ 0)
      || !isFinite lot.price) = false := by
    rw [List.any_eq_false]
    intro lot hl
    obtain ⟨h1, h2, h3⟩ := hlots lot hl
    simp [h1, h2, h3]
  have hside : ¬ ((!isFinite fill.price) = true ∨ (!isFinite fx) = true
      ∨ (e'.positionSide = .flat) ≠ (e'.pyramidEntries = [])) := by
    simp [h.price, hfx, side_after h ha]
  rw [markedEquityAt, if_neg hside, hany]
  simp only [Bool.false_eq_true, if_false]
  rw [show openEntryCommission e' = openEntryCommission e from funext ha.openEntryCommission_eq,
    ha.lots, ha.side, ha.capital, ha.pointvalue, Lawful.add_comm e.initialCapital]
  simp only [Staged.projection, lotMark, h.rate]
  cases s.opens
  · simp
  · simp [openEntryCommission_opened h.openCost]

theorem facts_after (h : s.Sound e fill fx)
    (ha : After e s (openedLot s.opening s.costs.opening fill context) e')
    (hqty : isFinite s.afterQty = true) (hfx : isFinite fx = true) (rows : List (Trade α)) :
    (s.projection e fill (e'.netProfitSum + e.initialCapital)).facts
      = e'.facts (s.result e fill rows) fill.price fx := by
  have hcount : e'.pyramidEntries.length = s.resultingLotCount := by
    rw [ha.lots, Staged.resultingLotCount]
    cases s.opens <;> simp
  have hsigned : (s.projection e fill (e'.netProfitSum + e.initialCapital)).signedUnitsAfter
      = signedSide e'.positionSide e'.positionQty := by
    rw [ha.side, ha.qty]
    by_cases hs : s.survivors = []
    · cases ho : s.opens with
      | true => simp [Staged.projection, Staged.resultingLotCount, Staged.resultingSide, hs, ho]
      | false =>
        have : s.afterQty = 0 := by simp [h.afterQty, hs, ho]
        simp [Staged.projection, Staged.resultingLotCount, Staged.resultingSide, hs, ho, signedSide,
          this]
    · have : s.resultingLotCount ≠ 0 := by
        have := List.length_pos_of_ne_nil hs
        unfold Staged.resultingLotCount
        omega
      simp [Staged.projection, Staged.resultingSide, hs, this]
  have hcycle : (s.projection e fill (e'.netProfitSum + e.initialCapital)).cycleAfter
      = e'.positionCycleSeq := by
    rw [ha.cycle]
    simp [Staged.projection]
  simp only [AccountEffectProjection.facts, Engine.facts, hsigned, hcycle, hcount,
    ← equity_after h ha hqty hfx, ← remaining_after h ha, ha.capital]
  simp [Staged.projection, Staged.inspection, Staged.result, Lawful.add_comm e.initialCapital]

end Facts

/-! ## The readers against the run -/

theorem nextSums_finite {rows : List (Trade α)} {sums sums' : α × α × α}
    (h : nextSums rows sums = some sums') : ∀ t ∈ rows, closedRowAllFinite t = true := by
  induction rows generalizing sums with
  | nil => exact fun _ h => (List.not_mem_nil h).elim
  | cons t rows ih =>
    simp only [nextSums] at h
    split at h
    · cases h
    next ht =>
    intro u hu
    rcases List.mem_cons.1 hu with rfl | hu
    · simpa using ht
    · exact ih h u hu

theorem rowsBookable_finite {e : Engine α} {rows : List (Trade α)}
    (h : rowsBookable e rows = true) : ∀ t ∈ rows, closedRowAllFinite t = true := by
  unfold rowsBookable at h
  split at h
  · cases h
  · next hs => exact nextSums_finite hs

theorem addPnls_finite {rows : List (Trade α)} (h : ∀ t ∈ rows, closedRowAllFinite t = true)
    (balance : α) : addPnls rows balance = some (sumFrom balance (rows.map (·.pnl))) := by
  induction rows generalizing balance with
  | nil => rfl
  | cons t rows ih =>
    have ht := h t List.mem_cons_self
    simp only [closedRowAllFinite, Bool.and_eq_true] at ht
    obtain ⟨⟨⟨⟨⟨⟨⟨-, -⟩, -⟩, hp⟩, -⟩, -⟩, -⟩, hc⟩ := ht
    simp [addPnls, hp, hc, ih fun u hu => h u (List.mem_cons_of_mem _ hu)]

theorem refusals_eq {β : Type} (refused out : β) (a b c d f : Bool) :
    (if (!a) = true then refused
      else if (!b) = true ∨ (!c) = true ∨ (!true) = true ∨ (!true) = true then refused
      else if (!d) = true ∨ (!f) = true then refused else out)
      = if a && b && c && d && f then out else refused := by
  cases a <;> cases b <;> cases c <;> cases d <;> cases f <;> rfl

section Readers

variable [Lawful α] {e e' : Engine α} {s : Staged α} {fill : Fill α}
  {context : PhysicalExecutionContext α} {rows : List (Trade α)}

omit [Lawful α] in
theorem Staged.Sound.effective [Sane α] {fx : α} (h : s.Sound e fill fx) :
    ¬ ((s.closed == 0) = true ∧ (s.opening == 0) = true) := by
  rintro ⟨hc, ho⟩
  rcases h.effect with hne | hopens
  · exact Sane.not_pos_of_beq hc (h.closed hne)
  · exact Sane.not_pos_of_beq ho (by simpa [Staged.opens] using hopens)

theorem inspectStage_sound {fx : α} (h : s.Sound e fill fx) :
    inspectStage e (.ready s) fill = s.inspection e fill := by
  simp only [inspectStage, if_neg h.effective]

/-- The projection tells the book after. -/
theorem project_after (h : s.Sound e fill (contextFx e context))
    (hprep : prepareNativeSettlementCommit e (.ready s) fill context = .ok (.ok (s, rows)))
    (ha : After e s (openedLot s.opening s.costs.opening fill context) e')
    (hnet : e'.netProfitSum = sumFrom e.netProfitSum (rows.map (·.pnl))) :
    ∃ p, projectStage e (.ready s) fill = .ok p
      ∧ p.Reports e' (s.result e fill rows) fill.price (contextFx e context) := by
  obtain ⟨-, -, hrows, hcycle, hqty, -, hbook⟩ := prepare_ok hprep
  have hadd : addPnls (buildNativeSettlementCloseRows e s fill { accountFx := some s.fx })
      e.netProfitSum = some e'.netProfitSum := by
    rw [hnet, ← addPnls_finite (rowsBookable_finite hbook), hrows]
    exact addPnls_congr (closeRows_money (show contextFx e { accountFx := some s.fx }
      = contextFx e context from h.rate) s fill) _
  have heff := h.effective
  have hthrow : ¬ (s.opens = true ∧ (e.positionSide = .flat ∨ s.survivors = [])
      ∧ cycleExhausted e.nextPositionCycleSeq) := fun ⟨ho, hs, hx⟩ => hcycle ho hs hx
  have hsurv : (s.survivors.any fun lot => !isFinite lot.qty || decide (lot.qty ≤ 0)
      || !isFinite lot.price) = false := by
    rw [List.any_eq_false]
    intro lot hl
    obtain ⟨h1, h2, h3⟩ := lots_after h ha hqty lot (by rw [ha.lots]; simp [hl])
    simp [h1, h2, h3]
  have hreal : (s.projection e fill (e'.netProfitSum + e.initialCapital)).facts.realizedBalance
      = e'.netProfitSum + e.initialCapital := rfl
  have hnot : (s.projection e fill (e'.netProfitSum + e.initialCapital)).resultingAbsNotional
      = e'.notionalAt fill.price (contextFx e context) := by
    rw [Engine.notionalAt, ha.qty, ha.pointvalue, ← h.rate]
    rfl
  refine ⟨if (s.projection e fill (e'.netProfitSum + e.initialCapital)).facts.finite
      (e'.notionalAt fill.price (contextFx e context)) then
    s.projection e fill (e'.netProfitSum + e.initialCapital)
    else invalidProjection .invalidAccounting, ?_, ?_⟩
  · simp only [projectStage, if_neg heff, Staged.project, if_neg hthrow, hadd, hsurv,
      Bool.false_eq_true, if_false, hqty, h.ticket, AccountFacts.finite, ← hnot]
    rw [← apply_ite Except.ok, ← apply_ite Except.ok, ← apply_ite Except.ok]
    exact congrArg Except.ok (refusals_eq ..)
  · unfold AccountEffectProjection.Reports
    by_cases hfx : isFinite (contextFx e context) = true
    · rw [facts_after h ha hqty hfx rows]
      split
      · exact ⟨rfl, facts_after h ha hqty hfx rows⟩
      · rfl
    · -- the notional is not finite at a rate that is not
      have hn : isFinite (e'.notionalAt fill.price (contextFx e context)) = false := by
        by_contra hn
        rw [Bool.not_eq_false] at hn
        exact hfx (Lawful.finite_of_mul hn).2
      simp [AccountFacts.finite, hn]

end Readers

/-- The three readers of an execution, taken in `e` at its rate, report the settlement `r` that
left the engine `e'`. -/
structure Foretold (fused : Bool) (x : Execution α) (e : Engine α) (fill : Fill α)
    (context : PhysicalExecutionContext α) (r : Result α) (e' : Engine α) : Prop where
  inspection : ∃ i, inspectExecution fused x e fill (contextFx e context) = .ok i
    ∧ i.Reports e' r fill.price (contextFx e context)
  projection : ∃ p, projectExecution fused x e fill (contextFx e context) = .ok p
    ∧ p.Reports e' r fill.price (contextFx e context)
  preview : ∃ v, previewExecution fused x e fill context = .ok v
    ∧ v.Reports e' r fill.price (contextFx e context)

theorem readers_staged [Lawful α] {x : Execution α} {e e' : Engine α} {fill : Fill α}
    {lifecycle : LifecycleEffects} {context : PhysicalExecutionContext α} {r : Result α}
    (hrun : Settled x e fill lifecycle context (.ok r e')) (hr : r.status = .applied) :
    Foretold false x e fill context r e' := by
  cases hrun with
  | refused h => exact absurd hr h
  | @applied s rows l hstage hsound hprep hclear hext =>
    have hnone := Execution.stage_lifecycle hstage
    have hoff : OneLot.admits false x e fill none (contextFx e context) = .ok none := rfl
    have ha := (hsound.after (openedLot_qty s.opening s.costs.opening fill context)
      (openedLot_price ..)).withLedger l
    obtain ⟨p, hp, hrep⟩ := project_after hsound hprep ha hext.netProfitSum
    refine ⟨⟨s.inspection e fill, ?_, ?_⟩, ⟨p, ?_, hrep⟩,
      ⟨⟨.applied, p, rows.map (·.pnl)⟩, ?_, ?_⟩⟩
    · simp only [inspectExecution, hoff, hnone, bind, Except.bind, inspectStage_sound hsound]
      rfl
    · refine ⟨rfl, rfl, rfl, rfl, ?_, ha.qty.symm, ?_⟩
      · rw [ha.lots]
        simp only [Staged.inspection, Staged.resultingLotCount]
        cases s.opens <;> simp
      · rw [Engine.notionalAt, ha.qty, ha.pointvalue, ← hsound.rate]
        rfl
    · simp only [projectExecution, hoff, hnone, bind, Except.bind, hp]
    · simp only [previewExecution, hoff, hnone, bind, Except.bind, previewStage, hprep, hp,
        readinessOf]
      rfl
    · refine ⟨rfl, hrep, ?_⟩
      have htrades : ((bookAfter e s (openedLot s.opening s.costs.opening fill context)).withLedger
          l).trades = e.trades ++ rows := hext.trades
      simp [htrades, Staged.result]

theorem Foretold.of_staged [Sane α] (fused : Bool) {x : Execution α} {e e' : Engine α}
    {fill : Fill α} {context : PhysicalExecutionContext α} {r : Result α}
    (h : Foretold false x e fill context r e') : Foretold fused x e fill context r e' := by
  cases fused with
  | false => exact h
  | true =>
    refine ⟨?_, ?_, ?_⟩
    · rw [inspect_fused]; exact h.inspection
    · rw [project_fused]; exact h.projection
    · obtain ⟨v, hv, hrep⟩ := h.preview
      have hsame := preview_fused x e fill context
      rw [hv] at hsame
      cases hp : previewExecution true x e fill context with
      | error f => rw [hp] at hsame; cases hsame
      | ok w => rw [hp] at hsame; cases hsame; exact ⟨v, rfl, hrep⟩

theorem settle_settled_fused [Lawful α] (fused : Bool) (x : Execution α) (e : Engine α)
    (fill : Fill α) (lifecycle : LifecycleEffects) (context : PhysicalExecutionContext α) :
    ∃ staged, Settled x e fill lifecycle context staged
      ∧ OneLot.SameRun (settleExecution fused x fill lifecycle context e) staged := by
  refine ⟨_, settle_settled x e fill lifecycle context, ?_⟩
  cases fused with
  | false => exact OneLot.SameRun.refl _
  | true => exact settle_fused x e fill lifecycle context

/-- **Projection equals settlement.** When an execution settles as applied, the inspection, the
projection and the preview taken just before it, at its rate, report what the engine holds right
after, with or without the fused pass; and a settlement that is not applied, or throws, leaves the
engine as it was. -/
theorem settle_eq_projection [Lawful α] (fused : Bool) (x : Execution α) (e : Engine α)
    (fill : Fill α) (lifecycle : LifecycleEffects) (context : PhysicalExecutionContext α) :
    (∀ r e', settleExecution fused x fill lifecycle context e = .ok r e' → r.status = .applied →
      Foretold fused x e fill context r e')
    ∧ (∀ r e', settleExecution fused x fill lifecycle context e = .ok r e' →
      r.status ≠ .applied → e' = e)
    ∧ (∀ f e', settleExecution fused x fill lifecycle context e = .error f e' → e' = e) := by
  obtain ⟨staged, hstaged, hsame⟩ := settle_settled_fused fused x e fill lifecycle context
  refine ⟨fun r e' hrun hr => ?_, fun r e' hrun hr => ?_, fun f e' hrun => ?_⟩
  · rw [hrun] at hsame
    cases staged with
    | error => cases hsame
    | ok r' e'' =>
      obtain ⟨rfl, rfl⟩ := hsame
      exact Foretold.of_staged fused (readers_staged hstaged hr)
  · rw [hrun] at hsame
    cases hstaged with
    | threw => cases hsame
    | refused => exact hsame.2
    | applied => exact absurd (congrArg Result.status hsame.1) hr
  · rw [hrun] at hsame
    cases hstaged with
    | threw => exact hsame.2
    | refused => cases hsame
    | applied => cases hsame

/-- The status a settlement returned, if it did not throw. -/
def settledStatus (run : EStateM.Result Failure (Engine α) (Result α)) : Option Status :=
  match run with
  | .ok r _ => some r.status
  | .error _ _ => none

omit [Arith α] in
theorem settledStatus_some {run : EStateM.Result Failure (Engine α) (Result α)} {status : Status}
    (h : settledStatus run = some status) : ∃ r e', run = .ok r e' ∧ r.status = status := by
  cases run with
  | ok r e' => exact ⟨r, e', rfl, by simpa [settledStatus] using h⟩
  | error f e' => cases h

/-- The reversal of one lot settles as applied in binary64, and is foretold. -/
theorem settle_eq_projection_reversal :
    ∃ r e', settleExecution true (.reverse (-1)) Fill.atOne {} {} (Engine.oneLong (α := Float))
        = .ok r e' ∧ r.status = .applied
      ∧ Foretold true (.reverse (-1)) Engine.oneLong Fill.atOne {} r e' := by
  obtain ⟨r, e', hrun, hr⟩ := settledStatus_some (show settledStatus (settleExecution true
    (.reverse (-1)) Fill.atOne {} {} (Engine.oneLong (α := Float)))
      = some .applied by decide +kernel)
  exact ⟨r, e', hrun, hr, (settle_eq_projection ..).1 r e' hrun hr⟩

/-- A finite price and a finite quantity whose notional is beyond the largest double. -/
def wide : Float := Float.ofBits 0x6550000000000000

/-- An opening whose notional overflows settles as applied, and its projection is refused. -/
theorem projection_refuses_applied :
    settledStatus (settleExecution true (.act (.transact wide) .book none)
        { price := wide, id := "L", comment := "" } {} {}
        { Engine.initial 1000000 with commissionType := .cashPerContract }) = some .applied
      ∧ (projectExecution true (.act (.transact wide) .book none)
        { Engine.initial 1000000 with commissionType := .cashPerContract }
        { price := wide, id := "L", comment := "" } 1).map (·.status) = .ok .invalidAccounting := by
  decide +kernel

end PineForge.Settlement
