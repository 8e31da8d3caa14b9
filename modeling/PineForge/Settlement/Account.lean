import PineForge.Settlement.Conservation
import PineForge.Machine.Runs

/-!
# The account over a run

A host settles one execution after another, and what it reads between them is one account. `Account`
is that account without lots: cash, and the signed units it holds. Every run of settlements follows
it, whichever lots each close took, with or without the fused pass, and whatever was refused or
thrown in between.
-/

namespace PineForge.Settlement

open Arith

/-! ## The account -/

/-- Cash, the signed units held, and the units opened so far. -/
structure Account where
  cash : ℚ
  units : ℚ
  opened : ℚ

/-- What a settlement executed: the units it opened, signed, those it closed, its price and its
ticket. -/
structure Executed where
  opened : ℚ
  closed : ℚ
  price : ℚ
  ticket : ℚ

namespace Account

variable (rate : ℚ)

/-- The worth of an account at a price, where a unit is worth `rate` a point. -/
def worth (a : Account) (price : ℚ) : ℚ := a.cash + a.units * price * rate

/-- Pay for the units and the ticket. -/
def trade (a : Account) (x : Executed) : Account where
  cash := a.cash - (x.opened + x.closed) * x.price * rate - x.ticket
  units := a.units + (x.opened + x.closed)
  opened := a.opened + |x.opened|

/-- One execution, or none. -/
inductive Step (a : Account) : Option Executed → Account → Prop
  | traded (x : Executed) : Step a (some x) (a.trade rate x)
  | none : Step a none a

end Account

/-! ## Runs of settlements -/

/-- One call of a settlement entry at a rate, with what it executed when it was applied. -/
inductive Settles (fx : ℚ) (e : Engine ℚ) : Option Executed → Engine ℚ → Prop
  | applied {fused : Bool} {x : Execution ℚ} {fill : Fill ℚ} {lifecycle : LifecycleEffects}
      {context : PhysicalExecutionContext ℚ} {r : Result ℚ} {e' : Engine ℚ}
        (hfx : contextFx e context = fx)
      (hrun : settleExecution fused x fill lifecycle context e = .ok r e') (hr : r.status
        = .applied) :
      Settles fx e (some ⟨r.openedUnits,
        -signedSide e.positionSide ((e'.trades.drop r.firstTradeIndex).map (·.qty)).sum, fill.price,
          r.currentTicket⟩) e'
  | refused {fused : Bool} {x : Execution ℚ} {fill : Fill ℚ} {lifecycle : LifecycleEffects}
      {context : PhysicalExecutionContext ℚ} {r : Result ℚ} {e' : Engine ℚ}
      (hrun : settleExecution fused x fill lifecycle context e = .ok r e')
        (hr : r.status ≠ .applied) :
      Settles fx e none e'
  | threw {fused : Bool} {x : Execution ℚ} {fill : Fill ℚ} {lifecycle : LifecycleEffects}
      {context : PhysicalExecutionContext ℚ} {f : Failure} {e' : Engine ℚ}
      (hrun : settleExecution fused x fill lifecycle context e = .error f e') : Settles fx e none e'

/-- The engine before its first fill, whatever its configuration. -/
structure Engine.Fresh (e : Engine ℚ) : Prop where
  side : e.positionSide = .flat
  lots : e.pyramidEntries = []
  qty : e.positionQty = 0
  price : e.positionEntryPrice = 0
  trades : e.trades = []
  net : e.netProfitSum = 0
  tolerance : 0 ≤ e.nativeQuantityTolerance

/-- An engine keeps an account: its book is valid and summed up, every opened unit is in a closed
row or still held, and its equity, marked at any price, is what the account is worth there. -/
structure Engine.Keeps (fx rate : ℚ) (e : Engine ℚ) (a : Account) : Prop where
  tolerance : 0 ≤ e.nativeQuantityTolerance
  rated : e.pointvalue * fx = rate
  side : e.positionSide = .flat ↔ e.pyramidEntries = []
  lots : LotsValid e.pyramidEntries
  qty : e.positionQty = (e.pyramidEntries.map (·.qty)).sum
  price : e.positionEntryPrice
    = (e.pyramidEntries.map fun lot => lot.price * lot.qty).sum / (e.pyramidEntries.map (·.qty)).sum
  units : e.signedUnits = a.units
  opened : a.opened = (e.trades.map (·.qty)).sum + (e.pyramidEntries.map (·.qty)).sum
  net : e.netProfitSum = (e.trades.map (·.pnl)).sum
  worth : ∀ price, markedEquityAt e price fx = a.worth rate price

section Step

variable {e e' : Engine ℚ} {fill : Fill ℚ} {fx : ℚ} {s : Staged ℚ} {x : Execution ℚ}
  {lot : PyramidEntry ℚ} {context : PhysicalExecutionContext ℚ} {rate : ℚ} {a : Account}

theorem markedEquityAt_move (hside : e.positionSide = .flat ↔ e.pyramidEntries = [])
    (hv : LotsValid e.pyramidEntries) (price other : ℚ) :
    markedEquityAt e other fx = markedEquityAt e price fx + e.signedUnits * (other - price)
      * (e.pointvalue * fx) := by
  have hmarks : ∀ lots : List (PyramidEntry ℚ), (lots.map (e.markOf other fx)).sum
      = (lots.map (e.markOf price fx)).sum
        + signedSide e.positionSide (lots.map (·.qty)).sum * (other - price)
          * (e.pointvalue * fx) := by
    intro lots
    induction lots with
    | nil => simp [signedSide]
    | cons lot lots ih =>
      simp only [List.map_cons, List.sum_cons, ih, signedSide_add]
      unfold Engine.markOf signedSide
      split_ifs <;> ring
  rw [markedEquityAt_eq hside hv, markedEquityAt_eq hside hv, hmarks, Engine.signedUnits]
  ring

theorem Readies.beside (h : Readies e fill fx x s) (hopens : s.opens = true)
    (hsurv : s.survivors ≠ []) : s.incoming = e.positionSide := by
  have hsound := h.sound
  have hpos : 0 < s.opening := by simpa [Staged.opens] using hopens
  cases h with
  | @act action scope selected held sel a _ hfill hbook hsel hfin hreq hne hlots hplan halloc hflip
    hdraft hdone =>
    simp only [Staged.draft, Draft.mk.injEq] at hdraft
    obtain ⟨-, hin, -, -, hopening, -, hkept⟩ := hdraft
    rw [hopening] at hpos
    by_contra hside
    have hflat : e.positionSide ≠ .flat := fun hf => hsurv (hsound.survivors_of_flat hf)
    have htransact : action.isTransact = true := by
      by_contra hnot
      rw [Bool.not_eq_true] at hnot
      simp [Action.opening, hnot] at hpos
    have hop : opposes e action = true :=
      opposes_iff.2 ⟨htransact, hflat, fun heq => hside (hin.trans heq.symm)⟩
    exact hsurv (hkept.trans (hflip hpos hop))
  | @reverse signedUnits held a _ hfill hbook hfin hne hflat hopp halloc hsum hdraft hdone =>
    simp only [Staged.draft, Draft.mk.injEq] at hdraft
    obtain ⟨-, -, -, -, -, -, hkept⟩ := hdraft
    obtain ⟨b, hw, rfl⟩ := allocate_walk halloc
    exact absurd (hkept.trans (allocateFrom_whole (a := b) hw (validateBook hbook).2.1 rfl
      (fun _ => rfl) rfl)) hsurv

/-- A settlement moves the signed units. -/
theorem signedUnits_after {taken : List (PyramidEntry ℚ × ℚ)} (hready : Readies e fill fx x s)
    (htakes : s.Takes x e taken) (ha : After e s lot e') (hlot : lot.qty = s.opening) :
    e'.signedUnits = e.signedUnits
      + (s.openedUnits + -signedSide e.positionSide (taken.map (·.2)).sum) := by
  have hsum : (e'.pyramidEntries.map (·.qty)).sum
      = (s.survivors.map (·.qty)).sum + if s.opens then s.opening else 0 := by
    rw [ha.lots]
    cases s.opens <;> simp [hlot]
  have hnone : s.opens = false → s.openedUnits = 0 := by
    intro ho
    have hzero : s.opening = 0 := le_antisymm (by simpa [Staged.opens] using ho) htakes.opening
    simp [Staged.openedUnits, hzero]
  rw [Engine.signedUnits, Engine.signedUnits, hsum, ha.side, htakes.fifo.units, signedSide_add,
    signedSide_add]
  unfold Staged.resultingSide
  by_cases hsurv : s.survivors = []
  · cases ho : s.opens with
    | true =>
      simp only [hsurv, ne_eq, not_true_eq_false, if_false, if_true, List.map_nil, List.sum_nil]
      rw [show s.openedUnits = signedSide s.incoming s.opening from rfl]
      simp [signedSide]
    | false => simp [hsurv, hnone ho, signedSide]
  · rw [if_pos hsurv]
    cases ho : s.opens with
    | true =>
      rw [show s.openedUnits = signedSide s.incoming s.opening from rfl,
        hready.beside ho hsurv, if_pos rfl]
      ring
    | false =>
      rw [hnone ho]
      simp [signedSide]

theorem bookAfter_tolerance (e : Engine ℚ) (s : Staged ℚ) (lot : PyramidEntry ℚ) :
    (bookAfter e s lot).nativeQuantityTolerance = e.nativeQuantityTolerance := by
  unfold bookAfter closeBook
  split_ifs <;> rfl

/-- **A committed stage trades on the account.** -/
theorem Engine.Keeps.commit {rows : List (Trade ℚ)} {l : Ledger ℚ}
    (h : e.Keeps (contextFx e context) rate a)
    (hready : Readies e fill (contextFx e context) x s)
    (hrows : rows = buildNativeSettlementCloseRows e s fill context)
    (hext : e.ledger.Extends l rows) :
    ((bookAfter e s (openedLot s.opening s.costs.opening fill context)).withLedger l).Keeps
    (contextFx e context) rate
      (a.trade rate ⟨s.openedUnits,
        -signedSide e.positionSide ((l.trades.drop e.trades.length).map (·.qty)).sum,
        fill.price, s.ticket⟩) := by
  have hsound := hready.sound
  obtain ⟨taken, htakes⟩ := hready.takes h.tolerance
  obtain ⟨_, kept, opened, hc⟩ := stage_conserves hready h.tolerance hrows hext
  have ha := (hsound.after (openedLot_qty s.opening s.costs.opening fill context)
    (openedLot_price ..)).withLedger l
  have htrades : l.trades = e.trades ++ rows := hext.trades
  have hdrop : l.trades.drop e.trades.length = rows := by rw [htrades, List.drop_left]
  have hlen : s.costs.rows.length = taken.length := by rw [hsound.rows, htakes.names.length_eq]
  have hcloses : List.Forall₂ Trade.Closes rows taken :=
    (hrows.trans (closeRows_zip htakes.names)) ▸ closedRows_closes hlen
  have hunits := signedUnits_after hready htakes ha (openedLot_qty ..)
  have hnet := hext.netProfitSum
  rw [rat_sumFrom] at hnet
  have hv : LotsValid ((bookAfter e s (openedLot s.opening s.costs.opening fill context)).withLedger
      l).pyramidEntries :=
    fun lot hl => ⟨not_le.1 (lots_after hsound ha rfl lot hl).2.1, rfl⟩
  have hside := side_after hsound ha
  rw [← Closes.units hcloses, ← hdrop] at hunits
  refine ⟨?_, ?_, hside, hv, hc.positionQty, hc.positionEntryPrice, ?_, ?_, ?_, fun price => ?_⟩
  · exact (bookAfter_tolerance ..).symm ▸ h.tolerance
  · rw [ha.pointvalue, h.rated]
  · rw [hunits, h.units]
    rfl
  · have hbook := congrArg (fun lots => (lots.map (·.qty)).sum) hc.book
    have hlots := hc.units
    simp only [List.map_append, List.sum_append, hc.openedUnits] at hbook
    change _ = (kept.map _).sum + ((l.trades.drop e.trades.length).map _).sum at hlots
    change a.opened + |s.openedUnits| = (l.trades.map _).sum + _
    rw [hbook, h.opened, hlots, hdrop, htrades, List.map_append, List.sum_append]
    change _ = _ + (_ + |s.openedUnits|)
    ring
  · change l.netProfitSum = (l.trades.map _).sum
    rw [hnet, htrades, List.map_append, List.sum_append, ← h.net]
    rfl
  · have hequity := hc.equity
    rw [h.worth] at hequity
    rw [markedEquityAt_move hside hv fill.price price, hequity, hunits, h.units,
      ha.pointvalue, h.rated]
    unfold Account.worth Account.trade
    change _ - s.ticket + _ = _
    ring

theorem Engine.Keeps.settles {executed : Option Executed} (h : e.Keeps fx rate a)
    (hstep : Settles fx e executed e') :
    ∃ b, Account.Step rate a executed b ∧ e'.Keeps fx rate b := by
  cases hstep with
  | @applied fused x fill lifecycle context r _ hfx hrun hr =>
    subst hfx
    obtain ⟨staged, hstaged, hsame⟩ := settle_settled_fused fused x e fill lifecycle context
    rw [hrun] at hsame
    cases hstaged with
    | threw => cases hsame
    | refused hne => exact absurd ((congrArg Result.status hsame.1).symm.trans hr) hne
    | applied hstage hsound hprep hclear hext =>
      obtain ⟨rfl, rfl⟩ := hsame
      exact ⟨_, .traded _, h.commit (Execution.stage_readies hstage) (prepare_ok hprep).2.2.1 hext⟩
  | @refused fused x fill lifecycle context r _ hrun hr =>
    obtain ⟨staged, hstaged, hsame⟩ := settle_settled_fused fused x e fill lifecycle context
    rw [hrun] at hsame
    cases hstaged with
    | threw => cases hsame
    | refused => exact ⟨a, .none, hsame.2 ▸ h⟩
    | applied => exact absurd (congrArg Result.status hsame.1) hr
  | @threw fused x fill lifecycle context f _ hrun =>
    obtain ⟨staged, hstaged, hsame⟩ := settle_settled_fused fused x e fill lifecycle context
    rw [hrun] at hsame
    cases hstaged with
    | threw => exact ⟨a, .none, hsame.2 ▸ h⟩
    | refused => cases hsame
    | applied => cases hsame

theorem Engine.Fresh.keeps (h : e.Fresh) (fx : ℚ) :
    e.Keeps fx (e.pointvalue * fx) ⟨e.initialCapital, 0, 0⟩ := by
  have hside : e.positionSide = .flat ↔ e.pyramidEntries = [] := ⟨fun _ => h.lots, fun _ => h.side⟩
  have hv : LotsValid e.pyramidEntries := by
    rw [h.lots]
    exact fun _ hl => absurd hl List.not_mem_nil
  refine ⟨h.tolerance, rfl, hside, hv, ?_, ?_, ?_, ?_, ?_, fun price => ?_⟩
  · simp [h.lots, h.qty]
  · simp [h.lots, h.price]
  · simp [Engine.signedUnits, h.lots, h.side, signedSide]
  · simp [h.lots, h.trades]
  · simp [h.trades, h.net]
  · simp [markedEquityAt_eq hside hv, h.lots, h.net, Account.worth]

end Step

/-- Over every run of settlements at one rate from a fresh engine, with its refusals and throws, the
engine keeps the account that paid for each applied call what it executed: its book is valid and
summed up, every opened unit is in a closed row or still held, the realized profit is that of the
rows, and its equity, marked at any price, is the worth of the account. -/
theorem account_of_run {start e : Engine ℚ} {fx : ℚ} {calls : List (Option Executed)}
    (hfresh : start.Fresh)
    (hrun : Runs (Settles fx) start calls e) :
    ∃ a, Runs (Account.Step (start.pointvalue * fx)) ⟨start.initialCapital, 0, 0⟩ calls a ∧
      e.Keeps fx (start.pointvalue * fx) a :=
  hrun.simulates _ (fun h hstep => h.settles hstep) (hfresh.keeps fx)

/-- The engine a settlement leaves. -/
def settledEngine (run : EStateM.Result Failure (Engine ℚ) (Result ℚ)) : Engine ℚ :=
  match run with
  | .ok _ e => e
  | .error _ e => e

/-- Three units are bought, and two of them sold at a higher price. -/
theorem account_of_run_sold : ∃ r e' r' e'' a,
    settleExecution true (.act (.transact 3) .book none) Fill.pinned {} {} (Engine.initial 100)
      = .ok r e' ∧
      settleExecution false (.act (.reduce 2) .book none) { Fill.pinned with price := 5 } {} {} e'
        = .ok r' e'' ∧
      r.status = .applied ∧ r'.status = .applied ∧ e''.Keeps 1 1 a := by
  obtain ⟨r, e', hrun, hr⟩ := settledStatus_some (show settledStatus (settleExecution true
    (.act (.transact 3) .book none) Fill.pinned {} {} (Engine.initial (100 : ℚ)))
      = some .applied by decide +kernel)
  have hsold : settledStatus
    (settleExecution false (.act (.reduce 2) .book none) { Fill.pinned with price := 5 } {} {}
      (settledEngine (settleExecution true (.act (.transact 3) .book none) Fill.pinned {} {}
        (Engine.initial (100 : ℚ)))))
        = some .applied := by decide +kernel
  have hfx : contextFx (settledEngine
    (settleExecution true (.act (.transact 3) .book none) Fill.pinned {} {}
      (Engine.initial (100 : ℚ)))) {} = 1 := by decide +kernel
  rw [hrun] at hsold hfx
  obtain ⟨r', e'', hrun', hr'⟩ := settledStatus_some hsold
  have hfresh : (Engine.initial (100 : ℚ)).Fresh := ⟨rfl, rfl, rfl, rfl, rfl, rfl, le_rfl⟩
  have hbuys : Settles 1 (Engine.initial (100 : ℚ)) _ e' := .applied rfl hrun hr
  have hsells : Settles 1 e' _ e'' := .applied hfx hrun' hr'
  obtain ⟨a, -, hkeeps⟩ := account_of_run hfresh (.snoc (.snoc .nil hbuys) hsells)
  rw [show (Engine.initial (100 : ℚ)).pointvalue * 1 = 1 from mul_one _] at hkeeps
  exact ⟨r, e', r', e'', a, hrun, hrun', hr, hr', hkeeps⟩

end PineForge.Settlement
