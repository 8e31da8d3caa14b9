import PineForge.Settlement.Sound

/-!
# What a commit does

`commit_ok`: once the preparation and the counters passed, the commit of a sound stage does not
throw, and leaves the engine of `bookAfter` with a longer ledger. The ledger of an engine is what
recording a closed row changes; it holds nothing of the position or of the configuration.
-/

namespace PineForge.Settlement

open Arith

variable {α : Type} [Arith α]

/-! ## The ledger of an engine -/

/-- The rows, the account sums, the counters and the observed actions. -/
structure Ledger (α : Type) where
  trades : List (Trade α)
  netProfitSum : α
  grossProfitSum : α
  grossLossSum : α
  netProfitRoundoffBound : α
  netProfitRoundoffValue : α
  winTradesCount : Int
  lossTradesCount : Int
  eventradesCount : Int
  streamActionSequence : Nat
  streamOrderActions : List (StreamOrderAction α)

/-- The ledger of an engine. -/
def Engine.ledger (e : Engine α) : Ledger α where
  trades := e.trades
  netProfitSum := e.netProfitSum
  grossProfitSum := e.grossProfitSum
  grossLossSum := e.grossLossSum
  netProfitRoundoffBound := e.netProfitRoundoffBound
  netProfitRoundoffValue := e.netProfitRoundoffValue
  winTradesCount := e.winTradesCount
  lossTradesCount := e.lossTradesCount
  eventradesCount := e.eventradesCount
  streamActionSequence := e.streamActionSequence
  streamOrderActions := e.streamOrderActions

/-- The engine with another ledger. -/
def Engine.withLedger (e : Engine α) (l : Ledger α) : Engine α :=
  { e with
    trades := l.trades
    netProfitSum := l.netProfitSum
    grossProfitSum := l.grossProfitSum
    grossLossSum := l.grossLossSum
    netProfitRoundoffBound := l.netProfitRoundoffBound
    netProfitRoundoffValue := l.netProfitRoundoffValue
    winTradesCount := l.winTradesCount
    lossTradesCount := l.lossTradesCount
    eventradesCount := l.eventradesCount
    streamActionSequence := l.streamActionSequence
    streamOrderActions := l.streamOrderActions }

/-- A ledger has room for rows: each counter for its rows, and the sequence for every event. -/
structure Ledger.Room (l : Ledger α) (observes : Bool) (rows : List (Trade α)) (events : Nat) :
    Prop where
  counters : countersFit l.winTradesCount l.lossTradesCount l.eventradesCount rows = true
  sequence : observes = true → events = 0 ∨ l.streamActionSequence + events ≤ uint64Max

/-- The ledger after one more row. -/
structure Ledger.Extends (l l' : Ledger α) (rows : List (Trade α)) : Prop where
  trades : l'.trades = l.trades ++ rows
  netProfitSum : l'.netProfitSum = sumFrom l.netProfitSum (rows.map (·.pnl))

/-! ## Recording rows -/

theorem countersFit_of_room {wins losses evens : Int} {rows : List (Trade α)}
    (hw : wins ≤ intMax - rows.length) (hl : losses ≤ intMax - rows.length)
    (he : evens ≤ intMax - rows.length) : countersFit wins losses evens rows = true := by
  induction rows generalizing wins losses evens with
  | nil => rfl
  | cons t rows ih =>
    simp only [List.length_cons, Nat.cast_add, Nat.cast_one] at hw hl he
    have hn : (0 : Int) ≤ rows.length := Int.natCast_nonneg _
    simp only [countersFit]
    rw [if_neg (by split_ifs <;> omega)]
    exact ih (by split_ifs <;> omega) (by split_ifs <;> omega) (by split_ifs <;> omega)

theorem countersFit_of_validate {e : Engine α} {rows : List (Trade α)}
    (h : validateCloseTradeCounters e rows = .ok ()) :
    countersFit e.winTradesCount e.lossTradesCount e.eventradesCount rows = true := by
  simp only [validateCloseTradeCounters] at h
  split at h
  · next hr => exact countersFit_of_room hr.2.1 hr.2.2.1 hr.2.2.2
  · split at h
    · next hf => exact hf
    · cases h

theorem validate_of_countersFit {e : Engine α} {rows : List (Trade α)}
    (h : countersFit e.winTradesCount e.lossTradesCount e.eventradesCount rows = true) :
    validateCloseTradeCounters e rows = .ok () := by
  simp only [validateCloseTradeCounters, h, if_true]
  split <;> rfl

theorem countersFit_cons {wins losses evens : Int} {t : Trade α} {rows : List (Trade α)}
    (h : countersFit wins losses evens (t :: rows) = true) :
    countersFit wins losses evens [t] = true
      ∧ countersFit (if 0 < t.pnl then wins + 1 else wins)
        (if ¬ 0 < t.pnl ∧ t.pnl < 0 then losses + 1 else losses)
        (if ¬ 0 < t.pnl ∧ ¬ t.pnl < 0 then evens + 1 else evens) rows = true := by
  rw [countersFit] at h
  by_cases hn : intMax < (if 0 < t.pnl then wins + 1 else wins)
      ∨ intMax < (if ¬ 0 < t.pnl ∧ t.pnl < 0 then losses + 1 else losses)
      ∨ intMax < (if ¬ 0 < t.pnl ∧ ¬ t.pnl < 0 then evens + 1 else evens)
  · simp only [if_pos hn, Bool.false_eq_true] at h
  · simp only [if_neg hn] at h
    exact ⟨by simp only [countersFit, if_neg hn], h⟩

theorem bookPnl_ledger (e : Engine α) (pnl : α) :
    bookPnl e pnl = e.withLedger (bookPnl e pnl).ledger := by
  unfold bookPnl
  split
  · rfl
  · split <;> rfl

theorem bookPnl_sums (e : Engine α) (pnl : α) :
    (bookPnl e pnl).trades = e.trades ∧ (bookPnl e pnl).netProfitSum = e.netProfitSum + pnl
      ∧ (bookPnl e pnl).streamActionSequence = e.streamActionSequence
      ∧ (bookPnl e pnl).winTradesCount = (if 0 < pnl then e.winTradesCount + 1
        else e.winTradesCount)
      ∧ (bookPnl e pnl).lossTradesCount = (if ¬ 0 < pnl ∧ pnl < 0 then e.lossTradesCount + 1
        else e.lossTradesCount)
      ∧ (bookPnl e pnl).eventradesCount = (if ¬ 0 < pnl ∧ ¬ pnl < 0 then e.eventradesCount + 1
        else e.eventradesCount) := by
  unfold bookPnl
  by_cases hp : 0 < pnl
  · simp [hp]
  · by_cases hn : pnl < 0 <;> simp [hp, hn]

/-- A recorded trade fits the room it had. -/
theorem recordCloseTrade_ok {e : Engine α} {t : Trade α} {rows : List (Trade α)} {events : Nat}
    (h : e.ledger.Room e.streamObserveActions (t :: rows) (events + 1)) :
    ∃ l, recordCloseTrade t e = .ok () (e.withLedger l) ∧ e.ledger.Extends l [t]
      ∧ l.Room e.streamObserveActions rows events := by
  obtain ⟨hone, hrest⟩ := countersFit_cons h.counters
  have hval : validateCloseTradeCounters e [t] = .ok () := validate_of_countersFit hone
  let e₁ : Engine α := { e with trades := e.trades ++ [t] }
  let e₂ : Engine α := if e.streamObserveActions then
    pushAction e₁ (exitAction e₁ t (e₁.trades.length - 1)) else e₁
  have hrun : recordCloseTrade t e = .ok () (bookPnl e₂ t.pnl) := by
    unfold recordCloseTrade
    simp only [EngineM.run_bind, EngineM.check, hval, EngineM.run_modify, EngineM.run_get]
    cases hob : e.streamObserveActions with
    | false => simp only [e₂, e₁, hob, Bool.false_eq_true, if_false]; rfl
    | true =>
      have hseq : e.streamActionSequence ≠ uint64Max := by
        rcases h.sequence hob with h | h
        · omega
        · have : e.ledger.streamActionSequence = e.streamActionSequence := rfl
          omega
      simp only [e₂, e₁, hob, if_true, streamObserveExit, streamObserve, EngineM.run_bind,
        EngineM.run_get, hseq, if_false]
      rfl
  have he₂ : e₂ = e.withLedger e₂.ledger := by
    simp only [e₂]
    split <;> rfl
  obtain ⟨htr, hnet, hseq, hwin, hloss, heven⟩ := bookPnl_sums e₂ t.pnl
  have hsums : e₂.trades = e.trades ++ [t] ∧ e₂.netProfitSum = e.netProfitSum
      ∧ e₂.winTradesCount = e.winTradesCount ∧ e₂.lossTradesCount = e.lossTradesCount
      ∧ e₂.eventradesCount = e.eventradesCount ∧ e₂.streamActionSequence
        = (if e.streamObserveActions then e.streamActionSequence + 1
          else e.streamActionSequence) := by
    simp only [e₂]
    split <;> exact ⟨rfl, rfl, rfl, rfl, rfl, rfl⟩
  obtain ⟨htr₂, hnet₂, hwin₂, hloss₂, heven₂, hseq₂⟩ := hsums
  refine ⟨(bookPnl e₂ t.pnl).ledger, ?_, ⟨?_, ?_⟩, ?_, ?_⟩
  · have hled : bookPnl e₂ t.pnl = e.withLedger (bookPnl e₂ t.pnl).ledger :=
      (bookPnl_ledger e₂ t.pnl).trans
        (congrArg (·.withLedger (bookPnl e₂ t.pnl).ledger) he₂)
    exact hrun.trans (congrArg (EStateM.Result.ok ()) hled)
  · exact htr.trans htr₂
  · change (bookPnl e₂ t.pnl).netProfitSum = e.netProfitSum + t.pnl
    rw [hnet, hnet₂]
  · change countersFit (bookPnl e₂ t.pnl).winTradesCount (bookPnl e₂ t.pnl).lossTradesCount
      (bookPnl e₂ t.pnl).eventradesCount rows = true
    rw [hwin, hloss, heven, hwin₂, hloss₂, heven₂]
    exact hrest
  · intro hob
    change events = 0 ∨ (bookPnl e₂ t.pnl).streamActionSequence + events ≤ uint64Max
    rw [hseq, hseq₂, if_pos hob]
    rcases h.sequence hob with h | h
    · omega
    · right
      have : e.ledger.streamActionSequence = e.streamActionSequence := rfl
      omega

theorem Ledger.Extends.append {l l' l'' : Ledger α} {rows rows' : List (Trade α)}
    (h : l.Extends l' rows) (h' : l'.Extends l'' rows') : l.Extends l'' (rows ++ rows') where
  trades := by rw [h'.trades, h.trades, List.append_assoc]
  netProfitSum := by rw [h'.netProfitSum, h.netProfitSum, List.map_append, sumFrom_append]

theorem recordCloseTrades_ok {e : Engine α} {rows : List (Trade α)} {events : Nat}
    (h : e.ledger.Room e.streamObserveActions rows (rows.length + events)) :
    ∃ l, recordCloseTrades rows e = .ok () (e.withLedger l) ∧ e.ledger.Extends l rows
      ∧ l.Room e.streamObserveActions [] events := by
  induction rows generalizing e with
  | nil => exact ⟨e.ledger, rfl, ⟨by simp, rfl⟩, rfl, by simpa using h.sequence⟩
  | cons t rows ih =>
    have h' : e.ledger.Room e.streamObserveActions (t :: rows) (rows.length + events + 1) := by
      have : (t :: rows).length + events = rows.length + events + 1 := by
        simp only [List.length_cons]; omega
      rwa [this] at h
    obtain ⟨l, hrun, hext, hroom⟩ := recordCloseTrade_ok h'
    obtain ⟨l', hrun', hext', hroom'⟩ := ih (e := e.withLedger l) hroom
    refine ⟨l', ?_, ?_, hroom'⟩
    · simp only [recordCloseTrades, EngineM.run_bind, hrun, hrun']
      rfl
    · exact hext.append hext'

/-! ## The opened lot -/

/-- The engine after the closes and the opening of a stage. -/
def bookAfter (e : Engine α) (s : Staged α) (lot : PyramidEntry α) : Engine α :=
  if s.opens then
    if (closeBook e s).positionSide = .flat then installPosition (closeBook e s) s.incoming lot
    else installLot (closeBook e s) lot s.afterQty s.afterPrice
  else closeBook e s

theorem closeBook_withLedger (e : Engine α) (s : Staged α) (l : Ledger α) :
    closeBook (e.withLedger l) s = (closeBook e s).withLedger l := by
  by_cases hc : 0 < s.closed
  · by_cases hs : s.survivors = []
    · simp only [closeBook, if_pos hc, if_pos hs]; rfl
    · simp only [closeBook, if_pos hc, if_neg hs, Engine.withLedger]
  · simp only [closeBook, if_neg hc]

theorem closeBook_observes (e : Engine α) (s : Staged α) :
    (closeBook e s).streamObserveActions = e.streamObserveActions := by
  unfold closeBook
  split
  · split <;> rfl
  · rfl

omit [Arith α] in
/-- Observing the opened lot changes only the ledger, given room for one event. -/
theorem streamObserveEntry_ok {e : Engine α} {lot : PyramidEntry α}
    (h : e.streamObserveActions = true → e.streamActionSequence ≠ uint64Max) :
    ∃ l, (do if (← get).streamObserveActions then streamObserveEntry lot : EngineM α Unit) e
        = .ok () (e.withLedger l)
      ∧ l.trades = e.trades ∧ l.netProfitSum = e.netProfitSum := by
  cases hob : e.streamObserveActions with
  | false =>
    refine ⟨e.ledger, ?_, rfl, rfl⟩
    simp only [EngineM.run_bind, EngineM.run_get, hob, Bool.false_eq_true, if_false]
    rfl
  | true =>
    refine ⟨(pushAction e (entryAction e lot)).ledger, ?_, rfl, rfl⟩
    simp only [EngineM.run_bind, EngineM.run_get, hob, if_true, streamObserveEntry,
      streamObserve, h hob, if_false]
    rfl

/-- The opening has room, so it succeeds. -/
theorem openLot_ok {e : Engine α} {s : Staged α} {lot : PyramidEntry α}
    (hcycle : s.opens = true → (closeBook e s).positionSide = .flat →
      ¬ cycleExhausted (closeBook e s).nextPositionCycleSeq)
    (hcount : s.opens = true → (closeBook e s).positionSide ≠ .flat →
      (closeBook e s).positionEntryCount ≠ intMax)
    (l : Ledger α)
    (hseq : s.opens = true → e.streamObserveActions = true → l.streamActionSequence ≠ uint64Max) :
    ∃ l', openLot s.opens s.incoming lot s.afterQty s.afterPrice ((closeBook e s).withLedger l)
        = .ok () ((bookAfter e s lot).withLedger l')
      ∧ l'.trades = l.trades ∧ l'.netProfitSum = l.netProfitSum := by
  have hobs := closeBook_observes e s
  cases ho : s.opens with
  | false =>
    refine ⟨l, ?_, rfl, rfl⟩
    simp only [openLot, bookAfter, ho, Bool.false_eq_true, if_false]
    rfl
  | true =>
    simp only [openLot, bookAfter, ho, if_true]
    by_cases hflat : (closeBook e s).positionSide = .flat
    · obtain ⟨l', hrun, htr, hnet⟩ := @streamObserveEntry_ok _
        (installPosition ((closeBook e s).withLedger l) s.incoming lot) lot
        fun h => hseq ho (hobs ▸ h)
      refine ⟨l', ?_, htr, hnet⟩
      simp only [if_pos hflat]
      refine Eq.trans ?_ hrun
      have hside : ((closeBook e s).withLedger l).positionSide = .flat := hflat
      have hc : ¬ cycleExhausted ((closeBook e s).withLedger l).nextPositionCycleSeq :=
        hcycle ho hflat
      simp only [EngineM.run_bind, EngineM.run_get, if_pos hside, openQuotedPosition,
        if_neg hc, EngineM.run_modify]
    · obtain ⟨l', hrun, htr, hnet⟩ := @streamObserveEntry_ok _
        (installLot ((closeBook e s).withLedger l) lot s.afterQty s.afterPrice) lot
        fun h => hseq ho (hobs ▸ h)
      refine ⟨l', ?_, htr, hnet⟩
      simp only [if_neg hflat]
      refine Eq.trans ?_ hrun
      have hside : ((closeBook e s).withLedger l).positionSide ≠ .flat := hflat
      have hc : ((closeBook e s).withLedger l).positionEntryCount ≠ intMax := hcount ho hflat
      simp only [EngineM.run_bind, EngineM.run_get, if_neg hside, appendQuotedLot, if_neg hc,
        EngineM.run_modify]

/-! ## The commit -/

/-- What the tests before a commit leave: room in every counter it advances. -/
structure Staged.Clear (e : Engine α) (s : Staged α) (rows : List (Trade α)) : Prop where
  cycle : s.opens = true → e.positionSide = .flat ∨ s.survivors = [] →
    ¬ cycleExhausted e.nextPositionCycleSeq
  count : s.opens = true → s.survivors ≠ [] → e.positionEntryCount ≠ intMax
  room : e.ledger.Room e.streamObserveActions rows (rows.length + if s.opens then 1 else 0)

/-- What a commit returns. -/
def Staged.result (e : Engine α) (s : Staged α) (fill : Fill α) (rows : List (Trade α)) :
    Result α where
  status := .applied
  closedUnits := s.closed
  openedUnits := s.openedUnits
  currentTicket := s.ticket
  firstTradeIndex := e.trades.length
  closedTradeCount := rows.length
  openedLotIncarnation := if s.opens then fill.incarnation else 0

theorem preflight_clear {e : Engine α} {s : Staged α} {rows : List (Trade α)}
    (h : preflightNativeSettlementEffects e s rows = .ok ())
    (hc : s.opens = true → e.positionSide = .flat ∨ s.survivors = [] →
      ¬ cycleExhausted e.nextPositionCycleSeq) : s.Clear e rows := by
  unfold preflightNativeSettlementEffects at h
  simp only [bind, Except.bind] at h
  cases hv : validateCloseTradeCounters e rows with
  | error f => rw [hv] at h; cases h
  | ok _ =>
    rw [hv] at h
    simp only at h
    split at h
    · cases h
    next hcount =>
    by_cases hseq : e.streamObserveActions = true ∧ uint64Max - e.streamActionSequence
        < rows.length + if s.opens then 1 else 0
    · simp only [if_pos hseq] at h; cases h
    refine ⟨hc, fun ho hs hn => hcount ⟨ho, hs, hn⟩, countersFit_of_validate hv, fun hob => ?_⟩
    have hroom : ¬ uint64Max - e.streamActionSequence
        < rows.length + if s.opens then 1 else 0 := fun hlt => hseq ⟨hob, hlt⟩
    change _ ∨ e.streamActionSequence + _ ≤ uint64Max
    omega

/-- Where the closes of a sound stage leave the book: flat when nothing survives. -/
theorem Staged.Sound.closeBook_flat [Sane α] {e : Engine α} {fill : Fill α} {fx : α} {s : Staged α}
    (h : s.Sound e fill fx) :
    (closeBook e s).positionSide = .flat ↔ e.positionSide = .flat ∨ s.survivors = [] := by
  by_cases hc : s.closings = []
  · obtain ⟨hclosed, hsurv⟩ := h.untouched hc
    simp only [closeBook, hclosed, if_neg not_zero_lt_zero, hsurv, h.side, or_self]
  · simp only [closeBook, if_pos (h.closed hc)]
    by_cases hs : s.survivors = []
    · simp [hs, resetPositionStateToFlat]
    · simp [hs]

/-- **The commit of a sound stage with clear counters does not throw**: it installs the book of the
stage and extends the ledger by its rows. -/
theorem commit_ok [Sane α] {e : Engine α} {s : Staged α} {fill : Fill α} {fx : α}
    (context : PhysicalExecutionContext α) {rows : List (Trade α)} (hs : s.Sound e fill fx)
    (hc : s.Clear e rows) :
    ∃ l, commitPreparedNativeSettlementStage s fill context rows e = .ok (s.result e fill rows)
        ((bookAfter e s (openedLot s.opening s.costs.opening fill context)).withLedger l)
      ∧ e.ledger.Extends l rows := by
  obtain ⟨l, hrun, hext, hroom⟩ := recordCloseTrades_ok hc.room
  have hnext : (closeBook e s).nextPositionCycleSeq = e.nextPositionCycleSeq := by
    unfold closeBook
    split
    · split <;> rfl
    · rfl
  -- an opening beside held lots closes nothing, so the entry counter is the engine's
  have hcount : s.opens = true → (closeBook e s).positionSide ≠ .flat →
      (closeBook e s).positionEntryCount ≠ intMax := by
    intro ho hflat
    have hns : s.survivors ≠ [] := fun h => hflat (hs.closeBook_flat.2 (.inr h))
    have hclosed := (hs.untouched (hs.beside ho hns)).1
    simpa [closeBook, hclosed, not_zero_lt_zero] using hc.count ho hns
  have hseq : s.opens = true → e.streamObserveActions = true →
      l.streamActionSequence ≠ uint64Max := by
    intro ho hob
    have := hroom.sequence hob
    simp only [ho, if_true] at this
    omega
  obtain ⟨l', hopen, htr, hnet⟩ := @openLot_ok _ _ e s
    (openedLot s.opening s.costs.opening fill context)
    (fun ho hflat => hnext ▸ hc.cycle ho (hs.closeBook_flat.1 hflat)) hcount l hseq
  generalize hb : bookAfter e s (openedLot s.opening s.costs.opening fill context) = b at hopen
  refine ⟨(refreshSince e (b.withLedger l')).ledger, ?_, ?_, ?_⟩
  · unfold commitPreparedNativeSettlementStage
    simp only [EngineM.run_bind, EngineM.run_get, hrun, EngineM.run_modify,
      closeBook_withLedger, hopen]
    have href : refreshSince e (b.withLedger l')
        = b.withLedger (refreshSince e (b.withLedger l')).ledger := by
      unfold refreshSince
      split <;> rfl
    exact congrArg (EStateM.Result.ok (s.result e fill rows)) href
  · have : (refreshSince e (b.withLedger l')).trades = l'.trades := by
      unfold refreshSince
      split <;> rfl
    exact (this.trans htr).trans hext.trades
  · have : (refreshSince e (b.withLedger l')).netProfitSum = l'.netProfitSum := by
      unfold refreshSince
      split <;> rfl
    exact (this.trans hnet).trans hext.netProfitSum

/-! ## Refusals -/

/-- A stage that is not ready names a refusal. -/
def NativeSettlementStage.Refuses : NativeSettlementStage α → Prop
  | .invalid status => status ≠ .applied
  | .noEffect status _ => status ≠ .applied
  | .ready _ => True

theorem noEffectStatus_ne (fill : Fill α) : noEffectStatus fill ≠ .applied := by
  unfold noEffectStatus
  split
  · split <;> simp
  · simp

theorem fillRefusal_ne {fill : Fill α} {status : Status} (h : fillRefusal fill = some status) :
    status ≠ .applied := by
  unfold fillRefusal at h
  split at h
  · cases h; simp
  split at h
  · cases h; simp
  · cases h

theorem inspectMembership_ne {e : Engine α} {action : Action α} {scope : CloseScope}
    {selected : Option SelectedOpeningSet} {held : α} {status : Status}
    (h : inspectMembership e action scope selected held = .error status) : status ≠ .applied := by
  unfold inspectMembership at h
  split at h
  · split at h
    · next hs =>
      cases h
      rintro rfl
      unfold inspectSelectedOpeningSet at hs
      repeat' (first | cases hs | split at hs)
    · cases h
  · split at h
    · next hs =>
      cases h
      rintro rfl
      simp only [inspectCloseScope] at hs
      repeat' (first | cases hs | split at hs)
    · cases h

theorem allocateFrom_ne {e : Engine α} {c : CloseOrder α} {index : Nat}
    {lots : List (PyramidEntry α)} {w : Walk α} {status : Status}
    (h : allocateFrom e c index lots w = .error status) : status ≠ .applied := by
  induction lots generalizing index w with
  | nil => cases h
  | cons lot lots ih =>
    simp only [allocateFrom] at h
    split at h
    · next hst => cases h; exact hst
    split at h
    · next hrec => cases h; exact ih hrec
    split at h <;> cases h

theorem allocate_ne {e : Engine α} {c : CloseOrder α} {rest : α} {status : Status}
    (h : allocateNativeSettlementCloses e c rest = .error status) : status ≠ .applied := by
  unfold allocateNativeSettlementCloses at h
  split at h
  · next hw => cases h; exact allocateFrom_ne hw
  · cases h

theorem finish_refuses {e : Engine α} {d : Draft α} {fill : Fill α} {fx : α}
    {stage : NativeSettlementStage α} (h : finishNativeSettlementStage e d fill fx = .ok stage) :
    stage.Refuses := by
  unfold finishNativeSettlementStage at h
  simp only [bind, Except.bind, pure, Except.pure] at h
  split at h
  · cases h
  split at h
  · cases h
  split at h
  · cases h; exact Status.noConfusion
  · cases h; trivial

theorem stageSelected_refuses {e : Engine α} {action : Action α} {fill : Fill α}
    {sel : Selection α} {fx : α} {stage : NativeSettlementStage α}
    (h : stageSelected e action fill sel fx = .ok stage) : stage.Refuses := by
  unfold stageSelected at h
  split at h
  · cases h; exact noEffectStatus_ne fill
  split at h
  · cases h; exact noEffectStatus_ne fill
  split at h
  · cases h; exact Status.noConfusion
  unfold stageAllocated at h
  split at h
  · next ha => cases h; exact allocate_ne ha
  · next a ha =>
    change (if 0 < action.opening e a.walk ∧ opposes e action = true ∧ a.survivors ≠ [] then
      _ else finishNativeSettlementStage e ⟨_, _, _, _, action.opening e a.walk, _, _⟩ _ _) = _ at h
    split at h
    · cases h; exact Status.noConfusion
    · exact finish_refuses h

/-- A stage that is not ready names a refusal. -/
theorem Execution.stage_refuses {x : Execution α} {e : Engine α} {fill : Fill α}
    {lifecycle : Option LifecycleEffects} {fx : α} {stage : NativeSettlementStage α}
    (h : x.stage e fill lifecycle fx = .ok stage) : stage.Refuses := by
  cases x with
  | act action scope selected =>
    simp only [Execution.stage, stageNativeSettlement] at h
    split at h
    · next hf => cases h; exact fillRefusal_ne hf
    split at h
    · cases h; exact Status.noConfusion
    split at h
    · cases h; exact Status.noConfusion
    split at h
    · cases h; exact Status.noConfusion
    split at h
    · next hs => cases h; exact inspectMembership_ne hs
    · exact stageSelected_refuses h
  | reverse signedUnits =>
    simp only [Execution.stage, stageNativeReversal] at h
    split at h
    · next hf => cases h; exact fillRefusal_ne hf
    split at h
    · cases h; exact Status.noConfusion
    split at h
    · cases h; exact Status.noConfusion
    split at h
    · cases h; exact Status.noConfusion
    generalize (if signedUnits < 0 then PositionSide.short else .long) = incoming at h
    split at h
    · cases h; exact Status.noConfusion
    split at h
    · next ha => cases h; exact allocate_ne ha
    split at h
    · cases h; exact Status.noConfusion
    · exact finish_refuses h

/-! ## The run of a settlement -/

/-- Every outcome of a settlement on the staged chain: a commit, a refusal or a throw; only a
commit changes the engine. -/
inductive Settled (x : Execution α) (e : Engine α) (fill : Fill α) (lifecycle : LifecycleEffects)
    (context : PhysicalExecutionContext α) : EStateM.Result Failure (Engine α) (Result α) → Prop
  | applied {s : Staged α} {rows : List (Trade α)} {l : Ledger α}
      (hstage : x.stage e fill (some lifecycle) (contextFx e context) = .ok (.ready s))
      (hsound : s.Sound e fill (contextFx e context))
      (hprep : prepareNativeSettlementCommit e (.ready s) fill context = .ok (.ok (s, rows)))
      (hclear : s.Clear e rows) (hext : e.ledger.Extends l rows) :
      Settled x e fill lifecycle context (.ok (s.result e fill rows)
        ((bookAfter e s (openedLot s.opening s.costs.opening fill context)).withLedger l))
  | refused {status : Status} (h : status ≠ .applied) :
      Settled x e fill lifecycle context (.ok (.refused status) e)
  | threw (f : Failure) : Settled x e fill lifecycle context (.error f e)

theorem prepare_ok {e : Engine α} {stage : NativeSettlementStage α} {fill : Fill α}
    {context : PhysicalExecutionContext α} {s : Staged α} {rows : List (Trade α)}
    (h : prepareNativeSettlementCommit e stage fill context = .ok (.ok (s, rows))) :
    stage = .ready s ∧ ¬ (s.isScoped = true ∧ (s.closed == 0) = true)
      ∧ rows = buildNativeSettlementCloseRows e s fill context
      ∧ (s.opens = true → e.positionSide = .flat ∨ s.survivors = [] →
        ¬ cycleExhausted e.nextPositionCycleSeq)
      ∧ isFinite s.afterQty = true ∧ isFinite s.afterPrice = true
      ∧ rowsBookable e rows = true := by
  unfold prepareNativeSettlementCommit at h
  split at h
  · cases h
  · cases h
  split at h
  · cases h
  next hscope =>
  simp only at h
  split at h
  · cases h
  next hcycle =>
  split at h
  · cases h
  next hfin =>
  split at h
  · cases h
  next hbook =>
  cases h
  obtain ⟨hq, hp⟩ := not_or.1 hfin
  exact ⟨rfl, hscope, rfl, fun ho hs hx => hcycle ⟨ho, hs, hx⟩, by simpa using hq,
    by simpa using hp, by simpa using hbook⟩

theorem prepare_refused {e : Engine α} {stage : NativeSettlementStage α} {fill : Fill α}
    {context : PhysicalExecutionContext α} {status : Status} (hr : stage.Refuses)
    (h : prepareNativeSettlementCommit e stage fill context = .ok (.error status)) :
    status ≠ .applied := by
  unfold prepareNativeSettlementCommit at h
  split at h
  · cases h; exact hr
  · cases h; exact hr
  split at h
  · cases h; exact noEffectStatus_ne fill
  simp only at h
  split at h
  · cases h
  split at h
  · cases h; exact Status.noConfusion
  split at h
  · cases h; exact Status.noConfusion
  · cases h

/-- **A settlement commits, refuses or throws, and only a commit changes the engine.** -/
theorem settle_settled [Lawful α] (x : Execution α) (e : Engine α) (fill : Fill α)
    (lifecycle : LifecycleEffects) (context : PhysicalExecutionContext α) :
    Settled x e fill lifecycle context (settleExecution false x fill lifecycle context e) := by
  have hoff : OneLot.admits false x e fill (some lifecycle) (contextFx e context) = .ok none := rfl
  unfold settleExecution
  simp only [EngineM.run_bind, EngineM.check, hoff]
  cases hstage : x.stage e fill (some lifecycle) (contextFx e context) with
  | error f => exact .threw f
  | ok stage =>
    simp only [commitNativeSettlementStage, EngineM.run_bind, EngineM.check]
    cases hprep : prepareNativeSettlementCommit e stage fill context with
    | error f => exact .threw f
    | ok prepared =>
      cases prepared with
      | error status => exact .refused (prepare_refused (Execution.stage_refuses hstage) hprep)
      | ok prepared =>
        obtain ⟨s, rows⟩ := prepared
        obtain ⟨rfl, -, -, hcycle, -⟩ := prepare_ok hprep
        simp only [EngineM.run_bind, EngineM.check]
        cases hpre : preflightNativeSettlementEffects e s rows with
        | error f => exact .threw f
        | ok _ =>
          have hsound := (Execution.stage_readies hstage).sound
          have hclear := preflight_clear hpre hcycle
          obtain ⟨l, hrun, hext⟩ := commit_ok context hsound hclear
          simp only [hrun]
          exact .applied hstage hsound hprep hclear hext

end PineForge.Settlement
