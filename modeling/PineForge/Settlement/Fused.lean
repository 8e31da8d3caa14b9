import PineForge.Settlement.OneLot

/-!
# The fused settlement is the staged one

`OneLot.toStaged` is the staged value a fused stage abbreviates. `oneLot_stage` says that the
fused stage answers it exactly when the chain does, and the readers (`inspect`, `project`,
`prepare`, `settle`) are then the chain's readers on that value.
-/

namespace PineForge.Settlement

open Arith

variable {α : Type}

namespace OneLot

/-- The staged value a fused stage abbreviates. -/
def toStaged (o : OneLot α) (isScoped : Bool) : Staged α where
  isScoped := isScoped
  incoming := o.incoming
  wasLong := o.wasLong
  closed := o.closed
  opening := o.opening
  ticket := o.ticket
  afterQty := o.afterQty
  afterPrice := o.afterPrice
  fx := o.fx
  closings := if o.closes then [⟨0, o.closing⟩] else []
  costs := ⟨if o.closes then [o.closeCost] else [], o.openCost⟩
  survivors := []

section

variable (o : OneLot α) (isScoped : Bool)

@[simp] theorem toStaged_isScoped : (o.toStaged isScoped).isScoped = isScoped := rfl
@[simp] theorem toStaged_incoming : (o.toStaged isScoped).incoming = o.incoming := rfl
@[simp] theorem toStaged_closed : (o.toStaged isScoped).closed = o.closed := rfl
@[simp] theorem toStaged_opening : (o.toStaged isScoped).opening = o.opening := rfl
@[simp] theorem toStaged_ticket : (o.toStaged isScoped).ticket = o.ticket := rfl
@[simp] theorem toStaged_afterQty : (o.toStaged isScoped).afterQty = o.afterQty := rfl
@[simp] theorem toStaged_afterPrice : (o.toStaged isScoped).afterPrice = o.afterPrice := rfl
@[simp] theorem toStaged_fx : (o.toStaged isScoped).fx = o.fx := rfl
@[simp] theorem toStaged_openCost : (o.toStaged isScoped).costs.opening = o.openCost := rfl
@[simp] theorem toStaged_survivors : (o.toStaged isScoped).survivors = [] := rfl
variable [Arith α]

@[simp] theorem toStaged_opens : (o.toStaged isScoped).opens = o.opens := rfl
@[simp] theorem toStaged_openedUnits : (o.toStaged isScoped).openedUnits = o.openedUnits := rfl

end

variable [Arith α]

/-- The closings of a fused draft. -/
def Draft.closings (d : Draft α) : List (Closing α) := if d.closes then [⟨0, d.closing⟩] else []

/-- The draft of the chain. -/
def Draft.toDraft (d : Draft α) (isScoped : Bool) : Settlement.Draft α where
  isScoped := isScoped
  incoming := d.incoming
  wasLong := d.wasLong
  closed := d.closed
  opening := d.opening
  closings := d.closings
  survivors := []

/-- The costs a fused quote answers, in the chain's form. -/
def pairCosts (closes : Bool) (costs : α × α) : Costs α :=
  ⟨if closes then [costs.1] else [], costs.2⟩

/-! ## Quoting and finishing -/

/-- The paired quote is the staged quote. -/
theorem quote_eq (e : Engine α) (d : Draft α) (fill : Fill α) (fx : α) :
    quoteExecutionCommissions e (d.closings.map (·.quantity)) d.opening fill fx
      = (quote e d fill fx).map (pairCosts d.closes) := by
  obtain ⟨incoming, wasLong, closes, closing, closed, opening⟩ := d
  unfold quoteExecutionCommissions quote
  split
  · cases closes
    · by_cases ho : 0 < opening
      · cases nativeModeledCommission e fill.price fx opening <;>
          simp [Draft.closings, modeledRows, ho, pairCosts, Except.map, bind, Except.bind,
            pure, Except.pure]
      · simp [Draft.closings, modeledRows, ho, pairCosts, Except.map, bind, Except.bind,
          pure, Except.pure]
    · cases hc : nativeModeledCommission e fill.price fx closing with
      | error x =>
        simp [Draft.closings, modeledRows, hc, Except.map, bind, Except.bind]
      | ok cost =>
        by_cases ho : 0 < opening
        · cases nativeModeledCommission e fill.price fx opening <;>
            simp [Draft.closings, modeledRows, hc, ho, pairCosts, Except.map, bind, Except.bind,
              pure, Except.pure]
        · simp [Draft.closings, modeledRows, hc, ho, pairCosts, Except.map, bind, Except.bind,
            pure, Except.pure]
  · cases closes
    · simp only [Draft.closings, Bool.false_eq_true, if_false, List.map_nil, sumFrom_nil]
      split
      · simp [Except.map, pairCosts]
      split
      · simp [Except.map]
      split
      · simp [Except.map]
      · simp [shareTicket, Except.map, pairCosts]
    · simp only [Draft.closings, if_true, List.map_cons, List.map_nil, sumFrom_cons, sumFrom_nil]
      split
      · simp [Except.map, pairCosts]
      split
      · simp [Except.map]
      split
      · simp [Except.map]
      · simp [shareTicket, Except.map, pairCosts]

theorem finish_eq (h0 : ¬ (0 : α) < 0) (e : Engine α) (d : Draft α) (isScoped : Bool)
    (fill : Fill α) (fx : α) :
    match finish e d fill fx with
    | .error f => finishNativeSettlementStage e (d.toDraft isScoped) fill fx = .error f
    | .ok (some o) =>
      finishNativeSettlementStage e (d.toDraft isScoped) fill fx
        = .ok (.ready (o.toStaged isScoped))
        ∧ o.closed = d.closed ∧ o.opening = d.opening ∧ o.fx = fx
    | .ok none => True := by
  unfold finish finishNativeSettlementStage
  have hq := quote_eq e d fill fx
  simp only [Draft.toDraft]
  rw [hq]
  cases hc : quote e d fill fx with
  | error f => simp [Except.map, bind, Except.bind]
  | ok costs =>
    simp only [Except.map, bind, Except.bind]
    have hs : (pairCosts d.closes costs).rows ++ [(pairCosts d.closes costs).opening]
        = if d.closes then [costs.1, costs.2] else [costs.2] := by
      cases hd : d.closes <;> simp [pairCosts]
    rw [hs]
    cases ticketSum (if d.closes then [costs.1, costs.2] else [costs.2]) 0 with
    | error f => rfl
    | ok summed =>
      by_cases ho : 0 < d.opening
      · by_cases hf : isFinite (0 + d.opening)
        · simp [ho, hf, survivorSums, h0, toStaged, Draft.closings, pairCosts, pure, Except.pure]
        · simp [ho, hf, pure, Except.pure]
      · simp [ho, survivorSums, h0, toStaged, Draft.closings, pairCosts, pure, Except.pure]

/-! ## Staging -/

/-- A fused stage has an effect: it closes units, or it opens some on an unscoped book. -/
def Effective (o : OneLot α) (isScoped : Bool) : Prop :=
  (o.closed == 0) = false ∨ (isScoped = false ∧ (o.opening == 0) = false)

/-- How the fused answer `x` stands to the staged answer `y`: an accepted stage is the staged one
at the same rate and has an effect, a throw is the same throw. -/
def Agrees (isScoped : Bool) (fx : α) (x : Except Failure (Option (OneLot α)))
    (y : Except Failure (NativeSettlementStage α)) : Prop :=
  match x with
  | .error f => y = .error f
  | .ok (some o) => y = .ok (.ready (o.toStaged isScoped)) ∧ o.Effective isScoped ∧ o.fx = fx
  | .ok none => True

theorem agrees_finish (h0 : ¬ (0 : α) < 0) {e : Engine α} {d : Draft α} {isScoped : Bool}
    {fill : Fill α} {fx : α} (heff : (d.closed == 0) = false ∨ (isScoped = false ∧
      (d.opening == 0) = false)) :
    Agrees isScoped fx (finish e d fill fx)
      (finishNativeSettlementStage e (d.toDraft isScoped) fill fx) := by
  have h := finish_eq h0 e d isScoped fill fx
  unfold Agrees
  cases hf : finish e d fill fx with
  | error f => simpa [hf] using h
  | ok answer =>
    cases answer with
    | none => trivial
    | some o =>
      rw [hf] at h
      obtain ⟨hs, hc, ho, hfx⟩ := h
      refine ⟨hs, ?_, hfx⟩
      unfold Effective
      rw [hc, ho]
      exact heff

/-- A split that takes something from a lot, at the start of a close, leaves a nonzero sum. -/
theorem closed_of_splits [Sane α] {lot : PyramidEntry α} {closes flatten : Bool} {r t rem : α}
    {split : CloseSplit α} {w : Walk α} (hs : Splits lot r t ⟨0, rem⟩ closes flatten split w)
    (hr : flatten = false → (r == 0) = false) (ha : (split.amount == 0) = false) :
    (w.closed == 0) = false := by
  have hz : ((0 : α) == 0) = true := Sane.zero_beq
  have hsum : ∀ {x : α}, (x == 0) = false → (0 + x == 0) = false := fun {x} hx => by
    cases hb : (0 + x == 0)
    · rfl
    · rw [Sane.zero_add_beq hb] at hx; cases hx
  cases hs with
  | outside => rw [hz] at ha; cases ha
  | empty => rw [hz] at ha; cases ha
  | done => rw [hz] at ha; cases ha
  | stop => exact hr rfl
  | whole hq => exact hsum hq
  | ends => exact hr rfl
  | snap => exact hr rfl
  | next => exact hsum ha

theorem closed_finish [Sane α] {t r : α} {closes flatten : Bool} {w : Walk α}
    (hr : flatten = false → (r == 0) = false) (hc : (w.closed == 0) = false) :
    ((finishTolerantWalk t closes flatten r w).closed == 0) = false := by
  unfold finishTolerantWalk
  split
  · next h => exact hr (by simpa using h.2.2.1)
  · exact hc

theorem allocate_one [Sane α] {e : Engine α} {c : CloseOrder α} {lot : PyramidEntry α}
    {split : CloseSplit α} {w w' : Walk α}
    (hs : closeSplit lot (c.closes && c.membership.contains lot) c.flatten c.requested
      e.nativeQuantityTolerance w = (split, w'))
    (hst : split.status = .applied) (ha : (split.amount == 0) = false) (hk : ¬ 0 < split.kept) :
    allocateFrom e c 0 [lot] w = .ok ⟨[], [⟨0, split.amount⟩], w'⟩ := by
  simp [allocateFrom, hs, hst, ha, hk]

/-- A scoped reduction of a nonzero request on nonzero units asks for a nonzero amount. -/
theorem allocationRequest_ne_zero {action : Action α} {s : Selection α}
    (hr : (action.requested == 0) = false) (hs : s.isScoped = true → (s.held == 0) = false) :
    (allocationRequest action s == 0) = false := by
  unfold allocationRequest
  split
  · next h =>
    unfold cmin
    split
    · exact hs h.1
    · exact hr
  · exact hr

theorem inspectCloseScope_held {scope : CloseScope} {action : Action α} {cycle : Int}
    {lots : List (PyramidEntry α)} {whole held : α}
    (h : inspectCloseScope scope action cycle lots whole = .ok held) :
    scope.isOpening = true → (held == 0) = false := by
  intro hsc
  cases scope with
  | book => cases hsc
  | opening exposure =>
    unfold inspectCloseScope at h
    simp only at h
    split at h
    · cases h
    split at h
    · cases h
    · next hz =>
      split at h
      · cases h
      · cases h; simpa using hz

/-- What the tests before the allocation leave: a flat book only under a transaction, and a
nonzero request unless the book is flattened. -/
structure Selected (e : Engine α) (action : Action α) (s : Selection α) : Prop where
  isScope : s.membership.isSelected = false
  atMostOne : e.pyramidEntries.length ≤ 1
  flatIff : e.positionSide = .flat ↔ e.pyramidEntries = []
  requested : action.isFlatten = false → (action.requested == 0) = false
  allocation : action.isFlatten = false → (allocationRequest action s == 0) = false
  transacts : e.pyramidEntries = [] → action.isTransact = true
  unscoped : action.isTransact = true → s.isScoped = false

/-- The fused stage agrees with the staged one. -/
theorem stageAllocated_agrees [Sane α] {e : Engine α} {action : Action α} {s : Selection α}
    (h : Selected e action s) (fill : Fill α) (fx : α) :
    Agrees s.isScoped fx (stageAllocated e action fill s fx)
      (Settlement.stageAllocated e action fill s fx) := by
  have hflat : (closeOrder e action s).flatten = action.isFlatten := by
    simp [closeOrder, h.isScope]
  unfold stageAllocated Settlement.stageAllocated
  cases hlots : e.pyramidEntries with
  | nil =>
    have htr := h.transacts hlots
    have hnf : action.isFlatten = false := by cases action <;> first | rfl | cases htr
    have hnr : action.isReduce = false := by cases action <;> first | rfl | cases htr
    have hop : opposes e action = false := by simp [opposes, h.flatIff.2 hlots]
    have hal : allocateNativeSettlementCloses e (closeOrder e action s) (allocationRequest action s)
        = .ok ⟨[], [], ⟨0, allocationRequest action s⟩⟩ := by
      simp [allocateNativeSettlementCloses, hlots, allocateFrom, finishTolerantWalk, closeOrder,
        hnf, hnr, hop]
    rw [hal]
    simp only [hop, htr, Bool.not_true, Bool.false_eq_true, if_false, false_and, and_false]
    exact agrees_finish (d := ⟨_, _, false, 0, 0, action.requested⟩) not_zero_lt_zero
      (.inr ⟨h.unscoped htr, h.requested hnf⟩)
  | cons lot rest =>
    have hrest : rest = [] := by
      have := h.atMostOne
      rw [hlots] at this
      exact List.length_eq_zero_iff.1 (by simpa using this)
    subst hrest
    dsimp only
    generalize hsp : closeSplit lot ((action.isFlatten || action.isReduce || opposes e action)
      && s.membership.contains lot) action.isFlatten (allocationRequest action s)
      e.nativeQuantityTolerance ⟨0, allocationRequest action s⟩ = sw
    obtain ⟨split, w⟩ := sw
    dsimp only
    by_cases hdec : split.status ≠ .applied ∨ (split.amount == 0) = true ∨ (split.kept != 0) = true
    · rw [if_pos hdec]; trivial
    rw [if_neg hdec]
    simp only [not_or, ne_eq, not_not, Bool.not_eq_true] at hdec
    obtain ⟨hst, ha, hk⟩ := hdec
    have hk0 : ¬ 0 < split.kept := Sane.not_pos_of_beq (by simpa [bne] using hk)
    have hsplits : Splits lot (allocationRequest action s) e.nativeQuantityTolerance
        ⟨0, allocationRequest action s⟩ ((action.isFlatten || action.isReduce || opposes e action)
          && s.membership.contains lot) action.isFlatten split w := by
      have := closeSplit_splits (α := α) (fun _ => Sane.zero_beq) (by rw [hsp]; exact hst)
      rwa [hsp] at this
    -- a lot that is not a member closes nothing
    have hmem : ((action.isFlatten || action.isReduce || opposes e action)
        && s.membership.contains lot) = true := by
      by_contra hne
      rw [Bool.not_eq_true] at hne
      rw [hne] at hsplits
      cases hsplits
      rw [Sane.zero_beq] at ha
      cases ha
    have hclosed := closed_of_splits hsplits h.allocation ha
    have hal : allocateNativeSettlementCloses e (closeOrder e action s) (allocationRequest action s)
        = .ok ⟨[], [⟨0, split.amount⟩], finishTolerantWalk e.nativeQuantityTolerance true
            action.isFlatten (allocationRequest action s) w⟩ := by
      have hcl : (closeOrder e action s).closes = true := by
        simp only [closeOrder]
        exact (Bool.and_eq_true_iff.1 hmem).1
      have hone := allocate_one (c := closeOrder e action s) (w := ⟨0, allocationRequest action s⟩)
        (by rw [hflat]; exact hsp) hst ha hk0
      simp only [allocateNativeSettlementCloses, hlots, hone, hcl, hflat]
      rfl
    rw [hal, hmem]
    simp only [ne_eq, not_true_eq_false, and_false, if_false]
    exact agrees_finish (d := ⟨_, _, true, split.amount, _, _⟩) not_zero_lt_zero
      (.inl (closed_finish h.allocation hclosed))

theorem inspectCloseScope_transact {scope : CloseScope} {action : Action α} {cycle : Int}
    {lots : List (PyramidEntry α)} {whole held : α}
    (h : inspectCloseScope scope action cycle lots whole = .ok held)
    (ht : action.isTransact = true) : scope.isOpening = false := by
  cases scope with
  | book => rfl
  | opening exposure =>
    cases action with
    | flatten => cases ht
    | reduce units => cases ht
    | transact units => simp [inspectCloseScope, Action.isFlatten, Action.isReduce] at h

/-- **The fused stage of an action is the staged one.** -/
theorem stage_agrees [Sane α] (e : Engine α) (action : Action α) (fill : Fill α)
    (scope : CloseScope) (lifecycle : Option LifecycleEffects) (fx : α) :
    Agrees scope.isOpening fx (stage e action fill scope lifecycle fx)
      (stageNativeSettlement e action fill scope none lifecycle fx) := by
  unfold stage stageNativeSettlement fillRefusal
  by_cases h1 : 1 < e.pyramidEntries.length
  · rw [if_pos h1]; trivial
  rw [if_neg h1]
  by_cases h2 : (!isFinite fill.price) = true
  · rw [if_pos h2]; trivial
  rw [if_neg h2, if_neg h2]
  by_cases h3 : Option.any (fun x => !isFinite x) fill.commissionAccount = true
  · rw [if_pos h3]; trivial
  rw [if_neg h3, if_neg h3]
  dsimp only
  by_cases h4 : (!isFinite action.requested) = true ∨ action.isReduce = true ∧ action.requested < 0
  · rw [if_pos h4]; trivial
  rw [if_neg h4, if_neg h4]
  cases hv : validateNativeSettlementBook e with
  | none => trivial
  | some held =>
  dsimp only
  by_cases h5 : nonemptyLifecycleRefused lifecycle = true
  · rw [if_pos h5]; trivial
  rw [if_neg h5, if_neg h5]
  unfold inspectMembership
  dsimp only
  cases hi : inspectCloseScope scope action e.positionCycleSeq e.pyramidEntries held with
  | error status => trivial
  | ok scopeHeld =>
  dsimp only
  unfold stageSelected
  by_cases h6 : (!action.isFlatten) = true ∧ (action.requested == 0) = true
  · rw [if_pos h6]; trivial
  rw [if_neg h6, if_neg h6]
  by_cases h7 : (action.isFlatten = true ∨ action.isReduce = true) ∧ e.pyramidEntries = []
  · rw [if_pos h7]; trivial
  rw [if_neg h7, if_neg h7]
  by_cases h8 : (!planned e action scopeHeld
      (allocationRequest action ⟨.scope scope, scopeHeld, scope.isOpening⟩)) = true
  · rw [if_pos h8]; trivial
  rw [if_neg h8, if_neg h8]
  have hne : action.isFlatten = false → (action.requested == 0) = false := by
    intro hf
    simpa [hf] using h6
  refine stageAllocated_agrees (s := ⟨.scope scope, scopeHeld, scope.isOpening⟩) ⟨rfl, ?_, ?_, hne,
    fun hf => allocationRequest_ne_zero (hne hf) (inspectCloseScope_held hi), ?_,
    inspectCloseScope_transact hi⟩ fill fx
  · omega
  · unfold validateNativeSettlementBook at hv
    split at hv
    · cases hv
    · next hb => simpa using hb
  · intro hl
    cases action <;> simp_all [Action.isFlatten, Action.isReduce, Action.isTransact]

theorem lot_positive {e : Engine α} {lot : PyramidEntry α} (hlots : e.pyramidEntries = [lot])
    (hv : (validateNativeSettlementBook e).isNone = false) : ¬ lot.qty ≤ 0 := by
  intro hq
  unfold validateNativeSettlementBook at hv
  split at hv
  · cases hv
  · simp [hlots, validateLots, hq] at hv

/-- **The fused stage of a reversal is the staged one.** -/
theorem stageReversal_agrees [Sane α] (e : Engine α) (signedUnits : α) (fill : Fill α)
    (lifecycle : Option LifecycleEffects) (fx : α) :
    Agrees false fx (stageReversal e signedUnits fill lifecycle fx)
      (stageNativeReversal e signedUnits fill lifecycle fx) := by
  unfold stageReversal
  split
  case h_2 => trivial
  next lot hlots =>
  unfold stageNativeReversal fillRefusal
  by_cases h2 : (!isFinite fill.price) = true
  · rw [if_pos h2]; trivial
  rw [if_neg h2, if_neg h2]
  by_cases h3 : Option.any (fun x => !isFinite x) fill.commissionAccount = true
  · rw [if_pos h3]; trivial
  rw [if_neg h3, if_neg h3]
  dsimp only
  by_cases h4 : (!isFinite signedUnits) = true ∨ (signedUnits == 0) = true
  · rw [if_pos h4]; trivial
  rw [if_neg h4, if_neg h4]
  cases hv : (validateNativeSettlementBook e).isNone with
  | true => trivial
  | false =>
  obtain ⟨held, hheld⟩ := Option.isSome_iff_exists.1 (by simpa using hv)
  rw [hheld]
  simp only [Bool.false_eq_true, if_false]
  by_cases h5 : nonemptyLifecycleRefused lifecycle = true
  · rw [if_pos h5]; trivial
  rw [if_neg h5, if_neg h5]
  generalize (if signedUnits < 0 then PositionSide.short else .long) = incoming
  by_cases h6 : e.positionSide = .flat ∨ e.positionSide = incoming
  · rw [if_pos h6]; trivial
  rw [if_neg h6, if_neg h6]
  have hq : (lot.qty == 0) = false := Sane.beq_of_not_le (lot_positive hlots hv)
  generalize hsp : nextCloseSplit lot true true 0 (⟨0, 0⟩ : Walk α) = sw
  obtain ⟨split, w⟩ := sw
  dsimp only
  by_cases hst : split.status ≠ .applied
  · rw [if_pos hst]; trivial
  rw [if_neg hst]
  rw [not_not] at hst
  have hsplits : Splits lot 0 e.nativeQuantityTolerance ⟨0, 0⟩ true true split w := by
    have := @nextCloseSplit_splits _ _ lot true true 0 e.nativeQuantityTolerance ⟨0, 0⟩
      (fun _ h => by cases h) (fun h => by cases h) (by rw [hsp]; exact hst)
    rwa [hsp] at this
  -- a positive lot closes whole
  have hwhole : split = ⟨.applied, lot.qty, lot.qty - lot.qty⟩ ∧ w = ⟨0 + lot.qty, 0⟩ := by
    cases hsplits with
    | empty hz => rw [hq] at hz; cases hz
    | whole => exact ⟨rfl, rfl⟩
  obtain ⟨rfl, rfl⟩ := hwhole
  have hal : allocateNativeSettlementCloses e ⟨true, .scope .book, true, 0⟩ 0
      = .ok ⟨[], [⟨0, lot.qty⟩], ⟨0 + lot.qty, 0⟩⟩ := by
    have hone := @allocate_one _ _ _ e ⟨true, .scope .book, true, 0⟩ lot
      ⟨.applied, lot.qty, lot.qty - lot.qty⟩ ⟨0, 0⟩ ⟨0 + lot.qty, 0⟩
      (by simpa [closeSplit, Membership.contains] using hsp) rfl hq (Sane.sub_self_not_pos _)
    simp [allocateNativeSettlementCloses, hlots, hone, finishTolerantWalk]
  rw [hal]
  dsimp only
  by_cases h7 : (!isFinite (0 + lot.qty + Arith.abs signedUnits)) = true
  · rw [if_pos h7]; trivial
  rw [if_neg h7, if_neg h7]
  refine agrees_finish (d := ⟨_, _, true, lot.qty, _, _⟩) not_zero_lt_zero (.inl ?_)
  exact closed_of_splits hsplits (fun h => by cases h) hq

/-! ## Reading the fused stage -/

theorem toStaged_effective {o : OneLot α} {isScoped : Bool} (heff : o.Effective isScoped) :
    ¬ (((o.toStaged isScoped).closed == 0) = true ∧ ((o.toStaged isScoped).opening == 0)
      = true) := by
  rintro ⟨hc, ho⟩
  rcases heff with h | ⟨-, h⟩
  · exact absurd (hc.symm.trans h) (by decide)
  · exact absurd (ho.symm.trans h) (by decide)

theorem inspect_eq {e : Engine α} {o : OneLot α} {isScoped : Bool} (heff : o.Effective isScoped)
    (fill : Fill α) : inspectStage e (.ready (o.toStaged isScoped)) fill = o.inspect e fill := by
  unfold inspectStage
  dsimp only
  rw [if_neg (toStaged_effective heff)]
  simp only [Staged.inspection, inspect, Staged.resultingLotCount, toStaged_survivors,
    toStaged_opens, List.length_nil, Nat.zero_add]
  rfl

theorem rows_eq {e : Engine α} (o : OneLot α) (isScoped : Bool) (fill : Fill α)
    (context : PhysicalExecutionContext α) :
    buildNativeSettlementCloseRows e (o.toStaged isScoped) fill context
      = (o.settledRow e fill context).toList := by
  unfold buildNativeSettlementCloseRows settledRow closeRow toStaged
  cases o.closes
  · simp
  · cases e.pyramidEntries <;> simp

theorem projection_eq {e : Engine α} (o : OneLot α) (isScoped : Bool) (fill : Fill α)
    (realized : α) :
    (o.toStaged isScoped).projection e fill realized = o.projection e fill realized := by
  cases ho : o.opens <;>
    simp [Staged.projection, projection, Staged.inspection, inspect, Staged.resultingLotCount,
      Staged.resultingSide, ho] <;> rfl

theorem settledRow_money {e : Engine α} (o : OneLot α) (fill : Fill α)
    (context : PhysicalExecutionContext α) :
    (o.settledRow e fill context).map Trade.money
    = (o.closeRow e fill context).map Trade.money := by
  unfold settledRow
  rw [Option.map_map]
  rfl

theorem closeRow_money {e : Engine α} {context context' : PhysicalExecutionContext α}
    (h : contextFx e context = contextFx e context') (o : OneLot α) (fill : Fill α) :
    (o.closeRow e fill context).map Trade.money = (o.closeRow e fill context').map Trade.money := by
  unfold closeRow
  split
  · rw [Option.map_map, Option.map_map]
    congr 1
    funext lot
    exact buildCloseTrade_money h ..
  · rfl

/-- **The fused projection is the staged one**, whether it builds its row or is handed the one a
preview built at the same rate. -/
theorem project_eq {e : Engine α} {o : OneLot α} {isScoped : Bool} (heff : o.Effective isScoped)
    (fill : Fill α) {row : Option (Trade α)}
    (hrow : row = none ∨ ∃ context, contextFx e context = o.fx ∧ row = o.closeRow e fill context) :
    projectStage e (.ready (o.toStaged isScoped)) fill = o.project e fill row := by
  have hread : (o.settledRow e fill { accountFx := some o.fx }).map Trade.money
      = (if o.closes ∧ row.isNone then o.closeRow e fill { accountFx := some o.fx }
          else row).map Trade.money := by
    rw [settledRow_money]
    rcases hrow with rfl | ⟨context, hfx, rfl⟩
    · cases hcl : o.closes <;> simp [closeRow, hcl]
    · split
      · rfl
      · exact closeRow_money (show contextFx e { accountFx := some o.fx } = _ from hfx.symm) o fill
  have hrows : addPnls (buildNativeSettlementCloseRows e (o.toStaged isScoped) fill
        { accountFx := some o.fx }) e.netProfitSum
      = addPnls (if o.closes ∧ row.isNone then o.closeRow e fill { accountFx := some o.fx }
        else row).toList e.netProfitSum := by
    rw [rows_eq]
    apply addPnls_congr
    rw [← Option.toList_map, ← Option.toList_map, hread]
  unfold projectStage
  dsimp only
  rw [if_neg (toStaged_effective heff)]
  unfold Staged.project project
  dsimp only
  rw [toStaged_fx, hrows]
  cases addPnls (if o.closes ∧ row.isNone then o.closeRow e fill { accountFx := some o.fx }
      else row).toList e.netProfitSum <;>
    simp only [toStaged_opens, toStaged_survivors, or_true, true_and, List.any_nil,
      Bool.false_eq_true, if_false, projection_eq, toStaged_afterQty, toStaged_ticket]

/-! ## Committing the fused stage -/

/-- Failures that differ in their code at most. -/
def SameFailure (f g : Failure) : Prop := f.args = g.args ∧ f.message = g.message

/-- Answers that agree up to the code a thrown failure carries. -/
def SameAnswer {β : Type} : Except Failure β → Except Failure β → Prop
  | .ok a, .ok b => a = b
  | .error f, .error g => SameFailure f g
  | _, _ => False

/-- Runs that agree in result and state, up to the code a thrown failure carries. -/
def SameRun {β : Type} (x y : EStateM.Result Failure (Engine α) β) : Prop :=
  match x, y with
  | .ok a s, .ok b t => a = b ∧ s = t
  | .error f s, .error g t => SameFailure f g ∧ s = t
  | _, _ => False

omit [Arith α] in
theorem SameRun.refl {β : Type} (x : EStateM.Result Failure (Engine α) β) : SameRun x x := by
  cases x with
  | ok a e => exact ⟨rfl, rfl⟩
  | error f e => exact ⟨⟨rfl, rfl⟩, rfl⟩

theorem SameAnswer.refl {β : Type} (x : Except Failure β) : SameAnswer x x := by
  cases x with
  | ok a => rfl
  | error f => exact ⟨rfl, rfl⟩

/-- The staged preparation of a fused stage: it throws together with the fused one, refuses with
its status, and else hands over the fused row. -/
theorem prepare_eq {e : Engine α} {o : OneLot α} {isScoped : Bool}
    (heff : o.Effective isScoped) (fill : Fill α) (context : PhysicalExecutionContext α) :
    match o.prepare e (o.settledRow e fill context) with
    | .error f => ∃ g, prepareNativeSettlementCommit e (.ready (o.toStaged isScoped)) fill context
        = .error g ∧ SameFailure f g
    | .ok status => prepareNativeSettlementCommit e (.ready (o.toStaged isScoped)) fill context
        = .ok (if status = .applied then
          .ok (o.toStaged isScoped, (o.settledRow e fill context).toList)
            else .error status) := by
  have hscoped : ¬ ((o.toStaged isScoped).isScoped = true ∧ ((o.toStaged isScoped).closed == 0)
      = true) := by
    rintro ⟨hs, hc⟩
    rcases heff with h | ⟨h, -⟩
    · exact absurd (hc.symm.trans h) (by decide)
    · exact absurd (hs.symm.trans h) (by decide)
  have hcycle : ((o.toStaged isScoped).opens = true ∧ (e.positionSide = .flat
        ∨ (o.toStaged isScoped).survivors = []) ∧ cycleExhausted e.nextPositionCycleSeq)
      ↔ (o.opens = true ∧ cycleExhausted e.nextPositionCycleSeq) := by simp
  have hafter : ((!isFinite (o.toStaged isScoped).afterQty) = true
        ∨ (!isFinite (o.toStaged isScoped).afterPrice) = true)
      ↔ ((!isFinite o.afterQty) = true ∨ (!isFinite o.afterPrice) = true) := Iff.rfl
  unfold prepare prepareNativeSettlementCommit
  dsimp only
  rw [if_neg hscoped, rows_eq]
  by_cases h1 : o.opens = true ∧ cycleExhausted e.nextPositionCycleSeq
  · rw [if_pos h1, if_pos (hcycle.2 h1)]
    exact ⟨_, rfl, rfl, rfl⟩
  rw [if_neg h1, if_neg (mt hcycle.1 h1)]
  by_cases h2 : (!isFinite o.afterQty) = true ∨ (!isFinite o.afterPrice) = true
  · rw [if_pos h2, if_pos (hafter.2 h2)]
    rfl
  rw [if_neg h2, if_neg (mt hafter.1 h2)]
  cases rowsBookable e (o.settledRow e fill context).toList <;> rfl

theorem preflight_eq (e : Engine α) (o : OneLot α) (isScoped : Bool) (rows : List (Trade α)) :
    preflightNativeSettlementEffects e (o.toStaged isScoped) rows = o.preflight e rows := by
  simp only [preflightNativeSettlementEffects, preflight, toStaged_survivors, ne_eq,
    not_true_eq_false, false_and, and_false, if_false, toStaged_opens]
  rfl

theorem commit_eq (o : OneLot α) (isScoped : Bool) (fill : Fill α)
    (context : PhysicalExecutionContext α) (rows : List (Trade α)) :
    commitPreparedNativeSettlementStage (o.toStaged isScoped) fill context rows
      = o.commit fill context rows := by
  have hclose : (fun e : Engine α => closeBook e (o.toStaged isScoped))
      = fun e => if 0 < o.closed then resetPositionStateToFlat e else e := by
    funext e
    simp [closeBook]
  unfold commitPreparedNativeSettlementStage commit
  rw [hclose]
  rfl

/-- **The fused settlement is the staged one.** -/
theorem settle_eq {e : Engine α} {o : OneLot α} {isScoped : Bool} (heff : o.Effective isScoped)
    (fill : Fill α) (context : PhysicalExecutionContext α) :
    SameRun (o.settle fill context e)
      (commitNativeSettlementStage (.ready (o.toStaged isScoped)) fill context e) := by
  have hprep := prepare_eq heff (e := e) fill context
  unfold settle commitNativeSettlementStage
  simp only [EngineM.run_bind, EngineM.run_get, EngineM.check]
  cases hp : o.prepare e (o.settledRow e fill context) with
  | error f =>
    rw [hp] at hprep
    obtain ⟨g, hg, hm⟩ := hprep
    rw [hg]
    exact ⟨hm, rfl⟩
  | ok status =>
    rw [hp] at hprep
    rw [hprep]
    by_cases hst : status = .applied
    · simp only [hst, ne_eq, not_true_eq_false, if_false, if_true]
      simp only [EngineM.run_bind, EngineM.check, preflight_eq, commit_eq]
      exact SameRun.refl _
    · simp only [hst, ne_eq, not_false_eq_true, if_true, if_false]
      exact ⟨rfl, rfl⟩

/-- A preparation reads nothing of the exit facts a settlement adds to its row. -/
theorem prepare_settledRow (e : Engine α) (o : OneLot α) (fill : Fill α)
    (context : PhysicalExecutionContext α) :
    o.prepare e (o.settledRow e fill context) = o.prepare e (o.closeRow e fill context) := by
  unfold settledRow
  cases o.closeRow e fill context <;> rfl

/-- The one-lot preview is the staged one. -/
theorem preview_eq {e : Engine α} {o : OneLot α} {isScoped : Bool} (heff : o.Effective isScoped)
    (fill : Fill α) {context : PhysicalExecutionContext α} (hfx : contextFx e context = o.fx) :
    SameAnswer (o.preview e fill context)
      (previewStage e (.ready (o.toStaged isScoped)) fill context) := by
  have hprep := prepare_eq heff (e := e) fill context
  rw [prepare_settledRow] at hprep
  have hproj : projectStage e (.ready (o.toStaged isScoped)) fill
      = o.project e fill (if e.lotExcursionHook.isNone then o.closeRow e fill context
        else none) := by
    apply project_eq heff
    split
    · exact .inr ⟨context, hfx, rfl⟩
    · exact .inl rfl
  have hpnl : (o.settledRow e fill context).toList.map (·.pnl)
      = (o.closeRow e fill context).toList.map (·.pnl) := by
    unfold settledRow
    cases o.closeRow e fill context <;> rfl
  unfold preview previewStage
  simp only [bind, Except.bind, hproj]
  cases hp : o.prepare e (o.closeRow e fill context) with
  | error f =>
    rw [hp] at hprep
    obtain ⟨g, hg, hm⟩ := hprep
    rw [hg]
    exact hm
  | ok status =>
    rw [hp] at hprep
    rw [hprep]
    cases o.project e fill (if e.lotExcursionHook.isNone then o.closeRow e fill context
      else none) with
    | error f => exact ⟨rfl, rfl⟩
    | ok account =>
      by_cases hst : status = .applied
      · simp only [hst, if_true, readinessOf, hpnl]
        rfl
      · simp only [hst, if_false, readinessOf]
        rfl

end OneLot

open OneLot

variable [Arith α]

/-- An accepted fused stage is the staged one at the same rate and has an effect; a throw is the
same throw. -/
theorem admits_agrees [Sane α] (fused : Bool) (x : Execution α) (e : Engine α) (fill : Fill α)
    (lifecycle : Option LifecycleEffects) (fx : α) :
    ∃ isScoped, Agrees isScoped fx (OneLot.admits fused x e fill lifecycle fx)
      (x.stage e fill lifecycle fx) := by
  cases fused with
  | false => exact ⟨false, trivial⟩
  | true =>
    cases x with
    | reverse signedUnits => exact ⟨false, stageReversal_agrees e signedUnits fill lifecycle fx⟩
    | act action scope selected =>
      cases selected with
      | none => exact ⟨scope.isOpening, stage_agrees e action fill scope lifecycle fx⟩
      | some selection => exact ⟨false, trivial⟩

theorem inspect_fused [Sane α] (x : Execution α) (e : Engine α) (fill : Fill α) (fx : α) :
    inspectExecution true x e fill fx = inspectExecution false x e fill fx := by
  obtain ⟨isScoped, h⟩ := admits_agrees true x e fill none fx
  have hoff : OneLot.admits false x e fill none fx = .ok none := rfl
  unfold inspectExecution
  rw [hoff]
  cases ha : OneLot.admits true x e fill none fx with
  | error f =>
    rw [ha] at h
    have hs : x.stage e fill none fx = .error f := h
    simp only [hs]
    rfl
  | ok answer =>
    cases answer with
    | none => rfl
    | some o =>
      rw [ha] at h
      obtain ⟨hs, heff, -⟩ := h
      simp only [bind, Except.bind, hs, inspect_eq heff]

theorem project_fused [Sane α] (x : Execution α) (e : Engine α) (fill : Fill α) (fx : α) :
    projectExecution true x e fill fx = projectExecution false x e fill fx := by
  obtain ⟨isScoped, h⟩ := admits_agrees true x e fill none fx
  have hoff : OneLot.admits false x e fill none fx = .ok none := rfl
  unfold projectExecution
  rw [hoff]
  cases ha : OneLot.admits true x e fill none fx with
  | error f =>
    rw [ha] at h
    have hs : x.stage e fill none fx = .error f := h
    simp only [hs]
    rfl
  | ok answer =>
    cases answer with
    | none => rfl
    | some o =>
      rw [ha] at h
      obtain ⟨hs, heff, -⟩ := h
      simp only [bind, Except.bind, hs, project_eq heff fill (.inl rfl)]

theorem preview_fused [Sane α] (x : Execution α) (e : Engine α) (fill : Fill α)
    (context : PhysicalExecutionContext α) :
    SameAnswer (previewExecution true x e fill context)
      (previewExecution false x e fill context) := by
  obtain ⟨isScoped, h⟩ := admits_agrees true x e fill none (contextFx e context)
  have hoff : OneLot.admits false x e fill none (contextFx e context) = .ok none := rfl
  unfold previewExecution
  rw [hoff]
  cases ha : OneLot.admits true x e fill none (contextFx e context) with
  | error f =>
    rw [ha] at h
    have hs : x.stage e fill none (contextFx e context) = .error f := h
    simp only [hs]
    exact SameAnswer.refl _
  | ok answer =>
    cases answer with
    | none => exact SameAnswer.refl _
    | some o =>
      rw [ha] at h
      obtain ⟨hs, heff, hfx⟩ := h
      simp only [bind, Except.bind, hs]
      exact preview_eq heff fill hfx.symm

theorem settle_fused [Sane α] (x : Execution α) (e : Engine α) (fill : Fill α)
    (lifecycle : LifecycleEffects) (context : PhysicalExecutionContext α) :
    SameRun (settleExecution true x fill lifecycle context e)
      (settleExecution false x fill lifecycle context e) := by
  obtain ⟨isScoped, h⟩ := admits_agrees true x e fill (some lifecycle) (contextFx e context)
  have hoff : OneLot.admits false x e fill (some lifecycle) (contextFx e context) = .ok none := rfl
  unfold settleExecution
  simp only [EngineM.run_bind, EngineM.check, hoff]
  cases ha : OneLot.admits true x e fill (some lifecycle) (contextFx e context) with
  | error f =>
    rw [ha] at h
    have hs : x.stage e fill (some lifecycle) (contextFx e context) = .error f := h
    simp only [hs]
    exact ⟨⟨rfl, rfl⟩, rfl⟩
  | ok answer =>
    cases answer with
    | none =>
      simp only [EngineM.run_bind, EngineM.check]
      exact SameRun.refl _
    | some o =>
      rw [ha] at h
      obtain ⟨hs, heff, -⟩ := h
      simp only [hs]
      exact settle_eq heff fill context

/-- A declined pass has changed nothing: the staged chain runs as if it had not been tried. -/
theorem settle_declined (x : Execution α) (e : Engine α) (fill : Fill α)
    (lifecycle : LifecycleEffects) (context : PhysicalExecutionContext α)
    (h : OneLot.admits true x e fill (some lifecycle) (contextFx e context) = .ok none) :
    settleExecution true x fill lifecycle context e
      = settleExecution false x fill lifecycle context e := by
  have hoff : OneLot.admits false x e fill (some lifecycle) (contextFx e context) = .ok none := rfl
  unfold settleExecution
  simp only [EngineM.run_bind, EngineM.check, hoff, h]

/-- **The fused one-lot settlement equals the staged one**, under every reading of the arithmetic
in which zero is a zero: each entry point answers the same with the fused pass on and off, a
settlement leaves the same engine, and when the pass declines it has changed nothing and the staged
chain runs. Only the failure code of an exhausted counter may differ. -/
theorem fused_eq_staged [Sane α] (x : Execution α) (e : Engine α) (fill : Fill α) (fx : α)
    (lifecycle : LifecycleEffects) (context : PhysicalExecutionContext α) :
    inspectExecution true x e fill fx = inspectExecution false x e fill fx
    ∧ projectExecution true x e fill fx = projectExecution false x e fill fx
    ∧ SameAnswer (previewExecution true x e fill context) (previewExecution false x e fill context)
    ∧ SameRun (settleExecution true x fill lifecycle context e)
        (settleExecution false x fill lifecycle context e)
    ∧ (OneLot.admits true x e fill (some lifecycle) (contextFx e context) = .ok none →
        settleExecution true x fill lifecycle context e
          = settleExecution false x fill lifecycle context e) :=
  ⟨inspect_fused x e fill fx, project_fused x e fill fx, preview_fused x e fill context,
    settle_fused x e fill lifecycle context, settle_declined x e fill lifecycle context⟩

/-! ## Where the laws are needed -/

/-- An engine that holds one lot of one unit. -/
def Engine.oneLong {α : Type} [Arith α] : Engine α :=
  { Engine.initial 0 with
    positionSide := .long
    positionCycleSeq := 1
    nextPositionCycleSeq := 2
    positionEntryPrice := 1
    positionQty := 1
    positionEntryCount := 1
    pyramidEntries := [{
      price := 1, time := 0, qty := 1, entryId := "L", maxRunup := 0, maxDrawdown := 0 }] }

/-- A fill at the price one. -/
def Fill.atOne {α : Type} [Arith α] : Fill α := { price := 1, id := "S", comment := "" }

/-- The fused pass takes the reversal of one lot, and answers as the staged chain does. -/
theorem fused_eq_staged_reversal :
    (OneLot.admits true (.reverse (-1)) (Engine.oneLong (α := ℚ)) Fill.atOne (some {}) 1).map
        (·.isSome) = .ok true
      ∧ SameRun (settleExecution true (.reverse (-1)) Fill.atOne {} {} (Engine.oneLong (α := ℚ)))
          (settleExecution false (.reverse (-1)) Fill.atOne {} {} Engine.oneLong) :=
  ⟨by decide +kernel, (fused_eq_staged (.reverse (-1)) Engine.oneLong Fill.atOne 1 {} {}).2.2.2.1⟩

/-- Integers under a subtraction that always answers two. -/
structure Crooked where
  val : Int
  deriving DecidableEq

instance : Arith Crooked where
  zero := ⟨0⟩
  one := ⟨1⟩
  add a b := ⟨a.val + b.val⟩
  sub _ _ := ⟨2⟩
  mul a b := ⟨a.val * b.val⟩
  div a b := ⟨a.val / b.val⟩
  neg a := ⟨-a.val⟩
  lt a b := a.val < b.val
  le a b := a.val ≤ b.val
  beq a b := a.val == b.val
  decLt a b := inferInstanceAs (Decidable (a.val < b.val))
  decLe a b := inferInstanceAs (Decidable (a.val ≤ b.val))
  abs a := ⟨a.val.natAbs⟩
  isFinite _ := true
  nan := ⟨0⟩
  inf := ⟨0⟩
  nextUp := id
  lit q := ⟨q.num / q.den⟩

/-- When a number minus itself is positive, the staged chain keeps a rest of the lot it closed
whole and the fused pass does not. -/
theorem fused_ne_staged_crooked :
    (OneLot.admits true (.reverse (-1)) (Engine.oneLong (α := Crooked)) Fill.atOne none 1).map
        (·.isSome) = .ok true
      ∧ (inspectExecution true (.reverse (-1)) (Engine.oneLong (α := Crooked)) Fill.atOne 1).map
        (·.resultingLotCount) = .ok 1
      ∧ (inspectExecution false (.reverse (-1)) (Engine.oneLong (α := Crooked)) Fill.atOne 1).map
        (·.resultingLotCount) = .ok 2 := by
  decide +kernel

end PineForge.Settlement
