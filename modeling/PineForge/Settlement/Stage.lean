import PineForge.Settlement.Basic

/-!
# Staging a settlement

The prospective effect of one execution (`engine_execution.cpp`): which lots close, and by how
much (`closeSplit`, walked over the book in order), what opens, and what each part is charged
(`quoteExecutionCommissions`). Staging changes nothing; it answers a refusal, no effect, or a
`Staged` value whose rows and survivors the commit installs.
-/

namespace PineForge.Settlement

open Arith

/-- What a settlement asks for. -/
inductive Action (α : Type) where
  | flatten
  | reduce (units : α)
  | transact (signedUnits : α)

/-- `execution::OpeningExposure`. -/
structure OpeningExposure where
  incarnation : Nat
  cycle : Int

/-- The lots a close may take. -/
inductive CloseScope where
  | book
  | opening (exposure : OpeningExposure)

/-- Whether a scope is one opening. -/
def CloseScope.isOpening : CloseScope → Bool
  | .book => false
  | .opening _ => true

/-- `execution::SelectedOpeningSet`. -/
structure SelectedOpeningSet where
  cycle : Int
  incarnations : List Nat

/-- The lifecycle batch of a caller; settlement reads only whether it is empty. -/
structure LifecycleEffects where
  preClose : Bool := false
  removals : List Nat := []

variable {α : Type} [Arith α]

/-- The action is to flatten. -/
def Action.isFlatten : Action α → Bool
  | .flatten => true
  | _ => false

/-- The action is to reduce. -/
def Action.isReduce : Action α → Bool
  | .reduce _ => true
  | _ => false

/-- The action is to transact. -/
def Action.isTransact : Action α → Bool
  | .transact _ => true
  | _ => false

/-- The units an action asks for; a flatten asks for none. -/
def Action.requested : Action α → α
  | .flatten => 0
  | .reduce units => units
  | .transact signedUnits => Arith.abs signedUnits

/-- Effects that nothing may carry out. -/
def nonemptyLifecycleRefused : Option LifecycleEffects → Bool
  | none => false
  | some l => l.preClose || !l.removals.isEmpty

/-! ## The quantity transition -/

/-- `order_action::plan(position, Reduce)`: whether the reduction is representable. -/
def planReduce (signedPosition units : α) : Bool :=
  if !isFinite signedPosition ∨ !isFinite units ∨ units < 0 then false
  else
    let close := cmin units (Arith.abs signedPosition)
    let signedClose := if 0 < signedPosition then -close
      else if signedPosition < 0 then close else 0
    let after := signedPosition + signedClose
    if !isFinite after ∨ !isFinite close ∨ !isFinite signedClose then false
    else if 0 < units ∧ signedPosition != 0 ∧ after == signedPosition then false
    else true

/-- `order_action::plan(position, Transact)`: whether the transaction is representable. -/
def planTransact (signedPosition signedUnits : α) : Bool :=
  if !isFinite signedPosition ∨ !isFinite signedUnits then false
  else
    let after := signedPosition + signedUnits
    if !isFinite after then false
    else if signedUnits != 0 ∧ after == signedPosition then false
    else
      let crosses := signedPosition != 0 ∧ signedUnits != 0
        ∧ decide (0 < signedPosition) ≠ decide (0 < signedUnits)
      let close := if crosses then cmin (Arith.abs signedPosition) (Arith.abs signedUnits) else 0
      let remainder := Arith.abs signedUnits - close
      let opened := if crosses then (if 0 < signedUnits then remainder else -remainder)
        else signedUnits
      if !isFinite close ∨ close < 0 ∨ !isFinite opened then false else true

/-! ## Splitting a lot -/

/-- How a close splits a lot. -/
structure CloseSplit (α : Type) where
  status : Status := .applied
  amount : α
  kept : α

/-- The running sums of a close: units closed so far and the rest of the request. -/
structure Walk (α : Type) where
  closed : α
  remaining : α

/-- A refused split; the walk stops with it. -/
def CloseSplit.unrepresentable : CloseSplit α := ⟨.unrepresentableQuantity, 0, 0⟩

/-- Split a lot without tolerance. -/
def nextCloseSplit (lot : PyramidEntry α) (closes flatten : Bool) (requested : α) (w : Walk α) :
    CloseSplit α × Walk α :=
  let amount := if !closes then 0 else if flatten then lot.qty else cmin lot.qty w.remaining
  if amount == 0 then (⟨.applied, 0, lot.qty⟩, w)
  else
    let kept := lot.qty - amount
    let nextClosed := w.closed + amount
    if !isFinite nextClosed ∨ kept == lot.qty
        ∨ (!flatten ∧ w.closed != 0 ∧ (nextClosed == w.closed ∨ nextClosed == amount)) then
      (.unrepresentable, w)
    else if flatten then (⟨.applied, amount, kept⟩, ⟨nextClosed, w.remaining⟩)
    else if requested < nextClosed ∨ (nextClosed < requested ∧ kept != 0) then
      (⟨.applied, amount, kept⟩, ⟨requested, 0⟩)
    -- here a kept part means that the sum is the request
    else if kept != 0 ∧ w.closed + lot.qty == requested then
      (⟨.applied, lot.qty, 0⟩, ⟨requested, 0⟩)
    else
      let nextRemaining := requested - nextClosed
      if nextRemaining == w.remaining then (.unrepresentable, w)
      else (⟨.applied, amount, kept⟩, ⟨nextClosed, nextRemaining⟩)

/-- The same step under a declared quantity tolerance. -/
def tolerantCloseSplit (lot : PyramidEntry α) (requested tolerance : α) (w : Walk α) :
    CloseSplit α × Walk α :=
  if w.remaining == 0 then (⟨.applied, 0, lot.qty⟩, w)
  else if w.closed != 0 ∧ w.remaining ≤ tolerance ∧ tolerance < lot.qty then
    (⟨.applied, 0, lot.qty⟩, ⟨requested, 0⟩)
  else
    let amount₀ := cmin lot.qty w.remaining
    let kept₀ := lot.qty - amount₀
    let snapsWhole : Bool := kept₀ != 0 && decide (kept₀ ≤ tolerance)
    let amount := if snapsWhole then lot.qty else amount₀
    let kept := if snapsWhole then 0 else kept₀
    let dustLot : Bool := amount == lot.qty && decide (lot.qty ≤ tolerance)
    let nextClosed := w.closed + amount
    if !isFinite nextClosed ∨ kept == lot.qty
        ∨ (w.closed != 0 ∧ nextClosed == w.closed ∧ !dustLot)
        ∨ (w.closed != 0 ∧ nextClosed == amount ∧ tolerance < w.closed) then
      (.unrepresentable, w)
    else if snapsWhole then (⟨.applied, amount, kept⟩, ⟨requested, 0⟩)
    else if requested < nextClosed ∨ (nextClosed < requested ∧ kept != 0) then
      (⟨.applied, amount, kept⟩, ⟨requested, 0⟩)
    else if kept != 0 ∧ w.closed + lot.qty == requested then
      (⟨.applied, lot.qty, 0⟩, ⟨requested, 0⟩)
    else
      let nextRemaining := requested - nextClosed
      if nextRemaining == w.remaining ∧ !dustLot then (.unrepresentable, w)
      else (⟨.applied, amount, kept⟩, ⟨nextClosed, nextRemaining⟩)

/-- Split a lot. -/
def closeSplit (lot : PyramidEntry α) (closes flatten : Bool) (requested tolerance : α)
    (w : Walk α) : CloseSplit α × Walk α :=
  if 0 < tolerance ∧ closes ∧ !flatten then tolerantCloseSplit lot requested tolerance w
  else nextCloseSplit lot closes flatten requested w

/-- Take what is left within the tolerance. -/
def finishTolerantWalk (tolerance : α) (closes flatten : Bool) (requested : α) (w : Walk α) :
    Walk α :=
  if 0 < tolerance ∧ closes ∧ !flatten ∧ w.closed != 0 ∧ 0 < w.remaining
      ∧ w.remaining ≤ tolerance then ⟨requested, 0⟩
  else w

/-! ## What a split can be -/

/-- The outcomes of an accepted split, by whether the lot may close and whether it closes whole:
the lot is outside the close, the close is over (`done`) or ends before the lot (`stop`), it takes
the lot whole (`whole`), ends inside it (`ends`) or at its end (`snap`), or goes on (`next`). -/
inductive Splits (lot : PyramidEntry α) (requested tolerance : α) (w : Walk α) :
    Bool → Bool → CloseSplit α → Walk α → Prop
  | outside (flatten : Bool) :
    Splits lot requested tolerance w false flatten ⟨.applied, 0, lot.qty⟩ w
  | empty (hq : (lot.qty == 0) = true) :
    Splits lot requested tolerance w true true ⟨.applied, 0, lot.qty⟩ w
  | done (hr : (w.remaining == 0) = true ∨ (cmin lot.qty w.remaining == 0) = true) :
    Splits lot requested tolerance w true false ⟨.applied, 0, lot.qty⟩ w
  | stop (ht : 0 < tolerance) (hc : (w.closed == 0) = false) (hr : w.remaining ≤ tolerance)
      (hq : tolerance < lot.qty) :
    Splits lot requested tolerance w true false ⟨.applied, 0, lot.qty⟩ ⟨requested, 0⟩
  | whole (hq : (lot.qty == 0) = false) (hf : isFinite (w.closed + lot.qty) = true) :
    Splits lot requested tolerance w true true ⟨.applied, lot.qty, lot.qty - lot.qty⟩
      ⟨w.closed + lot.qty, w.remaining⟩
  | ends (hr : (w.remaining == 0) = false ∨ (cmin lot.qty w.remaining == 0) = false)
      (ht : 0 < tolerance → (lot.qty - cmin lot.qty w.remaining == 0) = true
        ∨ ¬ lot.qty - cmin lot.qty w.remaining ≤ tolerance)
      (hn : requested < w.closed + cmin lot.qty w.remaining
        ∨ (w.closed + cmin lot.qty w.remaining < requested
          ∧ (lot.qty - cmin lot.qty w.remaining == 0) = false)) :
    Splits lot requested tolerance w true false
      ⟨.applied, cmin lot.qty w.remaining, lot.qty - cmin lot.qty w.remaining⟩ ⟨requested, 0⟩
  | snap (hr : (w.remaining == 0) = false ∨ (cmin lot.qty w.remaining == 0) = false)
      (hk : (lot.qty - cmin lot.qty w.remaining == 0) = false)
      (hs : (0 < tolerance ∧ lot.qty - cmin lot.qty w.remaining ≤ tolerance)
        ∨ (w.closed + lot.qty == requested) = true) :
    Splits lot requested tolerance w true false ⟨.applied, lot.qty, 0⟩ ⟨requested, 0⟩
  | next (hr : (w.remaining == 0) = false ∨ (cmin lot.qty w.remaining == 0) = false)
      (ht : 0 < tolerance → (lot.qty - cmin lot.qty w.remaining == 0) = true
        ∨ ¬ lot.qty - cmin lot.qty w.remaining ≤ tolerance)
      (hn : ¬ requested < w.closed + cmin lot.qty w.remaining)
      (hk : w.closed + cmin lot.qty w.remaining < requested →
        (lot.qty - cmin lot.qty w.remaining == 0) = true)
      (hs : (lot.qty - cmin lot.qty w.remaining == 0) = false →
        (w.closed + lot.qty == requested) = false)
      (hf : isFinite (w.closed + cmin lot.qty w.remaining) = true) :
    Splits lot requested tolerance w true false
      ⟨.applied, cmin lot.qty w.remaining, lot.qty - cmin lot.qty w.remaining⟩
      ⟨w.closed + cmin lot.qty w.remaining,
        requested - (w.closed + cmin lot.qty w.remaining)⟩

/-- An accepted exact split is one of the outcomes. -/
theorem nextCloseSplit_splits {lot : PyramidEntry α} {closes flatten : Bool}
    {requested tolerance : α} {w : Walk α} (ht : closes = true → flatten = false → ¬ 0 < tolerance)
    (h0 : closes = false → ((0 : α) == 0) = true)
    (hst : (nextCloseSplit lot closes flatten requested w).1.status = .applied) :
    Splits lot requested tolerance w closes flatten
      (nextCloseSplit lot closes flatten requested w).1
      (nextCloseSplit lot closes flatten requested w).2 := by
  unfold nextCloseSplit at hst ⊢
  cases closes with
  | false => simp only [Bool.not_false, if_true, h0 rfl]; exact .outside flatten
  | true =>
    cases flatten with
    | true =>
      simp only [Bool.not_true, Bool.false_eq_true, if_false, if_true] at hst ⊢
      split
      · next hq => exact .empty hq
      · next hq =>
        rw [if_neg hq] at hst
        split
        · next hr => rw [if_pos hr] at hst; cases hst
        · next hr => exact .whole (by simpa using hq) (by simpa using (not_or.1 hr).1)
    | false =>
      simp only [Bool.not_true, Bool.not_false, Bool.false_eq_true, if_false, true_and]
        at hst ⊢
      have ht := ht rfl rfl
      split
      · next hq => exact .done (.inr hq)
      · next hq =>
        have hq' : (cmin lot.qty w.remaining == 0) = false := by simpa using hq
        rw [if_neg hq] at hst
        split
        · next hr => rw [if_pos hr] at hst; cases hst
        · next hr =>
          rw [if_neg hr] at hst
          split
          · next hn =>
            exact .ends (.inr hq') (fun h => absurd h ht)
              (hn.imp id fun h => ⟨h.1, by simpa [bne] using h.2⟩)
          · next hn =>
            rw [if_neg hn] at hst
            obtain ⟨hn1, hn2⟩ := not_or.1 hn
            split
            · next hs => exact .snap (.inr hq') (by simpa [bne] using hs.1) (.inr hs.2)
            · next hs =>
              rw [if_neg hs] at hst
              split
              · next hz => rw [if_pos hz] at hst; cases hst
              · exact .next (.inr hq') (fun h => absurd h ht) hn1
                  (fun h => by simpa [h, bne] using hn2) (fun h => by simpa [h, bne] using hs)
                  (by simpa using (not_or.1 hr).1)

/-- An accepted tolerant split is one of the outcomes. -/
theorem tolerantCloseSplit_splits {lot : PyramidEntry α} {requested tolerance : α} {w : Walk α}
    (hpos : 0 < tolerance)
    (hst : (tolerantCloseSplit lot requested tolerance w).1.status = .applied) :
    Splits lot requested tolerance w true false (tolerantCloseSplit lot requested tolerance w).1
      (tolerantCloseSplit lot requested tolerance w).2 := by
  unfold tolerantCloseSplit at hst ⊢
  split
  · next hr => exact .done (.inl hr)
  next hr =>
  rw [if_neg hr] at hst
  have hr' : (w.remaining == 0) = false := by simpa using hr
  split
  · next hb => exact .stop hpos (by simpa [bne] using hb.1) hb.2.1 hb.2.2
  next hb =>
  rw [if_neg hb] at hst
  -- whether the kept part is within the tolerance decides the amount
  cases hsn : (lot.qty - cmin lot.qty w.remaining != 0
    && decide (lot.qty - cmin lot.qty w.remaining ≤ tolerance)) with
  | true =>
    simp only [hsn, if_true] at hst ⊢
    obtain ⟨hk, hle⟩ := Bool.and_eq_true_iff.1 hsn
    split
    · next hu => rw [if_pos hu] at hst; cases hst
    · exact .snap (.inl hr') (by simpa [bne] using hk) (.inl ⟨hpos, of_decide_eq_true hle⟩)
  | false =>
    simp only [hsn, Bool.false_eq_true, if_false] at hst ⊢
    have ht : 0 < tolerance → (lot.qty - cmin lot.qty w.remaining == 0) = true
        ∨ ¬ lot.qty - cmin lot.qty w.remaining ≤ tolerance := by
      intro _
      rcases Bool.and_eq_false_iff.1 hsn with h | h
      · exact .inl (by simpa [bne] using h)
      · exact .inr (of_decide_eq_false h)
    split
    · next hu => rw [if_pos hu] at hst; cases hst
    next hu =>
    rw [if_neg hu] at hst
    split
    · next hn => exact .ends (.inl hr') ht (hn.imp id fun h => ⟨h.1, by simpa [bne] using h.2⟩)
    next hn =>
    rw [if_neg hn] at hst
    obtain ⟨hn1, hn2⟩ := not_or.1 hn
    split
    · next hs => exact .snap (.inl hr') (by simpa [bne] using hs.1) (.inr hs.2)
    next hs =>
    rw [if_neg hs] at hst
    split
    · next hz => rw [if_pos hz] at hst; cases hst
    · exact .next (.inl hr') ht hn1 (fun h => by simpa [h, bne] using hn2)
        (fun h => by simpa [h, bne] using hs) (by simpa using (not_or.1 hu).1)

/-- **An accepted split is one of the outcomes.** -/
theorem closeSplit_splits {lot : PyramidEntry α} {closes flatten : Bool} {requested tolerance : α}
    {w : Walk α} (h0 : closes = false → ((0 : α) == 0) = true)
    (hst : (closeSplit lot closes flatten requested tolerance w).1.status = .applied) :
    Splits lot requested tolerance w closes flatten
      (closeSplit lot closes flatten requested tolerance w).1
      (closeSplit lot closes flatten requested tolerance w).2 := by
  unfold closeSplit at hst ⊢
  split
  · next hc =>
    rw [if_pos hc] at hst
    obtain ⟨ht, rfl, hf⟩ := hc
    have hf : flatten = false := by simpa using hf
    subst hf
    exact tolerantCloseSplit_splits ht hst
  · next hc =>
    rw [if_neg hc] at hst
    exact nextCloseSplit_splits (fun h1 h2 h3 => hc ⟨h3, h1, by simpa using h2⟩) h0 hst

/-! ## Scopes -/

/-- The units of lots, from a start. -/
def heldFrom (start : α) (lots : List (PyramidEntry α)) : α := sumFrom start (lots.map (·.qty))

/-- `inspect_close_scope`: the units the scope holds, or why it is refused. -/
def inspectCloseScope (scope : CloseScope) (action : Action α) (currentCycle : Int)
    (lots : List (PyramidEntry α)) (wholeBookHeld : α) : Except Status α :=
  match scope with
  | .book => .ok wholeBookHeld
  | .opening exposure =>
    if exposure.incarnation = 0 ∨ exposure.cycle ≤ 0 ∨ exposure.cycle ≠ currentCycle
        ∨ (!action.isFlatten ∧ !action.isReduce) then .error .invalidCloseTarget
    else
      let held := heldFrom 0 (lots.filter fun lot => lot.entryIncarnation == exposure.incarnation)
      if held == 0 then .error .invalidCloseTarget
      else if !isFinite held then .error .invalidBook
      else .ok held

/-- The selected ids, each nonzero, new and held by a live lot. -/
def collectSelected (live : List Nat) : List Nat → List Nat → Option (List Nat)
  | [], ids => some ids
  | id :: rest, ids =>
    if id = 0 ∨ id ∈ ids ∨ id ∉ live then none else collectSelected live rest (id :: ids)

/-- The running sum of the selected lots, refused once it is not finite. -/
def heldSelected (ids : List Nat) : List (PyramidEntry α) → α → Option α
  | [], held => some held
  | lot :: lots, held =>
    if lot.entryIncarnation ∈ ids then
      let held := held + lot.qty
      if isFinite held then heldSelected ids lots held else none
    else heldSelected ids lots held

/-- `inspect_selected_opening_set`: the selected ids and the units they hold. -/
def inspectSelectedOpeningSet (selection : SelectedOpeningSet) (action : Action α)
    (currentCycle : Int) (lots : List (PyramidEntry α)) : Except Status (List Nat × α) :=
  if action.isTransact ∨ selection.cycle ≤ 0 ∨ selection.cycle ≠ currentCycle
      ∨ selection.incarnations = [] then .error .invalidCloseTarget
  else
    match collectSelected (lots.map (·.entryIncarnation)) selection.incarnations [] with
    | none => .error .invalidCloseTarget
    | some ids =>
      match heldSelected ids lots 0 with
      | none => .error .invalidBook
      | some held => if held == 0 then .error .invalidCloseTarget else .ok (ids, held)

/-- Which lots a close may take. -/
inductive Membership where
  | scope (scope : CloseScope)
  | selected (ids : List Nat)

/-- Whether the lots are selected. -/
def Membership.isSelected : Membership → Bool
  | .scope _ => false
  | .selected _ => true

/-- Whether a lot may be taken. -/
def Membership.contains (m : Membership) (lot : PyramidEntry α) : Bool :=
  match m with
  | .scope .book => true
  | .scope (.opening exposure) => lot.entryIncarnation == exposure.incarnation
  | .selected ids => ids.contains lot.entryIncarnation

/-! ## The book -/

/-- `validate_native_settlement_book`: the held units, or `none` for an invalid book. -/
def validateLots : List (PyramidEntry α) → α → Option α
  | [], held => some held
  | lot :: lots, held =>
    if !isFinite lot.qty ∨ lot.qty ≤ 0 ∨ !isFinite lot.price then none
    else
      let held := held + lot.qty
      if isFinite held then validateLots lots held else none

/-- The book's units, where it is valid. -/
def validateNativeSettlementBook (e : Engine α) : Option α :=
  if (e.positionSide = .flat) ≠ (e.pyramidEntries = []) then none
  else validateLots e.pyramidEntries 0

/-- One lot's close: its index in the book and the units it closes. -/
structure Closing (α : Type) where
  index : Nat
  quantity : α

/-- What a close leaves and takes. -/
structure Allocation (α : Type) where
  survivors : List (PyramidEntry α)
  closings : List (Closing α)
  walk : Walk α

/-- The lot a split keeps: its part of the quantity, of the carried excursions and of the entry
fee. -/
def splitSurvivor (e : Engine α) (lot : PyramidEntry α) (split : CloseSplit α) : PyramidEntry α :=
  let scale := split.kept / lot.qty
  { lot with
    qty := split.kept
    maxRunup := lot.maxRunup * scale
    maxDrawdown := lot.maxDrawdown * scale
    entryCommissionAccount := some
      (openEntryCommission e lot - allocatedEntryCommission e lot split.amount) }

/-- How a close walks the book: whether it closes at all, which lots, whether whole, and the
request. -/
structure CloseOrder (α : Type) where
  closes : Bool
  membership : Membership
  flatten : Bool
  requested : α

/-- The loop of `allocate_native_settlement_closes` from lot `index` on. -/
def allocateFrom (e : Engine α) (c : CloseOrder α) :
    Nat → List (PyramidEntry α) → Walk α → Except Status (Allocation α)
  | _, [], w => .ok ⟨[], [], w⟩
  | index, lot :: lots, w =>
    let (split, w') := closeSplit lot (c.closes && c.membership.contains lot) c.flatten c.requested
      e.nativeQuantityTolerance w
    if split.status ≠ .applied then .error split.status
    else
      match allocateFrom e c (index + 1) lots w' with
      | .error status => .error status
      | .ok rest =>
        if split.amount == 0 then .ok { rest with survivors := lot :: rest.survivors }
        else .ok { rest with
          survivors := if 0 < split.kept then splitSurvivor e lot split :: rest.survivors
            else rest.survivors
          closings := ⟨index, split.amount⟩ :: rest.closings }

/-- Allocate closes over the book. -/
def allocateNativeSettlementCloses (e : Engine α) (c : CloseOrder α) (remaining : α) :
    Except Status (Allocation α) :=
  match allocateFrom e c 0 e.pyramidEntries ⟨0, remaining⟩ with
  | .error status => .error status
  | .ok a => .ok { a with
      walk := finishTolerantWalk e.nativeQuantityTolerance c.closes c.flatten c.requested a.walk }

/-! ## Fees -/

/-- A modeled commission that is finite. -/
def checkedModeledExecutionCommission (value : α) : Except Failure α :=
  if isFinite value then .ok value else .error (feeInvalid "numeric_overflow")

/-- A resolved execution's modeled fee: a percentage is charged on the absolute notional. -/
def nativeModeledCommission (e : Engine α) (price fx quantity : α) : Except Failure α :=
  if e.commissionType = .percent then
    checkedModeledExecutionCommission
      (Arith.abs price * quantity * e.pointvalue * fx * (e.commissionValue / lit 100))
  else checkedModeledExecutionCommission (calcCommission e price quantity)

/-- The share of a ticket one row takes, kept between zero and what is left of it. -/
def clampShare (ticket share remainingFee : α) : α :=
  if 0 ≤ ticket then clamp share 0 remainingFee else clamp share remainingFee 0

/-- The rows' shares of a ticket and what is left for the opening. -/
def shareTicket (ticket units opening : α) : List α → α → List α × α
  | [], remainingFee => ([], remainingFee)
  | q :: rest, remainingFee =>
    let share := clampShare ticket
      (if opening == 0 ∧ rest = [] then remainingFee else ticket * (q / units)) remainingFee
    let (shares, left) := shareTicket ticket units opening rest (remainingFee - share)
    (share :: shares, left)

/-- The fee of each closed row, and of the opening. -/
structure Costs (α : Type) where
  rows : List α
  opening : α

/-- The modeled commission of each close. -/
def modeledRows (e : Engine α) (price fx : α) : List α → Except Failure (List α)
  | [] => .ok []
  | q :: rest => do
    let cost ← nativeModeledCommission e price fx q
    return cost :: (← modeledRows e price fx rest)

/-- `quote_execution_commissions`: a unit or notional schedule charges each allocation, a flat or
pinned ticket is shared across the whole execution. -/
def quoteExecutionCommissions (e : Engine α) (closedUnits : List α) (opening : α) (fill : Fill α)
    (fx : α) : Except Failure (Costs α) :=
  if fill.commissionAccount.isNone ∧ e.commissionType ≠ .cashPerOrder then do
    let rows ← modeledRows e fill.price fx closedUnits
    let cost ← if 0 < opening then nativeModeledCommission e fill.price fx opening else .ok 0
    return ⟨rows, cost⟩
  else
    let units := sumFrom opening closedUnits
    if units == 0 then .ok ⟨closedUnits.map fun _ => 0, 0⟩
    else if !isFinite units then .error (feeInvalid "numeric_overflow")
    else
      let ticket := fill.commissionAccount.getD (calcCommission e fill.price units)
      if !isFinite ticket then
        .error (feeInvalid (if fill.commissionAccount.isSome then "nonfinite"
          else "numeric_overflow"))
      else
        let (rows, left) := shareTicket ticket units opening closedUnits ticket
        .ok ⟨rows, if 0 < opening then left else 0⟩

/-- The sum of the quoted costs, each and every partial sum finite. -/
def ticketSum : List α → α → Except Failure α
  | [], ticket => .ok ticket
  | cost :: rest, ticket =>
    if !isFinite cost then .error (feeInvalid "nonfinite")
    else
      let ticket := ticket + cost
      if isFinite ticket then ticketSum rest ticket else .error (feeInvalid "numeric_overflow")

/-! ## The stage -/

/-- A staged execution, ready to commit. -/
structure Staged (α : Type) where
  isScoped : Bool
  incoming : PositionSide
  wasLong : Bool
  closed : α
  opening : α
  ticket : α
  afterQty : α
  afterPrice : α
  fx : α
  closings : List (Closing α)
  costs : Costs α
  survivors : List (PyramidEntry α)

/-- What staging answers. -/
inductive NativeSettlementStage (α : Type) where
  | invalid (status : Status)
  | noEffect (status : Status) (fx : α)
  | ready (stage : Staged α)

/-- The units left after a close, and the weighted sum of their prices. -/
def survivorSums (survivors : List (PyramidEntry α)) : α × α :=
  survivors.foldl (fun s lot => (s.1 + lot.qty, s.2 + lot.price * lot.qty)) (0, 0)

/-- What is staged before the fees: the sides, the allocation and the opening. -/
structure Draft (α : Type) where
  isScoped : Bool
  incoming : PositionSide
  wasLong : Bool
  closed : α
  opening : α
  closings : List (Closing α)
  survivors : List (PyramidEntry α)

/-- Quote the costs and check the rest. -/
def finishNativeSettlementStage (e : Engine α) (d : Draft α) (fill : Fill α) (fx : α) :
    Except Failure (NativeSettlementStage α) := do
  let costs ← quoteExecutionCommissions e (d.closings.map (·.quantity)) d.opening fill fx
  let summed ← ticketSum (costs.rows ++ [costs.opening]) 0
  let ticket := fill.commissionAccount.getD summed
  let (keptQty, keptWeighted) := survivorSums d.survivors
  let opens : Bool := 0 < d.opening
  let next := keptQty + d.opening
  let dustBook : Bool := decide (0 < e.nativeQuantityTolerance)
    && decide (keptQty ≤ e.nativeQuantityTolerance)
  if opens ∧ (!isFinite next
      ∨ (0 < keptQty ∧ (next == keptQty ∨ (next == d.opening ∧ !dustBook)))) then
    return .invalid .unrepresentableQuantity
  let afterQty := if opens then next else keptQty
  let weighted := if opens then keptWeighted + fill.price * d.opening else keptWeighted
  let afterPrice := match d.survivors, opens with
    | [], true => fill.price
    | [lot], false => lot.price
    | _, _ => if 0 < afterQty then weighted / afterQty else 0
  return .ready {
    isScoped := d.isScoped, incoming := d.incoming, wasLong := d.wasLong, closed := d.closed
    opening := d.opening, ticket := ticket, afterQty := afterQty, afterPrice := afterPrice
    fx := fx, closings := d.closings, costs := costs, survivors := d.survivors }

/-- The status of an execution without effect: a nonzero pinned ticket has nothing to pay for. -/
def noEffectStatus (fill : Fill α) : Status :=
  match fill.commissionAccount with
  | some fee => if fee != 0 then .invalidAccounting else .noEffect
  | none => .noEffect

/-- The first tests of both forms, the fill's own price and pinned ticket. -/
def fillRefusal (fill : Fill α) : Option Status :=
  if !isFinite fill.price then some .invalidPrice
  else if fill.commissionAccount.any (!isFinite ·) then some .invalidAccounting
  else none

/-- Units with the sign of a side. -/
def signedSide (side : PositionSide) (held : α) : α := if side = .short then -held else held

/-- The side a transaction of these units takes; an action without one reads as long. -/
def incomingSide : Action α → PositionSide
  | .transact signedUnits => if signedUnits < 0 then .short else .long
  | _ => .long

/-- Which lots an execution selects, the units they hold, and whether the close is scoped. -/
structure Selection (α : Type) where
  membership : Membership
  held : α
  isScoped : Bool

/-- The lots an action may close, and their units. -/
def inspectMembership (e : Engine α) (action : Action α) (scope : CloseScope)
    (selected : Option SelectedOpeningSet) (held : α) : Except Status (Selection α) :=
  match selected with
  | some selection =>
    match inspectSelectedOpeningSet selection action e.positionCycleSeq e.pyramidEntries with
    | .error status => .error status
    | .ok (ids, held) => .ok ⟨.selected ids, held, true⟩
  | none =>
    match inspectCloseScope scope action e.positionCycleSeq e.pyramidEntries held with
    | .error status => .error status
    | .ok held => .ok ⟨.scope scope, held, scope.isOpening⟩

/-- Whether a plan of the action exists on the selected units. -/
def planned (e : Engine α) (action : Action α) (held allocationRequested : α) : Bool :=
  match action with
  | .flatten => true
  | .reduce _ => planReduce (signedSide e.positionSide held) allocationRequested
  | .transact signedUnits => planTransact (signedSide e.positionSide held) signedUnits

/-- A transaction against the held side. -/
def opposes (e : Engine α) (action : Action α) : Bool :=
  action.isTransact && decide (e.positionSide ≠ .flat)
    && decide (e.positionSide ≠ incomingSide action)

/-- The units to allocate. -/
def allocationRequest (action : Action α) (s : Selection α) : α :=
  if s.isScoped ∧ action.isReduce then cmin action.requested s.held else action.requested

/-- How the walk of an action closes: a selected reduction of exactly what is held closes whole. -/
def closeOrder (e : Engine α) (action : Action α) (s : Selection α) : CloseOrder α where
  closes := action.isFlatten || action.isReduce || opposes e action
  membership := s.membership
  flatten := action.isFlatten
    || (s.membership.isSelected && allocationRequest action s == s.held)
  requested := allocationRequest action s

/-- Allocate the closes of an action and finish its stage. -/
def stageAllocated (e : Engine α) (action : Action α) (fill : Fill α) (s : Selection α) (fx : α) :
    Except Failure (NativeSettlementStage α) :=
  match allocateNativeSettlementCloses e (closeOrder e action s) (allocationRequest action s) with
  | .error status => .ok (.invalid status)
  | .ok a =>
    let opening := if !action.isTransact then 0
      else if opposes e action then a.walk.remaining else action.requested
    if 0 < opening ∧ opposes e action ∧ a.survivors ≠ [] then
      .ok (.invalid .unrepresentableQuantity)
    else
      finishNativeSettlementStage e {
        isScoped := s.isScoped, incoming := incomingSide action
        wasLong := e.positionSide = .long, closed := a.walk.closed
        opening := opening, closings := a.closings, survivors := a.survivors } fill fx

/-- Stage an action on the selected lots: the tests for an effect, the plan, the allocation. -/
def stageSelected (e : Engine α) (action : Action α) (fill : Fill α) (s : Selection α) (fx : α) :
    Except Failure (NativeSettlementStage α) :=
  if !action.isFlatten ∧ action.requested == 0 then .ok (.noEffect (noEffectStatus fill) fx)
  else if (action.isFlatten ∨ action.isReduce) ∧ e.pyramidEntries = [] then
    .ok (.noEffect (noEffectStatus fill) fx)
  else if !planned e action s.held (allocationRequest action s) then
    .ok (.invalid .unrepresentableQuantity)
  else stageAllocated e action fill s fx

/-- Stage a settlement. -/
def stageNativeSettlement (e : Engine α) (action : Action α) (fill : Fill α) (scope : CloseScope)
    (selected : Option SelectedOpeningSet) (lifecycle : Option LifecycleEffects) (fx : α) :
    Except Failure (NativeSettlementStage α) :=
  match fillRefusal fill with
  | some status => .ok (.invalid status)
  | none =>
    if !isFinite action.requested ∨ (action.isReduce ∧ action.requested < 0) then
      .ok (.invalid .invalidQuantity)
    else
      match validateNativeSettlementBook e with
      | none => .ok (.invalid .invalidBook)
      | some held =>
        if nonemptyLifecycleRefused lifecycle then .ok (.invalid .invalidLifecycle)
        else
          match inspectMembership e action scope selected held with
          | .error status => .ok (.invalid status)
          | .ok s => stageSelected e action fill s fx

/-- Staging a reversal: the whole opposite book closes and the exact target opens. -/
def stageNativeReversal (e : Engine α) (signedUnits : α) (fill : Fill α)
    (lifecycle : Option LifecycleEffects) (fx : α) : Except Failure (NativeSettlementStage α) :=
  match fillRefusal fill with
  | some status => .ok (.invalid status)
  | none =>
    if !isFinite signedUnits ∨ signedUnits == 0 then .ok (.invalid .invalidQuantity)
    else
      match validateNativeSettlementBook e with
      | none => .ok (.invalid .invalidBook)
      | some _ =>
        if nonemptyLifecycleRefused lifecycle then .ok (.invalid .invalidLifecycle)
        else
          let incoming : PositionSide := if signedUnits < 0 then .short else .long
          if e.positionSide = .flat ∨ e.positionSide = incoming then
            .ok (.invalid .invalidCloseTarget)
          else
            match allocateNativeSettlementCloses e ⟨true, .scope .book, true, 0⟩ 0 with
            | .error status => .ok (.invalid status)
            | .ok a =>
              let opening := Arith.abs signedUnits
              if !isFinite (a.walk.closed + opening) then
                .ok (.invalid .unrepresentableQuantity)
              else
                finishNativeSettlementStage e {
                  isScoped := false, incoming := incoming, wasLong := e.positionSide = .long
                  closed := a.walk.closed, opening := opening, closings := a.closings
                  survivors := a.survivors } fill fx

end PineForge.Settlement
