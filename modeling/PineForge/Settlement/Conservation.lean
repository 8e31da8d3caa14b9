import Mathlib.Algebra.Order.BigOperators.Group.List
import PineForge.Settlement.Fifo
import PineForge.Settlement.Projection

/-!
# Settlement conserves units and money

Over the rationals an applied settlement conserves: the units of the book (`Fifo`), the ticket it
charges over its rows and its opening (`costs_ticket`), and the marked equity up to that ticket
(`settle_conserves`).
-/

namespace PineForge.Settlement

open Arith

/-! ## The closes of a stage -/

/-- The lots an execution may close. -/
def Execution.member (x : Execution ℚ) (lot : PyramidEntry ℚ) : Bool :=
  match x with
  | .act _ scope none => (Membership.scope scope).contains lot
  | .act _ _ (some selection) => selection.incarnations.contains lot.entryIncarnation
  | .reverse _ => true

/-- The units a book holds, signed by its side. -/
def Engine.signedUnits (e : Engine ℚ) : ℚ :=
  signedSide e.positionSide (e.pyramidEntries.map (·.qty)).sum

/-- The exact facts of a ready stage: which lots it takes, and that what it reports is what it
takes, up to the tolerance. -/
structure Staged.Takes (x : Execution ℚ) (e : Engine ℚ) (s : Staged ℚ)
    (taken : List (PyramidEntry ℚ × ℚ)) : Prop where
  fifo : Fifo e x.member e.pyramidEntries taken s.survivors
  names : List.Forall₂ (Names e) s.closings taken
  charged : |s.closed - (taken.map (·.2)).sum| ≤ e.nativeQuantityTolerance
  opening : 0 ≤ s.opening
  transacts : ∀ signedUnits scope selected, x = .act (.transact signedUnits) scope selected →
    |signedSide (s.resultingSide e) s.afterQty - (e.signedUnits + signedUnits)|
      ≤ e.nativeQuantityTolerance
  reverses : ∀ signedUnits, x = .reverse signedUnits →
    signedSide (s.resultingSide e) s.afterQty = signedUnits

theorem collectSelected_eq {live ids acc out : List Nat}
    (h : collectSelected live ids acc = some out) : out = ids.reverse ++ acc := by
  induction ids generalizing acc with
  | nil => cases h; rfl
  | cons id ids ih =>
    simp only [collectSelected] at h
    split at h
    · cases h
    · rw [ih h, List.reverse_cons, List.append_assoc]
      rfl

theorem inspectMembership_member {e : Engine ℚ} {action : Action ℚ} {scope : CloseScope}
    {selected : Option SelectedOpeningSet} {held : ℚ} {sel : Selection ℚ}
    (h : inspectMembership e action scope selected held = .ok sel) (lot : PyramidEntry ℚ) :
    sel.membership.contains lot = (Execution.act action scope selected).member lot := by
  unfold inspectMembership at h
  cases selected with
  | none =>
    simp only at h
    split at h
    · cases h
    · cases h; rfl
  | some selection =>
    simp only [inspectSelectedOpeningSet] at h
    split at h
    · cases h
    next ids total hs =>
    cases h
    split at hs
    · cases hs
    split at hs
    · cases hs
    next hids =>
    split at hs
    · cases hs
    split at hs
    · cases hs
    cases hs
    simp [Membership.contains, Execution.member, collectSelected_eq hids]

/-! ## Signed positions -/

theorem signedSide_add (side : PositionSide) (a b : ℚ) :
    signedSide side (a + b) = signedSide side a + signedSide side b := by
  unfold signedSide
  split
  · ring
  · rfl

theorem abs_signedSide_sub (side : PositionSide) (a b : ℚ) :
    |signedSide side a - signedSide side b| = |a - b| := by
  unfold signedSide
  split
  · rw [show -a - -b = -(a - b) by ring, abs_neg]
  · rfl

theorem signedSide_incoming (signedUnits : ℚ) :
    signedSide (incomingSide (.transact signedUnits)) |signedUnits| = signedUnits := by
  simp only [signedSide, incomingSide]
  rcases lt_or_ge signedUnits 0 with hneg | hnn
  · simp [hneg, abs_of_neg hneg]
  · simp [not_lt.2 hnn, abs_of_nonneg hnn]

theorem signedSide_opposite {side other : PositionSide} (hs : side ≠ .flat) (ho : other ≠ .flat)
    (hne : side ≠ other) (a : ℚ) : signedSide other a = signedSide side (-a) := by
  cases side <;> cases other <;> simp_all [signedSide]

section Stage

variable {e : Engine ℚ} {fill : Fill ℚ} {fx : ℚ} {s : Staged ℚ}

theorem Staged.Sound.afterQty_eq (h : s.Sound e fill fx) :
    s.afterQty = (s.survivors.map (·.qty)).sum + if s.opens then s.opening else 0 := by
  rw [h.afterQty]
  cases s.opens <;> simp

theorem transact_adds {signedUnits : ℚ} (h : s.Sound e fill fx)
    (hop : opposes e (.transact signedUnits) = false)
    (hin : s.incoming = incomingSide (.transact signedUnits))
    (hopening : s.opening = |signedUnits|) (hne : signedUnits ≠ 0) (hnil : s.closings = []) :
    signedSide (s.resultingSide e) s.afterQty = e.signedUnits + signedUnits := by
  have hopens : s.opens = true := by simp [Staged.opens, hopening, hne]
  have hsurv := (h.untouched hnil).2
  have hunits := signedSide_incoming signedUnits
  rw [← hin] at hunits
  rw [h.afterQty_eq, hsurv, if_pos hopens, hopening]
  unfold Engine.signedUnits Staged.resultingSide
  rw [hsurv]
  by_cases hlots : e.pyramidEntries = []
  · rw [if_neg (by simpa using hlots), if_pos hopens, hlots, h.side.2 hlots, signedSide_add, hunits]
    simp [signedSide]
  · have hflat : e.positionSide ≠ .flat := fun hf => hlots (h.side.1 hf)
    have hside : e.positionSide = s.incoming := by
      by_contra hne'
      rw [hin] at hne'
      simp [opposes, Action.isTransact, hflat, hne'] at hop
    rw [if_pos hlots, signedSide_add, hside, hunits]

/-- A transaction against the held side moves the position by what it asks for, up to the
tolerance. -/
theorem transact_opposes {signedUnits : ℚ} {taken : List (PyramidEntry ℚ × ℚ)} {w : Walk ℚ}
    {member : PyramidEntry ℚ → Bool} (h : s.Sound e fill fx)
    (hop : opposes e (.transact signedUnits) = true)
    (hin : s.incoming = incomingSide (.transact signedUnits))
    (hfifo : Fifo e member e.pyramidEntries taken s.survivors)
    (hsums : w.Exact |signedUnits| e.nativeQuantityTolerance (taken.map (·.2)).sum)
    (hopening : s.opening = w.remaining) (hflip : 0 < s.opening → s.survivors = []) :
    |signedSide (s.resultingSide e) s.afterQty - (e.signedUnits + signedUnits)|
      ≤ e.nativeQuantityTolerance := by
  obtain ⟨-, hflat, hside⟩ := opposes_iff.1 hop
  rw [← hin] at hside
  have hother := signedSide_opposite hflat h.incoming hside
  have hunits := hfifo.units
  have htotal := hsums.total
  -- the request against the held side, as a change of the signed position
  have hmove : e.signedUnits + signedUnits = signedSide e.positionSide
      ((e.pyramidEntries.map (·.qty)).sum + -|signedUnits|) := by
    have := signedSide_incoming signedUnits
    rw [← hin, hother] at this
    rw [signedSide_add, this, Engine.signedUnits]
  rw [hmove, h.afterQty_eq, Staged.resultingSide]
  by_cases hpos : 0 < s.opening
  · -- the book is gone, and the rest of the request opens the other side
    have hopens : s.opens = true := by simpa [Staged.opens] using hpos
    have hnone := hflip hpos
    have hclosed := hsums.going (by rw [← hopening]; exact hpos.ne')
    simp only [hnone, ne_eq, not_true_eq_false, if_false, hopens, if_true, List.map_nil,
      List.sum_nil, zero_add] at hunits ⊢
    rw [hother, abs_signedSide_sub, hunits, hopening]
    have hgone : -w.remaining - ((taken.map (·.2)).sum + -|signedUnits|) = 0 := by
      rw [← htotal, hclosed]
      ring
    rw [hgone, abs_zero]
    exact (abs_nonneg _).trans hsums.near
  · have hopens : s.opens = false := by simpa [Staged.opens] using hpos
    have hzero : w.remaining = 0 := by
      rw [hopening] at hpos
      exact le_antisymm (not_lt.1 hpos) hsums.remaining
    have hclosed : w.closed = |signedUnits| := by rw [← htotal, hzero, add_zero]
    have hsame : signedSide (if s.survivors ≠ [] then e.positionSide
        else if s.opens = true then s.incoming else .flat)
          ((s.survivors.map (·.qty)).sum + if s.opens = true then s.opening else 0)
        = signedSide e.positionSide (s.survivors.map (·.qty)).sum := by
      by_cases hs : s.survivors = []
      · simp [hs, hopens, signedSide]
      · simp [hs, hopens]
    rw [hsame, abs_signedSide_sub, hunits]
    have hrest : (s.survivors.map (·.qty)).sum - ((s.survivors.map (·.qty)).sum
        + (taken.map (·.2)).sum + -|signedUnits|) = w.closed - (taken.map (·.2)).sum := by
      rw [hclosed]
      ring
    rw [hrest]
    exact hsums.near

/-- **A ready stage takes first in, first out**, and reports what it takes. -/
theorem Readies.takes {x : Execution ℚ} (h : Readies e fill fx x s)
    (ht : 0 ≤ e.nativeQuantityTolerance) : ∃ taken, s.Takes x e taken := by
  have hsound := h.sound
  cases h with
  | @act action scope selected held sel a _ hfill hbook hsel hfin hreq hne hlots hplan halloc hflip
      hdraft hdone =>
    obtain ⟨hside, hv, -, -⟩ := validateBook hbook
    simp only [Staged.draft, Draft.mk.injEq] at hdraft
    obtain ⟨-, hin, -, hclosed, hopening, hclosings, hsurv⟩ := hdraft
    have hnn := request_nonneg (stage_request hbook hsel hfin hreq hne hlots)
    obtain ⟨taken, hfifo, hnames, hsums⟩ := allocate_fifo halloc hv ht
      fun hf => ⟨rfl, hnn⟩
    have hmember : Fifo e (Execution.act action scope selected).member e.pyramidEntries taken
        s.survivors := by
      rw [hsurv]
      refine hfifo.reread ?_
      cases hc : (closeOrder e action sel).closes with
      | true => exact .inl fun lot => inspectMembership_member hsel lot
      | false => exact .inr fun _ => rfl
    -- a transaction takes from the whole book and never flattens
    have hexact : action.isTransact = true → a.walk.Exact action.requested
        e.nativeQuantityTolerance (taken.map (·.2)).sum := by
      intro htr
      have hsel' := inspectMembership_transact hsel htr
      cases action with
      | flatten => cases htr
      | reduce units => cases htr
      | transact units =>
        simpa [CloseOrder.Sums, closeOrder, hsel', Action.isFlatten, Membership.isSelected,
          allocationRequest] using hsums
    refine ⟨taken, hmember, hclosings ▸ hnames, ?_, ?_, ?_, fun _ hx => by cases hx⟩
    · rw [hclosed]; exact hsums.near ht
    · rw [hopening, Action.opening]
      split
      · exact le_rfl
      · next htr =>
        have htr : action.isTransact = true := by simpa using htr
        split
        · exact (hexact htr).remaining
        · cases action with
          | flatten => cases htr
          | reduce units => cases htr
          | transact units => exact abs_nonneg units
    · intro signedUnits scope' selected' hx
      cases hx
      cases hop : opposes e (.transact signedUnits) with
      | true =>
        refine transact_opposes hsound hop hin hmember (hexact rfl) ?_ ?_
        · rw [hopening]; simp [Action.opening, Action.isTransact, hop]
        · rw [hopening, hsurv]; exact fun hpos => hflip hpos hop
      | false =>
        have hnil : taken = [] := hfifo.taken_nil fun lot => by
          simp [closeOrder, hop, Action.isFlatten, Action.isReduce]
        have hnone : s.closings = [] := by
          rw [hclosings]
          rw [hnil] at hnames
          exact List.forall₂_nil_right_iff.1 hnames
        have hadds := transact_adds hsound hop hin
          (by rw [hopening]; simp [Action.opening, Action.isTransact, hop, Action.requested])
          (by simpa [Action.requested] using hne rfl) hnone
        rw [hadds, sub_self, abs_zero]
        exact ht
  | @reverse signedUnits held a _ hfill hbook hfin hne hflat hopp halloc hsum hdraft hdone =>
    obtain ⟨hside, hv, -, -⟩ := validateBook hbook
    simp only [Staged.draft, Draft.mk.injEq] at hdraft
    obtain ⟨-, hin, -, hclosed, hopening, hclosings, hsurv⟩ := hdraft
    obtain ⟨taken, hfifo, hnames, hsums⟩ := allocate_fifo halloc hv ht fun hf => by cases hf
    refine ⟨taken, hsurv ▸ hfifo.reread (.inl fun _ => rfl), hclosings ▸ hnames, ?_, ?_,
      (fun _ _ _ hx => by cases hx), ?_⟩
    · rw [hclosed]; exact hsums.near ht
    · rw [hopening]; exact abs_nonneg signedUnits
    · intro u hx
      cases hx
      have hnone : s.survivors = [] := by
        obtain ⟨b, hw, rfl⟩ := allocate_walk halloc
        rw [hsurv]
        exact allocateFrom_whole (a := b) hw hv rfl (fun _ => rfl) rfl
      have hopens : s.opens = true := by
        have : signedUnits ≠ 0 := by simpa using hne
        simp [Staged.opens, hopening, this]
      rw [hsound.afterQty_eq, Staged.resultingSide]
      simp only [hnone, ne_eq, not_true_eq_false, if_false, hopens, if_true, List.map_nil,
        List.sum_nil, zero_add, hopening, hin]
      exact signedSide_incoming signedUnits

end Stage

/-! ## The ticket -/

/-- A share is on the side of its ticket and leaves a rest on that side. -/
def FeeSide (ticket fee : ℚ) : Prop := (0 ≤ ticket → 0 ≤ fee) ∧ (¬ 0 ≤ ticket → fee ≤ 0)

theorem clampShare_rest {ticket share fee : ℚ} (h : FeeSide ticket fee) :
    FeeSide ticket (fee - clampShare ticket share fee) := by
  unfold clampShare clamp
  by_cases ht : 0 ≤ ticket
  · have hf := h.1 ht
    refine ⟨fun _ => ?_, fun hn => absurd ht hn⟩
    rw [if_pos ht]
    split_ifs <;> linarith
  · have hf := h.2 ht
    refine ⟨fun hp => absurd hp ht, fun _ => ?_⟩
    rw [if_neg ht]
    split_ifs <;> linarith

theorem clampShare_whole {ticket fee : ℚ} (h : FeeSide ticket fee) :
    clampShare ticket fee fee = fee := by
  unfold clampShare clamp
  by_cases ht : 0 ≤ ticket
  · have hf := h.1 ht
    rw [if_pos ht, if_neg (not_lt.2 hf), if_neg (lt_irrefl _)]
  · have hf := h.2 ht
    rw [if_neg ht, if_neg (lt_irrefl _), if_neg (not_lt.2 hf)]

theorem shareTicket_total (ticket units opening : ℚ) (closedUnits : List ℚ) (fee : ℚ) :
    (shareTicket ticket units opening closedUnits fee).1.sum
      + (shareTicket ticket units opening closedUnits fee).2 = fee := by
  induction closedUnits generalizing fee with
  | nil => simp [shareTicket]
  | cons q rest ih =>
    simp only [shareTicket, List.sum_cons]
    rw [add_assoc, ih]
    ring

theorem shareTicket_left {ticket units fee : ℚ} {closedUnits : List ℚ} (hne : closedUnits ≠ [])
    (h : FeeSide ticket fee) : (shareTicket ticket units 0 closedUnits fee).2 = 0 := by
  induction closedUnits generalizing fee with
  | nil => exact absurd rfl hne
  | cons q rest ih =>
    simp only [shareTicket]
    cases rest with
    | nil => simp [shareTicket, clampShare_whole h]
    | cons q' rest => exact ih (by simp) (clampShare_rest h)

theorem ticketSum_eq {costs : List ℚ} {start ticket : ℚ} (h : ticketSum costs start = .ok ticket) :
    ticket = start + costs.sum := by
  induction costs generalizing start with
  | nil => cases h; simp
  | cons cost costs ih =>
    simp only [ticketSum, rat_isFinite, Bool.not_true, Bool.false_eq_true, if_false, if_true] at h
    rw [ih h, List.sum_cons, add_assoc]

theorem quote_shared {e : Engine ℚ} {closedUnits : List ℚ} {opening fx ticket : ℚ} {fill : Fill ℚ}
    {costs : Costs ℚ} (h : quoteExecutionCommissions e closedUnits opening fill fx = .ok costs)
    (hpin : fill.commissionAccount = some ticket) (hunits : opening + closedUnits.sum ≠ 0) :
    costs = ⟨(shareTicket ticket (opening + closedUnits.sum) opening closedUnits ticket).1,
      if 0 < opening then (shareTicket ticket (opening + closedUnits.sum) opening closedUnits
        ticket).2 else 0⟩ := by
  simp only [quoteExecutionCommissions, hpin, Option.isNone_some, Bool.false_eq_true, false_and,
    if_false, rat_sumFrom, beq_iff_eq, hunits, rat_isFinite, Bool.not_true, Option.getD_some,
    Except.ok.injEq] at h
  exact h.symm

theorem quote_opening {e : Engine ℚ} {closedUnits : List ℚ} {opening fx : ℚ} {fill : Fill ℚ}
    {costs : Costs ℚ} (h : quoteExecutionCommissions e closedUnits opening fill fx = .ok costs)
    (hno : ¬ 0 < opening) : costs.opening = 0 := by
  unfold quoteExecutionCommissions at h
  split at h
  · simp only [bind, Except.bind, pure, Except.pure] at h
    split at h
    · cases h
    · cases h; rfl
  · simp only at h
    split at h
    · cases h; rfl
    split at h
    · cases h
    split at h
    · cases h
    · cases h; rfl

/-- **The ticket is what the rows and the opening are charged.** -/
theorem costs_ticket {e : Engine ℚ} {fill : Fill ℚ} {fx : ℚ} {s : Staged ℚ}
    (h : s.Finished e fill fx) (hpos : ∀ c ∈ s.closings, 0 < c.quantity) (hopen : 0 ≤ s.opening)
    (heff : s.closings ≠ [] ∨ s.opens = true) :
    s.costs.rows.sum + s.costs.opening = s.ticket := by
  obtain ⟨summed, hsum, hticket⟩ := h.ticket
  cases hpin : fill.commissionAccount with
  | none =>
    rw [hpin, Option.getD_none] at hticket
    rw [hticket, ticketSum_eq hsum]
    simp
  | some ticket =>
    rw [hpin, Option.getD_some] at hticket
    have hnn : 0 ≤ (s.closings.map (·.quantity)).sum := List.sum_nonneg fun q hq => by
      obtain ⟨c, hc, rfl⟩ := List.mem_map.1 hq
      exact (hpos c hc).le
    have hunits : s.opening + (s.closings.map (·.quantity)).sum ≠ 0 := by
      rcases heff with hne | hopens
      · have : 0 < (s.closings.map (·.quantity)).sum := List.sum_pos _ (fun q hq => by
          obtain ⟨c, hc, rfl⟩ := List.mem_map.1 hq
          exact hpos c hc) (by simpa using hne)
        linarith
      · have : 0 < s.opening := by simpa [Staged.opens] using hopens
        linarith
    have hcosts := quote_shared h.costs hpin hunits
    have htotal := shareTicket_total ticket (s.opening + (s.closings.map (·.quantity)).sum)
      s.opening (s.closings.map (·.quantity)) ticket
    rw [hcosts, hticket]
    by_cases hp : 0 < s.opening
    · rw [if_pos hp]
      exact htotal
    · have hzero : s.opening = 0 := le_antisymm (not_lt.1 hp) hopen
      have hne : s.closings ≠ [] := heff.resolve_right (by simpa [Staged.opens] using hp)
      have hleft := @shareTicket_left ticket (s.opening + (s.closings.map (·.quantity)).sum) ticket
        (s.closings.map (·.quantity)) (by simpa using hne) ⟨id, fun h => (not_le.1 h).le⟩
      rw [hzero] at htotal hleft ⊢
      rw [hleft] at htotal
      rw [if_neg (lt_irrefl _)]
      exact htotal

/-! ## The rows -/

section Rows

variable {e : Engine ℚ} {s : Staged ℚ} {fill : Fill ℚ} {context : PhysicalExecutionContext ℚ}

/-- The row of one closed part. -/
def closedRow (e : Engine ℚ) (s : Staged ℚ) (fill : Fill ℚ) (context : PhysicalExecutionContext ℚ)
    (p : PyramidEntry ℚ × ℚ) (cost : ℚ) : Trade ℚ :=
  { buildCloseTradeWithCosts e p.1 p.2 fill.price s.wasLong
      (allocatedEntryCommission e p.1 p.2) cost context with
    exitId := fill.id
    exitComment := fill.comment
    closeCause := fill.closeCause }

theorem closeRows_zip {taken : List (PyramidEntry ℚ × ℚ)}
    (h : List.Forall₂ (Names e) s.closings taken) :
    buildNativeSettlementCloseRows e s fill context
      = List.zipWith (closedRow e s fill context) taken s.costs.rows := by
  unfold buildNativeSettlementCloseRows
  generalize s.closings = closings at h
  generalize s.costs.rows = costs
  induction h generalizing costs with
  | nil => rfl
  | @cons c p cs ps hname h ih =>
    cases costs with
    | nil => rfl
    | cons cost costs =>
      simp only [List.zip_cons_cons, List.filterMap_cons, hname.1, Option.map_some,
        List.zipWith_cons_cons, ih, hname.2]
      rfl

theorem names_quantity {closings : List (Closing ℚ)} {taken : List (PyramidEntry ℚ × ℚ)}
    (h : List.Forall₂ (Names e) closings taken) :
    closings.map (·.quantity) = taken.map (·.2) := by
  induction h with
  | nil => rfl
  | cons hname h ih => simp only [List.map_cons, hname.2, ih]

/-- The profit of a closed part before its exit fee. -/
def partProfit (e : Engine ℚ) (wasLong : Bool) (price fx : ℚ) (lot : PyramidEntry ℚ) (amount : ℚ) :
    ℚ :=
  (if wasLong then price - lot.price else lot.price - price) * amount * e.pointvalue * fx
    - allocatedEntryCommission e lot amount

theorem closedRow_pnl (p : PyramidEntry ℚ × ℚ) (cost : ℚ) :
    (closedRow e s fill context p cost).pnl
      = partProfit e s.wasLong fill.price (contextFx e context) p.1 p.2 - cost := by
  simp only [closedRow, buildCloseTradeWithCosts, partProfit]
  ring

theorem closedRows_pnl {taken : List (PyramidEntry ℚ × ℚ)} {costs : List ℚ}
    (h : costs.length = taken.length) :
    ((List.zipWith (closedRow e s fill context) taken costs).map (·.pnl)).sum
      = (taken.map fun p => partProfit e s.wasLong fill.price (contextFx e context) p.1 p.2).sum
        - costs.sum := by
  induction taken generalizing costs with
  | nil => simp [List.length_eq_zero_iff.1 h]
  | cons p taken ih =>
    cases costs with
    | nil => cases h
    | cons cost costs =>
      simp only [List.zipWith_cons_cons, List.map_cons, List.sum_cons, closedRow_pnl,
        ih (Nat.succ.inj h)]
      ring

/-- A row closes the named part of a lot. -/
structure Trade.Closes (t : Trade ℚ) (p : PyramidEntry ℚ × ℚ) : Prop where
  qty : t.qty = p.2
  entryPrice : t.entryPrice = p.1.price
  entryTime : t.entryTime = p.1.time
  entryId : t.entryId = p.1.entryId
  entryIncarnation : t.entryIncarnation = p.1.entryIncarnation

theorem closedRows_closes {taken : List (PyramidEntry ℚ × ℚ)} {costs : List ℚ}
    (h : costs.length = taken.length) :
    List.Forall₂ Trade.Closes (List.zipWith (closedRow e s fill context) taken costs) taken := by
  induction taken generalizing costs with
  | nil => simp
  | cons p taken ih =>
    cases costs with
    | nil => cases h
    | cons cost costs => exact .cons ⟨rfl, rfl, rfl, rfl, rfl⟩ (ih (Nat.succ.inj h))

theorem Closes.units {rows : List (Trade ℚ)} {taken : List (PyramidEntry ℚ × ℚ)}
    (h : List.Forall₂ Trade.Closes rows taken) :
    (rows.map (·.qty)).sum = (taken.map (·.2)).sum := by
  induction h with
  | nil => rfl
  | cons hp h ih => simp [hp.qty, ih]

end Rows

/-! ## The marked equity -/

section Equity

variable {e : Engine ℚ} {member : PyramidEntry ℚ → Bool} {lots kept : List (PyramidEntry ℚ)}
  {taken : List (PyramidEntry ℚ × ℚ)}

/-- The mark of one lot, net of the entry fee it still carries. -/
def Engine.markOf (e : Engine ℚ) (price fx : ℚ) (lot : PyramidEntry ℚ) : ℚ :=
  (if e.positionSide = .short then -1 else 1) * (price - lot.price) * lot.qty * e.pointvalue * fx
    - openEntryCommission e lot

/-- **Closing realizes the mark**: what the lots were marked at is what the kept ones are marked at
and what the closed parts realize before their exit fees. -/
theorem Fifo.marks (h : Fifo e member lots taken kept) (hv : LotsValid lots)
    (hside : e.positionSide ≠ .flat) (price fx : ℚ) :
    (lots.map (e.markOf price fx)).sum = (kept.map (e.markOf price fx)).sum
      + (taken.map fun p => partProfit e (e.positionSide = .long) price fx p.1 p.2).sum := by
  have hdir : ∀ lot : PyramidEntry ℚ, (if (decide (e.positionSide = .long)) = true
      then price - lot.price else lot.price - price)
      = (if e.positionSide = .short then -1 else 1) * (price - lot.price) := by
    intro lot
    cases hs : e.positionSide with
    | flat => exact absurd hs hside
    | long => simp
    | short => simp
  refine Fifo.conserves (f := e.markOf price fx)
    (g := partProfit e (e.positionSide = .long) price fx) ?_ ?_ h
  · intro lot hl
    have hq := (hv lot hl).1
    simp only [partProfit, Engine.markOf, hdir, allocatedEntryCommission, if_neg (not_le.2 hq),
      le_refl, if_true]
  · intro lot hl amount hpos hlt
    have hfee : openEntryCommission e (partKept e lot amount)
        = openEntryCommission e lot - allocatedEntryCommission e lot amount := by
      simp only [partKept, splitSurvivor, openEntryCommission, rat_isFinite, if_true]
    simp only [partProfit, Engine.markOf, hdir, hfee]
    simp only [partKept, splitSurvivor]
    ring

theorem markedEquityAt_eq (hside : e.positionSide = .flat ↔ e.pyramidEntries = [])
    (hv : LotsValid e.pyramidEntries) (price fx : ℚ) :
    markedEquityAt e price fx = e.initialCapital + e.netProfitSum
      + (e.pyramidEntries.map (e.markOf price fx)).sum := by
  have hany : (e.pyramidEntries.any fun lot => !isFinite lot.qty || decide (lot.qty ≤ 0)
      || !isFinite lot.price) = false := by
    rw [List.any_eq_false]
    intro lot hl
    simp [(hv lot hl).1]
  have hbook : ¬ ((!isFinite price) = true ∨ (!isFinite fx) = true
      ∨ (e.positionSide = .flat) ≠ (e.pyramidEntries = [])) := by simp [hside]
  rw [markedEquityAt, if_neg hbook, hany]
  simp only [Bool.false_eq_true, if_false, rat_sumFrom]
  rfl

end Equity

/-! ## Conservation -/

/-- What an applied settlement conserves: it takes the parts `taken` of the old lots, keeps `kept`
of them and appends `opened`. -/
structure Conserves (x : Execution ℚ) (e : Engine ℚ) (fill : Fill ℚ) (fx : ℚ) (r : Result ℚ)
    (e' : Engine ℚ) (taken : List (PyramidEntry ℚ × ℚ)) (kept opened : List (PyramidEntry ℚ)) :
    Prop where
  fifo : Fifo e x.member e.pyramidEntries taken kept
  rows : List.Forall₂ Trade.Closes (e'.trades.drop r.firstTradeIndex) taken
  book : e'.pyramidEntries = kept ++ opened
  opens : opened = [] ∨ ∃ lot, opened = [lot] ∧ lot.price = fill.price
  openedUnits : (opened.map (·.qty)).sum = |r.openedUnits|
  units : (e.pyramidEntries.map (·.qty)).sum
    = (kept.map (·.qty)).sum + ((e'.trades.drop r.firstTradeIndex).map (·.qty)).sum
  charged : |r.closedUnits - ((e'.trades.drop r.firstTradeIndex).map (·.qty)).sum|
    ≤ e.nativeQuantityTolerance
  transacts : ∀ signedUnits scope selected, x = .act (.transact signedUnits) scope selected →
    |e'.signedUnits - (e.signedUnits + signedUnits)| ≤ e.nativeQuantityTolerance
  reverses : ∀ signedUnits, x = .reverse signedUnits → e'.signedUnits = signedUnits
  positionQty : e'.positionQty = (e'.pyramidEntries.map (·.qty)).sum
  positionEntryPrice : e'.positionEntryPrice
    = (e'.pyramidEntries.map fun lot => lot.price * lot.qty).sum
      / (e'.pyramidEntries.map (·.qty)).sum
  equity : markedEquityAt e' fill.price fx = markedEquityAt e fill.price fx - r.currentTicket

section Settle

variable {e e' : Engine ℚ} {fill : Fill ℚ} {fx : ℚ} {s : Staged ℚ}

theorem survivorSums_snd (lots : List (PyramidEntry ℚ)) :
    (survivorSums lots).2 = (lots.map fun lot => lot.price * lot.qty).sum := by
  have h : ∀ p : ℚ × ℚ, (lots.foldl (fun s lot => (s.1 + lot.qty, s.2 + lot.price * lot.qty)) p).2
      = p.2 + (lots.map fun lot => lot.price * lot.qty).sum := by
    induction lots with
    | nil => simp
    | cons lot lots ih =>
      intro p
      simp only [List.foldl_cons, ih, List.map_cons, List.sum_cons]
      ring
  simpa [survivorSums] using h (0, 0)

/-- A book of several lots, or of one beside an opening, has the quotient of its sums. -/
theorem meanPrice_quotient {price : ℚ} (h : s.survivors ≠ []) (hl : s.survivors.length = 1 →
    s.opens = true) : s.meanPrice price = if 0 < s.afterQty then
      (if s.opens then (survivorSums s.survivors).2 + price * s.opening
        else (survivorSums s.survivors).2) / s.afterQty else 0 := by
  unfold Staged.meanPrice
  rcases hs : s.survivors with _ | ⟨lot, _ | ⟨lot', lots⟩⟩
  · exact absurd hs h
  · simp only [hl (by simp [hs])]
  · rfl

theorem meanPrice_eq (h : s.Sound e fill fx) (hopen : 0 ≤ s.opening) :
    s.afterPrice = ((s.survivors.map fun lot => lot.price * lot.qty).sum
      + if s.opens then fill.price * s.opening else 0) / s.afterQty := by
  have hqty : 0 ≤ s.afterQty := by
    rw [h.afterQty_eq]
    have hnn : 0 ≤ (s.survivors.map (·.qty)).sum := List.sum_nonneg fun q hq => by
      obtain ⟨lot, hl, rfl⟩ := List.mem_map.1 hq
      exact (h.survivors lot hl).1.le
    split <;> linarith
  rw [h.afterPrice]
  by_cases hquot : s.survivors ≠ [] ∧ (s.survivors.length = 1 → s.opens = true)
  · rw [meanPrice_quotient hquot.1 hquot.2, survivorSums_snd]
    -- an empty quantity divides to zero, as the code answers
    rcases hqty.lt_or_eq with hpos | hz
    · rw [if_pos hpos]
      split <;> simp
    · rw [← hz]
      simp
  · rw [h.afterQty_eq]
    rcases hs : s.survivors with _ | ⟨lot, _ | ⟨lot', lots⟩⟩
    · cases ho : s.opens with
      | true =>
        have : s.opening ≠ 0 := ne_of_gt (by simpa [Staged.opens] using ho)
        simp [Staged.meanPrice, hs, ho, this]
      | false => simp [Staged.meanPrice, hs, ho, h.afterQty_eq]
    · have ho : s.opens = false := by simpa [hs] using hquot
      have hq : lot.qty ≠ 0 := ne_of_gt (h.survivors lot (by simp [hs])).1
      simp [Staged.meanPrice, hs, ho, hq]
    · exact absurd ⟨by simp [hs], by simp [hs]⟩ hquot

/-- The marks of the resulting book: those of the kept lots, less the fee of the opening. -/
theorem marks_after {context : PhysicalExecutionContext ℚ} (h : s.Sound e fill fx)
    (hfin : s.Finished e fill fx)
    (ha : After e s (openedLot s.opening s.costs.opening fill context) e') :
    (e'.pyramidEntries.map (e'.markOf fill.price fx)).sum
      = (s.survivors.map (e.markOf fill.price fx)).sum - s.costs.opening := by
  have hkept : (s.survivors.map (e'.markOf fill.price fx)).sum
      = (s.survivors.map (e.markOf fill.price fx)).sum := by
    by_cases hs : s.survivors = []
    · simp [hs]
    · have hside : e'.positionSide = e.positionSide := by
        rw [ha.side, Staged.resultingSide, if_pos hs]
      have hmark : e'.markOf fill.price fx = e.markOf fill.price fx := by
        funext lot
        rw [Engine.markOf, Engine.markOf, hside, ha.pointvalue, ha.openEntryCommission_eq]
      rw [hmark]
  rw [ha.lots, List.map_append, List.sum_append, hkept]
  cases ho : s.opens with
  | true =>
    have hmark : e'.markOf fill.price fx (openedLot s.opening s.costs.opening fill context)
        = -s.costs.opening := by
      rw [Engine.markOf, openEntryCommission_opened h.openCost, openedLot_price]
      ring
    simp only [if_true, List.map_cons, List.map_nil, List.sum_cons, List.sum_nil, hmark]
    ring
  | false =>
    have := quote_opening hfin.costs (by simpa [Staged.opens] using ho)
    simp [this]

/-- **The equity is conserved up to the ticket.** -/
theorem equity_conserved {x : Execution ℚ} {context : PhysicalExecutionContext ℚ}
    {taken : List (PyramidEntry ℚ × ℚ)} (hready : Readies e fill (contextFx e context) x s)
    (htakes : s.Takes x e taken)
    (ha : After e s (openedLot s.opening s.costs.opening fill context) e')
    (hnet : e'.netProfitSum = e.netProfitSum
      + ((buildNativeSettlementCloseRows e s fill context).map (·.pnl)).sum) :
    markedEquityAt e' fill.price (contextFx e context)
      = markedEquityAt e fill.price (contextFx e context) - s.ticket := by
  have h := hready.sound
  obtain ⟨held, hbook⟩ := hready.book
  obtain ⟨hside, hv, -, -⟩ := validateBook hbook
  have hv' : LotsValid e'.pyramidEntries := fun lot hl =>
    ⟨not_le.1 (lots_after h ha rfl lot hl).2.1, rfl⟩
  have hlen : s.costs.rows.length = taken.length := by
    rw [h.rows, htakes.names.length_eq]
  have hpos : ∀ c ∈ s.closings, 0 < c.quantity := by
    intro c hc
    have hmem : c.quantity ∈ taken.map (·.2) := by
      rw [← names_quantity htakes.names]
      exact List.mem_map_of_mem hc
    obtain ⟨p, hp, hq⟩ := List.mem_map.1 hmem
    rw [← hq]
    exact htakes.fifo.taken_pos hv p hp
  have hticket := costs_ticket hready.finished hpos htakes.opening h.effect
  have hmarks : (e.pyramidEntries.map (e.markOf fill.price (contextFx e context))).sum
      = (s.survivors.map (e.markOf fill.price (contextFx e context))).sum
        + (taken.map fun p => partProfit e s.wasLong fill.price (contextFx e context) p.1
          p.2).sum := by
    by_cases hflat : e.positionSide = .flat
    · have hnil := hside.1 hflat
      have hfifo := htakes.fifo
      rw [hnil] at hfifo
      generalize s.survivors = kept at hfifo
      cases hfifo with
      | nil => simp [hnil]
    · rw [hready.wasLong]
      exact htakes.fifo.marks hv hflat fill.price (contextFx e context)
  rw [markedEquityAt_eq (side_after h ha) hv', markedEquityAt_eq hside hv,
    marks_after h hready.finished ha, hmarks, hnet, closeRows_zip htakes.names,
    closedRows_pnl hlen, ha.capital, ← hticket]
  ring

/-- **The settlement of a stage conserves.** -/
theorem stage_conserves {x : Execution ℚ} {context : PhysicalExecutionContext ℚ}
    {rows : List (Trade ℚ)} {l : Ledger ℚ}
    (hready : Readies e fill (contextFx e context) x s) (ht : 0 ≤ e.nativeQuantityTolerance)
    (hrows : rows = buildNativeSettlementCloseRows e s fill context)
    (hext : e.ledger.Extends l rows) :
    ∃ taken kept opened, Conserves x e fill (contextFx e context) (s.result e fill rows)
      ((bookAfter e s (openedLot s.opening s.costs.opening fill context)).withLedger l)
      taken kept opened := by
  have h := hready.sound
  obtain ⟨taken, htakes⟩ := hready.takes ht
  have ha := (h.after (openedLot_qty s.opening s.costs.opening fill context)
    (openedLot_price ..)).withLedger l
  have hnet : ((bookAfter e s (openedLot s.opening s.costs.opening fill context)).withLedger
    l).netProfitSum = e.netProfitSum + (rows.map (·.pnl)).sum := by
    have := hext.netProfitSum
    rwa [rat_sumFrom] at this
  have htrades : (((bookAfter e s (openedLot s.opening s.costs.opening fill context)).withLedger
      l).trades).drop (s.result e fill rows).firstTradeIndex = rows := by
    have : ((bookAfter e s (openedLot s.opening s.costs.opening fill context)).withLedger
      l).trades = e.trades ++ rows := hext.trades
    simp [this, Staged.result]
  generalize (bookAfter e s (openedLot s.opening s.costs.opening fill context)).withLedger l = e'
    at ha hnet htrades ⊢
  have hlen : s.costs.rows.length = taken.length := by
    rw [h.rows, htakes.names.length_eq]
  have hzip := hrows.trans (closeRows_zip htakes.names)
  have hcloses : List.Forall₂ Trade.Closes rows taken := hzip ▸ closedRows_closes hlen
  have hsum : (e'.pyramidEntries.map (·.qty)).sum = s.afterQty := by
    rw [ha.lots, h.afterQty_eq]
    cases s.opens <;> simp
  have hsigned : e'.signedUnits = signedSide (s.resultingSide e) s.afterQty := by
    rw [Engine.signedUnits, hsum, ha.side]
  have hopening : s.opens = false → s.opening = 0 := fun ho =>
    le_antisymm (by simpa [Staged.opens] using ho) htakes.opening
  refine ⟨taken, s.survivors, if s.opens then [openedLot s.opening s.costs.opening fill context]
    else [], htakes.fifo, htrades ▸ hcloses, ha.lots, ?_, ?_, ?_, ?_, ?_, ?_, ?_, ?_, ?_⟩
  · cases s.opens
    · exact .inl rfl
    · exact .inr ⟨_, rfl, openedLot_price ..⟩
  · have habs : |s.openedUnits| = s.opening := by
      unfold Staged.openedUnits
      split
      · rw [abs_neg, abs_of_nonneg htakes.opening]
      · exact abs_of_nonneg htakes.opening
    change _ = |s.openedUnits|
    rw [habs]
    cases ho : s.opens
    · simp [hopening ho]
    · simp
  · rw [htrades, Closes.units hcloses]
    exact htakes.fifo.units
  · rw [htrades, Closes.units hcloses]
    exact htakes.charged
  · rw [hsigned]
    exact htakes.transacts
  · rw [hsigned]
    exact htakes.reverses
  · rw [ha.qty, hsum]
  · rw [ha.price, meanPrice_eq h htakes.opening, hsum, ha.lots]
    cases s.opens <;> simp
  · exact equity_conserved hready htakes ha (hrows ▸ hnet)

end Settle

/-- **Settlement conserves units and money.** An applied settlement closes member lots in book
order, each whole except at most the last, and keeps every other lot as it was; the units held
before are those kept and those of the closed rows; the charged units are those of the rows, and a
transaction moves the signed position by what it asks for, up to the quantity tolerance; a lot cut
by a split keeps more than the tolerance; the position is the sum and the weighted mean of its
lots; and the equity marked at the fill falls by exactly the charged ticket. -/
theorem settle_conserves (fused : Bool) (x : Execution ℚ) (e : Engine ℚ) (fill : Fill ℚ)
    (lifecycle : LifecycleEffects) (context : PhysicalExecutionContext ℚ)
    (ht : 0 ≤ e.nativeQuantityTolerance) (r : Result ℚ) (e' : Engine ℚ)
    (hrun : settleExecution fused x fill lifecycle context e = .ok r e')
    (hr : r.status = .applied) :
    ∃ taken kept opened, Conserves x e fill (contextFx e context) r e' taken kept opened := by
  obtain ⟨staged, hstaged, hsame⟩ := settle_settled_fused fused x e fill lifecycle context
  rw [hrun] at hsame
  cases hstaged with
  | threw => cases hsame
  | refused hne => exact absurd ((congrArg Result.status hsame.1).symm.trans hr) hne
  | @applied s rows l hstage hsound hprep hclear hext =>
    obtain ⟨rfl, rfl⟩ := hsame
    exact stage_conserves (Execution.stage_readies hstage) ht (prepare_ok hprep).2.2.1 hext

/-- An engine that holds two lots of one unit. -/
def Engine.twoLots : Engine ℚ :=
  { Engine.oneLong with
    positionQty := 2
    positionEntryCount := 2
    pyramidEntries := Engine.oneLong.pyramidEntries ++ Engine.oneLong.pyramidEntries }

/-- A fill that is charged a pinned ticket of one. -/
def Fill.pinned : Fill ℚ := { price := 2, id := "X", comment := "", commissionAccount := some 1 }

/-- Reducing two lots by one and a half: the first closes whole and the second in part. -/
theorem settle_conserves_cut :
    ∃ r e' taken kept opened,
      settleExecution true (.act (.reduce (3 / 2)) .book none) Fill.pinned {} {} Engine.twoLots
        = .ok r e' ∧ r.status = .applied
      ∧ Conserves (.act (.reduce (3 / 2)) .book none) Engine.twoLots Fill.pinned 1 r e' taken kept
        opened := by
  obtain ⟨r, e', hrun, hr⟩ := settledStatus_some (show settledStatus (settleExecution true
    (.act (.reduce (3 / 2)) .book none) Fill.pinned {} {} Engine.twoLots) = some .applied by
      decide +kernel)
  obtain ⟨taken, kept, opened, h⟩ := settle_conserves true _ Engine.twoLots _ _ _ (le_refl (0 : ℚ))
    r e' hrun hr
  exact ⟨r, e', taken, kept, opened, hrun, hr, h⟩

end PineForge.Settlement
