import PineForge.Settlement.OneLot

/-!
# What a ready stage is

`Execution.stage_sound`: a stage that is ready has an effect, closes a positive sum exactly when
it closes a lot, keeps every lot it does not close, and opens beside a survivor only when it closes
nothing. The proof follows the walk of `allocateFrom`: each split either leaves the running sum as
it was or makes it positive (`Splits.walk`).
-/

namespace PineForge.Settlement

open Arith

variable {α : Type} [Arith α]

/-! ## One step of the allocation -/

/-- The lot a split leaves in the book, if any. -/
def keptLots (e : Engine α) (lot : PyramidEntry α) (split : CloseSplit α) : List (PyramidEntry α) :=
  if split.amount == 0 then [lot]
  else if 0 < split.kept then [splitSurvivor e lot split] else []

/-- The closing a split takes from the lot at `index`, if any. -/
def takenClosings (index : Nat) (split : CloseSplit α) : List (Closing α) :=
  if split.amount == 0 then [] else [⟨index, split.amount⟩]

theorem allocateFrom_cons [Sane α] {e : Engine α} {c : CloseOrder α} {index : Nat}
    {lot : PyramidEntry α} {lots : List (PyramidEntry α)} {w : Walk α} {a : Allocation α}
    (h : allocateFrom e c index (lot :: lots) w = .ok a) :
    ∃ split w' rest,
      Splits lot c.requested e.nativeQuantityTolerance w (c.closes && c.membership.contains lot)
        c.flatten split w'
      ∧ allocateFrom e c (index + 1) lots w' = .ok rest
      ∧ a = ⟨keptLots e lot split ++ rest.survivors, takenClosings index split ++ rest.closings,
          rest.walk⟩ := by
  simp only [allocateFrom] at h
  generalize hsp : closeSplit lot (c.closes && c.membership.contains lot) c.flatten c.requested
    e.nativeQuantityTolerance w = sw at h
  obtain ⟨split, w'⟩ := sw
  split at h
  · cases h
  next hst =>
  rw [not_not] at hst
  cases hr : allocateFrom e c (index + 1) lots w' with
  | error status => rw [hr] at h; cases h
  | ok rest =>
    refine ⟨split, w', rest, ?_, hr, ?_⟩
    · have := closeSplit_splits (α := α) (fun _ => Sane.zero_beq) (by rw [hsp]; exact hst)
      rwa [hsp] at this
    · rw [hr] at h
      by_cases ha : (split.amount == 0) = true
      · simp only [ha, if_true, Except.ok.injEq] at h
        simp [← h, keptLots, takenClosings, ha]
      · simp only [ha, if_false, Except.ok.injEq, Bool.false_eq_true] at h
        by_cases hk : 0 < split.kept <;> simp [← h, keptLots, takenClosings, ha, hk]

/-- The walk before its first closed lot. -/
def Walk.Fresh (w : Walk α) (rest : α) : Prop := w = ⟨0, rest⟩

/-- The walk once a lot closed: a positive sum and a rest that is not negative. -/
def Walk.Started (w : Walk α) : Prop := 0 < w.closed ∧ 0 ≤ w.remaining

/-- What a split may assume of its close: a positive lot and, unless lots close whole, a positive
finite request. -/
structure SplitInput (lot : PyramidEntry α) (flatten : Bool) (requested : α) : Prop where
  qty : 0 < lot.qty
  requested : flatten = false → 0 < requested ∧ isFinite requested = true

theorem cmin_pos {a b : α} (ha : 0 < a) (hb : 0 < b) : 0 < cmin a b := by
  unfold cmin
  split
  · exact hb
  · exact ha

section Walks

variable [Lawful α] {lot : PyramidEntry α} {requested tolerance rest : α} {closes flatten : Bool}
  {split : CloseSplit α} {w w' : Walk α}

theorem amount_pos (hq : 0 < lot.qty) (hrest : 0 ≤ w.remaining)
    (hr : (w.remaining == 0) = false ∨ (cmin lot.qty w.remaining == 0) = false) :
    0 < cmin lot.qty w.remaining := by
  rcases hr with hr | hr
  · exact cmin_pos hq (Lawful.pos_of_nonneg hrest hr)
  · unfold cmin at hr ⊢
    split
    · next h => rw [if_pos h] at hr; exact Lawful.pos_of_nonneg hrest hr
    · exact hq

/-- **One split of the walk.** The running sum stays as it is when nothing is taken before the
close started, and is positive from the first lot taken on. -/
theorem Splits.walk (hs : Splits lot requested tolerance w closes flatten split w')
    (hi : SplitInput lot flatten requested) (hrest : 0 ≤ rest) (hw : w.Fresh rest ∨ w.Started) :
    (w'.Fresh rest ∧ (split.amount == 0) = true ∧ w.Fresh rest) ∨ (w'.Started ∧
      ((split.amount == 0) = true → w.Started)) := by
  have hz : ((0 : α) == 0) = true := Sane.zero_beq
  have hrem : 0 ≤ w.remaining := by
    rcases hw with rfl | hw
    · exact hrest
    · exact hw.2
  have hclosed : 0 ≤ w.closed := by
    rcases hw with rfl | hw
    · exact Lawful.zero_le_zero
    · exact Lawful.le_of_pos hw.1
  have skip : split.amount = 0 → w' = w → (w'.Fresh rest ∧ (split.amount == 0) = true
      ∧ w.Fresh rest) ∨ (w'.Started ∧ ((split.amount == 0) = true → w.Started)) := by
    rintro h rfl
    rcases hw with hw | hw
    · exact .inl ⟨hw, by rw [h]; exact hz, hw⟩
    · exact .inr ⟨hw, fun _ => hw⟩
  have ends : flatten = false → w' = ⟨requested, 0⟩ → w'.Started := by
    rintro hf rfl
    exact ⟨(hi.requested hf).1, Lawful.zero_le_zero⟩
  have taken : 0 < split.amount → w'.Started → (w'.Fresh rest ∧ (split.amount == 0) = true
      ∧ w.Fresh rest) ∨ (w'.Started ∧ ((split.amount == 0) = true → w.Started)) := by
    intro ha hw'
    exact .inr ⟨hw', fun h => absurd ha (Sane.not_pos_of_beq h)⟩
  cases hs with
  | outside => exact skip rfl rfl
  | empty => exact skip rfl rfl
  | done => exact skip rfl rfl
  | stop ht hc hr hq =>
    rcases hw with rfl | hw
    · rw [hz] at hc; cases hc
    · exact .inr ⟨ends rfl rfl, fun _ => hw⟩
  | whole hq hf => exact taken hi.qty ⟨Lawful.add_pos hclosed hi.qty, hrem⟩
  | ends hr => exact taken (amount_pos hi.qty hrem hr) (ends rfl rfl)
  | snap => exact taken hi.qty (ends rfl rfl)
  | next hr ht hn hk hs hf =>
    have ha := amount_pos hi.qty hrem hr
    exact taken ha ⟨Lawful.add_pos hclosed ha, Lawful.sub_nonneg hf (hi.requested rfl).2 hn⟩

/-- A close that has not started takes something from the first lot it may take. -/
theorem Splits.takes (hs : Splits lot requested tolerance ⟨0, rest⟩ true flatten split w')
    (hi : SplitInput lot flatten requested) (hrest : flatten = false → 0 < rest) :
    (split.amount == 0) = false := by
  cases hs with
  | empty hq => exact absurd hi.qty (Sane.not_pos_of_beq hq)
  | done hr =>
    have hpos := hrest rfl
    rcases hr with hr | hr
    · exact absurd hpos (Sane.not_pos_of_beq hr)
    · exact absurd (cmin_pos hi.qty hpos) (Sane.not_pos_of_beq hr)
  | stop ht hc => rw [Sane.zero_beq] at hc; cases hc
  | whole hq hf => exact hq
  | ends hr => exact not_beq_of_pos (cmin_pos hi.qty (hrest rfl))
  | snap => exact not_beq_of_pos hi.qty
  | next hr => exact not_beq_of_pos (cmin_pos hi.qty (hrest rfl))

end Walks

/-! ## The whole allocation -/

/-- The lots of a valid book. -/
def LotsValid (lots : List (PyramidEntry α)) : Prop :=
  ∀ lot ∈ lots, 0 < lot.qty ∧ isFinite lot.price = true

theorem keptLots_valid {e : Engine α} {lot : PyramidEntry α}
    (h : 0 < lot.qty ∧ isFinite lot.price = true)
    (split : CloseSplit α) : LotsValid (keptLots e lot split) := by
  intro l hl
  unfold keptLots at hl
  split at hl
  · rw [List.mem_singleton.1 hl]; exact h
  · split at hl
    · next hk => rw [List.mem_singleton.1 hl]; exact ⟨hk, h.2⟩
    · cases hl

section Allocation

variable [Lawful α] {e : Engine α} {c : CloseOrder α}

/-- What the walk over a book leaves behind. -/
structure AllocationSound (index : Nat) (lots : List (PyramidEntry α)) (w : Walk α) (rest : α)
    (a : Allocation α) : Prop where
  survivors : LotsValid a.survivors
  indices : ∀ x ∈ a.closings, index ≤ x.index ∧ x.index < index + lots.length
  untouched : a.closings = [] → a.survivors = lots ∧ (w.Fresh rest → a.walk.Fresh rest)
  started : a.closings ≠ [] ∨ w.Started → a.walk.Started

/-- The walk over the lots is sound. -/
theorem allocateFrom_sound {index : Nat} {lots : List (PyramidEntry α)} {w : Walk α} {rest : α}
    {a : Allocation α} (h : allocateFrom e c index lots w = .ok a) (hv : LotsValid lots)
    (hr : c.flatten = false → 0 < c.requested ∧ isFinite c.requested = true) (hrest : 0 ≤ rest)
    (hw : w.Fresh rest ∨ w.Started) : AllocationSound index lots w rest a := by
  induction lots generalizing index w a with
  | nil =>
    simp only [allocateFrom, Except.ok.injEq] at h
    subst h
    exact ⟨fun _ h => (List.not_mem_nil h).elim, fun _ h => (List.not_mem_nil h).elim,
      fun _ => ⟨rfl, id⟩, fun h => h.resolve_left fun h => h rfl⟩
  | cons lot lots ih =>
    obtain ⟨split, w', rest', hs, hrec, rfl⟩ := allocateFrom_cons h
    have hlot := hv lot List.mem_cons_self
    have hstep := hs.walk ⟨hlot.1, hr⟩ hrest hw
    have hnext : w'.Fresh rest ∨ w'.Started := hstep.imp And.left And.left
    have hrest' := ih hrec (fun l hl => hv l (List.mem_cons_of_mem _ hl)) hnext
    constructor
    · intro l hl
      rcases List.mem_append.1 hl with hl | hl
      · exact keptLots_valid hlot split l hl
      · exact hrest'.survivors l hl
    · intro x hx
      rcases List.mem_append.1 hx with hx | hx
      · unfold takenClosings at hx
        split at hx
        · cases hx
        · rw [List.mem_singleton.1 hx]
          simp
      · have := hrest'.indices x hx
        simp only [List.length_cons]
        omega
    · intro hnil
      obtain ⟨htaken, hclosings⟩ := List.append_eq_nil_iff.1 hnil
      have ha : (split.amount == 0) = true := by
        unfold takenClosings at htaken
        split at htaken
        · next h => exact h
        · cases htaken
      obtain ⟨hsurv, hfresh⟩ := hrest'.untouched hclosings
      refine ⟨by simp [keptLots, ha, hsurv], fun hw => ?_⟩
      rcases hstep with ⟨hw', -, -⟩ | ⟨-, hst⟩
      · exact hfresh hw'
      · -- nothing was taken, so the walk could not have started
        have := hst ha
        rw [hw] at this
        exact absurd this.1 not_zero_lt_zero
    · intro hor
      apply hrest'.started
      rcases hstep with ⟨-, ha, hw⟩ | ⟨hw', -⟩
      · rcases hor with hne | hst
        · left
          intro hnil
          exact hne (by simp [takenClosings, ha, hnil])
        · rw [hw] at hst
          exact absurd hst.1 not_zero_lt_zero
      · exact .inr hw'

theorem allocateFrom_takes {index : Nat} {lots : List (PyramidEntry α)} {rest : α}
    {a : Allocation α} (h : allocateFrom e c index lots ⟨0, rest⟩ = .ok a) (hv : LotsValid lots)
    (hr : c.flatten = false → 0 < c.requested ∧ isFinite c.requested = true)
    (hrest : c.flatten = false → 0 < rest) (hc : c.closes = true)
    (hm : ∃ lot ∈ lots, c.membership.contains lot = true) : a.closings ≠ [] := by
  induction lots generalizing index a with
  | nil => obtain ⟨lot, hl, -⟩ := hm; cases hl
  | cons lot lots ih =>
    obtain ⟨split, w', rest', hs, hrec, rfl⟩ := allocateFrom_cons h
    have hlot := hv lot List.mem_cons_self
    cases hmem : c.membership.contains lot with
    | true =>
      rw [hc, hmem] at hs
      have ha := hs.takes ⟨hlot.1, hr⟩ hrest
      simp [takenClosings, ha]
    | false =>
      rw [hc, hmem] at hs
      cases hs with
      | outside =>
        obtain ⟨l, hl, hml⟩ := hm
        have hl' : l ∈ lots := by
          rcases List.mem_cons.1 hl with rfl | hl
          · rw [hmem] at hml; cases hml
          · exact hl
        have := ih hrec (fun l hl => hv l (List.mem_cons_of_mem _ hl)) ⟨l, hl', hml⟩
        simp only [ne_eq, List.append_eq_nil_iff, not_and]
        exact fun _ => this

theorem allocateFrom_outside {index : Nat} {lots : List (PyramidEntry α)} {w : Walk α}
    {a : Allocation α} (h : allocateFrom e c index lots w = .ok a) (hc : c.closes = false) :
    a = ⟨lots, [], w⟩ := by
  induction lots generalizing index a with
  | nil => simpa [allocateFrom] using h.symm
  | cons lot lots ih =>
    obtain ⟨split, w', rest', hs, hrec, rfl⟩ := allocateFrom_cons h
    rw [hc, Bool.false_and] at hs
    cases hs with
    | outside => simp [ih hrec, keptLots, takenClosings, Sane.zero_beq]

theorem allocateFrom_whole {index : Nat} {lots : List (PyramidEntry α)} {w : Walk α}
    {a : Allocation α} (h : allocateFrom e c index lots w = .ok a) (hv : LotsValid lots)
    (hc : c.closes = true) (hm : ∀ lot : PyramidEntry α, c.membership.contains lot = true)
    (hf : c.flatten = true) : a.survivors = [] := by
  induction lots generalizing index w a with
  | nil => simp [allocateFrom] at h; simp [← h]
  | cons lot lots ih =>
    obtain ⟨split, w', rest', hs, hrec, rfl⟩ := allocateFrom_cons h
    rw [hc, hm, hf] at hs
    have hlot := hv lot List.mem_cons_self
    have hrest := ih hrec fun l hl => hv l (List.mem_cons_of_mem _ hl)
    cases hs with
    | empty hq => exact absurd hlot.1 (Sane.not_pos_of_beq hq)
    | whole hq hf => simp [keptLots, hq, Sane.sub_self_not_pos, hrest]

end Allocation

/-! ## The inversion of a ready stage -/

/-- What a stage keeps of its draft. -/
def Staged.draft (s : Staged α) : Draft α :=
  ⟨s.isScoped, s.incoming, s.wasLong, s.closed, s.opening, s.closings, s.survivors⟩

/-- The entry price of the book a stage leaves. -/
def Staged.meanPrice (s : Staged α) (price : α) : α :=
  let weighted := (survivorSums s.survivors).2
  match s.survivors, s.opens with
  | [], true => price
  | [lot], false => lot.price
  | _, opens => if 0 < s.afterQty then
      (if opens then weighted + price * s.opening else weighted) / s.afterQty else 0

/-- What `finishNativeSettlementStage` adds to a draft. -/
structure Staged.Finished (e : Engine α) (fill : Fill α) (fx : α) (s : Staged α) : Prop where
  rate : s.fx = fx
  costs : quoteExecutionCommissions e (s.closings.map (·.quantity)) s.opening fill fx
    = .ok s.costs
  ticket : ∃ summed, ticketSum (s.costs.rows ++ [s.costs.opening]) 0 = .ok summed
    ∧ s.ticket = fill.commissionAccount.getD summed
  afterQty : s.afterQty = if s.opens then (survivorSums s.survivors).1 + s.opening
    else (survivorSums s.survivors).1
  afterPrice : s.afterPrice = s.meanPrice fill.price

theorem finish_ready {e : Engine α} {d : Draft α} {fill : Fill α} {fx : α} {s : Staged α}
    (h : finishNativeSettlementStage e d fill fx = .ok (.ready s)) :
    s.draft = d ∧ s.Finished e fill fx := by
  unfold finishNativeSettlementStage at h
  simp only [bind, Except.bind, pure, Except.pure] at h
  cases hc : quoteExecutionCommissions e (d.closings.map (·.quantity)) d.opening fill fx with
  | error f => rw [hc] at h; cases h
  | ok costs =>
    rw [hc] at h
    simp only at h
    cases ht : ticketSum (costs.rows ++ [costs.opening]) 0 with
    | error f => rw [ht] at h; cases h
    | ok summed =>
      rw [ht] at h
      simp only at h
      split at h
      · cases h
      · cases h
        refine ⟨rfl, rfl, hc, ⟨summed, ht, rfl⟩, by simp [Staged.opens], ?_⟩
        simp only [Staged.meanPrice, Staged.opens]
        rcases d.survivors with _ | ⟨lot, _ | ⟨lot', lots⟩⟩ <;>
          by_cases ho : 0 < d.opening <;> simp [ho]

/-- The units an action opens once its walk ended. -/
def Action.opening (action : Action α) (e : Engine α) (w : Walk α) : α :=
  if !action.isTransact then 0 else if opposes e action then w.remaining else action.requested

/-- Every way to a ready stage, with the tests it passed. -/
inductive Readies (e : Engine α) (fill : Fill α) (fx : α) : Execution α → Staged α → Prop
  | act {action : Action α} {scope : CloseScope} {selected : Option SelectedOpeningSet} {held : α}
      {sel : Selection α} {a : Allocation α} {s : Staged α}
      (hfill : fillRefusal fill = none)
      (hbook : validateNativeSettlementBook e = some held)
      (hsel : inspectMembership e action scope selected held = .ok sel)
      (hfin : isFinite action.requested = true)
      (hreq : action.isReduce = true → ¬ action.requested < 0)
      (hne : action.isFlatten = false → (action.requested == 0) = false)
      (hlots : action.isTransact = false → e.pyramidEntries ≠ [])
      (hplan : planned e action sel.held (allocationRequest action sel) = true)
      (halloc : allocateNativeSettlementCloses e (closeOrder e action sel)
        (allocationRequest action sel) = .ok a)
      (hflip : 0 < action.opening e a.walk → opposes e action = true → a.survivors = [])
      (hdraft : s.draft = ⟨sel.isScoped, incomingSide action, e.positionSide = .long,
        a.walk.closed, action.opening e a.walk, a.closings, a.survivors⟩)
      (hdone : s.Finished e fill fx) : Readies e fill fx (.act action scope selected) s
  | reverse {signedUnits held : α} {a : Allocation α} {s : Staged α}
      (hfill : fillRefusal fill = none)
      (hbook : validateNativeSettlementBook e = some held)
      (hfin : isFinite signedUnits = true) (hne : (signedUnits == 0) = false)
      (hside : e.positionSide ≠ .flat)
      (hopp : e.positionSide ≠ if signedUnits < 0 then .short else .long)
      (halloc : allocateNativeSettlementCloses e ⟨true, .scope .book, true, 0⟩ 0 = .ok a)
      (hsum : isFinite (a.walk.closed + Arith.abs signedUnits) = true)
      (hdraft : s.draft = ⟨false, if signedUnits < 0 then .short else .long,
        e.positionSide = .long, a.walk.closed, Arith.abs signedUnits, a.closings, a.survivors⟩)
      (hdone : s.Finished e fill fx) : Readies e fill fx (.reverse signedUnits) s

theorem Readies.finished {e : Engine α} {fill : Fill α} {fx : α} {x : Execution α} {s : Staged α}
    (h : Readies e fill fx x s) : s.Finished e fill fx := by
  cases h with
  | act _ _ _ _ _ _ _ _ _ _ _ hdone => exact hdone
  | reverse _ _ _ _ _ _ _ _ _ hdone => exact hdone

theorem Readies.wasLong {e : Engine α} {fill : Fill α} {fx : α} {x : Execution α} {s : Staged α}
    (h : Readies e fill fx x s) : s.wasLong = decide (e.positionSide = .long) := by
  cases h with
  | act _ _ _ _ _ _ _ _ _ _ hdraft => exact congrArg Draft.wasLong hdraft
  | reverse _ _ _ _ _ _ _ _ hdraft => exact congrArg Draft.wasLong hdraft

theorem Readies.book {e : Engine α} {fill : Fill α} {fx : α} {x : Execution α} {s : Staged α}
    (h : Readies e fill fx x s) : ∃ held, validateNativeSettlementBook e = some held := by
  cases h with
  | act _ hbook => exact ⟨_, hbook⟩
  | reverse _ hbook => exact ⟨_, hbook⟩

/-- What a ready settlement stage holds. -/
theorem stageNativeSettlement_readies {e : Engine α} {action : Action α} {fill : Fill α}
    {scope : CloseScope} {selected : Option SelectedOpeningSet}
    {lifecycle : Option LifecycleEffects} {fx : α} {s : Staged α}
    (h : stageNativeSettlement e action fill scope selected lifecycle fx = .ok (.ready s)) :
    Readies e fill fx (.act action scope selected) s := by
  unfold stageNativeSettlement at h
  cases hfill : fillRefusal fill with
  | some status => rw [hfill] at h; cases h
  | none =>
    rw [hfill] at h
    simp only at h
    split at h
    · cases h
    next hreq =>
    obtain ⟨hfin, hneg⟩ := not_or.1 hreq
    cases hbook : validateNativeSettlementBook e with
    | none => rw [hbook] at h; cases h
    | some held =>
      rw [hbook] at h
      simp only at h
      split at h
      · cases h
      cases hsel : inspectMembership e action scope selected held with
      | error status => rw [hsel] at h; cases h
      | ok sel =>
        rw [hsel] at h
        simp only [stageSelected] at h
        split at h
        · cases h
        next hne =>
        split at h
        · cases h
        next hlots =>
        split at h
        · cases h
        next hplan =>
        unfold stageAllocated at h
        cases halloc : allocateNativeSettlementCloses e (closeOrder e action sel)
            (allocationRequest action sel) with
        | error status => rw [halloc] at h; cases h
        | ok a =>
          rw [halloc] at h
          change (if 0 < action.opening e a.walk ∧ opposes e action = true ∧ a.survivors ≠ [] then
            _ else finishNativeSettlementStage e ⟨_, _, _, _, action.opening e a.walk, _, _⟩ _ _)
              = _ at h
          split at h
          · cases h
          next hflip =>
          obtain ⟨hdraft, hdone⟩ := finish_ready h
          refine .act hfill hbook hsel (by simpa using hfin) (fun hr hlt => hneg ⟨hr, hlt⟩) ?_ ?_
            (by simpa using hplan) halloc ?_ hdraft hdone
          · intro hf
            simpa [hf] using hne
          · intro ht hnil
            apply hlots
            cases action with
            | flatten => exact ⟨.inl rfl, hnil⟩
            | reduce units => exact ⟨.inr rfl, hnil⟩
            | transact units => cases ht
          · intro hpos hop
            by_contra hs
            exact hflip ⟨hpos, hop, hs⟩

/-- What a ready reversal stage holds. -/
theorem stageNativeReversal_readies {e : Engine α} {signedUnits : α} {fill : Fill α}
    {lifecycle : Option LifecycleEffects} {fx : α} {s : Staged α}
    (h : stageNativeReversal e signedUnits fill lifecycle fx = .ok (.ready s)) :
    Readies e fill fx (.reverse signedUnits) s := by
  unfold stageNativeReversal at h
  cases hfill : fillRefusal fill with
  | some status => rw [hfill] at h; cases h
  | none =>
    rw [hfill] at h
    simp only at h
    split at h
    · cases h
    next hreq =>
    obtain ⟨hfin, hne⟩ := not_or.1 hreq
    cases hbook : validateNativeSettlementBook e with
    | none => rw [hbook] at h; cases h
    | some held =>
      rw [hbook] at h
      simp only at h
      split at h
      · cases h
      generalize hin : (if signedUnits < 0 then PositionSide.short else .long) = incoming at h
      split at h
      · cases h
      next hside =>
      obtain ⟨hflat, hopp⟩ := not_or.1 hside
      subst hin
      cases halloc : allocateNativeSettlementCloses e ⟨true, .scope .book, true, 0⟩ 0 with
      | error status => rw [halloc] at h; cases h
      | ok a =>
        rw [halloc] at h
        simp only at h
        split at h
        · cases h
        next hsum =>
        obtain ⟨hdraft, hdone⟩ := finish_ready h
        exact .reverse hfill hbook (by simpa using hfin) (by simpa using hne) hflat hopp halloc
          (by simpa using hsum) hdraft hdone

/-- **A ready stage is one of the two kinds.** -/
theorem Execution.stage_readies {x : Execution α} {e : Engine α} {fill : Fill α}
    {lifecycle : Option LifecycleEffects} {fx : α} {s : Staged α}
    (h : x.stage e fill lifecycle fx = .ok (.ready s)) : Readies e fill fx x s := by
  cases x with
  | act action scope selected => exact stageNativeSettlement_readies h
  | reverse signedUnits => exact stageNativeReversal_readies h

/-- A stage that is ready under a caller's lifecycle batch is ready without one. -/
theorem Execution.stage_lifecycle {x : Execution α} {e : Engine α} {fill : Fill α}
    {lifecycle : LifecycleEffects} {fx : α} {s : Staged α}
    (h : x.stage e fill (some lifecycle) fx = .ok (.ready s)) :
    x.stage e fill none fx = .ok (.ready s) := by
  cases hl : nonemptyLifecycleRefused (some lifecycle) with
  | false =>
    have hnone : nonemptyLifecycleRefused none = false := rfl
    cases x <;>
      simpa only [Execution.stage, stageNativeSettlement, stageNativeReversal, hl, hnone] using h
  | true =>
    exfalso
    cases x <;> simp only [Execution.stage, stageNativeSettlement, stageNativeReversal, hl, if_true]
      at h <;> repeat (first | cases h | split at h)

/-! ## Soundness -/

theorem sumFrom_pos [Lawful α] {xs : List α} (h : ∀ x ∈ xs, 0 < x) {start : α} (hs : 0 ≤ start)
    (hne : xs ≠ []) : 0 < sumFrom start xs := by
  induction xs generalizing start with
  | nil => exact absurd rfl hne
  | cons x xs ih =>
    have hx := Lawful.add_pos hs (h x List.mem_cons_self)
    rw [sumFrom_cons]
    cases xs with
    | nil => exact hx
    | cons y ys =>
      exact ih (fun z hz => h z (List.mem_cons_of_mem _ hz)) (Lawful.le_of_pos hx) (by simp)

theorem heldFrom_pos [Lawful α] {lots : List (PyramidEntry α)} (h : LotsValid lots) {start : α}
    (hs : 0 ≤ start) (hne : lots ≠ []) : 0 < heldFrom start lots := by
  apply sumFrom_pos _ hs (by simpa using hne)
  intro x hx
  obtain ⟨lot, hl, rfl⟩ := List.mem_map.1 hx
  exact (h lot hl).1

theorem validateLots_valid [Lawful α] {lots : List (PyramidEntry α)} {start held : α}
    (h : validateLots lots start = some held) : LotsValid lots := by
  induction lots generalizing start with
  | nil => exact fun _ h => (List.not_mem_nil h).elim
  | cons lot lots ih =>
    simp only [validateLots] at h
    split at h
    · cases h
    next hlot =>
    obtain ⟨hq, hlot⟩ := not_or.1 hlot
    obtain ⟨hpos, hp⟩ := not_or.1 hlot
    split at h
    · intro l hl
      rcases List.mem_cons.1 hl with rfl | hl
      · exact ⟨Lawful.pos_of_not_le (by simpa using hq) hpos, by simpa using hp⟩
      · exact ih h l hl
    · cases h

/-- The held units of a valid book are finite, unless it is empty, and the sum of its lots. -/
theorem validateLots_held {lots : List (PyramidEntry α)} {start held : α}
    (h : validateLots lots start = some held) :
    held = heldFrom start lots ∧ (isFinite start = true → isFinite held = true) := by
  induction lots generalizing start with
  | nil => cases h; exact ⟨rfl, id⟩
  | cons lot lots ih =>
    simp only [validateLots] at h
    split at h
    · cases h
    · split at h
      · next hf =>
        obtain ⟨hh, hfin⟩ := ih h
        exact ⟨hh, fun _ => hfin hf⟩
      · cases h

theorem validateBook [Lawful α] {e : Engine α} {held : α}
    (h : validateNativeSettlementBook e = some held) :
    (e.positionSide = .flat ↔ e.pyramidEntries = []) ∧ LotsValid e.pyramidEntries
      ∧ held = heldFrom 0 e.pyramidEntries ∧ isFinite held = true := by
  unfold validateNativeSettlementBook at h
  split at h
  · cases h
  · next hside =>
    obtain ⟨hh, hfin⟩ := validateLots_held h
    exact ⟨by simpa using hside, validateLots_valid h, hh, hfin Lawful.finite_zero⟩

/-- What a selection of lots may assume: a scoped one holds units that are finite and not zero,
and some lot of the book is in it. -/
structure Selection.Sound (e : Engine α) (sel : Selection α) : Prop where
  held : 0 < sel.held ∧ isFinite sel.held = true
  member : ∃ lot ∈ e.pyramidEntries, sel.membership.contains lot = true

theorem heldSelected_eq {ids : List Nat} {lots : List (PyramidEntry α)} {start held : α}
    (h : heldSelected ids lots start = some held) :
    held = heldFrom start (lots.filter fun lot => ids.contains lot.entryIncarnation)
      ∧ (isFinite start = true → isFinite held = true) := by
  induction lots generalizing start with
  | nil => cases h; exact ⟨rfl, id⟩
  | cons lot lots ih =>
    simp only [heldSelected] at h
    split at h
    · next hin =>
      split at h
      · next hf =>
        obtain ⟨hh, hfin⟩ := ih h
        exact ⟨by simpa [hin, heldFrom] using hh, fun _ => hfin hf⟩
      · cases h
    · next hin =>
      obtain ⟨hh, hfin⟩ := ih h
      exact ⟨by simpa [hin] using hh, hfin⟩

theorem heldFrom_filter [Lawful α] {lots : List (PyramidEntry α)} (hv : LotsValid lots)
    (p : PyramidEntry α → Bool) (h : (heldFrom 0 (lots.filter p) == 0) = false) :
    0 < heldFrom 0 (lots.filter p) ∧ ∃ lot ∈ lots, p lot = true := by
  have hne : lots.filter p ≠ [] := by
    intro hnil
    rw [hnil] at h
    simp [heldFrom, Sane.zero_beq] at h
  refine ⟨heldFrom_pos (fun l hl => hv l (List.mem_of_mem_filter hl)) Lawful.zero_le_zero hne, ?_⟩
  obtain ⟨lot, hl⟩ := List.exists_mem_of_ne_nil _ hne
  exact ⟨lot, List.mem_of_mem_filter hl, (List.mem_filter.1 hl).2⟩

/-- The lots selected are sound. -/
theorem inspectMembership_sound [Lawful α] {e : Engine α} {action : Action α} {scope : CloseScope}
    {selected : Option SelectedOpeningSet} {held : α} {sel : Selection α}
    (hbook : validateNativeSettlementBook e = some held)
    (h : inspectMembership e action scope selected held = .ok sel)
    (hne : e.pyramidEntries ≠ []) : sel.Sound e := by
  obtain ⟨-, hv, hh, hfin⟩ := validateBook hbook
  unfold inspectMembership at h
  cases selected with
  | some selection =>
    simp only [inspectSelectedOpeningSet] at h
    split at h
    · cases h
    next ids total hs =>
    cases h
    split at hs
    · cases hs
    split at hs
    · cases hs
    split at hs
    · cases hs
    next hheld =>
    split at hs
    · cases hs
    next hz =>
    cases hs
    obtain ⟨heq, hf⟩ := heldSelected_eq hheld
    subst heq
    obtain ⟨hpos, hm⟩ := heldFrom_filter hv (fun lot => ids.contains lot.entryIncarnation)
      (by simpa using hz)
    exact ⟨⟨hpos, hf Lawful.finite_zero⟩, hm⟩
  | none =>
    simp only at h
    cases scope with
    | book =>
      simp only [inspectCloseScope, Except.ok.injEq] at h
      subst h
      refine ⟨⟨?_, hfin⟩, ?_⟩
      · rw [hh]; exact heldFrom_pos hv Lawful.zero_le_zero hne
      · obtain ⟨lot, hl⟩ := List.exists_mem_of_ne_nil _ hne
        exact ⟨lot, hl, rfl⟩
    | opening exposure =>
      simp only [inspectCloseScope] at h
      split at h
      · cases h
      next total hs =>
      cases h
      split at hs
      · cases hs
      split at hs
      · cases hs
      next hz =>
      split at hs
      · cases hs
      next hf =>
      cases hs
      obtain ⟨hpos, hm⟩ := heldFrom_filter hv _ (by simpa using hz)
      exact ⟨⟨hpos, by simpa using hf⟩, hm⟩

theorem inspectMembership_transact {e : Engine α} {action : Action α} {scope : CloseScope}
    {selected : Option SelectedOpeningSet} {held : α} {sel : Selection α}
    (h : inspectMembership e action scope selected held = .ok sel)
    (ht : action.isTransact = true) : sel = ⟨.scope .book, held, false⟩ := by
  unfold inspectMembership at h
  cases selected with
  | some selection => simp [inspectSelectedOpeningSet, ht] at h
  | none =>
    cases scope with
    | book => simpa [inspectCloseScope, CloseScope.isOpening] using h.symm
    | opening exposure =>
      cases action with
      | transact units => simp [inspectCloseScope, Action.isFlatten, Action.isReduce] at h
      | flatten => cases ht
      | reduce units => cases ht

/-- What a ready stage promises its readers. -/
structure Staged.Sound (e : Engine α) (fill : Fill α) (fx : α) (s : Staged α) : Prop where
  side : e.positionSide = .flat ↔ e.pyramidEntries = []
  price : isFinite fill.price = true
  rate : s.fx = fx
  incoming : s.incoming ≠ .flat
  survivors : LotsValid s.survivors
  indices : ∀ c ∈ s.closings, c.index < e.pyramidEntries.length
  closed : s.closings ≠ [] → 0 < s.closed
  untouched : s.closings = [] → s.closed = 0 ∧ s.survivors = e.pyramidEntries
  beside : s.opens = true → s.survivors ≠ [] → s.closings = []
  effect : s.closings ≠ [] ∨ s.opens = true
  rows : s.costs.rows.length = s.closings.length
  openCost : isFinite s.costs.opening = true
  ticket : isFinite s.ticket = true
  afterQty : s.afterQty = sumFrom 0 (s.survivors.map (·.qty)
    ++ if s.opens then [s.opening] else [])
  afterPrice : s.afterPrice = s.meanPrice fill.price

theorem modeledRows_length {e : Engine α} {price fx : α} {units rows : List α}
    (h : modeledRows e price fx units = .ok rows) : rows.length = units.length := by
  induction units generalizing rows with
  | nil => cases h; rfl
  | cons q units ih =>
    simp only [modeledRows, bind, Except.bind, pure, Except.pure] at h
    split at h
    · cases h
    split at h
    · cases h
    next hr =>
    cases h
    simp [ih hr]

theorem shareTicket_length (ticket units opening : α) (closedUnits : List α) (fee : α) :
    (shareTicket ticket units opening closedUnits fee).1.length = closedUnits.length := by
  induction closedUnits generalizing fee with
  | nil => rfl
  | cons q rest ih => simp [shareTicket, ih]

theorem quoteExecutionCommissions_length {e : Engine α} {closedUnits : List α} {opening : α}
    {fill : Fill α} {fx : α} {costs : Costs α}
    (h : quoteExecutionCommissions e closedUnits opening fill fx = .ok costs) :
    costs.rows.length = closedUnits.length := by
  unfold quoteExecutionCommissions at h
  split at h
  · simp only [bind, Except.bind, pure, Except.pure] at h
    split at h
    · cases h
    next hr =>
    split at h
    · split at h
      · cases h
      · cases h; exact modeledRows_length hr
    · cases h; exact modeledRows_length hr
  · simp only at h
    split at h
    · cases h; simp
    split at h
    · cases h
    split at h
    · cases h
    cases h
    exact shareTicket_length ..

theorem ticketSum_finite {costs : List α} {start ticket : α}
    (h : ticketSum costs start = .ok ticket)
    (hs : isFinite start = true) :
    isFinite ticket = true ∧ ∀ cost ∈ costs, isFinite cost = true := by
  induction costs generalizing start with
  | nil => cases h; exact ⟨hs, fun _ h => (List.not_mem_nil h).elim⟩
  | cons cost costs ih =>
    simp only [ticketSum] at h
    split at h
    · cases h
    next hc =>
    split at h
    · next hf =>
      obtain ⟨ht, hcosts⟩ := ih h hf
      refine ⟨ht, fun c hmem => ?_⟩
      rcases List.mem_cons.1 hmem with rfl | hmem
      · simpa using hc
      · exact hcosts c hmem
    · cases h

theorem survivorSums_fst (lots : List (PyramidEntry α)) :
    (survivorSums lots).1 = sumFrom 0 (lots.map (·.qty)) := by
  have h : ∀ s : α × α, (lots.foldl (fun s lot => (s.1 + lot.qty, s.2 + lot.price * lot.qty)) s).1
      = sumFrom s.1 (lots.map (·.qty)) := by
    induction lots with
    | nil => exact fun _ => rfl
    | cons lot lots ih => exact fun s => ih _
  exact h (0, 0)

theorem fillRefusal_none {fill : Fill α} (h : fillRefusal fill = none) :
    isFinite fill.price = true ∧ ∀ fee ∈ fill.commissionAccount, isFinite fee = true := by
  unfold fillRefusal at h
  split at h
  · cases h
  next hp =>
  split at h
  · cases h
  next hc =>
  refine ⟨by simpa using hp, fun fee hfee => ?_⟩
  rw [hfee] at hc
  simpa using hc

theorem allocate_walk {e : Engine α} {c : CloseOrder α} {rest : α} {a : Allocation α}
    (h : allocateNativeSettlementCloses e c rest = .ok a) :
    ∃ b, allocateFrom e c 0 e.pyramidEntries ⟨0, rest⟩ = .ok b ∧ a = { b with
      walk := finishTolerantWalk e.nativeQuantityTolerance c.closes c.flatten c.requested
        b.walk } := by
  unfold allocateNativeSettlementCloses at h
  cases hw : allocateFrom e c 0 e.pyramidEntries ⟨0, rest⟩ with
  | error status => rw [hw] at h; cases h
  | ok b => rw [hw] at h; cases h; exact ⟨b, rfl, rfl⟩

theorem opposes_iff {e : Engine α} {action : Action α} : opposes e action = true ↔
    action.isTransact = true ∧ e.positionSide ≠ .flat ∧ e.positionSide ≠ incomingSide action := by
  simp [opposes, and_assoc]

theorem incomingSide_ne_flat (action : Action α) : incomingSide action ≠ .flat := by
  unfold incomingSide
  split
  · split <;> simp
  · simp

section Stage

variable [Lawful α] {e : Engine α} {fill : Fill α} {fx : α} {s : Staged α}

theorem Staged.Finished.facts (h : s.Finished e fill fx) (hfill : fillRefusal fill = none) :
    s.costs.rows.length = s.closings.length ∧ isFinite s.costs.opening = true
      ∧ isFinite s.ticket = true ∧ s.afterQty = sumFrom 0 (s.survivors.map (·.qty)
        ++ if s.opens then [s.opening] else []) := by
  obtain ⟨summed, hsum, hticket⟩ := h.ticket
  obtain ⟨hfin, hcosts⟩ := ticketSum_finite hsum Lawful.finite_zero
  refine ⟨by simpa using quoteExecutionCommissions_length h.costs, hcosts _ (by simp), ?_, ?_⟩
  · rw [hticket]
    cases hc : fill.commissionAccount with
    | none => exact hfin
    | some fee => exact (fillRefusal_none hfill).2 fee hc
  · rw [h.afterQty, survivorSums_fst]
    cases s.opens <;> simp [sumFrom_append]

/-- What an allocation hands to the stage: the facts of `Staged.Sound` about the walk. -/
structure Allocation.Sound (e : Engine α) (a : Allocation α) : Prop where
  survivors : LotsValid a.survivors
  indices : ∀ c ∈ a.closings, c.index < e.pyramidEntries.length
  closed : a.closings ≠ [] → 0 < a.walk.closed
  untouched : a.closings = [] → a.walk.closed = 0 ∧ a.survivors = e.pyramidEntries

theorem allocate_sound {c : CloseOrder α} {rest : α} {a : Allocation α}
    (h : allocateNativeSettlementCloses e c rest = .ok a) (hv : LotsValid e.pyramidEntries)
    (hr : c.flatten = false → 0 < c.requested ∧ isFinite c.requested = true) (hrest : 0 ≤ rest) :
    a.Sound e := by
  obtain ⟨b, hw, rfl⟩ := allocate_walk h
  have hs := allocateFrom_sound hw hv hr hrest (.inl rfl)
  refine ⟨hs.survivors, fun x hx => by simpa using (hs.indices x hx).2, fun hne => ?_,
    fun hnil => ⟨?_, (hs.untouched hnil).1⟩⟩
  · have hstart := hs.started (.inl hne)
    simp only [finishTolerantWalk]
    split
    · next hc => exact (hr (by simpa using hc.2.2.1)).1
    · exact hstart.1
  · have hfresh : b.walk = ⟨0, rest⟩ := (hs.untouched hnil).2 rfl
    simp [finishTolerantWalk, hfresh, bne, Sane.zero_beq]

theorem allocate_takes {c : CloseOrder α} {rest : α} {a : Allocation α}
    (h : allocateNativeSettlementCloses e c rest = .ok a) (hv : LotsValid e.pyramidEntries)
    (hr : c.flatten = false → 0 < c.requested ∧ isFinite c.requested = true)
    (hrest : c.flatten = false → 0 < rest) (hc : c.closes = true)
    (hm : ∃ lot ∈ e.pyramidEntries, c.membership.contains lot = true) : a.closings ≠ [] := by
  obtain ⟨b, hw, rfl⟩ := allocate_walk h
  exact allocateFrom_takes (a := b) hw hv hr hrest hc hm

theorem request_pos {action : Action α} {sel : Selection α}
    (hsel : action.isReduce = true → 0 < sel.held ∧ isFinite sel.held = true)
    (hfin : isFinite action.requested = true)
    (hreq : action.isReduce = true → ¬ action.requested < 0)
    (hne : (action.requested == 0) = false) (hnf : action.isFlatten = false) :
    0 < allocationRequest action sel ∧ isFinite (allocationRequest action sel) = true := by
  have hnn : ¬ action.requested < 0 := by
    cases action with
    | flatten => cases hnf
    | reduce units => exact hreq rfl
    | transact units => exact Lawful.not_abs_neg units
  have hpos := Lawful.pos_of_nonneg (Lawful.nonneg_of_not_neg hfin hnn) hne
  unfold allocationRequest
  split
  · next h =>
    obtain ⟨hhpos, hhfin⟩ := hsel h.2
    refine ⟨cmin_pos hpos hhpos, ?_⟩
    unfold cmin
    split
    · exact hhfin
    · exact hfin
  · exact ⟨hpos, hfin⟩

theorem stage_request {action : Action α} {scope : CloseScope}
    {selected : Option SelectedOpeningSet} {held : α} {sel : Selection α}
    (hbook : validateNativeSettlementBook e = some held)
    (hsel : inspectMembership e action scope selected held = .ok sel)
    (hfin : isFinite action.requested = true)
    (hreq : action.isReduce = true → ¬ action.requested < 0)
    (hne : action.isFlatten = false → (action.requested == 0) = false)
    (hlots : action.isTransact = false → e.pyramidEntries ≠ []) (hf : action.isFlatten = false) :
    0 < allocationRequest action sel ∧ isFinite (allocationRequest action sel) = true := by
  refine request_pos (fun hr => ?_) hfin hreq (hne hf) hf
  have ht : action.isTransact = false := by
    cases action with
    | flatten => rfl
    | reduce units => rfl
    | transact units => cases hr
  exact (inspectMembership_sound hbook hsel (hlots ht)).held

theorem request_nonneg {action : Action α} {sel : Selection α}
    (h : action.isFlatten = false → 0 < allocationRequest action sel
      ∧ isFinite (allocationRequest action sel) = true) : 0 ≤ allocationRequest action sel := by
  cases action with
  | flatten =>
    simpa [allocationRequest, Action.isReduce, Action.requested]
      using (Lawful.zero_le_zero : (0 : α) ≤ 0)
  | reduce units => exact Lawful.le_of_pos (h rfl).1
  | transact units => exact Lawful.le_of_pos (h rfl).1

/-- **A ready stage is sound.** -/
theorem Readies.sound {x : Execution α} (h : Readies e fill fx x s) : s.Sound e fill fx := by
  cases h with
  | @act action scope selected held sel a _ hfill hbook hsel hfin hreq hne hlots hplan halloc hflip
      hdraft hdone =>
    obtain ⟨hside, hv, -, -⟩ := validateBook hbook
    obtain ⟨hrows, hopen, hticket, hqty⟩ := hdone.facts hfill
    simp only [Staged.draft, Draft.mk.injEq] at hdraft
    obtain ⟨-, hin, -, hclosed, hopening, hclosings, hsurv⟩ := hdraft
    have hposreq := stage_request hbook hsel hfin hreq hne hlots
    have hr : (closeOrder e action sel).flatten = false →
        0 < allocationRequest action sel ∧ isFinite (allocationRequest action sel) = true := by
      intro hf
      exact hposreq (Bool.or_eq_false_iff.1 hf).1
    have hrest := request_nonneg hposreq
    have hs := allocate_sound halloc hv hr hrest
    -- a reduction and an opposing transaction close, any other transaction only opens
    have hcloses : (closeOrder e action sel).closes = true → a.closings ≠ [] := by
      intro hc
      refine allocate_takes halloc hv hr (fun hf => (hr hf).1) hc
        (inspectMembership_sound hbook hsel ?_).member
      cases ht : action.isTransact with
      | false => exact hlots ht
      | true =>
        have hop : opposes e action = true := by
          cases action with
          | flatten => cases ht
          | reduce => cases ht
          | transact => simpa [closeOrder, Action.isFlatten, Action.isReduce] using hc
        exact fun hnil => (opposes_iff.1 hop).2.1 (hside.2 hnil)
    have hopens : (closeOrder e action sel).closes = false → s.opens = true ∧ s.closings = [] := by
      intro hc
      have hns : action.isFlatten = false ∧ action.isReduce = false ∧ opposes e action = false := by
        simpa [closeOrder, and_assoc] using hc
      have ht : action.isTransact = true := by
        cases action with
        | transact => rfl
        | flatten => exact absurd hns.1 (by simp [Action.isFlatten])
        | reduce => exact absurd hns.2.1 (by simp [Action.isReduce])
      have hnil : a.closings = [] := by
        obtain ⟨b, hw, rfl⟩ := allocate_walk halloc
        rw [allocateFrom_outside hw hc]
      have hpos := hposreq hns.1
      have hsel' := inspectMembership_transact hsel ht
      refine ⟨?_, hclosings.trans hnil⟩
      simpa [Staged.opens, hopening, Action.opening, ht, hns.2.2, hsel', allocationRequest]
        using hpos.1
    refine ⟨hside, (fillRefusal_none hfill).1, hdone.rate, hin ▸ incomingSide_ne_flat action,
      hsurv ▸ hs.survivors, hclosings ▸ hs.indices, ?_, ?_, ?_, ?_, hrows, hopen, hticket, hqty,
      hdone.afterPrice⟩
    · rw [hclosings, hclosed]; exact hs.closed
    · rw [hclosings, hclosed, hsurv]; exact hs.untouched
    · intro ho hne
      cases hc : (closeOrder e action sel).closes with
      | false => exact (hopens hc).2
      | true =>
        have hpos : 0 < action.opening e a.walk := by simpa [Staged.opens, hopening] using ho
        have ht : action.isTransact = true := by
          by_contra ht
          rw [Action.opening, if_pos (by simpa using ht)] at hpos
          exact not_zero_lt_zero hpos
        have hop : opposes e action = true := by
          cases action with
          | flatten => cases ht
          | reduce => cases ht
          | transact => simpa [closeOrder, Action.isFlatten, Action.isReduce] using hc
        exact absurd (hflip hpos hop) (hsurv ▸ hne)
    · cases hc : (closeOrder e action sel).closes with
      | true => left; rw [hclosings]; exact hcloses hc
      | false => exact .inr (hopens hc).1
  | @reverse signedUnits held a _ hfill hbook hfin hne hflat hopp halloc hsum hdraft hdone =>
    obtain ⟨hside, hv, -, -⟩ := validateBook hbook
    obtain ⟨hrows, hopen, hticket, hqty⟩ := hdone.facts hfill
    simp only [Staged.draft, Draft.mk.injEq] at hdraft
    obtain ⟨-, hin, -, hclosed, hopening, hclosings, hsurv⟩ := hdraft
    have hlots : e.pyramidEntries ≠ [] := fun h => hflat (hside.2 h)
    have hs := allocate_sound halloc hv (fun h => by cases h) Lawful.zero_le_zero
    have htakes : a.closings ≠ [] := by
      obtain ⟨lot, hl⟩ := List.exists_mem_of_ne_nil _ hlots
      exact allocate_takes halloc hv (fun h => by cases h) (fun h => by cases h) rfl
        ⟨lot, hl, rfl⟩
    have hnone : a.survivors = [] := by
      obtain ⟨b, hw, rfl⟩ := allocate_walk halloc
      exact allocateFrom_whole (a := b) hw hv rfl (fun _ => rfl) rfl
    refine ⟨hside, (fillRefusal_none hfill).1, hdone.rate,
      hin ▸ incomingSide_ne_flat (.transact signedUnits), hsurv ▸ hs.survivors,
      hclosings ▸ hs.indices, ?_, ?_, ?_, .inl (hclosings ▸ htakes), hrows, hopen, hticket, hqty,
      hdone.afterPrice⟩
    · rw [hclosings, hclosed]; exact hs.closed
    · rw [hclosings, hclosed, hsurv]; exact hs.untouched
    · exact fun _ hne => absurd (hsurv.trans hnone) hne

end Stage

end PineForge.Settlement
