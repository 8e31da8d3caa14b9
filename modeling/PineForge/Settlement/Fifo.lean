import PineForge.Settlement.Sound

/-!
# The walk over the book, read exactly

Over the rationals the walk of a close is first in, first out: it takes lots in book order, each
whole but at most the last, and keeps every other lot as it was (`Fifo`). The units it reports are
the units it took up to the quantity tolerance (`Walk.Exact`), one split at a time
(`Splits.exact`) and then over the whole book (`allocate_fifo`).
-/

namespace PineForge.Settlement

open Arith

/-- The lot kept when `amount` of it closes. -/
def partKept (e : Engine ℚ) (lot : PyramidEntry ℚ) (amount : ℚ) : PyramidEntry ℚ :=
  splitSurvivor e lot ⟨.applied, amount, lot.qty - amount⟩

/-- What closing in book order takes and keeps: a member closes whole while a later lot closes; the
last one touched may close in part and keeps more than the tolerance; every other lot is kept as it
is. -/
inductive Fifo (e : Engine ℚ) (member : PyramidEntry ℚ → Bool) :
    List (PyramidEntry ℚ) → List (PyramidEntry ℚ × ℚ) → List (PyramidEntry ℚ) → Prop
  | nil : Fifo e member [] [] []
  | keep {lot lots taken kept} (hm : member lot = false ∨ taken = [])
      (h : Fifo e member lots taken kept) : Fifo e member (lot :: lots) taken (lot :: kept)
  | whole {lot lots taken kept} (hm : member lot = true) (h : Fifo e member lots taken kept) :
    Fifo e member (lot :: lots) ((lot, lot.qty) :: taken) kept
  | part {lot lots amount} (hm : member lot = true) (hpos : 0 < amount) (hlt : amount < lot.qty)
      (hkept : e.nativeQuantityTolerance < lot.qty - amount) :
    Fifo e member (lot :: lots) [(lot, amount)] (partKept e lot amount :: lots)

namespace Fifo

variable {e : Engine ℚ} {member : PyramidEntry ℚ → Bool} {lots kept : List (PyramidEntry ℚ)}
  {taken : List (PyramidEntry ℚ × ℚ)}

theorem taken_nil (hm : ∀ lot, member lot = false) (h : Fifo e member lots taken kept) :
    taken = [] := by
  induction h with
  | nil => rfl
  | keep _ h ih => exact ih
  | whole hm' h ih => rw [hm] at hm'; cases hm'
  | part hm' => rw [hm] at hm'; cases hm'

/-- The members are those of another reading of the lots, or nothing closes. -/
theorem reread {member' : PyramidEntry ℚ → Bool}
    (hm : (∀ lot, member lot = member' lot) ∨ ∀ lot, member lot = false)
    (h : Fifo e member lots taken kept) : Fifo e member' lots taken kept := by
  rcases hm with hm | hnone
  · rwa [← funext hm]
  · induction h with
    | nil => exact .nil
    | keep hm' h ih => exact .keep (.inr (h.taken_nil hnone)) ih
    | whole hm' h ih => rw [hnone] at hm'; cases hm'
    | part hm' => rw [hnone] at hm'; cases hm'

theorem taken_pos (hv : LotsValid lots) (h : Fifo e member lots taken kept) :
    ∀ p ∈ taken, 0 < p.2 := by
  induction h with
  | nil => exact fun _ hp => (List.not_mem_nil hp).elim
  | keep _ h ih => exact ih fun l hl => hv l (List.mem_cons_of_mem _ hl)
  | @whole lot lots taken kept hm h ih =>
    intro p hp
    rcases List.mem_cons.1 hp with rfl | hp
    · exact (hv lot List.mem_cons_self).1
    · exact ih (fun l hl => hv l (List.mem_cons_of_mem _ hl)) p hp
  | part hm hpos hlt hkept =>
    intro p hp
    rw [List.mem_singleton.1 hp]
    exact hpos

theorem conserves {f : PyramidEntry ℚ → ℚ} {g : PyramidEntry ℚ → ℚ → ℚ}
    (hwhole : ∀ lot ∈ lots, g lot lot.qty = f lot)
    (hpart : ∀ lot ∈ lots, ∀ amount, 0 < amount → amount < lot.qty →
      g lot amount + f (partKept e lot amount) = f lot)
    (h : Fifo e member lots taken kept) :
    (lots.map f).sum = (kept.map f).sum + (taken.map fun p => g p.1 p.2).sum := by
  induction h with
  | nil => simp
  | keep _ h ih =>
    have := ih (fun l hl => hwhole l (List.mem_cons_of_mem _ hl))
      (fun l hl => hpart l (List.mem_cons_of_mem _ hl))
    simp only [List.map_cons, List.sum_cons, this]
    ring
  | @whole lot lots taken kept hm h ih =>
    have := ih (fun l hl => hwhole l (List.mem_cons_of_mem _ hl))
      (fun l hl => hpart l (List.mem_cons_of_mem _ hl))
    simp only [List.map_cons, List.sum_cons, this, hwhole lot List.mem_cons_self]
    ring
  | @part lot lots amount hm hpos hlt hkept =>
    have := hpart lot List.mem_cons_self amount hpos hlt
    simp only [List.map_cons, List.sum_cons, List.map_nil, List.sum_nil, ← this]
    ring

/-- **Units are conserved**: what was held is what is kept and what closed. -/
theorem units (h : Fifo e member lots taken kept) :
    (lots.map (·.qty)).sum = (kept.map (·.qty)).sum + (taken.map (·.2)).sum := by
  refine conserves (f := (·.qty)) (g := fun _ amount => amount) (fun _ _ => rfl) ?_ h
  intro lot _ amount _ _
  simp [partKept, splitSurvivor]

end Fifo

/-! ## One split -/

/-- The running sums against the units really taken: they add up to the request, and the reported
units are the taken ones up to the tolerance, exactly while the close goes on. -/
structure Walk.Exact (requested tolerance taken : ℚ) (w : Walk ℚ) : Prop where
  total : w.closed + w.remaining = requested
  remaining : 0 ≤ w.remaining
  near : |w.closed - taken| ≤ tolerance
  going : w.remaining ≠ 0 → w.closed = taken

/-- What one split does to its lot: keeps it, as none of the members or after the close ended,
closes it whole, or cuts it and ends the close. -/
inductive Cut (e : Engine ℚ) (lot : PyramidEntry ℚ) (closes flatten : Bool) (w' : Walk ℚ) :
    CloseSplit ℚ → Prop
  | keep {kept : ℚ} (hk : closes = false ∨ flatten = false ∧ w'.remaining = 0) :
    Cut e lot closes flatten w' ⟨.applied, 0, kept⟩
  | whole {kept : ℚ} (hc : closes = true) (hk : ¬ 0 < kept) :
    Cut e lot closes flatten w' ⟨.applied, lot.qty, kept⟩
  | part {amount : ℚ} (hc : closes = true) (hf : flatten = false) (hpos : 0 < amount)
      (hlt : amount < lot.qty) (hkept : e.nativeQuantityTolerance < lot.qty - amount)
      (hend : w'.remaining = 0) :
    Cut e lot closes flatten w' ⟨.applied, amount, lot.qty - amount⟩

section Splits

variable {e : Engine ℚ} {lot : PyramidEntry ℚ} {requested taken : ℚ} {closes : Bool}
  {split : CloseSplit ℚ} {w w' : Walk ℚ}

theorem Splits.flattens (hs : Splits lot requested e.nativeQuantityTolerance w closes true split w')
    (hq : 0 < lot.qty) : Cut e lot closes true w' split ∧ w'.closed = w.closed + split.amount := by
  cases hs with
  | outside => exact ⟨.keep (.inl rfl), by simp⟩
  | empty hz => exact absurd hq (by simpa using (eq_of_beq hz).le)
  | whole hz hf => exact ⟨.whole rfl (by simp), rfl⟩

/-- **One split, read exactly.** It keeps, closes or cuts its lot, and the running sums stay exact
for what was taken. -/
theorem Splits.exact
    (hs : Splits lot requested e.nativeQuantityTolerance w closes false split w')
    (hq : 0 < lot.qty) (ht : 0 ≤ e.nativeQuantityTolerance)
    (hw : w.Exact requested e.nativeQuantityTolerance taken) :
    Cut e lot closes false w' split
      ∧ w'.Exact requested e.nativeQuantityTolerance (taken + split.amount) := by
  have hrem := hw.remaining
  have htotal := hw.total
  -- a split that takes something starts from a close that goes on
  have hgoing : (w.remaining == 0) = false ∨ (cmin lot.qty w.remaining == 0) = false →
      0 < w.remaining ∧ w.closed = taken := by
    intro hr
    have hne : w.remaining ≠ 0 := by
      rintro h0
      rcases hr with hr | hr
      · simp [h0] at hr
      · simp [h0, hq.le] at hr
    exact ⟨lt_of_le_of_ne hrem (Ne.symm hne), hw.going hne⟩
  cases hs with
  | outside => exact ⟨.keep (.inl rfl), by simpa using hw⟩
  | done hr =>
    have hend : w.remaining = 0 := by
      by_contra hne
      have hpos : 0 < w.remaining := lt_of_le_of_ne hrem (Ne.symm hne)
      rcases hr with hr | hr
      · exact hne (eq_of_beq hr)
      · exact (lt_min hq hpos).ne' (by simpa using hr)
    exact ⟨.keep (.inr ⟨rfl, hend⟩), by simpa using hw⟩
  | stop htol hc hr hlt =>
    refine ⟨.keep (.inr ⟨rfl, rfl⟩), by simp, le_rfl, ?_, fun h => absurd rfl h⟩
    rcases eq_or_ne w.remaining 0 with h0 | hne
    · have : requested = w.closed := by rw [← htotal, h0, add_zero]
      simpa [this] using hw.near
    · have hcl := hw.going hne
      have hdist : requested - (taken + 0) = w.remaining := by rw [← htotal, hcl]; ring
      change |requested - (taken + 0)| ≤ _
      rwa [hdist, abs_of_nonneg hrem]
  | ends hr htol hn =>
    -- the sums add up to the request, so the close cannot end inside a lot with a different sum
    obtain ⟨hpos, hcl⟩ := hgoing hr
    exfalso
    simp only [rat_cmin] at hn
    rcases hn with hn | ⟨hn, hk⟩
    · have := min_le_right lot.qty w.remaining
      linarith
    · have hne : lot.qty - min lot.qty w.remaining ≠ 0 := by simpa using hk
      have hmin : min lot.qty w.remaining = w.remaining := by
        rcases min_choice lot.qty w.remaining with h | h
        · rw [h] at hne; exact absurd (sub_self _) hne
        · exact h
      linarith
  | snap hr hk hs =>
    obtain ⟨hpos, hcl⟩ := hgoing hr
    refine ⟨.whole rfl (lt_irrefl _), by simp, le_rfl, ?_, fun h => absurd rfl h⟩
    simp only [rat_cmin] at hk hs
    have hne : lot.qty - min lot.qty w.remaining ≠ 0 := by simpa using hk
    have hmin : min lot.qty w.remaining = w.remaining := by
      rcases min_choice lot.qty w.remaining with h | h
      · rw [h] at hne; exact absurd (sub_self _) hne
      · exact h
    have hle : w.remaining ≤ lot.qty := hmin ▸ min_le_left ..
    have hdist : |requested - (taken + lot.qty)| = lot.qty - w.remaining := by
      rw [← htotal, hcl, show taken + w.remaining - (taken + lot.qty) = -(lot.qty - w.remaining) by
        ring, abs_neg, abs_of_nonneg (by linarith)]
    rw [hdist]
    rcases hs with ⟨-, hle'⟩ | hs
    · rwa [hmin] at hle'
    · have : w.closed + lot.qty = requested := eq_of_beq hs
      linarith
  | next hr htol hn hk hs hf =>
    obtain ⟨hpos, hcl⟩ := hgoing hr
    simp only [rat_cmin] at htol hn hk hs ⊢
    have hexact : Walk.Exact requested e.nativeQuantityTolerance (taken + min lot.qty w.remaining)
        ⟨w.closed + min lot.qty w.remaining,
          requested - (w.closed + min lot.qty w.remaining)⟩ := by
      refine ⟨by simp, by simpa using hn, ?_, fun _ => by simp [hcl]⟩
      simp [hcl, ht]
    refine ⟨?_, hexact⟩
    rcases le_or_gt lot.qty w.remaining with hle | hlt
    · rw [min_eq_left hle, sub_self]
      exact .whole rfl (lt_irrefl _)
    · rw [min_eq_right hlt.le] at htol hn hk hs ⊢
      refine .part rfl rfl hpos hlt ?_ (by simp [← htotal])
      rcases ht.lt_or_eq with h | h
      · rcases htol h with hz | hz
        · have : lot.qty - w.remaining = 0 := by simpa using hz
          linarith
        · exact not_le.1 hz
      · rw [← h]; linarith

end Splits

/-! ## The whole walk -/

section Walks

variable {e : Engine ℚ} {c : CloseOrder ℚ}

/-- The closings name the lots they take, by their place in the book. -/
def Names (e : Engine ℚ) (x : Closing ℚ) (p : PyramidEntry ℚ × ℚ) : Prop :=
  e.pyramidEntries[x.index]? = some p.1 ∧ x.quantity = p.2

theorem allocateFrom_over {index : Nat} {lots : List (PyramidEntry ℚ)} {w : Walk ℚ} {taken : ℚ}
    {a : Allocation ℚ} (h : allocateFrom e c index lots w = .ok a) (hv : LotsValid lots)
    (hf : c.flatten = false) (hw : w.Exact c.requested e.nativeQuantityTolerance taken)
    (hend : w.remaining = 0) : a = ⟨lots, [], w⟩ := by
  induction lots generalizing index a with
  | nil => simpa [allocateFrom] using h.symm
  | cons lot lots ih =>
    obtain ⟨split, w', rest, hs, hrec, rfl⟩ := allocateFrom_cons h
    have hq := (hv lot List.mem_cons_self).1
    rw [hf] at hs
    have hstay : split.amount = 0 ∧ w' = w := by
      have hno : ¬ ((w.remaining == 0) = false ∨ (cmin lot.qty w.remaining == 0) = false) := by
        simp [hend, hq.le]
      generalize (c.closes && c.membership.contains lot) = closes at hs
      cases hs with
      | outside => exact ⟨rfl, rfl⟩
      | done => exact ⟨rfl, rfl⟩
      | stop =>
        have := hw.total
        rw [hend, add_zero] at this
        exact ⟨rfl, by rw [← this, ← hend]⟩
      | ends hr => exact absurd hr hno
      | snap hr => exact absurd hr hno
      | next hr => exact absurd hr hno
    obtain ⟨hz, rfl⟩ := hstay
    have := ih hrec fun l hl => hv l (List.mem_cons_of_mem _ hl)
    simp [this, keptLots, takenClosings, hz]

/-- The running sums at the end of a walk that took `taken` units. -/
def CloseOrder.Sums (c : CloseOrder ℚ) (tolerance taken : ℚ) (w : Walk ℚ) : Prop :=
  if c.flatten then w.closed = taken else w.Exact c.requested tolerance taken

theorem CloseOrder.Sums.near {tolerance taken : ℚ} {w : Walk ℚ} (ht : 0 ≤ tolerance)
    (h : c.Sums tolerance taken w) : |w.closed - taken| ≤ tolerance := by
  unfold CloseOrder.Sums at h
  split at h
  · simpa [h] using ht
  · exact h.near

theorem CloseOrder.Sums.step {lot : PyramidEntry ℚ} {closes : Bool} {split : CloseSplit ℚ}
    {w w' : Walk ℚ} {taken : ℚ}
    (hs : Splits lot c.requested e.nativeQuantityTolerance w closes c.flatten split w')
    (hq : 0 < lot.qty) (ht : 0 ≤ e.nativeQuantityTolerance)
    (hw : c.Sums e.nativeQuantityTolerance taken w) :
    Cut e lot closes c.flatten w' split
      ∧ c.Sums e.nativeQuantityTolerance (taken + split.amount) w' := by
  unfold CloseOrder.Sums at hw ⊢
  cases hf : c.flatten with
  | true =>
    rw [hf] at hs hw
    obtain ⟨hcut, hsum⟩ := hs.flattens hq
    exact ⟨hcut, by rw [if_pos rfl] at hw ⊢; rw [hsum, hw]⟩
  | false =>
    rw [hf] at hs hw
    obtain ⟨hcut, hsum⟩ := hs.exact hq ht (by simpa using hw)
    exact ⟨hcut, by simpa using hsum⟩

/-- **The walk is first in, first out**, and its sums are those of the units it took. -/
theorem allocateFrom_fifo {index : Nat} {lots : List (PyramidEntry ℚ)} {w : Walk ℚ} {taken : ℚ}
    {a : Allocation ℚ} (h : allocateFrom e c index lots w = .ok a) (hv : LotsValid lots)
    (ht : 0 ≤ e.nativeQuantityTolerance)
    (hbook : ∀ i, e.pyramidEntries[index + i]? = lots[i]?)
    (hw : c.Sums e.nativeQuantityTolerance taken w) :
    ∃ closed, Fifo e (fun lot => c.closes && c.membership.contains lot) lots closed a.survivors
      ∧ List.Forall₂ (Names e) a.closings closed
      ∧ c.Sums e.nativeQuantityTolerance (taken + (closed.map (·.2)).sum) a.walk := by
  induction lots generalizing index w taken a with
  | nil =>
    simp only [allocateFrom, Except.ok.injEq] at h
    subst h
    exact ⟨[], .nil, .nil, by simpa using hw⟩
  | cons lot lots ih =>
    obtain ⟨split, w', rest, hs, hrec, rfl⟩ := allocateFrom_cons h
    have hq := (hv lot List.mem_cons_self).1
    have hv' : LotsValid lots := fun l hl => hv l (List.mem_cons_of_mem _ hl)
    have hlot : e.pyramidEntries[index]? = some lot := by simpa using hbook 0
    have hbook' : ∀ i, e.pyramidEntries[index + 1 + i]? = lots[i]? := by
      intro i
      have := hbook (i + 1)
      rwa [List.getElem?_cons_succ, show index + (i + 1) = index + 1 + i by omega] at this
    obtain ⟨hcut, hw'⟩ := CloseOrder.Sums.step hs hq ht hw
    obtain ⟨closed, hfifo, hnames, hsums⟩ := ih hrec hv' hbook' hw'
    -- nothing more is taken once the close has ended
    have hover (hf : c.flatten = false) (hend : w'.remaining = 0) : rest = ⟨lots, [], w'⟩ :=
      allocateFrom_over hrec hv' hf (by simpa [CloseOrder.Sums, hf] using hw') hend
    cases hcut with
    | keep hk =>
      -- so a member is kept only where the rest of the book is kept too
      have hrest : (c.closes && c.membership.contains lot) = false ∨ closed = [] := by
        obtain hno | ⟨hf, hend⟩ := hk
        · exact .inl hno
        · rw [hover hf hend] at hnames
          exact .inr (List.forall₂_nil_left_iff.1 hnames)
      exact ⟨closed, by simpa [keptLots] using hfifo.keep hrest,
        by simpa [takenClosings] using hnames, by simpa using hsums⟩
    | whole hc hk =>
      refine ⟨(lot, lot.qty) :: closed, ?_, ?_, ?_⟩
      · simpa [keptLots, hq.ne', hk] using hfifo.whole hc
      · simpa [takenClosings, hq.ne'] using ⟨⟨hlot, rfl⟩, hnames⟩
      · simpa [add_assoc] using hsums
    | @part amount hc hf hpos hlt hkept hend =>
      obtain rfl := hover hf hend
      refine ⟨[(lot, amount)], ?_, ?_, ?_⟩
      · simpa [keptLots, hpos.ne', hlt, partKept] using Fifo.part hc hpos hlt hkept
      · have htaken : takenClosings index ⟨.applied, amount, lot.qty - amount⟩
            = [⟨index, amount⟩] := by simp [takenClosings, hpos.ne']
        rw [htaken]
        exact .cons ⟨hlot, rfl⟩ .nil
      · simpa using hw'

theorem CloseOrder.Sums.finish {taken : ℚ} {w : Walk ℚ}
    (hw : c.Sums e.nativeQuantityTolerance taken w) :
    c.Sums e.nativeQuantityTolerance taken
      (finishTolerantWalk e.nativeQuantityTolerance c.closes c.flatten c.requested w) := by
  unfold finishTolerantWalk
  split
  · next h =>
    obtain ⟨-, -, hf, -, hpos, hle⟩ := h
    have hf : c.flatten = false := by simpa using hf
    unfold CloseOrder.Sums at hw ⊢
    rw [hf] at hw ⊢
    simp only [Bool.false_eq_true, if_false] at hw ⊢
    refine ⟨by simp, le_rfl, ?_, fun h => absurd rfl h⟩
    have hdist : c.requested - taken = w.remaining := by
      rw [← hw.total, hw.going hpos.ne']
      ring
    rwa [hdist, abs_of_nonneg hpos.le]
  · exact hw

theorem allocate_fifo {rest : ℚ} {a : Allocation ℚ}
    (h : allocateNativeSettlementCloses e c rest = .ok a) (hv : LotsValid e.pyramidEntries)
    (ht : 0 ≤ e.nativeQuantityTolerance)
    (hrest : c.flatten = false → rest = c.requested ∧ 0 ≤ rest) :
    ∃ closed, Fifo e (fun lot => c.closes && c.membership.contains lot) e.pyramidEntries closed
        a.survivors
      ∧ List.Forall₂ (Names e) a.closings closed
      ∧ c.Sums e.nativeQuantityTolerance (closed.map (·.2)).sum a.walk := by
  obtain ⟨b, hb, rfl⟩ := allocate_walk h
  have hstart : c.Sums e.nativeQuantityTolerance 0 ⟨0, rest⟩ := by
    unfold CloseOrder.Sums
    cases hf : c.flatten with
    | true => rfl
    | false =>
      obtain ⟨rfl, hnn⟩ := hrest hf
      exact ⟨zero_add _, hnn, by simpa using ht, fun _ => rfl⟩
  obtain ⟨closed, hfifo, hnames, hsums⟩ := allocateFrom_fifo hb hv ht (fun i => by simp) hstart
  rw [zero_add] at hsums
  exact ⟨closed, hfifo, hnames, hsums.finish⟩

end Walks

end PineForge.Settlement
