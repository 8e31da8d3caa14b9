import PineForge.ExitLegs.Histories

/-!
# Histories are linear

Events and revisions move on from operation to operation, generations never fall, and every barrier
is waited for during one stretch of the history at most.
-/

namespace PineForge.ExitLegs

namespace Lifecycle

variable {ρ : Type}

/-! ## States that are reached -/

/-- A sound lifecycle whose barrier was issued to its incarnation, under a revision that it has
reached. -/
structure Current (l : Lifecycle ρ) : Prop where
  sound : l.Sound
  barrier : ∀ b, l.releaseBarrier = some b →
    b.target.incarnation = l.target.incarnation ∧ b.revision ≤ l.revision
  unattached : l.target.incarnation = 0 → l.suspension = none

theorem current_new : (new : Lifecycle ρ).Current where
  sound := ⟨fun _ _ h => (by cases h), fun _ h => (by cases h), fun _ h => (by cases h)⟩
  barrier := fun _ h => by cases h
  unattached := fun _ => rfl

theorem releaseBarrier_forked (s : Option (Suspension ρ)) (l m : Lifecycle ρ) (target : Target)
    (hl : l.suspension = s) (hm : m.suspension = s.map (Suspension.forked · target)) :
    m.releaseBarrier = l.releaseBarrier.map fun b =>
      { b with target := target, revision := 0 } := by
  unfold releaseBarrier
  rw [hl, hm]
  cases s with
  | none => rfl
  | some s =>
    simp only [Option.map_some, Option.bind_some, Suspension.forked]
    cases s.replacement with
    | none => rfl
    | some r => rfl

variable [DecidableEq ρ] [LT ρ] [DecidableLT ρ] [HasNaN ρ] {l : Lifecycle ρ}

/-- Retirements stay of their generation. -/
theorem Current.step (h : l.Current) (op : Op ρ) : (l.step op).Current := by
  have hsteps := step_steps l op
  generalize l.step op = m at hsteps
  cases hsteps with
  | refused => exact h
  | attached hpos hnew =>
    have hnone := h.unattached hnew
    refine ⟨⟨h.sound.retired, h.sound.legs, h.sound.waits⟩, fun b hb => ?_,
      fun hzero => absurd hzero hpos⟩
    unfold releaseBarrier at hb
    dsimp only at hb
    rw [hnone] at hb
    cases hb
  | forked hpos =>
    refine ⟨⟨h.sound.retired, fun s hs => ?_, fun s hs => ?_⟩, fun b hb => ?_,
      fun hzero => absurd hzero hpos⟩
    · obtain ⟨t, ht, rfl⟩ := Option.map_eq_some_iff.mp hs
      exact h.sound.legs t ht
    · obtain ⟨t, ht, rfl⟩ := Option.map_eq_some_iff.mp hs
      obtain hhold | hreplacement := h.sound.waits t ht
      · exact .inl (Option.map_eq_none_iff.mpr hhold)
      · exact .inr (Option.map_eq_none_iff.mpr hreplacement)
    · rw [releaseBarrier_forked l.suspension l _ _ rfl rfl] at hb
      obtain ⟨c, -, rfl⟩ := Option.map_eq_some_iff.mp hb
      exact ⟨rfl, Nat.le_refl 0⟩
  | priced hmoves =>
    refine ⟨⟨h.sound.retired, h.sound.legs, h.sound.waits⟩, fun b hb => ?_, h.unattached⟩
    have := h.barrier b hb
    exact ⟨this.1, Nat.le_succ_of_le this.2⟩
  | applied hresult hperform hattached hlast =>
    have hperforms := performs_perform h.sound hperform
    have hrevision := hperforms.revision
    have hincarnation := hperforms.incarnation
    refine ⟨⟨hperforms.sound.retired, hperforms.sound.legs, hperforms.sound.waits⟩, fun b hb => ?_,
      fun hzero => absurd (hincarnation.symm.trans hzero) hattached⟩
    change _ = some b at hb
    dsimp only
    rw [hincarnation, hrevision]
    cases hperforms.barrier with
    | gone hgone => cases hgone.symm.trans hb
    | same hsame =>
      have := h.barrier b (hsame.symm.trans hb)
      exact ⟨this.1, Nat.le_succ_of_le this.2⟩
    | issued c hissued htarget hissue =>
      cases Option.some.inj (hissued.symm.trans hb)
      exact ⟨congrArg Target.incarnation htarget, hissue.le⟩

theorem after_append (l : Lifecycle ρ) (ops more : List (Op ρ)) :
    l.after (ops ++ more) = (l.after ops).after more := List.foldl_append

theorem Current.after (h : l.Current) (ops : List (Op ρ)) : (l.after ops).Current := by
  induction ops generalizing l with
  | nil => exact h
  | cons op ops ih => exact ih (h.step op)

/-! ## Generations, events and revisions -/

theorem generations_step (h : l.Current) (op : Op ρ) (leg : Leg) :
    l.generations leg ≤ (l.step op).generations leg := by
  have hsteps := step_steps l op
  generalize l.step op = m at hsteps
  cases hsteps with
  | refused => exact Nat.le_refl _
  | attached hpos hnew => exact Nat.le_refl _
  | forked hpos => exact Nat.le_refl _
  | priced hmoves => exact Nat.le_refl _
  | applied hresult hperform hattached hlast =>
    exact (performs_perform h.sound hperform).generations leg

theorem generations_after (h : l.Current) (ops : List (Op ρ)) (leg : Leg) :
    l.generations leg ≤ (l.after ops).generations leg := by
  induction ops generalizing l with
  | nil => exact Nat.le_refl _
  | cons op ops ih => exact (generations_step h op leg).trans (ih (h.step op))

theorem revision_step (h : l.Current) {op : Op ρ} (hop : op.isFork = false) :
    (l.step op).revision = l.revision + l.moves op := by
  have hsteps := step_steps l op
  generalize l.step op = m at hsteps
  cases hsteps with
  | refused hno hevent hmoves hcompletes =>
    rw [hmoves]
    rfl
  | attached hpos hnew => rfl
  | forked hpos => cases hop
  | priced hmoves => rw [hmoves]
  | applied hresult hperform hattached hlast =>
    have hmoves : l.moves (.apply _ _) = 1 := if_pos hresult
    rw [hmoves]
    exact congrArg (· + 1) (performs_perform h.sound hperform).revision

theorem revision_after (h : l.Current) {ops : List (Op ρ)} (hops : ∀ op ∈ ops, op.isFork = false) :
    (l.after ops).revision = l.revision + l.moved ops := by
  induction ops generalizing l with
  | nil => rfl
  | cons op ops ih =>
    have hfirst := revision_step h (hops op List.mem_cons_self)
    have hrest := ih (h.step op) fun o ho => hops o (List.mem_cons_of_mem op ho)
    unfold moved
    rw [← Nat.add_assoc, ← hfirst]
    exact hrest

/-- The events of a history without forks ascend, from the last one before it on. -/
theorem appliedEvents_ascend {ops : List (Op ρ)} (hops : ∀ op ∈ ops, op.isFork = false) :
    (l.appliedEvents ops).Pairwise (· < ·) ∧
      ∀ last, l.last = some last → ∀ event ∈ l.appliedEvents ops, last.cause.event < event := by
  induction ops generalizing l with
  | nil => exact ⟨List.Pairwise.nil, fun _ _ _ h => absurd h List.not_mem_nil⟩
  | cons op ops ih =>
    have hop := hops op List.mem_cons_self
    obtain ⟨hsorted, hlater⟩ := @ih (l.step op) fun o ho => hops o (List.mem_cons_of_mem op ho)
    have hsteps := step_steps l op
    unfold appliedEvents
    generalize (l.step op).appliedEvents ops = events at hsorted hlater
    generalize l.step op = m at hsteps hlater
    cases hsteps with
    | refused hno hevent hmoves hcompletes =>
      rw [hevent]
      exact ⟨hsorted, hlater⟩
    | attached hpos hnew => exact ⟨hsorted, hlater⟩
    | forked hpos => cases hop
    | priced hmoves => exact ⟨hsorted, hlater⟩
    | @applied actual action next hresult hperform hattached hlast =>
      have hevent : l.appliedEvent (.apply actual action) = some action.cause.event :=
        if_pos hresult
      rw [hevent]
      refine ⟨List.pairwise_cons.mpr ⟨hlater action rfl, hsorted⟩, fun last hl event hmem => ?_⟩
      obtain rfl | hmem := List.mem_cons.mp hmem
      · exact hlast last hl
      · exact (hlast last hl).trans (hlater action rfl event hmem)

/-! ## Barriers -/

/-- A barrier of another incarnation, or of a revision that was reached. -/
def Past (b : Barrier) (l : Lifecycle ρ) : Prop :=
  b.target.incarnation = l.target.incarnation → b.revision ≤ l.revision

theorem Past.step {b : Barrier} (hl : l.Current) (h : Past b l) {op : Op ρ}
    (hop : op.gives ≠ some b.target.incarnation) : Past b (l.step op) := by
  have hsteps := step_steps l op
  generalize l.step op = m at hsteps
  cases hsteps with
  | refused => exact h
  | attached hpos hnew => exact fun heq => absurd (congrArg some heq.symm) hop
  | forked hpos => exact fun heq => absurd (congrArg some heq.symm) hop
  | priced hmoves => exact fun heq => Nat.le_succ_of_le (h heq)
  | applied hresult hperform hattached hlast =>
    have hperforms := performs_perform hl.sound hperform
    intro heq
    dsimp only at heq ⊢
    rw [hperforms.incarnation] at heq
    rw [hperforms.revision]
    exact Nat.le_succ_of_le (h heq)

/-- A past barrier that is not waited for is not waited for after the next operation. -/
theorem gone_step {b : Barrier} (hl : l.Current) (h : Past b l) (hgone : l.releaseBarrier ≠ some b)
    {op : Op ρ} (hop : op.gives ≠ some b.target.incarnation) :
    (l.step op).releaseBarrier ≠ some b := by
  have hsteps := step_steps l op
  generalize l.step op = m at hsteps
  intro hb
  cases hsteps with
  | refused => exact hgone hb
  | attached hpos hnew => exact hgone hb
  | forked hpos =>
    rw [releaseBarrier_forked l.suspension l _ _ rfl rfl] at hb
    obtain ⟨c, -, rfl⟩ := Option.map_eq_some_iff.mp hb
    exact hop rfl
  | priced hmoves => exact hgone hb
  | applied hresult hperform hattached hlast =>
    change _ = some b at hb
    cases (performs_perform hl.sound hperform).barrier with
    | gone hnone => cases hnone.symm.trans hb
    | same hsame => exact hgone (hsame.symm.trans hb)
    | issued c hissued htarget hissue =>
      cases Option.some.inj (hissued.symm.trans hb)
      have := h (congrArg Target.incarnation htarget)
      omega

theorem gone_after {b : Barrier} (hl : l.Current) (h : Past b l) (hgone : l.releaseBarrier ≠ some b)
    {ops : List (Op ρ)} (hops : ∀ op ∈ ops, op.gives ≠ some b.target.incarnation) :
    (l.after ops).releaseBarrier ≠ some b := by
  induction ops generalizing l with
  | nil => exact hgone
  | cons op ops ih =>
    have hop := hops op List.mem_cons_self
    exact ih (hl.step op) (h.step hl hop) (gone_step hl h hgone hop)
      fun o ho => hops o (List.mem_cons_of_mem op ho)

theorem past_after {b : Barrier} (hl : l.Current) (h : Past b l) {ops : List (Op ρ)}
    (hops : ∀ op ∈ ops, op.gives ≠ some b.target.incarnation) : Past b (l.after ops) := by
  induction ops generalizing l with
  | nil => exact h
  | cons op ops ih =>
    exact ih (hl.step op) (h.step hl (hops op List.mem_cons_self))
      fun o ho => hops o (List.mem_cons_of_mem op ho)

/-- What is completed is the barrier that is waited for, and it is waited for no more. -/
theorem completes_spec (hl : l.Current) {op : Op ρ} {b : Barrier} (h : l.completes op = some b) :
    l.releaseBarrier = some b ∧ (l.step op).releaseBarrier = none := by
  have hsteps := step_steps l op
  generalize l.step op = m at hsteps
  cases hsteps with
  | refused hno hevent hmoves hcompletes =>
    rw [hcompletes] at h
    cases h
  | attached hpos hnew => cases h
  | forked hpos => cases h
  | priced hmoves => cases h
  | @applied actual action next hresult hperform hattached hlast =>
    unfold completes at h
    dsimp only at h
    split at h
    next completed requested hoperation =>
      rw [if_pos hresult] at h
      unfold perform at hperform
      rw [hoperation] at hperform
      dsimp only at hperform
      obtain ⟨-, c, hc, hrequested, hnone⟩ := performs_completeBarrier hl.sound hperform
      rw [hrequested] at h
      cases h
      exact ⟨hc, hnone⟩
    next => cases h

theorem incarnation_given (ops : List (Op ρ)) :
    ((new : Lifecycle ρ).after ops).target.incarnation = 0 ∨
      ((new : Lifecycle ρ).after ops).target.incarnation ∈ ops.filterMap Op.gives := by
  induction ops using List.reverseRecOn with
  | nil => exact .inl rfl
  | append_singleton ops op ih =>
    have hcurrent := current_new.after ops
    have hsteps := step_steps ((new : Lifecycle ρ).after ops) op
    rw [after_append, List.filterMap_append]
    change ((new.after ops).step op).target.incarnation = 0 ∨
      ((new.after ops).step op).target.incarnation ∈ _
    generalize (new.after ops).step op = m at hsteps
    cases hsteps with
    | refused => exact ih.imp id (List.mem_append_left _)
    | attached hpos hnew => exact .inr (List.mem_append_right _ (List.mem_singleton_self _))
    | forked hpos => exact .inr (List.mem_append_right _ (List.mem_singleton_self _))
    | priced hmoves => exact ih.imp id (List.mem_append_left _)
    | applied hresult hperform hattached hlast =>
      dsimp only
      rw [(performs_perform hcurrent.sound hperform).incarnation]
      exact ih.imp id (List.mem_append_left _)

/-- A barrier that was waited for and is not any more is never waited for again. -/
theorem barrier_never_again {early mid late : List (Op ρ)} {b : Barrier}
    (hfresh : ((early ++ mid ++ late).filterMap Op.gives).Nodup)
    (hwaited : ((new : Lifecycle ρ).after early).releaseBarrier = some b)
    (hgone : ((new : Lifecycle ρ).after (early ++ mid)).releaseBarrier ≠ some b) :
    ((new : Lifecycle ρ).after (early ++ mid ++ late)).releaseBarrier ≠ some b := by
  have hcurrent := (current_new : (new : Lifecycle ρ).Current).after early
  obtain ⟨hincarnation, hrevision⟩ := hcurrent.barrier b hwaited
  have hgiven : b.target.incarnation ∈ early.filterMap Op.gives := by
    rw [hincarnation]
    obtain hzero | hmem := incarnation_given early
    · have hnone := hcurrent.unattached hzero
      unfold releaseBarrier at hwaited
      rw [hnone] at hwaited
      cases hwaited
    · exact hmem
  have hnot : ∀ op ∈ mid ++ late, op.gives ≠ some b.target.incarnation := by
    intro op hop hgives
    rw [List.append_assoc, List.filterMap_append, List.nodup_append] at hfresh
    have hlater : b.target.incarnation ∈ (mid ++ late).filterMap Op.gives :=
      List.mem_filterMap.mpr ⟨op, hop, hgives⟩
    exact hfresh.2.2 _ hgiven _ hlater rfl
  have hsplit : (new : Lifecycle ρ).after (early ++ mid) = (new.after early).after mid :=
    after_append new early mid
  have hpast := past_after hcurrent (fun _ => hrevision)
    fun op hop => hnot op (List.mem_append_left late hop)
  rw [hsplit] at hgone
  rw [after_append, hsplit]
  exact gone_after (hcurrent.after mid) hpast hgone fun op hop =>
    hnot op (List.mem_append_right mid hop)

/-! ## The whole history -/

theorem step_of_not_accepts {op : Op ρ} (h : l.accepts op = false) : l.step op = l := by
  cases op with
  | attach incarnation owner =>
    have hnone : l.attach incarnation owner = none :=
      Option.not_isSome_iff_eq_none.mp (Bool.eq_false_iff.mp h)
    exact congrArg (Option.getD · l) hnone
  | fork incarnation owner =>
    have hnone : l.fork incarnation owner = none :=
      Option.not_isSome_iff_eq_none.mp (Bool.eq_false_iff.mp h)
    exact congrArg (Option.getD · l) hnone
  | setPrices value =>
    have hnone : l.setPrices value = none :=
      Option.not_isSome_iff_eq_none.mp (Bool.eq_false_iff.mp h)
    exact congrArg (Option.getD · l) hnone
  | apply actual action =>
    have hno : ¬(l.apply actual action).1 = .applied := of_decide_eq_false h
    have happlies := apply_applies l actual action
    change (l.apply actual action).2 = l
    generalize l.apply actual action = result at hno happlies
    cases happlies with
    | refused hr => rfl
    | applied => exact absurd rfl hno

/-- The laws of a history whose forks are to fresh incarnations. What is refused or replayed changes
nothing. Between forks the applied events ascend and the revision counts the applied actions and the
changes of prices. Generations never fall, retirements are of the current generation, and
suspensions are well formed. A barrier is completed only while it is waited for, at most once, and
never after it was given up. -/
theorem history_linear {ops : List (Op ρ)} (hfresh : (ops.filterMap Op.gives).Nodup) :
    (∀ early op late, ops = early ++ op :: late →
      ((new : Lifecycle ρ).after early).accepts op = false →
      (new : Lifecycle ρ).after (early ++ [op]) = new.after early) ∧
    (∀ early mid late, ops = early ++ mid ++ late → (∀ op ∈ mid, op.isFork = false) →
      (((new : Lifecycle ρ).after early).appliedEvents mid).Pairwise (· < ·) ∧
      ((new : Lifecycle ρ).after (early ++ mid)).revision
        = ((new : Lifecycle ρ).after early).revision
          + ((new : Lifecycle ρ).after early).moved mid) ∧
    (∀ early mid late, ops = early ++ mid ++ late → ∀ leg,
      ((new : Lifecycle ρ).after early).generations leg
        ≤ ((new : Lifecycle ρ).after (early ++ mid)).generations leg) ∧
    (∀ early late, ops = early ++ late → ((new : Lifecycle ρ).after early).Sound) ∧
    (∀ early op late b, ops = early ++ op :: late →
      ((new : Lifecycle ρ).after early).completes op = some b →
      ((new : Lifecycle ρ).after early).releaseBarrier = some b) ∧
    (∀ early op mid op' late b, ops = early ++ op :: mid ++ op' :: late →
      ((new : Lifecycle ρ).after early).completes op = some b →
      ((new : Lifecycle ρ).after (early ++ op :: mid)).completes op' ≠ some b) ∧
    (∀ early mid late op late' b, ops = early ++ mid ++ late ++ op :: late' →
      ((new : Lifecycle ρ).after early).releaseBarrier = some b →
      ((new : Lifecycle ρ).after (early ++ mid)).releaseBarrier ≠ some b →
      ((new : Lifecycle ρ).after (early ++ mid ++ late)).completes op ≠ some b) := by
  have hcurrent : ∀ early : List (Op ρ), ((new : Lifecycle ρ).after early).Current :=
    fun early => current_new.after early
  have hnever : ∀ early mid late op late' b, ops = early ++ mid ++ late ++ op :: late' →
      ((new : Lifecycle ρ).after early).releaseBarrier = some b →
      ((new : Lifecycle ρ).after (early ++ mid)).releaseBarrier ≠ some b →
      ((new : Lifecycle ρ).after (early ++ mid ++ late)).completes op ≠ some b := by
    intro early mid late op late' b hsplit hwaited hgone hcompletes
    rw [hsplit, List.filterMap_append, List.nodup_append] at hfresh
    exact barrier_never_again hfresh.1 hwaited hgone (completes_spec (hcurrent _) hcompletes).1
  refine ⟨?_, ?_, ?_, ?_, ?_, ?_, hnever⟩
  · intro early op late _ hno
    rw [after_append]
    exact step_of_not_accepts hno
  · intro early mid late _ hforks
    rw [after_append]
    exact ⟨(appliedEvents_ascend hforks).1, revision_after (hcurrent early) hforks⟩
  · intro early mid late _ leg
    rw [after_append]
    exact generations_after (hcurrent early) mid leg
  · intro early late _
    exact (hcurrent early).sound
  · intro early op late b _ hcompletes
    exact (completes_spec (hcurrent early) hcompletes).1
  · intro early op mid op' late b hsplit hcompletes
    obtain ⟨hwaited, hnone⟩ := completes_spec (hcurrent early) hcompletes
    have hgone : ((new : Lifecycle ρ).after (early ++ [op])).releaseBarrier ≠ some b := by
      rw [after_append]
      change ((new.after early).step op).releaseBarrier ≠ some b
      rw [hnone]
      exact fun h => by cases h
    have hlist : early ++ op :: mid = early ++ [op] ++ mid := by
      rw [List.append_assoc, List.singleton_append]
    rw [hlist] at hsplit ⊢
    exact hnever early [op] mid op' late b hsplit hwaited hgone

end Lifecycle

instance : HasNaN ℤ where
  isNaN _ := false

/-- The frame of an event on a bar of its own number. -/
def frameAt (event : ℕ) : Frame :=
  ⟨event, event, .ordinary, .observation⟩

/-- A lifecycle is attached and its stop is suspended until a barrier, which is then completed. -/
def heldStop : List (Op ℤ) :=
  [.attach 1 0,
    .apply ⟨1, 0⟩ ⟨⟨1, 0⟩, 0, frameAt 1, .suspend [.stop] (some ⟨frameAt 1, ⟨0, 0⟩, 0⟩) none []⟩,
    .apply ⟨1, 0⟩ ⟨⟨1, 0⟩, 1, frameAt 2,
      .completeBarrier (frameAt 2) (some ⟨frameAt 1, ⟨1, 0⟩, 1⟩)⟩]

theorem history_linear_heldStop :
    (heldStop.filterMap Op.gives).Nodup ∧
      ((Lifecycle.new : Lifecycle ℤ).appliedEvents heldStop = [1, 2]) ∧
      ((Lifecycle.new : Lifecycle ℤ).appliedEvents heldStop).Pairwise (· < ·) ∧
      ((Lifecycle.new : Lifecycle ℤ).after heldStop).revision
        = (Lifecycle.new : Lifecycle ℤ).revision + (Lifecycle.new : Lifecycle ℤ).moved heldStop ∧
      ((Lifecycle.new : Lifecycle ℤ).after heldStop).Sound := by
  have hfresh : (heldStop.filterMap Op.gives).Nodup := List.nodup_singleton 1
  obtain ⟨-, hmoves, -, hsound, -⟩ := Lifecycle.history_linear hfresh
  have hforks : ∀ op ∈ heldStop, op.isFork = false := by
    intro op hop
    simp only [heldStop, List.mem_cons, List.not_mem_nil, or_false] at hop
    obtain rfl | rfl | rfl := hop <;> rfl
  obtain ⟨hevents, hrevision⟩ :=
    hmoves [] heldStop [] (by rw [List.nil_append, List.append_nil]) hforks
  exact ⟨hfresh, by decide, hevents, hrevision, hsound heldStop [] (List.append_nil heldStop).symm⟩

end PineForge.ExitLegs
