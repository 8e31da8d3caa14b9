import PineForge.ExitLegs.Lifecycle

/-!
# What an operation does

Every operation that is performed keeps the lifecycle sound, never lowers a generation, and leaves
the barrier that is waited for as it was, gives it up, or issues a new one under the next revision.
-/

namespace PineForge.ExitLegs

namespace Lifecycle

variable {ρ : Type}

/-- A retirement is of its leg's current generation. A suspension has legs, and waits for a hold or
for a replacement but not for both. -/
structure Sound (l : Lifecycle ρ) : Prop where
  retired : ∀ leg r, l.retired leg = some r → r.generation = l.generations leg
  legs : ∀ s, l.suspension = some s → s.legs ≠ []
  waits : ∀ s, l.suspension = some s → s.hold = none ∨ s.replacement = none

/-- The barrier of a state against that of the state before it. -/
inductive BarrierStep (l next : Lifecycle ρ) : Prop
  | gone (h : next.releaseBarrier = none)
  | same (h : next.releaseBarrier = l.releaseBarrier)
  | issued (b : Barrier) (h : next.releaseBarrier = some b) (htarget : b.target = l.target)
      (hrevision : b.revision = l.revision + 1)

/-- What every operation on a sound lifecycle keeps. -/
structure Performs (l next : Lifecycle ρ) : Prop where
  revision : next.revision = l.revision
  incarnation : next.target.incarnation = l.target.incarnation
  generations : ∀ leg, l.generations leg ≤ next.generations leg
  sound : next.Sound
  barrier : BarrierStep l next

variable {l next : Lifecycle ρ}

/-! ## Restoring -/

/-- What restoring legs keeps. -/
structure Restores (l next : Lifecycle ρ) : Prop where
  revision : next.revision = l.revision
  target : next.target = l.target
  generations : ∀ leg, l.generations leg ≤ next.generations leg
  retired : (∀ leg r, l.retired leg = some r → r.generation = l.generations leg) →
    ∀ leg r, next.retired leg = some r → r.generation = next.generations leg
  suspension : ∀ t, next.suspension = some t → ∃ s, l.suspension = some s ∧ t.hold = s.hold ∧
    t.replacement = s.replacement
  barrier : next.releaseBarrier = l.releaseBarrier

theorem restores_restoreLeg (l : Lifecycle ρ) (leg : Leg) : Restores l (l.restoreLeg leg) where
  revision := rfl
  target := rfl
  generations := by
    intro other
    unfold restoreLeg
    dsimp only
    by_cases h : other = leg
    · rw [h, Function.update_self]
      exact Nat.le_succ _
    · rw [Function.update_of_ne h]
  retired := by
    intro hretired other r hr
    unfold restoreLeg at hr ⊢
    dsimp only at hr ⊢
    by_cases h : other = leg
    · rw [h, Function.update_self] at hr
      cases hr
    · rw [Function.update_of_ne h] at hr ⊢
      exact hretired other r hr
  suspension := by
    intro t ht
    obtain ⟨s, hs, rfl⟩ := Option.map_eq_some_iff.mp ht
    exact ⟨s, hs, rfl, rfl⟩
  barrier := by
    unfold releaseBarrier restoreLeg
    cases l.suspension with
    | none => rfl
    | some s => rfl

theorem Restores.trans {m : Lifecycle ρ} (h : Restores l next) (h' : Restores next m) :
    Restores l m where
  revision := h'.revision.trans h.revision
  target := h'.target.trans h.target
  generations := fun leg => (h.generations leg).trans (h'.generations leg)
  retired := fun hretired => h'.retired (h.retired hretired)
  suspension := by
    intro t ht
    obtain ⟨s, hs, hhold, hreplacement⟩ := h'.suspension t ht
    obtain ⟨r, hr, hhold', hreplacement'⟩ := h.suspension s hs
    exact ⟨r, hr, hhold.trans hhold', hreplacement.trans hreplacement'⟩
  barrier := h'.barrier.trans h.barrier

theorem restores_foldl (legs : List Leg) (l : Lifecycle ρ) :
    Restores l (legs.foldl restoreLeg l) := by
  induction legs generalizing l with
  | nil =>
    exact ⟨rfl, rfl, fun _ => Nat.le_refl _, id, fun t ht => ⟨t, ht, rfl, rfl⟩, rfl⟩
  | cons leg legs ih => exact (restores_restoreLeg l leg).trans (ih (l.restoreLeg leg))

/-- Restoring raises generations. -/
theorem performs_restore (hsound : l.Sound) {legs : List Leg} (h : l.restore legs = some next) :
    Performs l next := by
  unfold restore at h
  split at h
  · cases h
  · cases h
    have hrestores := restores_foldl legs l
    generalize legs.foldl restoreLeg l = m at hrestores
    refine ⟨hrestores.revision, congrArg Target.incarnation hrestores.target, hrestores.generations,
      ⟨hrestores.retired hsound.retired, ?_, ?_⟩, ?_⟩
    · intro s hs
      have hfilter := (Option.filter_eq_some_iff.mp hs).2
      intro hnil
      rw [hnil] at hfilter
      cases hfilter
    · intro s hs
      obtain ⟨r, hr, hhold, hreplacement⟩ :=
        hrestores.suspension s (Option.filter_eq_some_iff.mp hs).1
      rw [hhold, hreplacement]
      exact hsound.waits r hr
    · cases hsuspension : m.suspension.filter fun s => !s.legs.isEmpty with
      | none =>
        refine .gone ?_
        unfold releaseBarrier dropEmptySuspension
        rw [hsuspension]
        rfl
      | some s =>
        refine .same ?_
        rw [← hrestores.barrier]
        unfold releaseBarrier dropEmptySuspension
        rw [hsuspension, (Option.filter_eq_some_iff.mp hsuspension).1]

/-! ## Retiring -/

/-- What retiring legs keeps. -/
structure Retires (l next : Lifecycle ρ) : Prop where
  revision : next.revision = l.revision
  target : next.target = l.target
  generations : next.generations = l.generations
  suspension : next.suspension = l.suspension
  retired : (∀ leg r, l.retired leg = some r → r.generation = l.generations leg) →
    ∀ leg r, next.retired leg = some r → r.generation = next.generations leg

theorem retires_retireLeg (cause : Frame) (l : Lifecycle ρ) (leg : Leg) :
    Retires l (retireLeg cause l leg) := by
  unfold retireLeg
  split
  · exact ⟨rfl, rfl, rfl, rfl, id⟩
  · refine ⟨rfl, rfl, rfl, rfl, fun hretired other r hr => ?_⟩
    dsimp only at hr ⊢
    by_cases h : other = leg
    · rw [h, Function.update_self] at hr
      cases hr
      rw [h]
    · rw [Function.update_of_ne h] at hr
      exact hretired other r hr

theorem retires_foldl (cause : Frame) (legs : List Leg) (l : Lifecycle ρ) :
    Retires l (legs.foldl (retireLeg cause) l) := by
  induction legs generalizing l with
  | nil => exact ⟨rfl, rfl, rfl, rfl, id⟩
  | cons leg legs ih =>
    have h := retires_retireLeg cause l leg
    have h' := ih (retireLeg cause l leg)
    exact ⟨h'.revision.trans h.revision, h'.target.trans h.target,
      h'.generations.trans h.generations,
      h'.suspension.trans h.suspension, fun hretired => h'.retired (h.retired hretired)⟩

theorem releaseBarrier_congr (h : next.suspension = l.suspension) :
    next.releaseBarrier = l.releaseBarrier := by
  unfold releaseBarrier
  rw [h]

theorem Performs.retire (h : Performs l next) (cause : Frame) (legs : List Leg) :
    Performs l (legs.foldl (retireLeg cause) next) := by
  have hretires := retires_foldl cause legs next
  have hbarrier := releaseBarrier_congr hretires.suspension
  refine ⟨hretires.revision.trans h.revision,
    (congrArg Target.incarnation hretires.target).trans h.incarnation, fun leg => ?_,
    ⟨hretires.retired h.sound.retired, fun s hs => h.sound.legs s (hretires.suspension ▸ hs),
      fun s hs => h.sound.waits s (hretires.suspension ▸ hs)⟩, ?_⟩
  · rw [hretires.generations]
    exact h.generations leg
  · cases h.barrier with
    | gone h => exact .gone (hbarrier.trans h)
    | same h => exact .same (hbarrier.trans h)
    | issued b h htarget hrevision => exact .issued b (hbarrier.trans h) htarget hrevision

theorem Performs.refl (hsound : l.Sound) : Performs l l :=
  ⟨rfl, rfl, fun _ => Nat.le_refl _, hsound, .same rfl⟩

/-! ## Suspending -/

theorem validLegs_ne_nil {legs : List Leg} (h : ¬validLegs legs = false) : legs ≠ [] := by
  rw [Bool.not_eq_false] at h
  exact (of_decide_eq_true h).2

theorem performs_suspend (hsound : l.Sound) {cause : Frame} {legs retire : List Leg}
    {hold : Option Barrier}
    {window : Option (ObservationWindow ρ)}
    (h : l.suspend cause legs hold window retire = some next) : Performs l next := by
  unfold suspend at h
  split at h
  · cases h
  · rename_i hvalid
    split at h
    · cases h
    · cases h
      have hlegs : legs ≠ [] := validLegs_ne_nil fun hfalse => hvalid (.inl hfalse)
      apply Performs.retire
      refine ⟨rfl, rfl, fun _ => Nat.le_refl _, ⟨hsound.retired, ?_, ?_⟩, ?_⟩
      · intro s hs
        cases hs
        exact hlegs
      · intro s hs
        cases hs
        exact .inr rfl
      · cases hold with
        | none => exact .gone rfl
        | some b => exact .issued (l.issue b) rfl rfl rfl

theorem performs_stageReplacement (hsound : l.Sound) {cause : Frame} {relation : Replacement ρ}
    (h : l.stageReplacement cause relation = some next) : Performs l next := by
  unfold stageReplacement at h
  split at h
  · cases h
  · split at h
    · cases h
    · rename_i hfree
      cases h
      refine ⟨rfl, rfl, fun _ => Nat.le_refl _, ⟨hsound.retired, ?_, ?_⟩,
        .issued (l.issue relation.release) rfl rfl rfl⟩
      · intro s hs
        cases hs
        dsimp only
        cases hsuspension : l.suspension with
        | none => exact List.cons_ne_nil _ _
        | some s => exact hsound.legs s hsuspension
      · intro s hs
        cases hs
        dsimp only
        left
        cases hsuspension : l.suspension with
        | none => rfl
        | some s =>
          rw [hsuspension, Option.any_some, Bool.or_eq_true, not_or] at hfree
          exact Option.not_isSome_iff_eq_none.mp hfree.1

theorem performs_cancelDeferredActivation (hsound : l.Sound)
    (h : l.cancelDeferredActivation = some next) : Performs l next := by
  obtain ⟨s, hs, rfl⟩ := Option.map_eq_some_iff.mp h
  refine ⟨rfl, rfl, fun _ => Nat.le_refl _, ⟨hsound.retired, ?_, ?_⟩, ?_⟩
  · intro t ht
    cases ht
    exact hsound.legs s hs
  · intro t ht
    cases ht
    exact .inr rfl
  · cases hreplacement : s.replacement with
    | none =>
      refine .same ?_
      unfold releaseBarrier
      rw [hs]
      dsimp only [Option.bind_some]
      rw [hreplacement]
    | some r =>
      obtain hhold | hnone := hsound.waits s hs
      · exact .gone hhold
      · rw [hreplacement] at hnone
        cases hnone

/-- A barrier that is completed is the one that is waited for, and is waited for no more. -/
theorem performs_completeBarrier (hsound : l.Sound) {cause completed : Frame}
    {requested : Option Barrier}
    (h : l.completeBarrier cause completed requested = some next) :
    Performs l next ∧ ∃ b, l.releaseBarrier = some b ∧ requested = some b ∧
      next.releaseBarrier = none := by
  unfold completeBarrier at h
  split at h
  next s expected asked hs hexpected =>
    split at h
    · cases h
    · rename_i hsame
      have hasked : asked = expected := by
        rw [Bool.not_eq_false] at hsame
        obtain ⟨hincarnation, howner, hrevision, hevent, hbar, hdomain, hphase⟩ :=
          of_decide_eq_true hsame
        obtain ⟨⟨event, bar, domain, phase⟩, ⟨incarnation, owner⟩, revision⟩ := expected
        obtain ⟨⟨event', bar', domain', phase'⟩, ⟨incarnation', owner'⟩, revision'⟩ := asked
        dsimp only at hincarnation howner hrevision hevent hbar hdomain hphase
        rw [hincarnation, howner, hrevision, hevent, hbar, hdomain, hphase]
      split at h
      · cases h
      · split at h
        next hreplacement =>
          have hperforms := performs_restore hsound h
          refine ⟨hperforms, expected, hexpected, by rw [hasked], ?_⟩
          -- All three legs are restored, so that no suspension is left.
          unfold restore at h
          split at h
          · cases h
          · cases h
            unfold releaseBarrier dropEmptySuspension
            have hempty : (([Leg.stop, .limit, .trail].foldl restoreLeg l).suspension.filter
                fun s => !s.legs.isEmpty) = none := by
              rw [Option.filter_eq_none_iff]
              intro t ht
              unfold List.foldl at ht
              simp only [List.foldl_cons, List.foldl_nil, restoreLeg, hs, Option.map_some,
                Option.some.injEq, List.filter_filter] at ht
              rw [← ht]
              dsimp only
              rw [List.filter_eq_nil_iff.mpr]
              · exact Bool.false_ne_true
              · intro leg _
                cases leg <;> decide
            rw [hempty]
            rfl
        next hreplacement =>
          cases h
          have hnone : s.replacement = none := Option.not_isSome_iff_eq_none.mp hreplacement
          have hgone : ({ l with suspension := some { s with hold := none } } :
            Lifecycle ρ).releaseBarrier
              = none := by
            unfold releaseBarrier
            dsimp only [Option.bind_some]
            rw [hnone]
          refine ⟨⟨rfl, rfl, fun _ => Nat.le_refl _, ⟨hsound.retired, ?_, ?_⟩, .gone hgone⟩,
            expected,
            hexpected, by rw [hasked], hgone⟩
          · intro t ht
            cases ht
            exact hsound.legs s hs
          · intro t ht
            cases ht
            exact .inl rfl
  next => cases h

variable [DecidableEq ρ] [LT ρ] [DecidableLT ρ] [HasNaN ρ]

omit [DecidableEq ρ] in
theorem performs_observe (hsound : l.Sound) {cause : Frame} {high low : ρ} {direction : ℤ}
    {fold : Fold}
    (h : l.observe cause high low direction fold = some next) : Performs l next := by
  unfold observe at h
  split at h
  · cases h
  · rename_i s hs
    split at h
    · cases h
    · split at h
      · cases h
      · split at h
        · cases h
        · cases h
          refine ⟨rfl, rfl, fun _ => Nat.le_refl _, ⟨hsound.retired, ?_, ?_⟩, .same ?_⟩
          · intro t ht
            cases ht
            exact hsound.legs s hs
          · intro t ht
            cases ht
            exact hsound.waits s hs
          · unfold releaseBarrier
            rw [hs]
            rfl

omit [DecidableEq ρ] in
theorem performs_perform (hsound : l.Sound) {action : Action ρ} (h : l.perform action = some next) :
    Performs l next := by
  unfold perform at h
  split at h
  · cases h
    exact ⟨rfl, rfl, fun _ => Nat.le_refl _, ⟨hsound.retired, hsound.legs, hsound.waits⟩, .same rfl⟩
  · exact performs_suspend hsound h
  · exact performs_stageReplacement hsound h
  · exact performs_cancelDeferredActivation hsound h
  · exact performs_restore hsound h
  · exact (performs_completeBarrier hsound h).1
  · exact performs_observe hsound h
  · unfold cancel at h
    split at h
    · cases h
    · cases h
      exact (Performs.refl hsound).retire _ _

end Lifecycle

end PineForge.ExitLegs
