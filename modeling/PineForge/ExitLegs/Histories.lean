import PineForge.ExitLegs.Performs

/-!
# Histories of a lifecycle

A lifecycle is attached once, copied under new incarnations, priced, and changed by actions. Over
any such history what is refused changes nothing, events and revisions only move on, and a barrier
that is waited for no more is never waited for again.
-/

namespace PineForge.ExitLegs

/-- The calls on a leg's life. -/
inductive Op (ρ : Type)
  | attach (incarnation : ℕ) (owner : ℤ)
  | fork (incarnation : ℕ) (owner : ℤ)
  | setPrices (value : Prices ρ)
  | apply (actual : Target) (action : Action ρ)

/-- The incarnation that an operation gives. -/
def Op.gives {ρ : Type} : Op ρ → Option ℕ
  | .attach incarnation _ => some incarnation
  | .fork incarnation _ => some incarnation
  | _ => none

/-- Whether a call forks. -/
def Op.isFork {ρ : Type} : Op ρ → Bool
  | .fork _ _ => true
  | _ => false

namespace Lifecycle

variable {ρ : Type} [DecidableEq ρ] [LT ρ] [DecidableLT ρ] [HasNaN ρ]

/-- What is thrown changes nothing. -/
def step (l : Lifecycle ρ) : Op ρ → Lifecycle ρ
  | .attach incarnation owner => (l.attach incarnation owner).getD l
  | .fork incarnation owner => (l.fork incarnation owner).getD l
  | .setPrices value => (l.setPrices value).getD l
  | .apply actual action => (l.apply actual action).2

/-- The state after calls. -/
def after (l : Lifecycle ρ) (ops : List (Op ρ)) : Lifecycle ρ := ops.foldl step l

/-- Whether an operation is carried out. -/
def accepts (l : Lifecycle ρ) : Op ρ → Bool
  | .attach incarnation owner => (l.attach incarnation owner).isSome
  | .fork incarnation owner => (l.fork incarnation owner).isSome
  | .setPrices value => (l.setPrices value).isSome
  | .apply actual action => (l.apply actual action).1 = .applied

/-- The event of an action that is applied. -/
def appliedEvent (l : Lifecycle ρ) : Op ρ → Option ℕ
  | .apply actual action => if (l.apply actual action).1 = .applied then
    some action.cause.event else none
  | _ => none

/-- The events of the calls that applied. -/
def appliedEvents (l : Lifecycle ρ) : List (Op ρ) → List ℕ
  | [] => []
  | op :: ops => (l.appliedEvent op).toList ++ (l.step op).appliedEvents ops

/-- One for an action that is applied or a change of prices. -/
def moves (l : Lifecycle ρ) : Op ρ → ℕ
  | .setPrices value => if (l.setPrices value).isSome then 1 else 0
  | .apply actual action => if (l.apply actual action).1 = .applied then 1 else 0
  | _ => 0

/-- How often calls moved the revision. -/
def moved (l : Lifecycle ρ) : List (Op ρ) → ℕ
  | [] => 0
  | op :: ops => l.moves op + (l.step op).moved ops

/-- The barrier that an operation completes. -/
def completes (l : Lifecycle ρ) : Op ρ → Option Barrier
  | .apply actual action =>
    match action.operation with
    | .completeBarrier _ requested => if (l.apply actual action).1 = .applied then
      requested else none
    | _ => none
  | _ => none

/-! ## One operation -/

variable {l : Lifecycle ρ}

/-- An action is refused and changes nothing, or is performed under a later event. -/
inductive Applies (l : Lifecycle ρ) (action : Action ρ) : Result × Lifecycle ρ → Prop
  | refused {r : Result} (hr : r ≠ .applied) : Applies l action (r, l)
  | applied {next : Lifecycle ρ} (hperform : l.perform action = some next)
      (hattached : l.target.incarnation ≠ 0) (hevent : action.cause.event ≠ 0)
      (hlast : ∀ last, l.last = some last → last.cause.event < action.cause.event)
      (hrevision : action.expectedRevision = l.revision) (hmax : l.revision ≠ maxRevision) :
    Applies l action (.applied, { next with revision := next.revision + 1, last := some action })

/-- What `apply` may do. -/
theorem apply_applies (l : Lifecycle ρ) (actual : Target) (action : Action ρ) :
    Applies l action (l.apply actual action) := by
  unfold apply
  split
  · exact .refused fun h => by cases h
  · rename_i hidentity
    split
    · exact .refused fun h => by cases h
    · split
      · exact .refused fun h => by cases h
      · split
        · split
          · exact .refused fun h => by cases h
          · split
            · exact .refused fun h => by cases h
            · exact .refused fun h => by cases h
        · rename_i hother
          split
          · exact .refused fun h => by cases h
          · rename_i hexpired
            split
            · exact .refused fun h => by cases h
            · rename_i hrevision
              split
              · exact .refused fun h => by cases h
              · rename_i hmax
                split
                · exact .refused fun h => by cases h
                · rename_i next hperform
                  unfold expired at hexpired
                  rw [decide_eq_true_eq, not_or] at hexpired
                  refine .applied hperform ?_ hexpired.1 ?_ (not_not.mp hrevision) hmax
                  · intro hzero
                    by_cases hactual : actual.incarnation = 0
                    · exact hidentity (.inl hactual)
                    · exact hidentity (.inr (.inl (hzero ▸ hactual)))
                  · intro last hlast
                    have hle := hexpired.2
                    rw [hlast, Option.any_some, decide_eq_true_eq] at hle
                    rw [hlast, Option.filter_eq_none_iff] at hother
                    have hne := hother last rfl
                    rw [decide_eq_true_eq] at hne
                    omega

/-- What the state after an operation is: the state before, the same under another name, with other
prices, or what an action made of it. -/
inductive Steps (l : Lifecycle ρ) : Op ρ → Lifecycle ρ → Prop
  | refused {op : Op ρ} (hno : l.accepts op = false) (hevent : l.appliedEvent op = none)
      (hmoves : l.moves op = 0) (hcompletes : l.completes op = none) :
    Steps l op l
  | attached {incarnation : ℕ} {owner : ℤ} (hpos : incarnation ≠ 0)
    (hnew : l.target.incarnation = 0) :
    Steps l (.attach incarnation owner) { l with
      target := { incarnation := incarnation, owner := owner }
      definition := { l.definition with incarnation := incarnation } }
  | forked {incarnation : ℕ} {owner : ℤ} (hpos : incarnation ≠ 0) :
    Steps l (.fork incarnation owner) { l with
      target := { incarnation := incarnation, owner := owner }
      definition := { l.definition with incarnation := incarnation }
      revision := 0
      last := none
      suspension := l.suspension.map
        (Suspension.forked · { incarnation := incarnation, owner := owner }) }
  | priced {value : Prices ρ} (hmoves : l.moves (.setPrices value) = 1) :
    Steps l (.setPrices value) { l with
      definition := { l.definition with value := some value, revision := l.definition.revision + 1 }
      revision := l.revision + 1 }
  | applied {actual : Target} {action : Action ρ} {next : Lifecycle ρ}
      (hresult : (l.apply actual action).1 = .applied) (hperform : l.perform action = some next)
      (hattached : l.target.incarnation ≠ 0)
      (hlast : ∀ last, l.last = some last → last.cause.event < action.cause.event) :
    Steps l (.apply actual action) { next with revision := next.revision + 1, last := some action }

/-- What a call may do. -/
theorem step_steps (l : Lifecycle ρ) (op : Op ρ) : Steps l op (l.step op) := by
  cases op with
  | attach incarnation owner =>
    change Steps l _ ((l.attach incarnation owner).getD l)
    cases h : l.attach incarnation owner with
    | none =>
      change Steps l _ l
      exact .refused (congrArg Option.isSome h) rfl rfl rfl
    | some next =>
      unfold attach at h
      split at h
      · cases h
      · rename_i hok
        cases h
        exact .attached (fun hz => hok (.inl hz)) (not_not.mp fun hne => hok (.inr (.inr hne)))
  | fork incarnation owner =>
    change Steps l _ ((l.fork incarnation owner).getD l)
    cases h : l.fork incarnation owner with
    | none =>
      change Steps l _ l
      exact .refused (congrArg Option.isSome h) rfl rfl rfl
    | some next =>
      unfold fork at h
      split at h
      · cases h
      · rename_i hok
        cases h
        exact .forked fun hz => hok (.inl hz)
  | setPrices value =>
    change Steps l _ ((l.setPrices value).getD l)
    cases h : l.setPrices value with
    | none =>
      change Steps l _ l
      exact .refused (congrArg Option.isSome h) rfl
        (if_neg (by rw [h]; exact Bool.false_ne_true)) rfl
    | some next =>
      have hmoves : l.moves (.setPrices value) = 1 := if_pos (by rw [h]; rfl)
      unfold setPrices at h
      split at h
      · cases h
      · cases h
        exact .priced hmoves
  | apply actual action =>
    have happlies := apply_applies l actual action
    change Steps l _ (l.apply actual action).2
    cases hresult : l.apply actual action with
    | mk r next =>
      rw [hresult] at happlies
      have hfst : (l.apply actual action).1 = r := by rw [hresult]
      cases happlies with
      | refused hr =>
        have hno : ¬(l.apply actual action).1 = .applied := hfst ▸ hr
        refine .refused (decide_eq_false hno) (if_neg hno) (if_neg hno) ?_
        unfold completes
        dsimp only
        split
        · exact if_neg hno
        · rfl
      | applied hperform hattached hevent hlast hrevision hmax =>
        exact .applied hfst hperform hattached hlast

end Lifecycle

end PineForge.ExitLegs
