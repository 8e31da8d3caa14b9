/-!
# Commands over a state

A command of a stateful component returns a value or throws, and the state a throw leaves behind
is part of what it does. `Command σ ε β` is that reading of a C++ member function with exceptions:
a function from the state to the outcome and the state after it.

`Ensures` is the triple of the commands: from a state with the precondition a return satisfies the
postcondition and a throw leaves a state with the exceptional one. The rules below are one for each
way a command is put together.
-/

namespace PineForge

/-! ## Results -/

namespace Result

variable {ε β γ : Type}

@[simp] theorem ok_bind (b : β) (f : β → Except ε γ) : (Except.ok b >>= f) = f b := rfl

@[simp] theorem error_bind (e : ε) (f : β → Except ε γ) :
    ((Except.error e : Except ε β) >>= f) = Except.error e := rfl

theorem bind_eq_ok {x : Except ε β} {f : β → Except ε γ} {c : γ} :
    (x >>= f) = .ok c ↔ ∃ b, x = .ok b ∧ f b = .ok c := by
  cases x with
  | ok b => simp
  | error e => simp

end Result

/-! ## Commands -/

/-- A command over the state `σ` that returns a `β` or throws an `ε`. -/
def Command (σ ε β : Type) := σ → Except ε β × σ

namespace Command

variable {σ ε β γ : Type}

instance : Monad (Command σ ε) where
  pure b := fun s => (.ok b, s)
  bind m k := fun s =>
    match m s with
    | (.ok b, t) => k b t
    | (.error e, t) => (.error e, t)

/-- The state as it stands. -/
def get : Command σ ε σ := fun s => (.ok s, s)

/-- A write that cannot throw. -/
def modify (f : σ → σ) : Command σ ε Unit := fun s => (.ok (), f s)

/-- A throw: the state stays as the writes before it left it. -/
def throw (e : ε) : Command σ ε β := fun s => (.error e, s)

/-- A command that is given only where a condition holds. -/
def when (c : Prop) [Decidable c] (m : Command σ ε Unit) : Command σ ε Unit :=
  if c then m else pure ()

@[simp] theorem pure_apply (b : β) (s : σ) : (pure b : Command σ ε β) s = (.ok b, s) := rfl

@[simp] theorem get_apply (s : σ) : (get : Command σ ε σ) s = (.ok s, s) := rfl

@[simp] theorem modify_apply (f : σ → σ) (s : σ) :
    (modify f : Command σ ε Unit) s = (.ok (), f s) := rfl

@[simp] theorem throw_apply (e : ε) (s : σ) : (throw e : Command σ ε β) s = (.error e, s) := rfl

theorem bind_apply (m : Command σ ε β) (k : β → Command σ ε γ) (s : σ) :
    (m >>= k) s = match m s with
      | (.ok b, t) => k b t
      | (.error e, t) => (.error e, t) := rfl

theorem bind_ok {m : Command σ ε β} {b : β} {s t : σ} (h : m s = (.ok b, t))
    (k : β → Command σ ε γ) : (m >>= k) s = k b t := by
  rw [bind_apply, h]

theorem bind_error {m : Command σ ε β} {e : ε} {s t : σ} (h : m s = (.error e, t))
    (k : β → Command σ ε γ) : (m >>= k) s = (.error e, t) := by
  rw [bind_apply, h]

theorem bind_eq_error {m : Command σ ε β} {k : β → Command σ ε γ} {e : ε} {s t : σ}
    (h : (m >>= k) s = (.error e, t)) :
    m s = (.error e, t) ∨ ∃ b u, m s = (.ok b, u) ∧ k b u = (.error e, t) := by
  rw [bind_apply] at h
  cases hm : m s with
  | mk outcome u =>
    rw [hm] at h
    cases outcome with
    | error e' =>
      cases h
      exact .inl rfl
    | ok b => exact .inr ⟨b, u, rfl, h⟩

theorem bind_eq_ok {m : Command σ ε β} {k : β → Command σ ε γ} {c : γ} {s t : σ}
    (h : (m >>= k) s = (.ok c, t)) :
    ∃ b u, m s = (.ok b, u) ∧ k b u = (.ok c, t) := by
  rw [bind_apply] at h
  cases hm : m s with
  | mk outcome u =>
    rw [hm] at h
    cases outcome with
    | error e => cases h
    | ok b => exact ⟨b, u, rfl, h⟩

@[simp] theorem pure_bind_apply (b : β) (k : β → Command σ ε γ) (s : σ) :
    ((pure b : Command σ ε β) >>= k) s = k b s := rfl

@[simp] theorem get_bind_apply (k : σ → Command σ ε γ) (s : σ) : (get >>= k) s = k s s := rfl

@[simp] theorem modify_bind_apply (f : σ → σ) (k : Unit → Command σ ε γ) (s : σ) :
    (modify f >>= k) s = k () (f s) := rfl

@[simp] theorem throw_bind_apply (e : ε) (k : β → Command σ ε γ) (s : σ) :
    ((throw e : Command σ ε β) >>= k) s = (.error e, s) := rfl

/-! ## What a command does to the state -/

/-- Whether `m` returns or throws, the state before and the state after are related. -/
def Moves (R : σ → σ → Prop) (m : Command σ ε β) : Prop := ∀ s, R s (m s).2

section

variable {R : σ → σ → Prop}

theorem Moves.bind (htrans : ∀ a b c, R a b → R b c → R a c) {m : Command σ ε β}
    {k : β → Command σ ε γ}
    (hm : Moves R m) (hk : ∀ b, Moves R (k b)) : Moves R (m >>= k) := by
  intro s
  have hs := hm s
  rw [bind_apply]
  split
  · rename_i b t heq
    rw [heq] at hs
    exact htrans _ _ _ hs (hk b t)
  · rename_i e t heq
    rw [heq] at hs
    exact hs

theorem Moves.pure (hrefl : ∀ s, R s s) (b : β) : Moves R (Pure.pure b : Command σ ε β) := hrefl

theorem Moves.throw (hrefl : ∀ s, R s s) (e : ε) : Moves R (throw e : Command σ ε β) := hrefl

theorem Moves.ite {c : Prop} [Decidable c] {m n : Command σ ε β} (hm : Moves R m) (hn : Moves R n) :
    Moves R (if c then m else n) := by
  split
  · exact hm
  · exact hn

end

end Command

end PineForge

/-!
## How a command ends

A command of a C++ component returns, throws, leaves the defined behaviour or runs for ever. `Ends m
s P F` says that from `s` it returns with `P` or throws and leaves `F`, and stops in no other way.
One rule for each way a command is put together.
-/

namespace PineForge

/-- How a call ends that does not return. -/
inductive Stop (ε : Type) where
  | thrown (failure : ε)
  /-- An access the language does not define. -/
  | undefined
  /-- A loop that makes no progress. -/
  | diverges
deriving DecidableEq, Repr

section

variable {σ ε β γ : Type} {P : β → σ → Prop} {Q : γ → σ → Prop} {F : ε → σ → Prop} {s : σ}

/-- From `s` the command returns with `P`, or throws and leaves a state with `F`; it stops in no
other way. -/
def Ends (m : Command σ (Stop ε) β) (s : σ) (P : β → σ → Prop) (F : ε → σ → Prop) : Prop :=
  (∃ b t, m s = (.ok b, t) ∧ P b t) ∨ ∃ failure t, m s = (.error (.thrown failure), t) ∧ F failure t

theorem Ends.bind {m : Command σ (Stop ε) β} {k : β → Command σ (Stop ε) γ} (hm : Ends m s P F)
    (hk : ∀ b t, P b t → Ends (k b) t Q F) : Ends (m >>= k) s Q F := by
  rcases hm with ⟨b, t, hm, hp⟩ | ⟨failure, t, hm, hf⟩
  · unfold Ends
    rw [Command.bind_ok hm]
    exact hk b t hp
  · exact .inr ⟨failure, t, Command.bind_error hm k, hf⟩

theorem Ends.mono {m : Command σ (Stop ε) β} {P' : β → σ → Prop} {F' : ε → σ → Prop}
    (hm : Ends m s P F)
    (hp : ∀ b t, P b t → P' b t) (hf : ∀ failure t, F failure t → F' failure t) :
    Ends m s P' F' := by
  rcases hm with ⟨b, t, hm, h⟩ | ⟨failure, t, hm, h⟩
  · exact .inl ⟨b, t, hm, hp b t h⟩
  · exact .inr ⟨failure, t, hm, hf failure t h⟩

theorem Ends.pure {b : β} (h : P b s) : Ends (Pure.pure b) s P F := .inl ⟨b, s, rfl, h⟩

theorem Ends.throw {failure : ε} (h : F failure s) :
    Ends (Command.throw (.thrown failure) : Command σ (Stop ε) β) s P F := .inr ⟨failure, s, rfl, h⟩

theorem Ends.modify {f : σ → σ} {P : Unit → σ → Prop} (h : P () (f s)) :
    Ends (Command.modify f) s P F :=
  .inl ⟨(), f s, rfl, h⟩

theorem Ends.get_bind {k : σ → Command σ (Stop ε) γ} (h : Ends (k s) s Q F) :
    Ends (Command.get >>= k) s Q F := h

theorem Ends.when {c : Prop} [Decidable c] {m : Command σ (Stop ε) Unit} {P : Unit → σ → Prop}
    (hm : c → Ends m s P F) (hn : ¬ c → P () s) : Ends (Command.when c m) s P F := by
  unfold Command.when
  by_cases h : c
  · rw [if_pos h]
    exact hm h
  · rw [if_neg h]
    exact Ends.pure (hn h)

end

end PineForge
