import Mathlib

/-!
# Generators that end

A generator is a step from a state to its next element, with a size that every element lowers and
the end does not raise. `list` is what is still to come and `rest` the state in which it has ended;
`ind` is the induction over what is still to come. Of a generator whose elements start with some of
a kind, `lastWhile` gives the last of these and the first that is not.
-/

namespace PineForge

/-- A generator and what its steps use up. -/
structure Generator (σ α : Type) where
  next : σ → Option α × σ
  size : σ → ℕ
  shrinks : ∀ s a, (next s).1 = some a → size (next s).2 < size s
  ends : ∀ s, (next s).1 = none → size (next s).2 ≤ size s

namespace Generator

variable {σ α : Type} (g : Generator σ α)

/-- What is still to come. -/
def list (s : σ) : List α :=
  match h : (g.next s).1 with
  | none => []
  | some a => a :: list (g.next s).2
termination_by g.size s
decreasing_by exact g.shrinks s a h

/-- The state in which the generator has ended. -/
def rest (s : σ) : σ :=
  match h : (g.next s).1 with
  | none => (g.next s).2
  | some a => rest (g.next s).2
termination_by g.size s
decreasing_by exact g.shrinks s a h

/-- The last element of a kind before the first that is not, that one, and the state after it. -/
def lastWhile (p : α → Bool) (best : Option α) (s : σ) : Option α × Option α × σ :=
  match h : (g.next s).1 with
  | none => (best, none, (g.next s).2)
  | some a => if p a then lastWhile p (some a) (g.next s).2 else (best, some a, (g.next s).2)
termination_by g.size s
decreasing_by exact g.shrinks s a h

variable {g} {s : σ} {a : α}

theorem list_of_none (h : (g.next s).1 = none) : g.list s = [] := by
  rw [list]
  split
  · rfl
  · rename_i heq
    cases h.symm.trans heq

theorem list_of_some (h : (g.next s).1 = some a) : g.list s = a :: g.list (g.next s).2 := by
  rw [list]
  split
  · rename_i heq
    cases h.symm.trans heq
  · rename_i heq
    cases h.symm.trans heq
    rfl

theorem rest_of_none (h : (g.next s).1 = none) : g.rest s = (g.next s).2 := by
  rw [rest]
  split
  · rfl
  · rename_i heq
    cases h.symm.trans heq

theorem rest_of_some (h : (g.next s).1 = some a) : g.rest s = g.rest (g.next s).2 := by
  rw [rest]
  split
  · rename_i heq
    cases h.symm.trans heq
  · rfl

theorem ind {P : σ → Prop} (stop : ∀ s, (g.next s).1 = none → P s)
    (step : ∀ s a, (g.next s).1 = some a → P (g.next s).2 → P s) (s : σ) : P s := by
  induction hn : g.size s using Nat.strong_induction_on generalizing s with
  | _ n ih =>
    cases h : (g.next s).1 with
    | none => exact stop s h
    | some a => exact step s a h (ih _ (hn ▸ g.shrinks s a h) _ rfl)

theorem lastWhile_of_none (p : α → Bool) (best : Option α) (h : (g.next s).1 = none) :
    g.lastWhile p best s = (best, none, (g.next s).2) := by
  rw [lastWhile]
  split
  · rfl
  · rename_i heq
    cases h.symm.trans heq

theorem lastWhile_of_some (p : α → Bool) (best : Option α) (h : (g.next s).1 = some a) :
    g.lastWhile p best s
      = if p a then g.lastWhile p (some a) (g.next s).2 else (best, some a, (g.next s).2) := by
  rw [lastWhile]
  split
  · rename_i heq
    cases h.symm.trans heq
  · rename_i heq
    cases h.symm.trans heq
    rfl

theorem lastWhile_size (p : α → Bool) (best : Option α) (s : σ) :
    g.size (g.lastWhile p best s).2.2 + (g.lastWhile p best s).1.toList.length
        + (g.lastWhile p best s).2.1.toList.length ≤ g.size s + best.toList.length := by
  induction s using ind (g := g) generalizing best with
  | stop s h =>
    have := g.ends s h
    rw [lastWhile_of_none p best h]
    simpa using this
  | step s a h ih =>
    have hless := g.shrinks s a h
    rw [lastWhile_of_some p best h]
    split
    · have := ih (some a)
      rw [Option.toList_some, List.length_singleton] at this
      omega
    · dsimp only
      rw [Option.toList_some, List.length_singleton]
      omega

/-- The elements of a kind that come first, the one after them, and what is left, under an invariant
by which a generator that has ended stays so. -/
theorem lastWhile_spec {I : σ → Prop} (hstep : ∀ s, I s → I (g.next s).2)
    (hend : ∀ s, I s → (g.next s).1 = none → g.list (g.next s).2 = []) (p : α → Bool)
    (best : Option α) (hs : I s) :
    (g.lastWhile p best s).1 = (((g.list s).takeWhile p).getLast?).or best ∧
      (g.lastWhile p best s).2.1 = ((g.list s).dropWhile p).head? ∧
      g.list (g.lastWhile p best s).2.2 = ((g.list s).dropWhile p).tail ∧
        I (g.lastWhile p best s).2.2 := by
  induction s using ind (g := g) generalizing best with
  | stop s h =>
    rw [lastWhile_of_none p best h, list_of_none h]
    exact ⟨rfl, rfl, hend s hs h, hstep s hs⟩
  | step s a h ih =>
    rw [lastWhile_of_some p best h, list_of_some h]
    cases hp : p a with
    | true =>
      obtain ⟨hlast, hrest⟩ := ih (some a) (hstep s hs)
      rw [if_pos rfl, List.takeWhile_cons_of_pos hp, List.dropWhile_cons_of_pos hp]
      refine ⟨?_, hrest⟩
      rw [hlast, List.getLast?_cons]
      cases ((g.list (g.next s).2).takeWhile p).getLast? with
      | none => rfl
      | some b => rfl
    | false =>
      rw [if_neg (by decide), List.takeWhile_cons_of_neg (by rw [hp]; decide),
        List.dropWhile_cons_of_neg (by rw [hp]; decide)]
      exact ⟨rfl, rfl, rfl, hstep s hs⟩

end Generator

end PineForge
