import Mathlib.Data.List.TakeWhile
import Mathlib.Order.Basic

/-!
# Bisection

The search for the first index of a range at which a test fails, where the test may itself fail to
read. The range halves, so that its length is fuel enough. In a list whose keys ascend the test that
a key is not above a bound holds up to one index and from there on nowhere.
-/

namespace PineForge

/-- Bisect, for so many turns. -/
def bisectFrom {σ : Type} (below : ℕ → Except σ Bool) : ℕ → ℕ → ℕ → Except σ ℕ
  | 0, low, _ => .ok low
  | fuel + 1, low, high =>
    if low < high then
      let middle := low + (high - low) / 2
      match below middle with
      | .error e => .error e
      | .ok true => bisectFrom below fuel (middle + 1) high
      | .ok false => bisectFrom below fuel low middle
    else .ok low

/-- The first place that is not below. -/
def bisect {σ : Type} (below : ℕ → Except σ Bool) (low high : ℕ) : Except σ ℕ :=
  bisectFrom below (high - low) low high

variable {σ : Type} {below : ℕ → Except σ Bool}

/-- A bisection of a cut ends at it. -/
theorem bisectFrom_eq {cut fuel low high : ℕ} (hfuel : high - low ≤ fuel)
    (hlow : low ≤ cut) (hhigh : cut ≤ high)
    (hbelow : ∀ i, low ≤ i → i < high → below i = .ok (decide (i < cut))) :
    bisectFrom below fuel low high = .ok cut := by
  induction fuel generalizing low high with
  | zero =>
    unfold bisectFrom
    congr 1
    omega
  | succ fuel ih =>
    unfold bisectFrom
    by_cases hlt : low < high
    · have hmiddle : low + (high - low) / 2 < high := by omega
      rw [if_pos hlt]
      dsimp only
      rw [hbelow _ (Nat.le_add_right ..) hmiddle]
      by_cases hcut : low + (high - low) / 2 < cut
      · rw [decide_eq_true hcut]
        apply ih
        · omega
        · omega
        · exact hhigh
        · intro i hi hih
          exact hbelow i (by omega) hih
      · rw [decide_eq_false hcut]
        apply ih
        · omega
        · exact hlow
        · omega
        · intro i hi hih
          exact hbelow i hi (by omega)
    · rw [if_neg hlt]
      congr 1
      omega

/-- Where the test holds below some index of the range and nowhere above it, that index is found. -/
theorem bisect_eq {cut low high : ℕ} (hlow : low ≤ cut) (hhigh : cut ≤ high)
    (hbelow : ∀ i, low ≤ i → i < high → below i = .ok (decide (i < cut))) :
    bisect below low high = .ok cut :=
  bisectFrom_eq (Nat.le_refl _) hlow hhigh hbelow

section

variable {α : Type} (key : α → ℕ)

/-- How many of the first elements have a key that is not above the bound. -/
def cutAt (bound : ℕ) (xs : List α) : ℕ := (xs.takeWhile (key · ≤ bound)).length

variable {key} {bound : ℕ} {xs : List α}

theorem cutAt_le : cutAt key bound xs ≤ xs.length := (List.takeWhile_sublist _).length_le

theorem lt_cutAt_iff (hsorted : xs.Pairwise (key · ≤ key ·)) {i : ℕ} {x : α}
    (hi : xs[i]? = some x) :
    i < cutAt key bound xs ↔ key x ≤ bound := by
  induction xs generalizing i with
  | nil => cases hi
  | cons y ys ih =>
    rw [List.pairwise_cons] at hsorted
    unfold cutAt at ih ⊢
    by_cases hy : key y ≤ bound
    · rw [List.takeWhile_cons, if_pos (decide_eq_true hy), List.length_cons]
      cases i with
      | zero =>
        cases hi
        exact ⟨fun _ => hy, fun _ => Nat.succ_pos _⟩
      | succ i =>
        rw [Nat.succ_lt_succ_iff]
        exact ih hsorted.2 hi
    · have hx : ¬key x ≤ bound := by
        cases i with
        | zero =>
          cases hi
          exact hy
        | succ i => exact fun hx => hy ((hsorted.1 x (List.mem_of_getElem? hi)).trans hx)
      rw [List.takeWhile_cons, if_neg (fun h => hy (of_decide_eq_true h))]
      exact ⟨fun h => absurd h (Nat.not_lt_zero i), fun h => absurd h hx⟩

theorem cutAt_cons_of_le {y : α} (hy : key y ≤ bound) :
    cutAt key bound (y :: xs) = cutAt key bound xs + 1 := by
  unfold cutAt
  rw [List.takeWhile_cons, if_pos (decide_eq_true hy), List.length_cons]

theorem cutAt_eq_zero (habove : ∀ x ∈ xs, bound < key x) : cutAt key bound xs = 0 := by
  unfold cutAt
  cases xs with
  | nil => rfl
  | cons y ys =>
    have hy := habove y List.mem_cons_self
    rw [List.takeWhile_cons, if_neg (fun h => Nat.not_le_of_lt hy (of_decide_eq_true h))]
    rfl

theorem cutAt_drop (hsorted : xs.Pairwise (key · ≤ key ·)) (n : ℕ) :
    cutAt key bound (xs.drop n) = cutAt key bound xs - n := by
  induction n generalizing xs with
  | zero => rfl
  | succ n ih =>
    cases xs with
    | nil => exact (Nat.zero_sub _).symm
    | cons y ys =>
      rw [List.pairwise_cons] at hsorted
      rw [List.drop_succ_cons, ih hsorted.2]
      by_cases hy : key y ≤ bound
      · rw [cutAt_cons_of_le hy, Nat.add_sub_add_right]
      · have habove : ∀ x ∈ y :: ys, bound < key x := by
          intro x hx
          obtain rfl | hx := List.mem_cons.mp hx
          · exact Nat.lt_of_not_le hy
          · exact (Nat.lt_of_not_le hy).trans_le (hsorted.1 x hx)
        rw [cutAt_eq_zero habove, cutAt_eq_zero fun x hx => habove x (List.mem_cons_of_mem y hx)]
        omega

theorem bisect_cutAt (hsorted : xs.Pairwise (key · ≤ key ·)) {low high : ℕ}
    (hlow : low ≤ cutAt key bound xs) (hhigh : cutAt key bound xs ≤ high)
    (hbelow : ∀ i, low ≤ i → i < high → ∃ x, xs[i]? = some x ∧
      below i = .ok (decide (key x ≤ bound))) :
    bisect below low high = .ok (cutAt key bound xs) := by
  apply bisect_eq hlow hhigh
  intro i hi hih
  obtain ⟨x, hx, hb⟩ := hbelow i hi hih
  rw [hb]
  exact congrArg Except.ok (decide_eq_decide.mpr (lt_cutAt_iff hsorted hx).symm)

end

end PineForge
