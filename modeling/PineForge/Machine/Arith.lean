import Mathlib.Data.Rat.Floor
import Mathlib.Tactic.Linarith
import Mathlib.Algebra.Order.Field.Rat

/-!
# The arithmetic a program computes with

A program over machine numbers is modelled over a type with the operations it calls and no law:
`Arith` is the signature, so that a definition written over it fixes the sequence of operations
and nothing else. `ℚ` reads every operation exactly; `Float` is binary64.

The two classes of laws say what a proof may use about the operations. `Arith.Sane` holds what
makes zero a zero (`x - x` is never positive, adding to zero keeps a nonzero nonzero); the
stronger `Arith.Lawful` adds the order and rounding facts of every correctly rounded format.
-/

namespace PineForge

/-- The signature of `double`: the operations and comparisons of the code, with no law.
`==` is the comparison of values, not identity. -/
class Arith (α : Type) extends Zero α, One α, Add α, Sub α, Mul α, Div α, Neg α, LT α, LE α,
    BEq α where
  decLt : ∀ a b : α, Decidable (a < b)
  decLe : ∀ a b : α, Decidable (a ≤ b)
  abs : α → α
  isFinite : α → Bool
  /-- `quiet_NaN()`. -/
  nan : α
  /-- `infinity()`. -/
  inf : α
  /-- `nextafter(x, infinity())`. -/
  nextUp : α → α
  /-- A decimal literal. -/
  lit : ℚ → α

namespace Arith

attribute [reducible, instance] decLt decLe

variable {α : Type} [Arith α]

/-- `std::min(a, b)`: the first argument unless the second is less. -/
def cmin (a b : α) : α := if b < a then b else a

/-- `std::max(a, b)`: the first argument unless it is less than the second. -/
def cmax (a b : α) : α := if a < b then b else a

/-- `std::clamp(v, lo, hi)`. -/
def clamp (v lo hi : α) : α := if v < lo then lo else if hi < v then hi else v

/-- A left sum from a start value, in list order. -/
def sumFrom (start : α) (xs : List α) : α := xs.foldl (· + ·) start

@[simp] theorem sumFrom_nil (s : α) : sumFrom s [] = s := rfl

@[simp] theorem sumFrom_cons (s x : α) (xs : List α) :
    sumFrom s (x :: xs) = sumFrom (s + x) xs := rfl

theorem sumFrom_append (s : α) (xs ys : List α) :
    sumFrom s (xs ++ ys) = sumFrom (sumFrom s xs) ys := by
  simp [sumFrom, List.foldl_append]

/-- What makes `0` a zero: the comparisons with it agree, a number minus itself is not positive,
and a number added to zero is zero only if it is. -/
class Sane (α : Type) [Arith α] : Prop where
  zero_beq : ((0 : α) == 0) = true
  not_pos_of_beq : ∀ {x : α}, (x == 0) = true → ¬ 0 < x
  beq_of_not_le : ∀ {x : α}, ¬ x ≤ 0 → (x == 0) = false
  sub_self_not_pos : ∀ x : α, ¬ 0 < x - x
  zero_add_beq : ∀ {x : α}, (0 + x == 0) = true → (x == 0) = true

theorem not_zero_lt_zero [Sane α] : ¬ (0 : α) < 0 := Sane.not_pos_of_beq Sane.zero_beq

/-- The order and rounding facts of a correctly rounded format: addition commutes, an operation
with a finite result had finite operands, and the comparisons with zero are those of an order on
the finite values that sums and differences respect. -/
class Lawful (α : Type) [Arith α] : Prop extends Sane α where
  add_comm : ∀ a b : α, a + b = b + a
  zero_add : ∀ {x : α}, 0 < x → 0 + x = x
  finite_of_add : ∀ {a b : α}, isFinite (a + b) = true → isFinite a = true ∧ isFinite b = true
  finite_of_sub : ∀ {a b : α}, isFinite (a - b) = true → isFinite a = true ∧ isFinite b = true
  finite_of_mul : ∀ {a b : α}, isFinite (a * b) = true → isFinite a = true ∧ isFinite b = true
  finite_zero : isFinite (0 : α) = true
  /-- NaN is not finite, in a format that has values that are not. -/
  not_finite_nan : ∀ {x : α}, isFinite x = false → isFinite (nan : α) = false
  zero_le_zero : (0 : α) ≤ 0
  le_of_pos : ∀ {x : α}, 0 < x → 0 ≤ x
  pos_of_nonneg : ∀ {x : α}, 0 ≤ x → (x == 0) = false → 0 < x
  nonneg_of_not_neg : ∀ {x : α}, isFinite x = true → ¬ x < 0 → 0 ≤ x
  pos_of_not_le : ∀ {x : α}, isFinite x = true → ¬ x ≤ 0 → 0 < x
  not_le_of_pos : ∀ {x : α}, 0 < x → ¬ x ≤ 0
  not_abs_neg : ∀ x : α, ¬ Arith.abs x < 0
  add_pos : ∀ {a b : α}, 0 ≤ a → 0 < b → 0 < a + b
  sub_nonneg : ∀ {a b : α}, isFinite a = true → isFinite b = true → ¬ b < a → 0 ≤ b - a

theorem not_beq_of_pos [Sane α] {x : α} (h : 0 < x) : (x == 0) = false := by
  cases hb : x == 0
  · rfl
  · exact absurd h (Sane.not_pos_of_beq hb)

end Arith

/-- Exact reading: every operation is the rational one and every value is finite. -/
instance : Arith ℚ where
  decLt := inferInstance
  decLe := inferInstance
  abs := fun x => |x|
  isFinite := fun _ => true
  nan := 0
  inf := 0
  nextUp := id
  lit := id

namespace Arith

instance : Lawful ℚ where
  zero_beq := rfl
  not_pos_of_beq h := by rw [eq_of_beq h]; exact lt_irrefl _
  beq_of_not_le h := by
    rw [beq_eq_false_iff_ne]
    rintro rfl
    exact h le_rfl
  sub_self_not_pos x := by rw [sub_self]; exact lt_irrefl _
  zero_add_beq h := by simpa using h
  add_comm a b := by ring
  zero_add _ := by simp
  finite_of_add _ := ⟨rfl, rfl⟩
  finite_of_sub _ := ⟨rfl, rfl⟩
  finite_of_mul _ := ⟨rfl, rfl⟩
  finite_zero := rfl
  not_finite_nan h := h
  zero_le_zero := le_rfl
  le_of_pos := le_of_lt
  pos_of_nonneg h hb := lt_of_le_of_ne h (Ne.symm (by simpa using hb))
  nonneg_of_not_neg _ := not_lt.1
  pos_of_not_le _ := not_le.1
  not_le_of_pos := not_le.2
  not_abs_neg x := not_lt.2 (abs_nonneg x)
  add_pos := add_pos_of_nonneg_of_pos
  sub_nonneg _ _ h := by linarith [not_lt.1 h]

@[simp] theorem rat_isFinite (x : ℚ) : isFinite x = true := rfl

@[simp] theorem rat_abs (x : ℚ) : Arith.abs x = |x| := rfl

@[simp] theorem rat_lit (x : ℚ) : (lit x : ℚ) = x := rfl

@[simp] theorem rat_cmin (a b : ℚ) : cmin a b = min a b := by
  unfold cmin
  split
  · next h => exact (min_eq_right h.le).symm
  · next h => exact (min_eq_left (not_lt.1 h)).symm

@[simp] theorem rat_sumFrom (s : ℚ) (xs : List ℚ) : sumFrom s xs = s + xs.sum := by
  induction xs generalizing s with
  | nil => simp
  | cons x xs ih => rw [sumFrom_cons, ih, List.sum_cons, add_assoc]

end Arith

end PineForge
