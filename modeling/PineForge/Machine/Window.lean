import Mathlib

/-!
# Bytes by position

The content of an extent as a function from positions, under writes of a list at a position. A
window is the list of the content from a position on: a write is read back in its own window
(`window_put_self`), leaves the windows beside it (`put_outside`), and writes that touch are one
write (`put_append`).
-/

namespace PineForge.Window

variable {α : Type}

/-- The content after a write. -/
def put (f : ℕ → α) (offset : ℕ) (data : List α) : ℕ → α := fun i =>
  if offset ≤ i then (data[i - offset]?).getD (f i) else f i

/-- The values of a window. -/
def window (f : ℕ → α) (offset length : ℕ) : List α :=
  (List.range length).map fun i => f (offset + i)

theorem put_outside (f : ℕ → α) {offset : ℕ} {data : List α} {i : ℕ}
    (h : i < offset ∨ offset + data.length ≤ i) :
    put f offset data i = f i := by
  unfold put
  rcases h with h | h
  · rw [if_neg (by omega)]
  · rw [if_pos (by omega), List.getElem?_eq_none (by omega), Option.getD_none]

theorem put_inside (f : ℕ → α) {offset : ℕ} {data : List α} {i : ℕ} {v : α}
    (h : data[i]? = some v) :
    put f offset data (offset + i) = v := by
  rw [put, if_pos (Nat.le_add_right ..), Nat.add_sub_cancel_left, h, Option.getD_some]

@[simp] theorem put_nil (f : ℕ → α) (offset : ℕ) : put f offset [] = f := by
  funext i
  exact put_outside f (Nat.lt_or_ge i offset)

theorem put_append (f : ℕ → α) (offset : ℕ) (a b : List α) :
    put (put f offset a) (offset + a.length) b = put f offset (a ++ b) := by
  funext i
  unfold put
  by_cases hlow : offset ≤ i
  · by_cases hhigh : offset + a.length ≤ i
    · rw [if_pos hhigh, if_pos hlow, if_pos hlow, List.getElem?_append_right (by omega),
        List.getElem?_eq_none (show a.length ≤ i - offset by omega), Option.getD_none, Nat.sub_sub]
    · rw [if_neg hhigh, if_pos hlow, if_pos hlow, List.getElem?_append_left (by omega)]
  · rw [if_neg (by omega), if_neg hlow, if_neg hlow]

@[simp] theorem length_window (f : ℕ → α) (offset length : ℕ) :
    (window f offset length).length = length := by
  rw [window, List.length_map, List.length_range]

theorem getElem?_window (f : ℕ → α) (offset : ℕ) {length i : ℕ} (h : i < length) :
    (window f offset length)[i]? = some (f (offset + i)) := by
  rw [window, List.getElem?_map, List.getElem?_range h, Option.map_some]

theorem window_congr {f g : ℕ → α} {offset length : ℕ}
    (h : ∀ i, offset ≤ i → i < offset + length → f i = g i) :
    window f offset length = window g offset length := by
  refine List.map_congr_left fun i hi => ?_
  rw [List.mem_range] at hi
  exact h _ (Nat.le_add_right ..) (by omega)

theorem window_shift {f g : ℕ → α} {offset offset' length : ℕ}
    (h : ∀ i, i < length → f (offset + i) = g (offset' + i)) :
    window f offset length = window g offset' length := by
  refine List.map_congr_left fun i hi => ?_
  rw [List.mem_range] at hi
  exact h i hi

theorem window_put_self (f : ℕ → α) (offset : ℕ) (data : List α) :
    window (put f offset data) offset data.length = data := by
  apply List.ext_getElem?
  intro i
  by_cases hi : i < data.length
  · rw [getElem?_window _ _ hi, List.getElem?_eq_getElem hi,
      put_inside f (List.getElem?_eq_getElem hi)]
  · rw [List.getElem?_eq_none (by rw [length_window]; omega), List.getElem?_eq_none (by omega)]

theorem window_part (f : ℕ → α) (offset : ℕ) {length skip count : ℕ} (h : skip + count ≤ length) :
    window f (offset + skip) count = ((window f offset length).drop skip).take count := by
  apply List.ext_getElem?
  intro i
  by_cases hi : i < count
  · rw [getElem?_window _ _ hi, List.getElem?_take_of_lt hi, List.getElem?_drop,
      getElem?_window _ _ (by omega), Nat.add_assoc]
  · rw [List.getElem?_eq_none (by rw [length_window]; omega),
      List.getElem?_eq_none (by rw [List.length_take, List.length_drop, length_window]; omega)]

theorem window_append (f : ℕ → α) (offset m n : ℕ) :
    window f offset (m + n) = window f offset m ++ window f (offset + m) n := by
  unfold window
  rw [List.range_add, List.map_append, List.map_map]
  congr 1
  refine List.map_congr_left fun i _ => ?_
  rw [Function.comp_apply, Nat.add_assoc]

end PineForge.Window
