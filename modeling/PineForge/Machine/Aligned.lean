import Mathlib.Data.List.Forall2
import Mathlib.Data.List.InsertIdx

/-!
# Aligned lists

Two lists kept in step, entry by entry, as a vector of rows and the vector of what is known of each:
the relation is core's `Forall₂`, and what positions say of it carries it through the edits that are
made to both.
-/

namespace PineForge.Aligned

open List

variable {α β γ : Type} {R S : α → β → Prop} {as : List α} {bs : List β}

theorem get? (h : Forall₂ R as bs) {i : ℕ} {a : α} {b : β} (ha : as[i]? = some a)
    (hb : bs[i]? = some b) : R a b := by
  induction h generalizing i with
  | nil => simp at ha
  | cons hab _ ih =>
    cases i with
    | zero =>
      rw [getElem?_cons_zero, Option.some.injEq] at ha hb
      exact ha ▸ hb ▸ hab
    | succ i => exact ih ha hb

theorem of_get? (hlength : as.length = bs.length)
    (h : ∀ (i : ℕ) a b, as[i]? = some a → bs[i]? = some b → R a b) : Forall₂ R as bs := by
  induction as generalizing bs with
  | nil =>
    cases bs with
    | nil => exact .nil
    | cons b bs => cases hlength
  | cons a as ih =>
    cases bs with
    | nil => cases hlength
    | cons b bs =>
      exact .cons (h 0 a b rfl rfl) (ih (Nat.succ.inj hlength) fun i => h (i + 1))

theorem eraseIdx (h : Forall₂ R as bs) (i : ℕ) : Forall₂ R (as.eraseIdx i) (bs.eraseIdx i) := by
  induction h generalizing i with
  | nil => exact .nil
  | cons hab h ih =>
    cases i with
    | zero => exact h
    | succ i => exact .cons hab (ih i)

theorem insertIdx (h : Forall₂ R as bs) (i : ℕ) {a : α} {b : β} (hab : R a b) :
    Forall₂ R (as.insertIdx i a) (bs.insertIdx i b) := by
  induction h generalizing i with
  | nil =>
    cases i with
    | zero => exact .cons hab .nil
    | succ i => exact .nil
  | cons hhead h ih =>
    cases i with
    | zero => exact .cons hab (.cons hhead h)
    | succ i => exact .cons hhead (ih i)

/-- One entry of the second list changes, and with it what is asked of the others. -/
theorem set (h : Forall₂ R as bs) {i : ℕ} {b : β} (hset : ∀ a, as[i]? = some a → S a b)
    (hothers : ∀ (j : ℕ) a b, j ≠ i → as[j]? = some a → bs[j]? = some b → S a b) :
    Forall₂ S as (bs.set i b) := by
  refine of_get? (by rw [length_set]; exact h.length_eq) fun j a b' ha hb => ?_
  by_cases hj : j = i
  · subst hj
    rw [getElem?_set_self'] at hb
    obtain ⟨_, -, rfl⟩ := Option.map_eq_some_iff.mp hb
    exact hset a ha
  · rw [getElem?_set_ne (Ne.symm hj)] at hb
    exact hothers j a b' hj ha hb

theorem set_left (h : Forall₂ R as bs) {i : ℕ} {a : α} (hset : ∀ b, bs[i]? = some b → R a b) :
    Forall₂ R (as.set i a) bs := by
  refine of_get? (by rw [length_set]; exact h.length_eq) fun j a' b ha hb => ?_
  by_cases hj : j = i
  · subst hj
    rw [getElem?_set_self'] at ha
    obtain ⟨_, -, rfl⟩ := Option.map_eq_some_iff.mp ha
    exact hset b hb
  · rw [getElem?_set_ne (Ne.symm hj)] at ha
    exact get? h ha hb

/-- Where a list has each value of `f` once, no other entry has the value of one that is erased. -/
theorem ne_of_mem_eraseIdx {f : α → γ} (h : (as.map f).Nodup) {i : ℕ} {a x : α}
    (ha : as[i]? = some a) (hx : x ∈ as.eraseIdx i) : f x ≠ f a := by
  induction as generalizing i with
  | nil => simp at ha
  | cons head as ih =>
    rw [map_cons, nodup_cons] at h
    cases i with
    | zero =>
      rw [getElem?_cons_zero, Option.some.injEq] at ha
      subst ha
      exact fun heq => h.1 (heq ▸ mem_map_of_mem hx)
    | succ i =>
      rcases mem_cons.mp hx with hx | hx
      · subst hx
        exact fun heq => h.1 (heq ▸ mem_map_of_mem (mem_of_getElem? ha))
      · exact ih h.2 ha hx

/-- Where a list has each value of `f` once, a value has one place. -/
theorem eq_of_get? {f : α → γ} (h : (as.map f).Nodup) {i j : ℕ} {a a' : α} (ha : as[i]? = some a)
    (ha' : as[j]? = some a') (heq : f a = f a') : i = j := by
  have hi : (as.map f)[i]? = some (f a) := by rw [getElem?_map, ha]; rfl
  have hj : (as.map f)[j]? = some (f a) := by rw [getElem?_map, ha', heq]; rfl
  exact (getElem?_inj (List.getElem?_eq_some_iff.mp hi).1 h).mp (hi.trans hj.symm)

/-! ## Which pairs stand in two lists -/

/-- Two entries stand at one place. -/
def Paired (as : List α) (bs : List β) (a : α) (b : β) : Prop :=
  ∃ i : ℕ, as[i]? = some a ∧ bs[i]? = some b

theorem paired_eraseIdx {i : ℕ} {a : α} {b : β} :
    Paired (as.eraseIdx i) (bs.eraseIdx i) a b ↔
      ∃ j : ℕ, j ≠ i ∧ as[j]? = some a ∧ bs[j]? = some b := by
  constructor
  · rintro ⟨j, ha, hb⟩
    rw [getElem?_eraseIdx] at ha hb
    by_cases hj : j < i
    · rw [if_pos hj] at ha hb
      exact ⟨j, Nat.ne_of_lt hj, ha, hb⟩
    · rw [if_neg hj] at ha hb
      exact ⟨j + 1, by omega, ha, hb⟩
  · rintro ⟨j, hj, ha, hb⟩
    rcases Nat.lt_or_gt_of_ne hj with hlt | hgt
    · exact ⟨j, by rw [getElem?_eraseIdx, if_pos hlt]; exact ha,
        by rw [getElem?_eraseIdx, if_pos hlt]; exact hb⟩
    · obtain ⟨k, rfl⟩ : ∃ k, j = k + 1 := ⟨j - 1, by omega⟩
      have hk : ¬k < i := by omega
      exact ⟨k, by rw [getElem?_eraseIdx, if_neg hk]; exact ha,
        by rw [getElem?_eraseIdx, if_neg hk]; exact hb⟩

theorem paired_insertIdx {i : ℕ} {x : α} {y : β} (has : i ≤ as.length) (hbs : i ≤ bs.length) {a : α}
    {b : β} : Paired (as.insertIdx i x) (bs.insertIdx i y) a b ↔
      (a = x ∧ b = y) ∨ Paired as bs a b := by
  constructor
  · rintro ⟨j, ha, hb⟩
    rw [getElem?_insertIdx] at ha hb
    split at ha
    · rename_i hj
      rw [if_pos hj] at hb
      exact Or.inr ⟨j, ha, hb⟩
    · rename_i hj
      rw [if_neg hj] at hb
      split at ha
      · rename_i heq
        rw [if_pos heq, if_pos (heq ▸ hbs)] at hb
        rw [if_pos (heq ▸ has)] at ha
        exact Or.inl ⟨(Option.some.inj ha).symm, (Option.some.inj hb).symm⟩
      · rename_i heq
        rw [if_neg heq] at hb
        exact Or.inr ⟨j - 1, ha, hb⟩
  · rintro (⟨rfl, rfl⟩ | ⟨j, ha, hb⟩)
    · refine ⟨i, ?_, ?_⟩
      · rw [getElem?_insertIdx_self, if_pos has]
      · rw [getElem?_insertIdx_self, if_pos hbs]
    · by_cases hj : j < i
      · exact ⟨j, by rw [getElem?_insertIdx_of_lt hj]; exact ha,
          by rw [getElem?_insertIdx_of_lt hj]; exact hb⟩
      · exact ⟨j + 1, by rw [getElem?_insertIdx_of_gt (by omega)]; exact ha,
          by rw [getElem?_insertIdx_of_gt (by omega)]; exact hb⟩

end PineForge.Aligned
