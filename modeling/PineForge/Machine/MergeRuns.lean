import Mathlib

/-!
# Sorting by merging runs

A list of sorted runs of one width becomes, by merging them two by two, a list of sorted runs of
twice the width. Each pass keeps the order of equal elements, so the last one leaves the one
arrangement that is sorted and keeps it (`Arrangement.unique`). The order is any strict weak one.
-/

namespace PineForge

variable {α : Type*} {before : α → α → Bool}

/-- A strict weak order. -/
structure StrictWeak (before : α → α → Bool) : Prop where
  irrefl : ∀ a, before a a = false
  trans : ∀ a b c, before a b = true → before b c = true → before a c = true
  incomparable : ∀ a b c, before a b = false → before b a = false → before b c = false →
    before c b = false →
    before a c = false ∧ before c a = false

namespace StrictWeak

theorem asymm (h : StrictWeak before) {a b : α} (hab : before a b = true) : before b a = false := by
  by_contra hba
  rw [Bool.not_eq_false] at hba
  have hself := h.trans a b a hab hba
  rw [h.irrefl] at hself
  cases hself

theorem not_before_trans (h : StrictWeak before) {a b c : α} (hab : before b a = false)
    (hbc : before c b = false) :
    before c a = false := by
  by_contra hca
  rw [Bool.not_eq_false] at hca
  have hab' : before a b = false := by
    by_contra hlt
    rw [h.trans c a b hca (Bool.not_eq_false _ ▸ hlt)] at hbc
    cases hbc
  have hbc' : before b c = false := by
    by_contra hlt
    rw [h.trans b c a (Bool.not_eq_false _ ▸ hlt) hca] at hab
    cases hab
  rw [(h.incomparable a b c hab' hab hbc' hbc).2] at hca
  cases hca

end StrictWeak

/-- Neither is before the other. -/
def same (before : α → α → Bool) (x y : α) : Bool := !before x y && !before y x

/-- No element stands before an earlier one. -/
def Ordered (before : α → α → Bool) (xs : List α) : Prop :=
  xs.Pairwise fun a b => before b a = false

/-- Sorted, with the equal elements in their old order. -/
structure Arrangement (before : α → α → Bool) (xs out : List α) : Prop where
  perm : out.Perm xs
  ordered : Ordered before out
  keeps : ∀ x, out.filter (same before x) = xs.filter (same before x)

theorem same_self (h : StrictWeak before) (x : α) : same before x x = true := by
  unfold same
  rw [h.irrefl]
  rfl

theorem same_iff {x y : α} : same before x y = true ↔ before x y = false ∧ before y x = false := by
  unfold same
  rw [Bool.and_eq_true, Bool.not_eq_true', Bool.not_eq_true']

/-- Ordered lists are known by their classes. -/
theorem eq_of_filter_eq (h : StrictWeak before) {xs ys : List α} (hxs : Ordered before xs)
    (hys : Ordered before ys)
    (hfilter : ∀ x, xs.filter (same before x) = ys.filter (same before x)) : xs = ys := by
  have hmem : ∀ x, x ∈ xs ↔ x ∈ ys := by
    intro x
    have hx := congrArg (x ∈ ·) (hfilter x)
    simpa [List.mem_filter, same_self h x] using hx
  induction xs generalizing ys with
  | nil =>
    cases ys with
    | nil => rfl
    | cons b ys => exact absurd ((hmem b).mpr List.mem_cons_self) List.not_mem_nil
  | cons a xs ih =>
    cases ys with
    | nil => exact absurd ((hmem a).mp List.mem_cons_self) List.not_mem_nil
    | cons b ys =>
      have hab : before b a = false := by
        rcases List.mem_cons.mp ((hmem b).mpr List.mem_cons_self) with rfl | hb
        · exact h.irrefl b
        · exact List.rel_of_pairwise_cons hxs hb
      have hba : before a b = false := by
        rcases List.mem_cons.mp ((hmem a).mp List.mem_cons_self) with rfl | ha
        · exact h.irrefl a
        · exact List.rel_of_pairwise_cons hys ha
      have hclass := hfilter a
      rw [List.filter_cons_of_pos (same_self h a),
        List.filter_cons_of_pos (same_iff.mpr ⟨hba, hab⟩)] at hclass
      obtain ⟨rfl, -⟩ := List.cons.inj hclass
      have htails : ∀ x, xs.filter (same before x) = ys.filter (same before x) := by
        intro x
        have hx := hfilter x
        by_cases hsame : same before x a = true
        · rw [List.filter_cons_of_pos hsame, List.filter_cons_of_pos hsame] at hx
          exact (List.cons.inj hx).2
        · rwa [List.filter_cons_of_neg hsame, List.filter_cons_of_neg hsame] at hx
      rw [ih hxs.of_cons hys.of_cons htails]
      intro x
      have hx := congrArg (x ∈ ·) (htails x)
      simpa [List.mem_filter, same_self h x] using hx

theorem Arrangement.unique (h : StrictWeak before) {xs out out' : List α}
    (ho : Arrangement before xs out)
    (ho' : Arrangement before xs out') : out = out' :=
  eq_of_filter_eq h ho.ordered ho'.ordered fun x => (ho.keeps x).trans (ho'.keeps x).symm

/-! ## Merging -/

/-- The merge of two lists, from the left one where neither is before. -/
def mergeBy (before : α → α → Bool) (xs ys : List α) : List α :=
  List.merge xs ys fun a b => !before b a

theorem mergeBy_nil_left (ys : List α) : mergeBy before [] ys = ys := List.nil_merge ..

theorem mergeBy_nil_right (xs : List α) : mergeBy before xs [] = xs := List.merge_right ..

theorem mergeBy_left {a b : α} (h : before b a = false) (xs ys : List α) :
    mergeBy before (a :: xs) (b :: ys) = a :: mergeBy before xs (b :: ys) :=
  List.cons_merge_cons_pos _ _ _ (by rw [h]; rfl)

theorem mergeBy_right {a b : α} (h : before b a = true) (xs ys : List α) :
    mergeBy before (a :: xs) (b :: ys) = b :: mergeBy before (a :: xs) ys :=
  List.cons_merge_cons_neg _ _ _ (by rw [h]; exact Bool.false_ne_true)

theorem length_mergeBy (xs ys : List α) : (mergeBy before xs ys).length = xs.length + ys.length :=
  List.length_merge ..

theorem mergeBy_perm (xs ys : List α) : (mergeBy before xs ys).Perm (xs ++ ys) :=
  List.merge_perm_append _

theorem ordered_mergeBy (h : StrictWeak before) {xs ys : List α} (hxs : Ordered before xs)
    (hys : Ordered before ys) :
    Ordered before (mergeBy before xs ys) := by
  induction xs generalizing ys with
  | nil => rwa [mergeBy_nil_left]
  | cons a xs ihx =>
    induction ys with
    | nil => rwa [mergeBy_nil_right]
    | cons b ys ihy =>
      by_cases hba : before b a = true
      · rw [mergeBy_right hba]
        refine List.Pairwise.cons (fun c hc => ?_) (ihy hys.of_cons)
        rcases List.mem_append.mp ((mergeBy_perm _ _).mem_iff.mp hc) with hc | hc
        · rcases List.mem_cons.mp hc with rfl | hc
          · exact h.asymm hba
          · exact h.not_before_trans (h.asymm hba) (List.rel_of_pairwise_cons hxs hc)
        · exact List.rel_of_pairwise_cons hys hc
      · rw [Bool.not_eq_true] at hba
        rw [mergeBy_left hba]
        refine List.Pairwise.cons (fun c hc => ?_) (ihx hxs.of_cons hys)
        rcases List.mem_append.mp ((mergeBy_perm _ _).mem_iff.mp hc) with hc | hc
        · exact List.rel_of_pairwise_cons hxs hc
        · rcases List.mem_cons.mp hc with rfl | hc
          · exact hba
          · exact h.not_before_trans hba (List.rel_of_pairwise_cons hys hc)

/-- A merge is stable. -/
theorem filter_mergeBy (h : StrictWeak before) {xs ys : List α} (hxs : Ordered before xs) (x : α) :
    (mergeBy before xs ys).filter (same before x) = xs.filter (same before x) ++ ys.filter
    (same before x) := by
  induction xs generalizing ys with
  | nil =>
    rw [mergeBy_nil_left]
    rfl
  | cons a xs ihx =>
    induction ys with
    | nil => rw [mergeBy_nil_right, List.filter_nil, List.append_nil]
    | cons b ys ihy =>
      by_cases hba : before b a = true
      · rw [mergeBy_right hba]
        by_cases hsame : same before x b = true
        · -- the class of `b` is before all of the left list
          have hnone : (a :: xs).filter (same before x) = [] := by
            refine List.filter_eq_nil_iff.mpr fun c hc hsame' => ?_
            have hca : before c a = false := by
              rcases List.mem_cons.mp hc with rfl | hc
              · exact h.irrefl c
              · exact List.rel_of_pairwise_cons hxs hc
            rw [same_iff] at hsame hsame'
            have hcb := (h.incomparable c x b hsame'.2 hsame'.1 hsame.1 hsame.2).2
            rw [h.not_before_trans hca hcb] at hba
            cases hba
          rw [List.filter_cons_of_pos hsame, ihy, hnone, List.filter_cons_of_pos hsame]
          rfl
        · rw [List.filter_cons_of_neg hsame, ihy, List.filter_cons_of_neg hsame]
      · rw [Bool.not_eq_true] at hba
        rw [mergeBy_left hba]
        by_cases hsame : same before x a = true
        · rw [List.filter_cons_of_pos hsame, ihx hxs.of_cons, List.filter_cons_of_pos hsame,
            List.cons_append]
        · rw [List.filter_cons_of_neg hsame, ihx hxs.of_cons, List.filter_cons_of_neg hsame]

/-! ## Passes -/

/-- One pass over the runs of a width, two at a time; the fuel covers the list. -/
def mergeRuns (before : α → α → Bool) (width : ℕ) : ℕ → List α → List α
  | 0, _ => []
  | _ + 1, [] => []
  | fuel + 1, x :: xs => mergeBy before ((x :: xs).take width)
    (((x :: xs).drop width).take width) ++
      mergeRuns before width fuel ((x :: xs).drop (2 * width))

/-- The runs of a width are sorted. -/
def RunsOrdered (before : α → α → Bool) (width : ℕ) (xs : List α) : Prop :=
  ∀ k, Ordered before ((xs.drop (k * width)).take width)

variable {width fuel : ℕ} {xs : List α}

theorem RunsOrdered.drop (h : RunsOrdered before width xs) (j : ℕ) :
    RunsOrdered before width (xs.drop (j * width)) := by
  intro k
  rw [List.drop_drop, ← Nat.add_mul]
  exact h (j + k)

theorem runsOrdered_one (before : α → α → Bool) (xs : List α) : RunsOrdered before 1 xs := by
  intro k
  unfold Ordered
  cases xs.drop (k * 1) with
  | nil => exact List.Pairwise.nil
  | cons x rest => exact List.pairwise_singleton _ x

theorem split_runs (width : ℕ) (xs : List α) :
    xs.take width ++ ((xs.drop width).take width ++ xs.drop (2 * width)) = xs := by
  rw [Nat.two_mul, ← List.drop_drop, List.take_append_drop, List.take_append_drop]

theorem mergeRuns_perm (before : α → α → Bool) (hfuel : xs.length ≤ fuel) (hwidth : 0 < width) :
    (mergeRuns before width fuel xs).Perm xs := by
  induction fuel generalizing xs with
  | zero =>
    rw [List.length_eq_zero_iff.mp (Nat.le_zero.mp hfuel)]
    exact List.Perm.refl _
  | succ fuel ih =>
    cases xs with
    | nil => exact List.Perm.refl _
    | cons x xs =>
      rw [mergeRuns]
      have hrest := @ih ((x :: xs).drop (2 * width)) (by
        rw [List.length_drop]
        simp only [List.length_cons] at hfuel ⊢
        omega)
      refine ((mergeBy_perm _ _).append hrest).trans ?_
      rw [List.append_assoc, split_runs]

theorem filter_mergeRuns (h : StrictWeak before) (hfuel : xs.length ≤ fuel) (hwidth : 0 < width)
    (hruns : RunsOrdered before width xs) (x : α) :
    (mergeRuns before width fuel xs).filter (same before x) = xs.filter (same before x) := by
  induction fuel generalizing xs with
  | zero => rw [List.length_eq_zero_iff.mp (Nat.le_zero.mp hfuel), mergeRuns]
  | succ fuel ih =>
    cases xs with
    | nil => rfl
    | cons y xs =>
      have hleft := hruns 0
      rw [Nat.zero_mul, List.drop_zero] at hleft
      have hrest := @ih ((y :: xs).drop (2 * width)) (by
        rw [List.length_drop]
        simp only [List.length_cons] at hfuel ⊢
        omega) (hruns.drop 2)
      rw [mergeRuns, List.filter_append, filter_mergeBy h hleft, hrest, List.append_assoc,
        ← List.filter_append,
        ← List.filter_append, split_runs]

/-- Merged runs are twice as wide. -/
theorem runsOrdered_mergeRuns (h : StrictWeak before) (hfuel : xs.length ≤ fuel)
    (hwidth : 0 < width)
    (hruns : RunsOrdered before width xs) : RunsOrdered before (2 * width)
    (mergeRuns before width fuel xs) := by
  induction fuel generalizing xs with
  | zero =>
    intro k
    rw [mergeRuns, List.drop_nil, List.take_nil]
    exact List.Pairwise.nil
  | succ fuel ih =>
    cases xs with
    | nil =>
      intro k
      rw [mergeRuns, List.drop_nil, List.take_nil]
      exact List.Pairwise.nil
    | cons y xs =>
      have hleft := hruns 0
      have hright := hruns 1
      rw [Nat.zero_mul, List.drop_zero] at hleft
      rw [Nat.one_mul] at hright
      have hmerged := ordered_mergeBy h hleft hright
      have hshort : (y :: xs).length - 2 * width ≤ fuel := by
        simp only [List.length_cons] at hfuel ⊢
        omega
      have hrest := @ih ((y :: xs).drop (2 * width)) (by rwa [List.length_drop]) (hruns.drop 2)
      rw [mergeRuns]
      generalize hfirst : mergeBy before ((y :: xs).take width) (((y :: xs).drop width).take width)
        = first at hmerged ⊢
      have hlength : first.length = min (2 * width) (y :: xs).length := by
        rw [← hfirst, length_mergeBy, List.length_take, List.length_take, List.length_drop]
        omega
      intro k
      by_cases hlong : 2 * width ≤ (y :: xs).length
      · rw [Nat.min_eq_left hlong] at hlength
        cases k with
        | zero => rwa [Nat.zero_mul, List.drop_zero, List.take_left' hlength]
        | succ k =>
          rw [show (k + 1) * (2 * width) = 2 * width + k * (2 * width) by ring, ← List.drop_drop,
            List.drop_left' hlength]
          exact hrest k
      · -- the pair of runs was the last
        have hnil : (y :: xs).drop (2 * width) = [] := List.drop_eq_nil_of_le (by omega)
        have hempty : mergeRuns before width fuel ((y :: xs).drop (2 * width)) = [] := by
          rw [hnil]
          cases fuel with
          | zero => rfl
          | succ fuel => rfl
        rw [hempty, List.append_nil]
        exact hmerged.sublist ((List.take_sublist _ _).trans (List.drop_sublist _ _))

theorem RunsOrdered.ordered (h : RunsOrdered before width xs) (hwidth : xs.length ≤ width) :
    Ordered before xs := by
  have hall := h 0
  rwa [Nat.zero_mul, List.drop_zero, List.take_of_length_le hwidth] at hall

end PineForge
