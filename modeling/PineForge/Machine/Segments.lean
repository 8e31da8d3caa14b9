import Mathlib.Data.List.Induction

/-!
# Segments

A list is cut into maximal runs whose members all relate to the first of the run. `segments` reads
it from the left, one element at a time; that the runs make up the list, relate to their first, and
are as long as they can be determines them.
-/

namespace PineForge

section

variable {β : Type} (same : β → β → Bool)

/-- One more element: of the last segment, or the first of a new one. -/
def extendSegments (segs : List (List β)) (x : β) : List (List β) :=
  match segs.getLast? with
  | some (first :: rest) =>
    if same first x then segs.dropLast ++ [first :: rest ++ [x]] else segs ++ [[x]]
  | _ => segs ++ [[x]]

/-- Neighbours that belong together. -/
def segments (xs : List β) : List (List β) := xs.foldl (extendSegments same) []

variable {same}

@[simp] theorem segments_nil : segments same [] = [] := rfl

@[simp] theorem segments_snoc (xs : List β) (x : β) :
    segments same (xs ++ [x]) = extendSegments same (segments same xs) x := by
  simp [segments]

theorem extendSegments_same {segs : List (List β)} {first x : β} {rest : List β}
    (h : same first x = true) :
    extendSegments same (segs ++ [first :: rest]) x = segs ++ [first :: rest ++ [x]] := by
  simp [extendSegments, h]

theorem extendSegments_new {segs : List (List β)} {first x : β} {rest : List β}
    (h : same first x = false) :
    extendSegments same (segs ++ [first :: rest]) x = segs ++ [first :: rest] ++ [[x]] := by
  simp [extendSegments, h]

/-- What the segments of a list are. -/
structure Segmented (same : β → β → Bool) (xs : List β) (segs : List (List β)) : Prop where
  flatten : segs.flatten = xs
  shares : ∀ seg ∈ segs, ∃ first rest, seg = first :: rest ∧ ∀ x ∈ rest, same first x = true
  maximal : ∀ before a b after, segs = before ++ a :: b :: after →
    ∀ first ∈ a.head?, ∀ x ∈ b.head?, same first x = false

theorem Segmented.last {xs : List β} {segs : List (List β)} (h : Segmented same xs segs)
    (hne : xs ≠ []) : ∃ before first rest, segs = before ++ [first :: rest] := by
  rcases List.eq_nil_or_concat segs with rfl | ⟨before, last, rfl⟩
  · exact absurd h.flatten.symm hne
  · obtain ⟨first, rest, rfl, -⟩ := h.shares last (by simp)
    exact ⟨before, first, rest, by simp⟩

/-- One more element keeps the segments. -/
theorem Segmented.extend {xs : List β} {segs : List (List β)} (h : Segmented same xs segs) (x : β) :
    Segmented same (xs ++ [x]) (extendSegments same segs x) := by
  rcases List.eq_nil_or_concat segs with rfl | ⟨before, last, rfl⟩
  · have hxs : xs = [] := h.flatten.symm
    subst hxs
    refine ⟨by simp [extendSegments], ?_, ?_⟩
    · intro seg hseg
      simp only [extendSegments, List.getLast?_nil, List.nil_append, List.mem_singleton] at hseg
      exact ⟨x, [], hseg, by simp⟩
    · intro pre a b after hsplit
      have hlength := congrArg List.length hsplit
      simp [extendSegments] at hlength
      omega
  · obtain ⟨first, rest, rfl, hrest⟩ := h.shares last (by simp)
    simp only [List.concat_eq_append] at h ⊢
    have hflatten := h.flatten
    cases hsame : same first x with
    | true =>
      rw [extendSegments_same hsame]
      refine ⟨by rw [← hflatten]; simp, ?_, ?_⟩
      · intro seg hseg
        rcases List.mem_append.mp hseg with hseg | hseg
        · exact h.shares seg (by simp [hseg])
        · rw [List.mem_singleton.mp hseg]
          refine ⟨first, rest ++ [x], by simp, fun y hy => ?_⟩
          rcases List.mem_append.mp hy with hy | hy
          · exact hrest y hy
          · rw [List.mem_singleton.mp hy]
            exact hsame
      · intro pre a b after hsplit f hf y hy
        -- the last segment only grew at its end, so every pair of neighbours starts as before
        rcases List.eq_nil_or_concat after with rfl | ⟨after, final, rfl⟩
        · have hsplit' : before ++ [first :: rest ++ [x]] = (pre ++ [a]) ++ [b] := by
            rw [hsplit]
            simp
          obtain ⟨hbefore, hlast⟩ := List.append_inj' hsplit' rfl
          have hb : b = first :: rest ++ [x] := by simpa using hlast.symm
          subst hb
          refine h.maximal pre a (first :: rest) [] (by simp [hbefore]) f hf y ?_
          simpa using hy
        · have hsplit' : before ++ [first :: rest ++ [x]] = (pre ++ a :: b :: after) ++
              [final] := by
            rw [hsplit]
            simp
          obtain ⟨hbefore, -⟩ := List.append_inj' hsplit' rfl
          exact h.maximal pre a b (after ++ [first :: rest]) (by simp [hbefore]) f hf y hy
    | false =>
      rw [extendSegments_new hsame]
      refine ⟨by rw [← hflatten]; simp, ?_, ?_⟩
      · intro seg hseg
        rcases List.mem_append.mp hseg with hseg | hseg
        · exact h.shares seg hseg
        · exact ⟨x, [], List.mem_singleton.mp hseg, by simp⟩
      · intro pre a b after hsplit f hf y hy
        rcases List.eq_nil_or_concat after with rfl | ⟨after, final, rfl⟩
        · have hsplit' : before ++ [first :: rest] ++ [[x]] = (pre ++ [a]) ++ [b] := by
            simp [hsplit]
          obtain ⟨hbefore, hlast⟩ := List.append_inj' hsplit' rfl
          obtain ⟨-, ha⟩ := List.append_inj' hbefore rfl
          simp only [List.cons.injEq, and_true] at hlast ha
          subst hlast ha
          simp only [List.head?_cons, Option.mem_some_iff] at hf hy
          subst hf hy
          exact hsame
        · have hsplit' : before ++ [first :: rest] ++ [[x]] = (pre ++ a :: b :: after) ++
              [final] := by
            simp [hsplit]
          obtain ⟨hbefore, -⟩ := List.append_inj' hsplit' rfl
          exact h.maximal pre a b after hbefore f hf y hy

theorem segmented_segments (xs : List β) : Segmented same xs (segments same xs) := by
  have hfold : ∀ (xs done : List β) (segs : List (List β)), Segmented same done segs →
      Segmented same (done ++ xs) (xs.foldl (extendSegments same) segs) := by
    intro xs
    induction xs with
    | nil => exact fun done segs h => by simpa using h
    | cons x xs ih =>
      intro done segs h
      have hnext := ih (done ++ [x]) _ (h.extend x)
      rw [List.append_assoc] at hnext
      exact hnext
  exact hfold xs [] [] ⟨rfl, by simp, by simp⟩

/-- The segments of a part read first are parts of the segments of the whole, at the same places. -/
theorem segments_prefix {xs : List β} (ys : List β) {i : ℕ} {seg : List β}
    (h : (segments same xs)[i]? = some seg) :
    ∃ whole, (segments same (xs ++ ys))[i]? = some whole ∧ seg <+: whole := by
  induction ys using List.reverseRecOn with
  | nil => exact ⟨seg, by simpa using h, List.prefix_rfl⟩
  | append_singleton ys y ih =>
    obtain ⟨whole, hwhole, hseg⟩ := ih
    have hlt : i < (segments same (xs ++ ys)).length := (List.getElem?_eq_some_iff.mp hwhole).1
    have hne : xs ++ ys ≠ [] := by
      intro hnil
      rw [hnil] at hlt
      exact absurd hlt (Nat.not_lt_zero i)
    obtain ⟨before, first, rest, hsegs⟩ := (@segmented_segments _ same (xs ++ ys)).last hne
    rw [← List.append_assoc, segments_snoc]
    rw [hsegs] at hwhole hlt ⊢
    cases hsame : same first y with
    | true =>
      rw [extendSegments_same hsame]
      by_cases hi : i < before.length
      · rw [List.getElem?_append_left hi] at hwhole ⊢
        exact ⟨whole, hwhole, hseg⟩
      · have hi : i = before.length := by
          simp only [List.length_append, List.length_singleton] at hlt
          omega
        subst hi
        have hlast : first :: rest = whole := by simpa using hwhole
        refine ⟨first :: rest ++ [y], by simp, hseg.trans ?_⟩
        rw [← hlast]
        exact List.prefix_append _ _
    | false =>
      rw [extendSegments_new hsame]
      exact ⟨whole, by rw [List.getElem?_append_left hlt]; exact hwhole, hseg⟩

end

end PineForge
