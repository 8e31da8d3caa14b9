import Mathlib
import PineForge.DiskTable.Balance

/-!
# Walks over the links

The walks read the links of one node after the other. Over the records of a tree, a search ends at
the key's node or at the place it belongs to, and a step of the sorted walk goes to the next label
in order.
-/

namespace PineForge.DiskTable

open Avl Avl.BinTree

variable {V : Type} {backing : Backing} {st : Table V}

/-- The offset of the first of some labels, zero for none. -/
def headOffset : List Label → ℕ
  | [] => 0
  | x :: _ => x.1

/-- The keys in strictly ascending order. -/
def Sorted (labels : List Label) : Prop := labels.Pairwise fun x y => x.2 < y.2

theorem top_eq_zero {tree : BinTree Label} (hzero : 0 ∉ offsets tree) :
    top tree = 0 ↔ tree = nil := by
  constructor
  · intro htop
    by_contra hnil
    apply hzero
    rw [← htop]
    exact top_mem hnil
  · rintro rfl
    rfl

theorem nonzero_node {l r : BinTree Label} {x : Label} (h : 0 ∉ offsets (node l x r)) :
    x.1 ≠ 0 ∧ 0 ∉ offsets l ∧ 0 ∉ offsets r := by
  change 0 ∉ offsets (join true l x r) at h
  rw [mem_offsets_join, not_or, not_or] at h
  exact ⟨Ne.symm h.1, h.2⟩

/-! ## Down -/

theorem leftmostFrom_eq (h : Stored backing st) {tree : BinTree Label} {parent : ℕ}
    (hrep : Rep st.nodes parent tree)
    (hzero : 0 ∉ offsets tree) (hsmall : tree.height ≤ 128) {turns : ℕ}
    (hturns : tree.height < turns) :
    leftmostFrom backing turns (top tree) st = (.ok (headOffset tree.inorder), st) := by
  induction tree generalizing parent turns with
  | nil =>
    obtain ⟨turns, rfl⟩ : ∃ k, turns = k + 1 := ⟨turns - 1, by omega⟩
    rfl
  | node l x r ihl ihr =>
    obtain ⟨turns, rfl⟩ : ∃ k, turns = k + 1 := ⟨turns - 1, by omega⟩
    obtain ⟨⟨found, hat, -, hleft, -, -, hheight⟩, hl, -⟩ := hrep
    obtain ⟨hx, hzl, -⟩ := nonzero_node hzero
    rw [height_node] at hsmall hturns
    change found.links.left = top l at hleft
    rw [leftmostFrom, top, if_neg hx, Command.bind_ok (links_eq h hat (by omega) (by omega)), hleft]
    by_cases hnil : l = nil
    · subst hnil
      rfl
    · rw [if_neg fun hz => hnil ((top_eq_zero hzl).mp hz), ihl hl hzl (by omega) (by omega)]
      cases l with
      | nil => exact absurd rfl hnil
      | node ll y lr =>
        simp only [inorder_node]
        cases ll.inorder with
        | nil => rfl
        | cons z zs => rfl

/-- The search finds the key, if it is there. -/
theorem findFrom_eq (h : Stored backing st) (key : Key) {tree : BinTree Label} {parent : ℕ}
    (hrep : Rep st.nodes parent tree) (hzero : 0 ∉ offsets tree) (hsmall : tree.height ≤ 128)
    (hsorted : Sorted tree.inorder) {turns : ℕ} (hturns : tree.height < turns) :
    (∃ o, (o, key) ∈ tree.inorder ∧ findFrom backing key turns (top tree) st = (.ok (some o), st)) ∨
      (∀ x ∈ tree.inorder, x.2 ≠ key) ∧ findFrom backing key turns (top tree) st
        = (.ok none, st) := by
  induction tree generalizing parent turns with
  | nil =>
    obtain ⟨turns, rfl⟩ : ∃ k, turns = k + 1 := ⟨turns - 1, by omega⟩
    exact .inr ⟨by simp, rfl⟩
  | node l x r ihl ihr =>
    obtain ⟨turns, rfl⟩ : ∃ k, turns = k + 1 := ⟨turns - 1, by omega⟩
    obtain ⟨⟨found, hat, hkey, hleft, hright, -, hheight⟩, hl, hr⟩ := hrep
    obtain ⟨hx, hzl, hzr⟩ := nonzero_node hzero
    rw [height_node] at hsmall hturns
    change found.links.left = top l at hleft
    change found.links.right = top r at hright
    unfold Sorted at hsorted
    rw [inorder_node, List.pairwise_append, List.pairwise_cons] at hsorted
    obtain ⟨hsl, ⟨hxr, hsr⟩, hlx⟩ := hsorted
    rw [findFrom, top, if_neg hx, Command.bind_ok (links_eq h hat (by omega) (by omega)),
      Command.bind_ok (readKey_eq h hat), hkey, hleft, hright, inorder_node]
    by_cases heq : key = x.2
    · rw [if_pos heq]
      subst heq
      exact .inl ⟨x.1, by simp, rfl⟩
    · rw [if_neg heq]
      by_cases hless : key < x.2
      · rw [if_pos hless]
        rcases ihl hl hzl (by omega) hsl (show l.height < turns by omega) with ⟨o, hmem, hrun⟩ |
          ⟨hnone, hrun⟩
        · exact .inl ⟨o, List.mem_append_left _ hmem, hrun⟩
        · refine .inr ⟨fun y hy => ?_, hrun⟩
          rw [List.mem_append, List.mem_cons] at hy
          rcases hy with hy | rfl | hy
          · exact hnone y hy
          · exact Ne.symm heq
          · exact (lt_trans hless (hxr y hy)).ne'
      · rw [if_neg hless]
        have hmore : x.2 < key := lt_of_le_of_ne (not_lt.mp hless) (Ne.symm heq)
        rcases ihr hr hzr (by omega) hsr (show r.height < turns by omega) with ⟨o, hmem, hrun⟩ |
          ⟨hnone, hrun⟩
        · exact .inl ⟨o, List.mem_append_right _ (List.mem_cons_of_mem _ hmem), hrun⟩
        · refine .inr ⟨fun y hy => ?_, hrun⟩
          rw [List.mem_append, List.mem_cons] at hy
          rcases hy with hy | rfl | hy
          · exact (lt_trans (hlx y hy x List.mem_cons_self) hmore).ne
          · exact Ne.symm heq
          · exact hnone y hy

/-- The descent finds the key or its place. -/
theorem descend_eq (h : Stored backing st) (key : Key) {tree : BinTree Label}
    {above : List (Frame Label)}
    (hrep : Rep st.nodes (parentOf above) tree) (hzero : 0 ∉ offsets tree)
    (hsmall : tree.height ≤ 128)
    (hsorted : Sorted tree.inorder) (hbefore : ∀ x ∈ before above, x.2 < key)
    (hafter : ∀ x ∈ after above, key < x.2)
    {turns : ℕ} (hturns : tree.height < turns) :
    (∃ o, (o, key) ∈ tree.inorder ∧
        descend backing key turns (top tree) (parentOf above) (sideOf above) st
          = (.ok (.found o), st)) ∨
      ∃ fs, plug nil fs = plug tree above ∧ (∀ x ∈ before fs, x.2 < key) ∧
        (∀ x ∈ after fs, key < x.2) ∧
        descend backing key turns (top tree) (parentOf above) (sideOf above) st =
          (.ok (.under (parentOf fs) (sideOf fs)), st) := by
  induction tree generalizing above turns with
  | nil =>
    obtain ⟨turns, rfl⟩ : ∃ k, turns = k + 1 := ⟨turns - 1, by omega⟩
    exact .inr ⟨above, rfl, hbefore, hafter, rfl⟩
  | node l x r ihl ihr =>
    obtain ⟨turns, rfl⟩ : ∃ k, turns = k + 1 := ⟨turns - 1, by omega⟩
    obtain ⟨⟨found, hat, hkey, hleft, hright, -, hheight⟩, hl, hr⟩ := hrep
    obtain ⟨hx, hzl, hzr⟩ := nonzero_node hzero
    rw [height_node] at hsmall hturns
    change found.links.left = top l at hleft
    change found.links.right = top r at hright
    unfold Sorted at hsorted
    rw [inorder_node, List.pairwise_append, List.pairwise_cons] at hsorted
    obtain ⟨hsl, ⟨hxr, hsr⟩, hlx⟩ := hsorted
    rw [descend, top, if_neg hx, Command.bind_ok (links_eq h hat (by omega) (by omega)),
      Command.bind_ok (readKey_eq h hat), hkey, hleft, hright, inorder_node]
    by_cases heq : key = x.2
    · rw [if_pos heq]
      subst heq
      exact .inl ⟨x.1, by simp, rfl⟩
    · rw [if_neg heq]
      by_cases hless : key < x.2
      · rw [if_pos hless, decide_eq_true hless]
        -- the node and everything right of it come behind the key
        have hafter' : ∀ y ∈ after (⟨.left, x, r⟩ :: above), key < y.2 := by
          intro y hy
          rw [after, List.cons_append, List.mem_cons, List.mem_append] at hy
          rcases hy with rfl | hy | hy
          · exact hless
          · exact lt_trans hless (hxr y hy)
          · exact hafter y hy
        rcases ihl (show Rep st.nodes (parentOf (⟨.left, x, r⟩ :: above)) l from hl) hzl
          (by omega) hsl hbefore hafter'
          (show l.height < turns by omega) with ⟨o, hmem, hrun⟩ | hunder
        · exact .inl ⟨o, List.mem_append_left _ hmem, hrun⟩
        · exact .inr hunder
      · have hmore : x.2 < key := lt_of_le_of_ne (not_lt.mp hless) (Ne.symm heq)
        rw [if_neg hless, decide_eq_false hless]
        have hbefore' : ∀ y ∈ before (⟨.right, x, l⟩ :: above), y.2 < key := by
          intro y hy
          rw [before, List.mem_append, List.mem_append, List.mem_singleton] at hy
          rcases hy with (hy | hy) | rfl
          · exact hbefore y hy
          · exact lt_trans (hlx y hy x List.mem_cons_self) hmore
          · exact hmore
        rcases ihr (show Rep st.nodes (parentOf (⟨.right, x, l⟩ :: above)) r from hr) hzr
          (by omega) hsr hbefore' hafter
          (show r.height < turns by omega) with ⟨o, hmem, hrun⟩ | hunder
        · exact .inl ⟨o, List.mem_append_right _ (List.mem_cons_of_mem _ hmem), hrun⟩
        · exact .inr hunder

/-! ## Up -/

/-- The ascent finds the next row. -/
theorem ascend_eq (h : Stored backing st) {child : ℕ} {fs : List (Frame Label)}
    (hpath : Path st.nodes child fs)
    (hfresh : child ∉ pathOffsets fs) (hchild : child ≠ 0) (hnodup : (pathOffsets fs).Nodup)
    (hzero : 0 ∉ pathOffsets fs)
    {turns : ℕ} (hturns : fs.length < turns) :
    ascend backing turns child (parentOf fs) st = (.ok (headOffset (after fs)), st) := by
  induction fs generalizing child turns with
  | nil =>
    obtain ⟨turns, rfl⟩ : ∃ k, turns = k + 1 := ⟨turns - 1, by omega⟩
    rfl
  | cons f fs ih =>
    obtain ⟨turns, rfl⟩ : ∃ k, turns = k + 1 := ⟨turns - 1, by omega⟩
    obtain ⟨⟨height, hlow, hhigh, found, hat, hkey, hnear, hfar, hparent, hheight⟩, -, hrest⟩ :=
      hpath
    rw [pathOffsets, List.cons_append, List.nodup_cons, List.mem_append, not_or,
      List.nodup_append'] at hnodup
    obtain ⟨⟨-, hnotRest⟩, -, hnodup', -⟩ := hnodup
    have hne : f.label.1 ≠ 0 := by
      intro hz
      apply hzero
      rw [← hz]
      exact List.mem_cons_self
    have hzero' : 0 ∉ pathOffsets fs :=
      fun hz => hzero (List.mem_cons_of_mem _ (List.mem_append_right _ hz))
    rw [ascend, parentOf, if_neg hne, Command.bind_ok (links_eq h hat (by omega) (by omega)),
      hparent]
    obtain ⟨side, x, s⟩ := f
    cases side with
    | left =>
      change found.links.left = child at hnear
      rw [if_pos hnear]
      rfl
    | right =>
      change found.links.left = top s at hfar
      have hother : ¬ found.links.left = child := by
        rw [hfar]
        intro htop
        by_cases hnil : s = nil
        · subst hnil
          exact hchild htop.symm
        · apply hfresh
          rw [← htop]
          exact List.mem_cons_of_mem _ (List.mem_append_left _ (top_mem hnil))
      rw [if_neg hother]
      exact ih hrest hnotRest hne hnodup' hzero' (Nat.lt_of_succ_lt_succ hturns)

end PineForge.DiskTable
