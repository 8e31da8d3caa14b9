import Mathlib

/-!
# Balanced trees

Binary trees whose subtrees differ in height by at most one, with the paths down to a subtree as
lists of frames. `settle` is the rotation that restores the balance at a node whose subtrees differ
by two, and `climb` settles every node on a path. An insertion makes a subtree higher by at most
one, so climbing from it balances the whole tree (`climb_balanced`); the labels in order stay as
they are (`inorder_climb`).
-/

namespace PineForge.Avl

/-- Binary trees. -/
inductive BinTree (α : Type) where
  | nil
  | node (left : BinTree α) (label : α) (right : BinTree α)
deriving DecidableEq, Repr

variable {α : Type}

namespace BinTree

/-- The height of a tree. -/
def height : BinTree α → ℕ
  | nil => 0
  | node l _ r => 1 + max l.height r.height

/-- The labels in order. -/
def inorder : BinTree α → List α
  | nil => []
  | node l x r => l.inorder ++ x :: r.inorder

/-- Heights differ by one at most. -/
def Balanced : BinTree α → Prop
  | nil => True
  | node l _ r => l.Balanced ∧ r.Balanced ∧ l.height ≤ r.height + 1 ∧ r.height ≤ l.height + 1

/-- The right child becomes the root. -/
def rotateLeft : BinTree α → BinTree α
  | node a x (node b y c) => node (node a x b) y c
  | t => t

/-- The left child becomes the root. -/
def rotateRight : BinTree α → BinTree α
  | node (node a x b) y c => node a x (node b y c)
  | t => t

/-- The left child is higher. -/
def leansLeft : BinTree α → Bool
  | nil => false
  | node l _ r => decide (r.height < l.height)

/-- The right child is higher. -/
def leansRight : BinTree α → Bool
  | nil => false
  | node l _ r => decide (l.height < r.height)

/-- The balance at the root: nothing, or one or two rotations. -/
def settle : BinTree α → BinTree α
  | nil => nil
  | node l x r =>
    if r.height + 1 < l.height then
      rotateRight (node (if l.leansRight then l.rotateLeft else l) x r)
    else if l.height + 1 < r.height then
      rotateLeft (node l x (if r.leansLeft then r.rotateRight else r))
    else node l x r

@[simp] theorem height_nil : (nil : BinTree α).height = 0 := rfl

@[simp] theorem height_node (l : BinTree α) (x : α) (r : BinTree α) :
    (node l x r).height = 1 + max l.height r.height := rfl

@[simp] theorem inorder_nil : (nil : BinTree α).inorder = [] := rfl

@[simp] theorem inorder_node (l : BinTree α) (x : α) (r : BinTree α) :
    (node l x r).inorder = l.inorder ++ x :: r.inorder := rfl

theorem inorder_rotateLeft (t : BinTree α) : t.rotateLeft.inorder = t.inorder := by
  cases t with
  | nil => rfl
  | node a x r =>
    cases r with
    | nil => rfl
    | node b y c => simp [rotateLeft]

theorem inorder_rotateRight (t : BinTree α) : t.rotateRight.inorder = t.inorder := by
  cases t with
  | nil => rfl
  | node l y c =>
    cases l with
    | nil => rfl
    | node a x b => simp [rotateRight]

theorem inorder_settle (t : BinTree α) : t.settle.inorder = t.inorder := by
  cases t with
  | nil => rfl
  | node l x r =>
    rw [settle]
    split
    · rw [inorder_rotateRight]
      split
      · rw [inorder_node, inorder_rotateLeft, inorder_node]
      · rfl
    · split
      · rw [inorder_rotateLeft]
        split
        · rw [inorder_node, inorder_rotateRight, inorder_node]
        · rfl
      · rfl

/-- A left subtree two higher: the rotations leave a balanced tree that is at most one lower. -/
theorem settle_left {l r : BinTree α} (x : α) (hl : l.Balanced) (hr : r.Balanced)
    (h : l.height = r.height + 2) :
    (rotateRight (node (if l.leansRight then l.rotateLeft else l) x r)).Balanced ∧
      r.height + 2 ≤ (rotateRight (node (if l.leansRight then l.rotateLeft else l) x r)).height ∧
      (rotateRight (node (if l.leansRight then l.rotateLeft else l) x r)).height
        ≤ r.height + 3 := by
  cases l with
  | nil => simp at h
  | node a y b =>
    obtain ⟨ha, hb, hab, hba⟩ := hl
    rw [height_node] at h
    by_cases hlean : a.height < b.height
    · -- the inner subtree is the higher one: it comes up in two rotations
      have hleans : (node a y b).leansRight = true := decide_eq_true hlean
      rw [hleans, if_pos rfl]
      cases b with
      | nil => simp at hlean
      | node c z d =>
        obtain ⟨hc, hd, hcd, hdc⟩ := hb
        change (node (node a y c) z (node d x r)).Balanced ∧
          _ ≤ (node (node a y c) z (node d x r)).height ∧
          (node (node a y c) z (node d x r)).height ≤ _
        rw [height_node] at hlean hab hba h
        simp only [Balanced, height_node]
        refine ⟨⟨⟨ha, hc, ?_, ?_⟩, ⟨hd, hr, ?_, ?_⟩, ?_, ?_⟩, ?_, ?_⟩ <;> omega
    · have hleans : (node a y b).leansRight = false := decide_eq_false hlean
      rw [hleans, if_neg Bool.false_ne_true]
      change (node a y (node b x r)).Balanced ∧ _ ≤ (node a y (node b x r)).height ∧
        (node a y (node b x r)).height ≤ _
      simp only [Balanced, height_node]
      refine ⟨⟨ha, ⟨hb, hr, ?_, ?_⟩, ?_, ?_⟩, ?_, ?_⟩ <;> omega

theorem settle_right {l r : BinTree α} (x : α) (hl : l.Balanced) (hr : r.Balanced)
    (h : r.height = l.height + 2) :
    (rotateLeft (node l x (if r.leansLeft then r.rotateRight else r))).Balanced ∧
      l.height + 2 ≤ (rotateLeft (node l x (if r.leansLeft then r.rotateRight else r))).height ∧
      (rotateLeft (node l x (if r.leansLeft then r.rotateRight else r))).height ≤ l.height + 3 := by
  cases r with
  | nil => simp at h
  | node a y b =>
    obtain ⟨ha, hb, hab, hba⟩ := hr
    rw [height_node] at h
    by_cases hlean : b.height < a.height
    · have hleans : (node a y b).leansLeft = true := decide_eq_true hlean
      rw [hleans, if_pos rfl]
      cases a with
      | nil => simp at hlean
      | node c z d =>
        obtain ⟨hc, hd, hcd, hdc⟩ := ha
        change (node (node l x c) z (node d y b)).Balanced ∧
          _ ≤ (node (node l x c) z (node d y b)).height ∧
          (node (node l x c) z (node d y b)).height ≤ _
        rw [height_node] at hlean hab hba h
        simp only [Balanced, height_node]
        refine ⟨⟨⟨hl, hc, ?_, ?_⟩, ⟨hd, hb, ?_, ?_⟩, ?_, ?_⟩, ?_, ?_⟩ <;> omega
    · have hleans : (node a y b).leansLeft = false := decide_eq_false hlean
      rw [hleans, if_neg Bool.false_ne_true]
      change (node (node l x a) y b).Balanced ∧ _ ≤ (node (node l x a) y b).height ∧
        (node (node l x a) y b).height ≤ _
      simp only [Balanced, height_node]
      refine ⟨⟨⟨hl, ha, ?_, ?_⟩, hb, ?_, ?_⟩, ?_, ?_⟩ <;> omega

theorem height_le_length (t : BinTree α) : t.height ≤ t.inorder.length := by
  induction t with
  | nil => simp
  | node l x r ihl ihr =>
    simp only [height_node, inorder_node, List.length_append, List.length_cons]
    omega

theorem two_pow_le {t : BinTree α} (h : t.Balanced) :
    2 ^ (t.height / 2) ≤ t.inorder.length + 1 := by
  induction t with
  | nil => simp
  | node l x r ihl ihr =>
    obtain ⟨hl, hr, hlr, hrl⟩ := h
    have hleft := ihl hl
    have hright := ihr hr
    rw [inorder_node, List.length_append, List.length_cons, height_node]
    have hlow : ∀ k, (1 + max l.height r.height) / 2 ≤ k + 1 → k ≤ l.height / 2 → k ≤ r.height / 2 →
        2 ^ ((1 + max l.height r.height) / 2) ≤ l.inorder.length + (r.inorder.length + 1) + 1 := by
      intro k hk hkl hkr
      calc 2 ^ ((1 + max l.height r.height) / 2) ≤ 2 ^ (k + 1) :=
        Nat.pow_le_pow_right (by decide) hk
        _ = 2 ^ k + 2 ^ k := by ring
        _ ≤ 2 ^ (l.height / 2) + 2 ^ (r.height / 2) :=
          Nat.add_le_add (Nat.pow_le_pow_right (by decide) hkl)
            (Nat.pow_le_pow_right (by decide) hkr)
        _ ≤ l.inorder.length + (r.inorder.length + 1) + 1 := by omega
    exact hlow (min l.height r.height / 2) (by omega) (by omega) (by omega)

end BinTree

open PineForge.Avl.BinTree

/-! ## Paths -/

/-- Left or right. -/
inductive Side where
  | left
  | right
deriving DecidableEq, Repr

/-- A node above a subtree: the side the subtree is on, the label, and the subtree on the other
side. -/
structure Frame (α : Type) where
  side : Side
  label : α
  sibling : BinTree α
deriving DecidableEq, Repr

/-- The tree of a frame and a subtree. -/
def Frame.attach (f : Frame α) (t : BinTree α) : BinTree α :=
  match f.side with
  | .left => node t f.label f.sibling
  | .right => node f.sibling f.label t

/-- The whole tree, from a subtree and the path above it, the nearest frame first. -/
def plug (t : BinTree α) : List (Frame α) → BinTree α
  | [] => t
  | f :: fs => plug (f.attach t) fs

/-- The labels before the subtree. -/
def before : List (Frame α) → List α
  | [] => []
  | ⟨.left, _, _⟩ :: fs => before fs
  | ⟨.right, x, s⟩ :: fs => before fs ++ s.inorder ++ [x]

/-- The labels after the subtree. -/
def after : List (Frame α) → List α
  | [] => []
  | ⟨.left, x, s⟩ :: fs => x :: s.inorder ++ after fs
  | ⟨.right, _, _⟩ :: fs => after fs

theorem inorder_plug (t : BinTree α) (fs : List (Frame α)) :
    (plug t fs).inorder = before fs ++ t.inorder ++ after fs := by
  induction fs generalizing t with
  | nil => simp [plug, before, after]
  | cons f fs ih =>
    obtain ⟨side, x, s⟩ := f
    cases side with
    | left => simp [plug, ih, Frame.attach, before, after]
    | right => simp [plug, ih, Frame.attach, before, after]

/-- Every label of a tree is the root of a subtree with a path above it; what comes behind the label
is in the right subtree and then on the path. -/
theorem exists_plug {t : BinTree α} {x : α} {pre suf : List α} (h : t.inorder = pre ++ x :: suf) :
    ∃ l r fs, plug (node l x r) fs = t ∧ r.inorder ++ after fs = suf := by
  -- induction over the tree, with the frames of the part above the subtree kept general
  suffices hgen : ∀ (t : BinTree α) (above : List (Frame α)) (pre suf : List α), t.inorder
    = pre ++ x :: suf →
      ∃ l r fs, plug (node l x r) fs = plug t above ∧ r.inorder ++ after fs = suf ++ after above by
    obtain ⟨l, r, fs, hplug, hafter⟩ := hgen t [] pre suf h
    exact ⟨l, r, fs, hplug, hafter.trans (List.append_nil suf)⟩
  intro t
  induction t with
  | nil =>
    intro above pre suf hsplit
    simp at hsplit
  | node l y r ihl ihr =>
    intro above pre suf hsplit
    rw [inorder_node] at hsplit
    rcases List.append_eq_append_iff.mp hsplit with ⟨mid, hpre, hrest⟩ | ⟨mid, hleft, hrest⟩
    · cases mid with
      | nil =>
        obtain ⟨rfl, rfl⟩ := List.cons.inj hrest
        exact ⟨l, r, above, rfl, rfl⟩
      | cons z mid =>
        obtain ⟨-, hr⟩ := List.cons.inj hrest
        obtain ⟨l', r', fs, hplug, hafter⟩ := ihr (⟨.right, y, l⟩ :: above) mid suf hr
        exact ⟨l', r', fs, hplug, hafter⟩
    · cases mid with
      | nil =>
        obtain ⟨rfl, rfl⟩ := List.cons.inj hrest
        exact ⟨l, r, above, rfl, rfl⟩
      | cons z mid =>
        obtain ⟨rfl, rfl⟩ := List.cons.inj hrest
        obtain ⟨l', r', fs, hplug, hafter⟩ := ihl (⟨.left, y, r⟩ :: above) pre mid hleft
        refine ⟨l', r', fs, hplug, hafter.trans ?_⟩
        simp [after]

/-! ## Climbing -/

/-- Every node on the path settled, from the nearest up. -/
def climb (t : BinTree α) : List (Frame α) → BinTree α
  | [] => t
  | f :: fs => climb (f.attach t).settle fs

theorem inorder_climb (t : BinTree α) (fs : List (Frame α)) :
    (climb t fs).inorder = before fs ++ t.inorder ++ after fs := by
  induction fs generalizing t with
  | nil => simp [climb, before, after]
  | cons f fs ih =>
    obtain ⟨side, x, s⟩ := f
    cases side with
    | left => simp [climb, ih, inorder_settle, Frame.attach, before, after]
    | right => simp [climb, ih, inorder_settle, Frame.attach, before, after]

/-- The path is balanced around a subtree of this height. -/
def Spine : ℕ → List (Frame α) → Prop
  | _, [] => True
  | h, f :: fs => f.sibling.Balanced ∧ h ≤ f.sibling.height + 1 ∧ f.sibling.height ≤ h + 1 ∧
    Spine (1 + max h f.sibling.height) fs

theorem spine_of_balanced {t : BinTree α} {fs : List (Frame α)} (h : (plug t fs).Balanced) :
    t.Balanced ∧ Spine t.height fs := by
  induction fs generalizing t with
  | nil => exact ⟨h, trivial⟩
  | cons f fs ih =>
    obtain ⟨hattach, hspine⟩ := ih h
    obtain ⟨side, x, s⟩ := f
    cases side with
    | left =>
      obtain ⟨ht, hs, hts, hst⟩ := hattach
      exact ⟨ht, hs, hts, hst, hspine⟩
    | right =>
      obtain ⟨hs, ht, hst, hts⟩ := hattach
      refine ⟨ht, hs, hts, hst, ?_⟩
      rw [Nat.max_comm]
      exact hspine

theorem settle_attach {f : Frame α} {t : BinTree α} {h : ℕ} (ht : t.Balanced)
    (hs : f.sibling.Balanced)
    (hlow : h ≤ t.height) (hhigh : t.height ≤ h + 1) (hts : h ≤ f.sibling.height + 1)
    (hst : f.sibling.height ≤ h + 1) :
    (f.attach t).settle.Balanced ∧ 1 + max h f.sibling.height ≤ (f.attach t).settle.height ∧
      (f.attach t).settle.height ≤ 1 + max h f.sibling.height + 1 := by
  obtain ⟨side, x, s⟩ := f
  dsimp only at *
  cases side with
  | left =>
    have hattach : Frame.attach ⟨.left, x, s⟩ t = node t x s := rfl
    rw [hattach, settle]
    split
    · next hmore =>
      obtain ⟨hbalanced, hge, hle⟩ := settle_left x ht hs (by omega)
      exact ⟨hbalanced, by omega, by omega⟩
    · split
      · next hless => omega
      · refine ⟨⟨ht, hs, by omega, by omega⟩, ?_, ?_⟩ <;> rw [height_node] <;> omega
  | right =>
    have hattach : Frame.attach ⟨.right, x, s⟩ t = node s x t := rfl
    rw [hattach, settle]
    split
    · next hmore => omega
    · split
      · next hless =>
        obtain ⟨hbalanced, hge, hle⟩ := settle_right x hs ht (by omega)
        exact ⟨hbalanced, by omega, by omega⟩
      · refine ⟨⟨hs, ht, by omega, by omega⟩, ?_, ?_⟩ <;> rw [height_node] <;> omega

theorem climb_balanced {t : BinTree α} {fs : List (Frame α)} {h : ℕ} (ht : t.Balanced)
    (hlow : h ≤ t.height)
    (hhigh : t.height ≤ h + 1) (hspine : Spine h fs) : (climb t fs).Balanced := by
  induction fs generalizing t h with
  | nil => exact ht
  | cons f fs ih =>
    obtain ⟨hs, hts, hst, hrest⟩ := hspine
    obtain ⟨hbalanced, hge, hle⟩ := settle_attach ht hs hlow hhigh hts hst
    exact ih hbalanced hge hle hrest

end PineForge.Avl
