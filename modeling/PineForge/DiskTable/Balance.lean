import Mathlib
import PineForge.DiskTable.Rotations

/-!
# Balancing the links

The body of `rebalance` leaves the settled tree at its node, and the loop settles every node on the
way up.
-/

namespace PineForge.DiskTable

open Avl Avl.BinTree

variable {V : Type} {backing : Backing} {st : Table V}

/-- The rotation to a side. -/
def spin (left : Bool) (tree : BinTree Label) : BinTree Label :=
  if left then tree.rotateLeft else tree.rotateRight

theorem spin_join (left : Bool) (a b c : BinTree Label) (x y : Label) :
    spin left (join left a x (join left b y c)) = join left (join left a x b) y c := by
  cases left with
  | true => rfl
  | false => rfl

theorem join_not (left : Bool) (a b : BinTree Label) (x : Label) :
    join (!left) a x b = join left b x a := by
  cases left with
  | true => rfl
  | false => rfl

theorem exists_join {tree : BinTree Label} (h : tree ≠ nil) (left : Bool) :
    ∃ a x b, tree = join left a x b := by
  cases tree with
  | nil => exact absurd rfl h
  | node l x r =>
    cases left with
    | true => exact ⟨l, x, r, rfl⟩
    | false => exact ⟨r, x, l, rfl⟩

/-- The offsets of a subtree and of the path above it are different, and none is zero. -/
structure Apart (tree : BinTree Label) (fs : List (Frame Label)) : Prop where
  nodup : (offsets tree ++ pathOffsets fs).Nodup
  nonzero : 0 ∉ offsets tree ++ pathOffsets fs

theorem Apart.perm {tree tree' : BinTree Label} {fs fs' : List (Frame Label)} (h : Apart tree fs)
    (hperm : (offsets tree' ++ pathOffsets fs').Perm (offsets tree ++ pathOffsets fs)) :
    Apart tree' fs' :=
  ⟨hperm.nodup_iff.mpr h.nodup, fun hmem => h.nonzero (hperm.mem_iff.mp hmem)⟩

/-- The frame of a subtree on a side. -/
def frame (left : Bool) (x : Label) (s : BinTree Label) : Frame Label :=
  ⟨if left then .left else .right, x, s⟩

theorem isLeft_frame (left : Bool) (x : Label) (s : BinTree Label) :
    Side.isLeft (frame left x s).side = left := by
  cases left with
  | true => rfl
  | false => rfl

theorem attach_frame (left : Bool) (x : Label) (s tree : BinTree Label) :
    (frame left x s).attach tree = join left tree x s := by
  rw [attach_eq_join, isLeft_frame]
  rfl

theorem Apart.down {left : Bool} {tree s : BinTree Label} {x : Label} {fs : List (Frame Label)}
    (h : Apart (join left tree x s) fs) : Apart tree (frame left x s :: fs) := by
  refine h.perm ?_
  have hplug := (offsets_plug tree (frame left x s :: fs)).symm
  rw [plug, attach_frame] at hplug
  exact hplug.trans (offsets_plug _ fs)

/-- The records hold the tree at a place, and the path above. -/
structure Placed (st : Table V) (tree : BinTree Label) (fs : List (Frame Label)) : Prop where
  rep : Rep st.nodes (parentOf fs) tree
  path : Path st.nodes (top tree) fs
  root : st.root = rootOf (top tree) fs

/-- A rotation of records rotates the tree. -/
theorem rotate_spin (h : Stored backing st) {left : Bool} {x : Label} {a far : BinTree Label}
    {fs : List (Frame Label)}
    {height : ℕ} (hholds : Holds st.nodes left x (top a) (top far) (parentOf fs) height)
    (hlow : 1 ≤ height)
    (hhigh : height ≤ 128) (ha : Rep st.nodes x.1 a) (hfar : Rep st.nodes x.1 far)
    (hnil : far ≠ nil)
    (hpath : Path st.nodes x.1 fs) (hroot : st.root = rootOf x.1 fs)
    (hapart : Apart (join left a x far) fs)
    (hsa : a.height ≤ 126) (hsfar : far.height ≤ 127) :
    ∃ t, rotate backing x.1 left st = (.ok (top far), t) ∧ Same st t ∧
      Placed t (spin left (join left a x far)) fs := by
  obtain ⟨b, y, c, rfl⟩ := exists_join hnil left
  obtain ⟨hy, hb, hc⟩ := rep_join.mp hfar
  rw [height_join] at hsfar
  have hperm : (offsets (join left a x (join left b y c)) ++ pathOffsets fs).Perm
      (x.1 :: y.1 :: (offsets a ++ (offsets b ++ (offsets c ++ pathOffsets fs)))) := by
    have hinner := offsets_join left b c y
    refine ((offsets_join left a _ x).append_right _).trans ?_
    simp only [List.cons_append, List.append_assoc]
    refine List.Perm.cons _ ((List.Perm.append_left _ (hinner.append_right _)).trans ?_)
    simp only [List.cons_append, List.append_assoc]
    exact List.perm_middle
  rw [top_join] at hholds
  obtain ⟨t, hrun, hsame, hrep, hpath', hroot'⟩ :=
    rotate_eq h hholds hlow hhigh hy (by omega) (by omega) ha hb hc
    hpath hroot (hperm.nodup_iff.mp hapart.nodup) (fun hz => hapart.nonzero (hperm.mem_iff.mpr hz))
      hsa (by omega)
    (by omega)
  rw [top_join, spin_join]
  refine ⟨t, hrun, hsame, hrep, ?_, ?_⟩
  · rw [top_join]
    exact hpath'
  · rw [top_join]
    exact hroot'

/-- The tree at a node after the first of two rotations. -/
def upright (left : Bool) (a : BinTree Label) (y : Label) (b : BinTree Label) : BinTree Label :=
  if a.height < b.height then spin left (join left a y b) else join left a y b

/-- The child is upright before a rotation. -/
theorem straighten_eq (h : Stored backing st) {left : Bool} {y : Label} {a b : BinTree Label}
    {fs : List (Frame Label)}
    (hplaced : Placed st (join left a y b) fs) (hapart : Apart (join left a y b) fs)
    (hsa : a.height ≤ 126)
    (hsb : b.height ≤ 126) :
    ∃ t, straighten backing y.1 left st = (.ok (), t) ∧ Same st t ∧
      Placed t (upright left a y b) fs := by
  obtain ⟨hy, ha, hb⟩ := rep_join.mp hplaced.rep
  have hpath := hplaced.path
  have hroot := hplaced.root
  rw [top_join] at hpath hroot
  have hza : 0 ∉ offsets a :=
    fun hz => hapart.nonzero (List.mem_append_left _ (mem_offsets_join.mpr (.inr (.inl hz))))
  have hzb : 0 ∉ offsets b :=
    fun hz => hapart.nonzero (List.mem_append_left _ (mem_offsets_join.mpr (.inr (.inr hz))))
  have hheightA := height_eq h ha hza (by omega)
  have hheightB := height_eq h hb hzb (by omega)
  have hy' := hy
  obtain ⟨found, hat, -, hnear, hfar, -, hheight⟩ := hy'
  have hlinks := links_eq h hat (by omega) (by omega)
  -- the child leans to the far side exactly where the far subtree is the higher one
  have hlean : ∃ lean : ℤ, balance backing found.links st = (.ok lean, st) ∧
      ((if left then lean < 0 else lean > 0) ↔ a.height < b.height) := by
    cases left with
    | true =>
      refine ⟨_, balance_eq ((congrArg (height backing · st) hnear).trans hheightA)
        ((congrArg (height backing · st) hfar).trans hheightB), ?_⟩
      simp only [if_true]
      omega
    | false =>
      refine ⟨_, balance_eq ((congrArg (height backing · st) hfar).trans hheightB)
        ((congrArg (height backing · st) hnear).trans hheightA), ?_⟩
      simp only [Bool.false_eq_true, if_false]
      omega
  obtain ⟨lean, hbalance, hiff⟩ := hlean
  unfold straighten upright
  rw [Command.bind_ok hlinks, Command.bind_ok hbalance, Command.when]
  by_cases hless : a.height < b.height
  · have hnil : b ≠ nil := by
      rintro rfl
      exact absurd hless (by simp)
    obtain ⟨t, hrun, hsame, hplaced'⟩ :=
      rotate_spin h hy (by omega) (by omega) ha hb hnil hpath hroot hapart hsa
      (by omega)
    rw [if_pos (hiff.mpr hless), if_pos hless, Command.bind_ok hrun]
    exact ⟨t, rfl, hsame, hplaced'⟩
  · rw [if_neg (fun hc => hless (hiff.mp hc)), if_neg hless]
    exact ⟨st, rfl, Same.refl st, hplaced⟩

theorem height_upright_le (left : Bool) (a b : BinTree Label) (y : Label) :
    (upright left a y b).height ≤ (join left a y b).height + 1 := by
  unfold upright
  split
  · next hless =>
    have hnil : b ≠ nil := by
      rintro rfl
      exact absurd hless (by simp)
    obtain ⟨c, z, d, rfl⟩ := exists_join hnil left
    rw [spin_join]
    simp only [height_join]
    omega
  · omega

theorem upright_perm (left : Bool) (a b : BinTree Label) (y : Label) :
    offsets (upright left a y b) = offsets (join left a y b) := by
  unfold upright
  split
  · unfold spin offsets
    split
    · rw [inorder_rotateLeft]
    · rw [inorder_rotateRight]
  · rfl

theorem upright_ne_nil (left : Bool) (a b : BinTree Label) (y : Label) :
    upright left a y b ≠ nil := by
  intro hnil
  have hmem : y.1 ∈ offsets (upright left a y b) := by
    rw [upright_perm]
    exact mem_offsets_join.mpr (.inl rfl)
  rw [hnil] at hmem
  cases hmem

/-- The higher side comes up. -/
theorem lower_eq (h : Stored backing st) (left : Bool) {x y : Label} {a b s : BinTree Label}
    {fs : List (Frame Label)}
    (hplaced : Placed st (join left (join left a y b) x s) fs)
    (hapart : Apart (join left (join left a y b) x s) fs)
    (hsc : (join left a y b).height ≤ 125) (hss : s.height ≤ 125) :
    ∃ t, (straighten backing y.1 left >>= fun _ => rotate backing x.1 (!left)) st =
        (.ok (top (upright left a y b)), t) ∧ Same st t ∧
      Placed t (spin (!left) (join left (upright left a y b) x s)) fs := by
  obtain ⟨hx, hc, hs⟩ := rep_join.mp hplaced.rep
  have hpath := hplaced.path
  have hroot := hplaced.root
  rw [top_join] at hpath hroot
  have hinner : Placed st (join left a y b) (frame left x s :: fs) := by
    refine ⟨hc, ⟨⟨1 + max (join left a y b).height s.height, ?_, ?_, ?_⟩, hs, hpath⟩, hroot⟩
    · omega
    · omega
    · rw [isLeft_frame]
      exact hx
  have hsc' := hsc
  rw [height_join] at hsc'
  obtain ⟨t, hrun, hsame, hplaced'⟩ := straighten_eq h hinner hapart.down (by omega) (by omega)
  obtain ⟨⟨height, hlow, hhigh, hx'⟩, hs', hpath'⟩ := hplaced'.path
  rw [isLeft_frame] at hx'
  change Holds t.nodes left x (top (upright left a y b)) (top s) (parentOf fs) height at hx'
  change Rep t.nodes x.1 s at hs'
  have hup := height_upright_le left a b y
  have hapart' : Apart (join (!left) s x (upright left a y b)) fs := by
    refine hapart.perm (List.Perm.append_right _ ?_)
    rw [join_not]
    refine (offsets_join ..).trans ?_
    rw [upright_perm]
    exact (offsets_join ..).symm
  obtain ⟨u, hrun', hsame', hplaced''⟩ :=
    rotate_spin (h.same hsame) hx'.flip hlow hhigh hs' hplaced'.rep
    (upright_ne_nil left a b y) hpath' hplaced'.root hapart' (by omega) (by omega)
  rw [join_not] at hplaced''
  exact ⟨u, by rw [Command.bind_ok hrun]; exact hrun', hsame.trans hsame', hplaced''⟩

theorem top_spin_upright (left : Bool) (a b s : BinTree Label) (x y : Label) :
    top (spin (!left) (join left (upright left a y b) x s)) = top (upright left a y b) := by
  obtain ⟨c, z, d, heq⟩ := exists_join (upright_ne_nil left a b y) (!left)
  rw [heq, ← join_not, spin_join, top_join, top_join]

theorem settle_join (left : Bool) {a b s : BinTree Label} {x y : Label}
    (h : s.height + 1 < (join left a y b).height) :
    settle (join left (join left a y b) x s)
      = spin (!left) (join left (upright left a y b) x s) := by
  have hother : ¬ (join left a y b).height + 1 < s.height := by omega
  cases left with
  | true =>
    change s.height + 1 < (node a y b).height at h
    change settle (node (node a y b) x s) = _
    rw [settle, if_pos h]
    unfold upright leansRight
    by_cases hless : a.height < b.height
    · simp [hless, spin, join]
    · simp [hless, spin, join]
  | false =>
    change s.height + 1 < (node b y a).height at h
    change ¬ (node b y a).height + 1 < s.height at hother
    change settle (node s x (node b y a)) = _
    rw [settle, if_neg hother, if_pos h]
    unfold upright leansLeft
    by_cases hless : a.height < b.height
    · simp [hless, spin, join]
    · simp [hless, spin, join]

/-- One row is balanced. -/
theorem settleAt_eq (h : Stored backing st) {x : Label} {l r : BinTree Label}
    {fs : List (Frame Label)} {height : ℕ}
    (hx : Holds st.nodes true x (top l) (top r) (parentOf fs) height) (hlow : 1 ≤ height)
    (hhigh : height ≤ 128)
    (hl : Rep st.nodes x.1 l) (hr : Rep st.nodes x.1 r) (hpath : Path st.nodes x.1 fs)
    (hroot : st.root = rootOf x.1 fs)
    (hapart : Apart (node l x r) fs) (hsl : l.height ≤ 125) (hsr : r.height ≤ 125) :
    ∃ t, settleAt backing x.1 st = (.ok (top (settle (node l x r))), t) ∧ Same st t ∧
      Placed t (settle (node l x r)) fs := by
  obtain ⟨found, hat, hkey, hnear, hfar, hparent, hheight⟩ := hx
  have hnodup : (x.1 :: offsets l ++ offsets r ++ pathOffsets fs).Nodup :=
    ((offsets_join true l r x).append_right _).nodup_iff.mp hapart.nodup
  have hzero : 0 ∉ x.1 :: offsets l ++ offsets r ++ pathOffsets fs := fun hz =>
    hapart.nonzero (((offsets_join true l r x).append_right _).mem_iff.mpr hz)
  simp only [List.cons_append, List.append_assoc, List.nodup_cons, List.mem_cons, List.mem_append,
    not_or] at hnodup hzero
  obtain ⟨⟨hxl, hxr, hxp⟩, -⟩ := hnodup
  obtain ⟨hzx, hzl, hzr, hzp⟩ := hzero
  obtain ⟨row, t, hrefresh, hput, hsame, hrep, hroot', hframe, hrowL, hrowR⟩ :=
    putBack_eq h found.links hat hkey hnear hfar hparent rfl rfl hl hr hxl hxr hzl hzr
      (by omega) (by omega)
  have hstored := h.same hsame
  have hplaced : Placed t (node l x r) fs := by
    refine ⟨hrep, hpath.congr fun o ho => hframe o ?_, hroot'.trans hroot⟩
    rintro rfl
    exact hxp ho
  have hheightL := height_eq hstored hrep.2.1 hzl (by omega)
  have hheightR := height_eq hstored hrep.2.2 hzr (by omega)
  have hleft : row.left = top l := hrowL.trans hnear
  have hright : row.right = top r := hrowR.trans hfar
  have hbalance := balance_eq ((congrArg (DiskTable.height backing · t) hleft).trans hheightL)
    ((congrArg (DiskTable.height backing · t) hright).trans hheightR)
  unfold settleAt
  rw [Command.bind_ok (links_eq h hat (by omega) (by omega)), Command.bind_ok hrefresh,
    Command.bind_ok hput,
    Command.bind_ok hbalance]
  by_cases hmore : r.height + 1 < l.height
  · have hnil : l ≠ nil := by
      rintro rfl
      exact absurd hmore (by simp)
    obtain ⟨a, y, b, rfl⟩ := exists_join hnil true
    obtain ⟨u, hrun, hsame', hplaced'⟩ := lower_eq hstored true hplaced hapart hsl hsr
    have hsettle : settle (node (join true a y b) x r) = _ := settle_join true hmore
    rw [if_pos (by omega), hleft, top_join, hsettle, top_spin_upright]
    exact ⟨u, hrun, hsame.trans hsame', hplaced'⟩
  · rw [if_neg (by omega)]
    by_cases hless : l.height + 1 < r.height
    · have hnil : r ≠ nil := by
        rintro rfl
        exact absurd hless (by simp)
      obtain ⟨a, y, b, rfl⟩ := exists_join hnil false
      obtain ⟨u, hrun, hsame', hplaced'⟩ := lower_eq hstored false hplaced hapart hsr hsl
      have hsettle : settle (node l x (join false a y b)) = _ := settle_join false hless
      rw [if_pos (by omega), hright, top_join, hsettle, top_spin_upright]
      exact ⟨u, hrun, hsame.trans hsame', hplaced'⟩
    · rw [if_neg (by omega), settle, if_neg hmore, if_neg hless]
      exact ⟨t, rfl, hsame, hplaced⟩

theorem settleFrame_eq (h : Stored backing st) {f : Frame Label} {tree : BinTree Label}
    {fs : List (Frame Label)}
    (hplaced : Placed st tree (f :: fs)) (hapart : Apart tree (f :: fs)) (hst : tree.height ≤ 125)
    (hss : f.sibling.height ≤ 125) :
    ∃ t, settleAt backing f.label.1 st = (.ok (top (settle (f.attach tree))), t) ∧ Same st t ∧
      Placed t (settle (f.attach tree)) fs := by
  have hapart' : Apart (f.attach tree) fs :=
    hapart.perm ((offsets_plug _ fs).symm.trans (offsets_plug tree (f :: fs)))
  obtain ⟨⟨height, hlow, hhigh, hf⟩, hs, hpath⟩ := hplaced.path
  have hroot : st.root = rootOf f.label.1 fs := hplaced.root
  have hrep := hplaced.rep
  obtain ⟨side, x, s⟩ := f
  cases side with
  | left => exact settleAt_eq h hf hlow hhigh hrep hs hpath hroot hapart' hst hss
  | right => exact settleAt_eq h hf.flip hlow hhigh hs hrep hpath hroot hapart' hss hst

theorem height_le_of_length {tree : BinTree Label} (h : tree.Balanced)
    (hsmall : (offsets tree).length < 2 ^ 61) :
    tree.height ≤ 123 := by
  have hpow := two_pow_le h
  rw [offsets, List.length_map] at hsmall
  by_contra hmore
  have hle : 2 ^ 62 ≤ 2 ^ (tree.height / 2) := Nat.pow_le_pow_right (by decide) (by omega)
  omega

theorem settle_ne_nil {tree : BinTree Label} (h : tree ≠ nil) : settle tree ≠ nil := by
  intro hnil
  have hinorder := inorder_settle tree
  rw [hnil] at hinorder
  cases tree with
  | nil => exact h rfl
  | node l x r => simp at hinorder

theorem attach_ne_nil (f : Frame Label) (tree : BinTree Label) : f.attach tree ≠ nil := by
  obtain ⟨side, x, s⟩ := f
  cases side with
  | left => simp [Frame.attach]
  | right => simp [Frame.attach]

/-- The loop settles every node on the path; the trees on the way are low enough for the height
field. -/
theorem rebalance_eq {h : ℕ} {tree : BinTree Label} {fs : List (Frame Label)}
    (hstored : Stored backing st)
    (hplaced : Placed st tree fs) (hapart : Apart tree fs) (htree : tree.Balanced)
    (hlow : h ≤ tree.height)
    (hhigh : tree.height ≤ h + 1) (hspine : Spine h fs)
    (hsmall : (offsets tree ++ pathOffsets fs).length < 2 ^ 61)
    {turns : ℕ} (hturns : fs.length < turns) :
    ∃ t, rebalance backing turns (parentOf fs) st = (.ok (), t) ∧ Same st t ∧
      Placed t (climb tree fs) [] := by
  induction fs generalizing st tree h turns with
  | nil =>
    obtain ⟨turns, rfl⟩ : ∃ k, turns = k + 1 := ⟨turns - 1, by omega⟩
    exact ⟨st, rfl, Same.refl st, hplaced⟩
  | cons f fs ih =>
    obtain ⟨turns, rfl⟩ : ∃ k, turns = k + 1 := ⟨turns - 1, by omega⟩
    obtain ⟨hs, hts, hst, hrest⟩ := hspine
    have hperm : (offsets (settle (f.attach tree)) ++ pathOffsets fs).Perm
        (offsets tree ++ pathOffsets (f :: fs)) := by
      have hsame : offsets (settle (f.attach tree)) = offsets (f.attach tree) := by
        rw [offsets, inorder_settle, offsets]
      rw [hsame]
      exact (offsets_plug _ fs).symm.trans (offsets_plug tree (f :: fs))
    have hlength := hsmall
    rw [pathOffsets, List.length_append, List.length_append, List.length_cons] at hlength
    have hheightT := height_le_of_length htree (by omega)
    have hheightS := height_le_of_length hs (by omega)
    have hne : f.label.1 ≠ 0 := by
      intro hz
      apply hapart.nonzero
      rw [← hz]
      exact List.mem_append_right _ List.mem_cons_self
    obtain ⟨t, hrun, hsame, hplaced'⟩ := settleFrame_eq hstored hplaced hapart (by omega) (by omega)
    obtain ⟨hbalanced, hge, hle⟩ := settle_attach htree hs hlow hhigh hts hst
    -- the node that is on top now has the parent the loop goes on with
    obtain ⟨l, x, r, htop⟩ := exists_join (settle_ne_nil (attach_ne_nil f tree)) true
    have hlinks : ∃ row, links backing (top (settle (f.attach tree))) t = (.ok row, t) ∧ row.parent
        = parentOf fs := by
      have hrep := hplaced'.rep
      rw [htop] at hrep ⊢
      obtain ⟨⟨found, hat, -, -, -, hparent, hheight⟩, -, -⟩ := rep_join.mp hrep
      rw [htop, height_join] at hle
      rw [top_join]
      exact ⟨found.links, links_eq (hstored.same hsame) hat (by omega) (by omega), hparent⟩
    obtain ⟨row, hrow, hparent⟩ := hlinks
    obtain ⟨u, hrun', hsame', hplaced''⟩ :=
      ih (hstored.same hsame) hplaced' (hapart.perm hperm) hbalanced hge hle hrest
      (hperm.length_eq ▸ hsmall) (Nat.lt_of_succ_lt_succ hturns)
    refine ⟨u, ?_, hsame.trans hsame', hplaced''⟩
    rw [rebalance, parentOf, if_neg hne, Command.bind_ok hrun, Command.bind_ok hrow, hparent]
    exact hrun'

end PineForge.DiskTable
