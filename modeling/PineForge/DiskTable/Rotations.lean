import Mathlib
import PineForge.DiskTable.Shape

/-!
# Rotations of the links

A rotation rewrites up to four records, each read again before it is written. What is left is the
rotated tree, with the heights recomputed, and everything else of the records as it was.
-/

namespace PineForge.DiskTable

open Avl Avl.BinTree

variable {V : Type} {backing : Backing} {st : Table V}

namespace Links

theorem child_withChild (row : Links) (left : Bool) (child : ℕ) :
    (row.withChild left child).child left = child := by
  cases left with
  | true => rfl
  | false => rfl

theorem child_withChild_not (row : Links) (left : Bool) (child : ℕ) :
    (row.withChild left child).child (!left) = row.child (!left) := by
  cases left with
  | true => rfl
  | false => rfl

theorem child_parent (row : Links) (left : Bool) (parent : ℕ) :
    Links.child { row with parent := parent } left = row.child left := by
  cases left with
  | true => rfl
  | false => rfl

theorem withChild_not_child (row : Links) (left : Bool) (child : ℕ) :
    (row.withChild (!left) child).child left = row.child left := by
  cases left with
  | true => rfl
  | false => rfl

theorem withChild_rest (row : Links) (left : Bool) (child : ℕ) :
    (row.withChild left child).parent = row.parent ∧ (row.withChild left child).height
    = row.height ∧
      (row.withChild left child).next = row.next ∧ (row.withChild left child).keySize
        = row.keySize := by
  cases left with
  | true => exact ⟨rfl, rfl, rfl, rfl⟩
  | false => exact ⟨rfl, rfl, rfl, rfl⟩

end Links

theorem rootOf_cons (hole hole' : ℕ) (f : Frame Label) (fs : List (Frame Label)) :
    rootOf hole (f :: fs) = rootOf hole' (f :: fs) := rfl

/-- A parent is linked to a new child. -/
theorem linkParent_eq (h : Stored backing st) {fs : List (Frame Label)} {hole : ℕ} (new : ℕ)
    (hpath : Path st.nodes hole fs) (hroot : st.root = rootOf hole fs)
    (hnodup : (pathOffsets fs).Nodup)
    (hzero : 0 ∉ pathOffsets fs) :
    ∃ t, linkParent backing (parentOf fs) new (sideOf fs) st = (.ok (), t) ∧ Same st t ∧
      Path t.nodes new fs ∧
      t.root = rootOf new fs ∧ ∀ o, o ∉ pathOffsets fs → t.nodes o = st.nodes o := by
  cases fs with
  | nil => exact ⟨st.withRoot new, rfl, ⟨rfl, rfl, rfl, rfl, fun _ => rfl⟩, trivial, rfl,
    fun _ _ => rfl⟩
  | cons f fs =>
    obtain ⟨⟨height, hlow, hhigh, found, hat, hkey, hnear, hfar, hparent, hheight⟩, hsibling,
        hrest⟩ := hpath
    rw [pathOffsets, List.cons_append, List.nodup_cons, List.mem_append, not_or] at hnodup
    obtain ⟨⟨hnotSibling, hnotRest⟩, -⟩ := hnodup
    have hne : f.label.1 ≠ 0 := by
      intro hz
      apply hzero
      rw [← hz]
      exact List.mem_cons_self
    obtain ⟨hparent', hheight', hnext', hsize'⟩ :=
      Links.withChild_rest found.links (Side.isLeft f.side) new
    refine ⟨withLinks st f.label.1 (found.links.withChild (Side.isLeft f.side) new), ?_,
      same_withLinks hat hnext' hsize',
      ⟨⟨height, hlow, hhigh, _, withLinks_at hat _, hkey, ?_, ?_, ?_, ?_⟩, ?_, ?_⟩,
        hroot.trans (rootOf_cons ..), ?_⟩
    · unfold linkParent
      rw [parentOf, if_pos hne, Command.bind_ok (links_eq h hat (by omega) (by omega))]
      exact putLinks_eq hat _
    · exact Links.child_withChild ..
    · exact (Links.child_withChild_not ..).trans hfar
    · exact hparent'.trans hparent
    · exact hheight'.trans hheight
    · exact hsibling.congr fun o ho => withLinks_of_ne (by rintro rfl; exact hnotSibling ho) _
    · exact hrest.congr fun o ho => withLinks_of_ne (by rintro rfl; exact hnotRest ho) _
    · intro o ho
      exact withLinks_of_ne (by rintro rfl; exact ho List.mem_cons_self) _

/-- Relinking is linking on the same side. -/
theorem relinkParent_eq_linkParent (h : Stored backing st) {fs : List (Frame Label)}
    {hole : ℕ} (new : ℕ)
    (hpath : Path st.nodes hole fs) (hhole : hole ≠ 0) (hfresh : hole ∉ pathOffsets fs) :
    relinkParent backing (parentOf fs) hole new st
      = linkParent backing (parentOf fs) new (sideOf fs) st := by
  cases fs with
  | nil => rfl
  | cons f fs =>
    obtain ⟨⟨height, hlow, hhigh, found, hat, -, hnear, hfar, -, hheight⟩, -, -⟩ := hpath
    have hside : decide (found.links.left = hole) = Side.isLeft f.side := by
      cases hs : f.side with
      | left =>
        rw [hs] at hnear
        exact decide_eq_true hnear
      | right =>
        rw [hs] at hfar
        apply decide_eq_false
        intro heq
        have htop : top f.sibling = hole := hfar.symm.trans heq
        by_cases hnil : f.sibling = nil
        · rw [hnil] at htop
          exact hhole htop.symm
        · apply hfresh
          rw [← htop]
          exact List.mem_cons_of_mem _ (List.mem_append_left _ (top_mem hnil))
    unfold relinkParent linkParent
    rw [parentOf]
    split
    · rw [Command.bind_ok (links_eq h hat (by omega) (by omega)),
        Command.bind_ok (links_eq h hat (by omega) (by omega)),
        hside]
      rfl
    · rfl

theorem relinkMiddle_eq (h : Stored backing st) {b : BinTree Label} {y : ℕ} (x : ℕ)
    (hrep : Rep st.nodes y b)
    (hnodup : (offsets b).Nodup) (hzero : 0 ∉ offsets b) (hsmall : b.height ≤ 128) :
    ∃ t, relinkMiddle backing (top b) x st = (.ok (), t) ∧ Same st t ∧ Rep t.nodes x b ∧
      t.root = st.root ∧
      ∀ o, o ∉ offsets b → t.nodes o = st.nodes o := by
  cases b with
  | nil => exact ⟨st, rfl, Same.refl st, trivial, rfl, fun _ _ => rfl⟩
  | node l z r =>
    obtain ⟨⟨found, hat, hkey, hnear, hfar, hparent, hheight⟩, hl, hr⟩ := hrep
    have hperm := offsets_join true l r z
    have hz : z.1 ∈ offsets (node l z r) :=
      (mem_offsets_join.mpr (.inl rfl) : z.1 ∈ offsets (join true l z r))
    have hnodup' : (z.1 :: offsets l ++ offsets r).Nodup := hperm.nodup_iff.mp hnodup
    rw [List.cons_append, List.nodup_cons, List.mem_append, not_or] at hnodup'
    obtain ⟨⟨hnotL, hnotR⟩, -⟩ := hnodup'
    have hne : z.1 ≠ 0 := by
      intro hzz
      rw [hzz] at hz
      exact hzero hz
    rw [height_node] at hsmall
    refine ⟨withLinks st z.1 { found.links with parent := x }, ?_, same_withLinks hat rfl rfl,
      ⟨⟨_, withLinks_at hat _, hkey, hnear, hfar, rfl, hheight⟩, ?_, ?_⟩, rfl, fun o ho => ?_⟩
    · unfold relinkMiddle
      rw [top, if_pos hne, Command.bind_ok (links_eq h hat (by omega) (by omega))]
      exact putLinks_eq hat _
    · exact hl.congr fun o ho => withLinks_of_ne (by rintro rfl; exact hnotL ho) _
    · exact hr.congr fun o ho => withLinks_of_ne (by rintro rfl; exact hnotR ho) _
    · exact withLinks_of_ne (by rintro rfl; exact ho hz) _

theorem refresh_eq {row : Links} (left : Bool) {near far : ℕ}
    (hnear : height backing (row.child left) st = (.ok near, st))
    (hfar : height backing (row.child (!left)) st = (.ok far, st)) :
    refresh backing row st = (.ok { row with height := 1 + max near far }, st) := by
  unfold refresh
  cases left with
  | true =>
    change height backing row.left st = _ at hnear
    change height backing row.right st = _ at hfar
    rw [Command.bind_ok hnear, Command.bind_ok hfar]
    rfl
  | false =>
    change height backing row.right st = _ at hnear
    change height backing row.left st = _ at hfar
    rw [Command.bind_ok hfar, Command.bind_ok hnear, Nat.max_comm]
    rfl

theorem balance_eq {row : Links} {left right : ℕ}
    (hleft : height backing row.left st = (.ok left, st))
    (hright : height backing row.right st = (.ok right, st)) :
    balance backing row st = (.ok ((left : ℤ) - (right : ℤ)), st) := by
  unfold balance
  rw [Command.bind_ok hleft, Command.bind_ok hright]
  rfl

/-- A node written back over its two subtrees, with the height they give. -/
theorem putBack_eq (h : Stored backing st) {left : Bool} {x : Label} {a b : BinTree Label} {p : ℕ}
    (row : Links)
    {found : Record V} (hat : st.nodes x.1 = some found) (hkey : found.key = x.2)
    (hnear : row.child left = top a)
    (hfar : row.child (!left) = top b) (hparent : row.parent = p)
    (hnext : row.next = found.links.next)
    (hsize : row.keySize = found.links.keySize) (ha : Rep st.nodes x.1 a) (hb : Rep st.nodes x.1 b)
    (hxa : x.1 ∉ offsets a) (hxb : x.1 ∉ offsets b) (hza : 0 ∉ offsets a) (hzb : 0 ∉ offsets b)
    (hsa : a.height ≤ 128) (hsb : b.height ≤ 128) :
    ∃ row' t, refresh backing row st = (.ok row', st) ∧ putLinks x.1 row' st
      = (.ok (), t) ∧ Same st t ∧
      Rep t.nodes p (join left a x b) ∧ t.root = st.root ∧ (∀ o, o ≠ x.1 → t.nodes o = st.nodes o) ∧
      row'.left = row.left ∧ row'.right = row.right := by
  have hrefresh := refresh_eq left ((congrArg (height backing · st) hnear).trans
    (height_eq h ha hza hsa))
    ((congrArg (height backing · st) hfar).trans (height_eq h hb hzb hsb))
  refine ⟨_, _, hrefresh, putLinks_eq hat _, same_withLinks hat hnext hsize,
    rep_join.mpr ⟨?_, ?_, ?_⟩, rfl,
    fun o ho => withLinks_of_ne ho _, rfl, rfl⟩
  · refine ⟨_, withLinks_at hat _, hkey, ?_, ?_, hparent, rfl⟩
    · rw [← hnear]
      cases left with
      | true => rfl
      | false => rfl
    · rw [← hfar]
      cases left with
      | true => rfl
      | false => rfl
  · exact ha.congr fun o ho => withLinks_of_ne (by rintro rfl; exact hxa ho) _
  · exact hb.congr fun o ho => withLinks_of_ne (by rintro rfl; exact hxb ho) _

/-- A rotation at `x`, with `y` the child that comes up. -/
theorem rotate_eq (h : Stored backing st) {left : Bool} {x y : Label} {a b c : BinTree Label}
    {fs : List (Frame Label)} {hx hy : ℕ}
    (hholdX : Holds st.nodes left x (top a) y.1 (parentOf fs) hx) (hx1 : 1 ≤ hx) (hx2 : hx ≤ 128)
    (hholdY : Holds st.nodes left y (top b) (top c) x.1 hy) (hy1 : 1 ≤ hy) (hy2 : hy ≤ 128)
    (ha : Rep st.nodes x.1 a) (hb : Rep st.nodes y.1 b) (hc : Rep st.nodes y.1 c)
    (hpath : Path st.nodes x.1 fs) (hroot : st.root = rootOf x.1 fs)
    (hnodup : (x.1 :: y.1 :: (offsets a ++ (offsets b ++ (offsets c ++ pathOffsets fs)))).Nodup)
    (hzero : 0 ∉ x.1 :: y.1 :: (offsets a ++ (offsets b ++ (offsets c ++ pathOffsets fs))))
    (hsa : a.height ≤ 126) (hsb : b.height ≤ 126) (hsc : c.height ≤ 126) :
    ∃ t, rotate backing x.1 left st = (.ok y.1, t) ∧ Same st t ∧
      Rep t.nodes (parentOf fs) (join left (join left a x b) y c) ∧ Path t.nodes y.1 fs ∧
        t.root = rootOf y.1 fs := by
  simp only [List.nodup_cons, List.nodup_append', List.mem_cons, List.mem_append, not_or,
    List.disjoint_append_right] at hnodup hzero
  obtain ⟨⟨hxy, hxa, hxb, hxc, hxp⟩, ⟨hya, hyb, hyc, hyp⟩, hna, ⟨hnb, ⟨hnc, hnp, hcp⟩, hbc, hbp⟩,
      hab, hac, hap⟩ := hnodup
  obtain ⟨hzx, hzy, hza, hzb, hzc, hzp⟩ := hzero
  obtain ⟨old, hatX, hkeyX, hnearX, hfarX, hparentX, hheightX⟩ := hholdX
  obtain ⟨up, hatY, hkeyY, hnearY, hfarY, hparentY, hheightY⟩ := hholdY
  have hlinksX := links_eq h hatX (by omega) (by omega)
  have hlinksY := links_eq h hatY (by omega) (by omega)
  -- the parent and the middle subtree are written first, by reads of their own
  obtain ⟨t1, hrun1, hsame1, hpath1, hroot1, hframe1⟩ :=
    linkParent_eq h y.1 hpath hroot hnp hzp
  rw [← relinkParent_eq_linkParent h y.1 hpath (Ne.symm hzx) hxp] at hrun1
  have hstored1 := h.same hsame1
  have hb1 : Rep t1.nodes y.1 b := hb.congr fun o ho => hframe1 o (hbp ho)
  obtain ⟨t2, hrun2, hsame2, hb2, hroot2, hframe2⟩ :=
    relinkMiddle_eq hstored1 x.1 hb1 hnb hzb (by omega)
  have hstored2 := hstored1.same hsame2
  have hframe : ∀ o, o ∉ pathOffsets fs → o ∉ offsets b → t2.nodes o = st.nodes o :=
    fun o hp hb => (hframe2 o hb).trans (hframe1 o hp)
  have ha2 : Rep t2.nodes x.1 a := ha.congr fun o ho => hframe o (hap ho) (hab ho)
  have hc2 : Rep t2.nodes y.1 c := hc.congr fun o ho => hframe o (hcp ho) fun hb => hbc hb ho
  have hatX2 : t2.nodes x.1 = some old := (hframe _ hxp hxb).trans hatX
  have hatY2 : t2.nodes y.1 = some up := (hframe _ hyp hyb).trans hatY
  have hpath2 : Path t2.nodes y.1 fs := hpath1.congr fun o ho => hframe2 o fun hb => hbp hb ho
  -- the node that goes down, and the one that comes up
  obtain ⟨down, t3, hrefresh3, hput3, hsame3, hrep3, hroot3, hframe3, -, -⟩ :=
    putBack_eq hstored2 ({ old.links with parent := y.1 }.withChild (!left) (top b)) hatX2 hkeyX
      ((Links.withChild_not_child ..).trans ((Links.child_parent ..).trans hnearX))
        (Links.child_withChild ..) (Links.withChild_rest ..).1
      (Links.withChild_rest ..).2.2.1 (Links.withChild_rest ..).2.2.2 ha2 hb2 hxa hxb hza hzb
        (by omega) (by omega)
  have hstored3 := hstored2.same hsame3
  have hc3 : Rep t3.nodes y.1 c := hc2.congr fun o ho => hframe3 o (by rintro rfl; exact hxc ho)
  have hatY3 : t3.nodes y.1 = some up := (hframe3 _ (Ne.symm hxy)).trans hatY2
  have hyx : y.1 ∉ offsets (join left a x b) := by
    rw [mem_offsets_join, not_or, not_or]
    exact ⟨Ne.symm hxy, hya, hyb⟩
  have hzx' : 0 ∉ offsets (join left a x b) := by
    rw [mem_offsets_join, not_or, not_or]
    exact ⟨hzx, hza, hzb⟩
  have hsx : (join left a x b).height ≤ 128 := by
    rw [height_join]
    omega
  obtain ⟨up', t4, hrefresh4, hput4, hsame4, hrep4, hroot4, hframe4, -, -⟩ :=
    putBack_eq hstored3 ({ up.links with parent := parentOf fs }.withChild left x.1) hatY3 hkeyY
      ((Links.child_withChild ..).trans (top_join left a b x).symm)
        ((Links.child_withChild_not ..).trans ((Links.child_parent ..).trans hfarY))
      (Links.withChild_rest ..).1 (Links.withChild_rest ..).2.2.1 (Links.withChild_rest ..).2.2.2
        hrep3 hc3 hyx hyc
      hzx' hzc hsx (by omega)
  refine ⟨t4, ?_, ((hsame1.trans hsame2).trans hsame3).trans hsame4, hrep4, ?_, ?_⟩
  · unfold rotate
    rw [Command.bind_ok hlinksX]
    dsimp only
    rw [hfarX, Command.bind_ok hlinksY, hnearY, hparentX, Command.bind_ok hrun1,
      Command.bind_ok hrun2, Command.bind_ok hrefresh3,
      Command.bind_ok hput3, Command.bind_ok hrefresh4, Command.bind_ok hput4]
    rfl
  · refine (hpath2.congr fun o ho => hframe3 o ?_).congr fun o ho => hframe4 o ?_
    · rintro rfl
      exact hxp ho
    · rintro rfl
      exact hyp ho
  · rw [hroot4, hroot3, hroot2, hroot1]

end PineForge.DiskTable
