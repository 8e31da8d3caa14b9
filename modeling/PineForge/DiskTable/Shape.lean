import Mathlib
import PineForge.Machine.Avl
import PineForge.DiskTable.Table

/-!
# The tree behind the links

`Rep nodes parent t`: the records hold the tree `t` under the node `parent`, with parent links,
child links and heights as the tree has them. `Path nodes hole fs`: the records hold the frames
above the node `hole`; their heights may be old. Writes to other nodes keep both.
-/

namespace PineForge.DiskTable

open Avl Avl.BinTree

/-- A row's offset and key. -/
abbrev Label := ℕ × Key

/-- The records by offset. -/
abbrev Nodes (V : Type) := ℕ → Option (Record V)

variable {V : Type} {backing : Backing} {st t : Table V} {nodes : Nodes V}

/-- The offset of the root, zero for no tree. -/
def top : BinTree Label → ℕ
  | nil => 0
  | node _ x _ => x.1

/-- The offsets of a tree, in order. -/
def offsets (tree : BinTree Label) : List ℕ := tree.inorder.map Prod.fst

/-- The record of a node, with the children on a side and on the other one. -/
def Holds (nodes : Nodes V) (left : Bool) (x : Label) (near far parent height : ℕ) : Prop :=
  ∃ record, nodes x.1 = some record ∧ record.key = x.2 ∧ record.links.child left = near ∧
    record.links.child (!left) = far ∧ record.links.parent = parent ∧ record.links.height = height

/-- The records are the nodes of a tree. -/
def Rep (nodes : Nodes V) : ℕ → BinTree Label → Prop
  | _, nil => True
  | parent, node l x r => Holds nodes true x (top l) (top r) parent (1 + max l.height r.height) ∧
    Rep nodes x.1 l ∧ Rep nodes x.1 r

/-- The node nearest above, zero for none. -/
def parentOf : List (Frame Label) → ℕ
  | [] => 0
  | f :: _ => f.label.1

/-- The root of the whole tree, from the root of the subtree. -/
def rootOf : ℕ → List (Frame Label) → ℕ
  | hole, [] => hole
  | _, f :: fs => rootOf f.label.1 fs

/-- Whether a side is the left one. -/
def Side.isLeft : Side → Bool
  | .left => true
  | .right => false

/-- The side of the subtree under its nearest frame. -/
def sideOf : List (Frame Label) → Bool
  | [] => false
  | f :: _ => Side.isLeft f.side

/-- The records are the frames above a hole. -/
def Path (nodes : Nodes V) : ℕ → List (Frame Label) → Prop
  | _, [] => True
  | hole, f :: fs => (∃ height, 1 ≤ height ∧ height ≤ 128 ∧
      Holds nodes (Side.isLeft f.side) f.label hole (top f.sibling) (parentOf fs) height) ∧
    Rep nodes f.label.1 f.sibling ∧ Path nodes f.label.1 fs

/-- The offsets of the frames. -/
def pathOffsets : List (Frame Label) → List ℕ
  | [] => []
  | f :: fs => f.label.1 :: offsets f.sibling ++ pathOffsets fs

/-! ## Sides -/

/-- A tree with its subtrees on a side and on the other one. -/
def join (left : Bool) (near : BinTree Label) (x : Label) (far : BinTree Label) : BinTree Label :=
  if left then node near x far else node far x near

theorem Holds.flip {left : Bool} {x : Label} {near far parent height : ℕ}
    (h : Holds nodes left x near far parent height) :
    Holds nodes (!left) x far near parent height := by
  obtain ⟨record, hat, hkey, hnear, hfar, hparent, hheight⟩ := h
  refine ⟨record, hat, hkey, hfar, ?_, hparent, hheight⟩
  rw [Bool.not_not]
  exact hnear

theorem height_join (left : Bool) (a b : BinTree Label) (x : Label) :
    (join left a x b).height = 1 + max a.height b.height := by
  cases left with
  | true => rfl
  | false =>
    change 1 + max b.height a.height = _
    rw [Nat.max_comm]

theorem top_join (left : Bool) (a b : BinTree Label) (x : Label) : top (join left a x b) = x.1 := by
  cases left with
  | true => rfl
  | false => rfl

theorem rep_join {left : Bool} {a b : BinTree Label} {x : Label} {parent : ℕ} :
    Rep nodes parent (join left a x b) ↔
      Holds nodes left x (top a) (top b) parent (1 + max a.height b.height) ∧ Rep nodes x.1 a ∧
        Rep nodes x.1 b := by
  cases left with
  | true => exact Iff.rfl
  | false =>
    change Holds nodes true x (top b) (top a) parent (1 + max b.height a.height) ∧ Rep nodes x.1 b ∧
      Rep nodes x.1 a ↔ _
    rw [Nat.max_comm]
    constructor
    · rintro ⟨hx, hb, ha⟩
      exact ⟨hx.flip, ha, hb⟩
    · rintro ⟨hx, ha, hb⟩
      exact ⟨hx.flip, hb, ha⟩

theorem attach_eq_join (f : Frame Label) (tree : BinTree Label) :
    f.attach tree = join (Side.isLeft f.side) tree f.label f.sibling := by
  obtain ⟨side, x, s⟩ := f
  cases side with
  | left => rfl
  | right => rfl

theorem offsets_join (left : Bool) (a b : BinTree Label) (x : Label) :
    (offsets (join left a x b)).Perm (x.1 :: offsets a ++ offsets b) := by
  cases left with
  | true =>
    simp only [join, offsets, if_true, inorder_node, List.map_append, List.map_cons,
      List.cons_append]
    exact List.perm_middle
  | false =>
    simp only [join, offsets, Bool.false_eq_true, if_false, inorder_node, List.map_append,
      List.map_cons,
      List.cons_append]
    exact List.perm_middle.trans (List.perm_append_comm.cons _)

theorem mem_offsets_join {left : Bool} {a b : BinTree Label} {x : Label} {o : ℕ} :
    o ∈ offsets (join left a x b) ↔ o = x.1 ∨ o ∈ offsets a ∨ o ∈ offsets b := by
  rw [(offsets_join left a b x).mem_iff]
  simp

theorem top_mem {tree : BinTree Label} (h : tree ≠ nil) : top tree ∈ offsets tree := by
  cases tree with
  | nil => exact absurd rfl h
  | node l x r =>
    simp [top, offsets]

theorem offsets_plug (tree : BinTree Label) (fs : List (Frame Label)) :
    (offsets (plug tree fs)).Perm (offsets tree ++ pathOffsets fs) := by
  induction fs generalizing tree with
  | nil => simp [plug, pathOffsets]
  | cons f fs ih =>
    rw [plug, attach_eq_join]
    refine (ih _).trans ?_
    rw [pathOffsets, ← List.append_assoc]
    refine List.Perm.append_right _ ((offsets_join ..).trans ?_)
    simp only [List.cons_append]
    exact List.perm_middle.symm

/-! ## Frames of a write -/

theorem Holds.congr {nodes' : Nodes V} {left : Bool} {x : Label} {near far parent height : ℕ}
    (h : Holds nodes left x near far parent height) (hsame : nodes' x.1 = nodes x.1) :
    Holds nodes' left x near far parent height := by
  obtain ⟨record, hat, hrest⟩ := h
  exact ⟨record, hsame.trans hat, hrest⟩

theorem Rep.congr {nodes' : Nodes V} {tree : BinTree Label} {parent : ℕ} (h : Rep nodes parent tree)
    (hsame : ∀ o ∈ offsets tree, nodes' o = nodes o) : Rep nodes' parent tree := by
  induction tree generalizing parent with
  | nil => trivial
  | node l x r ihl ihr =>
    obtain ⟨hx, hl, hr⟩ := h
    have hmem : ∀ o, o = x.1 ∨ o ∈ offsets l ∨ o ∈ offsets r → nodes' o = nodes o := by
      intro o ho
      exact hsame o (show o ∈ offsets (join true l x r) from mem_offsets_join.mpr ho)
    exact ⟨hx.congr (hmem _ (.inl rfl)), ihl hl fun o ho => hmem o (.inr (.inl ho)),
      ihr hr fun o ho => hmem o (.inr (.inr ho))⟩

theorem Path.congr {nodes' : Nodes V} {fs : List (Frame Label)} {hole : ℕ} (h : Path nodes hole fs)
    (hsame : ∀ o ∈ pathOffsets fs, nodes' o = nodes o) : Path nodes' hole fs := by
  induction fs generalizing hole with
  | nil => trivial
  | cons f fs ih =>
    obtain ⟨⟨height, hlow, hhigh, hf⟩, hs, hrest⟩ := h
    refine ⟨⟨height, hlow, hhigh, hf.congr (hsame _ ?_)⟩, hs.congr fun o ho => hsame o ?_,
      ih hrest fun o ho => hsame o ?_⟩
    · exact List.mem_cons_self
    · exact List.mem_cons_of_mem _ (List.mem_append_left _ ho)
    · exact List.mem_cons_of_mem _ (List.mem_append_right _ ho)

/-! ## The rest of a record -/

/-- What a write of links to a node leaves: the insertion link, the key and the value. -/
def Record.rest (record : Record V) : ℕ × ℕ × V × Key :=
  (record.links.next, record.links.keySize, record.value, record.key)

/-- Only links of the tree changed. -/
structure Same (st t : Table V) : Prop where
  first : t.first = st.first
  last : t.last = st.last
  finish : t.finish = st.finish
  size : t.size = st.size
  rest : ∀ o, (t.nodes o).map Record.rest = (st.nodes o).map Record.rest

theorem Same.refl (st : Table V) : Same st st := ⟨rfl, rfl, rfl, rfl, fun _ => rfl⟩

theorem Same.trans {u : Table V} (h : Same st t) (h' : Same t u) : Same st u :=
  ⟨h'.first.trans h.first, h'.last.trans h.last, h'.finish.trans h.finish, h'.size.trans h.size,
    fun o => (h'.rest o).trans (h.rest o)⟩

/-- Every record fits the file. -/
structure Stored (backing : Backing) (st : Table V) : Prop where
  fits : ∀ o record, st.nodes o = some record → 0 < o ∧ record.links.keySize = record.key.length ∧
    o + backing.header + record.key.length ≤ st.finish
  bounded : st.finish ≤ offMax

theorem Stored.same (h : Stored backing st) (hsame : Same st t) : Stored backing t := by
  refine ⟨fun o record hat => ?_, hsame.finish ▸ h.bounded⟩
  have hrest := hsame.rest o
  rw [hat] at hrest
  cases hold : st.nodes o with
  | none =>
    rw [hold] at hrest
    cases hrest
  | some old =>
    rw [hold] at hrest
    have heq := Option.some.inj hrest
    have hkey : record.key = old.key := congrArg (fun p => p.2.2.2) heq
    have hsize : record.links.keySize = old.links.keySize := congrArg (fun p => p.2.1) heq
    obtain ⟨hpos, hlength, hfits⟩ := h.fits o old hold
    rw [hkey, hsize, hsame.finish]
    exact ⟨hpos, hlength, hfits⟩

/-! ## Reads -/

theorem validate_eq (h : Stored backing st) {o : ℕ} {record : Record V}
    (hat : st.nodes o = some record) :
    validate backing o st = (.ok (), st) := by
  obtain ⟨hpos, -, hfits⟩ := h.fits o record hat
  have hheader : 0 < backing.header := by
    unfold Backing.header linksBytes
    omega
  unfold validate
  rw [Command.get_bind_apply, failIf, if_neg (by omega)]
  rfl

theorem record_eq {o : ℕ} {found : Record V} (hat : st.nodes o = some found) :
    record o st = (.ok found, st) := by
  unfold record
  rw [Command.get_bind_apply, hat]
  rfl

theorem links_eq (h : Stored backing st) {o : ℕ} {found : Record V} (hat : st.nodes o = some found)
    (hlow : 1 ≤ found.links.height) (hhigh : found.links.height ≤ 128) :
    links backing o st = (.ok found.links, st) := by
  obtain ⟨-, hsize, hfits⟩ := h.fits o found hat
  unfold links
  rw [Command.bind_ok (validate_eq h hat), Command.bind_ok (record_eq hat),
    Command.get_bind_apply, failIf,
    if_neg (by omega)]
  rfl

theorem readKey_eq (h : Stored backing st) {o : ℕ} {found : Record V}
    (hat : st.nodes o = some found) :
    readKey o found.links st = (.ok found.key, st) := by
  obtain ⟨hpos, hsize, hfits⟩ := h.fits o found hat
  have hbounded := h.bounded
  have hroom : ¬ found.links.keySize > maxString := by
    unfold maxString
    unfold offMax at hbounded
    unfold Backing.header linksBytes at hfits
    omega
  unfold readKey
  rw [failIf, if_neg hroom]
  change (record o >>= fun found => pure found.key) st = _
  rw [Command.bind_ok (record_eq hat)]
  rfl

/-- The links written back to a node. -/
def withLinks (st : Table V) (o : ℕ) (row : Links) : Table V :=
  { st with nodes := Function.update st.nodes o ((st.nodes o).map fun record =>
    { record with links := row }) }

theorem putLinks_eq {o : ℕ} {found : Record V} (hat : st.nodes o = some found) (row : Links) :
    putLinks o row st = (.ok (), withLinks st o row) := by
  unfold putLinks
  rw [Command.bind_ok (record_eq hat), withLinks, hat]
  rfl

theorem withLinks_of_ne {o other : ℕ} (h : other ≠ o) (row : Links) :
    (withLinks st o row).nodes other = st.nodes other := Function.update_of_ne h ..

theorem withLinks_at {o : ℕ} {found : Record V} (hat : st.nodes o = some found) (row : Links) :
    (withLinks st o row).nodes o = some { found with links := row } := by
  unfold withLinks
  dsimp only
  rw [Function.update_self, hat]
  rfl

theorem same_withLinks {o : ℕ} {found : Record V} (hat : st.nodes o = some found) {row : Links}
    (hnext : row.next = found.links.next) (hsize : row.keySize = found.links.keySize) :
    Same st (withLinks st o row) := by
  refine ⟨rfl, rfl, rfl, rfl, fun other => ?_⟩
  by_cases h : other = o
  · subst h
    rw [withLinks_at hat, hat, Option.map_some, Option.map_some, Record.rest, Record.rest,
      hnext, hsize]
  · rw [withLinks_of_ne h]

theorem height_eq (h : Stored backing st) {tree : BinTree Label} {parent : ℕ}
    (hrep : Rep st.nodes parent tree)
    (hnonzero : 0 ∉ offsets tree) (hsmall : tree.height ≤ 128) :
    height backing (top tree) st = (.ok tree.height, st) := by
  cases tree with
  | nil => rfl
  | node l x r =>
    obtain ⟨⟨found, hat, -, -, -, -, hheight⟩, -, -⟩ := hrep
    have hne : x.1 ≠ 0 := by
      intro hzero
      apply hnonzero
      rw [← hzero]
      exact (mem_offsets_join.mpr (.inl rfl) : x.1 ∈ offsets (join true l x r))
    rw [height_node] at hsmall ⊢
    unfold height
    rw [top, if_neg hne, Command.bind_ok (links_eq h hat (by omega) (by omega)), hheight]
    rfl

end PineForge.DiskTable
