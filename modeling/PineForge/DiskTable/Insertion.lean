import Mathlib
import PineForge.DiskTable.Walks

/-!
# A table and its rows

`Holding backing st tree rows`: the records hold the balanced search tree `tree`, and the insertion
links run through `rows`. An insertion of a new key puts a leaf under the node its search ended at,
hangs it behind the last row and settles the path above; one of a key that is there writes nothing.
-/

namespace PineForge.DiskTable

open Avl Avl.BinTree

variable {V : Type} {backing : Backing} {st t : Table V}

/-- The insertion links from a node on run through the rows. -/
def Chained (nodes : Nodes V) : ℕ → List Label → Prop
  | at', [] => at' = 0
  | at', x :: rows => at' = x.1 ∧ ∃ record, nodes x.1 = some record ∧
    Chained nodes record.links.next rows

/-- The last row's offset. -/
def lastOffset (rows : List Label) : ℕ := (rows.getLast?.map Prod.fst).getD 0

/-- The bytes the rows take in the file. -/
def rowsBytes (backing : Backing) (rows : List Label) : ℕ :=
  (rows.map fun x => backing.header + x.2.length).sum

theorem header_mul_le (backing : Backing) (rows : List Label) :
    56 * rows.length ≤ rowsBytes backing rows := by
  unfold rowsBytes
  induction rows with
  | nil => simp
  | cons x rows ih =>
    rw [List.map_cons, List.sum_cons, List.length_cons]
    unfold Backing.header linksBytes
    unfold Backing.header linksBytes at ih
    omega

/-- The value of a row. -/
def valueAt (st : Table V) (o : ℕ) : Option V := (st.nodes o).map Record.value

/-- The table stores a search tree over its rows. -/
structure Holding (backing : Backing) (st : Table V) (tree : BinTree Label) (rows : List Label) :
    Prop where
  stored : Stored backing st
  placed : Placed st tree []
  apart : Apart tree []
  balanced : tree.Balanced
  sorted : Sorted tree.inorder
  perm : tree.inorder.Perm rows
  chained : Chained st.nodes st.first rows
  last : st.last = lastOffset rows
  size : st.size = rows.length
  finish : st.finish = 1 + rowsBytes backing rows

namespace Holding

variable {tree : BinTree Label} {rows : List Label}

theorem length_inorder (h : Holding backing st tree rows) : tree.inorder.length = rows.length :=
  h.perm.length_eq

theorem length_lt (h : Holding backing st tree rows) : rows.length < 2 ^ 60 := by
  have hfinish := h.finish
  have hbounded := h.stored.bounded
  have hheader := header_mul_le backing rows
  unfold offMax at hbounded
  omega

theorem height_le (h : Holding backing st tree rows) : tree.height ≤ 123 := by
  refine height_le_of_length h.balanced ?_
  have hlength := h.length_lt
  rw [offsets, List.length_map, h.length_inorder]
  omega

theorem height_lt (h : Holding backing st tree rows) : tree.height < st.size + 1 := by
  have hle := height_le_length tree
  rw [h.length_inorder, ← h.size] at hle
  omega

theorem nonzero (h : Holding backing st tree rows) : 0 ∉ offsets tree :=
  fun hz => h.apart.nonzero (List.mem_append_left _ hz)

theorem nodup (h : Holding backing st tree rows) : (offsets tree).Nodup := by
  have hnodup := h.apart.nodup
  rw [pathOffsets, List.append_nil] at hnodup
  exact hnodup

theorem root (h : Holding backing st tree rows) : st.root = top tree := h.placed.root

theorem find_eq (h : Holding backing st tree rows) (key : Key) :
    (∃ o, (o, key) ∈ rows ∧ find backing key st = (.ok (some o), st)) ∨
      (∀ x ∈ rows, x.2 ≠ key) ∧ find backing key st = (.ok none, st) := by
  unfold find
  rw [Command.get_bind_apply, h.root]
  rcases findFrom_eq h.stored key h.placed.rep h.nonzero (h.height_le.trans (by decide)) h.sorted
    h.height_lt with
    ⟨o, hmem, hrun⟩ | ⟨hnone, hrun⟩
  · exact .inl ⟨o, h.perm.mem_iff.mp hmem, hrun⟩
  · exact .inr ⟨fun x hx => hnone x (h.perm.mem_iff.mpr hx), hrun⟩

/-! ## The sorted walk -/

theorem firstSorted_eq (h : Holding backing st tree rows) :
    firstSorted backing st = (.ok (headOffset tree.inorder), st) := by
  unfold firstSorted leftmost
  rw [Command.get_bind_apply, Command.get_bind_apply, h.root]
  exact leftmostFrom_eq h.stored h.placed.rep h.nonzero (h.height_le.trans (by decide)) h.height_lt

end Holding

theorem height_attach_le (f : Frame Label) (tree : BinTree Label) :
    tree.height < (f.attach tree).height := by
  rw [attach_eq_join, height_join]
  omega

theorem height_plug_le (tree : BinTree Label) (fs : List (Frame Label)) :
    tree.height + fs.length ≤ (plug tree fs).height := by
  induction fs generalizing tree with
  | nil => exact Nat.le_refl _
  | cons f fs ih =>
    have hattach := height_attach_le f tree
    have hplug := ih (f.attach tree)
    rw [plug, List.length_cons]
    omega

theorem Placed.down {tree : BinTree Label} {fs : List (Frame Label)}
    (h : Placed st (plug tree fs) [])
    (hsmall : (plug tree fs).height ≤ 128) : Placed st tree fs := by
  induction fs generalizing tree with
  | nil => exact h
  | cons f fs ih =>
    have hplaced := ih h hsmall
    have hheight := height_plug_le (f.attach tree) fs
    obtain ⟨hf, ht, hs⟩ := rep_join.mp (attach_eq_join f tree ▸ hplaced.rep)
    have htop : top (f.attach tree) = f.label.1 := by
      rw [attach_eq_join, top_join]
    have hpath := hplaced.path
    have hroot := hplaced.root
    rw [htop] at hpath hroot
    refine ⟨ht, ⟨⟨_, ?_, ?_, hf⟩, hs, hpath⟩, hroot⟩
    · omega
    · rw [attach_eq_join, height_join] at hheight
      rw [plug, attach_eq_join] at hsmall
      omega

theorem Apart.place {tree : BinTree Label} {fs : List (Frame Label)} (h : Apart (plug tree fs) []) :
    Apart tree fs := by
  refine h.perm ?_
  rw [pathOffsets, List.append_nil]
  exact (offsets_plug tree fs).symm

/-- The next row by key. -/
theorem Holding.nextSorted_eq {tree : BinTree Label} {rows : List Label}
    (h : Holding backing st tree rows)
    {x : Label} {pre suf : List Label} (hsplit : tree.inorder = pre ++ x :: suf) :
    nextSorted backing x.1 st = (.ok (headOffset suf), st) := by
  obtain ⟨l, r, fs, rfl, hafter⟩ := exists_plug hsplit
  have hsmall := h.height_le
  have hplug := height_plug_le (node l x r) fs
  have hplaced := h.placed.down (by omega)
  have hapart := h.apart.place
  obtain ⟨⟨found, hat, -, -, hright, hparent, hheight⟩, hl, hr⟩ := hplaced.rep
  change found.links.right = top r at hright
  have hlt := h.height_lt
  rw [height_node] at hplug
  have hzero := hapart.nonzero
  have hnodup := hapart.nodup
  rw [List.nodup_append'] at hnodup
  rw [List.mem_append, not_or] at hzero
  obtain ⟨hx, hzl, hzr⟩ := nonzero_node hzero.1
  unfold nextSorted
  rw [Command.bind_ok (links_eq h.stored hat (by omega) (by omega)), Command.get_bind_apply, hright,
    hparent, ← hafter]
  by_cases hnil : r = nil
  · subst hnil
    rw [if_neg (show ¬ top (nil : BinTree Label) ≠ 0 from not_not.mpr rfl)]
    refine ascend_eq h.stored hplaced.path ?_ hx hnodup.2.1 hzero.2 (by omega)
    intro hmem
    exact hnodup.2.2 (mem_offsets_join.mpr (.inl rfl) : x.1 ∈ offsets (join true l x nil)) hmem
  · rw [if_pos fun hz => hnil ((top_eq_zero hzr).mp hz)]
    unfold leftmost
    rw [Command.get_bind_apply, leftmostFrom_eq h.stored hr hzr (by omega) (by omega)]
    cases r with
    | nil => exact absurd rfl hnil
    | node rl y rr =>
      simp only [inorder_node]
      cases rl.inorder with
      | nil => rfl
      | cons z zs => rfl

/-! ## Writes beside the tree -/

/-- What the tree reads of a record. -/
def Record.shape (record : Record V) : Links × Key := ({ record.links with next := 0 }, record.key)

/-- The nodes differ only in values and in insertion links. -/
def Alike (nodes nodes' : Nodes V) : Prop :=
  ∀ o, (nodes' o).map Record.shape = (nodes o).map Record.shape

theorem Alike.exists {nodes nodes' : Nodes V} (h : Alike nodes nodes') {o : ℕ} {found : Record V}
    (hat : nodes o = some found) : ∃ found', nodes' o = some found' ∧ found'.key = found.key ∧
      found'.links.left = found.links.left ∧ found'.links.right = found.links.right ∧
      found'.links.parent = found.links.parent ∧ found'.links.height = found.links.height ∧
      found'.links.keySize = found.links.keySize := by
  have hshape := h o
  rw [hat] at hshape
  cases hat' : nodes' o with
  | none =>
    rw [hat'] at hshape
    cases hshape
  | some found' =>
    rw [hat'] at hshape
    have heq : Record.shape found' = Record.shape found := Option.some.inj hshape
    unfold Record.shape at heq
    obtain ⟨hlinks, hkey⟩ := Prod.mk.inj heq
    obtain ⟨hl, hr, hp, -, hs, hh⟩ := Links.mk.inj hlinks
    exact ⟨found', rfl, hkey, hl, hr, hp, hh, hs⟩

theorem Holds.alike {nodes nodes' : Nodes V} {left : Bool} {x : Label} {near far parent height : ℕ}
    (h : Holds nodes left x near far parent height) (halike : Alike nodes nodes') :
    Holds nodes' left x near far parent height := by
  obtain ⟨found, hat, hkey, hnear, hfar, hparent, hheight⟩ := h
  obtain ⟨found', hat', hk, hl, hr, hp, hh, -⟩ := halike.exists hat
  refine ⟨found', hat', hk.trans hkey, ?_, ?_, hp.trans hparent, hh.trans hheight⟩
  · unfold Links.child at *
    rw [hl, hr]
    exact hnear
  · unfold Links.child at *
    rw [hl, hr]
    exact hfar

theorem Rep.alike {nodes nodes' : Nodes V} {tree : BinTree Label} {parent : ℕ}
    (h : Rep nodes parent tree)
    (halike : Alike nodes nodes') : Rep nodes' parent tree := by
  induction tree generalizing parent with
  | nil => trivial
  | node l x r ihl ihr => exact ⟨h.1.alike halike, ihl h.2.1, ihr h.2.2⟩

theorem Path.alike {nodes nodes' : Nodes V} {fs : List (Frame Label)} {hole : ℕ}
    (h : Path nodes hole fs)
    (halike : Alike nodes nodes') : Path nodes' hole fs := by
  induction fs generalizing hole with
  | nil => trivial
  | cons f fs ih =>
    obtain ⟨⟨height, hlow, hhigh, hf⟩, hs, hrest⟩ := h
    exact ⟨⟨height, hlow, hhigh, hf.alike halike⟩, hs.alike halike, ih hrest⟩

theorem Stored.alike (h : Stored backing st) (halike : Alike st.nodes t.nodes)
    (hfinish : t.finish = st.finish) :
    Stored backing t := by
  refine ⟨fun o found' hat' => ?_, hfinish ▸ h.bounded⟩
  have halike' : Alike t.nodes st.nodes := fun o => (halike o).symm
  obtain ⟨found, hat, hkey, -, -, -, -, hsize⟩ := halike'.exists hat'
  rw [← hkey, ← hsize, hfinish]
  exact h.fits o found hat

/-! ## Insertion links -/

theorem Chained.congr {nodes nodes' : Nodes V} {rows : List Label} {at' : ℕ}
    (h : Chained nodes at' rows)
    (hnext : ∀ o ∈ rows.map Prod.fst, ∀ found, nodes o = some found →
      ∃ found', nodes' o = some found' ∧ found'.links.next = found.links.next) :
        Chained nodes' at' rows := by
  induction rows generalizing at' with
  | nil => exact h
  | cons x rows ih =>
    obtain ⟨hat', found, hat, hrest⟩ := h
    obtain ⟨found', hfound', heq⟩ := hnext x.1 List.mem_cons_self found hat
    refine ⟨hat', found', hfound', ?_⟩
    rw [heq]
    exact ih hrest fun o ho => hnext o (List.mem_cons_of_mem _ ho)

theorem Chained.same {rows : List Label} {at' : ℕ} (h : Chained st.nodes at' rows)
    (hsame : Same st t) :
    Chained t.nodes at' rows := by
  refine h.congr fun o _ found hat => ?_
  have hnode := hsame.rest o
  rw [hat] at hnode
  cases hnew : t.nodes o with
  | none =>
    rw [hnew] at hnode
    cases hnode
  | some new =>
    rw [hnew] at hnode
    exact ⟨new, rfl, congrArg Prod.fst (Option.some.inj hnode)⟩

theorem Same.valueAt (h : Same st t) (o : ℕ) : valueAt t o = valueAt st o := by
  have hrest := congrArg (Option.map fun p => p.2.2.1) (h.rest o)
  rw [Option.map_map, Option.map_map] at hrest
  exact hrest

theorem lastOffset_cons_cons (x y : Label) (rows : List Label) :
    lastOffset (x :: y :: rows) = lastOffset (y :: rows) := by
  unfold lastOffset
  rw [List.getLast?_cons_cons]

theorem lastOffset_mem {rows : List Label} (h : rows ≠ []) :
    lastOffset rows ∈ rows.map Prod.fst := by
  unfold lastOffset
  rw [List.getLast?_eq_getLast_of_ne_nil h]
  exact List.mem_map_of_mem (List.getLast_mem h)

theorem lastOffset_snoc (rows : List Label) (x : Label) : lastOffset (rows ++ [x]) = x.1 := by
  unfold lastOffset
  rw [List.getLast?_concat]
  rfl

theorem Chained.snoc {nodes nodes' : Nodes V} {rows : List Label} {at' : ℕ} {x : Label}
    (h : Chained nodes at' rows)
    (hne : rows ≠ []) (hnodup : (rows.map Prod.fst).Nodup)
    (hframe : ∀ o ∈ rows.map Prod.fst, o ≠ lastOffset rows → nodes' o = nodes o)
    (hlast : ∃ found, nodes' (lastOffset rows) = some found ∧ found.links.next = x.1)
    (hx : ∃ found, nodes' x.1 = some found ∧ found.links.next = 0) :
    Chained nodes' at' (rows ++ [x]) := by
  induction rows generalizing at' with
  | nil => exact absurd rfl hne
  | cons y rows ih =>
    obtain ⟨hat', found, hat, hrest⟩ := h
    cases rows with
    | nil =>
      obtain ⟨found', hfound', hnext⟩ := hlast
      obtain ⟨new, hnew, hzero⟩ := hx
      exact ⟨hat', found', hfound', hnext, new, hnew, hzero⟩
    | cons z rows =>
      rw [lastOffset_cons_cons] at hframe hlast
      rw [List.map_cons, List.nodup_cons] at hnodup
      have hother : y.1 ≠ lastOffset (z :: rows) := by
        intro heq
        apply hnodup.1
        rw [heq]
        exact lastOffset_mem (List.cons_ne_nil z rows)
      refine ⟨hat', found, (hframe _ List.mem_cons_self hother).trans hat, ?_⟩
      exact ih hrest (List.cons_ne_nil z rows) hnodup.2
        (fun o ho hne => hframe o (List.mem_cons_of_mem _ ho) hne) hlast

/-! ## Checks -/

theorem failIf_ends {c : Prop} [Decidable c] {failure : Failure} :
    Ends (failIf c failure : Action V Unit) st (fun _ t => t = st ∧ ¬ c) fun _ t => t = st := by
  unfold failIf
  by_cases h : c
  · rw [if_pos h]
    exact Ends.throw rfl
  · rw [if_neg h]
    exact Ends.pure ⟨rfl, h⟩

theorem failIf_bind_apply {β : Type} {c : Prop} [Decidable c] {failure : Failure}
    (k : Unit → Action V β) :
    (failIf c failure >>= k) st = if c then (.error (.thrown failure), st) else k () st := by
  unfold failIf
  by_cases h : c
  · rw [if_pos h, if_pos h]
    rfl
  · rw [if_neg h, if_neg h]
    rfl

theorem failIf_apply {c : Prop} [Decidable c] {failure : Failure} :
    (failIf c failure : Action V Unit) st = if c then (.error (.thrown failure), st)
    else (.ok (), st) := by
  unfold failIf
  by_cases h : c
  · rw [if_pos h, if_pos h]
    rfl
  · rw [if_neg h, if_neg h]
    rfl

theorem requireGrowth_ends (slab : Slab) (n : ℕ) :
    Ends (requireGrowth backing slab n : Action V Unit) st (fun _ t => t = st) fun _ t => t
      = st := by
  unfold requireGrowth
  apply Ends.get_bind
  dsimp only
  refine Ends.bind failIf_ends ?_
  rintro - t ⟨rfl, -⟩
  refine Ends.bind failIf_ends ?_
  rintro - u ⟨rfl, -⟩
  refine Ends.bind failIf_ends ?_
  rintro - u ⟨rfl, -⟩
  refine Ends.bind failIf_ends ?_
  rintro - u ⟨rfl, -⟩
  exact failIf_ends.mono (fun _ _ h => h.1) fun _ _ h => h

theorem requireNewKey_ends (n : ℕ) :
    Ends (requireNewKey backing n : Action V Unit) st (fun _ t => t = st) fun _ t => t = st := by
  unfold requireNewKey
  cases backing.slab with
  | none => exact Ends.pure rfl
  | some slab =>
    refine Ends.bind failIf_ends ?_
    rintro - t ⟨rfl, -⟩
    exact requireGrowth_ends slab n

/-- The checks pass where the new record fits, or throw before anything is written. -/
theorem admitKey_ends (n : ℕ) :
    Ends (admitKey backing n : Action V Unit) st (fun _ t => t = st ∧
      st.finish + backing.header + n ≤ offMax)
      fun _ t => t = st := by
  unfold admitKey
  refine Ends.bind (requireNewKey_ends n) ?_
  rintro - t rfl
  apply Ends.get_bind
  refine Ends.bind failIf_ends ?_
  rintro - u ⟨rfl, -⟩
  refine Ends.bind failIf_ends ?_
  rintro - u ⟨rfl, hroom⟩
  refine failIf_ends.mono ?_ fun _ _ h => h
  rintro - u ⟨rfl, -⟩
  exact ⟨rfl, by omega⟩

theorem requireNewKey_congr (hfinish : t.finish = st.finish) (hsize : t.size = st.size) (n : ℕ) :
    (requireNewKey backing n t).1 = (requireNewKey backing n st).1 := by
  unfold requireNewKey
  cases backing.slab with
  | none => rfl
  | some slab =>
    simp only [requireGrowth, failIf_bind_apply, failIf_apply, Command.get_bind_apply,
      hfinish, hsize]
    split_ifs <;> rfl

theorem admitKey_congr (hfinish : t.finish = st.finish) (hsize : t.size = st.size) (n : ℕ) :
    (admitKey backing n t).1 = (admitKey backing n st).1 := by
  have hnew := (requireNewKey_congr hfinish hsize n : (requireNewKey backing n t).1 = _)
  unfold admitKey
  rcases (requireNewKey_ends n : Ends (requireNewKey backing n) st _ _) with ⟨_, _, hrun, rfl⟩ |
    ⟨failure, _, hrun, rfl⟩
  · rcases (requireNewKey_ends n : Ends (requireNewKey backing n) t _ _) with ⟨_, _, hrun', rfl⟩ |
      ⟨failure, _, hrun', rfl⟩
    · rw [Command.bind_ok hrun, Command.bind_ok hrun']
      simp only [checkExtent, failIf_bind_apply, failIf_apply, Command.get_bind_apply,
        hfinish, hsize]
      split_ifs <;> rfl
    · rw [hrun, hrun'] at hnew
      cases hnew
  · rcases (requireNewKey_ends n : Ends (requireNewKey backing n) t _ _) with ⟨_, _, hrun', rfl⟩ |
      ⟨failure', _, hrun', rfl⟩
    · rw [hrun, hrun'] at hnew
      cases hnew
    · rw [Command.bind_error hrun, Command.bind_error hrun']
      rw [hrun, hrun'] at hnew
      exact hnew

/-! ## A new row -/

theorem Rep.valid {nodes : Nodes V} {tree : BinTree Label} {parent o : ℕ}
    (h : Rep nodes parent tree)
    (ho : o ∈ offsets tree) (hsmall : tree.height ≤ 128) :
    ∃ found, nodes o = some found ∧ 1 ≤ found.links.height ∧ found.links.height ≤ 128 := by
  induction tree generalizing parent with
  | nil => cases ho
  | node l x r ihl ihr =>
    obtain ⟨⟨found, hat, -, -, -, -, hheight⟩, hl, hr⟩ := h
    rw [height_node] at hsmall
    change o ∈ offsets (join true l x r) at ho
    rcases mem_offsets_join.mp ho with rfl | ho | ho
    · exact ⟨found, hat, by omega, by omega⟩
    · exact ihl hl ho (by omega)
    · exact ihr hr ho (by omega)

theorem Rep.found {nodes : Nodes V} {tree : BinTree Label} {parent : ℕ} {x : Label}
    (h : Rep nodes parent tree)
    (hx : x ∈ tree.inorder) (hsmall : tree.height ≤ 128) :
    ∃ found, nodes x.1 = some found ∧ found.key = x.2 ∧ 1 ≤ found.links.height ∧
      found.links.height ≤ 128 := by
  induction tree generalizing parent with
  | nil => cases hx
  | node l y r ihl ihr =>
    obtain ⟨⟨found, hat, hkey, -, -, -, hheight⟩, hl, hr⟩ := h
    rw [height_node] at hsmall
    rw [inorder_node, List.mem_append, List.mem_cons] at hx
    rcases hx with hx | rfl | hx
    · exact ihl hl hx (by omega)
    · exact ⟨found, hat, hkey, by omega, by omega⟩
    · exact ihr hr hx (by omega)

theorem Path.valid {nodes : Nodes V} {fs : List (Frame Label)} {hole o : ℕ} (h : Path nodes hole fs)
    (ho : o ∈ pathOffsets fs) (hsmall : ∀ f ∈ fs, f.sibling.height ≤ 128) :
    ∃ found, nodes o = some found ∧ 1 ≤ found.links.height ∧ found.links.height ≤ 128 := by
  induction fs generalizing hole with
  | nil => cases ho
  | cons f fs ih =>
    obtain ⟨⟨height, hlow, hhigh, found, hat, -, -, -, -, hheight⟩, hs, hrest⟩ := h
    rw [pathOffsets, List.cons_append, List.mem_cons, List.mem_append] at ho
    rcases ho with rfl | ho | ho
    · exact ⟨found, hat, by omega, by omega⟩
    · exact hs.valid ho (hsmall f List.mem_cons_self)
    · exact ih hrest ho fun g hg => hsmall g (List.mem_cons_of_mem _ hg)

theorem sibling_height_le {tree : BinTree Label} {fs : List (Frame Label)} {f : Frame Label}
    (h : f ∈ fs) :
    f.sibling.height ≤ (plug tree fs).height := by
  induction fs generalizing tree with
  | nil => cases h
  | cons g fs ih =>
    rcases List.mem_cons.mp h with rfl | h
    · have hplug := height_plug_le (f.attach tree) fs
      rw [attach_eq_join, height_join] at hplug
      rw [plug, attach_eq_join]
      omega
    · exact ih h

theorem same_withLinks_value {o : ℕ} {found : Record V} (hat : st.nodes o = some found)
    (row : Links) (other : ℕ) :
    valueAt (withLinks st o row) other = valueAt st other := by
  unfold valueAt
  by_cases h : other = o
  · subst h
    rw [withLinks_at hat, hat]
    rfl
  · rw [withLinks_of_ne h]

/-- The last row gets its insertion link, or the new row is the first one. -/
theorem linkLast_eq (h : Stored backing st) {rows : List Label} {x : Label}
    (hchained : Chained st.nodes st.first rows)
    (hlast : st.last = lastOffset rows) (hnodup : ((rows ++ [x]).map Prod.fst).Nodup)
    (hzero : 0 ∉ rows.map Prod.fst)
    (hvalid : ∀ o ∈ rows.map Prod.fst, ∃ found, st.nodes o = some found ∧ 1 ≤ found.links.height ∧
      found.links.height ≤ 128)
    (hx : ∃ found, st.nodes x.1 = some found ∧ found.links.next = 0) :
    ∃ t, linkLast backing x.1 st = (.ok (), t) ∧ Alike st.nodes t.nodes ∧ t.root = st.root ∧
      t.finish = st.finish ∧
      t.size = st.size ∧ Chained t.nodes t.first (rows ++ [x]) ∧ ∀ o, valueAt t o
        = valueAt st o := by
  unfold linkLast
  rw [Command.get_bind_apply, hlast]
  rw [List.map_append, List.nodup_append'] at hnodup
  by_cases hnil : rows = []
  · subst hnil
    obtain ⟨found, hat, hnext⟩ := hx
    rw [if_neg (show ¬ lastOffset [] ≠ 0 from not_not.mpr rfl)]
    exact ⟨st.withFirst x.1, rfl, fun _ => rfl, rfl, rfl, rfl, ⟨rfl, found, hat, hnext⟩,
      fun _ => rfl⟩
  · have hmem := lastOffset_mem hnil
    have hne : lastOffset rows ≠ 0 := by
      intro hz
      rw [hz] at hmem
      exact hzero hmem
    obtain ⟨found, hat, hlow, hhigh⟩ := hvalid _ hmem
    have hxne : x.1 ≠ lastOffset rows := by
      intro heq
      exact hnodup.2.2 (heq ▸ hmem) (List.mem_singleton.mpr rfl)
    rw [if_pos hne, Command.bind_ok (links_eq h hat hlow hhigh)]
    refine ⟨_, putLinks_eq hat _, fun o => ?_, rfl, rfl, rfl, ?_, (same_withLinks_value hat _)⟩
    · by_cases ho : o = lastOffset rows
      · subst ho
        rw [withLinks_at hat, hat]
        rfl
      · rw [withLinks_of_ne ho]
    · refine hchained.snoc hnil hnodup.1 (fun o _ ho => withLinks_of_ne ho _)
        ⟨_, withLinks_at hat _, rfl⟩ ?_
      obtain ⟨new, hnew, hnext⟩ := hx
      exact ⟨new, (withLinks_of_ne hxne _).trans hnew, hnext⟩

namespace Holding

variable {tree : BinTree Label} {rows : List Label} {key : Key}

theorem offset_mem (h : Holding backing st tree rows) {o : ℕ} :
    o ∈ offsets tree ↔ o ∈ rows.map Prod.fst :=
  (h.perm.map Prod.fst).mem_iff

theorem lt_finish (h : Holding backing st tree rows) {o : ℕ} (ho : o ∈ offsets tree) :
    o < st.finish := by
  obtain ⟨found, hat, -, -⟩ := h.placed.rep.valid ho (h.height_le.trans (by decide))
  have hheader : 0 < backing.header := by
    unfold Backing.header linksBytes
    omega
  have hfits := (h.stored.fits o found hat).2.2
  omega

theorem finish_pos (h : Holding backing st tree rows) : 0 < st.finish := by
  have hfinish := h.finish
  omega

/-- The leaf of a new row. -/
def leaf (x : Label) : BinTree Label := node nil x nil

theorem plug_leaf_perm (x : Label) (fs : List (Frame Label)) :
    (offsets (leaf x) ++ pathOffsets fs).Perm (x.1 :: offsets (plug nil fs)) := by
  have hnil := offsets_plug nil fs
  exact (hnil.symm.cons x.1 : (x.1 :: (offsets nil ++ pathOffsets fs)).Perm _)

/-- The table with the record of a new row behind the others, not linked yet. -/
def rowed (backing : Backing) (st : Table V) (key : Key) (value : V) (parent : ℕ) : Table V :=
  (st.withRecord st.finish ⟨{ parent := parent, keySize := key.length }, value, key⟩).withFinish
    (st.finish + backing.header + key.length)

theorem rowed_of_ne {value : V} {parent o : ℕ} (h : o ≠ st.finish) :
    (rowed backing st key value parent).nodes o = st.nodes o := Function.update_of_ne h ..

theorem rowed_at {value : V} {parent : ℕ} : (rowed backing st key value parent).nodes st.finish =
    some ⟨{ parent := parent, keySize := key.length }, value, key⟩ := Function.update_self ..

theorem valueAt_rowed {value : V} {parent : ℕ} (o : ℕ) :
    valueAt (rowed backing st key value parent) o = if o = st.finish then some value
      else valueAt st o := by
  unfold valueAt
  by_cases h : o = st.finish
  · subst h
    rw [rowed_at, if_pos rfl]
    rfl
  · rw [rowed_of_ne h, if_neg h]

theorem stored_rowed (h : Stored backing st) (hpos : 0 < st.finish) (value : V) (parent : ℕ)
    (hroom : st.finish + backing.header + key.length ≤ offMax) :
    Stored backing (rowed backing st key value parent) := by
  refine ⟨fun o found hat => ?_, hroom⟩
  have hfinish : (rowed backing st key value parent).finish
      = st.finish + backing.header + key.length := rfl
  rw [hfinish]
  by_cases ho : o = st.finish
  · subst ho
    rw [rowed_at] at hat
    obtain rfl := Option.some.inj hat
    exact ⟨hpos, rfl, Nat.le_refl _⟩
  · rw [rowed_of_ne ho] at hat
    obtain ⟨hp, hsize, hfits⟩ := h.fits o found hat
    exact ⟨hp, hsize, by omega⟩

/-- The links to the new row: from the node above it, and from the last row. -/
theorem linkRow_eq {fs : List (Frame Label)} (h : Holding backing st (plug nil fs) rows) (value : V)
    (hroom : st.finish + backing.header + key.length ≤ offMax) :
    ∃ t u, linkParent backing (parentOf fs) st.finish (sideOf fs)
      (rowed backing st key value (parentOf fs)) = (.ok (), t) ∧
      linkLast backing st.finish t = (.ok (), u) ∧ Stored backing u ∧
        Placed u (leaf (st.finish, key)) fs ∧
      Chained u.nodes u.first (rows ++ [(st.finish, key)]) ∧ u.finish
        = st.finish + backing.header + key.length ∧
      u.size = st.size ∧ ∀ o, valueAt u o = if o = st.finish then some value else valueAt st o := by
  have hsmall : (plug (nil : BinTree Label) fs).height ≤ 128 := h.height_le.trans (by decide)
  have hplaced := h.placed.down hsmall
  have hapart := h.apart.place
  have hstored : Stored backing (rowed backing st key value (parentOf fs)) :=
    stored_rowed h.stored h.finish_pos value (parentOf fs) hroom
  have hsub : ∀ o, o ∈ pathOffsets fs ↔ o ∈ offsets (plug nil fs) :=
    fun o => (offsets_plug nil fs).mem_iff.symm
  have hfresh : st.finish ∉ pathOffsets fs := fun hmem => (h.lt_finish ((hsub _).mp hmem)).ne rfl
  have hpath : Path (rowed backing st key value (parentOf fs)).nodes 0 fs :=
    hplaced.path.congr fun o ho => rowed_of_ne (by rintro rfl; exact hfresh ho)
  obtain ⟨t, hrun, hsame, hpath', hroot, hframe⟩ :=
    linkParent_eq hstored st.finish hpath hplaced.root hapart.nodup
    hapart.nonzero
  have hstored' := hstored.same hsame
  have hrow : t.nodes st.finish
      = some ⟨{ parent := parentOf fs, keySize := key.length }, value, key⟩ :=
    (hframe _ hfresh).trans rowed_at
  have hrows : ∀ o, o ∈ rows.map Prod.fst ↔ o ∈ pathOffsets fs :=
    fun o => h.offset_mem.symm.trans (hsub o).symm
  -- the insertion links are as they were
  have hchained : Chained t.nodes t.first rows := by
    rw [hsame.first]
    refine Chained.same ?_ hsame
    refine h.chained.congr fun o ho found hat => ⟨found, ?_, rfl⟩
    rw [rowed_of_ne]
    · exact hat
    · rintro rfl
      exact hfresh ((hrows _).mp ho)
  have hnodup : ((rows ++ [(st.finish, key)]).map Prod.fst).Nodup := by
    rw [List.map_append, List.nodup_append']
    refine ⟨((h.perm.map Prod.fst).nodup_iff.mp h.nodup), List.nodup_singleton _, ?_⟩
    intro o ho hnew
    rw [List.map_singleton, List.mem_singleton] at hnew
    subst hnew
    exact hfresh ((hrows _).mp ho)
  obtain ⟨u, hrun', halike, hroot', hfinish', hsize', hchained', hvalue'⟩ :=
    linkLast_eq hstored' hchained
    (hsame.last.trans h.last) hnodup (fun hz => hapart.nonzero ((hrows 0).mp hz))
    (fun o ho => hpath'.valid ((hrows o).mp ho) fun f hf => (sibling_height_le hf).trans hsmall)
      ⟨_, hrow, rfl⟩
  refine ⟨t, u, hrun, hrun', hstored'.alike halike hfinish', ?_, hchained',
    hfinish'.trans hsame.finish,
    hsize'.trans hsame.size, fun o => ?_⟩
  swap
  · rw [hvalue', hsame.valueAt]
    exact valueAt_rowed o
  refine ⟨?_, hpath'.alike halike, hroot'.trans hroot⟩
  have hleaf : Rep t.nodes (parentOf fs) (leaf (st.finish, key)) :=
    ⟨⟨_, hrow, rfl, rfl, rfl, rfl, rfl⟩, trivial, trivial⟩
  exact hleaf.alike halike

/-- A row is inserted where the search ended. -/
theorem insertUnder_eq {fs : List (Frame Label)} (h : Holding backing st (plug nil fs) rows)
    (value : V)
    (hbefore : ∀ x ∈ before fs, x.2 < key) (hafter : ∀ x ∈ after fs, key < x.2) :
    (∃ t, insertUnder backing key value (parentOf fs) (sideOf fs) st = (.ok (st.finish, true), t) ∧
        Holding backing t (climb (leaf (st.finish, key)) fs) (rows ++ [(st.finish, key)]) ∧
        (∀ o, valueAt t o = if o = st.finish then some value else valueAt st o) ∧
        admitKey backing key.length st = (.ok (), st)) ∨
      ∃ failure, insertUnder backing key value (parentOf fs) (sideOf fs) st
        = (.error (.thrown failure), st) ∧
        admitKey backing key.length st = (.error (.thrown failure), st) := by
  unfold insertUnder
  rcases (admitKey_ends key.length : Ends (admitKey backing key.length) st _ _) with
    ⟨_, t, hcheck, rfl, hroom⟩ |
    ⟨failure, t, hcheck, rfl⟩
  case inr => exact .inr ⟨failure, Command.bind_error hcheck _, hcheck⟩
  refine .inl ?_
  obtain ⟨u, w, hrun, hrun', hstored, hplaced, hchained, hfinish, hsize, hvalue⟩ :=
    h.linkRow_eq value hroom
  have hperm := plug_leaf_perm (t.finish, key) fs
  have hfresh : t.finish ∉ offsets (plug nil fs) := fun hmem => (h.lt_finish hmem).ne rfl
  have hapart : Apart (leaf (t.finish, key)) fs := by
    refine ⟨hperm.nodup_iff.mpr (List.nodup_cons.mpr ⟨hfresh, h.nodup⟩), fun hz => ?_⟩
    rcases List.mem_cons.mp (hperm.mem_iff.mp hz) with hz | hz
    · exact h.finish_pos.ne hz
    · exact h.nonzero hz
  have hlength : (offsets (leaf (t.finish, key)) ++ pathOffsets fs).length = rows.length + 1 := by
    rw [hperm.length_eq, List.length_cons, offsets, List.length_map, h.length_inorder]
  have hshort := h.length_lt
  have hfs : fs.length ≤ rows.length := by
    have hplug := height_plug_le nil fs
    have hheight := height_le_length (plug (nil : BinTree Label) fs)
    rw [h.length_inorder] at hheight
    omega
  have hleaf : (leaf (t.finish, key)).Balanced := ⟨trivial, trivial, Nat.le_succ _, Nat.le_succ _⟩
  obtain ⟨-, hspine⟩ := spine_of_balanced h.balanced
  -- the counters change, the records do not
  have hplaced' : Placed (w.counted t.finish) (leaf (t.finish, key)) fs :=
    ⟨hplaced.rep, hplaced.path, hplaced.root⟩
  have hstored' : Stored backing (w.counted t.finish) := ⟨hstored.fits, hstored.bounded⟩
  obtain ⟨z, hrebalance, hsame, hdone⟩ :=
    rebalance_eq hstored' hplaced' hapart hleaf (Nat.zero_le _) (Nat.le_refl 1) hspine
    (by omega) (show fs.length < (w.counted t.finish).size + 1 by
      change fs.length < w.size + 1 + 1
      rw [hsize, h.size]
      omega)
  have hinorder : (climb (leaf (t.finish, key)) fs).inorder
      = before fs ++ (t.finish, key) :: after fs := by
    rw [inorder_climb]
    simp [leaf]
  have hold : (plug (nil : BinTree Label) fs).inorder = before fs ++ after fs := by
    rw [inorder_plug]
    simp
  have hsorted := h.sorted
  have hrows := h.perm
  rw [hold] at hsorted hrows
  refine ⟨z, ?_, ?_, fun o => (hsame.valueAt o).trans (hvalue o), hcheck⟩
  · rw [Command.bind_ok hcheck, Command.get_bind_apply, Command.modify_bind_apply,
      Command.modify_bind_apply]
    change ((linkParent backing (parentOf fs) t.finish (sideOf fs) >>= _)
      (rowed backing t key value (parentOf fs))) = _
    rw [Command.bind_ok hrun, Command.bind_ok hrun', Command.modify_bind_apply,
      Command.get_bind_apply,
      Command.bind_ok hrebalance]
    rfl
  · refine ⟨hstored'.same hsame, hdone, hapart.perm ?_,
      climb_balanced hleaf (Nat.zero_le _) (Nat.le_refl 1) hspine, ?_, ?_,
      ?_, ?_, ?_, ?_⟩
    · rw [pathOffsets, List.append_nil, offsets, hinorder]
      refine List.Perm.trans ?_ hperm.symm
      rw [List.map_append, List.map_cons, offsets, hold, List.map_append]
      exact List.perm_middle
    · unfold Sorted at hsorted ⊢
      rw [List.pairwise_append] at hsorted
      rw [hinorder, List.pairwise_append, List.pairwise_cons]
      refine ⟨hsorted.1, ⟨fun x hx => hafter x hx, hsorted.2.1⟩, fun x hx y hy => ?_⟩
      rcases List.mem_cons.mp hy with rfl | hy
      · exact hbefore x hx
      · exact hsorted.2.2 x hx y hy
    · rw [hinorder]
      refine List.perm_middle.trans ((hrows.cons _).trans ?_)
      exact (List.perm_append_singleton _ _).symm
    · rw [hsame.first]
      have hcounted : Chained (w.counted t.finish).nodes w.first (rows ++ [(t.finish, key)]) :=
        hchained
      exact hcounted.same hsame
    · rw [hsame.last, lastOffset_snoc]
      rfl
    · rw [hsame.size, List.length_append]
      change w.size + 1 = _
      rw [hsize, h.size]
      rfl
    · rw [hsame.finish]
      change w.finish = _
      have hold' := h.finish
      have hsum : rowsBytes backing (rows ++ [(t.finish, key)])
          = rowsBytes backing rows + (backing.header + key.length) := by
        simp [rowsBytes]
      rw [hfinish, hsum]
      omega

/-- An insertion finds the key and writes nothing, adds a row, or throws before it writes. -/
theorem insert_eq (h : Holding backing st tree rows) (key : Key) (value : V) :
    (∃ o, (o, key) ∈ rows ∧ insert backing key value st = (.ok (o, false), st)) ∨
      (∀ x ∈ rows, x.2 ≠ key) ∧
        ((∃ t tree', insert backing key value st = (.ok (st.finish, true), t) ∧
            Holding backing t tree' (rows ++ [(st.finish, key)]) ∧
            (∀ o, valueAt t o = if o = st.finish then some value else valueAt st o) ∧
            admitKey backing key.length st = (.ok (), st)) ∨
          ∃ failure, insert backing key value st = (.error (.thrown failure), st) ∧
            admitKey backing key.length st = (.error (.thrown failure), st)) := by
  unfold insert
  rw [Command.get_bind_apply, h.root]
  rcases descend_eq h.stored key (show Rep st.nodes (parentOf []) tree from h.placed.rep) h.nonzero
    (h.height_le.trans (by decide)) h.sorted (by simp [before]) (by simp [after]) h.height_lt with
    ⟨o, hmem, hrun⟩ | ⟨fs, hplug, hbefore, hafter, hrun⟩
  · refine .inl ⟨o, h.perm.mem_iff.mp hmem, ?_⟩
    change (descend backing key (st.size + 1) (top tree) (parentOf []) (sideOf []) >>= _) st = _
    rw [Command.bind_ok hrun]
    rfl
  · have htree : plug nil fs = tree := hplug
    subst htree
    refine .inr ⟨fun x hx => ?_, ?_⟩
    · have hx' := h.perm.mem_iff.mpr hx
      rw [inorder_plug, inorder_nil, List.append_nil, List.mem_append] at hx'
      rcases hx' with hx' | hx'
      · exact (hbefore x hx').ne
      · exact (hafter x hx').ne'
    · have hdescend : descend backing key (st.size + 1) (top (plug nil fs)) 0 false st =
          (.ok (.under (parentOf fs) (sideOf fs)), st) := hrun
      rw [Command.bind_ok hdescend]
      rcases h.insertUnder_eq value hbefore hafter with ⟨t, hinsert, hholding, hrest⟩ |
        ⟨failure, hinsert, hcheck⟩
      · exact .inl ⟨t, _, hinsert, hholding, hrest⟩
      · exact .inr ⟨failure, hinsert, hcheck⟩

theorem get_eq (h : Holding backing st tree rows) {o : ℕ} (ho : o ∈ rows.map Prod.fst) :
    ∃ value, valueAt st o = some value ∧ get backing o st = (.ok value, st) := by
  obtain ⟨found, hat, -, -⟩ :=
    h.placed.rep.valid (h.offset_mem.mpr ho) (h.height_le.trans (by decide))
  refine ⟨found.value, ?_, ?_⟩
  · rw [valueAt, hat]
    rfl
  · unfold get
    rw [Command.bind_ok (validate_eq h.stored hat), Command.bind_ok (record_eq hat)]
    rfl

theorem keyAt_eq (h : Holding backing st tree rows) {x : Label} (hx : x ∈ rows) :
    keyAt backing x.1 st = (.ok x.2, st) := by
  have hsmall := h.height_le
  obtain ⟨found, hat, hkey, hlow, hhigh⟩ := h.placed.rep.found (h.perm.mem_iff.mpr hx) (by omega)
  unfold keyAt
  rw [Command.bind_ok (links_eq h.stored hat hlow hhigh), readKey_eq h.stored hat, hkey]

/-- A value is overwritten in place. -/
theorem set_eq (h : Holding backing st tree rows) {o : ℕ} (ho : o ∈ rows.map Prod.fst) (value : V) :
    ∃ t, set backing o value st = (.ok (), t) ∧ Holding backing t tree rows ∧
      ∀ other, valueAt t other = if other = o then some value else valueAt st other := by
  obtain ⟨found, hat, -, -⟩ :=
    h.placed.rep.valid (h.offset_mem.mpr ho) (h.height_le.trans (by decide))
  unfold set
  rw [Command.bind_ok (validate_eq h.stored hat), Command.bind_ok (record_eq hat)]
  have hother : ∀ other, other ≠ o → (st.withRecord o { found with value := value }).nodes other
      = st.nodes other :=
    fun other hne => Function.update_of_ne hne ..
  have hself : (st.withRecord o { found with value := value }).nodes o
      = some { found with value := value } :=
    Function.update_self ..
  have halike : Alike st.nodes (st.withRecord o { found with value := value }).nodes := by
    intro other
    by_cases heq : other = o
    · subst heq
      rw [hself, hat]
      rfl
    · rw [hother other heq]
  refine ⟨_, rfl, ⟨h.stored.alike halike rfl, ⟨h.placed.rep.alike halike, trivial, h.placed.root⟩,
    h.apart, h.balanced,
    h.sorted, h.perm, ?_, h.last, h.size, h.finish⟩, fun other => ?_⟩
  swap
  · unfold valueAt
    by_cases heq : other = o
    · subst heq
      rw [hself, if_pos rfl]
      rfl
    · rw [hother other heq, if_neg heq]
  refine h.chained.congr fun other _ found' hat' => ?_
  by_cases heq : other = o
  · subst heq
    obtain rfl := Option.some.inj (hat.symm.trans hat')
    exact ⟨_, hself, rfl⟩
  · exact ⟨found', (hother other heq).trans hat', rfl⟩

end Holding

end PineForge.DiskTable
