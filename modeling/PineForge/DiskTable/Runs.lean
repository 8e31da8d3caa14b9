import Mathlib
import PineForge.DiskTable.Insertion

/-!
# Runs of a table

Every sequence of insertions and writes of values, from the empty table. The rows are those the
insertions reported as new, in their order; a value is written to a row that an insertion handed
out.
-/

namespace PineForge.DiskTable

open Avl Avl.BinTree

variable {V : Type} {backing : Backing} {st : Table V} {tree : BinTree Label} {rows : List Label}

/-- The table without rows. -/
def Table.empty : Table V := { nodes := fun _ => none }

/-- The runs of calls and the rows they leave. -/
inductive Run (backing : Backing) : Table V → List Label → Prop
  | start : Run backing Table.empty []
  | inserted {st t : Table V} {rows : List Label} {key : Key} {value : V} {at' : ℕ} {fresh : Bool} :
    Run backing st rows → insert backing key value st = (.ok (at', fresh), t) →
      Run backing t (if fresh then rows ++ [(at', key)] else rows)
  | refused {st t : Table V} {rows : List Label} {key : Key} {value : V} {stop : Stop Failure} :
    Run backing st rows → insert backing key value st = (.error stop, t) → Run backing t rows
  | written {st t : Table V} {rows : List Label} {at' : ℕ} {value : V}
    {outcome : Except (Stop Failure) Unit} :
    Run backing st rows → at' ∈ rows.map Prod.fst → set backing at' value st = (outcome, t) →
      Run backing t rows

theorem holding_empty (backing : Backing) : Holding backing (Table.empty : Table V) nil [] where
  stored := ⟨fun _ _ hat => (Option.some_ne_none _ hat.symm).elim, show 1 ≤ offMax by decide⟩
  placed := ⟨trivial, trivial, rfl⟩
  apart := ⟨List.nodup_nil, List.not_mem_nil⟩
  balanced := trivial
  sorted := List.Pairwise.nil
  perm := List.Perm.refl _
  chained := rfl
  last := rfl
  size := rfl
  finish := rfl

theorem Run.holding (h : Run backing st rows) : ∃ tree, Holding backing st tree rows := by
  induction h with
  | start => exact ⟨nil, holding_empty backing⟩
  | @inserted st t rows key value at' fresh _ hinsert ih =>
    obtain ⟨tree, hholding⟩ := ih
    rcases hholding.insert_eq key value with ⟨o, -, hrun⟩ |
      ⟨-, ⟨u, tree', hrun, hgrown, -⟩ | ⟨failure, hrun, -⟩⟩
    · obtain ⟨hresult, rfl⟩ := Prod.mk.inj (hrun.symm.trans hinsert)
      obtain ⟨-, rfl⟩ := Prod.mk.inj (Except.ok.inj hresult)
      exact ⟨tree, hholding⟩
    · obtain ⟨hresult, rfl⟩ := Prod.mk.inj (hrun.symm.trans hinsert)
      obtain ⟨rfl, rfl⟩ := Prod.mk.inj (Except.ok.inj hresult)
      exact ⟨tree', hgrown⟩
    · cases (Prod.mk.inj (hrun.symm.trans hinsert)).1
  | @refused st t rows key value stop _ hinsert ih =>
    obtain ⟨tree, hholding⟩ := ih
    rcases hholding.insert_eq key value with ⟨o, -, hrun⟩ |
      ⟨-, ⟨u, tree', hrun, -⟩ | ⟨failure, hrun, -⟩⟩
    · cases (Prod.mk.inj (hrun.symm.trans hinsert)).1
    · cases (Prod.mk.inj (hrun.symm.trans hinsert)).1
    · obtain ⟨-, rfl⟩ := Prod.mk.inj (hrun.symm.trans hinsert)
      exact ⟨tree, hholding⟩
  | @written st t rows at' value outcome _ hrow hset ih =>
    obtain ⟨tree, hholding⟩ := ih
    obtain ⟨u, hrun, hsame, -⟩ := hholding.set_eq hrow value
    obtain ⟨-, rfl⟩ := Prod.mk.inj (hrun.symm.trans hset)
    exact ⟨tree, hsame⟩

/-! ## What a run leaves -/

/-- The links are those of a balanced search tree over the rows: child and parent links, keys and
heights. -/
structure SearchTree (st : Table V) (tree : BinTree Label) (rows : List Label) : Prop where
  rep : Rep st.nodes 0 tree
  root : st.root = top tree
  balanced : tree.Balanced
  sorted : Sorted tree.inorder
  rows : tree.inorder.Perm rows

/-- A walk from an offset visits these nodes, one call of `next` each, and ends at zero. -/
def Visits (next : ℕ → Action V ℕ) (st : Table V) : ℕ → List ℕ → Prop
  | at', [] => at' = 0
  | at', o :: os => at' = o ∧ o ≠ 0 ∧ ∃ n, next o st = (.ok n, st) ∧ Visits next st n os

namespace Holding

theorem visits_sorted (h : Holding backing st tree rows) :
    Visits (nextSorted backing) st (headOffset tree.inorder) (offsets tree) := by
  -- along the labels from any place of the order on
  have hgen : ∀ (suf pre : List Label), tree.inorder = pre ++ suf →
      Visits (nextSorted backing) st (headOffset suf) (suf.map Prod.fst) := by
    intro suf
    induction suf with
    | nil =>
      intro pre _
      rfl
    | cons x suf ih =>
      intro pre hsplit
      have hmem : x.1 ∈ offsets tree := by
        rw [offsets, hsplit]
        simp
      refine ⟨rfl, ?_, headOffset suf, h.nextSorted_eq hsplit, ih (pre ++ [x]) ?_⟩
      · intro hz
        rw [hz] at hmem
        exact h.nonzero hmem
      · rw [hsplit, List.append_assoc]
        rfl
  exact hgen tree.inorder [] rfl

theorem visits_inserted (h : Holding backing st tree rows) :
    Visits (nextInserted backing) st st.first (rows.map Prod.fst) := by
  have hgen : ∀ (suf : List Label) (at' : ℕ), (∀ o ∈ suf.map Prod.fst, o ∈ offsets tree) →
      Chained st.nodes at' suf → Visits (nextInserted backing) st at' (suf.map Prod.fst) := by
    intro suf
    induction suf with
    | nil =>
      intro at' _ hchain
      exact hchain
    | cons x suf ih =>
      intro at' hmem hchain
      obtain ⟨hat', found, hat, hrest⟩ := hchain
      have hx : x.1 ∈ offsets tree := hmem x.1 List.mem_cons_self
      obtain ⟨found', hfound', hlow, hhigh⟩ := h.placed.rep.valid hx (h.height_le.trans (by decide))
      obtain rfl := Option.some.inj (hat.symm.trans hfound')
      refine ⟨hat', ?_, found.links.next, ?_,
        ih _ (fun o ho => hmem o (List.mem_cons_of_mem _ ho)) hrest⟩
      · intro hz
        rw [hz] at hx
        exact h.nonzero hx
      · unfold nextInserted
        rw [Command.bind_ok (links_eq h.stored hat hlow hhigh)]
        rfl
  exact hgen rows st.first (fun o ho => h.offset_mem.mpr ho) h.chained

theorem keys_nodup (h : Holding backing st tree rows) : (rows.map Prod.snd).Nodup := by
  refine ((h.perm.map Prod.snd).nodup_iff).mp ?_
  rw [List.nodup_iff_pairwise_ne, List.pairwise_map]
  exact h.sorted.imp fun hless => hless.ne

end Holding

/-- After every run the links are those of a balanced search tree, a search ends at the key's row
exactly where the key was inserted, the two walks go through the rows in the order of the keys and
in the order of the insertions, and an insertion writes only for a new key. -/
theorem ordered_map_of_run (h : Run backing st rows) :
    (rows.map Prod.fst).Nodup ∧ (rows.map Prod.snd).Nodup ∧
      (∃ tree, SearchTree st tree rows ∧ ∃ at', firstSorted backing st = (.ok at', st) ∧
        Visits (nextSorted backing) st at' (offsets tree)) ∧
      (∃ at', firstInserted st = (.ok at', st) ∧
        Visits (nextInserted backing) st at' (rows.map Prod.fst)) ∧
      (∀ key, (∃ o, (o, key) ∈ rows ∧ find backing key st = (.ok (some o), st)) ∨
        key ∉ rows.map Prod.snd ∧ find backing key st = (.ok none, st)) ∧
      ∀ key value, (∃ o, (o, key) ∈ rows ∧ insert backing key value st = (.ok (o, false), st)) ∨
        key ∉ rows.map Prod.snd ∧ ((∃ o t, insert backing key value st = (.ok (o, true), t)) ∨
          ∃ failure, insert backing key value st = (.error (.thrown failure), st)) := by
  obtain ⟨tree, hholding⟩ := h.holding
  have habsent : ∀ key, (∀ x ∈ rows, x.2 ≠ key) → key ∉ rows.map Prod.snd := by
    intro key hnone hmem
    obtain ⟨x, hx, heq⟩ := List.mem_map.mp hmem
    exact hnone x hx heq
  refine ⟨(hholding.perm.map Prod.fst).nodup_iff.mp hholding.nodup, hholding.keys_nodup,
    ⟨tree, ?_, ?_⟩, ?_, fun key => ?_,
    fun key value => ?_⟩
  · exact ⟨hholding.placed.rep, hholding.root, hholding.balanced, hholding.sorted, hholding.perm⟩
  · exact ⟨_, hholding.firstSorted_eq, hholding.visits_sorted⟩
  · exact ⟨st.first, rfl, hholding.visits_inserted⟩
  · rcases hholding.find_eq key with hfound | ⟨hnone, hrun⟩
    · exact .inl hfound
    · exact .inr ⟨habsent key hnone, hrun⟩
  · rcases hholding.insert_eq key value with hfound | ⟨hnone, ⟨t, -, hrun, -⟩ | ⟨failure, hrun, -⟩⟩
    · exact .inl hfound
    · exact .inr ⟨habsent key hnone, .inl ⟨_, t, hrun⟩⟩
    · exact .inr ⟨habsent key hnone, .inr ⟨failure, hrun⟩⟩

/-- The table after the insertion of three keys, the largest first. -/
def oneRow : Table ℕ := (insert ⟨8, none⟩ [99] 3 Table.empty).2

/-- A second row, under the first. -/
def twoRows : Table ℕ := (insert ⟨8, none⟩ [97] 1 oneRow).2

/-- A third, between them. -/
def threeRows : Table ℕ := (insert ⟨8, none⟩ [98] 2 twoRows).2

theorem run_threeRows : Run ⟨8, none⟩ threeRows [(1, [99]), (66, [97]), (131, [98])] := by
  have hone : Run ⟨8, none⟩ oneRow [(1, [99])] := by
    have hrun : insert ⟨8, none⟩ [99] 3 (Table.empty : Table ℕ) = (.ok (1, true), oneRow) :=
      Prod.ext (by decide +kernel) (by rw [oneRow])
    exact Run.start.inserted hrun
  have htwo : Run ⟨8, none⟩ twoRows [(1, [99]), (66, [97])] := by
    have hrun : insert ⟨8, none⟩ [97] 1 oneRow = (.ok (66, true), twoRows) :=
      Prod.ext (by decide +kernel) (by rw [twoRows])
    exact hone.inserted hrun
  have hrun : insert ⟨8, none⟩ [98] 2 twoRows = (.ok (131, true), threeRows) :=
    Prod.ext (by decide +kernel) (by rw [threeRows])
  exact htwo.inserted hrun

theorem ordered_map_of_run_threeRows :
    Run ⟨8, none⟩ threeRows [(1, [99]), (66, [97]), (131, [98])] ∧ threeRows.root = 131 ∧
      ∃ at', firstInserted threeRows = (.ok at', threeRows) ∧
        Visits (nextInserted ⟨8, none⟩) threeRows at' [1, 66, 131] :=
  ⟨run_threeRows, by decide +kernel, (ordered_map_of_run run_threeRows).2.2.2.1⟩

/-- In every run the tree is as shallow as its rows allow, and no height comes near the 128 that a
row is refused for as corrupt. -/
theorem heights_of_run (h : Run backing st rows) :
    ∃ tree, SearchTree st tree rows ∧ 2 ^ (tree.height / 2) ≤ rows.length + 1 ∧
      tree.height ≤ 123 := by
  obtain ⟨tree, hholding⟩ := h.holding
  refine ⟨tree, ⟨hholding.placed.rep, hholding.root, hholding.balanced, hholding.sorted,
    hholding.perm⟩, ?_,
    hholding.height_le⟩
  rw [← hholding.length_inorder]
  exact two_pow_le hholding.balanced

/-- The three rows are a tree whose middle key was rotated up. -/
theorem heights_of_run_threeRows : threeRows.root = 131 ∧
    ∃ tree, SearchTree threeRows tree [(1, [99]), (66, [97]), (131, [98])] ∧
      2 ^ (tree.height / 2) ≤ 3 + 1 ∧
      tree.height ≤ 123 :=
  ⟨by decide +kernel, heights_of_run run_threeRows⟩

end PineForge.DiskTable
