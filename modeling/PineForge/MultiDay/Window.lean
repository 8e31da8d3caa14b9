import Mathlib
import PineForge.Machine.Generator

/-!
# A window on a generated table

A source answers which entry of an increasing table an instant falls to from the recent entries and
the next one ahead. An instant before the recent ones starts the generator over and one after them
advances it. Whatever the order of the questions, the answers are those of the stored table
(`answers_eq`).
-/

namespace PineForge.MultiDay

/-- The entry of a table at or before an instant, and whether it is the final one. -/
def tableAt (table : List ℤ) (ms : ℤ) : Option (ℤ × Bool) :=
  ((table.filter (· ≤ ms)).getLast?).map fun stamp => (stamp, table.getLast? = some stamp)

theorem tableAt_append {before after : List ℤ} {ms : ℤ} (hbefore : ∀ e ∈ before, e ≤ ms)
    (hafter : ∀ e ∈ after, ms < e) :
    tableAt (before ++ after) ms = (before.getLast?).map fun stamp =>
      (stamp, decide (after = [])) := by
  have hleft : before.filter (· ≤ ms) = before := List.filter_eq_self.mpr fun e he => by
    simpa using hbefore e he
  have hright : after.filter (· ≤ ms) = [] :=
    List.filter_eq_nil_iff.mpr fun e he => by simpa using hafter e he
  unfold tableAt
  rw [List.filter_append, hleft, hright, List.append_nil]
  cases hlast : before.getLast? with
  | none => rfl
  | some stamp =>
    have hstamp : stamp ≤ ms := hbefore stamp (List.mem_of_getLast? hlast)
    rw [Option.map_some, Option.map_some, Option.some.injEq, Prod.mk.injEq]
    refine ⟨rfl, ?_⟩
    rw [List.getLast?_append]
    cases hend : after.getLast? with
    | none =>
      rw [List.getLast?_eq_none_iff.mp hend, hlast]
      simp
    | some final =>
      have hfinal : ms < final := hafter final (List.mem_of_getLast? hend)
      have hne : after ≠ [] := by
        rintro rfl
        cases hend
      simp only [Option.some_or, Option.some.injEq, hne, decide_false, decide_eq_false_iff_not]
      omega

/-- The most recent entries that a source holds. -/
def buffered : ℕ := 15

/-- The generator and its recent stamps. -/
structure Source (σ : Type) where
  stamps : σ
  recent : List ℤ
  next : Option ℤ

section

variable {σ : Type} (g : Generator σ ℤ)

/-- Takes the next entry into the recent ones, the oldest leaving when they are full. -/
def advance (stamp : ℤ) (src : Source σ) : Source σ :=
  let recent := src.recent ++ [stamp]
  let (next, stamps) := g.next src.stamps
  ⟨stamps, if buffered < recent.length then recent.tail else recent, next⟩

/-- Advance to an instant. -/
def advanceTo (ms : ℤ) (src : Source σ) : Source σ :=
  match hnext : src.next with
  | none => src
  | some stamp => if stamp ≤ ms then advanceTo ms (advance g stamp src) else src
termination_by g.size src.stamps + src.next.toList.length
decreasing_by
  rw [hnext, Option.toList_some, List.length_singleton]
  unfold advance
  dsimp only
  cases h : (g.next src.stamps).1 with
  | none => exact Nat.lt_succ_of_le (g.ends _ h)
  | some next =>
    rw [Option.toList_some, List.length_singleton]
    exact Nat.succ_lt_succ (g.shrinks _ _ h)

variable (start : σ)

/-- The first entry and the one after it. -/
def restart : Source σ :=
  match g.next start with
  | (none, stamps) => ⟨stamps, [], none⟩
  | (some first, stamps) =>
    let (next, stamps) := g.next stamps
    ⟨stamps, [first], next⟩

/-- The stamp at or before an instant. -/
def stampAt (firstStamp ms : ℤ) (src : Source σ) : Option (ℤ × Bool) × Source σ :=
  if ms < firstStamp then (none, src)
  else
    let src := if src.recent.head?.all (ms < ·) then restart g start else src
    if src.recent = [] then (none, src)
    else
      let src := advanceTo g ms src
      let before := src.recent.takeWhile (· ≤ ms)
      (before.getLast?.map fun stamp =>
        (stamp, src.next.isNone && before.length == src.recent.length), src)

/-- The answers to a sequence of questions. -/
def answers (firstStamp : ℤ) : List ℤ → Source σ → List (Option (ℤ × Bool))
  | [], _ => []
  | ms :: queries, src =>
    (stampAt g start firstStamp ms src).1 :: answers firstStamp queries
    (stampAt g start firstStamp ms src).2

end

/-! ## The window is on the table -/

section

variable {σ : Type} {g : Generator σ ℤ} {start : σ} {table : List ℤ} {src : Source σ}

/-- A generator that has ended stays so. -/
def Settles (g : Generator σ ℤ) : Prop := ∀ st, (g.next st).1 = none → g.list (g.next st).2 = []

/-- The window is on the table: what the generator is still to give follows it. -/
structure Covers (g : Generator σ ℤ) (table : List ℤ) (src : Source σ) : Prop where
  split : ∃ earlier, table = earlier ++ (src.recent ++ (src.next.toList ++ g.list src.stamps))
  ended : src.next = none → g.list src.stamps = []

theorem list_split (g : Generator σ ℤ) (st : σ) (h : Settles g) :
    g.list st = (g.next st).1.toList ++ g.list (g.next st).2 := by
  cases hnext : (g.next st).1 with
  | none => rw [Generator.list_of_none hnext, h st hnext, Option.toList_none, List.append_nil]
  | some a => rw [Generator.list_of_some hnext, Option.toList_some, List.singleton_append]

theorem Covers.advance (hsettles : Settles g) (h : Covers g table src) {stamp : ℤ}
    (hnext : src.next = some stamp) :
    Covers g table (advance g stamp src) := by
  obtain ⟨⟨earlier, hsplit⟩, -⟩ := h
  rw [hnext, Option.toList_some, list_split g src.stamps hsettles] at hsplit
  refine ⟨?_, fun hnone => hsettles src.stamps hnone⟩
  unfold MultiDay.advance
  dsimp only
  split
  · cases hrecent : src.recent ++ [stamp] with
    | nil => simp at hrecent
    | cons oldest recent =>
      refine ⟨earlier ++ [oldest], ?_⟩
      rw [hsplit, ← List.append_assoc src.recent, hrecent]
      simp
  · refine ⟨earlier, ?_⟩
    rw [hsplit]
    simp

/-- The instant is not before the recent entries. -/
def Reaches (ms : ℤ) (src : Source σ) : Prop := ∃ oldest ∈ src.recent.head?, oldest ≤ ms

/-- The window reaches as far as before. -/
theorem Reaches.advance {ms stamp : ℤ} (hincreasing : table.Pairwise (· < ·))
    (hcovers : Covers g table src)
    (hnext : src.next = some stamp) (hstamp : stamp ≤ ms) (h : Reaches ms src) :
    Reaches ms (advance g stamp src) := by
  obtain ⟨⟨earlier, hsplit⟩, -⟩ := hcovers
  obtain ⟨oldest, holdest, hle⟩ := h
  have hrecent : (src.recent ++ [stamp]).Pairwise (· < ·) := by
    rw [hsplit, hnext, Option.toList_some] at hincreasing
    refine hincreasing.sublist (List.Sublist.trans ?_ (List.sublist_append_right ..))
    exact (List.sublist_append_left [stamp] _).append_left src.recent
  obtain ⟨recent, hcons⟩ : ∃ recent, src.recent = oldest :: recent := by
    cases hlist : src.recent with
    | nil =>
      rw [hlist] at holdest
      cases holdest
    | cons first recent =>
      rw [hlist] at holdest
      cases holdest
      exact ⟨recent, rfl⟩
  unfold Reaches MultiDay.advance
  dsimp only
  rw [hcons] at hrecent ⊢
  split
  · -- the oldest leaves; the one after it is at most the entry taken
    cases recent with
    | nil => exact ⟨stamp, rfl, hstamp⟩
    | cons second recent =>
      refine ⟨second, rfl, le_trans (le_of_lt ?_) hstamp⟩
      have htail := (List.pairwise_cons.mp hrecent).2
      exact (List.pairwise_cons.mp htail).1 stamp (by simp)
  · exact ⟨oldest, rfl, hle⟩

theorem advanceTo_spec {ms : ℤ} (hsettles : Settles g) (hincreasing : table.Pairwise (· < ·))
    (hcovers : Covers g table src) (h : Reaches ms src) :
    Covers g table (advanceTo g ms src) ∧ Reaches ms (advanceTo g ms src) ∧
      ∀ stamp ∈ (advanceTo g ms src).next, ms < stamp := by
  fun_induction advanceTo g ms src with
  | case1 src hnext =>
    refine ⟨hcovers, h, fun stamp hstamp => ?_⟩
    rw [hnext] at hstamp
    cases hstamp
  | case2 src stamp hnext hle ih =>
    exact ih (hcovers.advance hsettles hnext) (h.advance hincreasing hcovers hnext hle)
  | case3 src stamp hnext hlt =>
    refine ⟨hcovers, h, fun stamp' hstamp => ?_⟩
    rw [hnext] at hstamp
    cases hstamp
    exact not_le.mp hlt

theorem lt_of_mem_dropWhile {ms e : ℤ} {recent : List ℤ}
    (h : (recent.dropWhile (· ≤ ms)).Pairwise (· < ·))
    (he : e ∈ recent.dropWhile (· ≤ ms)) : ms < e := by
  have hhead := List.head?_dropWhile_not (fun e => decide (e ≤ ms)) recent
  cases hlist : recent.dropWhile (· ≤ ms) with
  | nil =>
    rw [hlist] at he
    cases he
  | cons first rest =>
    rw [hlist] at he h hhead
    have hfirst : ms < first := by simpa using hhead
    rcases List.mem_cons.mp he with rfl | he
    · exact hfirst
    · exact hfirst.trans ((List.pairwise_cons.mp h).1 e he)

/-- A window that reaches an instant, with the next entry beyond it, answers as the table. -/
theorem window_answer {ms : ℤ} (hincreasing : table.Pairwise (· < ·)) (hcovers : Covers g table src)
    (h : Reaches ms src) (hnext : ∀ stamp ∈ src.next, ms < stamp) :
    ((src.recent.takeWhile (· ≤ ms)).getLast?).map (fun stamp =>
        (stamp, src.next.isNone && (src.recent.takeWhile (· ≤ ms)).length == src.recent.length))
      = tableAt table ms := by
  obtain ⟨⟨earlier, hsplit⟩, hended⟩ := hcovers
  obtain ⟨oldest, holdest, hle⟩ := h
  obtain ⟨before, hbefore⟩ : ∃ before, before = src.recent.takeWhile (· ≤ ms) := ⟨_, rfl⟩
  obtain ⟨after, hafter⟩ : ∃ after, after = src.recent.dropWhile (· ≤ ms) := ⟨_, rfl⟩
  have hrecent : before ++ after = src.recent := by
    rw [hbefore, hafter, List.takeWhile_append_dropWhile]
  have hmem : oldest ∈ before := by
    cases hlist : src.recent with
    | nil =>
      rw [hlist] at holdest
      cases holdest
    | cons first recent =>
      rw [hlist] at holdest hbefore
      cases holdest
      rw [hbefore, List.takeWhile_cons_of_pos (by simpa using hle)]
      exact List.mem_cons_self ..
  rw [← hrecent, List.append_assoc, ← List.append_assoc] at hsplit
  have hpair := hsplit ▸ hincreasing
  obtain ⟨hleft, hright, hcross⟩ := List.pairwise_append.mp hpair
  have hlow : ∀ e ∈ earlier ++ before, e ≤ ms := by
    intro e he
    rcases List.mem_append.mp he with he | he
    · exact ((List.pairwise_append.mp hleft).2.2 e he oldest hmem).le.trans hle
    · rw [hbefore] at he
      simpa using List.mem_takeWhile_imp he
  have hhigh : ∀ e ∈ after ++ (src.next.toList ++ g.list src.stamps), ms < e := by
    have hlist : ∀ e ∈ src.next.toList ++ g.list src.stamps, ms < e := by
      have hsorted := (List.pairwise_append.mp hright).2.1
      cases hn : src.next with
      | none =>
        rw [hended hn]
        exact nofun
      | some stamp =>
        rw [hn, Option.toList_some, List.singleton_append] at hsorted
        intro e he
        rw [Option.toList_some, List.singleton_append] at he
        rcases List.mem_cons.mp he with rfl | he
        · exact hnext _ hn
        · exact (hnext _ hn).trans ((List.pairwise_cons.mp hsorted).1 e he)
    intro e he
    rcases List.mem_append.mp he with he | he
    · have hsorted := (List.pairwise_append.mp hright).1
      rw [hafter] at he hsorted
      exact lt_of_mem_dropWhile hsorted he
    · exact hlist e he
  rw [hsplit, tableAt_append hlow hhigh, ← hbefore,
    List.getLast?_append_of_ne_nil _ (List.ne_nil_of_mem hmem)]
  congr 1
  funext stamp
  rw [Prod.mk.injEq]
  refine ⟨rfl, ?_⟩
  rw [← hrecent, List.length_append]
  cases hn : src.next with
  | none =>
    rw [hended hn]
    cases after with
    | nil => simp
    | cons first rest => simp
  | some stamp => simp

theorem restart_covers (hsettles : Settles g) (htable : g.list start = table) {firstStamp : ℤ}
    (hfirst : table.head? = some firstStamp) :
    Covers g table (restart g start) ∧ (restart g start).recent = [firstStamp] := by
  subst htable
  cases h : (g.next start).1 with
  | none =>
    rw [Generator.list_of_none h] at hfirst
    cases hfirst
  | some first =>
    rw [Generator.list_of_some h, List.head?_cons, Option.some.injEq] at hfirst
    have hrun : restart g start
        = ⟨(g.next (g.next start).2).2, [first], (g.next (g.next start).2).1⟩ := by
      unfold restart
      split
      · rename_i stamps heq
        rw [heq] at h
        cases h
      · rename_i first' stamps heq
        rw [heq] at h ⊢
        cases h
        rfl
    rw [hrun]
    refine ⟨⟨⟨[], ?_⟩, fun hnone => hsettles _ hnone⟩, congrArg ([·]) hfirst⟩
    rw [Generator.list_of_some h, list_split g (g.next start).2 hsettles]
    rfl

/-- A source before its first question, or with its window on the table. -/
def Ready (g : Generator σ ℤ) (table : List ℤ) (src : Source σ) : Prop :=
  src.recent = [] ∨ Covers g table src

/-- A query answers as the table. -/
theorem stampAt_spec (hsettles : Settles g) (htable : g.list start = table)
    (hincreasing : table.Pairwise (· < ·))
    {firstStamp : ℤ} (hfirst : table.head? = some firstStamp) (h : Ready g table src) (ms : ℤ) :
    (stampAt g start firstStamp ms src).1 = tableAt table ms ∧
      Ready g table (stampAt g start firstStamp ms src).2 := by
  obtain ⟨rest, rfl⟩ : ∃ rest, table = firstStamp :: rest := by
    cases table with
    | nil => cases hfirst
    | cons first rest =>
      cases hfirst
      exact ⟨rest, rfl⟩
  unfold stampAt
  split
  · rename_i hbefore
    refine ⟨?_, h⟩
    have hall : ∀ e ∈ firstStamp :: rest, ms < e := by
      intro e he
      rcases List.mem_cons.mp he with rfl | he
      · exact hbefore
      · exact hbefore.trans ((List.pairwise_cons.mp hincreasing).1 e he)
    exact (@tableAt_append [] (firstStamp :: rest) ms nofun hall).symm
  · rename_i hnot
    obtain ⟨hcovers', hrecent⟩ := restart_covers hsettles htable hfirst
    have hwindow : Covers g (firstStamp :: rest) (if src.recent.head?.all (ms < ·) then
      restart g start else src) ∧
        Reaches ms (if src.recent.head?.all (ms < ·) then restart g start else src) := by
      split
      · refine ⟨hcovers', firstStamp, ?_, not_lt.mp hnot⟩
        rw [hrecent]
        rfl
      · rename_i hreached
        cases hlist : src.recent with
        | nil =>
          rw [hlist] at hreached
          exact absurd rfl hreached
        | cons oldest recent =>
          rw [hlist] at hreached
          refine ⟨h.resolve_left (by rw [hlist]; simp), oldest, ?_, ?_⟩
          · rw [hlist]
            rfl
          · simpa using hreached
    dsimp only
    generalize (if src.recent.head?.all (ms < ·) then restart g start else src) = src' at hwindow
    obtain ⟨hcovers, hreaches⟩ := hwindow
    have hne : src'.recent ≠ [] := by
      obtain ⟨oldest, holdest, -⟩ := hreaches
      intro hnil
      rw [hnil] at holdest
      cases holdest
    rw [if_neg hne]
    obtain ⟨hcov, hreach, hbeyond⟩ := advanceTo_spec hsettles hincreasing hcovers hreaches
    exact ⟨window_answer hincreasing hcov hreach hbeyond, .inr hcov⟩

theorem answers_eq (hsettles : Settles g) (htable : g.list start = table)
    (hincreasing : table.Pairwise (· < ·))
    {firstStamp : ℤ} (hfirst : table.head? = some firstStamp) (h : Ready g table src)
    (queries : List ℤ) :
    answers g start firstStamp queries src = queries.map (tableAt table) := by
  induction queries generalizing src with
  | nil => rfl
  | cons ms queries ih =>
    obtain ⟨hanswer, hready⟩ := stampAt_spec hsettles htable hincreasing hfirst h ms
    rw [answers, hanswer, ih hready, List.map_cons]

end

end PineForge.MultiDay
