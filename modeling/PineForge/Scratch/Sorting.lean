import Mathlib
import PineForge.Machine.Runs
import PineForge.Scratch.Rows

/-!
# The sort of a sequence

The page readers give the rows of the source, which a sort only flushes. A merge pushes the merged
runs, a pass the runs of twice the width, and the passes end at the one stable arrangement. With it
the calls of a sequence are those of a vector, over whole runs.
-/

namespace PineForge.Scratch

open Window (put window)

variable {α : Type} {rowBytes : ℕ} {s : Sequence α} {rows out : List α} {before : α → α → Bool}
    {st : Sorting α}

theorem Shows.flush (h : Shows rowBytes s rows) : Shows rowBytes s.flush rows := by
  obtain ⟨-, hbase, hend, -, -, -⟩ := flush_frame s
  refine ⟨h.sound.flush, ?_, fun i hi => ?_⟩
  · rw [hend, hbase]
    exact h.length
  · rw [row_flush h.sound, hbase]
    exact h.rows i hi

/-- A reader holds rows of the source. -/
def Reads (reader : PageReader α) (rows : List α) : Prop :=
  ∀ n, n < reader.count → rows[reader.first + n]? = some (reader.values n)

/-- A reader's page has the row asked for. -/
theorem reader_spec (hk : 0 < rowsOf rowBytes) {reader : PageReader α} (h : Shows rowBytes s rows)
    (hreads : Reads reader rows) {index : ℕ} (hindex : index < rows.length) :
    rows[index]? = some (reader.at_ rowBytes index s).1 ∧
      Reads (reader.at_ rowBytes index s).2.1 rows ∧
      Shows rowBytes (reader.at_ rowBytes index s).2.2 rows := by
  unfold PageReader.at_
  split
  · have hmod := Nat.mod_lt index hk
    have hle := Nat.mod_le index (rowsOf rowBytes)
    have hpage : Reads ⟨put reader.values 0
      (window s.flush.file (s.base + (index - index % rowsOf rowBytes))
        (min (rowsOf rowBytes) (s.size - (index - index % rowsOf rowBytes)))),
          index - index % rowsOf rowBytes,
        min (rowsOf rowBytes) (s.size - (index - index % rowsOf rowBytes))⟩ rows := by
      intro n hn
      dsimp only at hn ⊢
      have hread : put reader.values 0
        (window s.flush.file (s.base + (index - index % rowsOf rowBytes))
          (min (rowsOf rowBytes) (s.size - (index - index % rowsOf rowBytes)))) (0 + n) =
          s.flush.file (s.base + (index - index % rowsOf rowBytes) + n) :=
        Window.put_inside _ (Window.getElem?_window _ _ hn)
      rw [Nat.zero_add] at hread
      rw [size_eq h] at hn
      rw [hread, file_flush h.sound, Nat.add_assoc]
      exact h.rows _ (by omega)
    refine ⟨?_, hpage, h.flush⟩
    have hat := hpage (index % rowsOf rowBytes) (by
      dsimp only
      rw [size_eq h]
      omega)
    dsimp only at hat ⊢
    rw [Nat.sub_add_cancel hle] at hat
    rw [hat, Nat.sub_sub_self hle]
  · next hinside =>
    rw [not_or, Nat.not_lt, ge_iff_le, Nat.not_le] at hinside
    refine ⟨?_, hreads, h⟩
    have hat := hreads (index - reader.first) hinside.2
    rwa [Nat.add_sub_cancel' hinside.1] at hat

/-- A sort that reads `rows` and has pushed `out`. -/
structure Merging (rowBytes : ℕ) (st : Sorting α) (rows out : List α) : Prop where
  source : Shows rowBytes st.source rows
  left : Reads st.leftPage rows
  right : Reads st.rightPage rows
  scratch : Shows rowBytes st.scratch out
  base : st.scratch.base = 0

section Steps

variable (hk : 0 < rowsOf rowBytes)

include hk

theorem readLeft_spec (h : Merging rowBytes st rows out) {index : ℕ}
    (hindex : index < rows.length) :
    rows[index]? = some (st.readLeft rowBytes index).1 ∧
      Merging rowBytes (st.readLeft rowBytes index).2 rows out := by
  obtain ⟨hrow, hreads, hsource⟩ := reader_spec hk h.source h.left hindex
  exact ⟨hrow, hsource, hreads, h.right, h.scratch, h.base⟩

theorem readRight_spec (h : Merging rowBytes st rows out) {index : ℕ}
    (hindex : index < rows.length) :
    rows[index]? = some (st.readRight rowBytes index).1 ∧
      Merging rowBytes (st.readRight rowBytes index).2 rows out := by
  obtain ⟨hrow, hreads, hsource⟩ := reader_spec hk h.source h.right hindex
  exact ⟨hrow, hsource, h.left, hreads, h.scratch, h.base⟩

/-- The source has room for what it holds, so a push of the sort is never refused. -/
theorem pushScratch_spec (h : Merging rowBytes st rows out)
    (hroom : out.length < rows.length) (row : α) :
    (Sorting.pushScratch rowBytes (row, st)).1 = .ok () ∧
      Merging rowBytes (Sorting.pushScratch rowBytes (row, st)).2 rows (out ++ [row]) := by
  have hend : st.scratch.end_ = out.length := by
    rw [h.scratch.length, h.base, Nat.zero_add]
  have hoffset : Sequence.hasOffset rowBytes st.scratch.end_ = true := by
    refine h.source.sound.offsets _ ?_
    rw [hend, h.source.length]
    omega
  obtain ⟨hshows, hok, hbase⟩ := pushBack_spec hk h.scratch row hoffset
  exact ⟨hok, h.source, h.left, h.right, hshows, hbase.trans h.base⟩

theorem takesLeft_spec (before : α → α → Bool) (h : Merging rowBytes st rows out)
    {left middle right stop : ℕ} (hmiddle : middle ≤ rows.length)
    (hstop : stop ≤ rows.length) (hright : right ≤ stop) (hmore : left < middle ∨ right < stop) :
    Merging rowBytes (st.takesLeft rowBytes before left middle right stop).2 rows out ∧
      (((st.takesLeft rowBytes before left middle right stop).1 = true ∧ left < middle ∧
          (right = stop ∨ ∃ a b, rows[left]? = some a ∧ rows[right]? = some b ∧
            before b a = false)) ∨
        ((st.takesLeft rowBytes before left middle right stop).1 = false ∧ right < stop ∧
          (left ≥ middle ∨ ∃ a b, rows[left]? = some a ∧ rows[right]? = some b ∧ before b a
            = true))) := by
  unfold Sorting.takesLeft
  split
  · next hempty => exact ⟨h, Or.inl ⟨rfl, by omega, Or.inl hempty⟩⟩
  · next hne =>
    split
    · next hleft =>
      obtain ⟨hb, hmerging⟩ := readRight_spec hk h (show right < rows.length by omega)
      obtain ⟨ha, hmerging'⟩ := readLeft_spec hk hmerging (show left < rows.length by omega)
      refine ⟨hmerging', ?_⟩
      dsimp only
      cases hbefore : before (st.readRight rowBytes right).1
        ((st.readRight rowBytes right).2.readLeft rowBytes left).1 with
      | false => exact Or.inl ⟨rfl, hleft, Or.inr ⟨_, _, ha, hb, hbefore⟩⟩
      | true => exact Or.inr ⟨rfl, by omega, Or.inr ⟨_, _, ha, hb, hbefore⟩⟩
    · next hdone => exact ⟨h, Or.inr ⟨rfl, by omega, Or.inl (Nat.le_of_not_lt hdone)⟩⟩

end Steps

/-- The rows between two places. -/
def slice (rows : List α) (first last : ℕ) : List α := (rows.take last).drop first

theorem slice_cons {first last : ℕ} {row : α} (hrow : rows[first]? = some row)
    (hlt : first < last) :
    slice rows first last = row :: slice rows (first + 1) last := by
  unfold slice
  obtain ⟨hlen, hget⟩ := List.getElem?_eq_some_iff.mp hrow
  rw [List.drop_eq_getElem_cons (by rw [List.length_take]; omega), List.getElem_take, hget]

theorem slice_empty (rows : List α) {first last : ℕ} (h : last ≤ first) :
    slice rows first last = [] := by
  unfold slice
  exact List.drop_eq_nil_of_le (by rw [List.length_take]; omega)

/-- A merge writes out the merged runs. -/
theorem merge_spec (hk : 0 < rowsOf rowBytes) (before : α → α → Bool) {middle stop : ℕ}
    (hmiddle : middle ≤ rows.length) (hstop : stop ≤ rows.length)
    (fuel left right : ℕ) (h : Merging rowBytes st rows out) (hleft : left ≤ middle)
    (hright : right ≤ stop)
    (hfuel : fuel = (middle - left) + (stop - right)) (hroom : out.length + fuel ≤ rows.length) :
    ∃ st', st.merge rowBytes before middle stop fuel left right = (.ok (), st') ∧
      Merging rowBytes st' rows
        (out ++ mergeBy before (slice rows left middle) (slice rows right stop)) := by
  induction fuel generalizing st out left right with
  | zero =>
    refine ⟨st, rfl, ?_⟩
    rw [slice_empty rows (by omega), slice_empty rows (by omega), mergeBy_nil_left, List.append_nil]
    exact h
  | succ fuel ih =>
    unfold Sorting.merge
    rw [if_pos (by omega)]
    dsimp only
    obtain ⟨hchoice, hcases⟩ := takesLeft_spec hk before h hmiddle hstop hright
      (show left < middle ∨ right < stop by omega)
    generalize st.takesLeft rowBytes before left middle right stop = choice at hchoice hcases ⊢
    rcases hcases with ⟨htrue, hlt, hnext⟩ | ⟨hfalse, hlt, hnext⟩
    · obtain ⟨hrow, hmerging⟩ := readLeft_spec hk hchoice (show left < rows.length by omega)
      rw [htrue, if_pos rfl]
      obtain ⟨hok, hpushed⟩ := pushScratch_spec hk hmerging (by omega)
        (choice.2.readLeft rowBytes left).1
      rw [hok]
      dsimp only
      rw [if_pos rfl]
      obtain ⟨st', hrun, hdone⟩ := ih (left + 1) right hpushed (by omega) hright (by omega)
        (by rw [List.length_append, List.length_singleton]; omega)
      refine ⟨st', hrun, ?_⟩
      rw [List.append_assoc, List.singleton_append] at hdone
      rw [slice_cons hrow hlt]
      rcases hnext with rfl | ⟨a, b, ha, hb, hbefore⟩
      · rw [slice_empty rows (le_refl right), mergeBy_nil_right] at hdone ⊢
        exact hdone
      · obtain rfl : (choice.2.readLeft rowBytes left).1 = a := Option.some.inj (hrow.symm.trans ha)
        by_cases hend : right < stop
        · rw [slice_cons hb hend] at hdone ⊢
          rwa [mergeBy_left hbefore]
        · rw [slice_empty rows (Nat.le_of_not_lt hend), mergeBy_nil_right] at hdone ⊢
          exact hdone
    · obtain ⟨hrow, hmerging⟩ := readRight_spec hk hchoice (show right < rows.length by omega)
      rw [hfalse, if_neg Bool.false_ne_true]
      obtain ⟨hok, hpushed⟩ := pushScratch_spec hk hmerging (by omega)
        (choice.2.readRight rowBytes right).1
      rw [hok]
      dsimp only
      rw [if_neg Bool.false_ne_true]
      obtain ⟨st', hrun, hdone⟩ := ih left (right + 1) hpushed hleft (by omega) (by omega)
        (by rw [List.length_append, List.length_singleton]; omega)
      refine ⟨st', hrun, ?_⟩
      rw [List.append_assoc, List.singleton_append] at hdone
      rw [slice_cons hrow hlt]
      by_cases hmore : left < middle
      · rcases hnext with hnot | ⟨a, b, ha, hb, hbefore⟩
        · omega
        · obtain rfl : (choice.2.readRight rowBytes right).1 = b :=
            Option.some.inj (hrow.symm.trans hb)
          rw [slice_cons ha hmore] at hdone ⊢
          rwa [mergeBy_right hbefore]
      · rw [slice_empty rows (Nat.le_of_not_lt hmore), mergeBy_nil_left] at hdone ⊢
        exact hdone

theorem slice_eq (rows : List α) (first last : ℕ) :
    slice rows first last = (rows.drop first).take (last - first) := by
  unfold slice
  exact List.drop_take ..

/-- A pass merges each pair of runs. -/
theorem pass_spec (hk : 0 < rowsOf rowBytes) (before : α → α → Bool) {width : ℕ}
    (hwidth : 0 < width) (fuel start : ℕ)
    (h : Merging rowBytes st rows out) (hstart : out.length = start) (hle : start ≤ rows.length)
    (hfuel : rows.length ≤ start + fuel) :
    ∃ st', st.pass rowBytes before width rows.length fuel start = (.ok (), st') ∧
      Merging rowBytes st' rows (out ++ mergeRuns before width fuel (rows.drop start)) := by
  induction fuel generalizing st out start with
  | zero =>
    refine ⟨st, rfl, ?_⟩
    rw [mergeRuns, List.append_nil]
    exact h
  | succ fuel ih =>
    unfold Sorting.pass
    by_cases hmore : start < rows.length
    · rw [if_pos hmore]
      dsimp only
      obtain ⟨middle, hmiddle⟩ : ∃ middle, middle = start + min width (rows.length - start) :=
        ⟨_, rfl⟩
      obtain ⟨stop, hstop⟩ : ∃ stop, stop = middle + min width (rows.length - middle) := ⟨_, rfl⟩
      rw [← hmiddle, ← hstop]
      obtain ⟨st₁, hrun, hmerged⟩ := merge_spec hk before (show middle ≤ rows.length by omega)
        (show stop ≤ rows.length by omega) (stop - start) start middle h (by omega) (by omega)
          (by omega) (by omega)
      rw [hrun]
      dsimp only
      have hleft : slice rows start middle = (rows.drop start).take width := by
        rw [slice_eq, show middle - start
          = min width (rows.drop start).length by rw [List.length_drop]; omega,
          ← List.take_eq_take_min]
      have hright : slice rows middle stop = ((rows.drop start).drop width).take width := by
        rw [slice_eq, List.drop_drop]
        by_cases hshort : rows.length ≤ start + width
        · rw [List.drop_eq_nil_of_le (show rows.length ≤ middle by omega),
            List.drop_eq_nil_of_le hshort, List.take_nil,
            List.take_nil]
        · rw [show middle = start + width by omega,
            show stop - (start + width) = min width (rows.drop (start + width)).length by
              rw [List.length_drop]; omega,
            ← List.take_eq_take_min]
      have hrest : rows.drop stop = (rows.drop start).drop (2 * width) := by
        rw [List.drop_drop]
        by_cases hshort : rows.length ≤ start + 2 * width
        · rw [List.drop_eq_nil_of_le (show rows.length ≤ stop by omega),
            List.drop_eq_nil_of_le hshort]
        · rw [show stop = start + 2 * width by omega]
      have hlength : (out ++ mergeBy before (slice rows start middle)
          (slice rows middle stop)).length = stop := by
        rw [List.length_append, length_mergeBy, hleft, hright, List.length_take, List.length_take]
        simp only [List.length_drop]
        omega
      obtain ⟨st₂, hrun₂, hdone⟩ := ih stop hmerged hlength (by omega) (by omega)
      refine ⟨st₂, hrun₂, ?_⟩
      rw [hleft, hright, hrest, List.append_assoc] at hdone
      cases hrows : rows.drop start with
      | nil =>
        have hempty := congrArg List.length hrows
        rw [List.length_drop, List.length_nil] at hempty
        omega
      | cons row rest =>
        rw [hrows] at hdone
        rw [mergeRuns]
        exact hdone
    · rw [if_neg hmore]
      refine ⟨st, rfl, ?_⟩
      rw [List.drop_eq_nil_of_le (Nat.le_of_not_lt hmore), mergeRuns, List.append_nil]
      exact h

/-- The passes end in a stable sort. -/
theorem sortFrom_spec (hk : 0 < rowsOf rowBytes) (hbefore : StrictWeak before) (fuel width : ℕ)
    (hwidth : 0 < width)
    {source : List α} {scratch : Sequence α} (h : Shows rowBytes s rows)
    (hruns : RunsOrdered before width rows)
    (hperm : rows.Perm source)
    (hkeeps : ∀ x, rows.filter (same before x) = source.filter (same before x))
    (hfuel : rows.length ≤ width * 2 ^ fuel) :
    ∃ s' sorted, sortFrom rowBytes before fuel width s scratch = (.ok (), s') ∧
      Shows rowBytes s' sorted ∧
      Arrangement before source sorted := by
  induction fuel generalizing s scratch rows width with
  | zero =>
    rw [pow_zero, Nat.mul_one] at hfuel
    exact ⟨s, rows, rfl, h, hperm, hruns.ordered hfuel, hkeeps⟩
  | succ fuel ih =>
    unfold sortFrom
    rw [size_eq h]
    split
    · next hmore =>
      have hstart : Merging rowBytes ⟨s, ⟨s.window, 0, 0⟩, ⟨s.window, 0, 0⟩,
          scratch.clear⟩ rows [] :=
        ⟨h, fun n hn => absurd hn (Nat.not_lt_zero n), fun n hn => absurd hn (Nat.not_lt_zero n),
          clear_spec scratch, rfl⟩
      obtain ⟨st', hrun, hpassed⟩ :=
        pass_spec hk before hwidth rows.length 0 hstart rfl (Nat.zero_le _)
        (Nat.le_add_left ..)
      dsimp only
      rw [hrun]
      dsimp only
      rw [List.nil_append, List.drop_zero] at hpassed
      have hperm' := (mergeRuns_perm before (le_refl rows.length) hwidth).trans hperm
      have hkeeps' : ∀ x, (mergeRuns before width rows.length rows).filter (same before x) =
          source.filter (same before x) := fun x =>
        (filter_mergeRuns hbefore (le_refl rows.length) hwidth hruns x).trans (hkeeps x)
      have hruns' := runsOrdered_mergeRuns hbefore (le_refl rows.length) hwidth hruns
      have hlength := (mergeRuns_perm before (le_refl rows.length) hwidth).length_eq
      split
      · next hlast =>
        refine ⟨st'.scratch, _, rfl, hpassed.scratch, hperm', hruns'.ordered ?_, hkeeps'⟩
        rw [hlength]
        omega
      · rw [Nat.mul_comm width 2]
        refine ih (2 * width) (by omega) hpassed.scratch hruns' hperm' hkeeps' ?_
        rw [hlength]
        calc rows.length ≤ width * 2 ^ (fuel + 1) := hfuel
          _ = 2 * width * 2 ^ fuel := by ring
    · next hdone => exact ⟨s, rows, rfl, h, hperm, hruns.ordered (Nat.le_of_not_lt hdone), hkeeps⟩

theorem stableSort_spec (hk : 0 < rowsOf rowBytes) (hbefore : StrictWeak before)
    (h : Shows rowBytes s rows)
    (fresh : Sequence α) : ∃ s' sorted, s.stableSort rowBytes before fresh = (.ok (), s') ∧
    Shows rowBytes s' sorted ∧
      Arrangement before rows sorted := by
  refine sortFrom_spec hk hbefore s.size 1 Nat.one_pos h (runsOrdered_one before rows)
    (List.Perm.refl rows)
    (fun _ => rfl) ?_
  rw [size_eq h, Nat.one_mul]
  exact Nat.lt_two_pow_self.le

/-! ## Runs -/

/-- The calls with their answers. -/
inductive Event (α : Type) where
  | at_ (index : ℕ) (result : Except Failure α)
  | set (index : ℕ) (value : α) (result : Except Failure Unit)
  | pushBack (value : α)
  | resize (count : ℕ) (value : α)
  | erase (owned : Bool) (first last : ℕ) (result : Except Failure Unit)
  | clear
  | stableSort (before : α → α → Bool)

/-- The calls of a sequence that transfer all of their bytes. -/
inductive Step (rowBytes : ℕ) : Sequence α → Event α → Sequence α → Prop
  | at_ (s : Sequence α) (index : ℕ) : Step rowBytes s (.at_ index (s.at_ rowBytes index).1)
    (s.at_ rowBytes index).2
  | set (s : Sequence α) (index : ℕ) (value : α) :
    Step rowBytes s (.set index value (s.set rowBytes index value).1) (s.set rowBytes index value).2
  | pushBack (s : Sequence α) (value : α) (h : (s.pushBack rowBytes value).1 = .ok ()) :
    Step rowBytes s (.pushBack value) (s.pushBack rowBytes value).2
  | resize (s : Sequence α) (count : ℕ) (value : α)
    (h : (s.resize rowBytes count value).1 = .ok ()) :
    Step rowBytes s (.resize count value) (s.resize rowBytes count value).2
  | erase (s : Sequence α) (owned : Bool) (first last : ℕ) :
    Step rowBytes s (.erase owned first last (s.erase owned first last).1)
      (s.erase owned first last).2
  | clear (s : Sequence α) : Step rowBytes s .clear s.clear
  | stableSort (s fresh : Sequence α) (before : α → α → Bool) (h : StrictWeak before) :
    Step rowBytes s (.stableSort before) (s.stableSort rowBytes before fresh).2

/-- What a vector of the rows does. -/
inductive VectorStep : List α → Event α → List α → Prop
  | at_ {rows : List α} {index : ℕ} :
    VectorStep rows (.at_ index ((rows[index]?).elim (.error .outOfRange) .ok)) rows
  | set {rows : List α} {index : ℕ} {value : α} :
    VectorStep rows (.set index value (if index < rows.length then .ok () else .error .outOfRange))
      (rows.set index value)
  | pushBack {rows : List α} {value : α} : VectorStep rows (.pushBack value) (rows ++ [value])
  | resize {rows : List α} {count : ℕ} {value : α} :
    VectorStep rows (.resize count value)
      (rows.take count ++ List.replicate (count - rows.length) value)
  | erase {rows : List α} {last : ℕ} (h : last ≤ rows.length) :
    VectorStep rows (.erase true 0 last (.ok ())) (rows.drop last)
  | notPrefix {rows : List α} {owned : Bool} {first last : ℕ} (h : owned = false ∨ first ≠ 0 ∨
    last > rows.length) :
    VectorStep rows (.erase owned first last (.error .notPrefix)) rows
  | clear {rows : List α} : VectorStep rows .clear []
  | stableSort {rows sorted : List α} {before : α → α → Bool} (h : Arrangement before rows sorted)
    (hunique : ∀ other, Arrangement before rows other → other = sorted) :
    VectorStep rows (.stableSort before) sorted

/-- Each call is a step of the vector. -/
theorem step_simulates (hk : 0 < rowsOf rowBytes) {t : Sequence α} {e : Event α}
    (h : Shows rowBytes s rows)
    (hstep : Step rowBytes s e t) : ∃ rows', VectorStep rows e rows' ∧ Shows rowBytes t rows' := by
  cases hstep with
  | at_ index =>
    obtain ⟨hshows, hresult⟩ := at_spec hk h index
    rw [hresult]
    exact ⟨rows, .at_, hshows⟩
  | set index value =>
    obtain ⟨hshows, hresult⟩ := set_spec hk h index value
    rw [hresult]
    exact ⟨_, .set, hshows⟩
  | pushBack value hok =>
    have hoffset : Sequence.hasOffset rowBytes s.end_ = true := by
      by_contra hnone
      unfold Sequence.pushBack at hok
      rw [if_neg hnone] at hok
      cases hok
    exact ⟨_, .pushBack, (pushBack_spec hk h value hoffset).1⟩
  | resize count value hok => exact ⟨_, .resize, (resize_spec hk h count value).1 hok⟩
  | erase owned first last =>
    rcases erase_spec h owned first last with ⟨hok, rfl, rfl, hlast, hshows⟩ | ⟨hrefused, hwhy⟩
    · rw [hok]
      exact ⟨_, .erase hlast, hshows⟩
    · rw [hrefused]
      exact ⟨rows, .notPrefix hwhy, h⟩
  | clear => exact ⟨[], .clear, clear_spec s⟩
  | stableSort fresh before hbefore =>
    obtain ⟨s', sorted, hrun, hshows, harrangement⟩ := stableSort_spec hk hbefore h fresh
    rw [hrun]
    exact ⟨sorted, .stableSort harrangement fun other hother => hother.unique hbefore harrangement,
      hshows⟩

/-- A sequence that was used in any way reads as the vector that was used the same way. -/
theorem reads_as_vector {rowBytes : ℕ} (h0 : 0 < rowBytes) (h1 : rowBytes ≤ windowBytes)
    {file firstWindow : ℕ → α}
    {events : List (Event α)} {s : Sequence α}
    (hrun : Runs (Step rowBytes) ⟨file, firstWindow, 0, 0, 0, 0, false⟩ events s) :
    ∃ rows, Runs VectorStep [] events rows ∧ s.size = rows.length ∧
      ∀ index, (s.at_ rowBytes index).1 = (rows[index]?).elim (.error .outOfRange) .ok := by
  have hk := rowsOf_pos h0 h1
  obtain ⟨rows, hvector, hshows⟩ :=
    hrun.simulates VectorStep (fun h hstep => step_simulates hk h hstep)
    (clear_spec ⟨file, firstWindow, 0, 0, 0, 0, false⟩)
  exact ⟨rows, hvector, size_eq hshows, fun index => (at_spec hk hshows index).2⟩

/-- The order of pairs by their first number. -/
def byFirst (a b : ℕ × ℕ) : Bool := a.1 < b.1

theorem strictWeak_byFirst : StrictWeak byFirst where
  irrefl a := decide_eq_false (lt_irrefl a.1)
  trans a b c hab hbc := by
    unfold byFirst at *
    rw [decide_eq_true_eq] at *
    omega
  incomparable a b c hab hba hbc hcb := by
    unfold byFirst at *
    rw [decide_eq_false_iff_not] at *
    rw [decide_eq_false_iff_not]
    omega

/-- Two rows out of order. -/
def twoRows : Sequence (ℕ × ℕ) :=
  (((⟨fun _ => (0, 0), fun _ => (0, 0), 0, 0, 0, 0, false⟩ : Sequence (ℕ × ℕ)).pushBack 65536
    (2, 0)).2.pushBack 65536
    (1, 1)).2

theorem reads_as_vector_sorted : ∃ rows, Runs VectorStep []
    ([] ++ [.pushBack (2, 0)] ++ [.pushBack (1, 1)] ++ [.stableSort byFirst]) rows ∧
      (twoRows.stableSort 65536 byFirst twoRows).2.size = rows.length ∧
      ∀ index, ((twoRows.stableSort 65536 byFirst twoRows).2.at_ 65536 index).1 =
        (rows[index]?).elim (.error .outOfRange) .ok :=
  reads_as_vector (by decide) (by decide)
    (.snoc (.snoc (.snoc .nil (.pushBack _ (2, 0) (by decide +kernel)))
    (.pushBack _ (1, 1) (by decide +kernel)))
      (.stableSort twoRows twoRows byFirst strictWeak_byFirst))

end PineForge.Scratch
