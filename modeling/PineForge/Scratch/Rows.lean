import Mathlib
import PineForge.Scratch.Sequence

/-!
# The rows of a sequence

A row is in the window where that has its page, and in the file elsewhere (`Sequence.row`). Flushing
and loading move rows between the two and change none. `Shows` ties a sequence to the list of its
rows, and each call does to it what the call of a vector does.
-/

namespace PineForge.Scratch

open Window (put window)

variable {α : Type} {rowBytes : ℕ} {s : Sequence α} {rows : List α}

/-- A row, from the window or the file. -/
def Sequence.row (s : Sequence α) (j : ℕ) : α :=
  if s.page ≤ j ∧ j < s.page + s.loaded then s.window (j - s.page) else s.file j

/-- The window has a whole page, or its part in front of the end, or nothing. -/
structure Sound (rowBytes : ℕ) (s : Sequence α) : Prop where
  ordered : s.base ≤ s.end_
  aligned : s.page % rowsOf rowBytes = 0
  loaded : s.loaded ≠ 0 → s.loaded = min (rowsOf rowBytes) (s.end_ - s.page)
  clean : s.dirty = false → ∀ n, n < s.loaded → s.window n = s.file (s.page + n)
  dirty : s.dirty = true → s.loaded ≠ 0
  offsets : ∀ i, i < s.end_ → Sequence.hasOffset rowBytes i = true

/-- The sequence reads as the list. -/
structure Shows (rowBytes : ℕ) (s : Sequence α) (rows : List α) : Prop where
  sound : Sound rowBytes s
  length : s.end_ = s.base + rows.length
  rows : ∀ i, i < rows.length → rows[i]? = some (s.row (s.base + i))

theorem rowsOf_pos (h0 : 0 < rowBytes) (h1 : rowBytes ≤ windowBytes) : 0 < rowsOf rowBytes :=
  Nat.div_pos h1 h0

/-! ## Flushing and loading -/

theorem row_inside {n : ℕ} (h : n < s.loaded) : s.row (s.page + n) = s.window n := by
  unfold Sequence.row
  rw [if_pos ⟨Nat.le_add_right .., by omega⟩, Nat.add_sub_cancel_left]

theorem file_flush (h : Sound rowBytes s) (j : ℕ) : s.flush.file j = s.row j := by
  unfold Sequence.flush
  by_cases hin : s.page ≤ j ∧ j < s.page + s.loaded
  · obtain ⟨n, rfl⟩ := Nat.exists_eq_add_of_le hin.1
    have hn : n < s.loaded := by omega
    rw [row_inside hn]
    split
    · exact Window.put_inside _ (by rw [Window.getElem?_window _ _ hn, Nat.zero_add])
    · next hclean => exact (h.clean (Bool.eq_false_iff.mpr hclean) n hn).symm
  · have hrow : s.row j = s.file j := if_neg hin
    rw [hrow]
    split
    · refine Window.put_outside _ ?_
      rw [Window.length_window]
      omega
    · rfl

theorem flush_frame (s : Sequence α) : s.flush.window = s.window ∧ s.flush.base = s.base ∧
    s.flush.end_ = s.end_ ∧
    s.flush.page = s.page ∧ s.flush.loaded = s.loaded ∧ s.flush.dirty = false := by
  unfold Sequence.flush
  split
  · exact ⟨rfl, rfl, rfl, rfl, rfl, rfl⟩
  · next hclean => exact ⟨rfl, rfl, rfl, rfl, rfl, Bool.eq_false_iff.mpr hclean⟩

theorem row_flush (h : Sound rowBytes s) : s.flush.row = s.row := by
  obtain ⟨hwindow, -, -, hpage, hloaded, -⟩ := flush_frame s
  funext j
  by_cases hin : s.page ≤ j ∧ j < s.page + s.loaded
  · unfold Sequence.row
    rw [hwindow, hpage, hloaded, if_pos hin, if_pos hin]
  · rw [← file_flush h]
    unfold Sequence.row
    rw [hpage, hloaded, if_neg hin]

theorem Sound.flush (h : Sound rowBytes s) : Sound rowBytes s.flush := by
  obtain ⟨hwindow, hbase, hend, hpage, hloaded, hdirty⟩ := flush_frame s
  refine ⟨?_, ?_, ?_, fun _ n hn => ?_, fun habsurd => ?_, ?_⟩
  · rw [hbase, hend]
    exact h.ordered
  · rw [hpage]
    exact h.aligned
  · rw [hloaded, hend, hpage]
    exact h.loaded
  · rw [hloaded] at hn
    rw [hwindow, hpage, file_flush h, row_inside hn]
  · rw [hdirty] at habsurd
    cases habsurd
  · rw [hend]
    exact h.offsets

/-- The page of a row. -/
def pageOf (rowBytes global : ℕ) : ℕ := global - global % rowsOf rowBytes

theorem pageOf_add (rowBytes global : ℕ) :
    pageOf rowBytes global + global % rowsOf rowBytes = global :=
  Nat.sub_add_cancel (Nat.mod_le ..)

theorem pageOf_aligned (rowBytes global : ℕ) : pageOf rowBytes global % rowsOf rowBytes = 0 := by
  unfold pageOf
  exact Nat.sub_mod_eq_zero_of_mod_eq (Nat.mod_mod ..).symm

/-- A window over another page, after a flush. -/
def Sequence.moved (s : Sequence α) (next count : ℕ) : Sequence α :=
  { s.flush with window := put s.flush.window 0 (Window.window s.flush.file next count),
                 page := next, loaded := count }

theorem load_cases (rowBytes global : ℕ) (s : Sequence α) :
    (s.loaded ≠ 0 ∧ s.page = pageOf rowBytes global ∧ s.load rowBytes global = s) ∨
      s.load rowBytes global =
        s.moved (pageOf rowBytes global)
          (min (rowsOf rowBytes) (s.end_ - pageOf rowBytes global)) := by
  have hload : s.load rowBytes global = if s.loaded ≠ 0 ∧ s.page = pageOf rowBytes global then s
      else s.moved (pageOf rowBytes global)
        (if pageOf rowBytes global < s.end_ then
          min (rowsOf rowBytes) (s.end_ - pageOf rowBytes global) else 0) := rfl
  by_cases hthere : s.loaded ≠ 0 ∧ s.page = pageOf rowBytes global
  · refine Or.inl ⟨hthere.1, hthere.2, ?_⟩
    rw [hload, if_pos hthere]
  · refine Or.inr ?_
    rw [hload, if_neg hthere]
    congr 1
    split
    · rfl
    · omega

theorem window_moved (s : Sequence α) (next : ℕ) {count n : ℕ} (hn : n < count) :
    (s.moved next count).window n = s.flush.file (next + n) := by
  have hread : put s.flush.window 0 (window s.flush.file next count) (0 + n)
      = s.flush.file (next + n) :=
    Window.put_inside _ (Window.getElem?_window _ _ hn)
  rwa [Nat.zero_add] at hread

theorem row_moved (h : Sound rowBytes s) (next count : ℕ) : (s.moved next count).row = s.row := by
  funext j
  rw [← file_flush h]
  unfold Sequence.row
  split
  · next hin =>
    obtain ⟨n, rfl⟩ := Nat.exists_eq_add_of_le hin.1
    have hn : n < count := by
      have hlt := hin.2
      change (next + n) < next + count at hlt
      omega
    change (s.moved next count).window (next + n - next) = _
    rw [Nat.add_sub_cancel_left, window_moved s next hn]
    rfl
  · rfl

theorem load_frame (h : Sound rowBytes s) (global : ℕ) : (s.load rowBytes global).base = s.base ∧
    (s.load rowBytes global).end_ = s.end_ ∧ (s.load rowBytes global).page
    = pageOf rowBytes global ∧
    (s.load rowBytes global).loaded = min (rowsOf rowBytes) (s.end_ - pageOf rowBytes global) := by
  rcases load_cases rowBytes global s with ⟨hloaded, hpage, hsame⟩ | hmoved
  · rw [hsame, ← hpage]
    exact ⟨rfl, rfl, rfl, h.loaded hloaded⟩
  · obtain ⟨-, hbase, hend, -, -, -⟩ := flush_frame s
    rw [hmoved]
    exact ⟨hbase, hend, rfl, rfl⟩

theorem row_load (h : Sound rowBytes s) (global : ℕ) : (s.load rowBytes global).row = s.row := by
  rcases load_cases rowBytes global s with ⟨-, -, hsame⟩ | hmoved
  · rw [hsame]
  · rw [hmoved, row_moved h]

theorem Sound.load (h : Sound rowBytes s) (global : ℕ) :
    Sound rowBytes (s.load rowBytes global) := by
  obtain ⟨hbase, hend, hpage, hloaded⟩ := load_frame h global
  refine ⟨?_, ?_, fun _ => ?_, ?_, ?_, ?_⟩
  · rw [hbase, hend]
    exact h.ordered
  · rw [hpage]
    exact pageOf_aligned ..
  · rw [hloaded, hend, hpage]
  · rcases load_cases rowBytes global s with ⟨-, -, hsame⟩ | hmoved
    · rw [hsame]
      exact h.clean
    · rw [hmoved]
      intro _ n hn
      exact window_moved s _ hn
  · rcases load_cases rowBytes global s with ⟨-, -, hsame⟩ | hmoved
    · rw [hsame]
      exact h.dirty
    · rw [hmoved]
      intro hdirty
      change s.flush.dirty = true at hdirty
      rw [(flush_frame s).2.2.2.2.2] at hdirty
      cases hdirty
  · rw [hend]
    exact h.offsets

theorem window_load (hk : 0 < rowsOf rowBytes) (h : Sound rowBytes s) {global : ℕ}
    (hlt : global < s.end_) :
    (s.load rowBytes global).window (global % rowsOf rowBytes) = s.row global := by
  obtain ⟨-, hend, hpage, hloaded⟩ := load_frame h global
  have hadd := pageOf_add rowBytes global
  have hmod := Nat.mod_lt global hk
  have hin : global % rowsOf rowBytes < (s.load rowBytes global).loaded := by
    rw [hloaded]
    omega
  rw [← row_inside hin, row_load h, hpage, hadd]

/-! ## Calls -/

theorem row_written (h : Sound rowBytes s) (global : ℕ) (value : α) {t : Sequence α}
    (hnext : global % rowsOf rowBytes ≤ (s.load rowBytes global).loaded)
    (hpage : t.page = (s.load rowBytes global).page)
    (hloaded' : t.loaded = max (s.load rowBytes global).loaded (global % rowsOf rowBytes + 1))
    (hfile : t.file = (s.load rowBytes global).file)
    (hwindow : t.window = Function.update (s.load rowBytes global).window
      (global % rowsOf rowBytes) value) :
    t.row = Function.update s.row global value := by
  obtain ⟨-, -, hpageOf, -⟩ := load_frame h global
  have hadd := pageOf_add rowBytes global
  funext j
  rw [← row_load h global]
  by_cases hj : j = global
  · subst hj
    rw [Function.update_self]
    unfold Sequence.row
    rw [hpage, hloaded', hpageOf, if_pos (by omega), hwindow]
    rw [show j - pageOf rowBytes j = j % rowsOf rowBytes by omega, Function.update_self]
  · rw [Function.update_of_ne hj]
    unfold Sequence.row
    rw [hpage, hloaded', hpageOf, hfile, hwindow]
    by_cases hrange : pageOf rowBytes global ≤ j ∧
      j < pageOf rowBytes global + (s.load rowBytes global).loaded
    · rw [if_pos (by omega), if_pos hrange, Function.update_of_ne (by omega)]
    · rw [if_neg (by omega), if_neg hrange]

theorem size_eq (h : Shows rowBytes s rows) : s.size = rows.length := by
  unfold Sequence.size
  rw [h.length, Nat.add_sub_cancel_left]

section Calls

variable (hk : 0 < rowsOf rowBytes)

include hk

theorem at_spec (h : Shows rowBytes s rows) (index : ℕ) :
    Shows rowBytes (s.at_ rowBytes index).2 rows ∧
    (s.at_ rowBytes index).1 = (rows[index]?).elim (.error .outOfRange) .ok := by
  have hsize := size_eq h
  unfold Sequence.at_
  rw [hsize]
  split
  · next hout =>
    rw [List.getElem?_eq_none hout]
    exact ⟨h, rfl⟩
  · next hin =>
    have hlt : index < rows.length := Nat.lt_of_not_le hin
    obtain ⟨hbase, hend, -, -⟩ := load_frame h.sound (s.base + index)
    refine ⟨⟨h.sound.load _, ?_, fun i hi => ?_⟩, ?_⟩
    · rw [hbase, hend]
      exact h.length
    · rw [row_load h.sound, hbase]
      exact h.rows i hi
    · dsimp only
      rw [window_load hk h.sound (by rw [h.length]; omega), h.rows index hlt]
      rfl

/-- A write is the vector's. -/
theorem set_spec (h : Shows rowBytes s rows) (index : ℕ) (value : α) :
    Shows rowBytes (s.set rowBytes index value).2 (rows.set index value) ∧
      (s.set rowBytes index value).1 = if index < rows.length then .ok ()
        else .error .outOfRange := by
  have hsize := size_eq h
  unfold Sequence.set
  rw [hsize]
  split
  · next hout =>
    rw [List.set_eq_of_length_le hout, if_neg (by omega)]
    exact ⟨h, rfl⟩
  · next hin =>
    have hlt : index < rows.length := Nat.lt_of_not_le hin
    obtain ⟨hbase, hend, hpage, hloaded⟩ := load_frame h.sound (s.base + index)
    have hmod := Nat.mod_lt (s.base + index) hk
    have hadd := pageOf_add rowBytes (s.base + index)
    have hlength := h.length
    have hinside : (s.base + index) % rowsOf rowBytes
        < (s.load rowBytes (s.base + index)).loaded := by
      rw [hloaded]
      omega
    have hsound := h.sound.load (s.base + index)
    have hrow : ({ s.load rowBytes (s.base + index) with
        window := Function.update (s.load rowBytes (s.base + index)).window
          ((s.base + index) % rowsOf rowBytes) value
        dirty := true } : Sequence α).row = Function.update s.row (s.base + index) value :=
      row_written h.sound (s.base + index) value hinside.le rfl (max_eq_left hinside).symm rfl rfl
    rw [if_pos hlt]
    refine ⟨⟨⟨hsound.ordered, hsound.aligned, hsound.loaded,
      fun habsurd => absurd habsurd.symm Bool.false_ne_true,
      fun _ => ?_, hsound.offsets⟩, ?_, fun i hi => ?_⟩, rfl⟩
    · exact (Nat.zero_le _).trans_lt hinside |>.ne'
    · rw [List.length_set]
      dsimp only
      rw [hbase, hend, hlength]
    · rw [List.length_set] at hi
      refine Eq.trans ?_ (congrArg some (congrFun hrow _).symm)
      dsimp only
      rw [hbase]
      by_cases hij : i = index
      · subst hij
        rw [Function.update_self, List.getElem?_set_self hlt]
      · rw [Function.update_of_ne (by omega), List.getElem?_set_ne (Ne.symm hij), h.rows i hi]

/-- An append is the vector's. -/
theorem pushBack_spec (h : Shows rowBytes s rows) (value : α)
    (hoffset : Sequence.hasOffset rowBytes s.end_ = true) :
    Shows rowBytes (s.pushBack rowBytes value).2 (rows ++ [value]) ∧
      (s.pushBack rowBytes value).1 = .ok () ∧
      (s.pushBack rowBytes value).2.base = s.base := by
  unfold Sequence.pushBack
  rw [if_pos hoffset]
  obtain ⟨hbase, hend, hpage, hloaded⟩ := load_frame h.sound s.end_
  have hmod := Nat.mod_lt s.end_ hk
  have hadd := pageOf_add rowBytes s.end_
  have hlength := h.length
  have hsound := h.sound.load s.end_
  have hbefore : (s.load rowBytes s.end_).loaded = s.end_ % rowsOf rowBytes := by
    rw [hloaded]
    omega
  have hrow : ({ s.load rowBytes s.end_ with
      window := Function.update (s.load rowBytes s.end_).window (s.end_ % rowsOf rowBytes) value
      loaded := max (s.load rowBytes s.end_).loaded (s.end_ % rowsOf rowBytes + 1)
      dirty := true
      end_ := s.end_ + 1 } : Sequence α).row = Function.update s.row s.end_ value :=
    row_written h.sound s.end_ value hbefore.ge rfl rfl rfl rfl
  refine ⟨⟨⟨?_, hsound.aligned, fun _ => ?_, fun habsurd => absurd habsurd.symm Bool.false_ne_true,
    fun _ => ?_,
    fun i hi => ?_⟩, ?_, fun i hi => ?_⟩, rfl, hbase⟩
  · dsimp only
    rw [hbase]
    exact h.sound.ordered.trans (Nat.le_succ _)
  · dsimp only
    rw [hbefore, hpage]
    omega
  · dsimp only
    omega
  · rcases Nat.lt_succ_iff_lt_or_eq.mp hi with hi | rfl
    · exact h.sound.offsets i hi
    · exact hoffset
  · dsimp only
    rw [hbase, List.length_append, List.length_singleton, hlength, Nat.add_assoc]
  · refine Eq.trans ?_ (congrArg some (congrFun hrow _).symm)
    dsimp only
    rw [hbase]
    rw [List.length_append, List.length_singleton] at hi
    by_cases hlast : i = rows.length
    · subst hlast
      rw [← hlength, Function.update_self, List.getElem?_concat_length]
    · rw [Function.update_of_ne (by omega), List.getElem?_append_left (by omega),
        h.rows i (by omega)]

/-- The pushes of a resize, all of them or none refused before the last. -/
theorem pushes_spec (value : α) (n : ℕ) (h : Shows rowBytes s rows) :
    ((s.pushes rowBytes value n).1 = .ok () →
      Shows rowBytes (s.pushes rowBytes value n).2 (rows ++ List.replicate n value)) ∧
      ∀ failure, (s.pushes rowBytes value n).1 = .error failure → failure = .offset := by
  induction n generalizing s rows with
  | zero =>
    refine ⟨fun _ => ?_, fun failure habsurd => nomatch habsurd⟩
    rw [List.replicate_zero, List.append_nil]
    exact h
  | succ n ih =>
    unfold Sequence.pushes
    dsimp only
    cases hoffset : Sequence.hasOffset rowBytes s.end_ with
    | true =>
      obtain ⟨hshows, hok, -⟩ := pushBack_spec hk h value hoffset
      rw [hok]
      dsimp only
      rw [List.replicate_succ, List.append_cons]
      exact ih hshows
    | false =>
      have hpush : s.pushBack rowBytes value = (.error .offset, s) := by
        unfold Sequence.pushBack
        rw [hoffset, if_neg Bool.false_ne_true]
      rw [hpush]
      refine ⟨fun habsurd => absurd habsurd (fun heq => nomatch heq), fun failure hfailure => ?_⟩
      exact (Except.error.inj hfailure).symm

/-- A resize is the vector's, or an offset fails. -/
theorem resize_spec (h : Shows rowBytes s rows) (count : ℕ) (value : α) :
    ((s.resize rowBytes count value).1 = .ok () → Shows rowBytes (s.resize rowBytes count value).2
        (rows.take count ++ List.replicate (count - rows.length) value)) ∧
      ∀ failure, (s.resize rowBytes count value).1 = .error failure → failure = .offset := by
  have hsize := size_eq h
  obtain ⟨hgrown, hfailure⟩ := pushes_spec hk value (count - rows.length) h
  unfold Sequence.resize
  rw [hsize]
  generalize s.pushes rowBytes value (count - rows.length) = grown at hgrown hfailure ⊢
  obtain ⟨result, t⟩ := grown
  cases result with
  | error failure => exact ⟨fun habsurd => absurd habsurd (fun heq => nomatch heq), hfailure⟩
  | ok u =>
    dsimp only
    have hshows : Shows rowBytes t (rows ++ List.replicate (count - rows.length) value) :=
      hgrown rfl
    have ht : t.size = max rows.length count := by
      rw [size_eq hshows, List.length_append, List.length_replicate]
      omega
    rw [ht]
    split
    · next heq =>
      refine ⟨fun _ => ?_, fun failure habsurd => absurd habsurd (fun heq => nomatch heq)⟩
      rw [List.take_of_length_le (by omega)]
      exact hshows
    · next hne =>
      refine ⟨fun _ => ?_, fun failure habsurd => absurd habsurd (fun heq => nomatch heq)⟩
      have hzero : count - rows.length = 0 := by omega
      rw [hzero, List.replicate_zero, List.append_nil] at hshows ⊢
      obtain ⟨hwindow, hbase, hend, hpage, hloaded, hdirty⟩ := flush_frame t
      have hlength : t.end_ = t.base + rows.length := hshows.length
      refine ⟨⟨?_, ?_, fun habsurd => absurd rfl habsurd,
        fun _ n hn => absurd hn (Nat.not_lt_zero n),
        fun habsurd => ?_, fun i hi => ?_⟩, ?_, fun i hi => ?_⟩
      · dsimp only
        rw [hbase]
        exact Nat.le_add_right ..
      · dsimp only
        rw [hpage]
        exact hshows.sound.aligned
      · change t.flush.dirty = true at habsurd
        rw [hdirty] at habsurd
        cases habsurd
      · dsimp only at hi
        exact hshows.sound.offsets i (by omega)
      · dsimp only
        rw [hbase, List.length_take, Nat.min_eq_left (by omega)]
      · rw [List.length_take] at hi
        have hrow : ({ t.flush with end_ := t.base + count, loaded := 0 } : Sequence α).row
          (t.flush.base + i) =
            t.flush.file (t.flush.base + i) := if_neg (by simp only; omega)
        refine Eq.trans ?_ (congrArg some hrow.symm)
        rw [file_flush hshows.sound, hbase, List.getElem?_take_of_lt (by omega),
          hshows.rows i (by omega)]

end Calls

theorem erase_spec (h : Shows rowBytes s rows) (owned : Bool) (first last : ℕ) :
    ((s.erase owned first last).1 = .ok () ∧ owned = true ∧ first = 0 ∧ last ≤ rows.length ∧
        Shows rowBytes (s.erase owned first last).2 (rows.drop last)) ∨
      (s.erase owned first last = (.error .notPrefix, s) ∧
        (owned = false ∨ first ≠ 0 ∨ last > rows.length)) := by
  unfold Sequence.erase
  rw [size_eq h]
  split
  · next hrefused => exact Or.inr ⟨rfl, hrefused⟩
  · next hallowed =>
    rw [not_or, not_or, Bool.not_eq_false, not_not, Nat.not_lt] at hallowed
    obtain ⟨howned, hfirst, hlast⟩ := hallowed
    have hlength := h.length
    refine Or.inl ⟨rfl, howned, hfirst, hlast,
      ⟨?_, h.sound.aligned, h.sound.loaded, h.sound.clean, h.sound.dirty,
      h.sound.offsets⟩, ?_, fun i hi => ?_⟩
    · dsimp only
      omega
    · dsimp only
      rw [List.length_drop]
      omega
    · rw [List.length_drop] at hi
      change _ = some (s.row (s.base + last + i))
      rw [List.getElem?_drop, h.rows (last + i) (by omega), Nat.add_assoc]

theorem clear_spec (s : Sequence α) : Shows rowBytes s.clear [] :=
  ⟨⟨le_rfl, Nat.zero_mod _, fun habsurd => absurd rfl habsurd,
    fun _ n hn => absurd hn (Nat.not_lt_zero n),
    fun habsurd => absurd habsurd Bool.false_ne_true, fun i hi => absurd hi (Nat.not_lt_zero i)⟩,
      rfl,
    fun i hi => absurd hi (Nat.not_lt_zero i)⟩

end PineForge.Scratch
