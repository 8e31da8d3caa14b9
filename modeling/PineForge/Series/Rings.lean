import Mathlib
import PineForge.Machine.Runs
import PineForge.Series.Objects

/-!
# Rings over windows

`Ring.Shows w o r pushes`: from the head on, the window of a ring has the values that were pushed,
the newest first. Over any run of a program's operations on windows and rings, each object shows
what was done to it, whatever is in memory and whatever is shared.
-/

namespace PineForge.Series

variable {T : Type} {w w' : World T} {o : ℕ} {r : Ring} {pushes : List T}

/-- The owner's pages hold a ring's pushes. -/
structure Ring.Shows (w : World T) (o : ℕ) (r : Ring) (pushes : List T) : Prop where
  size : r.size = pushes.length
  le : pushes.length ≤ r.capacity
  window : (w.owners o).size = r.capacity ∨ (pushes = [] ∧ (w.owners o).size = 0)
  head : pushes ≠ [] → r.head < r.capacity
  values : ∀ k x, pushes[k]? = some x → w.value o (r.place k) = x

namespace Ring

theorem place_lt (hhead : r.head < r.capacity) {k : ℕ} (hk : k < r.capacity) :
    r.place k < r.capacity := by
  unfold place
  split_ifs
  · omega
  · omega

theorem place_zero (hhead : r.head < r.capacity) : r.place 0 = r.head := by
  unfold place
  rw [if_neg (by omega), Nat.add_zero]

theorem place_ne_head {k : ℕ} (hk : k + 1 < r.capacity) : r.place (k + 1) ≠ r.head := by
  unfold place
  split_ifs
  · omega
  · omega

theorem next_lt (hhead : r.head < r.capacity) : r.next < r.capacity := by
  unfold next
  split_ifs
  · omega
  · omega

theorem place_next (hhead : r.head < r.capacity) {k : ℕ} (hk : k + 1 < r.capacity) :
    (∀ size, (⟨r.capacity, r.next, size⟩ : Ring).place (k + 1) = r.place k) ∧
    r.place k ≠ r.next := by
  unfold place next
  refine ⟨fun size => ?_, ?_⟩
  · dsimp only
    split_ifs <;> omega
  · split_ifs <;> omega

namespace Shows

theorem congr (h : r.Shows w o pushes) (hsize : (w'.owners o).size = (w.owners o).size)
    (hvalue : w'.value o = w.value o) :
    r.Shows w' o pushes := by
  refine ⟨h.size, h.le, ?_, h.head, ?_⟩
  · rw [hsize]
    exact h.window
  · rw [hvalue]
    exact h.values

theorem opened (h : r.Shows w o pushes) (hpushes : pushes ≠ []) : (w.owners o).size = r.capacity :=
  h.window.resolve_right fun hempty => hpushes hempty.1

end Shows

theorem shows_first {x : T} (hwrote : Wrote w w' o 0 x) (hsize : (w.owners o).size = r.capacity)
    (hcapacity : r.capacity ≠ 0) :
    ({ r with head := 0, size := 1 } : Ring).Shows w' o [x] := by
  refine ⟨rfl, by rw [List.length_singleton]; exact Nat.pos_of_ne_zero hcapacity,
    Or.inl (hwrote.size.trans hsize), fun _ => Nat.pos_of_ne_zero hcapacity, fun k y hy => ?_⟩
  cases k with
  | zero =>
    rw [place_zero (Nat.pos_of_ne_zero hcapacity), ← Option.some.inj hy]
    exact hwrote.self
  | succ k => exact nomatch hy

theorem shows_next {x : T} (hr : r.Shows w o pushes) (hpushes : pushes ≠ [])
    (hwrote : Wrote w w' o r.next x) :
    ({ r with head := r.next, size := if r.size < r.capacity then r.size + 1 else r.size } :
      Ring).Shows w' o
      ((x :: pushes).take r.capacity) := by
  have hhead := hr.head hpushes
  have hle := hr.le
  have hopened := hr.opened hpushes
  have hlength : ((x :: pushes).take r.capacity).length = if r.size < r.capacity then r.size + 1
      else r.size := by
    rw [List.length_take, List.length_cons, hr.size]
    split_ifs <;> omega
  refine ⟨hlength.symm, List.length_take_le .., Or.inl (hwrote.size.trans hopened),
    fun _ => next_lt hhead, fun k y hy => ?_⟩
  have hk : k < r.capacity := by
    by_contra hk
    rw [List.getElem?_take_eq_none (by omega)] at hy
    exact nomatch hy
  rw [List.getElem?_take_of_lt hk] at hy
  cases k with
  | zero =>
    rw [place_zero (next_lt hhead), ← Option.some.inj hy]
    exact hwrote.self
  | succ k =>
    rw [List.getElem?_cons_succ] at hy
    obtain ⟨hplace, hne⟩ := place_next hhead hk
    rw [hplace, hwrote.rest _ (by rw [hopened]; exact place_lt hhead (by omega)) hne]
    exact hr.values k y hy

section

variable [Inhabited T]

theorem at_spec (h : w.Sound) (ho : o < w.count) (hr : r.Shows w o pushes) (allocates : Bool)
    (offset : ℕ) :
    ∃ w', r.at_ allocates o offset w = some ((pushes[offset]?).getD na, w') ∧ Touches w w' o ∧
      (w'.owners o).size = (w.owners o).size ∧ (w'.owners o).capacity = (w.owners o).capacity ∧
        w'.value o = w.value o := by
  have hsize := hr.size
  have hle := hr.le
  unfold at_
  split_ifs with hbeyond
  · refine ⟨w, ?_, .refl h o, rfl, rfl, rfl⟩
    rw [List.getElem?_eq_none (by omega), Option.getD_none]
  · have hin : offset < pushes.length := by omega
    have hpushes : pushes ≠ [] := List.ne_nil_of_length_pos (by omega)
    have hplace : r.place offset < (w.owners o).size := by
      rw [hr.opened hpushes]
      exact place_lt (hr.head hpushes) (by omega)
    obtain ⟨w', hread, hspec⟩ := read_spec h ho hplace allocates
    refine ⟨w', ?_, hspec⟩
    rw [hread, hr.values offset _ (List.getElem?_eq_getElem hin), List.getElem?_eq_getElem hin,
      Option.getD_some]

theorem materialize_spec (h : w.Sound) (hr : r.Shows w o pushes) (hcapacity : r.capacity ≠ 0)
    (hopen : r.materialize o w = some w') : Touches w w' o ∧ r.Shows w' o pushes ∧
    (w'.owners o).size = r.capacity := by
  unfold materialize at hopen
  split_ifs at hopen with hempty
  · have hpushes : pushes = [] := by
      rcases hr.window with hsize | ⟨hnone, -⟩
      · exact absurd (hsize.symm.trans hempty) hcapacity
      · exact hnone
    obtain ⟨htouches, hsize, -, -⟩ := reset_spec h hopen
    refine ⟨htouches, ⟨hr.size, hr.le, Or.inl hsize, hr.head, fun k x hx => ?_⟩, hsize⟩
    rw [hpushes] at hx
    exact nomatch hx
  · obtain rfl := Option.some.inj hopen
    exact ⟨.refl h o, hr, hr.window.resolve_right fun hnone => hempty hnone.2⟩

/-- A push is the newest of the ring. -/
theorem pushFront_spec (h : w.Sound) (ho : o < w.count) (hr : r.Shows w o pushes)
    {x : T} {r' : Ring}
    (hpush : r.pushFront o x w = some (r', w')) :
    Touches w w' o ∧ r'.capacity = r.capacity ∧ r'.Shows w' o ((x :: pushes).take r.capacity) := by
  unfold pushFront at hpush
  by_cases hzero : r.capacity = 0
  · rw [if_pos hzero] at hpush
    obtain ⟨rfl, rfl⟩ := Prod.mk.inj (Option.some.inj hpush)
    have hle := hr.le
    have hpushes : pushes = [] := List.eq_nil_of_length_eq_zero (by omega)
    refine ⟨.refl h o, rfl, ?_⟩
    rw [hzero, List.take_zero]
    exact hpushes ▸ hr
  · rw [if_neg hzero] at hpush
    obtain ⟨opened, hopen, hrest⟩ := Option.bind_eq_some_iff.mp hpush
    obtain ⟨htouches, hshows, hsize⟩ := materialize_spec h hr hzero hopen
    have hcount : o < opened.count := htouches.count ▸ ho
    by_cases hempty : r.size = 0
    · rw [if_pos hempty] at hrest
      obtain ⟨written, hwrite, hresult⟩ := Option.map_eq_some_iff.mp hrest
      obtain ⟨rfl, rfl⟩ := Prod.mk.inj hresult
      obtain ⟨w'', hreturns, hwrote⟩ :=
        write_spec htouches.sound hcount (show 0 < (opened.owners o).size by omega) x
      obtain rfl := Option.some.inj (hwrite.symm.trans hreturns)
      have hpushes : pushes = [] := List.eq_nil_of_length_eq_zero (hr.size.symm.trans hempty)
      refine ⟨htouches.trans hwrote.touches, rfl, ?_⟩
      rw [hpushes, List.take_of_length_le (by rw [List.length_singleton]; omega)]
      exact shows_first hwrote hsize hzero
    · rw [if_neg hempty] at hrest
      obtain ⟨written, hwrite, hresult⟩ := Option.map_eq_some_iff.mp hrest
      obtain ⟨rfl, rfl⟩ := Prod.mk.inj hresult
      have hpushes : pushes ≠ [] := by
        rintro rfl
        exact hempty hr.size
      obtain ⟨w'', hreturns, hwrote⟩ := write_spec htouches.sound hcount
        (show r.next < (opened.owners o).size by rw [hsize]; exact next_lt (hr.head hpushes)) x
      obtain rfl := Option.some.inj (hwrite.symm.trans hreturns)
      exact ⟨htouches.trans hwrote.touches, rfl, shows_next hshows hpushes hwrote⟩

/-- The newest value is another one. -/
def updated (capacity : ℕ) (x : T) : List T → List T
  | [] => [x].take capacity
  | _ :: rest => x :: rest

/-- An update replaces the newest value. -/
theorem updateFront_spec (h : w.Sound) (ho : o < w.count) (hr : r.Shows w o pushes)
    {x : T} {r' : Ring}
    (hupdate : r.updateFront o x w = some (r', w')) :
    Touches w w' o ∧ r'.capacity = r.capacity ∧ r'.Shows w' o (updated r.capacity x pushes) := by
  unfold updateFront at hupdate
  cases pushes with
  | nil =>
    rw [if_pos (show r.size = 0 from hr.size)] at hupdate
    exact pushFront_spec h ho hr hupdate
  | cons first rest =>
    rw [if_neg (by rw [hr.size]; exact Nat.succ_ne_zero _)] at hupdate
    obtain ⟨written, hwrite, hresult⟩ := Option.map_eq_some_iff.mp hupdate
    obtain ⟨rfl, rfl⟩ := Prod.mk.inj hresult
    have hhead := hr.head (List.cons_ne_nil _ _)
    have hopened := hr.opened (List.cons_ne_nil _ _)
    have hle := hr.le
    rw [List.length_cons] at hle
    obtain ⟨w'', hreturns, hwrote⟩ := write_spec h ho (show r.head < (w.owners o).size by omega) x
    obtain rfl := Option.some.inj (hwrite.symm.trans hreturns)
    refine ⟨hwrote.touches, rfl, hr.size, hr.le, Or.inl (hwrote.size.trans hopened), fun _ => hhead,
      fun k y hy => ?_⟩
    cases k with
    | zero =>
      rw [place_zero hhead, ← Option.some.inj hy]
      exact hwrote.self
    | succ k =>
      have hk : k < rest.length := by
        by_contra hk
        rw [updated, List.getElem?_cons_succ, List.getElem?_eq_none (by omega)] at hy
        exact nomatch hy
      rw [hwrote.rest _ (by rw [hopened]; exact place_lt hhead (by omega))
        (place_ne_head (by omega))]
      exact hr.values (k + 1) y hy

theorem clear_spec (h : w.Sound) {r' : Ring} (hclear : r.clear o w = some (r', w')) :
    Touches w w' o ∧ r'.capacity = r.capacity ∧ r'.Shows w' o ([] : List T) := by
  obtain ⟨reset, hreset, hresult⟩ := Option.map_eq_some_iff.mp hclear
  obtain ⟨rfl, rfl⟩ := Prod.mk.inj hresult
  obtain ⟨htouches, hsize, -, -⟩ := reset_spec h hreset
  exact ⟨htouches, rfl, rfl, Nat.zero_le _, Or.inr ⟨rfl, hsize⟩, fun habsurd => absurd rfl habsurd,
    fun k x hx => nomatch hx⟩

/-! ## Resizes -/

/-- A ring's values are being copied to another window. -/
structure Copies (w w' : World T) (o t : ℕ) : Prop where
  sound : w'.Sound
  count : w'.count = w.count
  arithmetic : w'.arithmetic = w.arithmetic
  valueBytes : w'.valueBytes = w.valueBytes
  owner : ∀ q, q < w.count → q ≠ o → q ≠ t → w'.owners q = w.owners q
  value : ∀ q, q < w.count → q ≠ t → w'.value q = w.value q
  size : ∀ q, q < w.count → (w'.owners q).size = (w.owners q).size

omit [Inhabited T] in
theorem Copies.trans {w'' : World T} {t : ℕ} (h : Copies w w' o t) (h' : Copies w' w'' o t) :
    Copies w w'' o t where
  sound := h'.sound
  count := h'.count.trans h.count
  arithmetic := h'.arithmetic.trans h.arithmetic
  valueBytes := h'.valueBytes.trans h.valueBytes
  owner q hq hqo hqt := (h'.owner q (h.count ▸ hq) hqo hqt).trans (h.owner q hq hqo hqt)
  value q hq hqt := (h'.value q (h.count ▸ hq) hqt).trans (h.value q hq hqt)
  size q hq := (h'.size q (h.count ▸ hq)).trans (h.size q hq)

theorem transfer_step (h : w.Sound) (ho : o < w.count) {t : ℕ} (ht : t < w.count) (hne : o ≠ t)
    (hr : r.Shows w o pushes)
    (allocates : Bool) {i : ℕ} (hi : i < (w.owners t).size) : ∃ read written,
      r.at_ allocates o i w = some ((pushes[i]?).getD na, read) ∧
        read.write t i ((pushes[i]?).getD na) = some written ∧
      Copies w written o t ∧ written.value t i = (pushes[i]?).getD na ∧
      ∀ j, j < (w.owners t).size → j ≠ i → written.value t j = w.value t j := by
  obtain ⟨read, hread, htouches, hsize, -, hvalue⟩ := at_spec h ho hr allocates i
  have hcount := htouches.count
  have hother := htouches.owner t ht hne.symm
  obtain ⟨written, hwrite, hwrote⟩ := write_spec htouches.sound (hcount ▸ ht)
    (show i < (read.owners t).size by rw [hother]; exact hi) ((pushes[i]?).getD na)
  refine ⟨read, written, hread, hwrite, ⟨hwrote.touches.sound, hwrote.touches.count.trans hcount,
    hwrote.touches.arithmetic.trans htouches.arithmetic,
      hwrote.touches.valueBytes.trans htouches.valueBytes,
    fun q hq hqo hqt => ?_, fun q hq hqt => ?_, fun q hq => ?_⟩, hwrote.self, fun j hj hji => ?_⟩
  · rw [hwrote.touches.owner q (hcount ▸ hq) hqt, htouches.owner q hq hqo]
  · rw [hwrote.touches.value q (hcount ▸ hq) hqt]
    by_cases hqo : q = o
    · rw [hqo, hvalue]
    · rw [htouches.value q hq hqo]
  · by_cases hqt : q = t
    · rw [hqt, hwrote.size, hother]
    · rw [hwrote.touches.owner q (hcount ▸ hq) hqt]
      by_cases hqo : q = o
      · rw [hqo, hsize]
      · rw [htouches.owner q hq hqo]
  · rw [hwrote.rest j (by rw [hother]; exact hj) hji, htouches.value t ht hne.symm]

/-- A transfer copies the places asked for. -/
theorem transfer_spec {t : ℕ} (hne : o ≠ t) (allocates : Bool) :
    ∀ {places : List ℕ} {w : World T}, w.Sound → o < w.count →
    t < w.count → r.Shows w o pushes → (∀ i ∈ places, i < (w.owners t).size) →
    ∃ w', r.transfer allocates o t places w = some w' ∧ Copies w w' o t ∧
      (∀ i ∈ places, w'.value t i = (pushes[i]?).getD na) ∧
      ∀ j, j < (w.owners t).size → j ∉ places → w'.value t j = w.value t j := by
  intro places
  induction places with
  | nil =>
    intro w h _ _ _ _
    exact ⟨w, rfl, ⟨h, rfl, rfl, rfl, fun _ _ _ _ => rfl, fun _ _ _ => rfl, fun _ _ => rfl⟩,
      fun i hi => absurd hi List.not_mem_nil, fun _ _ _ => rfl⟩
  | cons i rest ih =>
    intro w h ho ht hr hplaces
    obtain ⟨read, written, hread, hwrite, hcopies, hself, hothers⟩ :=
      transfer_step h ho ht hne hr allocates (hplaces i List.mem_cons_self)
    have hsize := hcopies.size t ht
    have hshows : r.Shows written o pushes := hr.congr (hcopies.size o ho) (hcopies.value o ho hne)
    obtain ⟨done, hdone, hmore, hvalues, hkept⟩ :=
      ih hcopies.sound (hcopies.count ▸ ho) (hcopies.count ▸ ht) hshows
      fun j hj => hsize ▸ hplaces j (List.mem_cons_of_mem i hj)
    refine ⟨done, ?_, hcopies.trans hmore, fun j hj => ?_, fun j hj hnot => ?_⟩
    · rw [transfer, hread, Option.bind_some]
      dsimp only
      rw [hwrite, Option.bind_some]
      exact hdone
    · by_cases hrest : j ∈ rest
      · exact hvalues j hrest
      · obtain rfl := (List.mem_cons.mp hj).resolve_right hrest
        rw [hkept j (hsize ▸ hplaces j List.mem_cons_self) hrest]
        exact hself
    · rw [List.mem_cons, not_or] at hnot
      rw [hkept j (hsize ▸ hj) hnot.2, hothers j hj hnot.1]

omit [Inhabited T] in
/-- The swapped storage is the filled one. -/
theorem replaced_spec {filled : World T} (h : filled.Sound) (hcount : filled.count = w.count + 1)
    (ho : o < w.count)
    (howner : ∀ q, q < w.count → q ≠ o → filled.owners q = w.owners q)
    (hvalue : ∀ q, q < w.count → q ≠ o → filled.value q = w.value q)
    (harithmetic : filled.arithmetic = w.arithmetic) (hbytes : filled.valueBytes = w.valueBytes) :
    Touches w (filled.moveAssign o w.count).dropLast o ∧
      ((filled.moveAssign o w.count).dropLast.owners o).size = (filled.owners w.count).size ∧
      (filled.moveAssign o w.count).dropLast.value o = filled.value w.count := by
  have hmoved : Moved filled (filled.moveAssign o w.count) o w.count := by
    unfold World.moveAssign
    rw [if_neg ho.ne]
    exact moveTo_spec h (by omega) (by omega) ho.ne
  generalize filled.moveAssign o w.count = moved at hmoved ⊢
  have hlast : moved.count - 1 = w.count := by
    rw [hmoved.count, hcount, Nat.add_sub_cancel]
  have hdestroyed := (destroy_spec hmoved.sound w.count).1
  have hdrop : moved.dropLast = { moved.destroy w.count with count := w.count } := by
    unfold World.dropLast
    rw [hlast]
  have hmovedCount : moved.count = w.count + 1 := hmoved.count.trans hcount
  have hkeeps : ∀ q, q < w.count → moved.dropLast.owners q = moved.owners q ∧ moved.dropLast.value q
      = moved.value q := by
    intro q hq
    rw [hdrop]
    exact ⟨hdestroyed.owner q (by omega) hq.ne, hdestroyed.value q (by omega) hq.ne⟩
  refine ⟨⟨fun q hq => ?_, by rw [hdrop], ?_, ?_, fun q hq hne => ?_, fun q hq hne => ?_⟩, ?_, ?_⟩
  · have hqw : q < w.count := by
      rw [hdrop] at hq
      exact hq
    rw [hdrop]
    have hsound := hdestroyed.sound q (by rw [hdestroyed.count]; omega)
    exact hsound.frame le_rfl le_rfl rfl fun _ _ => rfl
  · rw [hdrop]
    exact hmoved.arithmetic.trans harithmetic
  · rw [hdrop]
    exact hmoved.valueBytes.trans hbytes
  · rw [(hkeeps q hq).1, hmoved.owner q (by omega) hne hq.ne, howner q hq hne]
  · rw [(hkeeps q hq).2, hmoved.value q (by omega) hne hq.ne, hvalue q hq hne]
  · rw [(hkeeps o ho).1, hmoved.size]
  · rw [(hkeeps o ho).2, hmoved.values]

theorem openNew_spec (h : w.Sound) {capacity cachePages size : ℕ} {opened : World T}
    (hopen : (if size ≠ 0 then (w.construct cachePages).reset w.count capacity na
      else some (w.construct cachePages)) =
      some opened) : Added w opened ∧ (opened.owners w.count).size = if size = 0 then 0
        else capacity := by
  obtain ⟨hadded, hempty⟩ := construct_spec h cachePages
  by_cases hsize : size = 0
  · rw [if_neg (not_not.mpr hsize)] at hopen
    obtain rfl := Option.some.inj hopen
    rw [if_pos hsize]
    exact ⟨hadded, hempty⟩
  · rw [if_pos hsize] at hopen
    obtain ⟨htouches, hcapacity, -, -⟩ := reset_spec hadded.sound hopen
    have hlt : ∀ q, q < w.count → q < (w.construct cachePages).count := fun q hq => by
      rw [hadded.count]
      omega
    refine ⟨⟨htouches.sound, htouches.count.trans hadded.count,
      htouches.arithmetic.trans hadded.arithmetic,
      htouches.valueBytes.trans hadded.valueBytes, fun q hq => ?_, fun q hq => ?_⟩, ?_⟩
    · rw [htouches.owner q (hlt q hq) hq.ne, hadded.owner q hq]
    · rw [htouches.value q (hlt q hq) hq.ne, hadded.value q hq]
    · rw [if_neg hsize, hcapacity]

/-- A resize keeps the newest values. -/
theorem resize_spec (h : w.Sound) (ho : o < w.count) (hr : r.Shows w o pushes) {allocates : Bool}
    {capacity : ℕ}
    {r' : Ring} (hresize : r.resize allocates o capacity w = some (r', w')) :
    Touches w w' o ∧ r'.capacity = capacity ∧ r'.Shows w' o (pushes.take capacity) := by
  unfold resize at hresize
  by_cases hsame : capacity = r.capacity
  · rw [if_pos hsame] at hresize
    obtain ⟨rfl, rfl⟩ := Prod.mk.inj (Option.some.inj hresize)
    rw [hsame, List.take_of_length_le hr.le]
    exact ⟨.refl h o, rfl, hr⟩
  · rw [if_neg hsame] at hresize
    dsimp only at hresize
    obtain ⟨opened, hopen, hrest⟩ := Option.bind_eq_some_iff.mp hresize
    obtain ⟨filled, hfill, hresult⟩ := Option.map_eq_some_iff.mp hrest
    obtain ⟨rfl, rfl⟩ := Prod.mk.inj hresult
    obtain ⟨hadded, hsize⟩ := openNew_spec h hopen
    have hlength := hr.size
    have hshows : r.Shows opened o pushes :=
      hr.congr (by rw [hadded.owner o ho]) (hadded.value o ho)
    have hroom : ∀ i ∈ List.range (min r.size capacity), i < (opened.owners w.count).size := by
      intro i hi
      rw [List.mem_range] at hi
      rw [hsize, if_neg (by omega)]
      omega
    have hcount := hadded.count
    obtain ⟨done, hdone, hcopies, hvalues, -⟩ := transfer_spec ho.ne allocates hadded.sound
      (show o < opened.count by omega) (show w.count < opened.count by omega) hshows hroom
    obtain rfl := Option.some.inj (hfill.symm.trans hdone)
    obtain ⟨htouches, hnewSize, hnewValue⟩ :=
      replaced_spec hcopies.sound (hcopies.count.trans hcount) ho
      (fun q hq hne => by rw [hcopies.owner q (by omega) hne hq.ne, hadded.owner q hq])
      (fun q hq hne => by rw [hcopies.value q (by omega) hq.ne, hadded.value q hq])
      (hcopies.arithmetic.trans hadded.arithmetic) (hcopies.valueBytes.trans hadded.valueBytes)
    rw [hcopies.size w.count (by omega), hsize] at hnewSize
    refine ⟨htouches, rfl, ⟨?_, List.length_take_le .., ?_, fun hpushes => ?_, fun k x hx => ?_⟩⟩
    · rw [List.length_take, Nat.min_comm, hlength]
    · by_cases hzero : min r.size capacity = 0
      · right
        rw [if_pos hzero] at hnewSize
        refine ⟨List.eq_nil_of_length_eq_zero ?_, hnewSize⟩
        rw [List.length_take]
        omega
      · rw [if_neg hzero] at hnewSize
        exact Or.inl hnewSize
    · rw [Ne, List.take_eq_nil_iff, not_or] at hpushes
      exact Nat.pos_of_ne_zero hpushes.1
    · have hk : k < capacity := by
        by_contra hk
        rw [List.getElem?_take_eq_none (by omega)] at hx
        exact nomatch hx
      rw [List.getElem?_take_of_lt hk] at hx
      have hin : k < pushes.length := by
        by_contra hin
        rw [List.getElem?_eq_none (by omega)] at hx
        exact nomatch hx
      have hplace : (⟨capacity, 0, min r.size capacity⟩ : Ring).place k = k := by
        unfold place
        dsimp only
        rw [if_neg (by omega), Nat.zero_add]
      rw [hplace, hnewValue, hvalues k (List.mem_range.mpr (by omega)), hx, Option.getD_some]

end

end Ring

end PineForge.Series
