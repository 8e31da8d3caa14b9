import Mathlib
import PineForge.Series.Owners

/-!
# Windows as objects

Resets, copies and moves. A copy or a move gives a window the pointers of another, and with them
what it shows.
-/

namespace PineForge.Series

variable {T : Type} {w w' : World T} {o p : ℕ}

/-! ## Pages that go, and windows that start again -/

theorem Touches.withOwner (h : w.Sound) {v : Values T} (hv : v.Sound w) :
    Touches w (w.withOwner o v) o := by
  refine .of_frame h rfl rfl rfl le_rfl le_rfl (fun p hp => withOwner_other w _ hp)
    (fun _ _ _ _ _ _ => rfl)
    (fun _ _ _ _ _ => rfl) fun _ => ?_
  rw [withOwner_self]
  exact hv.frame le_rfl le_rfl rfl fun _ _ => rfl

theorem value_withOwner (w : World T) (o : ℕ) {v : Values T}
    (hspilled : v.spilled = (w.owners p).spilled)
    (hinitial : v.initial = (w.owners p).initial) (hpages : v.pages = (w.owners p).pages)
    (hbacking : v.backing = (w.owners p).backing) : (w.withOwner o v).value o = w.value p := by
  funext i
  unfold World.value
  rw [withOwner_self, hspilled, hinitial, hbacking]
  unfold Values.page
  rw [hpages]
  rfl

theorem pageCount_of_empty {v : Values T} (h : v.size = 0) : v.pageCount = 0 := by
  unfold Values.pageCount
  rw [h, Nat.zero_div, Nat.zero_mod, if_neg (not_not.mpr rfl)]

theorem Values.Sound.movedFrom {v : Values T} : v.movedFrom.Sound w where
  pages _ _ hid := nomatch hid
  file _ hfile := nomatch hfile
  length _ := (pageCount_of_empty rfl).symm
  cached _ hc := nomatch hc

theorem Values.Sound.copied {v : Values T} (h : v.Sound w) : v.copied.Sound w where
  pages := h.pages
  file := h.file
  length := h.length
  cached _ hc := nomatch hc

/-- Retiring a page keeps the other values. -/
theorem retirePage_spec (h : w.Sound) (ho : o < w.count) {page : ℕ}
    (hpage : page < (w.owners o).pageCount) :
    ∃ w', w.retirePage o page = some w' ∧ Touches w w' o ∧ (w'.owners o).size = (w.owners o).size ∧
      ∀ i, i / chunk ≠ page → w'.value o i = w.value o i := by
  -- the page is let go where it is in memory
  obtain ⟨opened, hopened, htouches, hsize, hvalue⟩ : ∃ opened : World T,
      (if (w.owners o).spilled then w else w.withOwner o ((w.owners o).withPage page none))
        = opened ∧
      Touches w opened o ∧ (opened.owners o).size = (w.owners o).size ∧
      ∀ i, i / chunk ≠ page → opened.value o i = w.value o i := by
    by_cases hspilled : (w.owners o).spilled = true
    · exact ⟨w, if_pos hspilled, .refl h o, rfl, fun _ _ => rfl⟩
    · refine ⟨_, if_neg hspilled, ?_, by rw [withOwner_self]; rfl, fun i hi => ?_⟩
      · rw [Bool.not_eq_true] at hspilled
        have hlength : page < (w.owners o).pages.length := by
          rw [(h o ho).length hspilled]
          exact hpage
        refine .withOwner h ⟨fun p id hid => ?_, (h o ho).file, fun hfalse => ?_, fun c hc => ?_⟩
        · rw [page_withPage _ _ _ _ hlength] at hid
          split_ifs at hid
          exact (h o ho).pages p id hid
        · exact (List.length_set ..).trans ((h o ho).length hfalse)
        · obtain ⟨-, habsurd, -⟩ := (h o ho).cached c hc
          exact absurd (hspilled.symm.trans habsurd) Bool.false_ne_true
      · rw [Bool.not_eq_true] at hspilled
        have hlength : page < (w.owners o).pages.length := by
          rw [(h o ho).length hspilled]
          exact hpage
        rw [World.value_resident hspilled,
          World.value_resident (by rw [withOwner_self]; exact hspilled), withOwner_self,
          page_withPage _ _ _ _ hlength, if_neg hi]
        rfl
  obtain ⟨cache, hinvalidate, hsound, -⟩ :=
    invalidatePage_spec htouches.sound (htouches.count ▸ ho) page
  refine ⟨_, ?_, htouches.trans (.withCache htouches.sound hsound), ?_, fun i hi => ?_⟩
  · unfold World.retirePage
    dsimp only
    rw [hopened]
    exact hinvalidate
  · rw [withOwner_self]
    exact hsize
  · rw [value_withCache]
    exact hvalue i hi

theorem page_replicate {v : Values T} {n : ℕ} (h : v.pages = List.replicate n none) (i : ℕ) :
    v.page i = none := by
  unfold Values.page
  rw [h, List.getElem?_replicate]
  split_ifs <;> rfl

theorem reset_spec (h : w.Sound) {size : ℕ} {initial : T}
    (hreset : w.reset o size initial = some w') :
    Touches w w' o ∧ (w'.owners o).size = size ∧ (w'.owners o).capacity = (w.owners o).capacity ∧
      ∀ i, w'.value o i = initial := by
  unfold World.reset at hreset
  split_ifs at hreset with hrefused
  dsimp only at hreset
  obtain rfl := Option.some.inj hreset
  generalize (w.arithmetic && _) = spilled
  refine ⟨.withOwner h ⟨fun p id hid => ?_, (fun file hfile => nomatch hfile), fun hfalse => ?_,
    (fun c hc => nomatch hc)⟩,
    by rw [withOwner_self], by rw [withOwner_self], fun i => ?_⟩
  · cases spilled with
    | true => exact nomatch hid
    | false => exact nomatch (page_replicate rfl p).symm.trans hid
  · cases spilled with
    | true => exact nomatch hfalse
    | false => exact List.length_replicate
  · unfold World.value
    rw [withOwner_self]
    cases spilled with
    | true => rfl
    | false =>
      rw [page_replicate rfl]
      rfl

/-! ## Copies and moves -/

theorem assign_spec (h : w.Sound) (hp : p < w.count) : Touches w (w.assign o p) o ∧
    ((w.assign o p).owners o).size = (w.owners p).size ∧ (w.assign o p).value o = w.value p := by
  unfold World.assign
  split_ifs with hsame
  · rw [hsame]
    exact ⟨.refl h p, rfl, rfl⟩
  · exact ⟨.withOwner h (h p hp).copied, by rw [withOwner_self]; rfl,
      value_withOwner w o rfl rfl rfl rfl⟩

theorem destroy_spec (h : w.Sound) (o : ℕ) :
    Touches w (w.destroy o) o ∧ ((w.destroy o).owners o).size = 0 :=
  ⟨.withOwner h .movedFrom, by rw [World.destroy, withOwner_self]; rfl⟩

/-- One window gets what another showed, and the other is empty. -/
structure Moved (w w' : World T) (o p : ℕ) : Prop where
  sound : w'.Sound
  count : w'.count = w.count
  arithmetic : w'.arithmetic = w.arithmetic
  valueBytes : w'.valueBytes = w.valueBytes
  owner : ∀ q, q < w.count → q ≠ o → q ≠ p → w'.owners q = w.owners q
  value : ∀ q, q < w.count → q ≠ o → q ≠ p → w'.value q = w.value q
  size : (w'.owners o).size = (w.owners p).size
  values : w'.value o = w.value p
  empty : (w'.owners p).size = 0

theorem moveTo_spec (h : w.Sound) (ho : o < w.count) (hp : p < w.count) (hne : o ≠ p) :
    Moved w (w.moveTo o p) o p := by
  have hfirst : Touches w (w.withOwner o (w.owners p).copied) o := .withOwner h (h p hp).copied
  have hsecond : Touches (w.withOwner o (w.owners p).copied) (w.moveTo o p) p :=
    .withOwner hfirst.sound .movedFrom
  have hother : (w.moveTo o p).owners o = (w.owners p).copied := by
    unfold World.moveTo
    rw [withOwner_other _ _ hne, withOwner_self]
  refine ⟨hsecond.sound, rfl, rfl, rfl, fun q hq hqo hqp => ?_, fun q hq hqo hqp => ?_,
    by rw [hother]; rfl, ?_, ?_⟩
  · rw [hsecond.owner q hq hqp, hfirst.owner q hq hqo]
  · rw [hsecond.value q hq hqp, hfirst.value q hq hqo]
  · rw [hsecond.value o ho hne]
    exact value_withOwner w o rfl rfl rfl rfl
  · unfold World.moveTo
    rw [withOwner_self]
    rfl

/-! ## New windows -/

/-- The windows there were, and one more. -/
structure Added (w w' : World T) : Prop where
  sound : w'.Sound
  count : w'.count = w.count + 1
  arithmetic : w'.arithmetic = w.arithmetic
  valueBytes : w'.valueBytes = w.valueBytes
  owner : ∀ q, q < w.count → w'.owners q = w.owners q
  value : ∀ q, q < w.count → w'.value q = w.value q

theorem add_spec (h : w.Sound) {v : Values T} (hv : v.Sound w) : Added w (w.add v) := by
  have howner : ∀ q, q < w.count → (w.add v).owners q = w.owners q :=
    fun q hq => withOwner_other w v hq.ne
  refine ⟨fun q hq => ?_, rfl, rfl, rfl, howner, fun q hq => ?_⟩
  · by_cases hlast : q = w.count
    · rw [hlast]
      change ((w.withOwner w.count v).owners w.count).Sound _
      rw [withOwner_self]
      exact hv.frame le_rfl le_rfl rfl fun _ _ => rfl
    · have hlt : q < w.count := Nat.lt_of_le_of_ne (Nat.le_of_lt_succ hq) hlast
      rw [howner q hlt]
      exact (h q hlt).frame le_rfl le_rfl rfl fun _ _ => rfl
  · exact value_congr (howner q hq) (fun _ _ _ => rfl) fun _ _ => rfl

theorem copy_spec (h : w.Sound) (ho : o < w.count) : Added w (w.copy o) ∧
    ((w.copy o).owners w.count).size = (w.owners o).size ∧ (w.copy o).value w.count
    = w.value o := by
  refine ⟨add_spec h (h o ho).copied, ?_, ?_⟩
  · change ((w.withOwner w.count (w.owners o).copied).owners w.count).size = _
    rw [withOwner_self]
    rfl
  · exact value_withOwner w w.count rfl rfl rfl rfl

theorem construct_spec [Inhabited T] (h : w.Sound) (capacity : ℕ) : Added w (w.construct capacity) ∧
    ((w.construct capacity).owners w.count).size = 0 := by
  refine ⟨add_spec h ⟨(fun p id hid => nomatch hid), (fun file hfile => nomatch hfile),
    fun _ => (pageCount_of_empty rfl).symm,
    (fun c hc => nomatch hc)⟩, ?_⟩
  change ((w.withOwner w.count _).owners w.count).size = 0
  rw [withOwner_self]

theorem move_eq (hp : p < w.count) : w.move p = (w.copy p).destroy p := by
  have howner : (w.copy p).owners p = w.owners p := withOwner_other w _ hp.ne
  unfold World.destroy
  rw [howner]
  rfl

theorem moveTo_eq (hne : o ≠ p) : w.moveTo o p = (w.assign o p).destroy p := by
  have howner : (w.withOwner o (w.owners p).copied).owners p = w.owners p :=
    withOwner_other w _ hne.symm
  unfold World.destroy World.assign World.moveTo
  rw [if_neg hne, howner]

end PineForge.Series
