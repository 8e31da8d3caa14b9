import Mathlib
import PineForge.Calendar.Cycle

/-!
# Merged spans

Merging keeps the instants that the spans cover and leaves gaps between what it returns. Spans with
gaps between them are determined by the instants they cover, so that the result of a merge does not
depend on the order or the multiplicity of its spans.
-/

namespace PineForge.Calendar

/-- An instant is in one of the spans. -/
def Covers (spans : List EpochSpan) (x : ℤ) : Prop := ∃ s ∈ spans, s.startMs ≤ x ∧ x < s.endMs

/-- An instant in one of the spans. -/
def msInSpans (spans : List EpochSpan) (ms : ℤ) : Bool :=
  spans.any fun s => s.startMs ≤ ms ∧ ms < s.endMs

theorem msInSpans_iff (spans : List EpochSpan) (ms : ℤ) :
    msInSpans spans ms = true ↔ Covers spans ms := by
  unfold msInSpans Covers
  rw [List.any_eq_true]
  refine exists_congr fun s => and_congr_right fun _ => ?_
  exact decide_eq_true_iff

/-- Spans of positive length with gaps between them. -/
structure Separated (spans : List EpochSpan) : Prop where
  gaps : spans.Pairwise fun s t => s.endMs < t.startMs
  positive : ∀ s ∈ spans, s.startMs < s.endMs

theorem Covers.congr {spans spans' : List EpochSpan} (h : ∀ s, s ∈ spans ↔ s ∈ spans') (x : ℤ) :
    Covers spans x ↔ Covers spans' x :=
  exists_congr fun s => and_congr_left fun _ => h s

/-! ## Merging -/

/-- The merged spans, the newest first, when every span still to come starts at or after the
newest. -/
structure Merging (out : List EpochSpan) (sorted : List EpochSpan) : Prop where
  gaps : out.Pairwise fun s t => t.endMs < s.startMs
  positive : ∀ s ∈ out, s.startMs < s.endMs
  ahead : ∀ back ∈ out.head?, ∀ s ∈ sorted, back.startMs ≤ s.startMs

/-- One merge keeps the spans apart. -/
theorem Merging.step {out : List EpochSpan} {span : EpochSpan} {rest : List EpochSpan}
    (h : Merging out (span :: rest)) (hspan : span.startMs < span.endMs)
    (hrest : ∀ s ∈ rest, span.startMs ≤ s.startMs) : Merging (mergeSpan out span) rest := by
  unfold mergeSpan
  cases out with
  | nil =>
    refine ⟨List.pairwise_singleton _ _, ?_, ?_⟩
    · intro s hs
      rw [List.mem_singleton.mp hs]
      exact hspan
    · intro back hback
      cases hback
      exact hrest
  | cons back out =>
    have hpositive := h.positive back List.mem_cons_self
    have hahead := h.ahead back rfl
    obtain ⟨hback, hgaps⟩ := List.pairwise_cons.mp h.gaps
    dsimp only
    split
    · rename_i hgap
      refine ⟨List.pairwise_cons.mpr ⟨?_, h.gaps⟩, ?_, ?_⟩
      · intro s hs
        obtain rfl | hs := List.mem_cons.mp hs
        · exact hgap
        · have hle := hback s hs
          omega
      · intro s hs
        obtain rfl | hs := List.mem_cons.mp hs
        · exact hspan
        · exact h.positive s hs
      · intro back' hback'
        cases hback'
        exact hrest
    · split
      · refine ⟨List.pairwise_cons.mpr ⟨hback, hgaps⟩, ?_, ?_⟩
        · intro s hs
          obtain rfl | hs := List.mem_cons.mp hs
          · change back.startMs < span.endMs
            omega
          · exact h.positive s (List.mem_cons_of_mem _ hs)
        · intro back' hback'
          cases hback'
          exact fun s hs => hahead s (List.mem_cons_of_mem _ hs)
      · refine ⟨h.gaps, h.positive, ?_⟩
        intro back' hback'
        cases hback'
        exact fun s hs => hahead s (List.mem_cons_of_mem _ hs)

theorem covers_cons (s : EpochSpan) (spans : List EpochSpan) (x : ℤ) :
    Covers (s :: spans) x ↔ (s.startMs ≤ x ∧ x < s.endMs) ∨ Covers spans x := by
  unfold Covers
  rw [List.exists_mem_cons_iff]

/-- A merge covers both. -/
theorem Merging.covers {out : List EpochSpan} {span : EpochSpan} {rest : List EpochSpan}
    (h : Merging out (span :: rest)) (x : ℤ) :
    Covers (mergeSpan out span) x ↔ Covers out x ∨ (span.startMs ≤ x ∧ x < span.endMs) := by
  unfold mergeSpan
  cases out with
  | nil =>
    rw [covers_cons]
    exact or_comm
  | cons back out =>
    have hahead := h.ahead back rfl span List.mem_cons_self
    have hpositive := h.positive back List.mem_cons_self
    dsimp only
    split
    · rw [covers_cons]
      exact or_comm
    · rename_i hgap
      rw [covers_cons]
      split
      · rw [covers_cons]
        dsimp only
        constructor
        · rintro (hx | hx)
          · obtain hlt | hge := lt_or_ge x back.endMs
            · exact .inl (.inl ⟨hx.1, hlt⟩)
            · exact .inr ⟨by omega, hx.2⟩
          · exact .inl (.inr hx)
        · rintro ((hx | hx) | hx)
          · exact .inl ⟨hx.1, by omega⟩
          · exact .inr hx
          · exact .inl ⟨by omega, hx.2⟩
      · rw [covers_cons]
        constructor
        · exact fun hx => .inl hx
        · rintro (hx | hx)
          · exact hx
          · exact .inl ⟨by omega, by omega⟩

theorem foldl_mergeSpan {sorted : List EpochSpan} {out : List EpochSpan} (h : Merging out sorted)
    (hsorted : sorted.Pairwise fun s t => s.startMs ≤ t.startMs)
    (hpositive : ∀ s ∈ sorted, s.startMs < s.endMs) :
    Merging (sorted.foldl mergeSpan out) [] ∧
      ∀ x, Covers (sorted.foldl mergeSpan out) x ↔ Covers out x ∨ Covers sorted x := by
  induction sorted generalizing out with
  | nil =>
    refine ⟨h, fun x => ⟨.inl, ?_⟩⟩
    rintro (hx | ⟨s, hs, -⟩)
    · exact hx
    · cases hs
  | cons span rest ih =>
    obtain ⟨hrest, hsorted⟩ := List.pairwise_cons.mp hsorted
    have hstep := h.step (hpositive span List.mem_cons_self) hrest
    obtain ⟨hmerging, hcovers⟩ :=
      ih hstep hsorted fun s hs => hpositive s (List.mem_cons_of_mem _ hs)
    refine ⟨hmerging, fun x => ?_⟩
    rw [List.foldl_cons, hcovers x, h.covers x, covers_cons, or_assoc]

theorem mergeSpans_spec {spans : List EpochSpan} (h : ∀ s ∈ spans, s.startMs < s.endMs) :
    Separated (mergeSpans spans) ∧ ∀ x, Covers (mergeSpans spans) x ↔ Covers spans x := by
  have hmem : ∀ s, s ∈ (spans.insertionSort fun a b => a.startMs ≤ b.startMs) ↔ s ∈ spans :=
    fun s => List.mem_insertionSort _
  have hsorted : (spans.insertionSort fun a b => a.startMs ≤ b.startMs).Pairwise
      fun s t => s.startMs ≤ t.startMs := by
    have : Std.Total fun a b : EpochSpan => a.startMs ≤ b.startMs := ⟨fun a b => le_total _ _⟩
    have : IsTrans EpochSpan fun a b => a.startMs ≤ b.startMs := ⟨fun a b c => le_trans⟩
    exact List.pairwise_insertionSort _ _
  have hstart : Merging [] (spans.insertionSort fun a b => a.startMs ≤ b.startMs) :=
    ⟨List.Pairwise.nil, nofun, nofun⟩
  obtain ⟨hmerging, hcovers⟩ := foldl_mergeSpan hstart hsorted fun s hs => h s ((hmem s).mp hs)
  unfold mergeSpans
  refine ⟨⟨List.pairwise_reverse.mpr hmerging.gaps,
    fun s hs => hmerging.positive s (List.mem_reverse.mp hs)⟩, ?_⟩
  intro x
  rw [Covers.congr (fun s => List.mem_reverse) x, hcovers x, Covers.congr hmem x]
  refine ⟨?_, .inr⟩
  rintro (⟨s, hs, -⟩ | hx)
  · cases hs
  · exact hx

/-! ## Spans with gaps are what they cover -/

theorem Separated.tail {s : EpochSpan} {spans : List EpochSpan} (h : Separated (s :: spans)) :
    Separated spans :=
  ⟨(List.pairwise_cons.mp h.gaps).2, fun t ht => h.positive t (List.mem_cons_of_mem _ ht)⟩

theorem Separated.start_le {s : EpochSpan} {spans : List EpochSpan}
    (h : Separated (s :: spans)) {x : ℤ}
    (hx : Covers (s :: spans) x) : s.startMs ≤ x := by
  obtain ⟨t, ht, hle, -⟩ := hx
  obtain rfl | ht := List.mem_cons.mp ht
  · exact hle
  · have hgap := (List.pairwise_cons.mp h.gaps).1 t ht
    have hpositive := h.positive s List.mem_cons_self
    omega

theorem Separated.covers_tail {s : EpochSpan} {spans : List EpochSpan}
    (h : Separated (s :: spans)) (x : ℤ) :
    Covers spans x ↔ Covers (s :: spans) x ∧ s.endMs < x := by
  rw [covers_cons]
  constructor
  · rintro ⟨t, ht, hx⟩
    have hgap := (List.pairwise_cons.mp h.gaps).1 t ht
    exact ⟨.inr ⟨t, ht, hx⟩, by omega⟩
  · rintro ⟨hx | hx, hlt⟩
    · omega
    · exact hx

/-- Spans apart are known by what they cover. -/
theorem Separated.eq_of_covers {spans spans' : List EpochSpan} (h : Separated spans)
    (h' : Separated spans')
    (hcovers : ∀ x, Covers spans x ↔ Covers spans' x) : spans = spans' := by
  induction spans generalizing spans' with
  | nil =>
    cases spans' with
    | nil => rfl
    | cons t spans' =>
      have hpositive := h'.positive t List.mem_cons_self
      obtain ⟨s, hs, -⟩ := (hcovers t.startMs).mpr ⟨t, List.mem_cons_self, le_rfl, hpositive⟩
      cases hs
  | cons s spans ih =>
    have hpositive := h.positive s List.mem_cons_self
    cases spans' with
    | nil =>
      obtain ⟨t, ht, -⟩ := (hcovers s.startMs).mp ⟨s, List.mem_cons_self, le_rfl, hpositive⟩
      cases ht
    | cons t spans' =>
      have hpositive' := h'.positive t List.mem_cons_self
      -- the first covered instant is the start of either
      have hle := h'.start_le ((hcovers s.startMs).mp ⟨s, List.mem_cons_self, le_rfl, hpositive⟩)
      have hge := h.start_le ((hcovers t.startMs).mpr ⟨t, List.mem_cons_self, le_rfl, hpositive'⟩)
      -- and the first instant after it that is not covered is the end of either
      have hend : ∀ {a b : EpochSpan} {as bs : List EpochSpan}, Separated (a :: as) →
        Separated (b :: bs) →
          (∀ x, Covers (a :: as) x ↔ Covers (b :: bs) x) → a.startMs = b.startMs →
            b.endMs ≤ a.endMs := by
        intro a b as bs ha hb hab hstart
        by_contra hlt
        have hpos := ha.positive a List.mem_cons_self
        have hcovered := (hab a.endMs).mpr ⟨b, List.mem_cons_self, by omega, by omega⟩
        rw [covers_cons] at hcovered
        obtain hx | hx := hcovered
        · omega
        · have hafter := ((ha.covers_tail a.endMs).mp hx).2
          omega
      have hstart : s.startMs = t.startMs := le_antisymm hge hle
      have hends : s.endMs = t.endMs :=
        le_antisymm (hend h' h (fun x => (hcovers x).symm) hstart.symm) (hend h h' hcovers hstart)
      have hst : s = t := by
        cases s
        cases t
        cases hstart
        cases hends
        rfl
      rw [hst] at hcovers h ⊢
      refine congrArg _ (ih h.tail h'.tail fun x => ?_)
      rw [h.covers_tail, h'.covers_tail, hcovers x]

theorem mergeSpans_congr {spans spans' : List EpochSpan} (h : ∀ s, s ∈ spans ↔ s ∈ spans')
    (hpositive : ∀ s ∈ spans, s.startMs < s.endMs) : mergeSpans spans = mergeSpans spans' := by
  obtain ⟨hseparated, hcovers⟩ := mergeSpans_spec hpositive
  obtain ⟨hseparated', hcovers'⟩ := mergeSpans_spec fun s hs => hpositive s ((h s).mpr hs)
  refine hseparated.eq_of_covers hseparated' fun x => ?_
  rw [hcovers x, hcovers' x, Covers.congr h x]

end PineForge.Calendar
