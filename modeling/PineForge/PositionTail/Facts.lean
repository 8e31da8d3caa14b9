import PineForge.PositionTail.Summary

/-!
# What a summary knows of the rows it has seen

The certificates of a summary are those of the rows from the opening of the position to the last one
that was observed. Each operation keeps that, whatever order the rows are taken in.
-/

namespace PineForge.PositionTail

open FloatArith

/-- The quantities of the rows that are picked. -/
def quantities (picks : Row → Bool) (seen : List Row) : List Float :=
  (seen.filter picks).map Row.qty

/-- The rows of an origin. -/
def ofOrigin (incarnation : ℕ) (row : Row) : Bool := row.entryIncarnation = incarnation

/-- The margin calls of a side. -/
def ofSide (isLong : Bool) (row : Row) : Bool := row.marginCall && row.isLong == isLong

/-- The margin calls of an entry. -/
def ofEntry (entry : String) (isLong : Bool) (row : Row) : Bool :=
  row.marginCall && row.isLong == isLong && row.entryId == entry

section

variable {picks other : Row → Bool} {seen next : List Row} {row : Row}

theorem quantities_perm (h : seen.Perm next) :
    (quantities picks seen).Perm (quantities picks next) :=
  (h.filter _).map _

theorem quantities_cons_of_pos (h : picks row = true) :
    quantities picks (row :: seen) = row.qty :: quantities picks seen := by
  unfold quantities
  rw [List.filter_cons_of_pos h, List.map_cons]

theorem quantities_cons_of_neg (h : picks row = false) :
    quantities picks (row :: seen) = quantities picks seen := by
  unfold quantities
  rw [List.filter_cons_of_neg (by rw [h]; exact Bool.false_ne_true)]

theorem quantities_eq_nil (h : ∀ row ∈ seen, picks row = false) : quantities picks seen = [] := by
  unfold quantities
  rw [List.filter_eq_nil_iff.mpr (fun row hrow => by rw [h row hrow]; exact Bool.false_ne_true),
    List.map_nil]

theorem quantities_congr (h : ∀ row ∈ seen, picks row = other row) :
    quantities picks seen = quantities other seen := by
  unfold quantities
  rw [List.filter_congr h]

theorem quantities_or (h : ∀ row ∈ seen, picks row = true → other row = false) :
    (quantities (fun row => picks row || other row) seen).Perm
      (quantities picks seen ++ quantities other seen) := by
  induction seen with
  | nil => exact List.Perm.refl _
  | cons row seen ih =>
    have hrest := ih fun r hr => h r (List.mem_cons_of_mem _ hr)
    cases hpicks : picks row with
    | true =>
      have hother := h row List.mem_cons_self hpicks
      rw [quantities_cons_of_pos (by rw [hpicks]; rfl), quantities_cons_of_pos hpicks,
        quantities_cons_of_neg hother]
      exact hrest.cons row.qty
    | false =>
      rw [quantities_cons_of_neg hpicks]
      cases hother : other row with
      | true =>
        rw [quantities_cons_of_pos (by rw [hpicks, hother]; rfl), quantities_cons_of_pos hother]
        exact (hrest.cons row.qty).trans List.perm_middle.symm
      | false =>
        rw [quantities_cons_of_neg (by rw [hpicks, hother]; rfl), quantities_cons_of_neg hother]
        exact hrest

end

/-- The certificates are those of the rows that were seen. -/
structure Facts (s : Summary) (seen : List Row) : Prop where
  high : ∀ row ∈ seen, row.entryIncarnation ≤ s.highClosedOrigin
  sides : ∀ {incarnation origin}, s.origins incarnation = some origin →
    origin.completed.valid = true →
    ∀ row ∈ seen, row.entryIncarnation = incarnation → row.isLong = origin.isLong
  origins : ∀ {incarnation origin}, s.origins incarnation = some origin →
    origin.completed.Sound (quantities (ofOrigin incarnation) seen)
  all : ∀ side, (s.allMargins side).Sound (quantities (ofSide side) seen)
  named : ∀ {entry margins}, s.margins entry = some margins →
    ∀ side, (margins side).Sound (quantities (ofEntry entry side) seen)
  unnamed : ∀ {entry}, s.margins entry = none →
    ∀ row ∈ seen, row.marginCall = true → row.entryId ≠ entry

namespace Facts

variable {s : Summary} {seen next : List Row}

theorem perm (h : Facts s seen) (hperm : seen.Perm next) : Facts s next where
  high row hrow := h.high row (hperm.mem_iff.mpr hrow)
  sides ho hvalid row hrow := h.sides ho hvalid row (hperm.mem_iff.mpr hrow)
  origins ho := (h.origins ho).perm (quantities_perm hperm)
  all side := (h.all side).perm (quantities_perm hperm)
  named hm side := (h.named hm side).perm (quantities_perm hperm)
  unnamed hm row hrow := h.unnamed hm row (hperm.mem_iff.mpr hrow)

theorem congr {t : Summary} (h : Facts s seen) (horigins : t.origins = s.origins)
    (hmargins : t.margins = s.margins) (hall : t.allMargins = s.allMargins)
    (hhigh : t.highClosedOrigin = s.highClosedOrigin) : Facts t seen where
  high := hhigh ▸ h.high
  sides ho := h.sides (horigins ▸ ho)
  origins ho := h.origins (horigins ▸ ho)
  all := hall ▸ h.all
  named hm := h.named (hmargins ▸ hm)
  unnamed hm := h.unnamed (hmargins ▸ hm)

theorem nil (hmargins : s.margins = fun _ => none) (hall : s.allMargins = fun _ => .new)
    (horigins : s.origins = fun _ => none) : Facts s [] where
  high row hrow := by cases hrow
  sides ho hvalid row hrow := by cases hrow
  origins ho := by
    rw [horigins] at ho
    cases ho
  all side := by
    rw [hall]
    exact PositionTailExact.new_sound
  named hm := by
    rw [hmargins] at hm
    cases hm
  unnamed hm row hrow := by cases hrow

end Facts

/-! ## Accumulating a row -/

theorem addSide_sound {margins : Margins} {picks : Bool → Row → Bool} {seen : List Row}
    {trade : Trade}
    (h : ∀ side, (margins side).Sound (quantities (picks side) seen))
    (hpicks : ∀ side, picks side trade.row = true ↔ side = trade.isLong) (side : Bool) :
    (Summary.addSide margins trade.isLong trade.qty side).Sound
      (quantities (picks side) (trade.row :: seen)) := by
  unfold Summary.addSide
  by_cases hside : side = trade.isLong
  · rw [hside, Function.update_self, quantities_cons_of_pos ((hpicks _).mpr rfl)]
    exact ((h _).add trade.qty).perm (List.perm_append_singleton _ _)
  · have hnot : picks side trade.row = false :=
      Bool.eq_false_iff.mpr fun hp => hside ((hpicks _).mp hp)
    rw [Function.update_of_ne hside, quantities_cons_of_neg hnot]
    exact h side

theorem add_valid {c : PositionTailExact} {x : Float} (h : (c.add x).valid = true) :
    c.valid = true := by
  unfold PositionTailExact.add at h
  split at h
  · exact h
  · rename_i hvalid
    exact Bool.not_eq_false _ ▸ hvalid

namespace Facts

variable {s : Summary} {seen : List Row} {trade : Trade}

/-- A trade's origin keeps its sum. -/
theorem accumulate_origins (h : Facts s seen) (trade : Trade) :
    (∀ row ∈ trade.row :: seen, row.entryIncarnation
      ≤ max s.highClosedOrigin trade.entryIncarnation) ∧
    ∀ {incarnation origin}, Function.update s.origins trade.entryIncarnation
        ((s.origins trade.entryIncarnation).map (Summary.Origin.close · trade)) incarnation
          = some origin →
      origin.completed.Sound (quantities (ofOrigin incarnation) (trade.row :: seen)) ∧
      (origin.completed.valid = true → ∀ row ∈ trade.row :: seen, row.entryIncarnation
        = incarnation →
        row.isLong = origin.isLong) := by
  refine ⟨?_, ?_⟩
  · intro row hrow
    obtain rfl | hrow := List.mem_cons.mp hrow
    · exact le_max_right _ _
    · exact le_trans (h.high row hrow) (le_max_left _ _)
  · intro incarnation origin ho
    by_cases hsame : incarnation = trade.entryIncarnation
    · subst hsame
      rw [Function.update_self] at ho
      obtain ⟨before, hbefore, rfl⟩ := Option.map_eq_some_iff.mp ho
      have hpicks : ofOrigin trade.entryIncarnation trade.row = true := decide_eq_true rfl
      have hsound := h.origins hbefore
      rw [quantities_cons_of_pos hpicks]
      by_cases hside : before.isLong = trade.isLong
      · have hclose : Summary.Origin.close before trade
            = { before with completed := before.completed.add trade.qty } := by
          unfold Summary.Origin.close
          rw [if_neg (not_not.mpr hside)]
        rw [hclose]
        refine ⟨(hsound.add trade.qty).perm (List.perm_append_singleton _ _), ?_⟩
        intro hvalid row hrow hinc
        obtain rfl | hrow := List.mem_cons.mp hrow
        · exact hside.symm
        · exact h.sides hbefore (add_valid hvalid) row hrow hinc
      · have hinvalid : (Summary.Origin.close before trade).completed.valid = false := by
          unfold Summary.Origin.close
          rw [if_pos hside]
          rfl
        refine ⟨fun hvalid => ?_, fun hvalid => ?_⟩
        · rw [hinvalid] at hvalid
          cases hvalid
        · rw [hinvalid] at hvalid
          cases hvalid
    · rw [Function.update_of_ne hsame] at ho
      have hpicks : ofOrigin incarnation trade.row = false :=
        decide_eq_false fun heq => hsame heq.symm
      rw [quantities_cons_of_neg hpicks]
      refine ⟨h.origins ho, ?_⟩
      intro hvalid row hrow hinc
      obtain rfl | hrow := List.mem_cons.mp hrow
      · exact absurd hinc.symm hsame
      · exact h.sides ho hvalid row hrow hinc

/-- A trade keeps every sum. -/
theorem accumulate (h : Facts s seen) (trade : Trade) :
    Facts (s.accumulate trade) (trade.row :: seen) := by
  obtain ⟨hhigh, horigins⟩ := h.accumulate_origins trade
  unfold Summary.accumulate
  dsimp only
  split
  · rename_i hlabel
    have hcall : trade.row.marginCall = false := decide_eq_false hlabel
    have hside : ∀ side, ofSide side trade.row = false := fun side => by
      unfold ofSide
      rw [hcall, Bool.false_and]
    have hentry : ∀ entry side, ofEntry entry side trade.row = false := fun entry side => by
      unfold ofEntry
      rw [hcall, Bool.false_and, Bool.false_and]
    refine ⟨hhigh, fun ho => (horigins ho).2, fun ho => (horigins ho).1, ?_, ?_, ?_⟩
    · intro side
      rw [quantities_cons_of_neg (hside side)]
      exact h.all side
    · intro entry margins hm side
      rw [quantities_cons_of_neg (hentry entry side)]
      exact h.named hm side
    · intro entry hm row hrow hmargin
      obtain rfl | hrow := List.mem_cons.mp hrow
      · rw [hcall] at hmargin
        cases hmargin
      · exact h.unnamed hm row hrow hmargin
  · rename_i hlabel
    have hcall : trade.row.marginCall = true := decide_eq_true (not_not.mp hlabel)
    refine ⟨hhigh, fun ho => (horigins ho).2, fun ho => (horigins ho).1, ?_, ?_, ?_⟩
    · intro side
      refine @addSide_sound _ ofSide _ _ h.all ?_ side
      intro side
      unfold ofSide
      rw [hcall, Bool.true_and, beq_iff_eq, eq_comm]
      rfl
    · intro entry margins hm side
      dsimp only at hm
      by_cases hsame : entry = trade.entryId
      · subst hsame
        rw [Function.update_self] at hm
        cases hm
        refine @addSide_sound _ (ofEntry trade.entryId) _ _ ?_ ?_ side
        · intro side
          cases hbefore : s.margins trade.entryId with
          | none =>
            have hnone : quantities (ofEntry trade.entryId side) seen = [] := by
              refine quantities_eq_nil ?_
              intro row hrow
              refine Bool.eq_false_iff.mpr ?_
              intro hpicks
              unfold ofEntry at hpicks
              rw [Bool.and_eq_true, Bool.and_eq_true] at hpicks
              exact h.unnamed hbefore row hrow hpicks.1.1 (beq_iff_eq.mp hpicks.2)
            rw [hnone]
            exact PositionTailExact.new_sound
          | some before => exact h.named hbefore side
        · intro side
          unfold ofEntry
          rw [hcall, Bool.true_and, Bool.and_eq_true, beq_iff_eq, beq_iff_eq]
          constructor
          · intro hboth
            exact hboth.1.symm
          · intro hside
            exact ⟨hside.symm, rfl⟩
      · rw [Function.update_of_ne hsame] at hm
        have hpicks : ofEntry entry side trade.row = false := by
          refine Bool.eq_false_iff.mpr ?_
          intro hpicks
          unfold ofEntry at hpicks
          rw [Bool.and_eq_true, beq_iff_eq] at hpicks
          exact hsame hpicks.2.symm
        rw [quantities_cons_of_neg hpicks]
        exact h.named hm side
    · intro entry hm row hrow hmargin
      dsimp only at hm
      by_cases hsame : entry = trade.entryId
      · subst hsame
        rw [Function.update_self] at hm
        cases hm
      · rw [Function.update_of_ne hsame] at hm
        obtain rfl | hrow := List.mem_cons.mp hrow
        · exact fun heq => hsame heq.symm
        · exact h.unnamed hm row hrow hmargin

end Facts

end PineForge.PositionTail
