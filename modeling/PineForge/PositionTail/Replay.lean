import PineForge.PositionTail.Facts

/-!
# Certified sums are the replayed folds

A position's rows are appended, observed and spilled while origins are opened and retired. In every
state that such a run reaches, a sum that the summary certifies is the double that the replay of the
rows computes.
-/

namespace PineForge.PositionTail

open FloatArith

/-- The opening time of no position. -/
def minTime : ℤ := -2 ^ 63

/-- The trades, the spill and the summary. -/
structure State where
  rows : List Trade
  base : ℕ
  spill : List Row
  positionOpen : ℤ
  summary : Summary

/-- The calls on a tail. -/
inductive Op
  | append (trade : Trade)
  | beginPosition (barrier : ℤ)
  | observe
  | openOrigin (incarnation : ℕ) (isLong : Bool)
  | retireOrigin (incarnation : ℕ)
  | liveCohort (row : ℕ) (nonempty : Bool)
  | preserve (globalEnd : ℕ)
  | invalidate
  | forgetOrigins
  | flat
  | ancestry (isLong : Bool) (select : List ℕ)

/-- The rows that leave the resident list. A row before the opening cuts off what was spilled. -/
def preserveLoop (positionOpen : ℤ) : List Trade → List Row → List Row
  | [], spill => spill
  | trade :: rest, spill =>
    preserveLoop positionOpen rest (if trade.exitTime < positionOpen then []
      else spill ++ [trade.row])

namespace State

/-- A tail without trades. -/
def new : State where
  rows := []
  base := 0
  spill := []
  positionOpen := minTime
  summary := .new

/-- A position is opened with an empty spill. -/
def beginPosition (st : State) (barrier : ℤ) : State :=
  { st with
    spill := []
    positionOpen := barrier
    summary := st.summary.beginPosition barrier st.base st.rows }

/-- Observe the trades. -/
def observe (st : State) : State := { st with summary := st.summary.observe st.base st.rows }

/-- The resident rows before `globalEnd` are spilled and sealed. -/
def preserve (st : State) (globalEnd : ℕ) : State :=
  if globalEnd < st.base ∨ st.rows.length < globalEnd then st
  else
    { st with
      base := globalEnd
      spill := if st.positionOpen = minTime then []
        else preserveLoop st.positionOpen ((st.rows.take globalEnd).drop st.base) st.spill }

/-- The position is flat. -/
def flat (st : State) : State :=
  { st with spill := [], positionOpen := minTime, summary := st.summary.invalidate }

/-- One call. -/
def step (st : State) : Op → State
  | .append trade => { st with rows := st.rows ++ [trade] }
  | .beginPosition barrier => st.beginPosition barrier
  | .observe => st.observe
  | .openOrigin incarnation isLong =>
    { st with summary := st.summary.openOrigin incarnation isLong }
  | .retireOrigin incarnation => { st with summary := st.summary.retireOrigin incarnation }
  | .liveCohort row nonempty => { st with summary := st.summary.liveCohort row nonempty }
  | .preserve globalEnd => st.preserve globalEnd
  | .invalidate => { st with summary := st.summary.invalidate }
  | .forgetOrigins => { st with summary := st.summary.forgetOrigins }
  | .flat => st.flat
  | .ancestry isLong select => { st with summary := (st.summary.ancestry isLong select).1 }

/-- The calls of a run. -/
def run (st : State) (ops : List Op) : State := ops.foldl step st

/-- The rows are observed before the summary is asked, and it is asked for an open position only. -/
def ancestry (st : State) (isLong : Bool) (select : List ℕ) : Option Float :=
  if st.positionOpen = minTime then none else (st.observe.summary.ancestry isLong select).2

/-- The quantity that margin calls closed. -/
def margin (st : State) (isLong : Bool) (entry : Option String) : Option Float :=
  if st.positionOpen = minTime then none else st.observe.summary.margin isLong entry

/-- The replayed sum of the included rows. -/
def replay (st : State) (includes : Row → Bool) : Float :=
  replayPositionTail st.rows st.base st.spill st.positionOpen includes

/-- The rows of the selected origins. -/
def ofSelected (isLong : Bool) (select : List ℕ) (row : Row) : Bool :=
  row.isLong == isLong && select.contains row.entryIncarnation

/-- The slices of margin calls, of one entry or of all. -/
def ofMargin (isLong : Bool) : Option String → Row → Bool
  | none => ofSide isLong
  | some entry => ofEntry entry isLong

end State

/-! ## Rows back to the barrier -/

/-- The rows from a barrier on. -/
def since (barrier : ℤ) (row : Row) : Bool := barrier ≤ row.exitTime

theorem walk_eq {barrier : ℤ} {includes : Row → Bool} {rows : List Row} {result : Float} :
    walk barrier includes rows result
      = (quantities includes (rows.takeWhile (since barrier))).foldl (· + ·) result := by
  induction rows generalizing result with
  | nil => rfl
  | cons row rest ih =>
    unfold walk
    split
    · rename_i hlt
      have hstop : since barrier row = false := decide_eq_false (not_le.mpr hlt)
      rw [List.takeWhile_cons_of_neg (by rw [hstop]; exact Bool.false_ne_true)]
      rfl
    · rename_i hge
      have hpass : since barrier row = true := decide_eq_true (not_lt.mp hge)
      rw [List.takeWhile_cons_of_pos hpass, ih]
      cases hincludes : includes row with
      | true =>
        rw [quantities_cons_of_pos hincludes]
        rfl
      | false =>
        rw [quantities_cons_of_neg hincludes]
        rfl

theorem takeWhile_append_congr {p : Row → Bool} {front back back' : List Row}
    (h : back.takeWhile p = back'.takeWhile p) :
    (front ++ back).takeWhile p = (front ++ back').takeWhile p := by
  rw [List.takeWhile_append, List.takeWhile_append, h]

theorem takeWhile_preserveLoop {barrier : ℤ} {moved : List Trade} {spill front : List Row} :
    (front ++ (preserveLoop barrier moved spill).reverse).takeWhile (since barrier)
      = (front ++ ((moved.map Trade.row).reverse ++ spill.reverse)).takeWhile (since barrier) := by
  induction moved generalizing spill with
  | nil => rfl
  | cons trade rest ih =>
    unfold preserveLoop
    rw [ih, List.map_cons, List.reverse_cons, List.append_assoc, ← List.append_assoc front,
      ← List.append_assoc front]
    refine takeWhile_append_congr ?_
    split
    · rename_i hlt
      have hstop : since barrier trade.row = false := decide_eq_false (not_le.mpr hlt)
      rw [List.singleton_append,
        List.takeWhile_cons_of_neg (by rw [hstop]; exact Bool.false_ne_true)]
      rfl
    · rw [List.reverse_append]
      rfl

/-! ## Loops over rows -/

/-- What an operation on rows leaves alone. -/
structure Same (s t : Summary) : Prop where
  barrier : t.barrier = s.barrier
  active : t.active = s.active
  generation : t.queryGeneration = s.queryGeneration

theorem accumulate_same (s : Summary) (trade : Trade) :
    Same s (s.accumulate trade) ∧ (s.accumulate trade).safe = s.safe ∧
      (s.accumulate trade).observedEnd = s.observedEnd ∧ (s.accumulate trade).haveTime
        = s.haveTime := by
  unfold Summary.accumulate
  dsimp only
  split
  · exact ⟨⟨rfl, rfl, rfl⟩, rfl, rfl, rfl⟩
  · exact ⟨⟨rfl, rfl, rfl⟩, rfl, rfl, rfl⟩

/-- Origins are marked with generations that have passed. -/
structure Marked (s : Summary) : Prop where
  le : ∀ {incarnation origin}, s.origins incarnation = some origin →
    origin.visited ≤ s.queryGeneration
  lt : s.queryGeneration < 2 ^ 32

theorem Marked.update {s t : Summary} {incarnation : ℕ} {origin : Option Origin} (h : Marked s)
    (horigins : t.origins = Function.update s.origins incarnation origin)
    (hgeneration : t.queryGeneration = s.queryGeneration)
    (horigin : ∀ o, origin = some o → o.visited ≤ s.queryGeneration) : Marked t := by
  refine ⟨?_, hgeneration ▸ h.lt⟩
  intro other o ho
  rw [hgeneration]
  rw [horigins] at ho
  by_cases hsame : other = incarnation
  · rw [hsame, Function.update_self] at ho
    exact horigin o ho
  · rw [Function.update_of_ne hsame] at ho
    exact h.le ho

theorem Marked.none {s t : Summary} (h : Marked s) (horigins : t.origins = fun _ => none)
    (hgeneration : t.queryGeneration = s.queryGeneration) : Marked t := by
  refine ⟨?_, hgeneration ▸ h.lt⟩
  intro incarnation o ho
  rw [horigins] at ho
  cases ho

theorem Marked.accumulate {s : Summary} (h : Marked s) (trade : Trade) :
    Marked (s.accumulate trade) := by
  have horigins : (s.accumulate trade).origins = Function.update s.origins trade.entryIncarnation
      ((s.origins trade.entryIncarnation).map (Summary.Origin.close · trade)) := by
    unfold Summary.accumulate
    dsimp only
    split
    · rfl
    · rfl
  refine h.update horigins (accumulate_same s trade).1.generation ?_
  intro o ho
  obtain ⟨before, hbefore, rfl⟩ := Option.map_eq_some_iff.mp ho
  change before.visited ≤ s.queryGeneration
  exact h.le hbefore

/-- The rows back to the barrier are accumulated, or the summary is given up. -/
theorem beginLoop_spec {s : Summary} {newer : ℤ} {rows : List Trade} {seen : List Row}
    (hmarked : Marked s)
    (hfacts : Facts s seen) :
    Same s (s.beginLoop newer rows) ∧ Marked (s.beginLoop newer rows) ∧
      (s.beginLoop newer rows).observedEnd = s.observedEnd ∧
      ((s.beginLoop newer rows).safe = true →
        Facts (s.beginLoop newer rows)
          (seen ++ (rows.map Trade.row).takeWhile (since s.barrier))) := by
  induction rows generalizing s newer seen with
  | nil =>
    refine ⟨⟨rfl, rfl, rfl⟩, hmarked, rfl, fun _ => ?_⟩
    rw [List.map_nil, List.takeWhile_nil, List.append_nil]
    exact hfacts
  | cons trade rest ih =>
    unfold Summary.beginLoop
    split
    · rename_i hlt
      have hstop : since s.barrier trade.row = false := decide_eq_false (not_le.mpr hlt)
      refine ⟨⟨rfl, rfl, rfl⟩, hmarked, rfl, fun _ => ?_⟩
      rw [List.map_cons, List.takeWhile_cons_of_neg (by rw [hstop]; exact Bool.false_ne_true),
        List.append_nil]
      exact hfacts
    · rename_i hge
      split
      · exact ⟨⟨rfl, rfl, rfl⟩, hmarked.none rfl rfl, rfl, fun hsafe => by cases hsafe⟩
      · have hpass : since s.barrier trade.row = true := decide_eq_true (not_lt.mp hge)
        dsimp only
        generalize hs : ({ s with
          lastTime := if s.haveTime then s.lastTime else trade.exitTime
          haveTime := true } : Summary) = t
        have hfacts' : Facts t seen := by
          rw [← hs]
          exact hfacts.congr rfl rfl rfl rfl
        have hmarked' : Marked t := by
          rw [← hs]
          exact ⟨hmarked.le, hmarked.lt⟩
        have hbarrier : t.barrier = s.barrier := by rw [← hs]
        obtain ⟨hsame, -, hend, -⟩ := accumulate_same t trade
        obtain ⟨hsame', hmarked'', hend', hrest⟩ := @ih (t.accumulate trade) trade.exitTime _
          (hmarked'.accumulate trade) ((hfacts'.accumulate trade).perm
            (List.perm_append_singleton trade.row seen).symm)
        refine ⟨⟨?_, ?_, ?_⟩, hmarked'', ?_, ?_⟩
        · rw [hsame'.barrier, hsame.barrier, hbarrier]
        · rw [hsame'.active, hsame.active, ← hs]
        · rw [hsame'.generation, hsame.generation, ← hs]
        · rw [hend', hend, ← hs]
        · intro hsafe
          rw [List.map_cons, List.takeWhile_cons_of_pos hpass]
          have hfinal := hrest hsafe
          rw [hsame.barrier, hbarrier, List.append_assoc, List.singleton_append] at hfinal
          exact hfinal

/-- The rows that were not observed are accumulated, or the summary is given up. -/
theorem observeLoop_spec {s : Summary} {rows : List Trade} (hmarked : Marked s) :
    Same s (s.observeLoop rows) ∧ Marked (s.observeLoop rows) ∧
      (s.observeLoop rows).observedEnd ≤ s.observedEnd + rows.length ∧
      ((s.observeLoop rows).safe = true →
        (s.observeLoop rows).observedEnd = s.observedEnd + rows.length ∧
        (∀ trade ∈ rows, since s.barrier trade.row = true) ∧
        ∀ seen, Facts s seen → Facts (s.observeLoop rows)
          ((rows.map Trade.row).reverse ++ seen)) := by
  induction rows generalizing s with
  | nil =>
    refine ⟨⟨rfl, rfl, rfl⟩, hmarked, le_rfl, fun _ => ⟨rfl, ?_, fun seen hfacts => hfacts⟩⟩
    intro trade htrade
    cases htrade
  | cons trade rest ih =>
    unfold Summary.observeLoop
    dsimp only
    split
    · refine ⟨⟨rfl, rfl, rfl⟩, hmarked.none rfl rfl, ?_, fun hsafe => by cases hsafe⟩
      change s.observedEnd + 1 ≤ _
      rw [List.length_cons]
      omega
    · rename_i hkeep
      rw [not_or] at hkeep
      have hpass : since s.barrier trade.row = true := decide_eq_true (not_lt.mp hkeep.1)
      generalize hs : ({ s with
        observedEnd := s.observedEnd + 1
        lastTime := trade.exitTime
        haveTime := true } : Summary) = t
      have hmarked' : Marked t := by
        rw [← hs]
        exact ⟨hmarked.le, hmarked.lt⟩
      have hend : t.observedEnd = s.observedEnd + 1 := by rw [← hs]
      have hbarrier : t.barrier = s.barrier := by rw [← hs]
      obtain ⟨hsame, -, hend', -⟩ := accumulate_same t trade
      obtain ⟨hsame', hmarked'', hle, hrest⟩ :=
        ih (s := t.accumulate trade) (hmarked'.accumulate trade)
      refine ⟨⟨?_, ?_, ?_⟩, hmarked'', ?_, ?_⟩
      · rw [hsame'.barrier, hsame.barrier, hbarrier]
      · rw [hsame'.active, hsame.active, ← hs]
      · rw [hsame'.generation, hsame.generation, ← hs]
      · rw [List.length_cons]
        omega
      · intro hsafe
        obtain ⟨hobserved, hall, hfinal⟩ := hrest hsafe
        refine ⟨?_, ?_, ?_⟩
        · rw [hobserved, hend', hend, List.length_cons]
          omega
        · intro other hother
          obtain rfl | hother := List.mem_cons.mp hother
          · exact hpass
          · have hpasses := hall other hother
            rwa [hsame.barrier, hbarrier] at hpasses
        · intro seen hfacts
          have hfacts' : Facts t seen := by
            rw [← hs]
            exact hfacts.congr rfl rfl rfl rfl
          rw [List.map_cons, List.reverse_cons, List.append_assoc, List.singleton_append]
          exact hfinal _ (hfacts'.accumulate trade)

/-! ## Visits -/

open State in
/-- The total over the origins that were visited, which are those that are marked. -/
structure Visited (s : Summary) (seen : List Row) (isLong : Bool) (total : PositionTailExact)
    (visited : List ℕ) : Prop where
  facts : Facts s seen
  marks : ∀ {incarnation origin}, s.origins incarnation = some origin →
    (origin.visited = s.queryGeneration ↔ incarnation ∈ visited)
  total : total.Sound (quantities (ofSelected isLong visited) seen)

theorem Facts.mark {s : Summary} {seen : List Row} {incarnation : ℕ} {origin : Origin}
    {generation : ℕ}
    (h : Facts s seen) (ho : s.origins incarnation = some origin) :
    Facts { s with origins :=
      Function.update s.origins incarnation (some { origin with visited := generation }) }
        seen := by
  have hsplit : ∀ {i o}, Function.update s.origins incarnation
      (some { origin with visited := generation }) i = some o →
      ∃ o', s.origins i = some o' ∧ o'.completed = o.completed ∧ o'.isLong = o.isLong := by
    intro i o hi
    by_cases hsame : i = incarnation
    · rw [hsame, Function.update_self] at hi
      cases hi
      exact ⟨origin, hsame ▸ ho, rfl, rfl⟩
    · rw [Function.update_of_ne hsame] at hi
      exact ⟨o, hi, rfl, rfl⟩
  refine ⟨h.high, ?_, ?_, h.all, h.named, h.unnamed⟩
  · intro i o hi hvalid row hrow hinc
    obtain ⟨o', ho', hcompleted, hside⟩ := hsplit hi
    rw [← hside]
    exact h.sides ho' (hcompleted ▸ hvalid) row hrow hinc
  · intro i o hi
    obtain ⟨o', ho', hcompleted, -⟩ := hsplit hi
    rw [← hcompleted]
    exact h.origins ho'

section

variable {s : Summary} {seen : List Row} {isLong : Bool} {total : PositionTailExact}
    {visited : List ℕ}
  {incarnation : ℕ}

open State

theorem quantities_selected_cons (seen : List Row) (isLong : Bool) (hnew : incarnation ∉ visited) :
    (quantities (ofSelected isLong (incarnation :: visited)) seen).Perm
      (quantities (ofSelected isLong visited) seen
        ++ quantities (fun row => ofOrigin incarnation row && row.isLong == isLong) seen) := by
  have hor : quantities (ofSelected isLong (incarnation :: visited)) seen
      = quantities (fun row => ofSelected isLong visited row
        || (ofOrigin incarnation row && row.isLong == isLong)) seen := by
    refine quantities_congr fun row _ => ?_
    unfold ofSelected ofOrigin
    rw [List.contains_cons]
    cases row.isLong == isLong with
    | true =>
      rw [Bool.true_and, Bool.true_and, Bool.and_true, Bool.or_comm]
      rfl
    | false => rw [Bool.false_and, Bool.false_and, Bool.and_false, Bool.or_false]
  rw [hor]
  refine quantities_or fun row _ hpicks => ?_
  unfold ofSelected at hpicks
  rw [Bool.and_eq_true, List.contains_iff_mem] at hpicks
  have hother : ofOrigin incarnation row = false :=
    decide_eq_false fun heq => hnew (heq ▸ hpicks.2)
  rw [hother, Bool.false_and]

theorem selected_cons_of_mem (hold : incarnation ∈ visited) :
    quantities (ofSelected isLong (incarnation :: visited)) seen
      = quantities (ofSelected isLong visited) seen := by
  refine quantities_congr fun row _ => ?_
  unfold ofSelected
  congr 1
  rw [Bool.eq_iff_iff, List.contains_iff_mem, List.contains_iff_mem, List.mem_cons]
  constructor
  · rintro (heq | hmem)
    · exact heq ▸ hold
    · exact hmem
  · exact .inr

/-- A visit adds an origin once. -/
theorem Visited.visit (h : Visited s seen isLong total visited) (incarnation : ℕ) :
    Visited (s.visit isLong total incarnation).1 seen isLong (s.visit isLong total incarnation).2
      (incarnation :: visited) := by
  unfold Summary.visit
  cases ho : s.origins incarnation with
  | none =>
    dsimp only
    refine ⟨h.facts, ?_, ?_⟩
    · intro i o hi
      rw [h.marks hi, List.mem_cons]
      constructor
      · exact .inr
      · rintro (rfl | hmem)
        · rw [ho] at hi
          cases hi
        · exact hmem
    · split
      · intro hvalid
        cases hvalid
      · rename_i hfresh
        -- No row of an origin above the high mark was seen.
        have hnone : quantities (ofSelected isLong (incarnation :: visited)) seen
            = quantities (ofSelected isLong visited) seen := by
          refine quantities_congr fun row hrow => ?_
          unfold ofSelected
          congr 1
          rw [Bool.eq_iff_iff, List.contains_iff_mem, List.contains_iff_mem, List.mem_cons]
          constructor
          · rintro (heq | hmem)
            · exact absurd (h.facts.high row hrow) (heq ▸ hfresh)
            · exact hmem
          · exact .inr
        rw [hnone]
        exact h.total
  | some origin =>
    dsimp only
    split
    · rename_i hmarked
      have hold := (h.marks ho).mp hmarked
      refine ⟨h.facts, ?_, ?_⟩
      · intro i o hi
        rw [h.marks hi, List.mem_cons]
        constructor
        · exact .inr
        · rintro (rfl | hmem)
          · exact hold
          · exact hmem
      · rw [selected_cons_of_mem hold]
        exact h.total
    · rename_i hmarked
      have hnew : incarnation ∉ visited := fun hmem => hmarked ((h.marks ho).mpr hmem)
      refine ⟨h.facts.mark ho, ?_, ?_⟩
      · intro i o hi
        dsimp only at hi ⊢
        by_cases hsame : i = incarnation
        · rw [hsame, Function.update_self] at hi
          cases hi
          exact iff_of_true rfl (hsame ▸ List.mem_cons_self)
        · rw [Function.update_of_ne hsame] at hi
          rw [h.marks hi, List.mem_cons]
          exact ⟨.inr, fun hor => hor.resolve_left hsame⟩
      · split
        · intro hvalid
          cases hvalid
        · rename_i hcompleted
          rw [Bool.not_eq_false] at hcompleted
          have hcertifies := h.facts.origins ho hcompleted
          have hsides := h.facts.sides ho hcompleted
          split
          · rename_i hside
            intro hvalid
            obtain ⟨htotal, -⟩ := PositionTailExact.merge_valid hvalid
            refine ((h.total htotal).merge hcertifies htotal hcompleted hvalid).perm ?_
            refine List.Perm.symm ((quantities_selected_cons seen isLong hnew).trans ?_)
            refine List.Perm.append_left _ (List.Perm.of_eq (quantities_congr fun row hrow => ?_))
            cases hpicks : ofOrigin incarnation row with
            | true =>
              rw [Bool.true_and, beq_iff_eq, hsides row hrow (of_decide_eq_true hpicks), hside]
            | false => rfl
          · rename_i hside
            have hnone : quantities (fun row => ofOrigin incarnation row && row.isLong == isLong)
                seen = [] := by
              refine quantities_eq_nil fun row hrow => ?_
              cases hpicks : ofOrigin incarnation row with
              | true =>
                rw [Bool.true_and, hsides row hrow (of_decide_eq_true hpicks)]
                exact beq_eq_false_iff_ne.mpr hside
              | false => rfl
            have hperm := quantities_selected_cons seen isLong hnew
            rw [hnone, List.append_nil] at hperm
            exact h.total.perm hperm.symm

theorem Visited.visitAll (h : Visited s seen isLong total visited) (select : List ℕ) :
    Visited (s.visitAll isLong total select).1 seen isLong (s.visitAll isLong total select).2
      (select.reverse ++ visited) := by
  induction select generalizing s total visited with
  | nil => exact h
  | cons incarnation rest ih =>
    have hrest := ih (h.visit incarnation)
    rw [List.reverse_cons, List.append_assoc, List.singleton_append]
    exact hrest

/-- A new generation has visited nothing. -/
theorem nextGeneration_visited (isLong : Bool) (hmarked : Marked s) (hfacts : Facts s seen) :
    Visited s.nextGeneration seen isLong .new [] := by
  have hempty : quantities (ofSelected isLong []) seen = [] := by
    refine quantities_eq_nil fun row _ => ?_
    unfold ofSelected
    rw [List.contains_nil, Bool.and_false]
  have htotal : PositionTailExact.new.Sound (quantities (ofSelected isLong []) seen) := by
    rw [hempty]
    exact PositionTailExact.new_sound
  unfold Summary.nextGeneration
  split
  · have hsplit : ∀ {i o}, (s.origins i).map ({ · with visited := 0 }) = some o →
        ∃ o', s.origins i = some o' ∧ o'.completed = o.completed ∧ o'.isLong = o.isLong ∧
          o.visited = 0 := by
      intro i o hi
      obtain ⟨o', ho', rfl⟩ := Option.map_eq_some_iff.mp hi
      exact ⟨o', ho', rfl, rfl, rfl⟩
    refine ⟨⟨hfacts.high, ?_, ?_, hfacts.all, hfacts.named, hfacts.unnamed⟩, ?_, htotal⟩
    · intro i o hi hvalid row hrow hinc
      obtain ⟨o', ho', hcompleted, hside, -⟩ := hsplit hi
      rw [← hside]
      exact hfacts.sides ho' (hcompleted ▸ hvalid) row hrow hinc
    · intro i o hi
      obtain ⟨o', ho', hcompleted, -, -⟩ := hsplit hi
      rw [← hcompleted]
      exact hfacts.origins ho'
    · intro i o hi
      obtain ⟨-, -, -, -, hzero⟩ := hsplit hi
      rw [hzero]
      exact iff_of_false (by norm_num) List.not_mem_nil
  · refine ⟨hfacts.congr rfl rfl rfl rfl, ?_, htotal⟩
    intro i o hi
    have hle := hmarked.le hi
    refine iff_of_false ?_ List.not_mem_nil
    change ¬o.visited = s.queryGeneration + 1
    omega

theorem Marked.nextGeneration (h : Marked s) : Marked s.nextGeneration := by
  have hlt := h.lt
  unfold Summary.nextGeneration
  split
  · refine ⟨?_, by norm_num⟩
    intro i o hi
    obtain ⟨o', -, rfl⟩ := Option.map_eq_some_iff.mp hi
    exact Nat.zero_le _
  · refine ⟨?_, ?_⟩
    · intro i o hi
      exact Nat.le_succ_of_le (h.le hi)
    · change s.queryGeneration + 1 < 2 ^ 32
      omega

theorem Marked.visitAll (h : Marked s) (select : List ℕ) :
    Marked (s.visitAll isLong total select).1 := by
  induction select generalizing s total with
  | nil => exact h
  | cons incarnation rest ih =>
    refine ih ?_
    unfold Summary.visit
    split
    · exact h
    · split
      · exact h
      · refine h.update rfl rfl ?_
        intro o ho
        cases ho
        exact le_rfl

theorem visitAll_origins (s : Summary) (isLong : Bool) (total : PositionTailExact)
    (select : List ℕ) :
    ∃ origins, (s.visitAll isLong total select).1 = { s with origins := origins } := by
  induction select generalizing s total with
  | nil => exact ⟨s.origins, rfl⟩
  | cons incarnation rest ih =>
    have hvisit : ∃ origins, (s.visit isLong total incarnation).1
        = { s with origins := origins } := by
      unfold Summary.visit
      split
      · exact ⟨s.origins, rfl⟩
      · split
        · exact ⟨s.origins, rfl⟩
        · exact ⟨_, rfl⟩
    obtain ⟨origins, hvisit⟩ := hvisit
    obtain ⟨origins', hrest⟩ :=
      ih (s.visit isLong total incarnation).1 (s.visit isLong total incarnation).2
    refine ⟨origins', ?_⟩
    unfold Summary.visitAll
    dsimp only
    rw [hrest, hvisit]

end

/-! ## Runs -/

namespace State

/-- The rows, newest first, that a replay of the observed rows reaches. -/
def reach (st : State) : List Row :=
  (((st.rows.take st.summary.observedEnd).drop st.base).reverse.map Trade.row
    ++ st.spill.reverse).takeWhile (since st.positionOpen)

/-- While a summary is in use it knows the rows that a replay reaches. -/
structure Inv (st : State) : Prop where
  marked : Marked st.summary
  observed : st.summary.observedEnd ≤ st.rows.length
  base : st.base ≤ st.rows.length
  barrier : st.summary.active = true → st.summary.safe = true → st.summary.barrier = st.positionOpen
  facts : st.summary.active = true → st.summary.safe = true → st.positionOpen ≠ minTime →
    st.base ≤ st.summary.observedEnd → Facts st.summary st.reach

variable {st : State}

theorem new_inv : new.Inv := by
  refine ⟨⟨?_, by norm_num [new, Summary.new]⟩, le_rfl, le_rfl, ?_, ?_⟩
  · intro incarnation origin ho
    cases ho
  · intro hactive
    cases hactive
  · intro hactive
    cases hactive

theorem Inv.outOfUse {t : Summary} (h : st.Inv) (hmarked : Marked t) (hsafe : t.safe = false)
    (hend : t.observedEnd ≤ st.rows.length) : ({ st with summary := t } : State).Inv where
  marked := hmarked
  observed := hend
  base := h.base
  barrier _ hsafe' := by
    rw [hsafe] at hsafe'
    cases hsafe'
  facts _ hsafe' := by
    rw [hsafe] at hsafe'
    cases hsafe'

theorem Inv.origins {t : Summary} (h : st.Inv) (hmarked : Marked t)
    (hrest : ∃ origins live generation, t = { st.summary with
      origins := origins, liveCohorts := live, queryGeneration := generation })
    (hfacts : ∀ seen, Facts st.summary seen → Facts t seen) :
      ({ st with summary := t } : State).Inv := by
  obtain ⟨origins, live, generation, rfl⟩ := hrest
  refine ⟨hmarked, h.observed, h.base, h.barrier, ?_⟩
  intro hactive hsafe hopen hbase
  exact hfacts _ (h.facts hactive hsafe hopen hbase)

/-- Observing keeps the invariant. -/
theorem Inv.observe (h : st.Inv) : st.observe.Inv := by
  unfold State.observe
  unfold Summary.observe
  split
  · exact h
  · rename_i huse
    rw [not_or, Bool.not_eq_false, Bool.not_eq_false] at huse
    split
    · exact h.outOfUse (h.marked.none rfl rfl) rfl h.observed
    · rename_i hrange
      rw [not_or, not_lt, not_lt] at hrange
      obtain ⟨hsame, hmarked, hle, hloop⟩ := @observeLoop_spec _
        (st.rows.drop st.summary.observedEnd) h.marked
      rw [List.length_drop, Nat.add_sub_cancel' hrange.1] at hle hloop
      have hbarrier := h.barrier huse.1 huse.2
      refine ⟨hmarked, hle, h.base, ?_, ?_⟩
      · intro _ _
        exact hsame.barrier.trans hbarrier
      · intro hactive hsafe hopen hbase
        obtain ⟨hend, hall, hfinal⟩ := hloop hsafe
        have hfacts := hfinal _ (h.facts huse.1 huse.2 hopen hrange.2)
        rw [hbarrier] at hall
        have hreach : reach
            { st with summary := st.summary.observeLoop (st.rows.drop st.summary.observedEnd) }
            = ((st.rows.drop st.summary.observedEnd).map Trade.row).reverse ++ st.reach := by
          unfold reach
          dsimp only
          rw [hend, List.take_length]
          have hsplit : st.rows.drop st.base = (st.rows.take st.summary.observedEnd).drop st.base
              ++ st.rows.drop st.summary.observedEnd := by
            conv_lhs => rw [← List.take_append_drop st.summary.observedEnd st.rows]
            rw [List.drop_append_of_le_length (by rw [List.length_take]; omega)]
          rw [hsplit, List.reverse_append, List.map_append, List.append_assoc, List.map_reverse,
            List.takeWhile_append_of_pos]
          intro row hrow
          obtain ⟨trade, htrade, rfl⟩ := List.mem_map.mp (List.mem_reverse.mp hrow)
          exact hall trade htrade
        rw [hreach]
        exact hfacts

/-- A new position keeps the invariant. -/
theorem Inv.beginPosition (h : st.Inv) (barrier : ℤ) : (st.beginPosition barrier).Inv := by
  unfold State.beginPosition Summary.beginPosition
  dsimp only
  generalize hs : ({ st.summary.forgetOrigins with
    margins := fun _ => none
    allMargins := fun _ => .new
    highClosedOrigin := 0
    barrier := barrier
    observedEnd := st.rows.length
    active := true
    safe := true
    haveTime := false } : Summary) = s
  have hmarked : Marked s := by
    rw [← hs]
    exact h.marked.none rfl rfl
  have hfacts : Facts s [] := by
    rw [← hs]
    exact Facts.nil rfl rfl rfl
  have hbarrier : s.barrier = barrier := by rw [← hs]
  have hobserved : s.observedEnd = st.rows.length := by rw [← hs]
  obtain ⟨hsame, hmarked', hend, hloop⟩ := @beginLoop_spec _ 0 (st.rows.drop st.base).reverse _
    hmarked hfacts
  refine ⟨hmarked', ?_, h.base, ?_, ?_⟩
  · exact (hend.trans hobserved).le
  · intro _ _
    exact hsame.barrier.trans hbarrier
  · intro _ hsafe _ _
    have hfinal := hloop hsafe
    rw [List.nil_append, hbarrier] at hfinal
    unfold reach
    dsimp only
    rw [hend, hobserved, List.take_length, List.reverse_nil, List.append_nil]
    exact hfinal

/-- Spilling keeps the invariant. -/
theorem Inv.preserve (h : st.Inv) (globalEnd : ℕ) : (st.preserve globalEnd).Inv := by
  unfold State.preserve
  split
  · exact h
  · rename_i hrange
    rw [not_or, not_lt, not_lt] at hrange
    refine ⟨h.marked, h.observed, hrange.2, h.barrier, ?_⟩
    intro hactive hsafe hopen hbase
    dsimp only at hopen hbase
    have hfacts := h.facts hactive hsafe hopen (hrange.1.trans hbase)
    have hreach : reach { st with
          base := globalEnd
          spill := if st.positionOpen = minTime then []
            else preserveLoop st.positionOpen ((st.rows.take globalEnd).drop st.base) st.spill }
        = st.reach := by
      unfold reach
      dsimp only
      rw [if_neg hopen, takeWhile_preserveLoop]
      have hsplit : (st.rows.take st.summary.observedEnd).drop st.base
          = (st.rows.take globalEnd).drop st.base ++ (st.rows.take st.summary.observedEnd).drop
            globalEnd := by
        have hlength : globalEnd ≤ (st.rows.take st.summary.observedEnd).length := by
          rw [List.length_take]
          exact le_min hbase hrange.2
        conv_lhs => rw [← List.take_append_drop globalEnd (st.rows.take st.summary.observedEnd)]
        rw [List.drop_append_of_le_length (by rw [List.length_take]; omega), List.take_take,
          min_eq_left hbase]
      rw [hsplit, List.reverse_append, List.map_append, List.append_assoc, List.map_reverse,
        List.map_reverse]
    rw [hreach]
    exact hfacts.congr rfl rfl rfl rfl

theorem Inv.append (h : st.Inv) (trade : Trade) :
    ({ st with rows := st.rows ++ [trade] } : State).Inv := by
  have hlength : (st.rows ++ [trade]).length = st.rows.length + 1 := List.length_append
  refine ⟨h.marked, ?_, ?_, h.barrier, ?_⟩
  · exact h.observed.trans (by rw [hlength]; omega)
  · exact h.base.trans (by rw [hlength]; omega)
  · intro hactive hsafe hopen hbase
    have hreach : reach { st with rows := st.rows ++ [trade] } = st.reach := by
      unfold reach
      dsimp only
      rw [List.take_append_of_le_length h.observed]
    rw [hreach]
    exact h.facts hactive hsafe hopen hbase

theorem Facts.update_origin {s : Summary} {seen : List Row} {incarnation : ℕ}
    {origin : Option Origin}
    (h : Facts s seen)
    (horigin : ∀ o, origin = some o → o.completed.Sound (quantities (ofOrigin incarnation) seen) ∧
      (o.completed.valid = true → ∀ row ∈ seen, row.entryIncarnation = incarnation → row.isLong
        = o.isLong)) :
    Facts { s with origins := Function.update s.origins incarnation origin } seen := by
  refine ⟨h.high, ?_, ?_, h.all, h.named, h.unnamed⟩
  · intro i o hi hvalid row hrow hinc
    dsimp only at hi
    by_cases hsame : i = incarnation
    · rw [hsame, Function.update_self] at hi
      exact (horigin o hi).2 hvalid row hrow (hinc.trans hsame)
    · rw [Function.update_of_ne hsame] at hi
      exact h.sides hi hvalid row hrow hinc
  · intro i o hi
    dsimp only at hi
    by_cases hsame : i = incarnation
    · subst hsame
      rw [Function.update_self] at hi
      exact (horigin o hi).1
    · rw [Function.update_of_ne hsame] at hi
      exact h.origins hi

/-- A new origin keeps the invariant. -/
theorem Inv.openOrigin (h : st.Inv) (incarnation : ℕ) (isLong : Bool) :
    ({ st with summary := st.summary.openOrigin incarnation isLong } : State).Inv := by
  unfold Summary.openOrigin
  split
  · exact h
  · split
    · rename_i hnone
      refine h.origins (h.marked.update rfl rfl ?_) ⟨_, _, _, rfl⟩ ?_
      · intro o ho
        cases ho
        exact Nat.zero_le _
      · intro seen hfacts
        refine Facts.update_origin hfacts ?_
        intro o ho
        cases ho
        -- An origin above the high mark has no row yet; another starts without a certificate.
        have hnew : decide (st.summary.highClosedOrigin < incarnation) = true →
            ∀ row ∈ seen, row.entryIncarnation ≠ incarnation := by
          intro hhigh row hrow heq
          have hle := hfacts.high row hrow
          rw [heq] at hle
          exact absurd (of_decide_eq_true hhigh) (not_lt.mpr hle)
        refine ⟨?_, ?_⟩
        · intro hvalid
          have hnil : quantities (ofOrigin incarnation) seen = [] :=
            quantities_eq_nil fun row hrow => decide_eq_false (hnew hvalid row hrow)
          rw [hnil]
          have hsound := PositionTailExact.new_sound rfl
          exact ⟨hsound.bound, hsound.least, hsound.unsigned, hsound.whole, hsound.total⟩
        · intro hvalid row hrow hinc
          exact absurd hinc (hnew hvalid row hrow)
    · rename_i row hrow
      split
      · exact h
      · refine h.origins (h.marked.update rfl rfl ?_) ⟨_, _, _, rfl⟩ ?_
        · intro o ho
          cases ho
          change row.visited ≤ st.summary.queryGeneration
          exact h.marked.le hrow
        · intro seen hfacts
          refine Facts.update_origin hfacts ?_
          intro o ho
          cases ho
          refine ⟨?_, ?_⟩
          · intro hvalid
            cases hvalid
          · intro hvalid
            cases hvalid

theorem Inv.ancestry (h : st.Inv) (isLong : Bool) (select : List ℕ) :
    ({ st with summary := (st.summary.ancestry isLong select).1 } : State).Inv := by
  unfold Summary.ancestry
  split
  · exact h
  · rename_i huse
    rw [not_or, Bool.not_eq_false, Bool.not_eq_false] at huse
    dsimp only
    obtain ⟨origins, hvisit⟩ := visitAll_origins st.summary.nextGeneration isLong .new select
    have hnext : ∃ origins' generation, st.summary.nextGeneration
        = { st.summary with origins := origins', queryGeneration := generation } := by
      unfold Summary.nextGeneration
      split
      · exact ⟨_, _, rfl⟩
      · exact ⟨_, _, rfl⟩
    obtain ⟨origins', generation, hnext⟩ := hnext
    refine h.origins ?_ ⟨origins, st.summary.liveCohorts, generation, ?_⟩ ?_
    · exact h.marked.nextGeneration.visitAll select
    · rw [hvisit, hnext]
    · intro seen hfacts
      exact ((nextGeneration_visited isLong h.marked hfacts).visitAll select).facts

/-- Every call keeps the invariant. -/
theorem Inv.step (h : st.Inv) (op : Op) : (st.step op).Inv := by
  cases op with
  | append trade => exact h.append trade
  | beginPosition barrier => exact h.beginPosition barrier
  | observe => exact h.observe
  | openOrigin incarnation isLong => exact h.openOrigin incarnation isLong
  | retireOrigin incarnation =>
    refine h.origins (h.marked.update rfl rfl ?_) ⟨_, _, _, rfl⟩ ?_
    · intro o ho
      cases ho
    · intro seen hfacts
      refine Facts.update_origin hfacts ?_
      intro o ho
      cases ho
  | liveCohort row nonempty =>
    have hrest : ∃ live, st.summary.liveCohort row nonempty
        = { st.summary with liveCohorts := live } := by
      unfold Summary.liveCohort
      split
      · split
        · exact ⟨_, rfl⟩
        · exact ⟨st.summary.liveCohorts, rfl⟩
      · exact ⟨_, rfl⟩
    obtain ⟨live, hrest⟩ := hrest
    change ({ st with summary := st.summary.liveCohort row nonempty } : State).Inv
    rw [hrest]
    refine h.origins ⟨h.marked.le, h.marked.lt⟩ ⟨_, _, _, rfl⟩ ?_
    intro seen hfacts
    exact hfacts.congr rfl rfl rfl rfl
  | preserve globalEnd => exact h.preserve globalEnd
  | invalidate => exact h.outOfUse (h.marked.none rfl rfl) rfl h.observed
  | forgetOrigins =>
    refine h.origins (h.marked.none rfl rfl) ⟨_, _, _, rfl⟩ ?_
    intro seen hfacts
    refine ⟨hfacts.high, ?_, ?_, hfacts.all, hfacts.named, hfacts.unnamed⟩
    · intro i o hi
      cases hi
    · intro i o hi
      cases hi
  | flat =>
    have hflat := h.outOfUse (t := st.summary.invalidate) (h.marked.none rfl rfl) rfl h.observed
    refine ⟨hflat.marked, hflat.observed, hflat.base, ?_, ?_⟩
    · intro _ hsafe
      cases hsafe
    · intro _ hsafe
      cases hsafe
  | ancestry isLong select => exact h.ancestry isLong select

theorem run_inv (ops : List Op) : (new.run ops).Inv := by
  induction ops using List.reverseRecOn with
  | nil => exact new_inv
  | append_singleton ops op ih =>
    unfold run
    rw [List.foldl_append]
    exact ih.step op

/-! ## Answers -/

theorem Inv.replay (h : st.Inv) (hactive : st.summary.active = true)
    (hsafe : st.summary.safe = true)
    (hobserved : st.summary.observedEnd = st.rows.length) (hopen : st.positionOpen ≠ minTime)
    (includes : Row → Bool) :
    Facts st.summary st.reach ∧ st.replay includes
      = (quantities includes st.reach).foldl (· + ·) 0.0 := by
  refine ⟨h.facts hactive hsafe hopen (hobserved ▸ h.base), ?_⟩
  unfold State.replay replayPositionTail
  rw [walk_eq]
  unfold reach
  rw [hobserved, List.take_length]

theorem observe_all (hactive : st.observe.summary.active = true)
    (hsafe : st.observe.summary.safe = true)
    (h : st.Inv) : st.observe.summary.observedEnd = st.observe.rows.length := by
  change (st.summary.observe st.base st.rows).observedEnd = st.rows.length
  change (st.summary.observe st.base st.rows).safe = true at hsafe
  change (st.summary.observe st.base st.rows).active = true at hactive
  unfold Summary.observe at hsafe hactive ⊢
  split
  · rename_i hidle
    rw [if_pos hidle] at hsafe hactive
    rw [hsafe, hactive] at hidle
    obtain hidle | hidle := hidle <;> cases hidle
  · rename_i huse
    rw [if_neg huse] at hsafe
    split
    · rename_i hgap
      rw [if_pos hgap] at hsafe
      cases hsafe
    · rename_i hrange
      rw [if_neg hrange] at hsafe
      rw [not_or, not_lt] at hrange
      obtain ⟨-, -, -, hloop⟩ := @observeLoop_spec _ (st.rows.drop st.summary.observedEnd) h.marked
      rw [(hloop hsafe).1, List.length_drop, Nat.add_sub_cancel' hrange.1]

theorem ancestry_eq (h : st.Inv) {isLong : Bool} {select : List ℕ} {result : Float}
    (hanswer : st.ancestry isLong select = some result) :
    result = st.replay (ofSelected isLong select) := by
  unfold State.ancestry at hanswer
  split at hanswer
  · cases hanswer
  · rename_i hopen
    unfold Summary.ancestry at hanswer
    split at hanswer
    · cases hanswer
    · rename_i huse
      rw [not_or, Bool.not_eq_false, Bool.not_eq_false] at huse
      obtain ⟨hfacts, hreplay⟩ := h.observe.replay huse.2 huse.1 (observe_all huse.2 huse.1 h) hopen
        (ofSelected isLong select)
      have hvisited := (nextGeneration_visited isLong h.observe.marked hfacts).visitAll select
      have hread := PositionTailExact.read_eq_fold hvisited.total hanswer (List.Perm.refl _)
      have hselect : quantities (ofSelected isLong (select.reverse ++ [])) st.observe.reach
          = quantities (ofSelected isLong select) st.observe.reach := by
        refine quantities_congr fun row _ => ?_
        unfold ofSelected
        rw [List.append_nil, Bool.eq_iff_iff, Bool.and_eq_true, Bool.and_eq_true,
          List.contains_iff_mem,
          List.contains_iff_mem, List.mem_reverse]
      rw [hread, hselect]
      exact hreplay.symm

/-- A margin answer is the replay. -/
theorem margin_eq (h : st.Inv) {isLong : Bool} {entry : Option String} {result : Float}
    (hanswer : st.margin isLong entry = some result) :
    result = st.replay (ofMargin isLong entry) := by
  unfold State.margin at hanswer
  split at hanswer
  · cases hanswer
  · rename_i hopen
    cases entry with
    | none =>
      change (if _ then _ else _) = _ at hanswer
      split at hanswer
      · cases hanswer
      · rename_i huse
        rw [not_or, Bool.not_eq_false, Bool.not_eq_false] at huse
        obtain ⟨hfacts, hreplay⟩ :=
          h.observe.replay huse.2 huse.1 (observe_all huse.2 huse.1 h) hopen
          (ofMargin isLong none)
        rw [PositionTailExact.read_eq_fold (hfacts.all isLong) hanswer (List.Perm.refl _)]
        exact hreplay.symm
    | some name =>
      change (if _ then _ else _) = _ at hanswer
      split at hanswer
      · cases hanswer
      · rename_i huse
        rw [not_or, Bool.not_eq_false, Bool.not_eq_false] at huse
        obtain ⟨hfacts, hreplay⟩ :=
          h.observe.replay huse.2 huse.1 (observe_all huse.2 huse.1 h) hopen
          (ofMargin isLong (some name))
        change _ = State.replay st.observe _
        rw [hreplay]
        cases hmargins : st.observe.summary.margins name with
        | none =>
          rw [hmargins] at hanswer
          cases hanswer
          have hnil : quantities (ofEntry name isLong) st.observe.reach = [] := by
            refine quantities_eq_nil fun row hrow => ?_
            refine Bool.eq_false_iff.mpr ?_
            intro hpicks
            unfold ofEntry at hpicks
            rw [Bool.and_eq_true, Bool.and_eq_true] at hpicks
            exact hfacts.unnamed hmargins row hrow hpicks.1.1 (beq_iff_eq.mp hpicks.2)
          change _ = (quantities (ofEntry name isLong) _).foldl _ _
          rw [hnil]
          rfl
        | some margins =>
          rw [hmargins] at hanswer
          exact PositionTailExact.read_eq_fold (hfacts.named hmargins isLong) hanswer
            (List.Perm.refl _)

theorem sound_foldl {c : PositionTailExact} {before terms : List Float} (h : c.Sound before) :
    (terms.foldl PositionTailExact.add c).Sound (before ++ terms) := by
  induction terms generalizing c before with
  | nil =>
    rw [List.append_nil]
    exact h
  | cons x terms ih =>
    have hrest := ih (h.add x)
    rw [List.append_assoc, List.singleton_append] at hrest
    exact hrest

/-- After every run a sum that is certified is, bit for bit, the one that is replayed. Whenever a
certificate is valid and the total of its terms is in range, all sums of some of them are exact. -/
theorem certified_eq_replay (ops : List Op) :
    (∀ isLong select result, (new.run ops).ancestry isLong select = some result →
      result = (new.run ops).replay (ofSelected isLong select)) ∧
    (∀ isLong entry result, (new.run ops).margin isLong entry = some result →
      result = (new.run ops).replay (ofMargin isLong entry)) ∧
    ∀ terms : List Float, (terms.foldl PositionTailExact.add .new).valid = true →
      (terms.map value).sum < 2 ^ 1024 → ∀ chosen : List Float, chosen.Subperm terms →
      Denotes (chosen.foldl (· + ·) 0.0) (chosen.map value).sum := by
  have hinv := run_inv ops
  refine ⟨?_, ?_, ?_⟩
  · intro isLong select result hanswer
    exact ancestry_eq hinv hanswer
  · intro isLong entry result hanswer
    exact margin_eq hinv hanswer
  · intro terms hvalid hrange chosen hsub
    have hcertifies := @sound_foldl _ _ terms PositionTailExact.new_sound hvalid
    rw [List.nil_append] at hcertifies
    rw [hcertifies.total] at hrange
    exact (hcertifies.fold hrange hsub).1

/-- A position of two origins, of which margin calls close three slices. The first row is spilled in
between. -/
def threeSlices : List Op :=
  [.beginPosition 0, .openOrigin 1 true, .append ⟨1, 1.0, 1, true, "L", marginCallLabel⟩, .observe,
    .openOrigin 2 true, .append ⟨2, 0.5, 2, true, "L", marginCallLabel⟩, .observe, .preserve 1,
    .append ⟨3, 2.0, 1, true, "M", marginCallLabel⟩]

theorem certified_eq_replay_threeSlices :
    ((new.run threeSlices).ancestry true [1] = some 3.0 ∧
      (new.run threeSlices).margin true none = some 3.5 ∧
        (new.run threeSlices).spill ≠ []) ∧
      3.0 = (new.run threeSlices).replay (ofSelected true [1]) ∧
      3.5 = (new.run threeSlices).replay (ofMargin true none) := by
  have hselected : (new.run threeSlices).ancestry true [1] = some 3.0 := by decide +kernel
  have hall : (new.run threeSlices).margin true none = some 3.5 := by decide +kernel
  have hspilled : (new.run threeSlices).spill.length = 1 := by decide +kernel
  refine ⟨⟨hselected, hall, fun hnil => ?_⟩, ?_, ?_⟩
  · rw [hnil] at hspilled
    cases hspilled
  · exact (certified_eq_replay threeSlices).1 true [1] 3.0 hselected
  · exact (certified_eq_replay threeSlices).2.1 true none 3.5 hall

/-- A certificate stays valid over two terms whose sum is out of range. -/
theorem valid_not_exact :
    ([ldexp 1.0 1023, ldexp 1.0 1023].foldl PositionTailExact.add .new).valid = true ∧
      ¬Denotes ([ldexp 1.0 1023, ldexp 1.0 1023].foldl (· + ·) 0.0)
        ([ldexp 1.0 1023, ldexp 1.0 1023].map value).sum := by
  refine ⟨by decide +kernel, ?_⟩
  intro hdenotes
  have hinfinite : ([ldexp 1.0 1023, ldexp 1.0 1023].foldl (· + ·) (0.0 : Float)).isFinite
      = false := by
    decide +kernel
  rw [hdenotes.isFinite] at hinfinite
  cases hinfinite

end State

end PineForge.PositionTail
