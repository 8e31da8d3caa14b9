import PineForge.Machine.Binary64
import PineForge.Machine.Endian
import PineForge.Machine.FloatOrder
import PineForge.Orders.Rows

/-!
# Levels of dormant rows

A dormant row waits at a level that the price path has not reached. Its key in the level index is
the list it stands in (its class and the direction it is reached from), its level, so folded that
the levels reached first come first, and its priority. `reachable` is what wakes a row, and along
the keys of one list it can only turn from true to false.
-/

namespace PineForge.Book

open Orders BigEndian FloatOrder

/-- `cls`: a limit, or a stop or a leg of a stop limit. -/
inductive RowClass
  | limit
  | other
deriving DecidableEq, Repr

/-- The two classes. -/
def RowClass.all : List RowClass := [.limit, .other]

/-- What a dormant row waits for. -/
structure DormantSpec where
  level : Float
  initial : Float
  cls : RowClass
  ge : Bool

/-- The units an evaluation gives a row for a point. -/
def allowanceInitial : Allowance Float → Option Float
  | .units _ initial _ => some initial
  | _ => none

/-- The class, level and direction of a trigger in a state in which it can sleep. -/
def dormantLevel (trigger : Trigger Float) (state : TriggerState) (buy : Bool) :
    Option (RowClass × Float × Bool) :=
  match trigger, state with
  | .limit price, .limitReady => some (.limit, price, buy)
  | .stop price, .stopIdle => some (.other, price, !buy)
  | .stopLimit stop _, .stopLimitPending => some (.other, stop, !buy)
  | .stopLimit _ limit, .stopLimitLive => some (.other, limit, buy)
  | _, _ => none

/-- An order to open or reverse, on its own and with nothing pending. -/
def dormantShape (row : LiveRequest Float) : Bool :=
  let authority := match row.authority with
    | .bookTransaction => true
    | _ => false
  let anchor := match row.request.anchor with
    | .absolute => true
    | _ => false
  let pending := match row.pending with
    | .none => true
    | _ => false
  let intent := match row.request.intent with
    | .transact _ => true
    | .reverseTo _ => true
    | .hostSized .open_ (some _) => true
    | _ => false
  let remaining := match row.remaining with
    | .units q => q.isFinite && 0.0 < q
    | _ => false
  authority && row.request.owner = .independent && row.request.group
    = .noGroup && anchor && pending &&
    intent && remaining && (allowanceInitial row.allowance).isSome

/-- The level at which a row wakes, if it can sleep. -/
def dormantClass (row : LiveRequest Float) : Option DormantSpec :=
  if dormantShape row then
    match dormantLevel row.request.trigger row.triggerState (workingIsBuy row none) with
    | some (cls, level, ge) =>
      if level.isFinite then
        (allowanceInitial (evaluatedAllowance row 0)).map fun initial => ⟨level, initial, cls, ge⟩
      else none
    | none => none
  else none

/-! ## What a class says of its row -/

/-- A row that can sleep has units left. -/
theorem dormantClass_spec {row : LiveRequest Float} {spec : DormantSpec}
    (h : dormantClass row = some spec) :
    ∃ q, row.remaining = .units q ∧ 0.0 < q ∧
      evaluatedAllowance row 0 = .units 0 spec.initial spec.initial := by
  unfold dormantClass at h
  split at h
  · rename_i hshape
    have hremaining : ∃ q, row.remaining = .units q ∧ 0.0 < q := by
      unfold dormantShape at hshape
      simp only [Bool.and_eq_true] at hshape
      have hunits := hshape.1.2
      split at hunits
      · rename_i q hq
        rw [Bool.and_eq_true] at hunits
        exact ⟨q, hq, of_decide_eq_true hunits.2⟩
      · exact absurd hunits Bool.false_ne_true
    obtain ⟨q, hq, hpos⟩ := hremaining
    refine ⟨q, hq, hpos, ?_⟩
    split at h
    · split at h
      · obtain ⟨initial, hinitial, rfl⟩ := Option.map_eq_some_iff.mp h
        unfold evaluatedAllowance initializeAllowance at hinitial ⊢
        rw [hq] at hinitial ⊢
        dsimp only at hinitial ⊢
        split at hinitial
        · rw [← Option.some.inj hinitial]
        · rw [← Option.some.inj hinitial]
      · cases h
    · cases h
  · cases h

theorem dormantClass_level {row : LiveRequest Float} {spec : DormantSpec}
    (h : dormantClass row = some spec) : spec.level.isFinite = true := by
  unfold dormantClass at h
  split at h
  · split at h
    · split at h
      · rename_i hfinite
        obtain ⟨initial, -, rfl⟩ := Option.map_eq_some_iff.mp h
        exact hfinite
      · cases h
    · cases h
  · cases h

theorem dormantClass_allowance {row : LiveRequest Float} {spec : DormantSpec}
    (h : dormantClass row = some spec) {allowance : Allowance Float}
    (hallowance : (allowanceInitial allowance).isSome = true) :
    dormantClass { row with allowance } = some spec := by
  unfold dormantClass at h
  split at h
  · rename_i hshape
    have hshape' : dormantShape { row with allowance } = true := by
      unfold dormantShape at hshape ⊢
      rw [Bool.and_eq_true] at hshape ⊢
      exact ⟨hshape.1, hallowance⟩
    unfold dormantClass
    rw [if_pos hshape']
    exact h
  · cases h

/-- Whether a point's driver may match rows of a class, asked of a representative. -/
def classPermitted (context : EvaluationContext) (cls : RowClass) : Bool :=
  let permitted := match cls with
    | .limit => triggerPermitsDriver (.limit (0.0 : Float)) .limitReady context.driverClass
        context.existingMatchingBit
    | .other => triggerPermitsDriver (.stop (0.0 : Float)) .stopIdle context.driverClass
        context.existingMatchingBit
  permitted && context.cursor.point.provenance ≠ .currentExecution

/-! ## Keys -/

/-- The list of a class and a direction. -/
def listTag (cls : RowClass) (ge : Bool) : Fin 256 :=
  match cls, ge with
  | .limit, true => 0
  | .limit, false => 1
  | .other, true => 2
  | .other, false => 3

/-- The order bits of a level in its list. -/
def orderedLevel (ge : Bool) (level : Float) : ℕ :=
  let ordered := folded (unsignedZero level)
  if ge then 2 ^ 64 - 1 - ordered else ordered

/-- `level_key`. -/
def levelKey (spec : DormantSpec) (priority : ℕ) : Bytes :=
  listTag spec.cls spec.ge :: bytes 8 (orderedLevel spec.ge spec.level) ++ bytes 8 priority

/-- The list that a key is of. -/
def keyTag (key : Bytes) : Fin 256 := key.headD 0

/-- The level of a key. -/
def keyLevel (key : Bytes) : Float :=
  let ordered := word ((key.drop 1).take 8)
  unfolded (if (keyTag key).val % 2 = 0 then 2 ^ 64 - 1 - ordered else ordered)

/-- The priority of a key. -/
def keyPriority (key : Bytes) : ℕ := word (key.drop 9)

/-- `dormant_reachable`: unknown geometry wakes. -/
def dormantReachable (ge : Bool) (level lo hi delta : Float) : Bool :=
  if !level.isFinite || !lo.isFinite || !hi.isFinite || hi
    < lo || !delta.isFinite || delta < 0.0 then
    true
  else if ge then lo - delta ≤ level
  else level ≤ hi + delta

/-! ## Keys say what they were made of -/

section

variable {spec spec' : DormantSpec} {priority priority' : ℕ}

theorem orderedLevel_lt (ge : Bool) (level : Float) : orderedLevel ge level < 256 ^ 8 := by
  have := folded_lt (unsignedZero level)
  unfold orderedLevel
  dsimp only
  split <;> omega

theorem keyTag_levelKey (spec : DormantSpec) (priority : ℕ) :
    keyTag (levelKey spec priority) = listTag spec.cls spec.ge := rfl

theorem listTag_even (cls : RowClass) (ge : Bool) : (listTag cls ge).val % 2 = 0 ↔ ge = true := by
  cases cls <;> cases ge <;> decide

theorem levelKey_tail (spec : DormantSpec) (priority : ℕ) :
    (levelKey spec priority).drop 1
      = bytes 8 (orderedLevel spec.ge spec.level) ++ bytes 8 priority := rfl

theorem keyPriority_levelKey (h : priority < 2 ^ 64) :
    keyPriority (levelKey spec priority) = priority := by
  unfold keyPriority
  have hdrop : (levelKey spec priority).drop 9 = bytes 8 priority := by
    rw [show (9 : ℕ) = 1 + 8 from rfl, ← List.drop_drop, levelKey_tail,
      List.drop_left' (length_bytes 8 _)]
  rw [hdrop, word_bytes (by omega)]

theorem keyLevel_levelKey (h : spec.level.isNaN = false) :
    keyLevel (levelKey spec priority) = unsignedZero spec.level := by
  have htake : ((levelKey spec priority).drop 1).take 8
      = bytes 8 (orderedLevel spec.ge spec.level) := by
    rw [levelKey_tail, List.take_left' (length_bytes 8 _)]
  have hback := unfolded_folded (isNaN_unsignedZero h)
  have hlt := folded_lt (unsignedZero spec.level)
  unfold keyLevel
  rw [htake, word_bytes (orderedLevel_lt _ _)]
  simp only [keyTag_levelKey, listTag_even, orderedLevel]
  cases spec.ge with
  | true =>
    rw [if_pos rfl, if_pos rfl, show 2 ^ 64 - 1 - (2 ^ 64 - 1 - folded (unsignedZero spec.level))
      = folded (unsignedZero spec.level) by omega]
    exact hback
  | false => exact hback

theorem listTag_injective {cls cls' : RowClass} {ge ge' : Bool}
    (h : listTag cls ge = listTag cls' ge') : cls = cls' ∧ ge = ge' := by
  revert h
  cases cls <;> cases ge <;> cases cls' <;> cases ge' <;> decide

/-- In one list the keys are in the order of the levels, reversed where the rows are reached from
above. -/
theorem rank_of_levelKey_le (htag : listTag spec.cls spec.ge = listTag spec'.cls spec'.ge)
    (hlevel : spec.level.isNaN = false) (hlevel' : spec'.level.isNaN = false)
    (h : levelKey spec priority ≤ levelKey spec' priority') :
    if spec.ge then rank spec'.level ≤ rank spec.level else rank spec.level ≤ rank spec'.level := by
  have hge := (listTag_injective htag).2
  have hplain := plain_unsignedZero hlevel
  have hplain' := plain_unsignedZero hlevel'
  have hrank := rank_unsignedZero hlevel
  have hrank' := rank_unsignedZero hlevel'
  have hle : orderedLevel spec.ge spec.level ≤ orderedLevel spec'.ge spec'.level := by
    by_contra hlt
    rw [not_le, ← bytes_lt (orderedLevel_lt _ _) (orderedLevel_lt _ _)] at hlt
    refine absurd h (not_le.mpr ?_)
    unfold levelKey
    rw [List.cons_append, List.cons_append, htag, List.cons_lt_cons_iff]
    exact Or.inr ⟨rfl, (append_lt (by simp)).mpr (Or.inl hlt)⟩
  have hfolded := folded_lt (unsignedZero spec.level)
  have hfolded' := folded_lt (unsignedZero spec'.level)
  rw [← hge] at hle
  unfold orderedLevel at hle
  dsimp only at hle
  cases hdir : spec.ge with
  | true =>
    rw [hdir, if_pos rfl, if_pos rfl] at hle
    rw [if_pos rfl, ← hrank, ← hrank', ← folded_le_iff hplain]
    omega
  | false =>
    rw [hdir, if_neg Bool.false_ne_true, if_neg Bool.false_ne_true] at hle
    rw [if_neg Bool.false_ne_true, ← hrank, ← hrank', ← folded_le_iff hplain']
    exact hle

theorem priority_of_levelKey_eq (hpriority : priority < 2 ^ 64) (hpriority' : priority' < 2 ^ 64)
    (h : levelKey spec priority = levelKey spec' priority') : priority = priority' := by
  rw [← @keyPriority_levelKey spec _ hpriority, h, keyPriority_levelKey hpriority']

/-! ## Reachability along a list -/

theorem reachable_unsignedZero {level : Float} (h : level.isFinite = true) (ge : Bool)
    (lo hi delta : Float) :
    dormantReachable ge (unsignedZero level) lo hi delta
      = dormantReachable ge level lo hi delta := by
  have hnan := isNaN_of_isFinite h
  have hfinite : (unsignedZero level).isFinite = true := by
    unfold unsignedZero
    split
    · decide +kernel
    · exact h
  have hcongr := fun t => @le_congr _ _ t (isNaN_unsignedZero hnan) hnan (rank_unsignedZero hnan)
  unfold dormantReachable
  rw [h, hfinite]
  split
  · rfl
  · split
    · exact decide_eq_decide.mpr (hcongr _).1
    · exact decide_eq_decide.mpr (hcongr _).2

theorem reachable_of_levelKey_le (htag : listTag spec.cls spec.ge = listTag spec'.cls spec'.ge)
    (hlevel : spec.level.isFinite = true) (hlevel' : spec'.level.isFinite = true)
    (h : levelKey spec priority ≤ levelKey spec' priority') {lo hi delta : Float}
    (hreach : dormantReachable spec'.ge spec'.level lo hi delta = true) :
    dormantReachable spec.ge spec.level lo hi delta = true := by
  have hnan := isNaN_of_isFinite hlevel
  have hnan' := isNaN_of_isFinite hlevel'
  have hrank := rank_of_levelKey_le htag hnan hnan' h
  rw [← (listTag_injective htag).2] at hreach
  unfold dormantReachable at hreach ⊢
  rw [hlevel'] at hreach
  rw [hlevel]
  split at hreach
  · rename_i hodd
    rw [if_pos hodd]
  · rename_i hodd
    rw [if_neg hodd]
    cases hdir : spec.ge with
    | true =>
      rw [hdir, if_pos rfl] at hrank hreach
      rw [if_pos rfl]
      exact decide_eq_true ((le_mono hnan' hnan hrank).1 (of_decide_eq_true hreach))
    | false =>
      rw [hdir, if_neg Bool.false_ne_true] at hrank hreach
      rw [if_neg Bool.false_ne_true]
      exact decide_eq_true ((le_mono hnan hnan' hrank).2 (of_decide_eq_true hreach))

end

end PineForge.Book
