import Mathlib

/-!
# The cached extremum of a window

`ta_extremes_volume.cpp`: `ta.highest`, `ta.lowest` and their bars keep the values of the last
`length + 1` bars in a ring addressed by the bar, and one cached extremum with its bar. A value that
strictly beats the cache takes it; an aged cache is found again by a scan of the ring, oldest slot
first; an na value is written and poisons both.

`leader` is the extremum of a window listed newest first, with the distance of the oldest bar that
attains it. On every bar of a run the cache is the leader of the window (`Tracks`), however often
the bar was recomputed.
-/

namespace PineForge.Indicators

variable {α : Type} [LinearOrder α]

/-! ## The ring -/

/-- The strict comparison of the two directions. -/
def beats (wantMax : Bool) (a b : α) : Bool := if wantMax then b < a else a < b

/-- The ring, the cached extremum and the rollback. -/
structure ExtremeRing (α : Type) where
  values : ℕ → Option α
  ownBar : ℤ := -1
  hasWritten : Bool := false
  cached : Bool := false
  cval : Option α
  cbar : ℤ := 0
  cacheSeenBar : ℤ := -1
  savedCached : Bool := false
  savedCval : Option α
  savedCbar : ℤ := 0

namespace ExtremeRing

/-- Slots that were never written read zero. -/
def create (zero : α) : ExtremeRing α where
  values := fun _ => some zero
  cval := some zero
  savedCval := some zero

end ExtremeRing

/-- The slot of a bar, also of a negative one. -/
def ringSlot (bar K : ℤ) : ℕ :=
  let m := bar.tmod K
  (if m < 0 then m + K else m).toNat

/-- One slot of a rescan; an na slot resets the running extremum. -/
def scanSlot (wantMax : Bool) (best : Option α × ℕ) (k : ℕ) : Option α → Option α × ℕ
  | none => (none, k)
  | some v => if best.1.all (beats wantMax v) then (some v, k) else best

/-- The slots below `k`, the oldest first. -/
def rescan (wantMax : Bool) (read : ℕ → Option α) : ℕ → Option α × ℕ → Option α × ℕ
  | 0, best => best
  | k + 1, best => rescan wantMax read k (scanSlot wantMax best k (read k))

/-- The bar of a call and the first bar, of an installed context or of the ring's own cadence. -/
def barOf (context : Option (ℤ × ℤ)) (advance : Bool) (r : ExtremeRing α) :
    (ℤ × ℤ) × ExtremeRing α :=
  match context with
  | some bar => (bar, r)
  | none =>
    let ownBar := if advance || !r.hasWritten then r.ownBar + 1 else r.ownBar
    ((ownBar, 0), { r with ownBar := ownBar })

/-- The cache before the bar: saved on the first call of a bar, restored on every other one. -/
def rewound (bar : ℤ) (r : ExtremeRing α) : ExtremeRing α :=
  if bar ≠ r.cacheSeenBar then
    { r with cacheSeenBar := bar, savedCached := r.cached, savedCval := r.cval,
             savedCbar := r.cbar }
  else { r with cached := r.savedCached, cval := r.savedCval, cbar := r.savedCbar }

/-- The cache takes the value, is found again, or stays. -/
def recached (length : ℕ) (wantMax : Bool) (bar : ℤ) (src : Option α) (r : ExtremeRing α) :
    ExtremeRing α :=
  match src with
  | none => { r with cached := true, cval := none, cbar := bar }
  | some v =>
    if r.cached = false ∨ r.cval.all (beats wantMax v) = true then
      { r with cached := true, cval := src, cbar := bar }
    else if bar - r.cbar ≥ length then
      let found := rescan wantMax (fun k => r.values (ringSlot (bar - k) (length + 1)))
        length (none, 0)
      { r with cval := found.1, cbar := bar - found.2 }
    else r

/-- The ring with a bar's value. -/
def written (length : ℕ) (bar : ℤ) (src : Option α) (r : ExtremeRing α) : ExtremeRing α :=
  { r with values := Function.update r.values (ringSlot bar (length + 1)) src, hasWritten := true }

/-- `ExtremeRing::update`: the value and the distance of its bar. -/
def update (length : ℤ) (context : Option (ℤ × ℤ)) (src : Option α) (advance wantMax : Bool)
    (r : ExtremeRing α) :
    (Option α × ℤ) × ExtremeRing α :=
  if length ≤ 0 then ((none, 0), r)
  else
    let at_ := barOf context advance r
    let bar := at_.1.1
    let after := recached length.toNat wantMax bar src
      (rewound bar (written length.toNat bar src at_.2))
    (if bar - at_.1.2 < length - 1 then (none, 0) else (after.cval, bar - after.cbar), after)

/-- `Highest` and `Lowest`; a compute advances, a recompute does not. -/
def extreme (wantMax : Bool) (length : ℤ) (context : Option (ℤ × ℤ)) (src : Option α)
    (advance : Bool)
    (r : ExtremeRing α) : Option α × ExtremeRing α :=
  let result := update length context src advance wantMax r
  (result.1.1, result.2)

/-- `ta.highest`. -/
def highest (length : ℤ) (context : Option (ℤ × ℤ)) (src : Option α) (advance : Bool)
    (r : ExtremeRing α) :
    Option α × ExtremeRing α := extreme true length context src advance r

/-- `ta.lowest`. -/
def lowest (length : ℤ) (context : Option (ℤ × ℤ)) (src : Option α) (advance : Bool)
    (r : ExtremeRing α) :
    Option α × ExtremeRing α := extreme false length context src advance r

/-- `HighestBars` and `LowestBars`. -/
def extremeBars (wantMax : Bool) (length : ℤ) (context : Option (ℤ × ℤ)) (src : Option α)
    (advance : Bool)
    (r : ExtremeRing α) : Option ℤ × ExtremeRing α :=
  let result := update length context src advance wantMax r
  (if src.isNone || result.1.1.isNone then none else some (-result.1.2), result.2)

/-- `ta.highestbars`. -/
def highestBars (length : ℤ) (context : Option (ℤ × ℤ)) (src : Option α) (advance : Bool)
    (r : ExtremeRing α) :
    Option ℤ × ExtremeRing α := extremeBars true length context src advance r

/-- `ta.lowestbars`. -/
def lowestBars (length : ℤ) (context : Option (ℤ × ℤ)) (src : Option α) (advance : Bool)
    (r : ExtremeRing α) :
    Option ℤ × ExtremeRing α := extremeBars false length context src advance r

/-! ## Leaders -/

/-- The extremum of the values in front of the first na, with the last place that attains it. -/
def leader (wantMax : Bool) : List (Option α) → Option (α × ℕ)
  | [] => none
  | none :: _ => none
  | some v :: older =>
    match leader wantMax older with
    | none => some (v, 0)
    | some (w, k) => if beats wantMax v w then some (v, 0) else some (w, k + 1)

variable {wantMax : Bool}

theorem beats_of_not_beats {a b c : α} (h : beats wantMax a b = true)
    (hc : beats wantMax c b = false) :
    beats wantMax a c = true := by
  unfold beats at *
  cases wantMax with
  | true =>
    simp only [if_true, decide_eq_true_eq, decide_eq_false_iff_not, not_lt] at *
    exact lt_of_le_of_lt hc h
  | false =>
    simp only [Bool.false_eq_true, if_false, decide_eq_true_eq, decide_eq_false_iff_not, not_lt] at
      *
    exact lt_of_lt_of_le h hc

theorem beats_irrefl (a : α) : beats wantMax a a = false := by
  unfold beats
  cases wantMax with
  | true => exact decide_eq_false (lt_irrefl a)
  | false => exact decide_eq_false (lt_irrefl a)

theorem not_beats_of_beats {a b : α} (h : beats wantMax a b = true) :
    beats wantMax b a = false := by
  by_contra hnot
  rw [Bool.not_eq_false] at hnot
  unfold beats at h hnot
  cases wantMax with
  | true =>
    simp only [if_true, decide_eq_true_eq] at h hnot
    exact lt_asymm h hnot
  | false =>
    simp only [Bool.false_eq_true, if_false, decide_eq_true_eq] at h hnot
    exact lt_asymm h hnot

theorem leader_eq_none {xs : List (Option α)} (h : leader wantMax xs = none) :
    xs.head?.join = none := by
  cases xs with
  | nil => rfl
  | cons x older =>
    cases x with
    | none => rfl
    | some v =>
      unfold leader at h
      cases hl : leader wantMax older with
      | none =>
        rw [hl] at h
        cases h
      | some wk =>
        obtain ⟨w, k⟩ := wk
        rw [hl] at h
        dsimp only at h
        split at h
        · cases h
        · cases h

theorem leader_of_head {xs : List (Option α)} (h : xs.head?.join = none) :
    leader wantMax xs = none := by
  cases xs with
  | nil => rfl
  | cons x older =>
    cases x with
    | none => rfl
    | some v => cases h

theorem leader_cons_none {v : α} {older : List (Option α)} (h : leader wantMax older = none) :
    leader wantMax (some v :: older) = some (v, 0) := by
  rw [leader, h]

theorem leader_cons_beats {v w : α} {k : ℕ} {older : List (Option α)}
    (h : leader wantMax older = some (w, k))
    (hbeats : beats wantMax v w = true) : leader wantMax (some v :: older) = some (v, 0) := by
  rw [leader, h]
  dsimp only
  rw [if_pos hbeats]

theorem leader_cons_kept {v w : α} {k : ℕ} {older : List (Option α)}
    (h : leader wantMax older = some (w, k))
    (hbeats : beats wantMax v w = false) : leader wantMax (some v :: older) = some (w, k + 1) := by
  rw [leader, h]
  dsimp only
  rw [hbeats, if_neg Bool.false_ne_true]

/-- The members of a window: its values newer than the newest na, the newest first. -/
def members (xs : List (Option α)) : List α := (xs.takeWhile Option.isSome).filterMap id

omit [LinearOrder α] in
theorem members_cons_some (v : α) (older : List (Option α)) :
    members (some v :: older) = v :: members older := rfl

/-- The extremum, and the distance of the oldest member that attains it. -/
structure IsExtreme (wantMax : Bool) (xs : List α) (v : α) (k : ℕ) : Prop where
  at_place : xs[k]? = some v
  best : ∀ w ∈ xs, if wantMax then w ≤ v else v ≤ w
  oldest : ∀ j, k < j → xs[j]? ≠ some v

theorem not_beats_iff {v w : α} : beats wantMax w v = false ↔ if wantMax then w ≤ v else v ≤ w := by
  unfold beats
  cases wantMax with
  | true => simp
  | false => simp

/-- The leader is the extremum. -/
theorem leader_spec {xs : List (Option α)} {v : α} {k : ℕ} (h : leader wantMax xs = some (v, k)) :
    IsExtreme wantMax (members xs) v k := by
  induction xs generalizing v k with
  | nil => cases h
  | cons x older ih =>
    cases x with
    | none => cases h
    | some a =>
      rw [members_cons_some]
      cases hl : leader wantMax older with
      | none =>
        rw [leader_cons_none hl] at h
        obtain ⟨rfl, rfl⟩ := Prod.mk.inj (Option.some.inj h)
        have hempty : members older = [] := by
          have hhead := leader_eq_none hl
          cases older with
          | nil => rfl
          | cons y rest =>
            cases y with
            | none => rfl
            | some b => cases hhead
        rw [hempty]
        refine ⟨rfl, fun w hw => ?_, fun j hj => ?_⟩
        · rw [List.mem_singleton] at hw
          rw [← not_beats_iff, hw]
          exact beats_irrefl a
        · rw [List.getElem?_eq_none (by simp only [List.length_singleton]; omega)]
          exact fun habsurd => nomatch habsurd
      | some wk =>
        obtain ⟨w, j⟩ := wk
        obtain ⟨hat, hbest, holdest⟩ := ih hl
        by_cases hbeats : beats wantMax a w = true
        · rw [leader_cons_beats hl hbeats] at h
          obtain ⟨rfl, rfl⟩ := Prod.mk.inj (Option.some.inj h)
          have hall : ∀ y ∈ members older, beats wantMax a y = true := fun y hy =>
            beats_of_not_beats hbeats (not_beats_iff.mpr (hbest y hy))
          refine ⟨rfl, fun y hy => ?_, fun i hi => ?_⟩
          · rw [← not_beats_iff]
            rcases List.mem_cons.mp hy with rfl | hy
            · exact beats_irrefl y
            · exact not_beats_of_beats (hall y hy)
          · obtain ⟨i, rfl⟩ := Nat.exists_eq_add_of_lt hi
            rw [Nat.zero_add, List.getElem?_cons_succ]
            intro hi
            have hself := hall a (List.mem_of_getElem? hi)
            rw [beats_irrefl] at hself
            cases hself
        · rw [Bool.not_eq_true] at hbeats
          rw [leader_cons_kept hl hbeats] at h
          obtain ⟨rfl, rfl⟩ := Prod.mk.inj (Option.some.inj h)
          refine ⟨hat, fun y hy => ?_, fun i hi => ?_⟩
          · rcases List.mem_cons.mp hy with rfl | hy
            · exact not_beats_iff.mp hbeats
            · exact hbest y hy
          · obtain ⟨i, rfl⟩ := Nat.exists_eq_add_of_lt hi
            rw [List.getElem?_cons_succ]
            exact holdest _ (by omega)

omit [LinearOrder α] in
theorem mem_members_take {xs : List (Option α)} {n : ℕ} {v : α} (h : v ∈ members (xs.take n)) :
    v ∈ members xs := by
  induction xs generalizing n with
  | nil =>
    rw [List.take_nil] at h
    exact h
  | cons x older ih =>
    cases n with
    | zero => cases h
    | succ n =>
      rw [List.take_succ_cons] at h
      cases x with
      | none => exact h
      | some a =>
        rw [members_cons_some] at h ⊢
        rcases List.mem_cons.mp h with rfl | h
        · exact List.mem_cons_self
        · exact List.mem_cons_of_mem a (ih h)

/-- A leader within a shorter window is its leader. -/
theorem leader_take {xs : List (Option α)} {v : α} {k n : ℕ} (h : leader wantMax xs = some (v, k))
    (hk : k < n) :
    leader wantMax (xs.take n) = some (v, k) := by
  induction xs generalizing v k n with
  | nil => cases h
  | cons x older ih =>
    obtain ⟨n, rfl⟩ : ∃ m, n = m + 1 := ⟨n - 1, by omega⟩
    rw [List.take_succ_cons]
    cases x with
    | none => cases h
    | some a =>
      cases hl : leader wantMax older with
      | none =>
        rw [leader_cons_none hl] at h
        rw [leader_cons_none, h]
        refine leader_of_head ?_
        have hhead := leader_eq_none hl
        cases n with
        | zero => rfl
        | succ n => rw [List.head?_take, if_neg (Nat.succ_ne_zero n), hhead]
      | some wj =>
        obtain ⟨w, j⟩ := wj
        by_cases hbeats : beats wantMax a w = true
        · rw [leader_cons_beats hl hbeats] at h
          cases ht : leader wantMax (older.take n) with
          | none => rw [leader_cons_none ht, h]
          | some yi =>
            obtain ⟨y, i⟩ := yi
            rw [leader_cons_beats ht, h]
            refine beats_of_not_beats hbeats (not_beats_iff.mpr ((leader_spec hl).best y ?_))
            exact mem_members_take (List.mem_of_getElem? (leader_spec ht).at_place)
        · rw [Bool.not_eq_true] at hbeats
          rw [leader_cons_kept hl hbeats] at h
          obtain ⟨rfl, rfl⟩ := Prod.mk.inj (Option.some.inj h)
          rw [leader_cons_kept (ih hl (by omega)) hbeats]

/-- The running extremum of a scan that came down to slot `j`. -/
def Leads (wantMax : Bool) (xs : List (Option α)) (j : ℕ) (best : Option α × ℕ) : Prop :=
  (leader wantMax (xs.drop j)).elim (best.1 = none) fun found => best = (some found.1, j + found.2)

theorem leads_scanSlot {xs : List (Option α)} {j : ℕ} {x : Option α} (hx : xs[j]? = some x)
    {best : Option α × ℕ}
    (h : Leads wantMax xs (j + 1) best) : Leads wantMax xs j (scanSlot wantMax best j x) := by
  obtain ⟨hj, hget⟩ := List.getElem?_eq_some_iff.mp hx
  unfold Leads at h ⊢
  rw [List.drop_eq_getElem_cons hj, hget]
  cases x with
  | none => rfl
  | some v =>
    unfold scanSlot
    cases hl : leader wantMax (xs.drop (j + 1)) with
    | none =>
      rw [hl] at h
      rw [leader_cons_none hl, show best.1 = none from h]
      rfl
    | some wk =>
      obtain ⟨w, k⟩ := wk
      rw [hl] at h
      change best = (some w, j + 1 + k) at h
      subst h
      dsimp only [Option.all_some]
      by_cases hbeats : beats wantMax v w = true
      · rw [leader_cons_beats hl hbeats, if_pos hbeats]
        rfl
      · rw [if_neg hbeats, leader_cons_kept hl (Bool.not_eq_true _ ▸ hbeats)]
        change (some w, j + 1 + k) = (some w, j + (k + 1))
        rw [Nat.add_assoc, Nat.add_comm 1 k]

theorem leads_rescan {xs : List (Option α)} {read : ℕ → Option α} {j : ℕ}
    (hread : ∀ k, k < j → xs[k]? = some (read k))
    {best : Option α × ℕ} (h : Leads wantMax xs j best) :
    Leads wantMax xs 0 (rescan wantMax read j best) := by
  induction j generalizing best with
  | zero => exact h
  | succ j ih =>
    rw [rescan]
    exact ih (fun k hk => hread k (by omega)) (leads_scanSlot (hread j (by omega)) h)

theorem rescan_eq {xs : List (Option α)} (read : ℕ → Option α)
    (hread : ∀ k, k < xs.length → xs[k]? = some (read k))
    {v : α} {k : ℕ} (h : leader wantMax xs = some (v, k)) :
    rescan wantMax read xs.length (none, 0) = (some v, k) := by
  have hempty : Leads wantMax xs xs.length (none, 0) := by
    unfold Leads
    rw [List.drop_length]
    rfl
  have hleads := leads_rescan hread hempty
  unfold Leads at hleads
  rw [List.drop_zero, h] at hleads
  change _ = (some v, 0 + k) at hleads
  rwa [Nat.zero_add] at hleads

/-! ## Runs -/

/-- The cache for the bars so far, the newest first. -/
def Caches (length : ℕ) (wantMax : Bool) (bar : ℤ) (xs : List (Option α)) (cached : Bool)
    (cval : Option α) (cbar : ℤ) :
    Prop :=
  (xs = [] ∧ cached = false) ∨ (xs ≠ [] ∧ cached = true ∧
    (leader wantMax (xs.take length)).elim (cval = none) fun found => cval = some found.1 ∧
      cbar = bar - found.2)

/-- The ring holds the last bars. -/
def Holds (length : ℕ) (bar : ℤ) (xs : List (Option α)) (values : ℕ → Option α) : Prop :=
  ∀ k, k ≤ length → k < xs.length → xs[k]? = some (values (ringSlot (bar - k) (length + 1)))

theorem ringSlot_eq (bar : ℤ) (length : ℕ) :
    (ringSlot bar (length + 1) : ℤ) = bar % (length + 1) := by
  have hpos := Int.emod_nonneg bar (show (length : ℤ) + 1 ≠ 0 by omega)
  have hlt := Int.emod_lt_of_pos bar (show (0 : ℤ) < length + 1 by omega)
  have habs : ((length : ℤ) + 1).natAbs = length + 1 := by omega
  unfold ringSlot
  dsimp only
  rw [Int.tmod_eq_emod, habs]
  split
  · rw [if_neg (by omega), Int.toNat_of_nonneg (by omega)]
    omega
  · rw [if_pos (by push_cast; omega), Int.toNat_of_nonneg (by push_cast; omega)]
    push_cast
    omega

theorem ringSlot_ne (bar : ℤ) {length k : ℕ} (h0 : 0 < k) (hk : k ≤ length) :
    ringSlot (bar - k) (length + 1) ≠ ringSlot bar (length + 1) := by
  intro heq
  have hints : (ringSlot (bar - k) (length + 1) : ℤ) = ringSlot bar (length + 1) := by rw [heq]
  rw [ringSlot_eq, ringSlot_eq, Int.emod_eq_emod_iff_emod_sub_eq_zero] at hints
  have hdvd := Int.dvd_of_emod_eq_zero hints
  rw [show bar - k - bar = -(k : ℤ) by omega, Int.dvd_neg] at hdvd
  have hle := Int.le_of_dvd (by omega) hdvd
  omega

omit [LinearOrder α] in
theorem length_members_le (xs : List (Option α)) : (members xs).length ≤ xs.length :=
  (List.length_filterMap_le _ _).trans (List.takeWhile_prefix _).length_le

theorem leader_lt {xs : List (Option α)} {v : α} {k : ℕ} (h : leader wantMax xs = some (v, k)) :
    k < xs.length := by
  obtain ⟨hlt, -⟩ := List.getElem?_eq_some_iff.mp (leader_spec h).at_place
  exact lt_of_lt_of_le hlt (length_members_le xs)

theorem exists_leader (wantMax : Bool) (v : α) (older : List (Option α)) :
    ∃ w k, leader wantMax (some v :: older) = some (w, k) := by
  cases h : leader wantMax (some v :: older) with
  | none => cases leader_eq_none h
  | some wk => exact ⟨wk.1, wk.2, rfl⟩

theorem leader_of_beats {xs : List (Option α)} {v : α} {length : ℕ}
    (h : (leader wantMax (xs.take (length + 1))).all (fun found => beats wantMax v found.1)
      = true) :
    leader wantMax (some v :: xs.take length) = some (v, 0) := by
  cases hl : leader wantMax (xs.take length) with
  | none => exact leader_cons_none hl
  | some yi =>
    obtain ⟨y, i⟩ := yi
    refine leader_cons_beats hl ?_
    have hpre : xs.take length = (xs.take (length + 1)).take length := by
      rw [List.take_take, Nat.min_eq_left (Nat.le_succ length)]
    have hy : y ∈ members (xs.take (length + 1)) := by
      rw [hpre] at hl
      exact mem_members_take (List.mem_of_getElem? (leader_spec hl).at_place)
    cases hw : leader wantMax (xs.take (length + 1)) with
    | none =>
      -- no leader, no members
      have hnone := leader_eq_none hw
      cases hx : xs.take (length + 1) with
      | nil =>
        rw [hx] at hy
        cases hy
      | cons x older =>
        rw [hx] at hnone hy
        cases x with
        | none => cases hy
        | some a => cases hnone
    | some wk =>
      rw [hw] at h
      exact beats_of_not_beats h (not_beats_iff.mpr ((leader_spec hw).best y hy))

/-- The cache is right one bar later. -/
theorem caches_recached {length : ℕ} {bar : ℤ} {src : Option α} {xs : List (Option α)}
    {r : ExtremeRing α}
    (hcache : Caches (length + 1) wantMax (bar - 1) xs r.cached r.cval r.cbar)
    (hholds : Holds (length + 1) bar (src :: xs) r.values) :
    Caches (length + 1) wantMax bar (src :: xs) (recached (length + 1) wantMax bar src r).cached
      (recached (length + 1) wantMax bar src r).cval
        (recached (length + 1) wantMax bar src r).cbar := by
  refine Or.inr ⟨List.cons_ne_nil _ _, ?_⟩
  rw [List.take_succ_cons]
  unfold recached
  cases src with
  | none => exact ⟨rfl, rfl⟩
  | some v =>
    dsimp only
    split
    · next hfirst =>
      have hlead : leader wantMax (some v :: xs.take length) = some (v, 0) := by
        refine leader_of_beats ?_
        rcases hcache with ⟨rfl, -⟩ | ⟨-, hcached, hfound⟩
        · rfl
        · cases hl : leader wantMax (xs.take (length + 1)) with
          | none => rfl
          | some found =>
            rw [hl] at hfound
            have hbeats := hfirst.resolve_left
              (by rw [hcached]; exact fun habsurd => nomatch habsurd)
            rw [hfound.1] at hbeats
            exact hbeats
      rw [hlead]
      exact ⟨rfl, rfl, (sub_zero bar).symm⟩
    · next hkept =>
      rw [not_or, Bool.not_eq_false, Bool.not_eq_true] at hkept
      obtain ⟨hcached, hnotBeats⟩ := hkept
      rcases hcache with ⟨-, habsurd⟩ | ⟨hne, -, hfound⟩
      · rw [hcached] at habsurd
        cases habsurd
      · cases hl : leader wantMax (xs.take (length + 1)) with
        | none =>
          rw [hl] at hfound
          rw [show r.cval = none from hfound] at hnotBeats
          cases hnotBeats
        | some wk =>
          obtain ⟨w, k⟩ := wk
          rw [hl] at hfound
          obtain ⟨hcval, hcbar⟩ := hfound
          dsimp only at hcval hcbar
          rw [hcval] at hnotBeats
          have hk := leader_lt hl
          rw [List.length_take] at hk
          split
          · next haged =>
            obtain ⟨y, i, hy⟩ := exists_leader wantMax v (xs.take length)
            have hwindow : (some v :: xs.take length).length = length + 1 := by
              rw [List.length_cons, List.length_take]
              omega
            have hscan := rescan_eq (fun k => r.values (ringSlot (bar - k) (length + 1 + 1))) ?_ hy
            · rw [hwindow] at hscan
              rw [hy]
              refine ⟨hcached, ?_⟩
              push_cast
              rw [hscan]
              exact ⟨rfl, rfl⟩
            · intro j hj
              rw [hwindow] at hj
              have hread := hholds j (by omega) (by rw [List.length_cons]; omega)
              rw [← List.take_succ_cons, List.getElem?_take_of_lt hj]
              push_cast at hread
              exact hread
          · next hyoung =>
            have hshort : leader wantMax (xs.take length) = some (w, k) := by
              have htake := leader_take hl (show k < length by omega)
              rwa [List.take_take, Nat.min_eq_left (Nat.le_succ length)] at htake
            rw [leader_cons_kept hshort hnotBeats]
            refine ⟨hcached, hcval, ?_⟩
            rw [hcbar]
            push_cast
            omega

/-- The bar of a call with `older` bars in front of it, and the first bar. -/
def contextAt (origin : Option ℤ) (older : ℕ) : Option (ℤ × ℤ) :=
  origin.map fun first => (first + older, first)

/-- The ring after the bars of a run, the newest first. -/
structure Tracks (length : ℕ) (wantMax : Bool) (origin : Option ℤ) (r : ExtremeRing α)
    (xs : List (Option α)) : Prop where
  holds : Holds length (origin.getD 0 + xs.length - 1) xs r.values
  caches : Caches length wantMax (origin.getD 0 + xs.length - 1) xs r.cached r.cval r.cbar
  saved : Caches length wantMax (origin.getD 0 + xs.length - 2) xs.tail r.savedCached
    r.savedCval r.savedCbar
  seen : xs ≠ [] → r.cacheSeenBar = origin.getD 0 + xs.length - 1
  own : origin = none → r.ownBar = xs.length - 1 ∧ r.hasWritten = decide (xs ≠ [])

omit [LinearOrder α] in
theorem holds_written {length : ℕ} {bar : ℤ} {src : Option α} {xs : List (Option α)}
    {r : ExtremeRing α}
    (h : ∀ k, k < length → k < xs.length →
      xs[k]? = some (r.values (ringSlot (bar - (k + 1 : ℕ)) (length + 1)))) :
    Holds length bar (src :: xs) (written length bar src r).values := by
  intro k hk hlt
  change _ = some (Function.update r.values (ringSlot bar (length + 1)) src
    (ringSlot (bar - k) (length + 1)))
  cases k with
  | zero =>
    rw [Nat.cast_zero, sub_zero, Function.update_self]
    rfl
  | succ k =>
    rw [Function.update_of_ne (ringSlot_ne bar (Nat.succ_pos k) hk), List.getElem?_cons_succ]
    rw [List.length_cons] at hlt
    exact h k (by omega) (by omega)

variable {length : ℕ} {origin : Option ℤ} {r : ExtremeRing α} {xs : List (Option α)}
    {src old : Option α} {advance : Bool}

omit [LinearOrder α] in
theorem barOf_eq (origin : Option ℤ) (advance : Bool) (r : ExtremeRing α) (older : ℕ)
    (hown : origin = none → (if advance || !r.hasWritten then r.ownBar + 1 else r.ownBar) = older) :
    ∃ own, barOf (contextAt origin older) advance r =
      ((origin.getD 0 + older, origin.getD 0), { r with ownBar := own }) ∧
        (origin = none → own = older) := by
  cases origin with
  | none =>
    refine ⟨_, ?_, fun _ => hown rfl⟩
    unfold barOf contextAt
    dsimp only [Option.map_none, Option.getD_none]
    rw [hown rfl, zero_add]
  | some first => exact ⟨r.ownBar, rfl, fun habsurd => nomatch habsurd⟩

/-- The cache before the bar, held twice. -/
structure Rewound (length : ℕ) (wantMax : Bool) (bar : ℤ) (xs : List (Option α))
    (r : ExtremeRing α) : Prop where
  caches : Caches length wantMax (bar - 1) xs r.cached r.cval r.cbar
  saved : Caches length wantMax (bar - 1) xs r.savedCached r.savedCval r.savedCbar
  seen : r.cacheSeenBar = bar

theorem rewound_next {bar : ℤ} (hcaches : Caches length wantMax (bar - 1) xs r.cached r.cval r.cbar)
    (hseen : xs ≠ [] → r.cacheSeenBar = bar - 1) (hsaved : xs = [] → r.savedCached = false) :
    Rewound length wantMax bar xs (rewound bar r) := by
  unfold rewound
  split
  · exact ⟨hcaches, hcaches, rfl⟩
  · next hsame =>
    rw [not_not] at hsame
    have hempty : xs = [] := by
      by_contra hne
      have hlast := hseen hne
      omega
    have hinitial : Caches length wantMax (bar - 1) xs r.savedCached r.savedCval r.savedCbar :=
      Or.inl ⟨hempty, hsaved hempty⟩
    exact ⟨hinitial, hinitial, hsame.symm⟩

theorem rewound_again {bar : ℤ}
    (hsaved : Caches length wantMax (bar - 1) xs r.savedCached r.savedCval r.savedCbar)
    (hseen : r.cacheSeenBar = bar) : Rewound length wantMax bar xs (rewound bar r) := by
  unfold rewound
  rw [if_neg (not_not.mpr hseen.symm)]
  exact ⟨hsaved, hsaved, hseen⟩

theorem recached_frame (length : ℕ) (wantMax : Bool) (bar : ℤ) (src : Option α)
    (r : ExtremeRing α) :
    ∃ cached cval cbar,
      recached length wantMax bar src r
        = { r with cached := cached, cval := cval, cbar := cbar } := by
  unfold recached
  cases src with
  | none => exact ⟨_, _, _, rfl⟩
  | some v =>
    dsimp only
    split
    · exact ⟨_, _, _, rfl⟩
    · split
      · exact ⟨_, _, _, rfl⟩
      · exact ⟨_, _, _, rfl⟩

omit [LinearOrder α] in
theorem rewound_frame (bar : ℤ) (r : ExtremeRing α) : (rewound bar r).values = r.values ∧
    (rewound bar r).ownBar = r.ownBar ∧ (rewound bar r).hasWritten = r.hasWritten := by
  unfold rewound
  split
  · exact ⟨rfl, rfl, rfl⟩
  · exact ⟨rfl, rfl, rfl⟩

/-- One call keeps the ring. -/
theorem tracks_call {bar own : ℤ} (hbar : bar = origin.getD 0 + xs.length)
    (hown : origin = none → own = xs.length)
    (hholds : ∀ k, k < length + 1 → k < xs.length →
      xs[k]? = some (r.values (ringSlot (bar - (k + 1 : ℕ)) (length + 1 + 1))))
    (hrewound : Rewound (length + 1) wantMax bar xs
      (rewound bar (written (length + 1) bar src { r with ownBar := own }))) :
    Tracks (length + 1) wantMax origin
      (recached (length + 1) wantMax bar src
        (rewound bar (written (length + 1) bar src { r with ownBar := own })))
      (src :: xs) := by
  have hwritten : Holds (length + 1) bar (src :: xs)
      (written (length + 1) bar src { r with ownBar := own }).values := by
    refine holds_written fun k hk hlt => ?_
    push_cast at hholds ⊢
    exact hholds k hk hlt
  obtain ⟨hvalues, hownBar, hhas⟩ :=
    rewound_frame bar (written (length + 1) bar src { r with ownBar := own })
  rw [← hvalues] at hwritten
  have hcaches := caches_recached hrewound.caches hwritten
  obtain ⟨cached, cval, cbar, hframe⟩ := recached_frame (length + 1) wantMax bar src
    (rewound bar (written (length + 1) bar src { r with ownBar := own }))
  rw [hframe] at hcaches ⊢
  have hlast : origin.getD 0 + ((src :: xs).length : ℕ) - 1 = bar := by
    rw [hbar, List.length_cons]
    push_cast
    omega
  refine ⟨?_, ?_, ?_, fun _ => ?_, fun horigin => ⟨?_, ?_⟩⟩
  · rw [hlast]
    exact hwritten
  · rw [hlast]
    exact hcaches
  · rw [show origin.getD 0 + ((src :: xs).length : ℕ) - 2 = bar - 1 by omega]
    exact hrewound.saved
  · rw [hlast]
    exact hrewound.seen
  · change (rewound bar _).ownBar = _
    rw [hownBar, List.length_cons]
    change own = _
    rw [hown horigin]
    push_cast
    omega
  · change (rewound bar _).hasWritten = _
    rw [hhas]
    rfl

theorem update_eq {own : ℤ} (hbarOf : barOf (contextAt origin xs.length) advance r =
    ((origin.getD 0 + xs.length, origin.getD 0), { r with ownBar := own })) {q : ExtremeRing α}
    (hq : q = recached (length + 1) wantMax (origin.getD 0 + xs.length) src
      (rewound (origin.getD 0 + xs.length)
      (written (length + 1) (origin.getD 0 + xs.length) src { r with ownBar := own }))) :
    update (length + 1 : ℕ) (contextAt origin xs.length) src advance wantMax r =
      (if xs.length < length then (none, 0) else (q.cval, origin.getD 0 + xs.length - q.cbar),
        q) := by
  unfold update
  rw [if_neg (by omega), hbarOf, Int.toNat_natCast]
  dsimp only
  rw [← hq]
  by_cases hforming : xs.length < length
  · rw [if_pos hforming, if_pos (by push_cast; omega)]
  · rw [if_neg hforming, if_neg (by push_cast; omega)]

/-- The ring is before a call that gives the bar behind `xs` its value: the first one of the bar, or
another one. -/
def Ready (length : ℕ) (wantMax : Bool) (origin : Option ℤ) (advance : Bool) (r : ExtremeRing α)
    (xs : List (Option α)) :
    Prop :=
  (Tracks length wantMax origin r xs ∧ (advance = true ∨ origin.isSome = true ∨ xs = [])) ∨
    ∃ old, Tracks length wantMax origin r (old :: xs) ∧ (advance = false ∨ origin.isSome = true)

theorem Ready.ownBar (h : Ready length wantMax origin advance r xs) (horigin : origin = none) :
    (if advance || !r.hasWritten then r.ownBar + 1 else r.ownBar) = xs.length := by
  subst horigin
  rcases h with ⟨htracks, hadvance⟩ | ⟨old, htracks, hadvance⟩
  · obtain ⟨hownBar, hhas⟩ := htracks.own rfl
    have hcond : (advance || !r.hasWritten) = true := by
      rcases hadvance with rfl | habsurd | rfl
      · rfl
      · cases habsurd
      · rw [hhas]
        simp
    rw [if_pos hcond, hownBar]
    omega
  · obtain ⟨hownBar, hhas⟩ := htracks.own rfl
    have hcond : (advance || !r.hasWritten) = false := by
      rcases hadvance with rfl | habsurd
      · rw [hhas]
        simp
      · cases habsurd
    rw [hcond, if_neg Bool.false_ne_true, hownBar, List.length_cons]
    push_cast
    omega

theorem Ready.holds (h : Ready (length + 1) wantMax origin advance r xs) :
    ∀ k, k < length + 1 → k < xs.length →
    xs[k]? = some (r.values (ringSlot (origin.getD 0 + xs.length - (k + 1 : ℕ))
      (length + 1 + 1))) := by
  intro k hk hlt
  rcases h with ⟨htracks, -⟩ | ⟨old, htracks, -⟩
  · have hread := htracks.holds k hk.le hlt
    push_cast at hread ⊢
    rw [hread, show origin.getD 0 + (xs.length : ℤ) - 1 - k
      = origin.getD 0 + xs.length - (k + 1) by omega]
  · have hread := htracks.holds (k + 1) (by omega) (by rw [List.length_cons]; omega)
    rw [List.getElem?_cons_succ, List.length_cons] at hread
    push_cast at hread ⊢
    rw [hread, show origin.getD 0 + ((xs.length : ℤ) + 1) - 1 - (k + 1)
      = origin.getD 0 + xs.length - (k + 1) by omega]

theorem Ready.rewound (h : Ready length wantMax origin advance r xs) (own : ℤ) :
    Rewound length wantMax (origin.getD 0 + xs.length) xs (rewound (origin.getD 0 + xs.length)
      (written length (origin.getD 0 + xs.length) src { r with ownBar := own })) := by
  rcases h with ⟨htracks, -⟩ | ⟨old, htracks, -⟩
  · refine rewound_next htracks.caches htracks.seen fun hempty => ?_
    have hsaved := htracks.saved
    rw [hempty] at hsaved
    rcases hsaved with ⟨-, hfalse⟩ | ⟨hne, -⟩
    · exact hfalse
    · exact absurd rfl hne
  · have hsaved := htracks.saved
    have hseen := htracks.seen (List.cons_ne_nil _ _)
    rw [List.length_cons] at hsaved hseen
    push_cast at hsaved hseen
    refine rewound_again ?_ ?_
    · rw [show origin.getD 0 + (xs.length : ℤ) - 1
        = origin.getD 0 + ((xs.length : ℤ) + 1) - 2 by omega]
      exact hsaved
    · refine Eq.trans hseen ?_
      omega

theorem Ready.update (h : Ready (length + 1) wantMax origin advance r xs) (src : Option α) :
    ∃ q, update (length + 1 : ℕ) (contextAt origin xs.length) src advance wantMax r =
        (if xs.length < length then (none, 0) else (q.cval, origin.getD 0 + xs.length - q.cbar),
          q) ∧
      Tracks (length + 1) wantMax origin q (src :: xs) := by
  obtain ⟨own, hbarOf, hown⟩ := barOf_eq origin advance r xs.length h.ownBar
  exact ⟨_, update_eq hbarOf rfl, tracks_call rfl hown h.holds (h.rewound own)⟩

/-- The runs of a site that is called on every bar from the first, with the last value of each bar.
Where a context tells the bars apart, a compute and a recompute are one. -/
inductive Ran (zero : α) (length : ℤ) (wantMax : Bool) (origin : Option ℤ) :
    ExtremeRing α → List (Option α) → Prop
  | start : Ran zero length wantMax origin (.create zero) []
  | next {r : ExtremeRing α} {values : List (Option α)} {advance : Bool} (src : Option α) :
    Ran zero length wantMax origin r values →
      (advance = true ∨ origin.isSome = true ∨ values = []) →
    Ran zero length wantMax origin
      (update length (contextAt origin values.length) src advance wantMax r).2 (values ++ [src])
  | again {r : ExtremeRing α} {values : List (Option α)} {old : Option α} {advance : Bool}
    (src : Option α) :
    Ran zero length wantMax origin r (values ++ [old]) → (advance = false ∨ origin.isSome = true) →
    Ran zero length wantMax origin
      (update length (contextAt origin values.length) src advance wantMax r).2 (values ++ [src])

variable {zero : α} {values : List (Option α)}

theorem tracks_create (zero : α) (length : ℕ) (wantMax : Bool) (origin : Option ℤ) :
    Tracks length wantMax origin (.create zero) [] :=
  ⟨fun k _ hk => absurd hk (Nat.not_lt_zero k), Or.inl ⟨rfl, rfl⟩, Or.inl ⟨rfl, rfl⟩,
    fun hne => absurd rfl hne,
    fun _ => ⟨rfl, rfl⟩⟩

theorem tracks_of_ran (h : Ran zero (length + 1 : ℕ) wantMax origin r values) :
    Tracks (length + 1) wantMax origin r values.reverse := by
  induction h with
  | start => exact tracks_create zero _ wantMax origin
  | next src _ hadvance ih =>
    rename_i r values advance _
    have hready : Ready (length + 1) wantMax origin advance r values.reverse :=
      Or.inl ⟨ih, by simpa using hadvance⟩
    obtain ⟨q, hq, htracks⟩ := hready.update src
    rw [List.length_reverse] at hq
    rw [hq, List.reverse_append]
    exact htracks
  | again src _ hadvance ih =>
    rename_i r values old advance _
    rw [List.reverse_append] at ih
    have hready : Ready (length + 1) wantMax origin advance r values.reverse :=
      Or.inr ⟨old, ih, hadvance⟩
    obtain ⟨q, hq, htracks⟩ := hready.update src
    rw [List.length_reverse] at hq
    rw [hq, List.reverse_append]
    exact htracks

/-- The last `length` values that are newer than the newest na among them, the newest first. -/
def windowOf (length : ℤ) (values : List (Option α)) : List α :=
  members (values.reverse.take length.toNat)

/-- What a site answers on the last of these bars. -/
structure Answers (wantMax : Bool) (length : ℤ) (values : List (Option α)) (value : Option α)
    (bars : Option ℤ) : Prop where
  empty : length ≤ 0 → value = none ∧ bars = none
  forming : (values.length : ℤ) < length → value = none ∧ bars = none
  onNa : values.getLast? = some none → value = none ∧ bars = none
  formed : 0 < length → length ≤ values.length → ∀ x, values.getLast? = some (some x) →
    ∃ (v : α) (k : ℕ), value = some v ∧ bars = some (-(k : ℤ)) ∧
      IsExtreme wantMax (windowOf length values) v k

/-- A site before a call that gives the bar behind `values` its value. -/
def Takes (zero : α) (length : ℤ) (wantMax : Bool) (origin : Option ℤ) (advance : Bool)
    (r : ExtremeRing α)
    (values : List (Option α)) : Prop :=
  (Ran zero length wantMax origin r values ∧
    (advance = true ∨ origin.isSome = true ∨ values = [])) ∨
    ∃ old, Ran zero length wantMax origin r (values ++ [old]) ∧
      (advance = false ∨ origin.isSome = true)

theorem ready_of_takes (h : Takes zero (length + 1 : ℕ) wantMax origin advance r values) :
    Ready (length + 1) wantMax origin advance r values.reverse := by
  rcases h with ⟨hran, hadvance⟩ | ⟨old, hran, hadvance⟩
  · exact Or.inl ⟨tracks_of_ran hran, by simpa using hadvance⟩
  · have htracks := tracks_of_ran hran
    rw [List.reverse_append] at htracks
    exact Or.inr ⟨old, htracks, hadvance⟩

/-- A call answers the extremum of its window. -/
theorem answers_of_takes {length : ℤ} (h : Takes zero length wantMax origin advance r values)
    (src : Option α) :
    Answers wantMax length (values ++ [src])
      (extreme wantMax length (contextAt origin values.length) src advance r).1
      (extremeBars wantMax length (contextAt origin values.length) src advance r).1 := by
  unfold extreme extremeBars
  dsimp only
  by_cases hlength : length ≤ 0
  · have hnone : update length (contextAt origin values.length) src advance wantMax r
        = ((none, 0), r) := by
      unfold update
      rw [if_pos hlength]
    rw [hnone]
    refine ⟨fun _ => ?_, fun _ => ?_, fun _ => ?_, fun hpos => absurd hlength (not_le.mpr hpos)⟩ <;>
      exact ⟨rfl, by simp⟩
  · obtain ⟨n, rfl⟩ : ∃ n : ℕ, length = (n + 1 : ℕ) := ⟨length.toNat - 1, by omega⟩
    obtain ⟨q, hq, htracks⟩ := (ready_of_takes h).update src
    rw [List.length_reverse] at hq
    rw [hq]
    dsimp only
    have hlast : (values ++ [src]).getLast? = some src := List.getLast?_concat
    refine ⟨fun habsurd => absurd habsurd hlength, fun hforming => ?_, fun hna => ?_,
      fun _ hformed x hx => ?_⟩
    · rw [List.length_append, List.length_singleton] at hforming
      rw [if_pos (by omega)]
      exact ⟨rfl, by simp⟩
    · rw [hlast, Option.some.injEq] at hna
      subst hna
      refine ⟨?_, by simp⟩
      split
      · rfl
      · rcases htracks.caches with ⟨habsurd, -⟩ | ⟨-, -, hfound⟩
        · exact absurd habsurd (List.cons_ne_nil _ _)
        · rw [List.take_succ_cons] at hfound
          exact hfound
    · rw [hlast, Option.some.injEq] at hx
      subst hx
      rw [List.length_append, List.length_singleton] at hformed
      rw [if_neg (by omega)]
      rcases htracks.caches with ⟨habsurd, -⟩ | ⟨-, -, hfound⟩
      · exact absurd habsurd (List.cons_ne_nil _ _)
      · have hwindow : (some x :: values.reverse).take (n + 1)
            = ((values ++ [some x]).reverse).take (n + 1) := by
          rw [List.reverse_append]
          rfl
        obtain ⟨v, k, hleader⟩ := exists_leader wantMax x (values.reverse.take n)
        rw [← List.take_succ_cons] at hleader
        rw [hleader] at hfound
        obtain ⟨hcval, hcbar⟩ := hfound
        refine ⟨v, k, hcval, ?_, ?_⟩
        · dsimp only at hcval hcbar
          rw [hcval, hcbar, List.length_cons, List.length_reverse]
          push_cast
          simp only [Option.isNone_some, Bool.or_self, Bool.false_eq_true, if_false, neg_sub,
            Option.some.injEq]
          omega
        · unfold windowOf
          rw [Int.toNat_natCast, ← hwindow]
          exact leader_spec hleader

/-- On every bar the cached extremum is the window's, and only the last value of each bar counts. -/
theorem cached_extremum {zero : α} {length : ℤ} {origin : Option ℤ} {advance : Bool}
    {r r' : ExtremeRing α}
    {values : List (Option α)} (hhigh : Takes zero length true origin advance r values)
    (hlow : Takes zero length false origin advance r' values) (src : Option α) :
    Answers true length (values ++ [src])
      (highest length (contextAt origin values.length) src advance r).1
        (highestBars length (contextAt origin values.length) src advance r).1 ∧
      Answers false length (values ++ [src])
        (lowest length (contextAt origin values.length) src advance r').1
        (lowestBars length (contextAt origin values.length) src advance r').1 :=
  ⟨answers_of_takes hhigh src, answers_of_takes hlow src⟩

/-- Two bars, the second with a tick of 7. -/
def ticked (wantMax : Bool) : ExtremeRing ℤ :=
  (update 2 (contextAt none 1) (some 7) true wantMax
    (update 2 (contextAt none 0) (some 5) true wantMax (.create 0)).2).2

theorem ran_ticked (wantMax : Bool) : Ran 0 2 wantMax none (ticked wantMax)
    ([some 5] ++ [some 7]) :=
  .next (some 7) (.next (some 5) .start (Or.inl rfl)) (Or.inl rfl)

/-- The second bar ends at 3: its tick of 7 is gone. -/
theorem cached_extremum_ticked :
    (highest 2 (contextAt none 1) (some 3) false (ticked true)).1 = some 5 ∧
    Answers true 2 ([some 5] ++ [some 3])
      (highest 2 (contextAt none 1) (some 3) false (ticked true)).1
      (highestBars 2 (contextAt none 1) (some 3) false (ticked true)).1 :=
  ⟨by decide, (cached_extremum (Or.inr ⟨some 7, ran_ticked true, Or.inl rfl⟩)
    (Or.inr ⟨some 7, ran_ticked false, Or.inl rfl⟩) (some 3)).1⟩

end PineForge.Indicators
