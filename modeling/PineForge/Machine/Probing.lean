import Mathlib

/-!
# Linear probing

Cells in a ring, each empty or with an entry, that an entry is looked for from its home on. In a
table that is `Placed` no cell between the home of an entry and its own is empty; a probe then ends
at the entry, or at an empty cell where it may be put (`probe_member`, `probe_empty`,
`Placed.insert`).
-/

namespace PineForge.Probing

variable {S : Type*} {n : ℕ} {cell : ℕ → Option S} {hit : S → Bool} {home : S → ℕ}
    {members : S → Prop}

/-- The first cell, from one on, that is empty or hit. -/
def probe (n : ℕ) (cell : ℕ → Option S) (hit : S → Bool) : ℕ → ℕ → Option ℕ
  | 0, _ => none
  | fuel + 1, i => if (cell i).all hit then some i else probe n cell hit fuel ((i + 1) % n)

/-- Every member is reached from its home. -/
structure Placed (n : ℕ) (cell : ℕ → Option S) (home : S → ℕ) (members : S → Prop) : Prop where
  holds : ∀ s, members s ↔ ∃ i, i < n ∧ cell i = some s
  unique : ∀ i j s, i < n → j < n → cell i = some s → cell j = some s → i = j
  reach : ∀ i s, i < n → cell i = some s → ∃ d, d < n ∧ i = (home s + d) % n ∧ ∀ j, j < d →
    cell ((home s + j) % n) ≠ none

/-- The number of cells with an entry. -/
def occupied (n : ℕ) (cell : ℕ → Option S) : ℕ := (List.range n).countP fun i => (cell i).isSome

theorem probe_stops {d fuel : ℕ} (a : ℕ) (hd : d < fuel)
    (hgo : ∀ j, j < d → (cell ((a + j) % n)).all hit = false)
    (hstop : (cell ((a + d) % n)).all hit = true) :
    probe n cell hit fuel (a % n) = some ((a + d) % n) := by
  induction d generalizing a fuel with
  | zero =>
    obtain ⟨fuel, rfl⟩ : ∃ m, fuel = m + 1 := ⟨fuel - 1, by omega⟩
    simp only [Nat.add_zero] at hstop ⊢
    rw [probe, if_pos hstop]
  | succ d ih =>
    obtain ⟨fuel, rfl⟩ : ∃ m, fuel = m + 1 := ⟨fuel - 1, by omega⟩
    have hfirst := hgo 0 (Nat.succ_pos d)
    rw [Nat.add_zero] at hfirst
    rw [probe, hfirst, if_neg Bool.false_ne_true, Nat.mod_add_mod]
    have hshift : ∀ j, a + 1 + j = a + (j + 1) := fun j => by omega
    rw [ih (a + 1) (by omega) (fun j hj => by rw [hshift]; exact hgo (j + 1) (by omega))
      (by rw [hshift]; exact hstop),
      hshift]

theorem eq_of_add_mod {a d e : ℕ} (hd : d < n) (he : e < n) (h : (a + d) % n = (a + e) % n) :
    d = e := by
  have hmod : d ≡ e [MOD n] := Nat.ModEq.add_left_cancel' a h
  exact Nat.ModEq.eq_of_lt_of_lt hmod hd he

theorem exists_distance (a : ℕ) {i : ℕ} (hi : i < n) : ∃ d, d < n ∧ (a + d) % n = i := by
  have hpos : 0 < n := by omega
  refine ⟨(i + (n - a % n)) % n, Nat.mod_lt _ hpos, ?_⟩
  have hlt := Nat.mod_lt a hpos
  rw [Nat.add_mod_mod, ← Nat.mod_add_mod, show a % n + (i + (n - a % n)) = i + n by omega,
    Nat.add_mod_right,
    Nat.mod_eq_of_lt hi]

theorem probe_member (h : Placed n cell home members) {s : S} (hs : members s) (hhit : hit s = true)
    (honly : ∀ t, members t → hit t = true → t = s) :
    ∃ i, i < n ∧ cell i = some s ∧ probe n cell hit n (home s % n) = some i := by
  obtain ⟨i, hi, hcell⟩ := (h.holds s).mp hs
  obtain ⟨d, hd, rfl, hchain⟩ := h.reach i s hi hcell
  refine ⟨_, hi, hcell, probe_stops (home s) hd (fun j hj => ?_) ?_⟩
  · cases hother : cell ((home s + j) % n) with
    | none => exact absurd hother (hchain j hj)
    | some t =>
      rw [Option.all_some]
      by_contra ht
      rw [Bool.not_eq_false] at ht
      have hjn := Nat.mod_lt (home s + j) (show 0 < n by omega)
      have heq : t = s := honly t ((h.holds t).mpr ⟨_, hjn, hother⟩) ht
      rw [heq] at hother
      have hplace := h.unique _ _ s hjn hi hother hcell
      have := eq_of_add_mod (by omega) hd hplace
      omega
  · rw [hcell, Option.all_some, hhit]

theorem exists_empty (h : occupied n cell < n) : ∃ i, i < n ∧ cell i = none := by
  by_contra hnone
  push Not at hnone
  have hall : occupied n cell = (List.range n).length := by
    refine List.countP_eq_length.mpr fun i hi => ?_
    exact Option.isSome_iff_ne_none.mpr (hnone i (List.mem_range.mp hi))
  rw [List.length_range] at hall
  omega

/-- A probe for an entry that is not there ends at an empty cell behind occupied ones. -/
theorem probe_empty (h : Placed n cell home members) (hroom : occupied n cell < n)
    (hmiss : ∀ s, members s → hit s = false) (a : ℕ) :
    ∃ d, d < n ∧ probe n cell hit n (a % n) = some ((a + d) % n) ∧
      cell ((a + d) % n) = none ∧ ∀ j, j < d → cell ((a + j) % n) ≠ none := by
  obtain ⟨i, hi, hempty⟩ := exists_empty hroom
  have hexists : ∃ d, cell ((a + d) % n) = none := by
    obtain ⟨d, -, hd⟩ := exists_distance a hi
    exact ⟨d, by rw [hd, hempty]⟩
  classical
  have hfirst : ∀ j, j < Nat.find hexists → cell ((a + j) % n) ≠ none :=
    fun j hj => Nat.find_min hexists hj
  have hd : Nat.find hexists < n := by
    obtain ⟨d, hlt, hd⟩ := exists_distance a hi
    exact lt_of_le_of_lt (Nat.find_min' hexists (by rw [hd, hempty])) hlt
  refine ⟨Nat.find hexists, hd, probe_stops a hd (fun j hj => ?_) ?_, Nat.find_spec hexists, hfirst⟩
  · cases hcell : cell ((a + j) % n) with
    | none => exact absurd hcell (hfirst j hj)
    | some t => exact hmiss t ((h.holds t).mpr ⟨_, Nat.mod_lt _ (by omega), hcell⟩)
  · rw [Nat.find_spec hexists]
    rfl

/-- A free slot on the way takes a member. -/
theorem Placed.insert (h : Placed n cell home members) {s : S} (hs : ¬members s)
    {d : ℕ} (hd : d < n)
    (hempty : cell ((home s + d) % n) = none)
    (hchain : ∀ j, j < d → cell ((home s + j) % n) ≠ none) :
    Placed n (Function.update cell ((home s + d) % n) (some s)) home fun t => members t ∨
      t = s := by
  have hi := Nat.mod_lt (home s + d) (show 0 < n by omega)
  generalize hat : (home s + d) % n = i at hempty hi ⊢
  have hkeeps : ∀ j, cell j ≠ none → Function.update cell i (some s) j = cell j := by
    intro j hj
    refine Function.update_of_ne ?_ _ _
    rintro rfl
    exact hj hempty
  have hnone : ∀ j, cell j ≠ none → Function.update cell i (some s) j ≠ none := by
    intro j hj
    rw [hkeeps j hj]
    exact hj
  refine ⟨fun t => ?_, fun j k t hj hk hjt hkt => ?_, fun j t hj hjt => ?_⟩
  · constructor
    · rintro (ht | rfl)
      · obtain ⟨j, hj, hjt⟩ := (h.holds t).mp ht
        refine ⟨j, hj, ?_⟩
        rw [hkeeps j (by rw [hjt]; exact Option.some_ne_none t), hjt]
      · exact ⟨i, hi, Function.update_self ..⟩
    · rintro ⟨j, hj, hjt⟩
      by_cases hji : j = i
      · rw [hji, Function.update_self] at hjt
        exact Or.inr (Option.some.inj hjt).symm
      · rw [Function.update_of_ne hji] at hjt
        exact Or.inl ((h.holds t).mpr ⟨j, hj, hjt⟩)
  · by_cases hji : j = i
    · by_cases hki : k = i
      · rw [hji, hki]
      · rw [hji, Function.update_self] at hjt
        rw [Function.update_of_ne hki] at hkt
        obtain rfl := Option.some.inj hjt
        exact absurd ((h.holds s).mpr ⟨k, hk, hkt⟩) hs
    · rw [Function.update_of_ne hji] at hjt
      by_cases hki : k = i
      · rw [hki, Function.update_self] at hkt
        obtain rfl := Option.some.inj hkt
        exact absurd ((h.holds s).mpr ⟨j, hj, hjt⟩) hs
      · rw [Function.update_of_ne hki] at hkt
        exact h.unique j k t hj hk hjt hkt
  · by_cases hji : j = i
    · rw [hji, Function.update_self] at hjt
      obtain rfl := Option.some.inj hjt
      exact ⟨d, hd, hji.trans hat.symm, fun e he => hnone _ (hchain e he)⟩
    · rw [Function.update_of_ne hji] at hjt
      obtain ⟨e, he, hje, hfull⟩ := h.reach j t hj hjt
      exact ⟨e, he, hje, fun k hk => hnone _ (hfull k hk)⟩

theorem occupied_update {i : ℕ} (hi : i < n) (hempty : cell i = none) (s : S) :
    occupied n (Function.update cell i (some s)) = occupied n cell + 1 := by
  unfold occupied
  induction n with
  | zero => exact absurd hi (Nat.not_lt_zero i)
  | succ n ih =>
    rw [List.range_succ, List.countP_append, List.countP_append, List.countP_singleton,
      List.countP_singleton]
    by_cases hlast : i = n
    · subst hlast
      rw [Function.update_self, hempty]
      have hsame : (List.range i).countP (fun j => (Function.update cell i (some s) j).isSome) =
          (List.range i).countP fun j => (cell j).isSome := by
        refine List.countP_congr fun j hj => ?_
        rw [Function.update_of_ne (List.mem_range.mp hj).ne]
      rw [hsame]
      rfl
    · rw [ih (by omega), Function.update_of_ne (Ne.symm hlast)]
      omega

theorem placed_empty (n : ℕ) (home : S → ℕ) : Placed n (fun _ => none) home fun _ => False :=
  ⟨fun s => ⟨False.elim, fun ⟨_, _, habsurd⟩ => Option.some_ne_none s habsurd.symm⟩,
    fun _ _ s _ _ habsurd => absurd habsurd.symm (Option.some_ne_none s),
    fun _ s _ habsurd => absurd habsurd.symm (Option.some_ne_none s)⟩

theorem occupied_empty (n : ℕ) : occupied n (fun _ => (none : Option S)) = 0 := by
  unfold occupied
  rw [List.countP_eq_zero]
  exact fun _ _ => Bool.false_ne_true

end PineForge.Probing
