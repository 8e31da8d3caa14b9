import PineForge.Journal.Store

/-!
# The resident part of the journal

The chunks from the first resident position on hold the newest events of the journal, one slot each.
They cover the positions up to the end of the last chunk, and no operation ever gives up what they
cover.
-/

namespace PineForge.Journal

namespace JournalStore

variable {ε : Type}

/-! ## Slots -/

theorem slotIn_modify {chunks : List (Chunk ε)} {base p q : ℕ} (hp : base ≤ p) (hq : base ≤ q)
    (hne : q ≠ p) (value : Option ε) :
    slotIn (chunks.modify ((p - base) / 32) fun chunk =>
      Function.update chunk (Fin.ofNat 32 (p - base)) value) base q = slotIn chunks base q := by
  unfold slotIn
  rw [List.getElem?_modify]
  cases chunks[(q - base) / 32]? with
  | none => rfl
  | some chunk =>
    simp only [Option.map_eq_map, Option.map_some, Option.bind_some]
    by_cases hchunk : (p - base) / 32 = (q - base) / 32
    · rw [if_pos hchunk]
      apply Function.update_of_ne
      intro h
      have := congrArg Fin.val h
      simp only [Fin.val_ofNat] at this
      omega
    · rw [if_neg hchunk]

theorem slotIn_modify_self {chunks : List (Chunk ε)} {base p : ℕ}
    (hp : (p - base) / 32 < chunks.length) (value : Option ε) :
    slotIn (chunks.modify ((p - base) / 32) fun chunk =>
      Function.update chunk (Fin.ofNat 32 (p - base)) value) base p = value := by
  unfold slotIn
  rw [List.getElem?_modify, List.getElem?_eq_getElem hp]
  simp only [Option.map_eq_map, Option.map_some, Option.bind_some, if_true]
  exact Function.update_self ..

theorem slotIn_append {chunks more : List (Chunk ε)} {base p : ℕ}
    (hp : (p - base) / 32 < chunks.length) :
    slotIn (chunks ++ more) base p = slotIn chunks base p := by
  unfold slotIn
  rw [List.getElem?_append_left hp]

/-- What trimming leaves holds every position from the first on, and covers what was covered. -/
theorem trimChunks_spec (first : ℕ) (chunks : List (Chunk ε)) (base : ℕ) :
    let trimmed := trimChunks first chunks base
    trimmed.2 + trimmed.1.length * 32 = base + chunks.length * 32 ∧
      (base ≤ first → trimmed.2 ≤ first) ∧
      (trimmed.1 = [] ∨ first < trimmed.2 + 32) ∧
      ∀ p, base ≤ p → first ≤ p → slotIn trimmed.1 trimmed.2 p = slotIn chunks base p := by
  induction chunks generalizing base with
  | nil => exact ⟨rfl, id, .inl rfl, fun _ _ _ => rfl⟩
  | cons chunk chunks ih =>
    unfold trimChunks chunkSlots
    by_cases hpast : base + 32 ≤ first
    · rw [if_pos hpast]
      obtain ⟨hcover, hle, hnear, hslots⟩ := ih (base + 32)
      refine ⟨?_, fun _ => hle hpast, hnear, fun p hp hfirst => ?_⟩
      · rw [hcover, List.length_cons]
        omega
      · rw [hslots p (by omega) hfirst]
        unfold slotIn
        have hindex : (p - base) / 32 = (p - (base + 32)) / 32 + 1 := by omega
        have hslot : (Fin.ofNat 32 (p - base)) = Fin.ofNat 32 (p - (base + 32)) := by
          apply Fin.ext
          simp only [Fin.val_ofNat]
          omega
        rw [hindex, List.getElem?_cons_succ, hslot]
    · rw [if_neg hpast]
      exact ⟨rfl, id, .inr (by dsimp only; omega), fun _ _ _ => rfl⟩

/-! ## The invariant -/

/-- The positions that have a slot. -/
def coverage (s : JournalStore ε) : ℕ := s.chunkBase + s.chunks.length * 32

/-- The chunks hold the resident events. -/
structure Resident (s : JournalStore ε) (all : List ε) : Prop where
  endAt : s.endAt = all.length
  first : s.first ≤ s.endAt
  base : s.chunkBase ≤ s.first
  near : s.chunks = [] ∨ s.first < s.chunkBase + 32
  cover : s.endAt ≤ s.coverage
  slots : ∀ i, s.first ≤ i → i < s.endAt → s.slotAt i = all[i]?

variable {s : JournalStore ε} {all : List ε}

theorem resident_empty : (empty : JournalStore ε).Resident [] where
  endAt := rfl
  first := Nat.le_refl 0
  base := Nat.le_refl 0
  near := .inl rfl
  cover := Nat.zero_le _
  slots := fun i _ hi => absurd hi (Nat.not_lt_zero i)

theorem Resident.residentAt (h : s.Resident all) {i : ℕ} (hfirst : s.first ≤ i) {event : ε}
    (hevent : all[i]? = some event) : s.residentAt i = .ok event := by
  have hlt : i < s.endAt := h.endAt ▸ (List.getElem?_eq_some_iff.mp hevent).1
  unfold JournalStore.residentAt
  rw [h.slots i hfirst hlt, hevent]

theorem Resident.congr (h : s.Resident all) {t : JournalStore ε} (hchunks : t.chunks = s.chunks)
    (hbase : t.chunkBase = s.chunkBase) (hfirst : t.first = s.first) (hend : t.endAt = s.endAt) :
    t.Resident all := by
  have hcover : t.coverage = s.coverage := by
    unfold coverage
    rw [hchunks, hbase]
  refine ⟨?_, ?_, ?_, ?_, ?_, fun i hi hlt => ?_⟩
  · rw [hend, h.endAt]
  · rw [hfirst, hend]
    exact h.first
  · rw [hbase, hfirst]
    exact h.base
  · rw [hchunks, hbase, hfirst]
    exact h.near
  · rw [hend, hcover]
    exact h.cover
  · unfold slotAt
    rw [hchunks, hbase]
    exact h.slots i (hfirst ▸ hi) (hend ▸ hlt)

theorem Resident.push (h : s.Resident all) (hroom : s.endAt < s.coverage) (event : ε) :
    (s.push event).Resident (all ++ [event]) := by
  have hend := h.endAt
  have hfirst := h.first
  have hbase := h.base
  unfold coverage at hroom
  have hindex : (s.endAt - s.chunkBase) / 32 < s.chunks.length := by omega
  refine {
    endAt := ?_, first := Nat.le_succ_of_le hfirst, base := hbase, near := ?_, cover :=
      ?_, slots := ?_ }
  · rw [List.length_append, ← hend]
    rfl
  · right
    obtain hnil | hnear := h.near
    · rw [hnil, List.length_nil] at hindex
      exact absurd hindex (Nat.not_lt_zero _)
    · exact hnear
  · unfold coverage JournalStore.push setSlot
    simp only [List.length_modify]
    omega
  · intro i hi hlt
    unfold slotAt JournalStore.push setSlot at *
    dsimp only at hi hlt ⊢
    by_cases hnew : i = s.endAt
    · subst hnew
      rw [slotIn_modify_self hindex, List.getElem?_append_right (by omega), hend, Nat.sub_self]
      rfl
    · rw [slotIn_modify (by omega) (by omega) hnew, List.getElem?_append_left (by omega)]
      exact h.slots i hi (by omega)

theorem clearFront_spec (n : ℕ) (s : JournalStore ε) (hbase : s.chunkBase ≤ s.first) :
    let t := s.clearFront n
    t.first = s.first + n ∧ t.chunkBase = s.chunkBase ∧ t.chunks.length = s.chunks.length ∧
      t.endAt = s.endAt ∧ t.pages = s.pages ∧ t.data = s.data ∧ t.spill = s.spill ∧
      t.cache = s.cache ∧ t.cacheNext = s.cacheNext ∧
      ∀ p, s.first + n ≤ p → t.slotAt p = s.slotAt p := by
  induction n generalizing s with
  | zero => exact ⟨rfl, rfl, rfl, rfl, rfl, rfl, rfl, rfl, rfl, fun _ _ => rfl⟩
  | succ n ih =>
    have hstep := ih { s.setSlot s.first none with first := s.first + 1 } (Nat.le_succ_of_le hbase)
    unfold setSlot at hstep
    simp only [List.length_modify] at hstep
    obtain ⟨hfirst, hchunkBase, hlength, hend, hpages, hdata, hspill, hcache, hnext, hslots⟩ :=
      hstep
    refine ⟨?_, hchunkBase, hlength, hend, hpages, hdata, hspill, hcache, hnext, fun p hp => ?_⟩
    · unfold clearFront setSlot
      rw [hfirst]
      omega
    · unfold clearFront setSlot
      rw [hslots p (by omega)]
      exact slotIn_modify hbase (by omega) (by omega) none

/-- Dropping events from the front keeps the rest. -/
theorem Resident.dropFront (h : s.Resident all) {newFirst : ℕ} (hle : s.first ≤ newFirst)
    (hend : newFirst ≤ s.endAt) :
    (s.dropFront newFirst).Resident all ∧ (s.dropFront newFirst).first = newFirst ∧
      s.coverage ≤ (s.dropFront newFirst).coverage ∧ (s.dropFront newFirst).pages = s.pages ∧
      (s.dropFront newFirst).data = s.data ∧ (s.dropFront newFirst).spill = s.spill ∧
      (s.dropFront newFirst).cache = s.cache := by
  obtain ⟨hfirst, hbase, hlength, hendAt, hpages, hdata, hspill, hcache, -, hslots⟩ :=
    clearFront_spec (newFirst - s.first) s h.base
  have hnew : (s.clearFront (newFirst - s.first)).first = newFirst := by omega
  obtain ⟨hcover, hle', hnear, htrim⟩ := trimChunks_spec newFirst
    (s.clearFront (newFirst - s.first)).chunks s.chunkBase
  have hstart := hle' (h.base.trans hle)
  have hcoverage := h.cover
  unfold coverage at hcoverage ⊢
  unfold JournalStore.dropFront
  dsimp only
  rw [hnew, hbase]
  -- Once every chunk is freed the next one begins where the events end.
  by_cases hnil : (trimChunks newFirst (s.clearFront (newFirst - s.first)).chunks s.chunkBase).1
    = []
  · rw [if_pos hnil, hnil]
    rw [hnil, List.length_nil] at hcover
    refine ⟨{
      endAt := hendAt.trans h.endAt, first := by rw [hendAt]; exact hend, base := Nat.le_refl _,
      near := .inl rfl, cover := ?_, slots := ?_ }, rfl, ?_, hpages, hdata, hspill, hcache⟩
    · unfold coverage
      rw [hendAt]
      simp only [List.length_nil]
      omega
    · intro i hi hlt
      rw [hendAt] at hlt
      dsimp only at hi hlt
      omega
    · simp only [List.length_nil]
      omega
  · rw [if_neg hnil]
    have hpast : newFirst < (trimChunks newFirst
        (s.clearFront (newFirst - s.first)).chunks s.chunkBase).2 + 32 := hnear.resolve_left hnil
    refine ⟨{
      endAt := hendAt.trans h.endAt, first := by rw [hendAt]; exact hend, base := hstart,
      near := .inr hpast, cover := ?_, slots := ?_ }, rfl, ?_, hpages, hdata, hspill, hcache⟩
    · unfold coverage
      rw [hendAt]
      dsimp only
      omega
    · intro i hi hlt
      dsimp only at hi hlt
      have hbelow := h.base
      unfold slotAt at hslots ⊢
      rw [htrim i (by omega) hi, ← hbase, hslots i (by omega)]
      exact h.slots i (by omega) (hendAt ▸ hlt)
    · omega

/-- Chunks are appended up to the need. -/
theorem growTo_spec (need : ℕ) : ∀ (fuel : ℕ) (s : JournalStore ε), s.Resident all →
    s.chunkBase ≤ s.first → s.first < s.chunkBase + 32 → need ≤ s.coverage + fuel →
    (growTo need fuel s).Resident all ∧ need ≤ (growTo need fuel s).coverage ∧
      s.coverage ≤ (growTo need fuel s).coverage ∧
      (growTo need fuel s).first = s.first ∧ (growTo need fuel s).pages = s.pages ∧
      (growTo need fuel s).data = s.data ∧ (growTo need fuel s).spill = s.spill ∧
      (growTo need fuel s).cache = s.cache
  | 0, s, h, _, _, hneed => ⟨h, hneed, Nat.le_refl _, rfl, rfl, rfl, rfl, rfl⟩
  | fuel + 1, s, h, hbase, hnear, hneed => by
    unfold growTo chunkSlots
    by_cases hroom : s.chunkBase + s.chunks.length * 32 < need
    · rw [if_pos hroom]
      have hgrown : ({ s with chunks := s.chunks ++ [fun _ => none] } : JournalStore ε).coverage
          = s.coverage + 32 := by
        unfold coverage
        simp only [List.length_append, List.length_singleton]
        omega
      have hcover := h.cover
      have hresident : ({ s with chunks := s.chunks ++ [fun _ => none] } : JournalStore ε).Resident
          all := {
        endAt := h.endAt
        first := h.first
        base := hbase
        near := .inr hnear
        cover := by
          rw [hgrown]
          exact Nat.le_add_right_of_le hcover
        slots := fun i hi hlt => by
          unfold coverage at hcover
          dsimp only at hi hlt
          have hin : (i - s.chunkBase) / 32 < s.chunks.length := by omega
          exact (slotIn_append hin).trans (h.slots i hi hlt) }
      obtain ⟨hout, hroomy, hcovered, hrest⟩ := growTo_spec need fuel _ hresident hbase hnear
        (by rw [hgrown]; omega)
      exact ⟨hout, hroomy, by rw [hgrown] at hcovered; omega, hrest⟩
    · rw [if_neg hroom]
      exact ⟨h, by unfold coverage; omega, Nat.le_refl _, rfl, rfl, rfl, rfl, rfl⟩

end JournalStore

end PineForge.Journal
