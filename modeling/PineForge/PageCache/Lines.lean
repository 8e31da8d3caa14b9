import Mathlib
import PineForge.PageCache.Cache

/-!
# Lines and content

`Sound policy c content`: every valid line shows a prefix of its page's content, and wherever no
dirty line covers the content the backing holds it. A page has at most one valid line. The bytes of
a lease are in its line, and a line with a lease is pinned.
-/

namespace PineForge.PageCache

open Window (put window)

variable {α : Type} {policy : Policy} {c d : Cache α} {content : Key → ℕ → α}

/-- The lines hold the content. -/
structure Sound (policy : Policy) (c : Cache α) (content : Key → ℕ → α) : Prop where
  lines : ∀ i, i < c.count → (c.slots i).valid = true → ∀ n, n < (c.slots i).validBytes →
    c.payload i n = content (c.slots i).key n
  rest : ∀ key n, (∀ i, i < c.count → (c.slots i).valid = true → (c.slots i).dirty = true →
    (c.slots i).key = key →
    (c.slots i).validBytes ≤ n) → c.pages key n = content key n
  unique : ∀ i j, i < c.count → j < c.count → (c.slots i).valid = true → (c.slots j).valid = true →
    (c.slots i).key = (c.slots j).key → i = j
  direct : policy.replacement = .directMapped → ∀ i, i < c.count → (c.slots i).valid = true →
    i = mapped (c.slots i).key c.count
  dirty : ∀ i, (c.slots i).dirty = true → (c.slots i).valid = true
  fresh : c.memory = false → (c.slots = fun _ => {}) ∧ c.clockHand = 0
  started : c.memory = true → 0 < c.count ∧ c.clockHand < c.count
  attempted : c.memory = true → c.allocationAttempted = true
  pins : ∀ i, (c.slots i).pins = c.leases.countP fun lease => lease.slot = some i
  shows : ∀ lease ∈ c.leases, ∀ i, lease.slot = some i → window (c.payload i) 0 lease.bytes.length
    = lease.bytes

/-! ## Changes that no reader sees -/

/-- The tags of a line but for its age. -/
def Slot.tags (slot : Slot) : Key × ℕ × ℕ × Bool × Bool :=
  (slot.key, slot.validBytes, slot.pins, slot.valid, slot.dirty)

/-- The caches differ in what leases read only. -/
structure Alike (c d : Cache α) : Prop where
  tags : ∀ i, (d.slots i).tags = (c.slots i).tags
  payload : d.payload = c.payload
  count : d.count = c.count
  memory : d.memory = c.memory
  allocationAttempted : d.allocationAttempted = c.allocationAttempted
  leases : d.leases = c.leases
  pages : d.pages = c.pages

namespace Alike

theorem refl (c : Cache α) : Alike c c := ⟨fun _ => rfl, rfl, rfl, rfl, rfl, rfl, rfl⟩

theorem trans {e : Cache α} (h : Alike c d) (h' : Alike d e) : Alike c e :=
  ⟨fun i => (h'.tags i).trans (h.tags i), h'.payload.trans h.payload, h'.count.trans h.count,
    h'.memory.trans h.memory,
    h'.allocationAttempted.trans h.allocationAttempted, h'.leases.trans h.leases,
      h'.pages.trans h.pages⟩

theorem key (h : Alike c d) (i : ℕ) : (d.slots i).key = (c.slots i).key :=
  congrArg Prod.fst (h.tags i)

theorem validBytes (h : Alike c d) (i : ℕ) : (d.slots i).validBytes = (c.slots i).validBytes :=
  congrArg (fun p => p.2.1) (h.tags i)

theorem pins (h : Alike c d) (i : ℕ) : (d.slots i).pins = (c.slots i).pins :=
  congrArg (fun p => p.2.2.1) (h.tags i)

theorem valid (h : Alike c d) (i : ℕ) : (d.slots i).valid = (c.slots i).valid :=
  congrArg (fun p => p.2.2.2.1) (h.tags i)

theorem dirty (h : Alike c d) (i : ℕ) : (d.slots i).dirty = (c.slots i).dirty :=
  congrArg (fun p => p.2.2.2.2) (h.tags i)

end Alike

/-- Ages and the hand may change. -/
theorem Sound.alike (h : Sound policy c content) (halike : Alike c d)
    (hfresh : d.memory = false → d.slots = c.slots ∧ d.clockHand = c.clockHand)
    (hhand : d.memory = true → d.clockHand < d.count) : Sound policy d content := by
  have hk := halike.key
  have hb := halike.validBytes
  have hp := halike.pins
  have hv := halike.valid
  have hd := halike.dirty
  refine ⟨?_, ?_, ?_, ?_, ?_, ?_, ?_, ?_, ?_, ?_⟩
  · intro i hi hvalid n hn
    rw [halike.count] at hi
    rw [hv] at hvalid
    rw [hb] at hn
    rw [halike.payload, hk]
    exact h.lines i hi hvalid n hn
  · intro key n hcover
    rw [halike.pages]
    refine h.rest key n fun i hi hvalid hdirty hkey => ?_
    rw [← hb]
    refine hcover i ?_ ?_ ?_ ?_
    · rw [halike.count]
      exact hi
    · rw [hv]
      exact hvalid
    · rw [hd]
      exact hdirty
    · rw [hk]
      exact hkey
  · intro i j hi hj hvi hvj hkey
    rw [halike.count] at hi hj
    rw [hv] at hvi hvj
    rw [hk, hk] at hkey
    exact h.unique i j hi hj hvi hvj hkey
  · intro hpolicy i hi hvalid
    rw [halike.count] at hi ⊢
    rw [hv] at hvalid
    rw [hk]
    exact h.direct hpolicy i hi hvalid
  · intro i hdirty
    rw [hd] at hdirty
    rw [hv]
    exact h.dirty i hdirty
  · intro hmemory
    rw [(hfresh hmemory).1, (hfresh hmemory).2]
    rw [halike.memory] at hmemory
    exact h.fresh hmemory
  · intro hmemory
    refine ⟨?_, hhand hmemory⟩
    rw [halike.memory] at hmemory
    rw [halike.count]
    exact (h.started hmemory).1
  · intro hmemory
    rw [halike.memory] at hmemory
    rw [halike.allocationAttempted]
    exact h.attempted hmemory
  · intro i
    rw [hp, halike.leases]
    exact h.pins i
  · intro lease hlease i hslot
    rw [halike.leases] at hlease
    rw [halike.payload]
    exact h.shows lease hlease i hslot

theorem Sound.memory_of_valid (h : Sound policy c content) {i : ℕ}
    (hvalid : (c.slots i).valid = true) :
    c.memory = true := by
  by_contra hmemory
  rw [Bool.not_eq_true] at hmemory
  rw [(h.fresh hmemory).1] at hvalid
  cases hvalid

theorem alike_touch (i : ℕ) (c : Cache α) : Alike c (touch policy i c) := by
  unfold touch
  split
  · refine ⟨fun j => ?_, rfl, rfl, rfl, rfl, rfl, rfl⟩
    change (aged c i j).tags = _
    unfold aged
    split
    · next hij =>
      subst hij
      rfl
    · split
      · rfl
      · rfl
  · refine ⟨fun j => ?_, rfl, rfl, rfl, rfl, rfl, rfl⟩
    change (Function.update c.slots i _ j).tags = _
    by_cases hij : j = i
    · subst hij
      rw [Function.update_self]
      rfl
    · rw [Function.update_of_ne hij]

theorem clockHand_touch (i : ℕ) (c : Cache α) : (touch policy i c).clockHand = c.clockHand := by
  unfold touch
  split
  · rfl
  · rfl

theorem Sound.touch (h : Sound policy c content) {i : ℕ} (hvalid : (c.slots i).valid = true) :
    Sound policy (touch policy i c) content := by
  have hmemory := h.memory_of_valid hvalid
  refine h.alike (alike_touch i c) (fun hfalse => ?_) fun _ => ?_
  · rw [(alike_touch i c).memory, hmemory] at hfalse
    cases hfalse
  · rw [clockHand_touch, (alike_touch i c).count]
    exact (h.started hmemory).2

/-! ## Where a page is, and where it may go -/

theorem mapped_lt (key : Key) {count : ℕ} (h : 0 < count) : mapped key count < count :=
  Nat.mod_lt _ h

theorem find_some (h : Sound policy c content) {key : Key} {i : ℕ}
    (hfind : find policy key c = some i) :
    i < c.count ∧ (c.slots i).valid = true ∧ (c.slots i).key = key := by
  have hholds : ∀ j, holds c key j = true → (c.slots j).valid = true ∧ (c.slots j).key = key := by
    intro j hj
    unfold holds at hj
    rw [Bool.and_eq_true, decide_eq_true_eq] at hj
    exact hj
  unfold find at hfind
  by_cases hmemory : c.memory = true
  · rw [if_pos hmemory] at hfind
    split at hfind
    · split at hfind
      · next hj =>
        obtain rfl := Option.some.inj hfind
        exact ⟨mapped_lt key (h.started hmemory).1, hholds _ hj⟩
      · cases hfind
    · have hmem := List.mem_of_find?_eq_some hfind
      rw [List.mem_range] at hmem
      exact ⟨hmem, hholds i (List.find?_some hfind)⟩
  · rw [if_neg hmemory] at hfind
    cases hfind

theorem find_none (h : Sound policy c content) {key : Key} (hfind : find policy key c = none)
    {i : ℕ} (hi : i < c.count)
    (hvalid : (c.slots i).valid = true) : (c.slots i).key ≠ key := by
  intro hkey
  have hholds : holds c key i = true := by
    unfold holds
    rw [hvalid, decide_eq_true hkey]
    rfl
  unfold find at hfind
  rw [if_pos (h.memory_of_valid hvalid)] at hfind
  split at hfind
  · next hdirect =>
    have heq := h.direct hdirect i hi hvalid
    rw [hkey] at heq
    rw [← heq, if_pos hholds] at hfind
    cases hfind
  · rw [List.find?_eq_none] at hfind
    exact hfind i (List.mem_range.mpr hi) hholds

/-- A line that is chosen is free of leases, and is the page's own one where there is no choice. -/
structure Chosen (policy : Policy) (c : Cache α) (key : Key) (i : ℕ) : Prop where
  lt : i < c.count
  unpinned : (c.slots i).pins = 0
  direct : policy.replacement = .directMapped → i = mapped key c.count
  memory : c.memory = true

/-- The clock chooses a line without a pin. -/
theorem clockScan_spec (hdirect : policy.replacement ≠ .directMapped) (key : Key) (steps : ℕ)
    (h : Sound policy c content) (hmemory : c.memory = true) :
    Alike c (clockScan steps c).2 ∧ Sound policy (clockScan steps c).2 content ∧
      ∀ i, (clockScan steps c).1 = some i → Chosen policy c key i := by
  induction steps generalizing c with
  | zero => exact ⟨Alike.refl c, h, fun i hi => nomatch hi⟩
  | succ steps ih =>
    obtain ⟨hpos, hhand⟩ := h.started hmemory
    have hmovedHand : (if c.clockHand + 1 = c.count then 0 else c.clockHand + 1) < c.count := by
      split
      · exact hpos
      · omega
    have hmoved : Sound policy { c with clockHand := if c.clockHand + 1 = c.count then 0
        else c.clockHand + 1 } content :=
      h.alike ⟨fun _ => rfl, rfl, rfl, rfl, rfl, rfl, rfl⟩ (fun hfalse => by
        rw [hmemory] at hfalse
        cases hfalse) fun _ => hmovedHand
    rw [clockScan]
    dsimp only
    split
    · obtain ⟨halike, hsound, hchosen⟩ := ih hmoved hmemory
      exact ⟨⟨halike.tags, halike.payload, halike.count, halike.memory, halike.allocationAttempted,
        halike.leases, halike.pages⟩,
        hsound, fun i hi => ⟨(hchosen i hi).lt, (hchosen i hi).unpinned,
          (hchosen i hi).direct, hmemory⟩⟩
    · next hpins =>
      rw [not_not] at hpins
      split
      · refine ⟨⟨fun _ => rfl, rfl, rfl, rfl, rfl, rfl, rfl⟩, hmoved, fun i hi => ?_⟩
        obtain rfl := Option.some.inj hi
        exact ⟨hhand, hpins, fun habsurd => absurd habsurd hdirect, hmemory⟩
      · have hcleared : Alike c
          (({ c with clockHand := if c.clockHand + 1 = c.count then 0 else c.clockHand + 1 } :
            Cache α).withSlot c.clockHand { c.slots c.clockHand with recent := false }) := by
          refine ⟨fun j => ?_, rfl, rfl, rfl, rfl, rfl, rfl⟩
          change (Function.update c.slots c.clockHand _ j).tags = _
          by_cases hj : j = c.clockHand
          · subst hj
            rw [Function.update_self]
            rfl
          · rw [Function.update_of_ne hj]
        have hsoundCleared := h.alike hcleared (fun hfalse => by
          rw [hcleared.memory, hmemory] at hfalse
          cases hfalse) fun _ => hmovedHand
        obtain ⟨halike, hsound, hchosen⟩ := ih hsoundCleared hmemory
        refine ⟨hcleared.trans halike, hsound, fun i hi => ?_⟩
        have hc := hchosen i hi
        exact ⟨hc.lt, (hcleared.pins i).symm.trans hc.unpinned, hc.direct, hmemory⟩

theorem oldest_spec (c : Cache α) {i : ℕ} (h : oldest c = some i) :
    i < c.count ∧ (c.slots i).pins = 0 := by
  have hgen : ∀ (xs : List ℕ) (start : Option ℕ), (∀ i, start = some i → i < c.count ∧
    (c.slots i).pins = 0) →
      (∀ x ∈ xs, x < c.count) → ∀ i, xs.foldl (fun victim i =>
        if (c.slots i).pins = 0 ∧ victim.all (fun v => (c.slots i).age > (c.slots v).age) then
          some i else victim) start
        = some i → i < c.count ∧ (c.slots i).pins = 0 := by
    intro xs
    induction xs with
    | nil =>
      intro start hstart _ i hi
      exact hstart i hi
    | cons x xs ih =>
      intro start hstart hxs i hi
      rw [List.foldl_cons] at hi
      refine ih _ ?_ (fun y hy => hxs y (List.mem_cons_of_mem _ hy)) i hi
      intro j hj
      split at hj
      · next hx =>
        obtain rfl := Option.some.inj hj
        exact ⟨hxs x List.mem_cons_self, hx.1⟩
      · exact hstart j hj
  exact hgen (List.range c.count) none (fun i hi => nomatch hi)
    (fun x hx => List.mem_range.mp hx) i h

/-- A chosen line has no pin. -/
theorem choose_spec (h : Sound policy c content) (key : Key) :
    Alike c (choose policy key c).2 ∧ Sound policy (choose policy key c).2 content ∧
      ∀ i, (choose policy key c).1 = some i → Chosen policy c key i := by
  unfold choose
  by_cases hmemory : c.memory = true
  · rw [if_pos hmemory]
    by_cases hdirect : policy.replacement = .directMapped
    · rw [if_pos hdirect]
      refine ⟨Alike.refl c, h, fun i hi => ?_⟩
      dsimp only at hi
      split at hi
      · cases hi
      · next hpins =>
        obtain rfl := Option.some.inj hi
        exact ⟨mapped_lt key (h.started hmemory).1, not_not.mp hpins, fun _ => rfl, hmemory⟩
    · rw [if_neg hdirect]
      cases hfree : (List.range c.count).find? fun i => !(c.slots i).valid && (c.slots i).pins
        = 0 with
      | some j =>
        refine ⟨Alike.refl c, h, fun i hi => ?_⟩
        obtain rfl := Option.some.inj hi
        have hmem := List.mem_of_find?_eq_some hfree
        have hj := List.find?_some hfree
        rw [Bool.and_eq_true, decide_eq_true_eq] at hj
        exact ⟨List.mem_range.mp hmem, hj.2, fun habsurd => absurd habsurd hdirect, hmemory⟩
      | none =>
        dsimp only
        split
        · exact clockScan_spec hdirect key _ h hmemory
        · refine ⟨Alike.refl c, h, fun i hi => ?_⟩
          obtain ⟨hlt, hpins⟩ := oldest_spec c hi
          exact ⟨hlt, hpins, fun habsurd => absurd habsurd hdirect, hmemory⟩
  · rw [if_neg hmemory]
    exact ⟨Alike.refl c, h, fun i hi => nomatch hi⟩

end PineForge.PageCache
