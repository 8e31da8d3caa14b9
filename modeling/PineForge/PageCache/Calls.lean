import Mathlib
import PineForge.PageCache.Moves

/-!
# Calls keep the content

Each call of the cache as a change of the content: a load none, a put its bytes over the start of
its page, and a put that fails nothing outside of these.
-/

namespace PineForge.PageCache

open Window (put window)

variable {α : Type} {policy : Policy} {c d : Cache α} {content : Key → ℕ → α} {key : Key}
    {old : Option ℕ}

/-! ## Loads -/

/-- A load that completes has the content's bytes, in its line as well. -/
structure Served (policy : Policy) (content : Key → ℕ → α) (key : Key) (size : ℕ)
    (leases : List (Lease α))
    (r : Loaded α × Cache α) : Prop where
  sound : Sound policy r.2 content
  leases : r.2.leases = leases
  bytes : r.1.status = .ok → r.1.bytes = window (content key) 0 size
  line : r.1.status = .ok → ∀ i, r.1.slot = some i → r.2.memory = true ∧
    window (r.2.payload i) 0 size = r.1.bytes

theorem Sound.isDirty_rest (h : Sound policy c content) (hfound : Found c key old)
    (hclean : isDirty c old = false) :
    c.pages key = content key := by
  funext n
  refine h.rest key n fun i hi hvalid hdirty hkey => ?_
  rw [hfound.only i hi hvalid hkey] at hclean
  exact absurd (hdirty.symm.trans hclean) Bool.true_eq_false_eq_False

theorem merged_eq (h : Sound policy c content) (hfound : Found c key old) {size : ℕ}
    (hshort : ∀ i, old = some i → (c.slots i).dirty = true → (c.slots i).validBytes ≤ size) :
    merged c old (window (c.pages key) 0 size) = window (content key) 0 size := by
  cases old with
  | none =>
    change window (c.pages key) 0 size = _
    rw [h.isDirty_rest hfound rfl]
  | some i =>
    unfold merged
    dsimp only
    split
    · next hdirty =>
      obtain ⟨hi, hkey⟩ := hfound.at_key i rfl
      have hvalid := h.dirty i hdirty
      obtain ⟨rest, hrest⟩ := Nat.exists_eq_add_of_le (hshort i rfl hdirty)
      rw [hrest, Window.window_append, Window.window_append,
        List.drop_left' (Window.length_window _ _ _)]
      congr 1
      · refine Window.window_congr fun n _ hn => ?_
        rw [← hkey]
        exact h.lines i hi hvalid n (by omega)
      · refine Window.window_congr fun n hn _ => ?_
        refine h.rest key n fun j hj hvj _ hkj => ?_
        obtain rfl := Option.some.inj (hfound.only j hj hvj hkj)
        omega
    · next hclean =>
      rw [h.isDirty_rest hfound]
      exact Bool.eq_false_iff.mpr hclean

theorem put_eq_self (f g : ℕ → α) {size : ℕ} (h : ∀ n, size ≤ n → f n = g n) :
    put f 0 (window g 0 size) = g := by
  funext n
  by_cases hn : n < size
  · exact put_window_lt f g hn
  · exact (put_window_le f g (Nat.le_of_not_lt hn)).trans (h n (Nat.le_of_not_lt hn))

/-- The bytes of a page go into its line, in the place of the old one. -/
theorem Sound.refill (h : Sound policy c content) (hfound : Found c key old) {i : ℕ}
    (hchosen : Chosen policy c key i)
    (hclean : old = some i ∨ (c.slots i).dirty = false) (bytes : List α) (dirty : Bool)
    (hkept : dirty = false → put (c.pages key) 0 bytes = c.pages key) :
    Sound policy (PageCache.install policy i key bytes dirty
      (invalidateSlot i (invalidateOption old c)))
      (Function.update content key (put (c.pages key) 0 bytes)) := by
  have hdropped : invalidateSlot i (invalidateOption old c) = c.without fun j => old = some j ∨
      some i = some j := by
    rw [← without_without, ← invalidateOption_eq, ← invalidateOption_eq]
    rfl
  rw [hdropped]
  have hwithout := h.without_page hfound (fun j => old = some j ∨ some i = some j)
    (fun j hj => Or.inl hj)
    fun j hj => by
      rcases hj with hj | hj
      · exact Or.inl hj
      · obtain rfl := Option.some.inj hj
        exact hclean
  have hinstalled := hwithout.install (hchosen.kept (kept_without _ c)) ?_ ?_ bytes dirty hkept
  · rwa [Function.update_idem] at hinstalled
  · rw [without_selected _ (Or.inr rfl)]
  · intro j hj hvalid hkey
    obtain ⟨hnot, hslot⟩ := valid_without hvalid
    rw [hslot] at hvalid hkey
    exact hnot (Or.inl (hfound.only j hj hvalid hkey))

theorem leases_install (i : ℕ) (key : Key) (bytes : List α) (dirty : Bool) (c : Cache α) :
    (install policy i key bytes dirty c).leases = c.leases :=
      (alike_touch i (c.filled i key bytes dirty)).leases

theorem payload_install (i : ℕ) (key : Key) (bytes : List α) (dirty : Bool) (c : Cache α) :
    (install policy i key bytes dirty c).payload = Function.update c.payload i
    (put (c.payload i) 0 bytes) :=
  (alike_touch i (c.filled i key bytes dirty)).payload

theorem memory_install (i : ℕ) (key : Key) (bytes : List α) (dirty : Bool) (c : Cache α) :
    (install policy i key bytes dirty c).memory = c.memory :=
      (alike_touch i (c.filled i key bytes dirty)).memory

theorem freeTarget_spec (old : Option ℕ) (h : Sound policy c content) {i : ℕ} (hi : i < c.count) :
    Sound policy (freeTarget old (some i) c).2 content ∧ Kept c (freeTarget old (some i) c).2 ∧
      (∀ j, old = some j → (freeTarget old (some i) c).2.slots j = c.slots j) ∧
      ((freeTarget old (some i) c).1 = .ok → old = some i ∨
        ((freeTarget old (some i) c).2.slots i).dirty = false) := by
  rw [show freeTarget old (some i) c = if some i ≠ old then flushSlot i c else (.ok, c) from rfl]
  split
  · next hne =>
    obtain ⟨hsound, hkept, hother, hclean⟩ := flushSlot_spec h hi
    refine ⟨hsound, hkept, fun j hj => hother j ?_, fun hok => Or.inr (hclean hok)⟩
    rintro rfl
    exact hne hj.symm
  · next heq =>
    exact ⟨h, Kept.refl c, fun _ _ => rfl, fun _ => Or.inl (not_not.mp heq).symm⟩

/-- A chosen line is filled with the page. -/
theorem fill_spec (h : Sound policy c content) (hfound : Found c key old) {i : ℕ}
    (hchosen : Chosen policy c key i)
    {size : ℕ} (hshort : ∀ j, old = some j → (c.slots j).dirty = true →
      (c.slots j).validBytes ≤ size) :
    Served policy content key size c.leases
      (fill policy key old (window (content key) 0 size) i c) := by
  unfold fill
  obtain ⟨hsound, hkept, hsame, hclean⟩ := freeTarget_spec old h hchosen.lt
  generalize freeTarget old (some i) c = freed at hsound hkept hsame hclean ⊢
  dsimp only
  split
  · next hok =>
    have hfound' := hfound.kept hkept
    have hbehind : ∀ n, size ≤ n → freed.2.pages key n = content key n := by
      intro n hn
      refine hsound.rest key n fun j hj hvalid hdirty hkey => ?_
      have hold := hfound'.only j hj hvalid hkey
      rw [hsame j hold] at hdirty ⊢
      exact (hshort j hold hdirty).trans hn
    have hput := put_eq_self (freed.2.pages key) (content key) hbehind
    have hrefill := hsound.refill hfound' (hchosen.kept hkept) (hclean hok)
      (window (content key) 0 size) (isDirty freed.2 old) fun hnot => by
        rw [hput, hsound.isDirty_rest hfound' hnot]
    rw [hput, Function.update_eq_self] at hrefill
    refine ⟨hrefill, ?_, fun _ => rfl, fun _ j hj => ?_⟩
    · rw [leases_install, invalidateOption_eq]
      exact hkept.leases
    · obtain rfl := Option.some.inj hj
      dsimp only
      rw [memory_install, payload_install, Function.update_self]
      have hread := Window.window_put_self
        ((invalidateSlot i (invalidateOption old freed.2)).payload i) 0
        (window (content key) 0 size)
      rw [Window.length_window] at hread
      refine ⟨?_, hread⟩
      rw [invalidateOption_eq]
      exact hkept.memory.trans hchosen.memory
  · next hfailed =>
    exact ⟨hsound, hkept.leases, fun habsurd => absurd habsurd hfailed,
      fun habsurd => absurd habsurd hfailed⟩

/-- A miss serves the content. -/
theorem missed_spec (h : Sound policy c content)
    (hvalid : ∀ i, old = some i → (c.slots i).valid = true)
    (hfound : Found c key old) {size : ℕ}
    (hshort : ∀ i, old = some i → (c.slots i).validBytes ≤ size) :
    Served policy content key size c.leases (missed policy key size old c) := by
  obtain ⟨halike, hsound, hchosen⟩ := target_spec h hvalid hfound
  unfold missed
  generalize target policy key old c = chosen at halike hsound hchosen ⊢
  dsimp only
  have hkept := ((Kept.of_alike halike).trans (kept_dropClean chosen.1 chosen.2)).trans
    (kept_dropClean old _)
  have hdropped := (hsound.dropClean chosen.1).dropClean old
  generalize dropClean old (dropClean chosen.1 chosen.2) = dropped at hkept hdropped ⊢
  have hread := hdropped.backingRead key size
  have hkept' := hkept.trans (kept_backingRead key size dropped)
  split
  · next hok =>
    have hshort' : ∀ i, old = some i → ((backingRead key size dropped).2.slots i).dirty = true →
        ((backingRead key size dropped).2.slots i).validBytes ≤ size := by
      intro i hi _
      rw [hkept'.validBytes]
      exact hshort i hi
    have hbytes : merged (backingRead key size dropped).2 old (backingRead key size dropped).1.2 =
        window (content key) 0 size := by
      rw [backingRead_ok key size dropped hok, ← pages_backingRead key size dropped]
      exact merged_eq hread (hfound.kept hkept') hshort'
    rw [hbytes]
    cases htarget : chosen.1 with
    | none => exact ⟨hread, hkept'.leases, fun _ => rfl, fun _ i hi => nomatch hi⟩
    | some i =>
      rw [← hkept'.leases]
      exact fill_spec hread (hfound.kept hkept') ((hchosen i htarget).kept hkept') hshort'
  · next hfailed =>
    exact ⟨hread, hkept'.leases, fun habsurd => absurd habsurd hfailed,
      fun habsurd => absurd habsurd hfailed⟩

theorem leases_allocateSlots (c : Cache α) : (allocateSlots c).leases = c.leases := by
  unfold allocateSlots
  split
  · rfl
  · split
    · rfl
    · rfl

/-- A load serves the content. -/
theorem load_spec (h : Sound policy c content) (key : Key) (size : ℕ) :
    Served policy content key size c.leases (load policy key size c) := by
  unfold load
  dsimp only
  rw [← leases_allocateSlots c]
  have hallocated := h.allocateSlots
  generalize allocateSlots c = c at hallocated ⊢
  have hfound := found_find hallocated key
  cases hfind : find policy key c with
  | none =>
    rw [hfind] at hfound
    refine missed_spec hallocated ?_ hfound ?_
    · exact fun i hi => nomatch hi
    · exact fun i hi => nomatch hi
  | some i =>
    obtain ⟨hi, hvalid, hkey⟩ := find_some hallocated hfind
    rw [hfind] at hfound
    dsimp only
    split
    · next hlong =>
      have halike : Alike c (touch policy i c) := alike_touch i c
      refine ⟨hallocated.touch hvalid, halike.leases, fun _ => ?_, fun _ j hj => ?_⟩
      · refine Window.window_congr fun n _ hn => ?_
        rw [← hkey]
        exact hallocated.lines i hi hvalid n (by omega)
      · obtain rfl := Option.some.inj hj
        refine ⟨halike.memory.trans (hallocated.memory_of_valid hvalid), ?_⟩
        rw [halike.payload]
    · next hshort =>
      refine missed_spec hallocated (fun j hj => ?_) hfound fun j hj => ?_
      · obtain rfl := Option.some.inj hj
        exact hvalid
      · obtain rfl := Option.some.inj hj
        omega

/-! ## Leases -/

theorem Sound.repin (h : Sound policy c content) {leases : List (Lease α)}
    (hshows : ∀ lease ∈ leases, ∀ i, lease.slot = some i → window (c.payload i) 0 lease.bytes.length
      = lease.bytes)
    (hfresh : c.memory = false → ∀ lease ∈ leases, lease.slot = none) :
    Sound policy { c with
      slots := fun i => { c.slots i with pins := leases.countP fun lease => lease.slot = some i }
      leases := leases } content := by
  refine ⟨h.lines, h.rest, h.unique, h.direct, h.dirty, fun hmemory => ?_, h.started, h.attempted,
    fun _ => rfl, hshows⟩
  obtain ⟨hslots, hhand⟩ := h.fresh hmemory
  refine ⟨funext fun i => ?_, hhand⟩
  have hzero : (leases.countP fun lease => lease.slot = some i) = 0 := by
    refine List.countP_eq_zero.mpr fun lease hlease hslot => ?_
    rw [hfresh hmemory lease hlease, decide_eq_true_eq] at hslot
    cases hslot
  change { c.slots i with pins := leases.countP fun lease => lease.slot = some i } = ({} : Slot)
  rw [hzero, hslots]

theorem Sound.unleased_of_fresh (h : Sound policy c content) (hmemory : c.memory = false)
    {lease : Lease α}
    (hlease : lease ∈ c.leases) : lease.slot = none := by
  cases hslot : lease.slot with
  | none => rfl
  | some i =>
    refine absurd hslot (h.unleased ?_ hlease)
    rw [(h.fresh hmemory).1]

/-- The pins of a line are its leases. -/
theorem leased_eq (h : Sound policy c content) (lease : Lease α) : c.leased lease = { c with
    slots := fun i =>
      { c.slots i with pins := (lease :: c.leases).countP fun lease => lease.slot = some i }
    leases := lease :: c.leases } := by
  obtain ⟨slot, bytes⟩ := lease
  have hslots : ∀ i, (⟨slot, bytes⟩ :: c.leases : List (Lease α)).countP
    (fun lease => lease.slot = some i) =
      (c.slots i).pins + if slot = some i then 1 else 0 := by
    intro i
    rw [List.countP_cons, ← h.pins i]
    dsimp only
    by_cases hi : slot = some i
    · rw [if_pos (decide_eq_true hi), if_pos hi]
    · rw [if_neg (by rwa [decide_eq_true_eq]), if_neg hi]
  cases slot with
  | none =>
    change ({ c with leases := ⟨none, bytes⟩ :: c.leases } : Cache α) = _
    congr 1
    funext i
    rw [hslots, if_neg (by exact fun habsurd => nomatch habsurd), Nat.add_zero]
  | some j =>
    change ({ c with
      slots := Function.update c.slots j { c.slots j with pins := (c.slots j).pins + 1 }
      leases := ⟨some j, bytes⟩ :: c.leases } : Cache α) = _
    congr 1
    funext i
    rw [hslots]
    by_cases hi : i = j
    · subst hi
      rw [Function.update_self, if_pos rfl]
    · rw [Function.update_of_ne hi, if_neg fun heq => hi (Option.some.inj heq).symm, Nat.add_zero]

theorem Sound.leased (h : Sound policy c content) (lease : Lease α)
    (hline : ∀ i, lease.slot = some i → c.memory = true ∧ window (c.payload i) 0 lease.bytes.length
      = lease.bytes) :
    Sound policy (c.leased lease) content := by
  rw [leased_eq h]
  refine h.repin (fun other hother i hslot => ?_) fun hmemory other hother => ?_
  · rcases List.mem_cons.mp hother with rfl | hother
    · exact (hline i hslot).2
    · exact h.shows other hother i hslot
  · rcases List.mem_cons.mp hother with rfl | hother
    · cases hslot : other.slot with
      | none => rfl
      | some i =>
        have hnot := (hline i hslot).1
        rw [hmemory] at hnot
        cases hnot
    · exact h.unleased_of_fresh hmemory hother

/-- A release takes one pin away. -/
theorem unpin_eq (h : Sound policy c content) (n : ℕ) : unpin n c = { c with
    slots := fun i =>
      { c.slots i with pins := (c.leases.eraseIdx n).countP fun lease => lease.slot = some i }
    leases := c.leases.eraseIdx n } := by
  unfold unpin
  cases hlease : c.leases[n]? with
  | none =>
    rw [List.getElem?_eq_none_iff] at hlease
    rw [List.eraseIdx_of_length_le hlease]
    dsimp only
    have hslots : (fun i =>
        { c.slots i with pins := c.leases.countP fun lease => lease.slot = some i }) = c.slots := by
      funext i
      rw [← h.pins i]
    rw [hslots]
  | some lease =>
    obtain ⟨hn, hget⟩ := List.getElem?_eq_some_iff.mp hlease
    have hpins : ∀ i, (c.slots i).pins
      = ((c.leases.eraseIdx n).countP fun lease => lease.slot = some i) +
        if lease.slot = some i then 1 else 0 := by
      intro i
      rw [h.pins i, ← (List.getElem_cons_eraseIdx_perm hn).countP_eq, List.countP_cons, hget]
      by_cases hi : lease.slot = some i
      · rw [if_pos (decide_eq_true hi), if_pos hi]
      · rw [if_neg (by rwa [decide_eq_true_eq]), if_neg hi]
    obtain ⟨slot, bytes⟩ := lease
    cases slot with
    | none =>
      dsimp only
      congr 1
      funext i
      have hi := hpins i
      rw [if_neg (by exact fun habsurd => nomatch habsurd), Nat.add_zero] at hi
      rw [← hi]
    | some j =>
      change ({ c with
        slots := Function.update c.slots j { c.slots j with pins := (c.slots j).pins - 1 }
        leases := c.leases.eraseIdx n } : Cache α) = _
      congr 1
      funext i
      have hi := hpins i
      dsimp only at hi
      by_cases hij : i = j
      · subst hij
        rw [if_pos rfl] at hi
        rw [Function.update_self, hi, Nat.add_sub_cancel]
      · rw [if_neg fun heq => hij (Option.some.inj heq).symm, Nat.add_zero] at hi
        rw [Function.update_of_ne hij, ← hi]

theorem Sound.unpin (h : Sound policy c content) (n : ℕ) : Sound policy (unpin n c) content := by
  rw [unpin_eq h]
  exact h.repin (fun lease hlease =>
    h.shows lease (List.mem_of_mem_eraseIdx hlease)) fun hmemory lease hlease =>
    h.unleased_of_fresh hmemory (List.mem_of_mem_eraseIdx hlease)

/-! ## Invalidation -/

theorem invalidateIf_spec (h : Sound policy c content) (selects : Slot → Bool) :
    Sound policy (invalidateIf policy selects c).2 content ∧
      (invalidateIf policy selects c).2.leases = c.leases := by
  unfold invalidateIf
  split
  · split
    · split
      · exact ⟨h, rfl⟩
      · next hnone =>
        refine ⟨h.without_clean (fun i => i < c.count ∧ (c.slots i).valid = true ∧
          selects (c.slots i) = true)
          fun i hi => ?_, rfl⟩
        by_contra hdirty
        rw [Bool.not_eq_false] at hdirty
        refine hnone (List.any_eq_true.mpr ⟨i, List.mem_range.mpr hi.1, ?_⟩)
        rw [hi.2.1, hdirty, hi.2.2]
        rfl
    · exact ⟨h, rfl⟩
  · exact ⟨h, rfl⟩

theorem invalidateIf_clears (h : Sound policy c content) {selects : Slot → Bool}
    (hok : (invalidateIf policy selects c).1 = .ok) {i : ℕ} (hi : i < c.count)
    (hselects : selects (c.slots i) = true) :
    ((invalidateIf policy selects c).2.slots i).valid = false := by
  unfold invalidateIf at hok ⊢
  split at hok
  · next hformed =>
    rw [if_pos hformed]
    split at hok
    · next hmemory =>
      rw [if_pos hmemory]
      split at hok
      · cases hok
      · next hnone =>
        rw [if_neg hnone]
        dsimp only
        split
        · rfl
        · next hnot =>
          rw [Bool.eq_false_iff]
          exact fun hvalid => hnot ⟨hi, hvalid, hselects⟩
    · next hmemory =>
      rw [if_neg hmemory, (h.fresh (Bool.eq_false_iff.mpr hmemory)).1]
  · cases hok

theorem count_invalidateIf (selects : Slot → Bool) (c : Cache α) :
    (invalidateIf policy selects c).2.count = c.count := by
  unfold invalidateIf
  split
  · split
    · split
      · rfl
      · rfl
    · rfl
  · rfl

theorem rebind_spec (h : Sound policy c content) (pages : Key → ℕ → α) (writable : Bool) :
    Sound policy (rebind policy pages writable c).2 (if (rebind policy pages writable c).1
      = .ok then pages else content) ∧
      (rebind policy pages writable c).2.leases = c.leases := by
  obtain ⟨hsound, hleases⟩ := invalidateIf_spec h fun _ => true
  unfold rebind invalidateAll
  dsimp only
  split
  · next hok =>
    rw [if_pos rfl]
    refine ⟨hsound.repage (fun i hi hvalid => ?_) fun _ _ _ => rfl, hleases⟩
    rw [count_invalidateIf] at hi
    rw [invalidateIf_clears h hok hi rfl] at hvalid
    cases hvalid
  · exact ⟨hsound, hleases⟩

/-- Only a permitted discard loses content. -/
theorem discardDirty_spec (h : Sound policy c content) (allowed : Bool) :
    Sound policy (discardDirty policy allowed c).2
      (if allowed = true ∧ (discardDirty policy allowed c).1 = .ok then
        (discardDirty policy allowed c).2.pages else content) ∧
      (discardDirty policy allowed c).2.leases = c.leases := by
  unfold discardDirty
  split
  · split
    · next hdirty =>
      cases allowed with
      | false => exact ⟨h, rfl⟩
      | true =>
        refine ⟨h.without (fun i => i < c.count ∧ (c.slots i).dirty = true)
          (fun i hi hnot hvalid n _ => ?_)
          fun _ _ _ => rfl, rfl⟩
        refine (h.rest _ n fun j hj hvj hdj hkj => ?_).symm
        rw [h.unique j i hj hi hvj hvalid hkj] at hdj
        exact absurd ⟨hi, hdj⟩ hnot
    · next hclean =>
      refine ⟨?_, rfl⟩
      have hpages : c.pages = content := by
        funext key n
        refine h.rest key n fun i hi hvalid hdirty _ => absurd ?_ hclean
        rw [h.memory_of_valid hvalid, Bool.true_and]
        exact List.any_eq_true.mpr ⟨i, List.mem_range.mpr hi, hdirty⟩
      dsimp only
      rw [hpages, ite_self]
      exact h
  · refine ⟨?_, rfl⟩
    rw [if_neg fun hboth => nomatch hboth.2]
    exact h

/-! ## Flushes -/

theorem flushFrom_spec (slots : List ℕ) (h : Sound policy c content)
    (hslots : ∀ i ∈ slots, i < c.count) :
    Sound policy (flushFrom slots c).2 content ∧ Kept c (flushFrom slots c).2 ∧
      ((flushFrom slots c).1 = .ok → ∀ i ∈ slots, ((flushFrom slots c).2.slots i).dirty
        = false) := by
  induction slots generalizing c with
  | nil => exact ⟨h, Kept.refl c, fun _ i hi => absurd hi (List.not_mem_nil)⟩
  | cons i rest ih =>
    obtain ⟨hsound, hkept, -, hclean⟩ := flushSlot_spec h (hslots i List.mem_cons_self)
    unfold flushFrom
    dsimp only
    split
    · next hok =>
      obtain ⟨hsound', hkept', hclean'⟩ := ih hsound fun j hj => by
        rw [hkept.count]
        exact hslots j (List.mem_cons_of_mem i hj)
      refine ⟨hsound', hkept.trans hkept', fun hdone j hj => ?_⟩
      rcases List.mem_cons.mp hj with rfl | hj
      · rw [Bool.eq_false_iff]
        intro hdirty
        have hbefore := hkept'.dirty j hdirty
        rw [hclean hok] at hbefore
        cases hbefore
      · exact hclean' hdone j hj
    · next hfailed => exact ⟨hsound, hkept, fun habsurd => absurd habsurd hfailed⟩

theorem flush_spec (h : Sound policy c content) : Sound policy (flush policy c).2 content ∧
    (flush policy c).2.leases = c.leases ∧
    ((flush policy c).1 = .ok → (flush policy c).2.pages = content) := by
  unfold flush
  split
  · split
    · obtain ⟨hsound, hkept, hclean⟩ :=
        flushFrom_spec (List.range c.count) h fun i hi => List.mem_range.mp hi
      refine ⟨hsound, hkept.leases, fun hok => ?_⟩
      funext key n
      refine hsound.rest key n fun i hi _ hdirty _ => ?_
      rw [hkept.count] at hi
      rw [hclean hok i (List.mem_range.mpr hi)] at hdirty
      cases hdirty
    · next hmemory =>
      refine ⟨h, rfl, fun _ => ?_⟩
      funext key n
      exact h.rest key n fun i _ hvalid => absurd (h.memory_of_valid hvalid) hmemory
  · exact ⟨h, rfl, fun habsurd => nomatch habsurd⟩

/-! ## Puts -/

/-- The byte is in a dirty line of its page. -/
def Cache.Pending (c : Cache α) (key : Key) (n : ℕ) : Prop :=
  ∃ i, i < c.count ∧ (c.slots i).valid = true ∧ (c.slots i).dirty = true ∧ (c.slots i).key = key ∧
    n < (c.slots i).validBytes

/-- A put of fewer bytes than are pending has these written first, and the backing completes that
write. -/
def Cache.Taken (c : Cache α) (key : Key) (size : ℕ) : Prop :=
  ∃ i, i < c.count ∧ (c.slots i).valid = true ∧ (c.slots i).dirty = true ∧ (c.slots i).key = key ∧
    size < (c.slots i).validBytes ∧ (flushSlot i c).1 = .ok

theorem Cache.Pending.kept {n : ℕ} (h : c.Pending key n) (hfound : Found c key old)
    (hkept : Kept c d)
    (hsame : ∀ j, old = some j → (d.slots j).valid = (c.slots j).valid ∧ (d.slots j).dirty
      = (c.slots j).dirty) :
    d.Pending key n := by
  obtain ⟨i, hi, hvalid, hdirty, hkey, hn⟩ := h
  obtain ⟨hvalid', hdirty'⟩ := hsame i (hfound.only i hi hvalid hkey)
  refine ⟨i, ?_, hvalid'.trans hvalid, hdirty'.trans hdirty, (hkept.key i).trans hkey, ?_⟩
  · rw [hkept.count]
    exact hi
  · rw [hkept.validBytes]
    exact hn

/-- The content after a put, or after one that failed: nothing but the bytes of the put changes, and
of these none that is pending. -/
structure Stored (policy : Policy) (content : Key → ℕ → α) (key : Key) (source : List α)
    (leases : List (Lease α))
    (pending : ℕ → Prop) (r : Status × Cache α) (content' : Key → ℕ → α) : Prop where
  sound : Sound policy r.2 content'
  leases : r.2.leases = leases
  ok : r.1 = .ok → content' = Function.update content key (put (content key) 0 source)
  failed : ∀ k n, k ≠ key ∨ source.length ≤ n → content' k n = content k n
  pending : r.1 ≠ .ok → ∀ n, pending n → content' key n = content key n

theorem Stored.mono {source : List α} {leases : List (Lease α)} {P Q : ℕ → Prop}
    {r : Status × Cache α}
    {content' : Key → ℕ → α} (h : Stored policy content key source leases Q r content')
    (hpq : ∀ n, P n → Q n) :
    Stored policy content key source leases P r content' :=
  { h with pending := fun hfailed n hn => h.pending hfailed n (hpq n hn) }

theorem put_congr (f g : ℕ → α) (bytes : List α) (h : ∀ n, bytes.length ≤ n → f n = g n) :
    put f 0 bytes = put g 0 bytes := by
  funext n
  unfold put
  rw [if_pos (Nat.zero_le n), if_pos (Nat.zero_le n), Nat.sub_zero]
  by_cases hn : n < bytes.length
  · rw [List.getElem?_eq_getElem hn, Option.getD_some, Option.getD_some]
  · rw [List.getElem?_eq_none (Nat.le_of_not_lt hn), Option.getD_none, Option.getD_none,
      h n (Nat.le_of_not_lt hn)]

theorem put_put (f : ℕ → α) (bytes : List α) : put (put f 0 bytes) 0 bytes = put f 0 bytes :=
  put_congr _ _ bytes fun n hn => Window.put_outside f (Or.inr (by omega))

theorem stored_of_update {source : List α} {leases : List (Lease α)} {pending : ℕ → Prop}
    {d : Cache α} {page : ℕ → α}
    (h : Sound policy d (Function.update content key page)) (hleases : d.leases = leases)
    (hpage : page = put (content key) 0 source) :
    Stored policy content key source leases pending (.ok, d)
      (Function.update content key page) := by
  subst hpage
  refine ⟨h, hleases, fun _ => rfl, fun k n hout => ?_, fun habsurd => absurd rfl habsurd⟩
  by_cases hk : k = key
  · subst hk
    rw [Function.update_self]
    exact Window.put_outside _ (Or.inr (by
      rw [Nat.zero_add]
      exact hout.resolve_left fun hne => hne rfl))
  · rw [Function.update_of_ne hk]

/-- A put has a line to go to, or none. -/
structure Placing (policy : Policy) (c : Cache α) (key : Key) (old target : Option ℕ) (size : ℕ) :
    Prop where
  found : Found c key old
  chosen : ∀ i, target = some i → Chosen policy c key i
  clean : ∀ i, target = some i → old = some i ∨ (c.slots i).dirty = false
  short : ∀ i, old = some i → (c.slots i).dirty = true → (c.slots i).validBytes ≤ size

variable {target : Option ℕ} {source : List α}

theorem Placing.behind (hplacing : Placing policy c key old target source.length)
    (h : Sound policy c content) {n : ℕ}
    (hn : source.length ≤ n) : c.pages key n = content key n := by
  refine h.rest key n fun i hi hvalid hdirty hkey => ?_
  exact (hplacing.short i (hplacing.found.only i hi hvalid hkey) hdirty).trans hn

theorem dropped_eq (old target : Option ℕ) (c : Cache α) :
    invalidateOption target (invalidateOption old c) = c.without fun j => old = some j ∨
      target = some j := by
  rw [← without_without, ← invalidateOption_eq, ← invalidateOption_eq]

/-- The pending bytes of a page. -/
def covered (c : Cache α) (old : Option ℕ) (n : ℕ) : Bool :=
  old.any fun i => (c.slots i).dirty && n < (c.slots i).validBytes

theorem Found.covered (h : Found c key old) {i n : ℕ} (hi : i < c.count)
    (hvalid : (c.slots i).valid = true) (hkey : (c.slots i).key = key)
    (hdirty : (c.slots i).dirty = true) (hn : n < (c.slots i).validBytes) :
    covered c old n = true := by
  rw [h.only i hi hvalid hkey]
  exact Bool.and_eq_true_iff.mpr ⟨hdirty, decide_eq_true hn⟩

theorem restored_eq (slot : Option ℕ) (c d : Cache α) : restored slot (tagOf c slot) d =
    { d with slots := fun j => if slot = some j then c.slots j else d.slots j } := by
  cases slot with
  | none =>
    change d = _
    simp only [reduceCtorEq, if_false]
  | some i =>
    change d.withSlot i (c.slots i) = _
    unfold Cache.withSlot
    congr 1
    funext j
    by_cases hij : j = i
    · subst hij
      rw [Function.update_self, if_pos rfl]
    · rw [Function.update_of_ne hij, if_neg fun heq => hij (Option.some.inj heq).symm]

theorem isDirty_eq_tagOf (c : Cache α) (slot : Option ℕ) :
    isDirty c slot = (tagOf c slot).dirty := by
  cases slot with
  | none => rfl
  | some i => rfl

/-- After a write that failed the tags are as they were, but for those of a page that may have
changed. -/
theorem undone_eq (c : Cache α) (old target : Option ℕ) (keeps : Bool) (dropped : Cache α)
    {first : Cache α}
    (hdropped : dropped.slots = (c.without fun j => old = some j ∨ target = some j).slots)
    (hfirst : first = if keeps then restored old (tagOf c old) dropped else dropped) :
    (if target ≠ old then restored target (tagOf c target) first else first) =
      { dropped with slots := (c.without fun j => old = some j ∧ keeps = false).slots } := by
  have hfirst' : first =
      { dropped with slots := fun j => if keeps = true ∧ old = some j then c.slots j
        else dropped.slots j } := by
    cases keeps with
    | true =>
      rw [hfirst, if_pos rfl, restored_eq]
      simp only [true_and]
    | false =>
      rw [hfirst, if_neg Bool.false_ne_true]
      simp only [Bool.false_eq_true, false_and, if_false]
  have hlast : (if target ≠ old then restored target (tagOf c target) first else first) =
      { dropped with slots := fun j => if target ≠ old ∧ target = some j then c.slots j
        else first.slots j } := by
    split
    · next hne =>
      rw [restored_eq, hfirst']
      simp only [ne_eq, hne, not_false_eq_true, true_and]
    · next heq =>
      simp only [heq, false_and, if_false]
      rw [hfirst']
  rw [hlast, hfirst']
  congr 1
  funext j
  dsimp only
  rw [hdropped]
  unfold Cache.without
  dsimp only
  by_cases hold : old = some j
  · subst hold
    cases keeps with
    | true => simp
    | false =>
      by_cases htarget : target = some j
      · subst htarget
        simp
      · simp [htarget]
  · by_cases htarget : target = some j
    · subst htarget
      have hne : some j ≠ old := fun heq => hold heq.symm
      simp [hold, hne]
    · simp [hold, htarget]

/-- A failed put keeps what was pending. -/
theorem failed_spec (h : Sound policy c content)
    (hplacing : Placing policy c key old target source.length) (page : ℕ → α)
    (hpage : ∀ n, source.length ≤ n → page n = c.pages key n) (keeps : Bool)
    (hkeeps : keeps = true → isDirty c old = true ∨ page = c.pages key)
    (hdirty : isDirty c old = true → keeps = true)
    {status : Status} (hstatus : status ≠ .ok) (replies : List (Reply α)) : ∃ content',
      Stored policy content key source c.leases (c.Pending key) (status,
        { c.without fun j => old = some j ∧ keeps = false with
        pages := Function.update c.pages key page, replies := replies }) content' := by
  have hclean : ∀ j, (old = some j ∧ keeps = false) → (c.slots j).dirty = false := by
    rintro j ⟨rfl, hlost⟩
    rw [Bool.eq_false_iff]
    intro hdirtyj
    rw [hdirty hdirtyj] at hlost
    cases hlost
  refine ⟨Function.update content key fun n => if covered c old n then content key n else page n,
    (h.without_clean _ hclean).repage (fun i hi hvalid n hn => ?_) fun key' n hcover => ?_, rfl,
    fun habsurd => absurd habsurd hstatus, fun k n hout => ?_, fun _ n hpending => ?_⟩
  · obtain ⟨hnot, hslot⟩ := valid_without hvalid
    rw [hslot] at hvalid hn ⊢
    by_cases hkey : (c.slots i).key = key
    · have hold := hplacing.found.only i hi hvalid hkey
      rw [hkey, Function.update_self]
      split
      · rfl
      · next hopen =>
        -- a clean line is still there only when nothing was written
        have hnotDirty : isDirty c old = false := by
          rw [hold, Bool.eq_false_iff]
          intro hdirtyi
          exact hopen (hplacing.found.covered hi hvalid hkey hdirtyi hn)
        have hkept : keeps = true := by
          rw [← Bool.not_eq_false]
          exact fun hlost => hnot ⟨hold, hlost⟩
        rcases hkeeps hkept with hdirtyi | hsame
        · rw [hnotDirty] at hdirtyi
          cases hdirtyi
        · rw [hsame, h.isDirty_rest hplacing.found hnotDirty]
    · rw [Function.update_of_ne hkey]
  · by_cases hkey : key' = key
    · subst hkey
      rw [Function.update_self, Function.update_self, if_neg]
      intro hcovered
      obtain ⟨i, hold, hboth⟩ := (Option.any_eq_true _ _).mp hcovered
      rw [Bool.and_eq_true, decide_eq_true_eq] at hboth
      obtain ⟨hi, hkeyi⟩ := hplacing.found.at_key i hold
      have hle := hcover i hi
      rw [without_other _ fun hlost => by
        rw [hclean i hlost] at hboth
        exact Bool.false_ne_true hboth.1] at hle
      exact absurd hboth.2 (Nat.not_lt.mpr (hle (h.dirty i hboth.1) hboth.1 hkeyi))
    · rw [Function.update_of_ne hkey, Function.update_of_ne hkey]
      exact (h.without_clean _ hclean).rest key' n hcover
  · by_cases hk : k = key
    · subst hk
      rw [Function.update_self]
      split
      · rfl
      · have hn := hout.resolve_left fun hne => hne rfl
        rw [hpage n hn, hplacing.behind h hn]
    · rw [Function.update_of_ne hk]
  · obtain ⟨i, hi, hvalid, hdirtyi, hkey, hn⟩ := hpending
    have hcovered := hplacing.found.covered hi hvalid hkey hdirtyi hn
    rw [Function.update_self, if_pos hcovered]

/-- A put that writes through. -/
theorem writeThrough_spec (h : Sound policy c content)
    (hplacing : Placing policy c key old target source.length) :
    ∃ content', Stored policy content key source c.leases (c.Pending key)
      (writeThrough policy key source old target c)
      content' := by
  unfold writeThrough
  rw [dropped_eq]
  dsimp only
  have hdropped := h.without_page hplacing.found (fun j => old = some j ∨ target = some j)
    (fun j hj => Or.inl hj)
    fun j hj => by
      rcases hj with hj | hj
      · exact Or.inl hj
      · exact hplacing.clean j hj
  have hbehind : put (c.pages key) 0 source = put (content key) 0 source :=
    put_congr _ _ source fun n hn => hplacing.behind h hn
  rw [write_snd]
  split
  · next hok =>
    have hnone : ∀ i, i < c.count →
      ((c.without fun j => old = some j ∨ target = some j).slots i).valid = true →
        ((c.without fun j => old = some j ∨ target = some j).slots i).key ≠ key := by
      intro i hi hvalid hkey
      obtain ⟨hnot, hslot⟩ := valid_without hvalid
      rw [hslot] at hvalid hkey
      exact hnot (Or.inl (hplacing.found.only i hi hvalid hkey))
    have hwritten : Sound policy { c.without fun j => old = some j ∨ target = some j with
        pages := Function.update c.pages key (put (c.pages key) 0 source)
        replies := c.replies.tail } (Function.update content key (put (c.pages key) 0 source)) := by
      refine hdropped.repage (fun i hi hvalid n _ => ?_) fun key' n hcover => ?_
      · rw [Function.update_of_ne (hnone i hi hvalid), Function.update_of_ne (hnone i hi hvalid)]
      · by_cases hkey : key' = key
        · subst hkey
          rw [Function.update_self, Function.update_self]
        · have hrest := hdropped.rest key' n hcover
          rw [Function.update_of_ne hkey] at hrest
          rw [Function.update_of_ne hkey, Function.update_of_ne hkey]
          exact hrest
    rw [written_ok hok]
    cases target with
    | none => exact ⟨_, stored_of_update hwritten rfl hbehind⟩
    | some i =>
      have hchosen := (hplacing.chosen i rfl).kept
        (kept_without (fun j => old = some j ∨ some i = some j) c)
      have hinvalid : ((c.without fun j => old = some j ∨ some i = some j).slots i).valid
          = false := by
        rw [without_selected _ (Or.inr rfl)]
      have hinstalled := hwritten.install ⟨hchosen.lt, hchosen.unpinned, hchosen.direct,
        hchosen.memory⟩ hinvalid hnone
        source false fun _ => by
          dsimp only
          rw [Function.update_self, put_put]
      dsimp only at hinstalled
      rw [Function.update_self, put_put, Function.update_idem] at hinstalled
      exact ⟨_, stored_of_update hinstalled (leases_install ..) hbehind⟩
  · next hfailed =>
    have hundone := undone_eq c old target
      ((tagOf c old).dirty || (write key source (c.without fun j => old = some j ∨
        target = some j)).1.2)
      { c.without fun j => old = some j ∨ target = some j with
        pages := Function.update c.pages key
          (written key source (c.without fun j => old = some j ∨ target = some j))
        replies := c.replies.tail } rfl rfl
    refine (congrArg (fun d => ∃ content', Stored policy content key source c.leases (c.Pending key)
      (_, d) content')
      hundone).mpr ?_
    refine failed_spec h hplacing
      (written key source (c.without fun j => old = some j ∨ target = some j))
      (fun n hn => written_outside _ _ _ hn) _ (fun hkeeps => ?_) (fun hdirty => ?_) hfailed _
    · rw [isDirty_eq_tagOf]
      rcases Bool.or_eq_true _ _ ▸ hkeeps with hdirty | hpromise
      · exact Or.inl hdirty
      · exact Or.inr (written_promised hfailed hpromise)
    · rw [isDirty_eq_tagOf] at hdirty
      rw [hdirty, Bool.true_or]

theorem place_spec (h : Sound policy c content)
    (hplacing : Placing policy c key old target source.length) :
    ∃ content', Stored policy content key source c.leases (c.Pending key)
      (place policy key source old target c)
      content' := by
  cases target with
  | none => exact writeThrough_spec h hplacing
  | some i =>
    unfold place
    dsimp only
    split
    · have hrefill := h.refill hplacing.found (hplacing.chosen i rfl)
        (hplacing.clean i rfl) source true
        fun habsurd => nomatch habsurd
      refine ⟨_, stored_of_update hrefill ?_ (put_congr _ _ source fun n hn =>
        hplacing.behind h hn)⟩
      rw [leases_install, invalidateOption_eq]
      rfl
    · exact writeThrough_spec h hplacing

theorem stored_unchanged {r : Status × Cache α} {leases : List (Lease α)} {pending : ℕ → Prop}
    (hsound : Sound policy r.2 content) (hleases : r.2.leases = leases) (hfailed : r.1 ≠ .ok) :
    ∃ content', Stored policy content key source leases pending r content' :=
  ⟨content, hsound, hleases, fun habsurd => absurd habsurd hfailed, fun _ _ _ => rfl,
    fun _ _ _ => rfl⟩

/-- A put of a page whose suffix is kept. -/
theorem putFound_spec (h : Sound policy c content)
    (hvalid : ∀ i, old = some i → (c.slots i).valid = true)
    (hfound : Found c key old)
    (hshort : ∀ i, old = some i → (c.slots i).dirty = true →
      (c.slots i).validBytes ≤ source.length) :
    ∃ content', Stored policy content key source c.leases (c.Pending key)
      (putFound policy key source old c)
      content' := by
  obtain ⟨halike, hsound, hchosen⟩ := target_spec h hvalid hfound
  unfold putFound
  generalize PageCache.target policy key old c = chosen at halike hsound hchosen ⊢
  obtain ⟨slot, c₁⟩ := chosen
  dsimp only at halike hsound hchosen ⊢
  have hkept₁ := Kept.of_alike halike
  have hpending₁ : ∀ n, c.Pending key n → c₁.Pending key n := fun n hn =>
    hn.kept hfound hkept₁ fun j _ => ⟨halike.valid j, halike.dirty j⟩
  have hshort₁ : ∀ i, old = some i → (c₁.slots i).dirty = true →
      (c₁.slots i).validBytes ≤ source.length := by
    intro i hi hdirty
    rw [halike.validBytes]
    exact hshort i hi (hkept₁.dirty i hdirty)
  cases slot with
  | none =>
    rw [freeTarget, if_pos rfl, ← hkept₁.leases]
    have hplacing : Placing policy c₁ key old none source.length := by
      refine ⟨hfound.kept hkept₁, ?_, ?_, hshort₁⟩
      · exact fun i hi => nomatch hi
      · exact fun i hi => nomatch hi
    obtain ⟨content', hstored⟩ := place_spec hsound hplacing
    exact ⟨content', hstored.mono hpending₁⟩
  | some i =>
    have hchosen₁ := (hchosen i rfl).kept hkept₁
    obtain ⟨hsound₂, hkept₂, hsame, hclean⟩ := freeTarget_spec old hsound hchosen₁.lt
    generalize freeTarget old (some i) c₁ = freed at hsound₂ hkept₂ hsame hclean ⊢
    rw [← hkept₁.leases, ← hkept₂.leases]
    split
    · next hok =>
      have hplacing : Placing policy freed.2 key old (some i) source.length := by
        refine ⟨(hfound.kept hkept₁).kept hkept₂, fun j hj => ?_, fun j hj => ?_,
          fun j hj hdirty => ?_⟩
        · obtain rfl := Option.some.inj hj
          exact hchosen₁.kept hkept₂
        · obtain rfl := Option.some.inj hj
          exact hclean hok
        · rw [hsame j hj] at hdirty ⊢
          exact hshort₁ j hj hdirty
      obtain ⟨content', hstored⟩ := place_spec hsound₂ hplacing
      refine ⟨content', hstored.mono fun n hn => ?_⟩
      -- the line written to make room is not the page's own
      refine (hpending₁ n hn).kept (hfound.kept hkept₁) hkept₂ fun j hj => ?_
      rw [hsame j hj]
      exact ⟨rfl, rfl⟩
    · next hfailed => exact stored_unchanged hsound₂ rfl hfailed

theorem keepSuffix_spec (h : Sound policy c content)
    (hat : ∀ i, old = some i → i < c.count) (size : ℕ) :
    Sound policy (keepSuffix size old c).2 content ∧ Kept c (keepSuffix size old c).2 ∧
      (∀ i, ((keepSuffix size old c).2.slots i).valid = (c.slots i).valid) ∧
      ((keepSuffix size old c).1 = .ok → ∀ i, old = some i →
        ((keepSuffix size old c).2.slots i).dirty = true →
        ((keepSuffix size old c).2.slots i).validBytes ≤ size) := by
  cases old with
  | none => exact ⟨h, Kept.refl c, fun _ => rfl, fun _ i hi => nomatch hi⟩
  | some i =>
    unfold keepSuffix
    dsimp only
    split
    · obtain ⟨hsound, hkept, -, hclean⟩ := flushSlot_spec h (hat i rfl)
      refine ⟨hsound, hkept, valid_flushSlot i c, fun hok j hj hdirty => ?_⟩
      obtain rfl := Option.some.inj hj
      rw [hclean hok] at hdirty
      cases hdirty
    · next hnot =>
      refine ⟨h, Kept.refl c, fun _ => rfl, fun _ j hj hdirty => ?_⟩
      obtain rfl := Option.some.inj hj
      by_contra hlong
      exact hnot ⟨hdirty, Nat.lt_of_not_le hlong⟩

/-- A cache that holds anything has its slots. -/
theorem allocateSlots_pending {n : ℕ} (h : Sound policy c content) (hpending : c.Pending key n) :
    allocateSlots c = c := by
  obtain ⟨i, -, hvalid, -⟩ := hpending
  unfold allocateSlots
  rw [if_pos (Or.inr (h.attempted (h.memory_of_valid hvalid)))]

/-- What is pending is so behind `keepSuffix` too, unless its write was completed. -/
theorem keepSuffix_pending {n size : ℕ} (hfound : Found c key old) (hpending : c.Pending key n)
    (htaken : ¬c.Taken key size) (hok : (keepSuffix size old c).1 = .ok) :
    (keepSuffix size old c).2.Pending key n := by
  cases old with
  | none => exact hpending
  | some i =>
    unfold keepSuffix at hok ⊢
    dsimp only at hok ⊢
    split at hok
    · next hlong =>
      obtain ⟨j, hj, hvalid, hdirty, hkey, hn⟩ := hpending
      obtain rfl := Option.some.inj (hfound.only j hj hvalid hkey)
      exact absurd ⟨i, hj, hvalid, hdirty, hkey, hlong.2, hok⟩ htaken
    · next hshort =>
      rw [if_neg hshort]
      exact hpending

/-- A put stores its bytes, or loses none pending. -/
theorem putPage_spec (h : Sound policy c content) (key : Key) (source : List α) :
    ∃ content', Stored policy content key source c.leases (fun n => c.Pending key n ∧
      ¬c.Taken key source.length)
      (putPage policy key source c) content' := by
  unfold putPage
  split
  · dsimp only
    rw [← leases_allocateSlots c]
    have hallocated := h.allocateSlots
    have hpending : ∀ n, c.Pending key n ∧ ¬c.Taken key source.length →
        (allocateSlots c).Pending key n ∧ ¬(allocateSlots c).Taken key source.length := by
      intro n hn
      rw [allocateSlots_pending h hn.1]
      exact hn
    generalize allocateSlots c = c₁ at hallocated hpending ⊢
    have hfound := found_find hallocated key
    have hvalid : ∀ i, find policy key c₁ = some i → (c₁.slots i).valid = true := fun i hi =>
      (find_some hallocated hi).2.1
    generalize find policy key c₁ = old at hfound hvalid ⊢
    obtain ⟨hsound, hkept, hsame, hshort⟩ :=
      keepSuffix_spec hallocated (fun i hi => (hfound.at_key i hi).1) source.length
    rw [← hkept.leases]
    split
    · next hok =>
      obtain ⟨content', hstored⟩ :=
        putFound_spec hsound (fun i hi => (hsame i).trans (hvalid i hi))
          (hfound.kept hkept) (hshort hok)
      refine ⟨content', hstored.mono fun n hn => ?_⟩
      obtain ⟨hpending₁, htaken⟩ := hpending n hn
      exact keepSuffix_pending hfound hpending₁ htaken hok
    · next hfailed => exact stored_unchanged hsound rfl hfailed
  · exact stored_unchanged h rfl fun habsurd => nomatch habsurd

end PineForge.PageCache
