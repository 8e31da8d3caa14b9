import Mathlib
import PineForge.PageCache.Lines

/-!
# Moves of a line

What a call is made of: tags are dropped, a dirty line is written to the backing, a page is put into
a free line. Each move keeps `Sound` with the content it leaves, and `Kept` says what it does not
touch.
-/

namespace PineForge.PageCache

open Window (put window)

variable {α : Type} {policy : Policy} {c d : Cache α} {content : Key → ℕ → α} {key : Key}
    {old : Option ℕ}

/-- No line moves or becomes valid. -/
structure Kept (c d : Cache α) : Prop where
  count : d.count = c.count
  memory : d.memory = c.memory
  payload : d.payload = c.payload
  leases : d.leases = c.leases
  key : ∀ i, (d.slots i).key = (c.slots i).key
  validBytes : ∀ i, (d.slots i).validBytes = (c.slots i).validBytes
  pins : ∀ i, (d.slots i).pins = (c.slots i).pins
  valid : ∀ i, (d.slots i).valid = true → (c.slots i).valid = true
  dirty : ∀ i, (d.slots i).dirty = true → (c.slots i).dirty = true

namespace Kept

theorem refl (c : Cache α) : Kept c c :=
  ⟨rfl, rfl, rfl, rfl, fun _ => rfl, fun _ => rfl, fun _ => rfl, fun _ => id, fun _ => id⟩

theorem trans {e : Cache α} (h : Kept c d) (h' : Kept d e) : Kept c e :=
  ⟨h'.count.trans h.count, h'.memory.trans h.memory, h'.payload.trans h.payload,
    h'.leases.trans h.leases, fun i => (h'.key i).trans (h.key i),
    fun i => (h'.validBytes i).trans (h.validBytes i), fun i => (h'.pins i).trans (h.pins i),
    fun i hv => h.valid i (h'.valid i hv), fun i hd => h.dirty i (h'.dirty i hd)⟩

theorem of_alike (h : Alike c d) : Kept c d :=
  ⟨h.count, h.memory, h.payload, h.leases, h.key, h.validBytes, h.pins,
    fun i hv => (h.valid i).symm.trans hv,
    fun i hd => (h.dirty i).symm.trans hd⟩

end Kept

/-- The line of a page, if it has one. -/
structure Found (c : Cache α) (key : Key) (old : Option ℕ) : Prop where
  at_key : ∀ i, old = some i → i < c.count ∧ (c.slots i).key = key
  only : ∀ i, i < c.count → (c.slots i).valid = true → (c.slots i).key = key → old = some i

theorem Found.kept (h : Found c key old) (hkept : Kept c d) : Found d key old := by
  constructor
  · intro i hi
    obtain ⟨hlt, hkey⟩ := h.at_key i hi
    exact ⟨hkept.count ▸ hlt, (hkept.key i).trans hkey⟩
  · intro i hi hvalid hkey
    exact h.only i (hkept.count ▸ hi) (hkept.valid i hvalid) ((hkept.key i).symm.trans hkey)

theorem Chosen.kept {i : ℕ} (h : Chosen policy c key i) (hkept : Kept c d) :
    Chosen policy d key i := by
  refine ⟨?_, ?_, ?_, ?_⟩
  · rw [hkept.count]
    exact h.lt
  · rw [hkept.pins]
    exact h.unpinned
  · intro hdirect
    rw [hkept.count]
    exact h.direct hdirect
  · rw [hkept.memory]
    exact h.memory

theorem found_find (h : Sound policy c content) (key : Key) : Found c key (find policy key c) := by
  constructor
  · intro i hi
    obtain ⟨hlt, -, hkey⟩ := find_some h hi
    exact ⟨hlt, hkey⟩
  · intro i hi hvalid hkey
    cases hfind : find policy key c with
    | none => exact absurd hkey (find_none h hfind hi hvalid)
    | some j =>
      obtain ⟨hlt, hvj, hkj⟩ := find_some h hfind
      rw [h.unique j i hlt hi hvj hvalid (hkj.trans hkey.symm)]

theorem target_spec (h : Sound policy c content)
    (hvalid : ∀ i, old = some i → (c.slots i).valid = true)
    (hfound : Found c key old) : Alike c (target policy key old c).2 ∧
    Sound policy (target policy key old c).2 content ∧
      ∀ i, (target policy key old c).1 = some i → Chosen policy c key i := by
  cases old with
  | none => exact choose_spec h key
  | some j =>
    unfold target
    dsimp only
    split
    · next hpins =>
      refine ⟨Alike.refl c, h, fun i hi => ?_⟩
      obtain rfl := Option.some.inj hi
      obtain ⟨hlt, hkey⟩ := hfound.at_key j rfl
      refine ⟨hlt, hpins, fun hdirect => ?_, h.memory_of_valid (hvalid j rfl)⟩
      rw [← hkey]
      exact h.direct hdirect j hlt (hvalid j rfl)
    · exact choose_spec h key

/-! ## Another backing -/

theorem Sound.repage (h : Sound policy c content) {pages content' : Key → ℕ → α} {writable : Bool}
    {replies : List (Reply α)}
    (hlines : ∀ i, i < c.count → (c.slots i).valid = true → ∀ n, n < (c.slots i).validBytes →
      content (c.slots i).key n = content' (c.slots i).key n)
    (hrest : ∀ key n, (∀ i, i < c.count → (c.slots i).valid = true → (c.slots i).dirty = true →
      (c.slots i).key = key →
      (c.slots i).validBytes ≤ n) → pages key n = content' key n) :
    Sound policy { c with pages := pages, writable := writable, replies := replies } content' := by
  refine ⟨?_, hrest, h.unique, h.direct, h.dirty, h.fresh, h.started, h.attempted, h.pins, h.shows⟩
  intro i hi hvalid n hn
  exact (h.lines i hi hvalid n hn).trans (hlines i hi hvalid n hn)

theorem Sound.withReplies (h : Sound policy c content) (replies : List (Reply α)) :
    Sound policy { c with replies := replies } content :=
  h.repage (fun _ _ _ _ _ => rfl) h.rest

theorem nextReply_snd (requested : ℕ) (key : Key) (c : Cache α) :
    (nextReply requested key c).2 = { c with replies := c.replies.tail } := by
  unfold nextReply
  cases hreplies : c.replies with
  | nil =>
    dsimp only [List.tail_nil]
    rw [← hreplies]
  | cons reply replies => rfl

theorem Sound.backingRead (h : Sound policy c content) (key : Key) (size : ℕ) :
    Sound policy (backingRead key size c).2 content := by
  change Sound policy (nextReply size key c).2 content
  rw [nextReply_snd]
  exact h.withReplies _

theorem kept_backingRead (key : Key) (size : ℕ) (c : Cache α) :
    Kept c (backingRead key size c).2 := by
  change Kept c (nextReply size key c).2
  rw [nextReply_snd]
  exact ⟨rfl, rfl, rfl, rfl, fun _ => rfl, fun _ => rfl, fun _ => rfl, fun _ => id, fun _ => id⟩

theorem pages_backingRead (key : Key) (size : ℕ) (c : Cache α) :
    (backingRead key size c).2.pages = c.pages := by
  change (nextReply size key c).2.pages = c.pages
  rw [nextReply_snd]

theorem backingRead_ok (key : Key) (size : ℕ) (c : Cache α)
    (h : (backingRead key size c).1.1 = .ok) :
    (backingRead key size c).1.2 = window (c.pages key) 0 size := by
  change (normalize (nextReply size key c).1 size).1 = .ok at h
  change (if (normalize (nextReply size key c).1 size).1 = .ok then _ else _) = _
  rw [if_pos h]

/-- What a write leaves on its page. -/
def written (key : Key) (bytes : List α) (c : Cache α) : ℕ → α :=
  pageAfter (write key bytes c).1 (nextReply bytes.length key c).1.left (c.pages key) bytes

theorem write_snd (key : Key) (bytes : List α) (c : Cache α) : (write key bytes c).2 =
    { c with pages := Function.update c.pages key (written key bytes c),
             replies := c.replies.tail } := by
  change (nextReply bytes.length key c).2.withPage key _ = _
  rw [nextReply_snd]
  rfl

theorem written_ok {key : Key} {bytes : List α} {c : Cache α} (h : (write key bytes c).1.1 = .ok) :
    written key bytes c = put (c.pages key) 0 bytes := by
  unfold written pageAfter
  rw [if_pos h]

theorem written_promised {key : Key} {bytes : List α} {c : Cache α}
    (h : (write key bytes c).1.1 ≠ .ok)
    (hpromise : (write key bytes c).1.2 = true) : written key bytes c = c.pages key := by
  unfold written pageAfter
  rw [if_neg h, if_pos hpromise]

theorem written_outside (key : Key) (bytes : List α) (c : Cache α) {n : ℕ} (h : bytes.length ≤ n) :
    written key bytes c n = c.pages key n := by
  unfold written pageAfter
  split
  · exact Window.put_outside _ (Or.inr (by omega))
  · split
    · rfl
    · exact if_neg (by omega)

/-! ## Dropped tags -/

/-- The cache without some of its lines. -/
def Cache.without (c : Cache α) (selects : ℕ → Prop) [DecidablePred selects] : Cache α :=
  { c with slots := fun i => if selects i then { c.slots i with valid := false, dirty := false }
    else c.slots i }

section Without

variable (selects : ℕ → Prop) [DecidablePred selects]

theorem without_selected {i : ℕ} (h : selects i) :
    (c.without selects).slots i = { c.slots i with valid := false, dirty := false } := if_pos h

theorem without_other {i : ℕ} (h : ¬selects i) : (c.without selects).slots i = c.slots i := if_neg h

theorem kept_without (c : Cache α) : Kept c (c.without selects) := by
  refine ⟨rfl, rfl, rfl, rfl, fun i => ?_, fun i => ?_, fun i => ?_, fun i => ?_, fun i => ?_⟩ <;>
    by_cases hi : selects i
  · rw [without_selected selects hi]
  · rw [without_other selects hi]
  · rw [without_selected selects hi]
  · rw [without_other selects hi]
  · rw [without_selected selects hi]
  · rw [without_other selects hi]
  · rw [without_selected selects hi]
    exact fun habsurd => nomatch habsurd
  · rw [without_other selects hi]
    exact id
  · rw [without_selected selects hi]
    exact fun habsurd => nomatch habsurd
  · rw [without_other selects hi]
    exact id

variable {selects}

theorem valid_without {i : ℕ} (h : ((c.without selects).slots i).valid = true) :
    ¬selects i ∧ (c.without selects).slots i = c.slots i := by
  by_cases hi : selects i
  · rw [without_selected selects hi] at h
    cases h
  · exact ⟨hi, without_other selects hi⟩

variable (selects) in
/-- Lines may be dropped that say nothing new. -/
theorem Sound.without (h : Sound policy c content) {content' : Key → ℕ → α}
    (hlines : ∀ i, i < c.count → ¬selects i → (c.slots i).valid = true →
      ∀ n, n < (c.slots i).validBytes →
      content (c.slots i).key n = content' (c.slots i).key n)
    (hrest : ∀ key n, (∀ i, i < c.count → ¬selects i → (c.slots i).valid = true →
      (c.slots i).dirty = true →
      (c.slots i).key = key → (c.slots i).validBytes ≤ n) → c.pages key n = content' key n) :
    Sound policy (c.without selects) content' := by
  have hkept := kept_without selects c
  refine ⟨?_, ?_, ?_, ?_, ?_, ?_, h.started, h.attempted, ?_, h.shows⟩
  · intro i hi hvalid n hn
    obtain ⟨hnot, hslot⟩ := valid_without hvalid
    rw [hslot] at hvalid hn ⊢
    exact (h.lines i hi hvalid n hn).trans (hlines i hi hnot hvalid n hn)
  · intro key n hcover
    refine hrest key n fun i hi hnot hvalid hdirty hkey => ?_
    have hcovered := hcover i hi
    rw [without_other selects hnot] at hcovered
    exact hcovered hvalid hdirty hkey
  · intro i j hi hj hvi hvj hkey
    rw [hkept.key, hkept.key] at hkey
    exact h.unique i j hi hj (hkept.valid i hvi) (hkept.valid j hvj) hkey
  · intro hdirect i hi hvalid
    rw [hkept.key]
    exact h.direct hdirect i hi (hkept.valid i hvalid)
  · intro i hdirty
    by_cases hi : selects i
    · rw [without_selected selects hi] at hdirty
      cases hdirty
    · rw [without_other selects hi] at hdirty ⊢
      exact h.dirty i hdirty
  · intro hmemory
    obtain ⟨hslots, hhand⟩ := h.fresh hmemory
    refine ⟨funext fun i => ?_, hhand⟩
    change (if selects i then { c.slots i with valid := false, dirty := false } else c.slots i) = {}
    rw [hslots]
    split
    · rfl
    · rfl
  · intro i
    rw [hkept.pins]
    exact h.pins i

variable (selects) in
theorem Sound.without_clean (h : Sound policy c content)
    (hclean : ∀ i, selects i → (c.slots i).dirty = false) :
    Sound policy (c.without selects) content := by
  refine h.without _ (fun _ _ _ _ _ _ => rfl) fun key n hcover =>
    h.rest key n fun i hi hvalid hdirty hkey => ?_
  refine hcover i hi (fun hselected => ?_) hvalid hdirty hkey
  rw [hclean i hselected] at hdirty
  cases hdirty

theorem Sound.without_page (h : Sound policy c content) (hfound : Found c key old)
    (selects : ℕ → Prop) [DecidablePred selects]
    (hold : ∀ i, old = some i → selects i)
    (hclean : ∀ i, selects i → old = some i ∨ (c.slots i).dirty = false) :
    Sound policy (c.without selects) (Function.update content key (c.pages key)) := by
  refine h.without _ (fun i hi hnot hvalid n hn => ?_) fun key' n hcover => ?_
  · rw [Function.update_of_ne]
    intro hkey
    exact hnot (hold i (hfound.only i hi hvalid hkey))
  · by_cases hkey' : key' = key
    · subst hkey'
      rw [Function.update_self]
    · rw [Function.update_of_ne hkey']
      refine h.rest key' n fun i hi hvalid hdirty hkey => ?_
      refine hcover i hi (fun hselected => ?_) hvalid hdirty hkey
      rcases hclean i hselected with hi | hi
      · exact hkey' (hkey.symm.trans (hfound.at_key i hi).2)
      · rw [hi] at hdirty
        cases hdirty

end Without

theorem invalidateOption_eq (slot : Option ℕ) (c : Cache α) :
    invalidateOption slot c = c.without fun i => slot = some i := by
  cases slot with
  | none =>
    change c = { c with slots := fun i => if none = some i then
      { c.slots i with valid := false, dirty := false } else c.slots i }
    simp only [reduceCtorEq, if_false]
  | some j =>
    change c.withSlot j _ = _
    unfold Cache.withSlot Cache.without
    congr 1
    funext i
    by_cases hi : i = j
    · subst hi
      rw [Function.update_self, if_pos rfl]
    · rw [Function.update_of_ne hi, if_neg fun heq => hi (Option.some.inj heq).symm]

theorem without_without (c : Cache α) (P Q : ℕ → Prop) [DecidablePred P] [DecidablePred Q] :
    (c.without P).without Q = c.without fun i => P i ∨ Q i := by
  unfold Cache.without
  congr 1
  funext i
  dsimp only
  by_cases hp : P i
  · by_cases hq : Q i
    · rw [if_pos hq, if_pos hp, if_pos (Or.inl hp)]
    · rw [if_neg hq, if_pos hp, if_pos (Or.inl hp)]
  · by_cases hq : Q i
    · rw [if_pos hq, if_neg hp, if_pos (Or.inr hq)]
    · rw [if_neg hq, if_neg hp, if_neg (not_or.mpr ⟨hp, hq⟩)]

/-- Dropping a clean line. -/
theorem dropClean_eq (slot : Option ℕ) (c : Cache α) :
    dropClean slot c = c.without fun i => slot = some i ∧ (c.slots i).dirty = false := by
  unfold dropClean
  cases slot with
  | none =>
    rw [show isDirty c none = false from rfl, if_neg Bool.false_ne_true, invalidateOption_eq]
    unfold Cache.without
    simp only [reduceCtorEq, if_false, false_and]
  | some j =>
    have hany : isDirty c (some j) = (c.slots j).dirty := rfl
    rw [hany, invalidateOption_eq]
    cases hdirty : (c.slots j).dirty with
    | true =>
      rw [if_pos rfl]
      unfold Cache.without
      have hslots : (fun i => if some j = some i ∧ (c.slots i).dirty = false then
          { c.slots i with valid := false, dirty := false } else c.slots i) = c.slots := by
        funext i
        refine if_neg fun hboth => ?_
        obtain rfl := Option.some.inj hboth.1
        rw [hdirty] at hboth
        exact nomatch hboth.2
      rw [hslots]
    | false =>
      rw [if_neg Bool.false_ne_true]
      unfold Cache.without
      congr 1
      funext i
      by_cases hi : j = i
      · subst hi
        rw [if_pos rfl, if_pos ⟨rfl, hdirty⟩]
      · rw [if_neg fun heq => hi (Option.some.inj heq),
          if_neg fun heq => hi (Option.some.inj heq.1)]

theorem Sound.dropClean (h : Sound policy c content) (slot : Option ℕ) :
    Sound policy (dropClean slot c) content := by
  rw [dropClean_eq]
  exact h.without_clean _ fun i hi => hi.2

theorem kept_dropClean (slot : Option ℕ) (c : Cache α) : Kept c (dropClean slot c) := by
  rw [dropClean_eq]
  exact kept_without _ c

/-! ## Written lines -/

/-- The line of a page that the backing holds as well. -/
def Cache.cleaned (c : Cache α) (i : ℕ) : Cache α := c.withSlot i { c.slots i with dirty := false }

theorem slots_cleaned (c : Cache α) (i j : ℕ) :
    (c.cleaned i).slots j = { c.slots j with dirty := (c.slots j).dirty && j ≠ i } := by
  change Function.update c.slots i _ j = _
  by_cases hij : j = i
  · subst hij
    rw [Function.update_self, decide_eq_false (not_not.mpr rfl), Bool.and_false]
  · rw [Function.update_of_ne hij, decide_eq_true hij, Bool.and_true]

theorem kept_cleaned (c : Cache α) (i : ℕ) : Kept c (c.cleaned i) := by
  refine ⟨rfl, rfl, rfl, rfl, fun j => ?_, fun j => ?_, fun j => ?_, fun j => ?_, fun j => ?_⟩
  · rw [slots_cleaned]
  · rw [slots_cleaned]
  · rw [slots_cleaned]
  · rw [slots_cleaned]
    exact id
  · rw [slots_cleaned]
    exact fun hdirty => (Bool.and_eq_true _ _ ▸ hdirty).1

/-- A line that was written is clean. -/
theorem Sound.cleaned (h : Sound policy c content) {i : ℕ}
    (hpage : ∀ n, c.pages (c.slots i).key n = content (c.slots i).key n) :
    Sound policy (c.cleaned i) content := by
  refine ⟨?_, ?_, ?_, ?_, ?_, ?_, h.started, h.attempted, ?_, h.shows⟩
  · intro j hj hvalid n hn
    rw [slots_cleaned] at hvalid hn ⊢
    exact h.lines j hj hvalid n hn
  · intro key n hcover
    by_cases hkey : key = (c.slots i).key
    · rw [hkey]
      exact hpage n
    · refine h.rest key n fun j hj hvalid hdirty hkj => ?_
      have hij : j ≠ i := fun heq => hkey (by rw [← hkj, heq])
      have hcovered := hcover j hj
      rw [slots_cleaned, decide_eq_true hij, Bool.and_true] at hcovered
      exact hcovered hvalid hdirty hkj
  · intro j k hj hk hvj hvk hkey
    rw [slots_cleaned] at hvj hvk
    rw [slots_cleaned, slots_cleaned] at hkey
    exact h.unique j k hj hk hvj hvk hkey
  · intro hdirect j hj hvalid
    rw [slots_cleaned] at hvalid ⊢
    exact h.direct hdirect j hj hvalid
  · intro j hdirty
    rw [slots_cleaned] at hdirty ⊢
    rw [Bool.and_eq_true] at hdirty
    exact h.dirty j hdirty.1
  · intro hmemory
    obtain ⟨hslots, hhand⟩ := h.fresh hmemory
    refine ⟨funext fun j => ?_, hhand⟩
    rw [slots_cleaned, hslots]
    rfl
  · intro j
    rw [slots_cleaned]
    exact h.pins j

theorem put_window_lt (f g : ℕ → α) {size n : ℕ} (h : n < size) :
    put f 0 (window g 0 size) n = g n := by
  have hread : put f 0 (window g 0 size) (0 + n) = g (0 + n) :=
    Window.put_inside f (Window.getElem?_window g 0 h)
  rwa [Nat.zero_add] at hread

theorem put_window_le (f g : ℕ → α) {size n : ℕ} (h : size ≤ n) :
    put f 0 (window g 0 size) n = f n := by
  refine Window.put_outside f (Or.inr ?_)
  rw [Window.length_window, Nat.zero_add]
  exact h

/-- A dirty line is the content of its page, so writing it changes nothing, whatever a failing write
leaves. -/
theorem flushSlot_spec (h : Sound policy c content) {i : ℕ} (hi : i < c.count) :
    Sound policy (flushSlot i c).2 content ∧ Kept c (flushSlot i c).2 ∧
      (∀ j, j ≠ i → (flushSlot i c).2.slots j = c.slots j) ∧
      ((flushSlot i c).1 = .ok → ((flushSlot i c).2.slots i).dirty = false) := by
  unfold flushSlot
  split
  · next hboth =>
    rw [Bool.and_eq_true] at hboth
    obtain ⟨hvalid, hdirty⟩ := hboth
    dsimp only
    rw [write_snd]
    generalize hpage : written (c.slots i).key (window (c.payload i) 0 (c.slots i).validBytes) c
      = page
    -- the page under the line may be anything, the page behind it is as it was
    have hbehind : ∀ n, (c.slots i).validBytes ≤ n → page n = content (c.slots i).key n := by
      intro n hn
      rw [← hpage, written_outside]
      · refine h.rest _ n fun j hj hvj _ hkj => ?_
        rw [h.unique j i hj hi hvj hvalid hkj]
        exact hn
      · rw [Window.length_window]
        exact hn
    have hmiddle : Sound policy { c with
        pages := Function.update c.pages (c.slots i).key page, replies :=
          c.replies.tail } content := by
      refine h.repage (fun _ _ _ _ _ => rfl) fun key n hcover => ?_
      by_cases hkey : key = (c.slots i).key
      · subst hkey
        rw [Function.update_self]
        exact hbehind n (hcover i hi hvalid hdirty rfl)
      · rw [Function.update_of_ne hkey]
        exact h.rest key n hcover
    have hkept : Kept c { c with
        pages := Function.update c.pages (c.slots i).key page, replies := c.replies.tail } :=
      ⟨rfl, rfl, rfl, rfl, fun _ => rfl, fun _ => rfl, fun _ => rfl, fun _ => id, fun _ => id⟩
    split
    · next hok =>
      refine ⟨hmiddle.cleaned fun n => ?_, hkept.trans (kept_cleaned _ i),
        fun j hij => Function.update_of_ne hij _ _, fun _ => ?_⟩
      · change Function.update c.pages (c.slots i).key page (c.slots i).key n
          = content (c.slots i).key n
        rw [Function.update_self]
        by_cases hn : n < (c.slots i).validBytes
        · rw [← hpage, written_ok hok, put_window_lt _ _ hn]
          exact h.lines i hi hvalid n hn
        · exact hbehind n (Nat.le_of_not_lt hn)
      · change (Function.update c.slots i _ i).dirty = false
        rw [Function.update_self]
    · next hfailed =>
      exact ⟨hmiddle, hkept, fun _ _ => rfl, fun habsurd => absurd habsurd hfailed⟩
  · next hboth =>
    refine ⟨h, Kept.refl c, fun _ _ => rfl, fun _ => ?_⟩
    cases hdirty : (c.slots i).dirty with
    | false => rfl
    | true =>
      rw [hdirty, h.dirty i hdirty] at hboth
      exact absurd rfl hboth

theorem valid_flushSlot (i : ℕ) (c : Cache α) (j : ℕ) :
    ((flushSlot i c).2.slots j).valid = (c.slots j).valid := by
  unfold flushSlot
  split
  · dsimp only
    rw [write_snd]
    split
    · change ((Cache.cleaned _ i).slots j).valid = _
      rw [slots_cleaned]
    · rfl
  · rfl

/-! ## Filled lines -/

/-- New lines hold nothing. -/
theorem Sound.allocateSlots (h : Sound policy c content) :
    Sound policy (allocateSlots c) content := by
  unfold PageCache.allocateSlots
  split
  · exact h
  · next hfirst =>
    rw [not_or] at hfirst
    have hmemory : c.memory = false := by
      by_contra hmemory
      rw [Bool.not_eq_false] at hmemory
      exact hfirst.2 (h.attempted hmemory)
    obtain ⟨hslots, hhand⟩ := h.fresh hmemory
    have hempty : ∀ i, c.slots i = {} := fun i => congrFun hslots i
    split
    · refine ⟨fun i _ hvalid => absurd hvalid Bool.false_ne_true, fun key n _ => ?_,
        fun i _ _ _ hvalid => absurd hvalid Bool.false_ne_true,
          fun _ i _ hvalid => absurd hvalid Bool.false_ne_true,
        fun i hdirty => absurd hdirty Bool.false_ne_true,
          fun hfalse => absurd hfalse.symm Bool.false_ne_true, fun _ => ?_,
        fun _ => rfl, fun i => ?_, h.shows⟩
      · refine h.rest key n fun i _ hvalid => ?_
        rw [hempty] at hvalid
        cases hvalid
      · rw [hhand]
        exact ⟨Nat.pos_of_ne_zero hfirst.1, Nat.pos_of_ne_zero hfirst.1⟩
      · rw [← h.pins i, hempty]
    · refine ⟨fun i hi => absurd hi (Nat.not_lt_zero i), fun key n _ => ?_,
        fun i _ hi => absurd hi (Nat.not_lt_zero i),
        fun _ i hi => absurd hi (Nat.not_lt_zero i), h.dirty, fun _ => ⟨hslots, hhand⟩,
          fun hfalse => ?_, fun _ => rfl, h.pins,
        h.shows⟩
      · refine h.rest key n fun i _ hvalid => ?_
        rw [hempty] at hvalid
        cases hvalid
      · change c.memory = true at hfalse
        rw [hmemory] at hfalse
        cases hfalse

/-- The tags of a line that is filled. -/
def Cache.filled (c : Cache α) (i : ℕ) (key : Key) (bytes : List α) (dirty : Bool) : Cache α :=
  { c with payload := Function.update c.payload i (put (c.payload i) 0 bytes) }.withSlot i
    { c.slots i with key := key, validBytes := bytes.length, dirty := dirty, valid := true }

theorem filled_self (c : Cache α) (i : ℕ) (key : Key) (bytes : List α) (dirty : Bool) :
    (c.filled i key bytes dirty).slots i =
      { c.slots i with key := key, validBytes := bytes.length, dirty := dirty, valid := true } :=
        Function.update_self ..

theorem filled_other (c : Cache α) {i j : ℕ} (hij : j ≠ i) (key : Key) (bytes : List α)
    (dirty : Bool) :
    (c.filled i key bytes dirty).slots j = c.slots j := Function.update_of_ne hij ..

theorem Sound.unleased (h : Sound policy c content) {i : ℕ} (hpins : (c.slots i).pins = 0)
    {lease : Lease α}
    (hlease : lease ∈ c.leases) : lease.slot ≠ some i := by
  rw [h.pins, List.countP_eq_zero] at hpins
  intro hslot
  exact hpins lease hlease (decide_eq_true hslot)

/-- A filled line holds its bytes. -/
theorem Sound.install (h : Sound policy c content) {i : ℕ} (hchosen : Chosen policy c key i)
    (hinvalid : (c.slots i).valid = false)
    (hnone : ∀ j, j < c.count → (c.slots j).valid = true → (c.slots j).key ≠ key)
    (bytes : List α) (dirty : Bool)
    (hclean : dirty = false → put (c.pages key) 0 bytes = c.pages key) :
    Sound policy (install policy i key bytes dirty c)
      (Function.update content key (put (c.pages key) 0 bytes)) := by
  have hother : ∀ j, (c.slots j).valid = true → j ≠ i := by
    intro j hvalid hij
    rw [hij, hinvalid] at hvalid
    cases hvalid
  have hfilled : Sound policy (c.filled i key bytes dirty)
      (Function.update content key (put (c.pages key) 0 bytes)) := by
    refine ⟨?_, ?_, ?_, ?_, ?_, ?_, h.started, h.attempted, ?_, ?_⟩
    · intro j hj hvalid n hn
      change Function.update c.payload i _ j n = _
      by_cases hij : j = i
      · subst hij
        rw [filled_self] at hn ⊢
        rw [Function.update_self, Function.update_self]
        have hsome := List.getElem?_eq_getElem hn
        have hleft : put (c.payload j) 0 bytes (0 + n) = bytes.get ⟨n, hn⟩ :=
          Window.put_inside _ hsome
        have hright : put (c.pages key) 0 bytes (0 + n) = bytes.get ⟨n, hn⟩ :=
          Window.put_inside _ hsome
        rw [Nat.zero_add] at hleft hright
        exact hleft.trans hright.symm
      · rw [filled_other c hij] at hvalid hn ⊢
        rw [Function.update_of_ne hij, Function.update_of_ne (hnone j hj hvalid)]
        exact h.lines j hj hvalid n hn
    · intro key' n hcover
      change c.pages key' n = _
      by_cases hkey : key' = key
      · subst hkey
        rw [Function.update_self]
        cases dirty with
        | false => rw [hclean rfl]
        | true =>
          have hcovered := hcover i hchosen.lt
          rw [filled_self] at hcovered
          exact (Window.put_outside _ (Or.inr (by
            rw [Nat.zero_add]
            exact hcovered rfl rfl rfl))).symm
      · rw [Function.update_of_ne hkey]
        refine h.rest key' n fun j hj hvalid hdirty hkj => ?_
        have hcovered := hcover j hj
        rw [filled_other c (hother j hvalid)] at hcovered
        exact hcovered hvalid hdirty hkj
    · intro j k hj hk hvj hvk hkey
      by_cases hji : j = i
      · by_cases hki : k = i
        · rw [hji, hki]
        · subst hji
          rw [filled_self, filled_other c hki] at hkey
          rw [filled_other c hki] at hvk
          exact absurd hkey.symm (hnone k hk hvk)
      · rw [filled_other c hji] at hvj
        by_cases hki : k = i
        · subst hki
          rw [filled_self, filled_other c hji] at hkey
          exact absurd hkey (hnone j hj hvj)
        · rw [filled_other c hki] at hvk
          rw [filled_other c hji, filled_other c hki] at hkey
          exact h.unique j k hj hk hvj hvk hkey
    · intro hdirect j hj hvalid
      by_cases hij : j = i
      · subst hij
        rw [filled_self]
        exact hchosen.direct hdirect
      · rw [filled_other c hij] at hvalid ⊢
        exact h.direct hdirect j hj hvalid
    · intro j hdirty
      by_cases hij : j = i
      · subst hij
        rw [filled_self]
      · rw [filled_other c hij] at hdirty ⊢
        exact h.dirty j hdirty
    · intro hmemory
      change c.memory = false at hmemory
      rw [hchosen.memory] at hmemory
      cases hmemory
    · intro j
      by_cases hij : j = i
      · subst hij
        rw [filled_self]
        exact h.pins j
      · rw [filled_other c hij]
        exact h.pins j
    · intro lease hlease j hslot
      have hij : j ≠ i := fun heq => h.unleased hchosen.unpinned hlease (heq ▸ hslot)
      change window (Function.update c.payload i _ j) 0 _ = _
      rw [Function.update_of_ne hij]
      exact h.shows lease hlease j hslot
  refine hfilled.touch ?_
  rw [filled_self]

end PineForge.PageCache
