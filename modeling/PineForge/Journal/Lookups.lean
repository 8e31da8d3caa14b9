import PineForge.Journal.Pages

/-!
# Lookups in the journal

A lookup by position or by ordinal finds what the list of all events has there, wherever the journal
keeps it, and changes nothing but the cache.
-/

namespace PineForge.Journal

open BigEndian (Bytes)

namespace JournalStore

variable {ε : Type} {codec : Codec ε} {s : JournalStore ε} {all : List ε} {base reserved : ℕ}
variable {pages : List JournalPage}

/-! ## Decoding a page -/

theorem loadEvents_save (events : List ε)
    (hloads : ∀ event ∈ events, ∀ rest, codec.load (codec.save event ++ rest)
      = some (event, rest)) :
    loadEvents codec events.length (events.flatMap codec.save) = some events := by
  induction events with
  | nil => rfl
  | cons event events ih =>
    rw [List.length_cons, List.flatMap_cons]
    unfold loadEvents
    rw [hloads event List.mem_cons_self, Option.bind_some]
    dsimp only
    rw [ih fun e he => hloads e (List.mem_cons_of_mem event he)]
    rfl

theorem decodePage_eq (hsound : Sound codec all) {page : JournalPage}
    (hpage : PageHolds codec all s.data page) :
    s.decodePage codec page = some (page.events all) := by
  unfold decodePage
  rw [if_pos hpage.stored, hpage.bytes, ← hpage.length_events]
  apply loadEvents_save
  intro event hevent
  exact hsound.loads event (List.mem_of_mem_drop (List.mem_of_mem_take hevent))

theorem cachedPage_eq_some {pageNo : ℕ} {slot : Cached ε} (h : s.cachedPage pageNo = some slot) :
    slot.pageNo = pageNo ∧ ∃ i, s.cache i = some slot := by
  obtain ⟨i, -, hi⟩ := List.exists_of_findSome?_eq_some h
  rw [Option.filter_eq_some_iff, decide_eq_true_eq] at hi
  exact ⟨hi.2, i, hi.1⟩

theorem cachedPosition_eq_some {position : ℕ} {slot : Cached ε}
    (h : s.cachedPosition position = some slot) :
    (slot.firstPosition ≤ position ∧ position - slot.firstPosition < slot.count) ∧
      ∃ i, s.cache i = some slot := by
  obtain ⟨i, -, hi⟩ := List.exists_of_findSome?_eq_some h
  rw [Option.filter_eq_some_iff, decide_eq_true_eq] at hi
  exact ⟨hi.2, i, hi.1⟩

theorem Spilled.fill (h : s.Spilled codec all base pages) {k : ℕ} {page : JournalPage}
    (hpage : pages[k]? = some page) (i next : Fin 4) :
    let slot : Cached ε :=
      { pageNo := k, firstPosition := page.firstPosition, count := page.count,
        events := page.events all }
    ({ s with cache := Function.update s.cache i (some slot), cacheNext := next } :
      JournalStore ε).Spilled codec all base pages := by
  refine ⟨h.log, h.logBase, h.holds, h.tiles, fun j slot hslot => ?_, h.spill⟩
  dsimp only at hslot
  by_cases hij : j = i
  · rw [hij, Function.update_self] at hslot
    cases hslot
    exact ⟨page, hpage, rfl, rfl, rfl⟩
  · rw [Function.update_of_ne hij] at hslot
    exact h.cache j slot hslot

theorem Holds.load (h : Holds codec s all base reserved) (hpages : s.Spilled codec all base pages)
    {k : ℕ} {page : JournalPage} (hpage : pages[k]? = some page) :
    ∃ t, JournalStore.load codec k page s = (.ok (page.events all), t) ∧
      Holds codec t all base reserved := by
  have hmem := List.mem_of_getElem? hpage
  have hholds := hpages.holds page hmem
  unfold JournalStore.load
  cases hcached : s.cachedPage k with
  | some slot =>
    obtain ⟨hk, i, hi⟩ := cachedPage_eq_some hcached
    obtain ⟨p, hp, -, -, hevents⟩ := hpages.cache i slot hi
    rw [hk, hpage] at hp
    cases hp
    exact ⟨s, congrArg (fun events => (Except.ok events, s)) hevents, h⟩
  | none =>
    have hspill := hpages.spill (List.ne_nil_of_mem hmem)
    have hbounded := hholds.bounded
    have hsmall := hholds.small
    have hdecode : decodePage codec { s with cache := Function.update s.cache s.cacheNext none }
      page
        = some (page.events all) := decodePage_eq h.sound hholds
    dsimp only
    rw [if_neg (by rw [hspill]; simp only [Bool.true_eq_false, false_or]; omega), hdecode]
    dsimp only
    rw [Function.update_idem]
    exact ⟨_, rfl, h.sound, h.resident.congr rfl rfl rfl rfl, h.dropped,
      ⟨pages, hpages.fill hpage s.cacheNext (s.cacheNext + 1)⟩, h.covered⟩

/-! ## Lookup by position -/

theorem Spilled.size (h : s.Spilled codec all base pages) : s.pages.size = pages.length :=
  h.log.size

/-- A spilled position has one page. -/
theorem Holds.pageForPosition (hpages : s.Spilled codec all base pages)
    {position : ℕ} (hbase : base ≤ position) (hfirst : position < s.first) :
    ∃ k page, s.pageForPosition position = .ok (some (k, page)) ∧ pages[k]? = some page ∧
      page.firstPosition ≤ position ∧ position < page.firstPosition + page.count := by
  obtain ⟨start, hstart, htiles⟩ := hpages.tiles
  have hcut := @cutAt_le _ JournalPage.firstPosition position pages
  have hiff : ∀ {i : ℕ} {x : JournalPage}, pages[i]? = some x →
      (i < cutAt JournalPage.firstPosition position pages ↔ x.firstPosition ≤ position) :=
    fun hx => lt_cutAt_iff htiles.sorted hx
  have hbisect : bisect (fun middle => do
      let page ← s.pageAt middle
      .ok (decide (page.firstPosition ≤ position))) s.pages.base s.pages.size
        = .ok (cutAt JournalPage.firstPosition position pages) := by
    refine bisect_cutAt htiles.sorted ?_ ?_ fun i _ hi => ?_
    · rw [hpages.logBase]
      exact Nat.zero_le _
    · rw [hpages.size]
      exact hcut
    · have hlt : i < pages.length := hpages.size ▸ hi
      refine ⟨pages[i], List.getElem?_eq_getElem hlt, ?_⟩
      rw [hpages.pageAt (List.getElem?_eq_getElem hlt), Result.ok_bind]
  have hpos : 0 < cutAt JournalPage.firstPosition position pages := by
    cases hlist : pages with
    | nil =>
      rw [hlist] at htiles
      cases htiles
      omega
    | cons p ps =>
      rw [← hlist, hiff (i := 0) (x := p) (by rw [hlist]; rfl)]
      rw [hlist] at htiles
      have := htiles.1
      omega
  obtain ⟨k, hk⟩ : ∃ k, cutAt JournalPage.firstPosition position pages = k + 1 :=
    ⟨_, (Nat.succ_pred_eq_of_pos hpos).symm⟩
  have hlt : k < pages.length := by omega
  have hpage : pages[k]? = some pages[k] := List.getElem?_eq_getElem hlt
  have hlow := (hiff hpage).mp (by omega)
  have hhigh : position < pages[k].firstPosition + pages[k].count := by
    apply htiles.last_holds hfirst hpage
    intro q hq
    by_contra hle
    have := (hiff hq).mpr (Nat.le_of_not_lt hle)
    omega
  refine ⟨k, pages[k], ?_, hpage, hlow, hhigh⟩
  unfold JournalStore.pageForPosition
  rw [hbisect, Result.ok_bind, hk, hpages.logBase, if_neg (Nat.succ_ne_zero k), Nat.add_sub_cancel,
    hpages.pageAt hpage, Result.ok_bind, if_neg (by omega)]

theorem eventOf_eq {events : List ε} {i : ℕ} {event : ε} (h : events[i]? = some event) :
    eventOf events i = .ok event := by
  unfold eventOf
  rw [h]

theorem Holds.at_ (h : Holds codec s all base reserved) {position : ℕ} (hbase : base ≤ position)
    {event : ε} (hevent : all[position]? = some event) :
    ∃ t, JournalStore.at_ codec position s = (.ok event, t) ∧ Holds codec t all base reserved := by
  unfold JournalStore.at_
  by_cases hresident : s.first ≤ position
  · rw [if_pos hresident, h.resident.residentAt hresident hevent]
    exact ⟨s, rfl, h⟩
  · rw [if_neg hresident]
    obtain ⟨pages, hpages⟩ := h.spilled
    cases hcached : s.cachedPosition position with
    | some slot =>
      obtain ⟨hrange, i, hi⟩ := cachedPosition_eq_some hcached
      obtain ⟨page, -, hposition, hcount, hevents⟩ := hpages.cache i slot hi
      refine ⟨s, ?_, h⟩
      dsimp only
      rw [hposition, hcount] at hrange
      rw [hposition, hevents, eventOf_eq]
      rw [JournalPage.getElem?_events hrange.2, Nat.add_sub_cancel' hrange.1, hevent]
    | none =>
      obtain ⟨k, page, hfound, hpage, hlow, hhigh⟩ :=
        Holds.pageForPosition hpages hbase (Nat.lt_of_not_le hresident)
      obtain ⟨t, hload, hholds⟩ := h.load hpages hpage
      refine ⟨t, ?_, hholds⟩
      dsimp only
      rw [hfound]
      dsimp only
      rw [hload]
      dsimp only
      rw [Result.ok_bind, eventOf_eq]
      rw [JournalPage.getElem?_events (by omega), Nat.add_sub_cancel' hlow, hevent]

theorem Holds.ordinalAt (h : Holds codec s all base reserved) {position : ℕ}
    (hbase : base ≤ position)
    {event : ε} (hevent : all[position]? = some event) :
    ∃ t, JournalStore.ordinalAt codec position s = (.ok (codec.ordinal event), t) ∧
      Holds codec t all base reserved := by
  obtain ⟨t, hat, hholds⟩ := h.at_ hbase hevent
  refine ⟨t, ?_, hholds⟩
  unfold JournalStore.ordinalAt
  rw [Command.bind_ok hat]
  rfl

/-! ## Lookup by ordinal -/

theorem Spilled.ordinal_sorted (hsound : Sound codec all) (h : s.Spilled codec all base pages) :
    pages.Pairwise (JournalPage.firstOrdinal · ≤ JournalPage.firstOrdinal ·) := by
  obtain ⟨start, -, htiles⟩ := h.tiles
  apply List.Pairwise.imp_of_mem _ htiles.sorted
  intro p q hp hq hle
  obtain ⟨x, hx, hpx⟩ := Option.map_eq_some_iff.mp (h.holds p hp).ordinal
  obtain ⟨y, hy, hqy⟩ := Option.map_eq_some_iff.mp (h.holds q hq).ordinal
  rw [← hpx, ← hqy]
  obtain heq | hlt := Nat.eq_or_lt_of_le hle
  · rw [heq, hy] at hx
    cases hx
    exact Nat.le_refl _
  · obtain ⟨hi, hpx⟩ := List.getElem?_eq_some_iff.mp hx
    obtain ⟨hj, hqy⟩ := List.getElem?_eq_some_iff.mp hy
    have := List.pairwise_iff_getElem.mp hsound.sorted _ _ hi hj hlt
    rwa [hpx, hqy] at this

/-- The events of one page are cut where the journal is cut, as far as the page goes. -/
theorem Spilled.bisect_page (hsound : Sound codec all) {page : JournalPage}
    (hpage : PageHolds codec all s.data page) {ordinal : ℕ}
    (hlow : page.firstPosition ≤ cutAt codec.ordinal ordinal all)
    (hhigh : cutAt codec.ordinal ordinal all ≤ page.firstPosition + page.count) :
    bisect (fun middle => do
      let event ← eventOf (page.events all) middle
      .ok (decide (codec.ordinal event ≤ ordinal))) 0 (page.events all).length
        = .ok (cutAt codec.ordinal ordinal all - page.firstPosition) := by
  rw [hpage.length_events]
  apply bisect_eq (Nat.zero_le _) (by omega)
  intro i _ hi
  have hwithin := hpage.within
  have hlt : page.firstPosition + i < all.length := by omega
  have hevent : (page.events all)[i]? = some all[page.firstPosition + i] := by
    rw [JournalPage.getElem?_events hi, List.getElem?_eq_getElem hlt]
  have hiff := @lt_cutAt_iff _ codec.ordinal ordinal _ hsound.sorted _ _
    (List.getElem?_eq_getElem hlt)
  rw [eventOf_eq hevent, Result.ok_bind]
  refine congrArg Except.ok (decide_eq_decide.mpr (hiff.symm.trans ?_))
  omega

/-- The bisection finds the cut. -/
theorem Holds.upperBoundPosition (h : Holds codec s all base reserved) (ordinal : ℕ) :
    ∃ t, JournalStore.upperBoundPosition codec ordinal base s
      = (.ok (max base (cutAt codec.ordinal ordinal all)), t) ∧
        Holds codec t all base reserved := by
  have hsorted := h.sound.sorted
  have hend := h.resident.endAt
  have hdropped := h.dropped
  have hcut := @cutAt_le _ codec.ordinal ordinal all
  have hiff : ∀ {i : ℕ} {x : ε}, all[i]? = some x →
      (i < cutAt codec.ordinal ordinal all ↔ codec.ordinal x ≤ ordinal) :=
    fun hx => lt_cutAt_iff hsorted hx
  unfold JournalStore.upperBoundPosition
  by_cases hresident : s.first < s.endAt ∧
      (s.slotAt s.first).any fun event => decide (codec.ordinal event ≤ ordinal)
  · rw [if_pos hresident]
    rw [h.resident.slots s.first (Nat.le_refl _) hresident.1] at hresident
    have hlt : s.first < all.length := hend ▸ hresident.1
    have hfirst := List.getElem?_eq_getElem hlt
    rw [hfirst, Option.any_some, decide_eq_true_eq] at hresident
    have hpast := (hiff hfirst).mpr hresident.2
    refine ⟨s, Prod.ext ?_ rfl, h⟩
    rw [Nat.max_eq_right (by omega)]
    refine bisect_cutAt hsorted (by omega) (by omega) fun i hi hiEnd => ?_
    have hin : i < all.length := hend ▸ hiEnd
    refine ⟨all[i], List.getElem?_eq_getElem hin, ?_⟩
    rw [h.resident.residentAt hi (List.getElem?_eq_getElem hin), Result.ok_bind]
  · rw [if_neg hresident]
    have hbelow : cutAt codec.ordinal ordinal all ≤ s.first := by
      by_contra hlt
      have hin : s.first < all.length := by omega
      have hfirst := List.getElem?_eq_getElem hin
      refine hresident ⟨by omega, ?_⟩
      rw [h.resident.slots s.first (Nat.le_refl _) (by omega), hfirst, Option.any_some,
        decide_eq_true_eq]
      exact (hiff hfirst).mp (Nat.lt_of_not_le hlt)
    by_cases hlow : s.first ≤ base
    · rw [if_pos hlow]
      refine ⟨s, ?_, h⟩
      rw [Nat.max_eq_left (by omega), Nat.le_antisymm hlow hdropped]
    · rw [if_neg hlow]
      obtain ⟨pages, hpages⟩ := h.spilled
      obtain ⟨start, hstart, htiles⟩ := hpages.tiles
      have hordinals := hpages.ordinal_sorted h.sound
      have habove := @cutAt_le _ JournalPage.firstOrdinal ordinal pages
      have hbisect : bisect (fun middle => do
          let page ← s.pageAt middle
          .ok (decide (page.firstOrdinal ≤ ordinal))) s.pages.base s.pages.size
            = .ok (cutAt JournalPage.firstOrdinal ordinal pages) := by
        refine bisect_cutAt hordinals ?_ ?_ fun i _ hi => ?_
        · rw [hpages.logBase]
          exact Nat.zero_le _
        · rw [hpages.size]
          exact habove
        · have hlt : i < pages.length := hpages.size ▸ hi
          refine ⟨pages[i], List.getElem?_eq_getElem hlt, ?_⟩
          rw [hpages.pageAt (List.getElem?_eq_getElem hlt), Result.ok_bind]
      -- A page is passed by ordinal exactly when the cut is past its first position.
      have hpage : ∀ {k : ℕ} {page : JournalPage}, pages[k]? = some page →
          (k < cutAt JournalPage.firstOrdinal ordinal pages ↔
            page.firstPosition < cutAt codec.ordinal ordinal all) := by
        intro k page hk
        obtain ⟨x, hx, hordinal⟩ :=
          Option.map_eq_some_iff.mp (hpages.holds page (List.mem_of_getElem? hk)).ordinal
        rw [lt_cutAt_iff hordinals hk, hiff hx, hordinal]
      rw [hbisect]
      dsimp only
      by_cases hnone : cutAt JournalPage.firstOrdinal ordinal pages = s.pages.base
      · rw [if_pos hnone]
        refine ⟨s, ?_, h⟩
        rw [hpages.logBase] at hnone
        have hstartCut : cutAt codec.ordinal ordinal all ≤ start := by
          cases hlist : pages with
          | nil =>
            rw [hlist] at htiles
            cases htiles
            exact hbelow
          | cons p ps =>
            have hp := @hpage 0 p (by rw [hlist]; rfl)
            rw [hlist] at htiles
            have := htiles.1
            omega
        rw [Nat.max_eq_left (by omega)]
      · rw [if_neg hnone]
        rw [hpages.logBase] at hnone
        obtain ⟨k, hk⟩ : ∃ k, cutAt JournalPage.firstOrdinal ordinal pages = k + 1 :=
          ⟨_, (Nat.succ_pred_eq_of_pos (Nat.pos_of_ne_zero hnone)).symm⟩
        have hlt : k < pages.length := by omega
        have hfound : pages[k]? = some pages[k] := List.getElem?_eq_getElem hlt
        have hstarts := (hpage hfound).mp (by omega)
        have hends : cutAt codec.ordinal ordinal all ≤ pages[k].firstPosition + pages[k].count := by
          -- The position before the cut is in this page: the next page begins at or past the cut.
          have := @Tiles.last_holds _ _ _ htiles
            (cutAt codec.ordinal ordinal all - 1) (by omega) _ _ hfound (fun q hq => by
              have := (hpage hq).not.mp (by omega)
              omega)
          omega
        obtain ⟨t, hload, hholds⟩ := h.load hpages hfound
        refine ⟨t, ?_, hholds⟩
        rw [hk, Nat.add_sub_cancel, hpages.pageAt hfound]
        dsimp only
        rw [hload]
        dsimp only
        rw [Result.ok_bind, Spilled.bisect_page h.sound
          (hpages.holds _ (List.mem_of_getElem? hfound)) hstarts.le hends, Result.ok_bind,
          Nat.add_sub_cancel' hstarts.le]

/-- The retained position with an ordinal, or that there is none. -/
def FoundAt (codec : Codec ε) (all : List ε) (base ordinal : ℕ) : Option ℕ → Prop
  | some position => base ≤ position ∧ all[position]?.map codec.ordinal = some ordinal
  | none => ∀ position, base ≤ position → all[position]?.map codec.ordinal ≠ some ordinal

/-- An ordinal is found where it is. -/
theorem Holds.findOrdinal (h : Holds codec s all base reserved) (ordinal : ℕ) :
    ∃ found t, JournalStore.findOrdinal codec ordinal base s = (.ok found, t) ∧
      Holds codec t all base reserved ∧ FoundAt codec all base ordinal found := by
  obtain ⟨t, hupper, hholds⟩ := h.upperBoundPosition ordinal
  have hcut := @cutAt_le _ codec.ordinal ordinal all
  have hiff : ∀ {i : ℕ} {x : ε}, all[i]? = some x →
      (i < cutAt codec.ordinal ordinal all ↔ codec.ordinal x ≤ ordinal) :=
    fun hx => lt_cutAt_iff h.sound.sorted hx
  unfold JournalStore.findOrdinal
  rw [Command.bind_ok hupper]
  by_cases hnone : max base (cutAt codec.ordinal ordinal all) = base
  · rw [if_pos hnone]
    refine ⟨none, t, rfl, hholds, fun position hbase hfound => ?_⟩
    obtain ⟨x, hx, hordinal⟩ := Option.map_eq_some_iff.mp hfound
    have := (hiff hx).mpr hordinal.le
    omega
  · rw [if_neg hnone]
    have hlt : max base (cutAt codec.ordinal ordinal all) - 1 < all.length := by omega
    have hlast := List.getElem?_eq_getElem hlt
    obtain ⟨u, hat, hholdsU⟩ := @Holds.ordinalAt _ _ _ _ _ _ hholds
      (max base (cutAt codec.ordinal ordinal all) - 1) (by omega) _ hlast
    rw [Command.bind_ok hat, Command.pure_apply]
    by_cases hordinal : codec.ordinal all[max base (cutAt codec.ordinal ordinal all) - 1] = ordinal
    · rw [if_neg (not_not_intro hordinal)]
      refine ⟨_, u, rfl, hholdsU, by omega, ?_⟩
      rw [hlast, Option.map_some, hordinal]
    · rw [if_pos hordinal]
      refine ⟨none, u, rfl, hholdsU, fun position hbase hfound => ?_⟩
      obtain ⟨x, hx, hxordinal⟩ := Option.map_eq_some_iff.mp hfound
      have hbelow := (hiff hx).mpr hxordinal.le
      -- The event before the cut has the highest ordinal that is not above the target.
      obtain hlow | heq : position < max base (cutAt codec.ordinal ordinal all) - 1 ∨
          position = max base (cutAt codec.ordinal ordinal all) - 1 := by omega
      · obtain ⟨hin, hget⟩ := List.getElem?_eq_some_iff.mp hx
        have hstrict := List.pairwise_iff_getElem.mp h.sound.ascending _ _ hin hlt hlow
        have hle := (hiff hlast).mp (by omega)
        rw [hget] at hstrict
        omega
      · rw [heq, hlast] at hx
        cases hx
        exact hordinal hxordinal

end JournalStore

end PineForge.Journal
