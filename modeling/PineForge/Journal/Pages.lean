import PineForge.Journal.Resident

/-!
# The pages of the journal

The pages tile the positions from a start on up to the first resident one. A page holds the bytes of
the events at its positions, and what the cache has of a page are these events. `Holds` is the
invariant of the journal against the list of all events that were appended, of which some first ones
are dropped.
-/

namespace PineForge.Journal

open BigEndian (Bytes)

variable {ε : Type}

/-! ## Pages -/

/-- The events at the positions of a page. -/
def JournalPage.events (page : JournalPage) (all : List ε) : List ε :=
  (all.drop page.firstPosition).take page.count

variable (codec : Codec ε)

/-- A page stores events of the journal. -/
structure PageHolds (all : List ε) (data : Bytes) (page : JournalPage) : Prop where
  positive : 0 < page.count
  small : page.count ≤ chunkSlots
  within : page.firstPosition + page.count ≤ all.length
  bounded : page.length ≤ spillPageBytes
  stored : page.offset + page.length ≤ data.length
  bytes : (data.drop page.offset).take page.length = (page.events all).flatMap codec.save
  ordinal : all[page.firstPosition]?.map codec.ordinal = some page.firstOrdinal

variable {codec}

theorem JournalPage.events_append {page : JournalPage} {all : List ε}
    (hwithin : page.firstPosition + page.count ≤ all.length) (more : List ε) :
    page.events (all ++ more) = page.events all := by
  unfold events
  rw [List.drop_append_of_le_length (by omega), List.take_append_of_le_length]
  rw [List.length_drop]
  omega

theorem PageHolds.length_events {all : List ε} {data : Bytes} {page : JournalPage}
    (h : PageHolds codec all data page) : (page.events all).length = page.count := by
  have := h.within
  unfold JournalPage.events
  rw [List.length_take, List.length_drop]
  omega

theorem JournalPage.getElem?_events {page : JournalPage} {all : List ε} {i : ℕ}
    (hi : i < page.count) :
    (page.events all)[i]? = all[page.firstPosition + i]? := by
  unfold events
  rw [List.getElem?_take_of_lt hi, List.getElem?_drop]

theorem PageHolds.append {all : List ε} {data : Bytes} {page : JournalPage}
    (h : PageHolds codec all data page) (more : List ε) (bytes : Bytes) :
    PageHolds codec (all ++ more) (data ++ bytes) page where
  positive := h.positive
  small := h.small
  within := by
    rw [List.length_append]
    exact Nat.le_add_right_of_le h.within
  bounded := h.bounded
  stored := by
    rw [List.length_append]
    exact Nat.le_add_right_of_le h.stored
  bytes := by
    have hstored := h.stored
    rw [JournalPage.events_append h.within, ← h.bytes, List.drop_append_of_le_length (by omega),
      List.take_append_of_le_length]
    rw [List.length_drop]
    omega
  ordinal := by
    have := h.within
    have := h.positive
    rw [List.getElem?_append_left (by omega)]
    exact h.ordinal

/-! ## Tiling -/

/-- Each page begins where the one before it ends. -/
def Tiles : ℕ → List JournalPage → ℕ → Prop
  | start, [], stop => start = stop
  | start, page :: pages, stop => page.firstPosition = start ∧ Tiles (start + page.count) pages stop

theorem Tiles.append {start stop : ℕ} {pages : List JournalPage} (h : Tiles start pages stop)
    (page : JournalPage) (hpage : page.firstPosition = stop) :
    Tiles start (pages ++ [page]) (stop + page.count) := by
  induction pages generalizing start with
  | nil =>
    cases h
    exact ⟨hpage, rfl⟩
  | cons p pages ih => exact ⟨h.1, ih h.2⟩

theorem Tiles.le_of_mem {start stop : ℕ} {pages : List JournalPage} (h : Tiles start pages stop)
    {page : JournalPage} (hpage : page ∈ pages) : start ≤ page.firstPosition := by
  induction pages generalizing start with
  | nil => cases hpage
  | cons p pages ih =>
    obtain rfl | hmem := List.mem_cons.mp hpage
    · exact h.1.ge
    · exact (Nat.le_add_right ..).trans (ih h.2 hmem)

theorem Tiles.sorted {start stop : ℕ} {pages : List JournalPage} (h : Tiles start pages stop) :
    pages.Pairwise (JournalPage.firstPosition · ≤ JournalPage.firstPosition ·) := by
  induction pages generalizing start with
  | nil => exact List.Pairwise.nil
  | cons p pages ih =>
    refine List.pairwise_cons.mpr ⟨fun q hq => ?_, ih h.2⟩
    have := h.2.le_of_mem hq
    have := h.1
    omega

/-- The last page that begins at or before a position of the tiled range holds it. -/
theorem Tiles.last_holds {start stop : ℕ} {pages : List JournalPage} (h : Tiles start pages stop)
    {position : ℕ} (hstop : position < stop) {k : ℕ} {page : JournalPage}
    (hpage : pages[k]? = some page)
    (hlast : ∀ q, pages[k + 1]? = some q → position < q.firstPosition) :
    position < page.firstPosition + page.count := by
  induction pages generalizing start k with
  | nil => cases hpage
  | cons p pages ih =>
    cases k with
    | succ k => exact ih h.2 hpage hlast
    | zero =>
      cases hpage
      have hnext := h.2
      cases pages with
      | nil =>
        have := h.1
        unfold Tiles at hnext
        omega
      | cons q pages =>
        have := hlast q rfl
        have := h.1
        have := hnext.1
        omega

/-! ## The invariant -/

/-- Ordinals ascend, and every event fits into a page and is read back from there. -/
structure Sound (codec : Codec ε) (all : List ε) : Prop where
  ascending : all.Pairwise (codec.ordinal · < codec.ordinal ·)
  small : ∀ event ∈ all, (codec.save event).length ≤ spillPageBytes
  loads : ∀ event ∈ all, ∀ rest, codec.load (codec.save event ++ rest) = some (event, rest)

theorem Sound.sorted {all : List ε} (h : Sound codec all) :
    all.Pairwise (codec.ordinal · ≤ codec.ordinal ·) := h.ascending.imp Nat.le_of_lt

namespace JournalStore

/-- The pages of a journal whose first events up to `base` are dropped. -/
structure Spilled (codec : Codec ε) (s : JournalStore ε) (all : List ε) (base : ℕ)
    (pages : List JournalPage) : Prop where
  log : s.pages.Holds pages
  logBase : s.pages.base = 0
  holds : ∀ page ∈ pages, PageHolds codec all s.data page
  tiles : ∃ start ≤ base, Tiles start pages s.first
  cache : ∀ i slot, s.cache i = some slot → ∃ page, pages[slot.pageNo]? = some page ∧
    slot.firstPosition = page.firstPosition ∧ slot.count = page.count ∧ slot.events
      = page.events all
  spill : pages ≠ [] → s.spill = true

/-- The journal holds all events that were appended; those before `base` are dropped, and there are
slots up to `reserved`. -/
structure Holds (codec : Codec ε) (s : JournalStore ε) (all : List ε) (base reserved : ℕ) :
    Prop where
  sound : Sound codec all
  resident : s.Resident all
  dropped : base ≤ s.first
  spilled : ∃ pages, s.Spilled codec all base pages
  covered : reserved ≤ s.coverage

variable {s : JournalStore ε} {all : List ε} {base reserved : ℕ}

theorem holds_empty : Holds codec (empty : JournalStore ε) [] 0 0 where
  sound := ⟨List.Pairwise.nil, fun _ h => absurd h List.not_mem_nil,
    fun _ h => absurd h List.not_mem_nil⟩
  resident := resident_empty
  dropped := Nat.le_refl 0
  spilled := ⟨[], {
    log := TailLog.holds_empty (by decide)
    logBase := rfl
    holds := fun _ h => absurd h List.not_mem_nil
    tiles := ⟨0, Nat.le_refl 0, rfl⟩
    cache := fun _ _ h => by cases h
    spill := fun h => absurd rfl h }⟩
  covered := Nat.zero_le _

theorem Spilled.pageAt {pages : List JournalPage} (h : s.Spilled codec all base pages) {k : ℕ}
    {page : JournalPage} (hpage : pages[k]? = some page) : s.pageAt k = .ok page := by
  unfold JournalStore.pageAt
  rw [h.log.get (by rw [h.logBase]; exact Nat.zero_le k), hpage]

theorem Spilled.append {pages : List JournalPage} (h : s.Spilled codec all base pages)
    {t : JournalStore ε} (more : List ε) (hpages : t.pages = s.pages) (hdata : t.data = s.data)
    (hfirst : t.first = s.first) (hcache : t.cache = s.cache) (hspill : t.spill = s.spill) :
    t.Spilled codec (all ++ more) base pages := by
  refine ⟨hpages ▸ h.log, hpages ▸ h.logBase, fun page hpage => ?_, hfirst ▸ h.tiles, ?_,
    hspill ▸ h.spill⟩
  · have hholds := (h.holds page hpage).append more []
    rw [List.append_nil] at hholds
    rw [hdata]
    exact hholds
  · intro i slot hslot
    obtain ⟨page, hpage, hposition, hcount, hevents⟩ := h.cache i slot (hcache ▸ hslot)
    refine ⟨page, hpage, hposition, hcount, ?_⟩
    rw [hevents, JournalPage.events_append (h.holds page (List.mem_of_getElem? hpage)).within]

theorem Holds.push (h : Holds codec s all base reserved) (hroom : all.length < reserved) {event : ε}
    (hsound : Sound codec (all ++ [event])) :
    Holds codec (s.push event) (all ++ [event]) base reserved := by
  have hcover := h.covered
  have hend := h.resident.endAt
  obtain ⟨pages, hpages⟩ := h.spilled
  refine ⟨hsound, h.resident.push (by omega) event, h.dropped,
    ⟨pages, hpages.append [event] rfl rfl rfl rfl rfl⟩, ?_⟩
  unfold coverage at hcover ⊢
  unfold JournalStore.push setSlot
  rw [List.length_modify]
  exact hcover

/-! ## Spilling -/

theorem gather_spec (codec : Codec ε) (events : List ε) (out : Bytes)
    (hout : out.length ≤ spillPageBytes) :
    ∃ count ≤ events.length,
      gather codec events out = (count, out ++ (events.take count).flatMap codec.save) ∧
      (out ++ (events.take count).flatMap codec.save).length ≤ spillPageBytes ∧
      (∀ event rest, events = event :: rest →
        out.length + (codec.save event).length ≤ spillPageBytes → 0 < count) := by
  induction events generalizing out with
  | nil =>
    refine ⟨0, Nat.le_refl 0, ?_, ?_, fun _ _ h => by cases h⟩
    · simp only [gather, List.take_nil, List.flatMap_nil, List.append_nil]
    · simp only [List.take_nil, List.flatMap_nil, List.append_nil]
      exact hout
  | cons event events ih =>
    unfold gather
    by_cases hfits : out.length + (codec.save event).length ≤ spillPageBytes
    · obtain ⟨count, hcount, hgather, hlength, -⟩ := ih (out ++ codec.save event)
        (by rw [List.length_append]; exact hfits)
      rw [List.append_assoc] at hgather hlength
      refine ⟨count + 1, Nat.succ_le_succ hcount, ?_, ?_, fun _ _ _ _ => Nat.succ_pos count⟩
      · rw [if_pos hfits, hgather, List.take_succ_cons, List.flatMap_cons]
      · rw [List.take_succ_cons, List.flatMap_cons]
        exact hlength
    · refine ⟨0, Nat.zero_le _, ?_, ?_, fun e rest he hsmall => ?_⟩
      · rw [if_neg hfits, List.take_zero, List.flatMap_nil, List.append_nil]
      · rw [List.take_zero, List.flatMap_nil, List.append_nil]
        exact hout
      · cases he
        exact absurd hsmall hfits

theorem Resident.residentRange (h : s.Resident all) (n : ℕ) {position : ℕ}
    (hfirst : s.first ≤ position) (hend : position + n ≤ all.length) :
    s.residentRange position n = .ok ((all.drop position).take n) := by
  induction n generalizing position with
  | zero => rfl
  | succ n ih =>
    have hlt : position < all.length := by omega
    unfold JournalStore.residentRange
    rw [h.residentAt hfirst (List.getElem?_eq_getElem hlt), Result.ok_bind,
      ih (Nat.le_succ_of_le hfirst) (by omega), Result.ok_bind, List.drop_eq_getElem_cons hlt,
      List.take_succ_cons]

theorem pageHolds_written {data : Bytes} {first count lastOrdinal : ℕ} {oldest : ε}
    (holdest : all[first]? = some oldest) (hpos : 0 < count) (hsmall : count ≤ chunkSlots)
    (hwithin : first + count ≤ all.length)
    (hlength : (((all.drop first).take count).flatMap codec.save).length ≤ spillPageBytes) :
    PageHolds codec all (data ++ ((all.drop first).take count).flatMap codec.save)
      { firstPosition := first, count := count, firstOrdinal := codec.ordinal oldest,
        lastOrdinal := lastOrdinal, offset := data.length,
        length := (((all.drop first).take count).flatMap codec.save).length } where
  positive := hpos
  small := hsmall
  within := hwithin
  bounded := hlength
  stored := by rw [List.length_append]
  bytes := by
    unfold JournalPage.events
    dsimp only
    rw [List.drop_left, List.take_length]
  ordinal := by
    dsimp only
    rw [holdest]
    rfl

/-- A page is published behind the others, and the resident part begins after it. -/
theorem Spilled.publish {pages : List JournalPage} (h : s.Spilled codec all base pages)
    {page : JournalPage} {bytes : Bytes} (hpage : PageHolds codec all (s.data ++ bytes) page)
    (hposition : page.firstPosition = s.first) {t : JournalStore ε}
    (hlog : t.pages = s.pages.makeRoom.push page) (hdata : t.data = s.data ++ bytes)
    (hfirst : t.first = s.first + page.count) (hcache : t.cache = s.cache)
    (hspill : t.spill = true) :
    t.Spilled codec all base (pages ++ [page]) := by
  have hroom := h.log.makeRoom
  refine { log := ?_, logBase := ?_, holds := ?_, tiles := ?_, cache := ?_,
           spill := fun _ => hspill }
  · rw [hlog]
    exact hroom.1.push hroom.2.2 page
  · rw [hlog]
    exact hroom.2.1.trans h.logBase
  · intro p hp
    rw [hdata]
    obtain hold | hnew := List.mem_append.mp hp
    · have hholds := (h.holds p hold).append [] bytes
      rwa [List.append_nil] at hholds
    · rw [List.mem_singleton.mp hnew]
      exact hpage
  · obtain ⟨start, hstart, htiles⟩ := h.tiles
    exact ⟨start, hstart, hfirst ▸ htiles.append page hposition⟩
  · intro i slot hslot
    rw [hcache] at hslot
    obtain ⟨p, hp, hrest⟩ := h.cache i slot hslot
    exact ⟨p, (List.getElem?_append_left (List.getElem?_eq_some_iff.mp hp).1).trans hp, hrest⟩

/-- The oldest resident events that fit go into one page, and there is at least one of them. -/
theorem Holds.spillFrontChunk (h : Holds codec s all base reserved) (hsome : s.first < s.endAt) :
    ∃ t, JournalStore.spillFrontChunk codec s = (.ok (), t) ∧ Holds codec t all base reserved ∧
      t.endAt = s.endAt ∧ s.first < t.first := by
  obtain ⟨pages, hpages⟩ := h.spilled
  have hend := h.resident.endAt
  have hbase := h.resident.base
  have hcover := h.resident.cover
  have hnear : s.first < s.chunkBase + 32 := by
    obtain hnil | hnear := h.resident.near
    · unfold coverage at hcover
      rw [hnil, List.length_nil] at hcover
      omega
    · exact hnear
  obtain ⟨n, hn⟩ : ∃ n, n = min s.endAt (s.chunkBase + chunkSlots) - s.first := ⟨_, rfl⟩
  have hsize : 0 < n ∧ s.first + n ≤ all.length ∧ n ≤ chunkSlots := by
    unfold chunkSlots at hn ⊢
    omega
  have hlt : s.first < all.length := by omega
  have holdest : all[s.first]? = some all[s.first] := List.getElem?_eq_getElem hlt
  -- The events of the chunk, and those of them that the page takes.
  have hspilling : ({ s with spill := true } : JournalStore ε).Resident all :=
    h.resident.congr rfl rfl rfl rfl
  have hrange := hspilling.residentRange n (Nat.le_refl _) hsize.2.1
  obtain ⟨count, hcount, hgather, hlength, hsomeFits⟩ :=
    gather_spec codec ((all.drop s.first).take n) [] (Nat.zero_le _)
  have hcountPos : 0 < count := by
    refine hsomeFits all[s.first] ((all.drop (s.first + 1)).take (n - 1)) ?_ ?_
    · obtain ⟨m, rfl⟩ : ∃ m, n = m + 1 := ⟨n - 1, by omega⟩
      rw [List.drop_eq_getElem_cons hlt, List.take_succ_cons]
      rfl
    · rw [List.length_nil, Nat.zero_add]
      exact h.sound.small _ (List.getElem_mem hlt)
  rw [List.length_take, List.length_drop] at hcount
  have htake : ((all.drop s.first).take n).take count = (all.drop s.first).take count := by
    rw [List.take_take, Nat.min_eq_left (by omega)]
  rw [List.nil_append, htake] at hgather hlength
  obtain ⟨newest, hnewest⟩ : ∃ newest, ((all.drop s.first).take n)[count - 1]? = some newest := by
    refine ⟨_, List.getElem?_eq_getElem ?_⟩
    rw [List.length_take, List.length_drop]
    omega
  have hfirstEvent : ((all.drop s.first).take n)[0]? = some all[s.first] := by
    rw [List.getElem?_take_of_lt hsize.1, List.getElem?_drop, Nat.add_zero, holdest]
  have hpage := @pageHolds_written ε codec all s.data s.first count (codec.ordinal newest) _ holdest
    hcountPos (by omega) (by omega) hlength
  generalize hdefinition : JournalPage.mk s.first count (codec.ordinal all[s.first])
    (codec.ordinal newest) s.data.length
    (((all.drop s.first).take count).flatMap codec.save).length = page at hpage
  have hposition : page.firstPosition = s.first := by rw [← hdefinition]
  have hpageCount : page.count = count := by rw [← hdefinition]
  generalize hout : ((all.drop s.first).take count).flatMap codec.save = out at *
  have hresident : (({ s with spill := true } : JournalStore ε).publishPage page out).Resident
      all :=
    h.resident.congr rfl rfl rfl rfl
  obtain ⟨hdropped, hnewFirst, hcoverage, hlog, hdata, hspill, hcache⟩ :=
    @Resident.dropFront _ _ _ hresident (s.first + count) (Nat.le_add_right ..)
      (by change s.first + count ≤ s.endAt; omega)
  refine ⟨_, ?_, ⟨h.sound, hdropped, ?_, ⟨pages ++ [page], ?_⟩, h.covered.trans hcoverage⟩,
    hdropped.endAt.trans hend.symm, ?_⟩
  · obtain ⟨m, rfl⟩ : ∃ m, count = m + 1 := ⟨count - 1, by omega⟩
    unfold JournalStore.spillFrontChunk
    dsimp only
    rw [if_neg (by omega), ← hn, hrange]
    dsimp only
    rw [hgather]
    dsimp only
    rw [hfirstEvent, hnewest, ← hdefinition]
  · rw [hnewFirst]
    exact Nat.le_add_right_of_le h.dropped
  · exact hpages.publish hpage hposition hlog hdata (hnewFirst.trans (by rw [hpageCount]))
      hcache hspill
  · rw [hnewFirst]
    omega

theorem Holds.spillDown (incoming : ℕ) : ∀ (fuel : ℕ) {s : JournalStore ε},
    Holds codec s all base reserved → s.residentCount ≤ fuel →
    ∃ t, JournalStore.spillDown codec incoming fuel s = (.ok (), t) ∧
      Holds codec t all base reserved ∧ t.endAt = s.endAt ∧
      ¬(t.residentCount + incoming > maxResident ∧ t.residentCount > keepResident)
  | 0, s, h, hfuel => ⟨s, rfl, h, rfl, fun hmore => absurd hmore.2 (by unfold keepResident; omega)⟩
  | fuel + 1, s, h, hfuel => by
    by_cases hmore : s.residentCount + incoming > maxResident ∧ s.residentCount > keepResident
    · have hsome : s.first < s.endAt := by
        have := hmore.2
        unfold residentCount at this
        omega
      obtain ⟨t, ht, hholds, hend, hfirst⟩ := h.spillFrontChunk hsome
      obtain ⟨u, hu, hdone⟩ := Holds.spillDown incoming fuel hholds (by
        unfold residentCount at hfuel ⊢
        omega)
      refine ⟨u, ?_, hdone.1, hdone.2.1.trans hend, hdone.2.2⟩
      unfold JournalStore.spillDown
      rw [Command.get_bind_apply, if_pos hmore]
      exact (Command.bind_ok ht _).trans hu
    · refine ⟨s, ?_, h, rfl, hmore⟩
      unfold JournalStore.spillDown
      rw [Command.get_bind_apply, if_neg hmore]
      rfl

theorem Spilled.congr {pages : List JournalPage} (h : s.Spilled codec all base pages)
    {t : JournalStore ε} (hpages : t.pages = s.pages) (hdata : t.data = s.data)
    (hfirst : t.first = s.first) (hcache : t.cache = s.cache) (hspill : t.spill = s.spill) :
    t.Spilled codec all base pages := by
  have := h.append [] hpages hdata hfirst hcache hspill
  rwa [List.append_nil] at this

/-- Making room changes nothing seen. -/
theorem Holds.makeRoom (h : Holds codec s all base reserved) (incoming : ℕ) :
    ∃ t, JournalStore.makeRoom codec incoming s = (.ok (), t) ∧
      Holds codec t all base (max reserved (all.length + incoming)) := by
  obtain ⟨t, ht, hholds, hend, -⟩ := h.spillDown incoming s.residentCount (Nat.le_refl _)
  have hendAt := hholds.resident.endAt
  have hfirst := hholds.resident.first
  have hbase := hholds.resident.base
  have hcover := hholds.resident.cover
  obtain ⟨u, hu⟩ : ∃ u : JournalStore ε, u =
      { t with chunkBase := if t.chunks = [] then t.endAt else t.chunkBase } := ⟨_, rfl⟩
  have hsame : u.chunkBase = t.chunkBase ∧ t.first < t.chunkBase + 32 := by
    rw [hu]
    dsimp only
    by_cases hnil : t.chunks = []
    · unfold coverage at hcover
      rw [hnil, List.length_nil] at hcover
      rw [if_pos hnil]
      omega
    · rw [if_neg hnil]
      exact ⟨rfl, hholds.resident.near.resolve_left hnil⟩
  have hchunks : u.chunks = t.chunks := by rw [hu]
  have hfirstU : u.first = t.first := by rw [hu]
  have hendU : u.endAt = t.endAt := by rw [hu]
  have hresident : u.Resident all := hholds.resident.congr hchunks hsame.1 hfirstU hendU
  have hcoverage : u.coverage = t.coverage := by
    unfold coverage
    rw [hchunks, hsame.1]
  obtain ⟨hgrown, hneed, hmono, hf, hp, hd, hs, hc⟩ := growTo_spec (u.endAt + incoming)
    (u.endAt + incoming) u hresident (by omega) (by omega) (Nat.le_add_left ..)
  obtain ⟨pages, hpages⟩ := hholds.spilled
  refine ⟨growTo (u.endAt + incoming) (u.endAt + incoming) u, ?_,
    ⟨h.sound, hgrown, ?_, ⟨pages, ?_⟩, ?_⟩⟩
  · unfold JournalStore.makeRoom
    rw [Command.get_bind_apply, Command.bind_ok ht, hu]
    rfl
  · rw [hf, hfirstU]
    exact hholds.dropped
  · apply hpages.congr
    · rw [hp, hu]
    · rw [hd, hu]
    · rw [hf, hfirstU]
    · rw [hc, hu]
    · rw [hs, hu]
  · have := hholds.covered
    omega

end JournalStore

end PineForge.Journal
