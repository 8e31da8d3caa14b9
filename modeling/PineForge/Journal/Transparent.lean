import PineForge.Journal.Lookups
import PineForge.Journal.Events

/-!
# Paging is invisible

Each operation answers as the plain list does and keeps the history in step with it, so that whole
runs answer alike: for every kind of event that is read back as it was written. The events of the
core are of that kind unless they hold a refused request with an external list that names no
opening.

The history is the journal as the core shows it: a window of retained events that is asked by
position and by ordinal and that a retirement moves forward. `PlainLog` is what the journal is for:
the list of all events, of which some first ones are dropped.
-/

namespace PineForge.Journal

/-! ## The history of a run -/

section

variable {ε ι : Type} [DecidableEq ι]

/-- The core's history: the journal, the first retained position and the newest retired ordinal. -/
structure History (ε ι : Type) where
  identity : ι
  store : JournalStore ε
  base : ℕ
  retiredThrough : ℕ

/-- A new history. -/
def History.new (identity : ι) : History ε ι :=
  { identity := identity, store := .empty, base := 0, retiredThrough := 0 }

/-- What is asked of a history. -/
inductive Op (ε ι : Type)
  | makeRoom (incoming : ℕ)
  | push (event : ε)
  | spill
  | retire (throughOrdinal : ℕ) (floor : Option ℕ)
  | historyAt (absolute : ℕ)
  | eventAt (run : ι) (ordinal : ℕ)
  | findOrdinal (ordinal : ℕ)

/-- What is answered. -/
inductive Answer (ε : Type)
  | done
  | retired (count : ℕ)
  | event (found : Option ε)
  | position (found : Option ℕ)
  | failed (failure : Failure)
deriving DecidableEq

namespace History

variable (codec : Codec ε)

/-- Runs a command on the journal. -/
def onStore {β : Type} (command : Command (JournalStore ε) Failure β) (answer : β → Answer ε)
    (h : History ε ι) : Answer ε × History ε ι :=
  match command h.store with
  | (.ok b, store) => (answer b, { h with store := store })
  | (.error e, store) => (.failed e, { h with store := store })

/-- The event at an absolute position. -/
def historyAt (absolute : ℕ) (h : History ε ι) : Answer ε × History ε ι :=
  if absolute < h.base ∨ h.store.endAt ≤ absolute then (.failed .notRetained, h)
  else h.onStore (JournalStore.at_ codec absolute) fun event => .event (some event)

/-- The event at a position that a lookup found. -/
def eventAtFound : Option ℕ → Command (JournalStore ε) Failure (Option ε)
  | none => pure none
  | some position => do
    let event ← JournalStore.at_ codec position
    pure (some event)

/-- The event of a run's ordinal. -/
def eventAt (run : ι) (ordinal : ℕ) (h : History ε ι) : Answer ε × History ε ι :=
  if run ≠ h.identity ∨ ordinal = 0 then (.event none, h)
  else h.onStore (do
    let position ← JournalStore.findOrdinal codec ordinal h.base
    eventAtFound codec position) .event

/-- The highest ordinal that may be retired: what a live chain of adjustments still reads stays. -/
def retireLimit (throughOrdinal : ℕ) : Option ℕ → Option ℕ
  | none => some throughOrdinal
  | some 0 => none
  | some (floor + 1) => some (min throughOrdinal floor)

/-- `retire_history`: a read that fails retires nothing. -/
def retire (throughOrdinal : ℕ) (floor : Option ℕ) (h : History ε ι) : Answer ε × History ε ι :=
  if h.base = h.store.endAt then (.retired 0, h)
  else match retireLimit throughOrdinal floor with
  | none => (.retired 0, h)
  | some limit =>
    match JournalStore.upperBoundPosition codec limit h.base h.store with
    | (.error _, store) => (.retired 0, { h with store := store })
    | (.ok cut, store) =>
      if cut - h.base = 0 then (.retired 0, { h with store := store })
      else match JournalStore.ordinalAt codec (cut - 1) store with
      | (.error _, store) => (.retired 0, { h with store := store })
      | (.ok newest, store) =>
        let store := if cut > store.first then store.dropFront cut else store
        let store := if cut ≥ store.first ∧ store.pages.size ≠ 0 then store.releasePages else store
        (.retired (cut - h.base), { h with store := store, base := cut, retiredThrough := newest })

/-- One call. -/
def step (h : History ε ι) : Op ε ι → Answer ε × History ε ι
  | .makeRoom incoming => h.onStore (JournalStore.makeRoom codec incoming) fun _ => .done
  | .push event => (.done, { h with store := h.store.push event })
  | .spill => h.onStore (JournalStore.spillFrontChunk codec) fun _ => .done
  | .retire throughOrdinal floor => h.retire codec throughOrdinal floor
  | .historyAt absolute => h.historyAt codec absolute
  | .eventAt run ordinal => h.eventAt codec run ordinal
  | .findOrdinal ordinal =>
    h.onStore (JournalStore.findOrdinal codec ordinal h.base) .position

/-- The answers of calls. -/
def run (h : History ε ι) : List (Op ε ι) → List (Answer ε)
  | [] => []
  | op :: ops => (h.step codec op).1 :: run (h.step codec op).2 ops

end History

/-! ## The plain list -/

/-- All events that were appended, how many of the first are dropped, and up to where room was
asked. -/
structure PlainLog (ε : Type) where
  events : List ε
  dropped : ℕ
  reserved : ℕ

namespace PlainLog

variable (codec : Codec ε)

/-- A log without events. -/
def new : PlainLog ε := { events := [], dropped := 0, reserved := 0 }

/-- The events that are retained. -/
def retained (log : PlainLog ε) : List ε := log.events.drop log.dropped

/-- The answers of a plain list to the run `identity`. -/
def step (identity : ι) (log : PlainLog ε) : Op ε ι → Answer ε × PlainLog ε
  | .makeRoom incoming =>
    (.done, { log with reserved := max log.reserved (log.events.length + incoming) })
  | .push event => (.done, { log with events := log.events ++ [event] })
  | .spill => (.done, log)
  | .retire throughOrdinal floor =>
    let count := match History.retireLimit throughOrdinal floor with
      | none => 0
      | some limit => (log.retained.takeWhile (codec.ordinal · ≤ limit)).length
    (.retired count, { log with dropped := log.dropped + count })
  | .historyAt absolute =>
    if absolute < log.dropped then (.failed .notRetained, log)
    else match log.events[absolute]? with
    | none => (.failed .notRetained, log)
    | some event => (.event (some event), log)
  | .eventAt run ordinal =>
    if run ≠ identity ∨ ordinal = 0 then (.event none, log)
    else (.event (log.retained.find? (codec.ordinal · = ordinal)), log)
  | .findOrdinal ordinal =>
    (.position ((log.retained.findIdx? (codec.ordinal · = ordinal)).map (log.dropped + ·)), log)

/-- The answers of calls on the plain log. -/
def run (identity : ι) (log : PlainLog ε) : List (Op ε ι) → List (Answer ε)
  | [] => []
  | op :: ops => (log.step codec identity op).1 :: run identity (log.step codec identity op).2 ops

/-- What the core keeps to: it appends an event only where it asked for room, with an ordinal above
all before it, and an event that is below the page bound and of the kind that it makes. -/
def Allowed (made : ε → Prop) (log : PlainLog ε) : Op ε ι → Prop
  | .push event => log.events.length < log.reserved ∧
      (∀ e ∈ log.events, codec.ordinal e < codec.ordinal event) ∧
      (codec.save event).length ≤ spillPageBytes ∧ made event
  | _ => True

/-- Every call is one the callers make. -/
def AllAllowed (made : ε → Prop) (identity : ι) (log : PlainLog ε) : List (Op ε ι) → Prop
  | [] => True
  | op :: ops =>
    log.Allowed codec made op ∧ AllAllowed made identity (log.step codec identity op).2 ops

end PlainLog

end

/-! ## The history shows the list -/

open BigEndian (Bytes)

variable {ε ι : Type} {codec : Codec ε}

/-- The history shows what the log has. -/
structure History.Shows (codec : Codec ε) (h : History ε ι) (log : PlainLog ε) : Prop where
  holds : JournalStore.Holds codec h.store log.events log.dropped log.reserved
  base : h.base = log.dropped

variable {h : History ε ι} {log : PlainLog ε}

theorem History.Shows.onStore (hs : h.Shows codec log) {β : Type}
    {command : Command (JournalStore ε) Failure β} {b : β} {t : JournalStore ε}
    {answer : β → Answer ε}
    {next : PlainLog ε} (hrun : command h.store = (.ok b, t))
    (hholds : JournalStore.Holds codec t next.events next.dropped next.reserved)
    (hdropped : next.dropped = log.dropped) :
    (h.onStore command answer).1 = answer b ∧ (h.onStore command answer).2.Shows codec next ∧
      (h.onStore command answer).2.identity = h.identity := by
  unfold History.onStore
  rw [hrun]
  exact ⟨rfl, ⟨hholds, hs.base.trans hdropped.symm⟩, rfl⟩

theorem History.shows_new (identity : ι) : (History.new identity : History ε ι).Shows codec .new :=
  ⟨JournalStore.holds_empty, rfl⟩

/-! ## What the plain list finds -/

/-- The search finds what a scan does. -/
theorem findIdx_eq {all : List ε} {base ordinal : ℕ} (hsound : Sound codec all) {found : Option ℕ}
    (hfound : JournalStore.FoundAt codec all base ordinal found) :
    ((all.drop base).findIdx? (codec.ordinal · = ordinal)).map (base + ·) = found := by
  cases found with
  | none =>
    rw [Option.map_eq_none_iff, List.findIdx?_eq_none_iff]
    intro x hx
    obtain ⟨i, hi⟩ := List.mem_iff_getElem?.mp hx
    rw [List.getElem?_drop] at hi
    have hne := hfound (base + i) (Nat.le_add_right ..)
    rw [hi, Option.map_some] at hne
    exact decide_eq_false fun h => hne (congrArg some h)
  | some position =>
    obtain ⟨hbase, hordinal⟩ := hfound
    obtain ⟨x, hx, hxordinal⟩ := Option.map_eq_some_iff.mp hordinal
    obtain ⟨hin, hget⟩ := List.getElem?_eq_some_iff.mp hx
    have hindex : (all.drop base).findIdx? (codec.ordinal · = ordinal)
        = some (position - base) := by
      rw [List.findIdx?_eq_some_iff_getElem]
      refine ⟨by rw [List.length_drop]; omega, ?_, fun j hj hfalse => ?_⟩
      · have hplace : base + (position - base) = position := by omega
        rw [List.getElem_drop]
        simp only [hplace, hget]
        exact decide_eq_true hxordinal
      · rw [List.getElem_drop] at hfalse
        have hstrict := List.pairwise_iff_getElem.mp hsound.ascending (base + j) position
          (by omega) hin
          (by omega)
        have hequal := of_decide_eq_true hfalse
        rw [hget] at hstrict
        omega
    rw [hindex, Option.map_some, Nat.add_sub_cancel' hbase]

theorem find_eq {all : List ε} {base ordinal : ℕ} (hsound : Sound codec all) {found : Option ℕ}
    (hfound : JournalStore.FoundAt codec all base ordinal found) :
    (all.drop base).find? (codec.ordinal · = ordinal) = found.bind (all[·]?) := by
  rw [← findIdx_eq hsound hfound, List.find?_eq_bind_findIdx?_getElem?, Option.bind_map]
  congr 1
  funext i
  rw [List.getElem?_drop]
  rfl

/-! ## The steps -/

variable [DecidableEq ι]

theorem History.Shows.eventAt (hs : h.Shows codec log) {run : ι} {ordinal : ℕ}
    (hasked : ¬(run ≠ h.identity ∨ ordinal = 0)) :
    (h.eventAt codec run ordinal).1
        = .event (log.retained.find? (codec.ordinal · = ordinal)) ∧
      (h.eventAt codec run ordinal).2.Shows codec log ∧
      (h.eventAt codec run ordinal).2.identity = h.identity := by
  obtain ⟨found, t, hfind, hholds, hfound⟩ := hs.holds.findOrdinal ordinal
  have hplain := find_eq hs.holds.sound hfound
  unfold History.eventAt PlainLog.retained
  rw [if_neg hasked, hplain, hs.base]
  cases found with
  | none =>
    have hrun : (JournalStore.findOrdinal codec ordinal log.dropped
      >>= History.eventAtFound codec) h.store
        = (.ok none, t) := Command.bind_ok hfind _
    exact hs.onStore hrun hholds rfl
  | some position =>
    obtain ⟨x, hx, -⟩ := Option.map_eq_some_iff.mp hfound.2
    obtain ⟨u, hat, hholdsU⟩ := hholds.at_ hfound.1 hx
    have hrun : (JournalStore.findOrdinal codec ordinal log.dropped
      >>= History.eventAtFound codec) h.store
        = (.ok (some x), u) := (Command.bind_ok hfind _).trans (Command.bind_ok hat _)
    rw [Option.bind_some, hx]
    exact hs.onStore hrun hholdsU rfl

theorem History.Shows.historyAt (hs : h.Shows codec log) (absolute : ℕ) :
    (h.historyAt codec absolute).1 = (log.step codec h.identity (.historyAt absolute)).1 ∧
      (h.historyAt codec absolute).2.Shows codec log ∧
      (h.historyAt codec absolute).2.identity = h.identity := by
  have hend := hs.holds.resident.endAt
  have hbase := hs.base
  unfold History.historyAt PlainLog.step
  dsimp only
  by_cases hlow : absolute < log.dropped
  · rw [if_pos (.inl (by omega)), if_pos hlow]
    exact ⟨rfl, hs, rfl⟩
  · rw [if_neg hlow]
    cases hevent : log.events[absolute]? with
    | none =>
      have := List.getElem?_eq_none_iff.mp hevent
      rw [if_pos (.inr (by omega))]
      exact ⟨rfl, hs, rfl⟩
    | some event =>
      have := (List.getElem?_eq_some_iff.mp hevent).1
      obtain ⟨t, hat, hholds⟩ := hs.holds.at_ (Nat.le_of_not_lt hlow) hevent
      rw [if_neg (by omega)]
      exact hs.onStore hat hholds rfl

/-- Retiring keeps the events behind the cut. -/
theorem holds_retired {s : JournalStore ε} {all : List ε} {base reserved cut : ℕ}
    (hholds : JournalStore.Holds codec s all base reserved) (hlow : base ≤ cut)
    (hhigh : cut ≤ all.length) :
    let dropped := if cut > s.first then s.dropFront cut else s
    let released := if cut ≥ dropped.first ∧ dropped.pages.size ≠ 0 then
      dropped.releasePages else dropped
    JournalStore.Holds codec released all cut reserved := by
  obtain ⟨pages, hpages⟩ := hholds.spilled
  dsimp only
  -- What the drop leaves: the resident part from the cut on, and the pages as they were.
  obtain ⟨t, ht, hresident, hfirst, hcover, hlog, hdata, hspill, hcache⟩ :
      ∃ t, t = (if cut > s.first then s.dropFront cut else s) ∧ t.Resident all ∧
        t.first = max s.first cut ∧ s.coverage ≤ t.coverage ∧ t.pages = s.pages ∧ t.data = s.data ∧
        t.spill = s.spill ∧ t.cache = s.cache := by
    by_cases hpast : cut > s.first
    · have hend := hholds.resident.endAt
      obtain ⟨hr, hf, hrest⟩ := hholds.resident.dropFront hpast.le (by omega)
      refine ⟨_, rfl, ?_⟩
      rw [if_pos hpast]
      exact ⟨hr, hf.trans (Nat.max_eq_right hpast.le).symm, hrest⟩
    · refine ⟨_, rfl, ?_⟩
      rw [if_neg hpast]
      exact ⟨hholds.resident, (Nat.max_eq_left (Nat.le_of_not_lt hpast)).symm,
        Nat.le_refl _, rfl, rfl,
        rfl, rfl⟩
  rw [← ht]
  by_cases hrelease : cut ≥ t.first ∧ t.pages.size ≠ 0
  · rw [if_pos hrelease]
    refine ⟨hholds.sound, hresident.congr rfl rfl rfl rfl, ?_, ⟨[], ?_⟩,
      hholds.covered.trans hcover⟩
    · change cut ≤ t.first
      omega
    · refine ⟨?_, rfl, fun _ h => absurd h List.not_mem_nil, ⟨t.first, hrelease.1, rfl⟩,
        fun _ _ h => (by cases h), fun h => absurd rfl h⟩
      change t.pages.reset.Holds []
      rw [hlog]
      exact hpages.log.reset
  · rw [if_neg hrelease]
    refine ⟨hholds.sound, hresident, by omega, ?_, hholds.covered.trans hcover⟩
    by_cases hpast : cut ≥ t.first
    · have hsize : t.pages.size = 0 := by
        by_contra hne
        exact hrelease ⟨hpast, hne⟩
      have hnil : pages = [] := by
        apply List.length_eq_zero_iff.mp
        rw [← hpages.size, ← hlog, hsize]
      subst hnil
      refine ⟨[], hlog ▸ hpages.log, hlog ▸ hpages.logBase, fun _ h => absurd h List.not_mem_nil,
        ⟨t.first, hpast, rfl⟩, ?_, fun h => absurd rfl h⟩
      intro i slot hslot
      obtain ⟨page, hpage, -⟩ := hpages.cache i slot (hcache ▸ hslot)
      cases hpage
    · have hsame : t.first = s.first := by omega
      obtain ⟨start, hstart, htiles⟩ := hpages.tiles
      have hkept := hpages.congr hlog hdata hsame hcache hspill
      exact ⟨pages, hkept.log, hkept.logBase, hkept.holds,
        ⟨start, hstart.trans hlow, hsame ▸ htiles⟩,
        hkept.cache, hkept.spill⟩

/-- Retiring answers as the plain log does. -/
theorem History.Shows.retire (hs : h.Shows codec log) (throughOrdinal : ℕ) (floor : Option ℕ) :
    (h.retire codec throughOrdinal floor).1
        = (log.step codec h.identity (.retire throughOrdinal floor)).1 ∧
      (h.retire codec throughOrdinal floor).2.Shows codec
        (log.step codec h.identity (.retire throughOrdinal floor)).2 ∧
      (h.retire codec throughOrdinal floor).2.identity = h.identity := by
  have hend := hs.holds.resident.endAt
  have hfirst := hs.holds.resident.first
  have hdropped := hs.holds.dropped
  have hbase := hs.base
  have hcount : ∀ limit, (log.retained.takeWhile (codec.ordinal · ≤ limit)).length
      = cutAt codec.ordinal limit log.events - log.dropped :=
    fun limit => cutAt_drop hs.holds.sound.sorted log.dropped
  have hcut : ∀ limit, cutAt codec.ordinal limit log.events ≤ log.events.length := fun _ => cutAt_le
  unfold History.retire PlainLog.step
  dsimp only
  cases hlimit : History.retireLimit throughOrdinal floor with
  | none =>
    dsimp only
    by_cases hnone : h.base = h.store.endAt
    · rw [if_pos hnone]
      exact ⟨rfl, hs, rfl⟩
    · rw [if_neg hnone]
      exact ⟨rfl, hs, rfl⟩
  | some limit =>
    dsimp only
    rw [hcount limit]
    have hle := hcut limit
    by_cases hnone : h.base = h.store.endAt
    · have hzero : cutAt codec.ordinal limit log.events - log.dropped = 0 := by omega
      rw [if_pos hnone, hzero]
      exact ⟨rfl, hs, rfl⟩
    · obtain ⟨t, hupper, hholds⟩ := hs.holds.upperBoundPosition limit
      rw [if_neg hnone, hbase, hupper]
      dsimp only
      by_cases hzero : max log.dropped (cutAt codec.ordinal limit log.events) - log.dropped = 0
      · have hnothing : cutAt codec.ordinal limit log.events - log.dropped = 0 := by omega
        rw [if_pos hzero, hnothing]
        exact ⟨rfl, ⟨hholds, rfl⟩, rfl⟩
      · have hmax : max log.dropped (cutAt codec.ordinal limit log.events)
            = cutAt codec.ordinal limit log.events := by omega
        have hsum : log.dropped + (cutAt codec.ordinal limit log.events - log.dropped)
            = cutAt codec.ordinal limit log.events := by omega
        have hin : cutAt codec.ordinal limit log.events - 1 < log.events.length := by omega
        obtain ⟨u, hat, hholdsU⟩ := @JournalStore.Holds.ordinalAt _ _ _ _ _ _ hholds
          (cutAt codec.ordinal limit log.events - 1) (by omega) _ (List.getElem?_eq_getElem hin)
        rw [if_neg hzero, hmax, hat, hsum]
        exact ⟨rfl, ⟨holds_retired hholdsU (by omega) hle, rfl⟩, rfl⟩

/-- One operation: the answer is that of the plain list, and the history shows what the list
became. -/
theorem History.Shows.step {made : ε → Prop}
    (hmade : ∀ event, made event → ∀ rest, codec.load (codec.save event ++ rest)
      = some (event, rest))
    (hs : h.Shows codec log) {op : Op ε ι} (hop : log.Allowed codec made op) :
    (h.step codec op).1 = (log.step codec h.identity op).1 ∧
      (h.step codec op).2.Shows codec (log.step codec h.identity op).2 ∧
      (h.step codec op).2.identity = h.identity := by
  cases op with
  | makeRoom incoming =>
    obtain ⟨t, hrun, hholds⟩ := hs.holds.makeRoom incoming
    exact hs.onStore hrun hholds rfl
  | push event =>
    obtain ⟨hroom, habove, hsmall, hkind⟩ := hop
    have hsound := hs.holds.sound
    refine ⟨rfl, ⟨hs.holds.push hroom ⟨?_, ?_, ?_⟩, hs.base⟩, rfl⟩
    · rw [List.pairwise_append]
      refine ⟨hsound.ascending, List.pairwise_singleton _ _, fun e he f hf => ?_⟩
      rw [List.mem_singleton.mp hf]
      exact habove e he
    · intro e he
      obtain hold | hnew := List.mem_append.mp he
      · exact hsound.small e hold
      · rw [List.mem_singleton.mp hnew]
        exact hsmall
    · intro e he
      obtain hold | hnew := List.mem_append.mp he
      · exact hsound.loads e hold
      · rw [List.mem_singleton.mp hnew]
        exact hmade event hkind
  | spill =>
    by_cases hsome : h.store.first < h.store.endAt
    · obtain ⟨t, hrun, hholds, -⟩ := hs.holds.spillFrontChunk hsome
      exact hs.onStore hrun hholds rfl
    · have hrun : JournalStore.spillFrontChunk codec h.store = (.ok (), h.store) := by
        unfold JournalStore.spillFrontChunk
        dsimp only
        rw [if_pos (by omega)]
      exact hs.onStore hrun hs.holds rfl
  | retire throughOrdinal floor => exact hs.retire throughOrdinal floor
  | historyAt absolute =>
    have hlog : (log.step codec h.identity (.historyAt absolute)).2 = log := by
      unfold PlainLog.step
      dsimp only
      split
      · rfl
      · split <;> rfl
    rw [hlog]
    exact hs.historyAt absolute
  | eventAt run ordinal =>
    unfold PlainLog.step
    dsimp only
    by_cases hasked : run ≠ h.identity ∨ ordinal = 0
    · rw [if_pos hasked]
      unfold History.step History.eventAt
      dsimp only
      rw [if_pos hasked]
      exact ⟨rfl, hs, rfl⟩
    · rw [if_neg hasked]
      exact hs.eventAt hasked
  | findOrdinal ordinal =>
    obtain ⟨found, t, hfind, hholds, hfound⟩ := hs.holds.findOrdinal ordinal
    unfold History.step PlainLog.step PlainLog.retained
    dsimp only
    rw [findIdx_eq hs.holds.sound hfound, hs.base]
    exact hs.onStore hfind hholds rfl

theorem History.Shows.run {made : ε → Prop}
    (hmade : ∀ event, made event → ∀ rest, codec.load (codec.save event ++ rest)
      = some (event, rest))
    (hs : h.Shows codec log) {ops : List (Op ε ι)}
    (hops : log.AllAllowed codec made h.identity ops) :
    h.run codec ops = log.run codec h.identity ops := by
  induction ops generalizing h log with
  | nil => rfl
  | cons op ops ih =>
    obtain ⟨hanswer, hshows, hidentity⟩ := hs.step hmade hops.1
    unfold History.run PlainLog.run
    rw [hanswer, ih hshows (by rw [hidentity]; exact hops.2), hidentity]

/-! ## The events of the core -/

section

variable (sizeOf : Plain → ℕ+)

/-- The codec of events. -/
def eventCodec : Codec (Val sizeOf commandEvent) where
  save := save sizeOf commandEvent
  load := load sizeOf false commandEvent
  ordinal := eventOrdinal

/-- An event as the core makes it, without a refused request whose external list names no
opening. -/
def PagesAsItIs (event : Val sizeOf commandEvent) : Prop :=
  FrozenWhereAccepted commandEvent event ∧ RefusedListsNameOpenings event

/-- Paging, retirement and the cache change no answer, as long as no event holds a refused request
whose external list names no opening; and an event comes back from the archive exactly when it holds
none, while a row of the working book always does. -/
theorem paging_invisible (identity : ι) :
    (∀ ops : List (Op (Val sizeOf commandEvent) ι),
      PlainLog.new.AllAllowed (eventCodec sizeOf) (PagesAsItIs sizeOf) identity ops →
      (History.new identity).run (eventCodec sizeOf) ops
        = PlainLog.new.run (eventCodec sizeOf) identity ops) ∧
    (∀ event : Val sizeOf commandEvent, FrozenWhereAccepted commandEvent event →
      (load sizeOf false commandEvent (save sizeOf commandEvent event) = some (event, [])
        ↔ RefusedListsNameOpenings event)) ∧
    (∀ live : Val sizeOf liveRequest, FrozenWhereAccepted liveRequest live →
      load sizeOf false liveRequest (save sizeOf liveRequest live) = some (live, [])) := by
  refine ⟨fun ops hops => ?_, fun event hfrozen => ?_, fun live hfrozen => ?_⟩
  · refine History.Shows.run ?_ (History.shows_new identity) hops
    intro event hmade rest
    exact (load_save_event_iff hmade.1 rest).mpr hmade.2
  · have hiff := load_save_event_iff hfrozen []
    rwa [List.append_nil] at hiff
  · have hload := load_save_liveRequest hfrozen []
    rwa [List.append_nil] at hload

end

/-- The bytes of the types that a refused close is written with. -/
def layout : Plain → ℕ+
  | .word | .integer | .real => 8
  | .handle | .eventId => 24
  | _ => 1

/-- A value of zero bytes. -/
def blank (plain : Plain) : Image layout plain :=
  ⟨List.replicate (layout plain) 0, List.length_replicate⟩

/-- The request to close openings of an external list. -/
def externalClose (openings : { hs : List RequestHandle // hs.length < 2 ^ 64 }) :
    Val layout request :=
  let owner : Val layout owner :=
    Sum.inr (Sum.inr (Sum.inr (Sum.inl
      ((⟨[], by norm_num⟩, blank .integer, some openings, ()) : Val layout bindOpenings))))
  let text : Val layout .string := ⟨[], by norm_num⟩
  (Sum.inl (blank .flatten), text, text, Sum.inl (blank .market),
    Sum.inl (blank .immediateRemaining),
    owner, Sum.inl (blank .noGroup), Sum.inl (blank .absolute), ())

/-- The event of its refusal, the first of a run. -/
def refusedClose (openings : { hs : List RequestHandle // hs.length < 2 ^ 64 }) :
    Val layout commandEvent :=
  Sum.inr (Sum.inl
    ((⟨[1, 0, 0, 0, 0, 0, 0, 0], rfl⟩, externalClose openings, blank .rejectReason,
      blank .surface, ()) :
      Val layout rejectedEvent))

/-- A list of one handle. -/
def oneOpening : { hs : List RequestHandle // hs.length < 2 ^ 64 } :=
  ⟨[{ run := ⟨List.replicate 16 0, rfl⟩, incarnation := ⟨1, by norm_num⟩ }], by norm_num⟩

theorem externals_refusedClose (openings : { hs : List RequestHandle // hs.length < 2 ^ 64 }) :
    externals false commandEvent (refusedClose openings) = [(true, openings.val)] := rfl

theorem frozen_refusedClose (openings : { hs : List RequestHandle // hs.length < 2 ^ 64 }) :
    FrozenWhereAccepted commandEvent (refusedClose openings) := by
  intro hs hmem
  rw [externals_refusedClose, List.mem_singleton] at hmem
  cases (Prod.mk.inj hmem).1

theorem pagesAsItIs_refusedClose : PagesAsItIs layout (refusedClose oneOpening) := by
  refine ⟨frozen_refusedClose oneOpening, ?_⟩
  unfold RefusedListsNameOpenings
  rw [externals_refusedClose, List.mem_singleton]
  intro h
  cases (Prod.mk.inj h).2

/-- A refused close of one opening is appended, spilled and read back. -/
theorem paging_invisible_refusedClose :
    PlainLog.new.AllAllowed (eventCodec layout) (PagesAsItIs layout) ()
        [.makeRoom 1, .push (refusedClose oneOpening), .spill, .historyAt 0] ∧
      (History.new ()).run (eventCodec layout)
          [.makeRoom 1, .push (refusedClose oneOpening), .spill, .historyAt 0]
        = PlainLog.new.run (eventCodec layout) ()
          [.makeRoom 1, .push (refusedClose oneOpening), .spill, .historyAt 0] ∧
      load layout false commandEvent (save layout commandEvent (refusedClose oneOpening))
        = some (refusedClose oneOpening, []) := by
  have hallowed : PlainLog.new.AllAllowed (eventCodec layout) (PagesAsItIs layout) ()
      [.makeRoom 1, .push (refusedClose oneOpening), .spill, .historyAt 0] := by
    refine ⟨trivial, ⟨by decide, fun _ h => absurd h List.not_mem_nil, ?_,
      pagesAsItIs_refusedClose⟩,
      trivial, trivial, trivial⟩
    decide
  obtain ⟨hruns, hevents, -⟩ := paging_invisible layout ()
  exact ⟨hallowed, hruns _ hallowed,
    (hevents (refusedClose oneOpening) pagesAsItIs_refusedClose.1).mpr pagesAsItIs_refusedClose.2⟩

/-- The refusal of a close whose external list names no opening is well formed and far below the
page bound, and comes back from the archive without the list. -/
theorem refused_empty_list_lost :
    FrozenWhereAccepted commandEvent (refusedClose ⟨[], by norm_num⟩) ∧
      (save layout commandEvent (refusedClose ⟨[], by norm_num⟩)).length ≤ spillPageBytes ∧
      load layout false commandEvent (save layout commandEvent (refusedClose ⟨[], by norm_num⟩))
        ≠ some (refusedClose ⟨[], by norm_num⟩, []) := by
  refine ⟨frozen_refusedClose _, by decide, fun hload => ?_⟩
  have hiff := load_save_event_iff (frozen_refusedClose ⟨[], by norm_num⟩) []
  rw [List.append_nil] at hiff
  have hlost := hiff.mp hload
  unfold RefusedListsNameOpenings at hlost
  rw [externals_refusedClose, List.mem_singleton] at hlost
  exact hlost rfl

end PineForge.Journal
