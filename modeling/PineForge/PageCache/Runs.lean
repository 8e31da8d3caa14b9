import Mathlib
import PineForge.Machine.Runs
import PineForge.PageCache.Calls

/-!
# The cache is not seen

Runs of a cache against a store of pages without one. The store takes each put as it is made; what
the cache holds back is in `Cache.content`, over the pages of the backing. The two agree on every
byte a call gives, and a lease shows the bytes it was given for as long as it lives.
-/

namespace PineForge.PageCache

open Window (put window)

variable {α : Type} {policy : Policy} {c d : Cache α}

/-- The constructor: the slots are counted, not yet allocated. -/
def create (policy : Policy) (payload : ℕ → ℕ → α) (pages : Key → ℕ → α) (writable : Bool)
    (replies : List (Reply α))
    (allocates : Bool) : Cache α where
  slots := fun _ => {}
  payload := payload
  count := if policy.wellFormed then policy.capacityBytes / lineBytes policy.pageSize else 0
  memory := false
  allocationAttempted := false
  clockHand := 0
  leases := []
  pages := pages
  writable := writable
  replies := replies
  allocates := allocates

/-- The page as a reader has it: a dirty line over the backing. -/
def Cache.content (c : Cache α) (key : Key) (n : ℕ) : α :=
  ((List.range c.count).find? fun i => holds c key i && (c.slots i).dirty && n
    < (c.slots i).validBytes).elim
    (c.pages key n) fun i => c.payload i n

theorem sound_create (policy : Policy) (payload : ℕ → ℕ → α) (pages : Key → ℕ → α) (writable : Bool)
    (replies : List (Reply α)) (allocates : Bool) :
    Sound policy (create policy payload pages writable replies allocates) pages where
  lines _ _ hvalid := absurd hvalid Bool.false_ne_true
  rest _ _ _ := rfl
  unique _ _ _ _ hvalid := absurd hvalid Bool.false_ne_true
  direct _ _ _ hvalid := absurd hvalid Bool.false_ne_true
  dirty _ hdirty := absurd hdirty Bool.false_ne_true
  fresh _ := ⟨rfl, rfl⟩
  started hmemory := absurd hmemory Bool.false_ne_true
  attempted hmemory := absurd hmemory Bool.false_ne_true
  pins _ := rfl
  shows _ hlease := absurd hlease List.not_mem_nil

/-! ## Events -/

/-- The calls with their answers. -/
inductive Event (α : Type) where
  | get (key : Key) (size : ℕ) (status : Status) (bytes : List α)
  | pin (key : Key) (size : ℕ) (status : Status) (lease : Option (Lease α))
  | unpin (n : ℕ)
  | put (key : Key) (source : List α) (status : Status)
  /-- With the pages of the backing behind it. -/
  | flush (status : Status) (pages : Key → ℕ → α)
  | invalidate (status : Status)
  | rebind (pages : Key → ℕ → α) (status : Status)
  | discardDirty (allowed : Bool) (status : Status) (pages : Key → ℕ → α)
  /-- The owner's own write of a page, behind the cache. -/
  | change (key : Key) (page : ℕ → α)

/-- The calls of a cache. Its owner changes a page only when no line of it is left. -/
inductive Step (policy : Policy) : Cache α → Event α → Cache α → Prop
  | get (c : Cache α) (key : Key) (size : ℕ) :
    Step policy c (.get key size (get policy key size c).1.1 (get policy key size c).1.2)
      (get policy key size c).2
  | pin (c : Cache α) (key : Key) (size : ℕ) :
    Step policy c (.pin key size (pin policy key size c).1.1 (pin policy key size c).1.2)
      (pin policy key size c).2
  | unpin (c : Cache α) (n : ℕ) : Step policy c (.unpin n) (unpin n c)
  | put (c : Cache α) (key : Key) (source : List α) :
    Step policy c (.put key source (putPage policy key source c).1) (putPage policy key source c).2
  | flush (c : Cache α) : Step policy c (.flush (flush policy c).1 (flush policy c).2.pages)
    (flush policy c).2
  | invalidate (c : Cache α) (key : Key) :
    Step policy c (.invalidate (invalidate policy key c).1) (invalidate policy key c).2
  | invalidateAll (c : Cache α) : Step policy c (.invalidate (invalidateAll policy c).1)
    (invalidateAll policy c).2
  | invalidateFrom (c : Cache α) (identity generation byteOffset : ℕ) :
    Step policy c (.invalidate (invalidateFrom policy identity generation byteOffset c).1)
      (invalidateFrom policy identity generation byteOffset c).2
  | onGenerationChange (c : Cache α) (identity generation : ℕ) :
    Step policy c (.invalidate (onGenerationChange policy identity generation c).1)
      (onGenerationChange policy identity generation c).2
  | rebind (c : Cache α) (pages : Key → ℕ → α) (writable : Bool) :
    Step policy c (.rebind pages (rebind policy pages writable c).1)
      (rebind policy pages writable c).2
  | discardDirty (c : Cache α) (allowed : Bool) :
    Step policy c (.discardDirty allowed (discardDirty policy allowed c).1
      (discardDirty policy allowed c).2.pages)
      (discardDirty policy allowed c).2
  | change (c : Cache α) (key : Key) (page : ℕ → α)
    (h : ∀ i, i < c.count → (c.slots i).valid = true → (c.slots i).key ≠ key) :
    Step policy c (.change key page) (c.withPage key page)

/-- A store of pages without a cache, and the leases that live. -/
structure Plain (α : Type) where
  pages : Key → ℕ → α
  leases : List (Lease α)

/-- What the store does: a put is made at once, and only a permitted discard goes back behind it. -/
inductive Plain.Step : Plain α → Event α → Plain α → Prop
  | get {p : Plain α} {key : Key} {size : ℕ} {status : Status} {bytes : List α}
    (h : status = .ok → bytes = window (p.pages key) 0 size) : Step p (.get key size status bytes) p
  | pin {p : Plain α} {key : Key} {size : ℕ} {lease : Lease α} (h : lease.bytes
    = window (p.pages key) 0 size) :
    Step p (.pin key size .ok (some lease)) { p with leases := lease :: p.leases }
  | unpinned {p : Plain α} {key : Key} {size : ℕ} {status : Status} (h : status ≠ .ok) :
    Step p (.pin key size status none) p
  | unpin {p : Plain α} {n : ℕ} : Step p (.unpin n) { p with leases := p.leases.eraseIdx n }
  | put {p : Plain α} {key : Key} {source : List α} :
    Step p (.put key source .ok)
      { p with pages := Function.update p.pages key (Window.put (p.pages key) 0 source) }
  | failedPut {p : Plain α} {key : Key} {source : List α} {status : Status} {pages : Key → ℕ → α}
    (h : status ≠ .ok)
    (hpages : ∀ k n, k ≠ key ∨ source.length ≤ n → pages k n = p.pages k n) :
    Step p (.put key source status) { p with pages := pages }
  | flush {p : Plain α} {status : Status} {pages : Key → ℕ → α} (h : status = .ok →
    pages = p.pages) :
    Step p (.flush status pages) p
  | invalidate {p : Plain α} {status : Status} : Step p (.invalidate status) p
  | rebind {p : Plain α} {pages : Key → ℕ → α} {status : Status} :
    Step p (.rebind pages status) { p with pages := if status = .ok then pages else p.pages }
  | discardDirty {p : Plain α} {allowed : Bool} {status : Status} {pages : Key → ℕ → α} :
    Step p (.discardDirty allowed status pages)
      { p with pages := if allowed = true ∧ status = .ok then pages else p.pages }
  | change {p : Plain α} {key : Key} {page : ℕ → α} :
    Step p (.change key page) { p with pages := Function.update p.pages key page }

/-- The cache stands for the store. -/
def Stands (policy : Policy) (c : Cache α) (p : Plain α) : Prop :=
  Sound policy c p.pages ∧ c.leases = p.leases

theorem stands_invalidateIf {p : Plain α} (h : Stands policy c p) (selects : Slot → Bool) :
    Stands policy (invalidateIf policy selects c).2 p := by
  obtain ⟨hsound, hleases⟩ := invalidateIf_spec h.1 selects
  exact ⟨hsound, hleases.trans h.2⟩

theorem get_simulates {p : Plain α} (h : Stands policy c p) (key : Key) (size : ℕ) :
    Stands policy (get policy key size c).2 p ∧
      ((get policy key size c).1.1 = .ok → (get policy key size c).1.2
        = window (p.pages key) 0 size) := by
  unfold get
  split
  · have hserved := load_spec h.1 key size
    exact ⟨⟨hserved.sound, hserved.leases.trans h.2⟩, hserved.bytes⟩
  · exact ⟨h, fun habsurd => nomatch habsurd⟩

theorem pin_simulates {p : Plain α} (h : Stands policy c p) (key : Key) (size : ℕ) :
    ∃ q, p.Step (.pin key size (pin policy key size c).1.1 (pin policy key size c).1.2) q ∧
      Stands policy (pin policy key size c).2 q ∧ q.pages = p.pages := by
  unfold pin
  split
  · have hserved := load_spec h.1 key size
    dsimp only
    split
    · next hok =>
      refine ⟨_, .pin (hserved.bytes hok), ⟨hserved.sound.leased _ fun i hi => ?_, ?_⟩, rfl⟩
      · obtain ⟨hmemory, hline⟩ := hserved.line hok i hi
        refine ⟨hmemory, ?_⟩
        dsimp only
        rw [hserved.bytes hok, Window.length_window, hline, hserved.bytes hok]
      · rw [leased_eq hserved.sound]
        dsimp only
        rw [hserved.leases, h.2]
    · next hfailed => exact ⟨p, .unpinned hfailed, ⟨hserved.sound, hserved.leases.trans h.2⟩, rfl⟩
  · exact ⟨p, .unpinned (fun habsurd => nomatch habsurd), h, rfl⟩

theorem put_simulates {p : Plain α} (h : Stands policy c p) (key : Key) (source : List α) :
    ∃ q, p.Step (.put key source (putPage policy key source c).1) q ∧
      Stands policy (putPage policy key source c).2 q := by
  obtain ⟨pages, hstored⟩ := putPage_spec h.1 key source
  have hleases := hstored.leases.trans h.2
  by_cases hok : (putPage policy key source c).1 = .ok
  · rw [hok]
    refine ⟨_, .put, ?_, hleases⟩
    rw [← hstored.ok hok]
    exact hstored.sound
  · exact ⟨{ p with pages := pages }, .failedPut hok hstored.failed, hstored.sound, hleases⟩

theorem change_simulates {p : Plain α} (h : Stands policy c p) (key : Key) (page : ℕ → α)
    (hnone : ∀ i, i < c.count → (c.slots i).valid = true → (c.slots i).key ≠ key) :
    Stands policy (c.withPage key page) { p with pages := Function.update p.pages key page } := by
  refine ⟨h.1.repage (fun i hi hvalid n _ => ?_) fun key' n hcover => ?_, h.2⟩
  · dsimp only
    rw [Function.update_of_ne (hnone i hi hvalid)]
  · dsimp only
    by_cases hkey : key' = key
    · subst hkey
      rw [Function.update_self, Function.update_self]
    · rw [Function.update_of_ne hkey, Function.update_of_ne hkey]
      exact h.1.rest key' n hcover

theorem step_simulates {p : Plain α} {e : Event α} (h : Stands policy c p)
    (hstep : Step policy c e d) :
    ∃ q, p.Step e q ∧ Stands policy d q := by
  cases hstep with
  | get key size =>
    obtain ⟨hstands, hbytes⟩ := get_simulates h key size
    exact ⟨p, .get hbytes, hstands⟩
  | pin key size =>
    obtain ⟨q, hq, hstands, -⟩ := pin_simulates h key size
    exact ⟨q, hq, hstands⟩
  | unpin n =>
    refine ⟨_, .unpin, h.1.unpin n, ?_⟩
    rw [unpin_eq h.1, h.2]
  | put key source => exact put_simulates h key source
  | flush =>
    obtain ⟨hsound, hleases, hpages⟩ := flush_spec h.1
    exact ⟨p, .flush hpages, hsound, hleases.trans h.2⟩
  | invalidate key => exact ⟨p, .invalidate, stands_invalidateIf h _⟩
  | invalidateAll => exact ⟨p, .invalidate, stands_invalidateIf h _⟩
  | invalidateFrom identity generation byteOffset => exact ⟨p, .invalidate, stands_invalidateIf h _⟩
  | onGenerationChange identity generation => exact ⟨p, .invalidate, stands_invalidateIf h _⟩
  | rebind pages writable =>
    obtain ⟨hsound, hleases⟩ := rebind_spec h.1 pages writable
    exact ⟨_, .rebind, hsound, hleases.trans h.2⟩
  | discardDirty allowed =>
    obtain ⟨hsound, hleases⟩ := discardDirty_spec h.1 allowed
    exact ⟨_, .discardDirty, hsound, hleases.trans h.2⟩
  | change key page hnone => exact ⟨_, .change, change_simulates h key page hnone⟩

/-! ## Pending bytes -/

/-- The events a pending byte need not outlive: a put over it, a put over it that fails after the
byte was written to the backing, and a permitted discard. -/
def Event.Ends (c : Cache α) (key : Key) (n : ℕ) : Event α → Prop
  | .put k source status => k = key ∧ n < source.length ∧ (status = .ok ∨ c.Taken key source.length)
  | .discardDirty allowed status _ => allowed = true ∧ status = .ok
  | _ => False

/-- One line, written back. -/
def oneLine : Policy where
  capacityBytes := 60
  pageSize := 4
  writePolicy := .writeBack
  transactional := true

/-- A backing whose first call fails and leaves nines. -/
def started : Cache ℕ := create oneLine (fun _ _ => 5)
    (fun _ n => n) true [⟨.ioError, 0, false, fun _ => 9⟩] true

/-- In every run a page has one line at most, a line's pins count the leases that show it, what is
dirty is valid, and in a direct mapping every page is at its own line. -/
theorem lines_of_run {policy : Policy} {payload : ℕ → ℕ → α} {pages : Key → ℕ → α} {writable : Bool}
    {replies : List (Reply α)} {allocates : Bool} {events : List (Event α)} {c : Cache α}
    (hrun : Runs (Step policy) (create policy payload pages writable replies allocates) events c) :
    (∀ i j, i < c.count → j < c.count → (c.slots i).valid = true → (c.slots j).valid = true →
        (c.slots i).key = (c.slots j).key → i = j) ∧
      (∀ i, (c.slots i).pins = c.leases.countP fun lease => lease.slot = some i) ∧
      (∀ i, (c.slots i).dirty = true → (c.slots i).valid = true) ∧
      (policy.replacement = .directMapped → ∀ i, i < c.count → (c.slots i).valid = true →
        i = mapped (c.slots i).key c.count) := by
  obtain ⟨p, -, hsound, -⟩ := hrun.simulates Plain.Step (fun h hstep => step_simulates h hstep)
    (show Stands policy _ ⟨pages,
      []⟩ from ⟨sound_create policy payload pages writable replies allocates, rfl⟩)
  exact ⟨hsound.unique, hsound.pins, hsound.dirty, hsound.direct⟩

/-- Two lines of two bytes. -/
def twoLines : Policy := { oneLine with capacityBytes := 120 }

/-- A cache of two lines. -/
def twoStarted : Cache ℕ := create twoLines (fun _ _ => 5) (fun _ n => n) true [] true

/-- Two dirty pages. -/
def twoPages : Cache ℕ :=
  (putPage twoLines { pageNumber := 1 } [3] (putPage twoLines {} [7, 8] twoStarted).2).2

/-- Two pages in two lines, and a lease of one of them. -/
theorem lines_of_run_twoLines :
    ((twoPages.slots 0).dirty = true ∧ (twoPages.slots 1).dirty = true ∧
        ((pin twoLines { pageNumber := 1 } 1 twoPages).2.slots 1).pins = 1) ∧
      ((pin twoLines { pageNumber := 1 } 1 twoPages).2.slots 1).pins =
          (pin twoLines { pageNumber := 1 } 1 twoPages).2.leases.countP
            (fun lease => lease.slot = some 1) ∧
      1 = mapped ((pin twoLines { pageNumber := 1 } 1 twoPages).2.slots 1).key 2 := by
  have hlines := lines_of_run (.snoc (.snoc (.snoc .nil (.put twoStarted {} [7, 8]))
    (.put _ { pageNumber := 1 } [3])) (.pin twoPages { pageNumber := 1 } 1))
  exact ⟨by decide +kernel, hlines.2.1 1,
    hlines.2.2.2 rfl 1 (by decide +kernel) (by decide +kernel)⟩

end PineForge.PageCache
