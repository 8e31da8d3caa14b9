import Mathlib
import PineForge.Machine.Command
import PineForge.Arena.Pool

/-!
# The windows of a scratch arena

A bounded number of windows maps parts of the backing file, the most recently used first. `mapped`
finds the window over a byte or maps one, in an empty slot or in place of the last; a window never
crosses the end of a chunk.

Any system call may fail: the outcomes of the coming ones are part of the state.
-/

namespace PineForge.Arena

/-- Who uses a region. -/
inductive ScratchStore where
  | unknown
  | curve
  | positionTail
  | cohort
  | exitRank
  | sequenceIndex
  | sequenceIndexIdx
  | erasedMinima
  | erasedMinimaIdx
  | partialCycles
  | partialCyclesIdx
  | successorRoots
  | command
deriving DecidableEq, Repr

/-- What a call throws. -/
inductive Failure where
  | io (errno : ℕ) (operation : String) (reason : String)
  /-- `arena_exhausted` with its snapshot of the counters. -/
  | exhausted (highWater arenaBytes claimedBytes neededBytesLowerBound : ℕ) (store : ScratchStore)
  | outOfMemory
  | logic (what : String)
deriving DecidableEq, Repr

/-- How a call ends early. -/
abbrev Stop := PineForge.Stop Failure

/-- What a system call does. -/
inductive Outcome where
  | ok
  /-- The call fails; a hole of so many bytes was punched before. -/
  | fails (errno : ℕ) (punched : ℕ)
  /-- A positioned read of fewer bytes than asked. -/
  | short (count : ℕ)
deriving DecidableEq, Repr

namespace Outcome

/-- The error of a call that fails. -/
def errno : Outcome → Option ℕ
  | .fails errno _ => some errno
  | _ => none

/-- `EINTR`. -/
def interrupted (outcome : Outcome) : Bool := outcome.errno == some 4

end Outcome

/-- `EIO`. -/
def eio : ℕ := 5

/-- `EFAULT`. -/
def efault : ℕ := 14

/-- `EINVAL`. -/
def einval : ℕ := 22

/-- `EFBIG`. -/
def efbig : ℕ := 27

/-- `arena_error` with its default reason. -/
def arenaError (errno : ℕ) (operation : String) : Stop := .thrown (.io errno operation "arena_io")

/-- A mapped range of the file. -/
structure Window where
  offset : ℕ
  length : ℕ
deriving DecidableEq, Repr

namespace Window

/-- Whether a window has a byte. -/
def covers (window : Window) (physical : ℕ) : Bool :=
  decide (window.offset ≤ physical ∧ physical - window.offset < window.length)

/-- A window of at most `windowBytes` that lies in one chunk. -/
structure Valid (windowBytes : ℕ) (window : Window) : Prop where
  pos : 0 < window.length
  bounded : window.length ≤ windowBytes
  inChunk : window.offset % chunkBytes + window.length ≤ chunkBytes

/-- The window that `mapped` makes over a byte. -/
def around (windowBytes physical : ℕ) : Window :=
  let inChunk := physical % chunkBytes
  let windowStart := inChunk - inChunk % windowBytes
  { offset := physical - inChunk + windowStart
    length := min windowBytes (chunkBytes - windowStart) }

end Window

/-- The mapped windows, and the outcomes of the system calls to come; all beyond them succeed. -/
structure Maps where
  windows : List (Option Window)
  mappedBytes : ℕ := 0
  io : List Outcome := []
deriving DecidableEq, Repr

/-- A call on the windows. -/
abbrev Mapping := Command Maps Stop

namespace Maps

/-- The next outcome. -/
def call : Mapping Outcome :=
  fun maps => (.ok (maps.io.headD .ok), { maps with io := maps.io.tail })

/-- A call that is made again while it is interrupted. -/
def callRetried : Mapping Outcome := fun maps =>
  let io := maps.io.dropWhile Outcome.interrupted
  (.ok (io.headD .ok), { maps with io := io.tail })

/-- Throw the error of a failed call. -/
def failOn (outcome : Outcome) (operation : String) : Mapping Unit :=
  match outcome.errno with
  | some errno => Command.throw (arenaError errno operation)
  | none => pure ()

/-- `validate_backing_size`: another size than supplied is an outcome with `EIO`. -/
def validateBackingSize (operation : String) : Mapping Unit := do
  let outcome ← callRetried
  failOn outcome operation

/-- The windows without one. -/
def cleared (maps : Maps) (slot : ℕ) (window : Window) : Maps :=
  { maps with windows := maps.windows.set slot none,
              mappedBytes := maps.mappedBytes - window.length }

/-- The windows with one more. -/
def placed (maps : Maps) (slot : ℕ) (window : Window) : Maps :=
  { maps with windows := maps.windows.set slot (some window),
              mappedBytes := maps.mappedBytes + window.length }

/-- `std::rotate` of a slot to the front. -/
def fronted (maps : Maps) (slot : ℕ) : Maps :=
  { maps with windows := (maps.windows[slot]?).toList ++ maps.windows.eraseIdx slot }

/-- The window of a slot. -/
def windowAt (maps : Maps) (slot : ℕ) : Option Window := (maps.windows[slot]?).join

/-- `unmap`: what failed, if it did. -/
def unmap (slot : ℕ) : Mapping (Option ℕ) := do
  let maps ← Command.get
  match maps.windowAt slot with
  | none => pure none
  | some window =>
    let outcome ← call
    match outcome.errno with
    | some errno => pure (some errno)
    | none =>
      Command.modify (·.cleared slot window)
      pure none

/-- The unmapping of `mapped`, which must succeed. -/
def evict (slot : ℕ) : Mapping Unit := do
  let failed ← unmap slot
  match failed with
  | some errno => Command.throw (arenaError errno "scratch arena unmap")
  | none => pure ()

/-- The slot of the window over a byte. -/
def hit (maps : Maps) (physical : ℕ) : Option ℕ :=
  maps.windows.findIdx? fun slot => slot.any (·.covers physical)

/-- The slot a new window takes. -/
def victim (maps : Maps) : ℕ := (maps.windows.findIdx? (·.isNone)).getD (maps.windows.length - 1)

/-- The window at the front. -/
def front : Mapping Window := do
  let maps ← Command.get
  match maps.windowAt 0 with
  | some window => pure window
  | none => Command.throw .undefined

/-- A new window in a slot. -/
def mapInto (slot : ℕ) (window : Window) : Mapping Window := do
  evict slot
  validateBackingSize "scratch arena map size"
  let outcome ← call
  failOn outcome "scratch arena map"
  Command.modify (·.placed slot window)
  Command.modify (·.fronted slot)
  front

/-- The window over a byte, mapped if it is not. -/
def mapped (windowBytes physical : ℕ) : Mapping Window := do
  let maps ← Command.get
  match maps.hit physical with
  | some slot =>
    Command.modify (·.fronted slot)
    front
  | none => mapInto maps.victim (Window.around windowBytes physical)

/-- The windows of `release_chunk` that begin in the chunk, at these slots. A failure is ignored. -/
def unmapChunk (offset : ℕ) : List ℕ → Mapping Unit
  | [] => pure ()
  | slot :: slots => do
    let maps ← Command.get
    Command.when ((maps.windowAt slot).any
        (fun window => decide (offset ≤ window.offset ∧ window.offset - offset < chunkBytes))
          = true)
      (do
        let _ ← unmap slot
        pure ())
    unmapChunk offset slots

/-! ## What is mapped -/

/-- The mapped bytes of a slot. -/
def width (slot : Option Window) : ℕ := (slot.map (·.length)).getD 0

/-- So many slots, each empty or with a window in one chunk, and the count of the mapped bytes. -/
structure Sound (windowBytes slots : ℕ) (maps : Maps) : Prop where
  slots : maps.windows.length = slots
  valid : ∀ window, some window ∈ maps.windows → window.Valid windowBytes
  bytes : maps.mappedBytes = (maps.windows.map width).sum

variable {windowBytes slots : ℕ} {maps : Maps}

theorem sum_width_le {windows : List (Option Window)}
    (h : ∀ window, some window ∈ windows → window.Valid windowBytes) :
    (windows.map width).sum ≤ windows.length * windowBytes := by
  induction windows with
  | nil => simp
  | cons slot rest ih =>
    have hrest := ih fun window hmem => h window (List.mem_cons_of_mem _ hmem)
    have hslot : width slot ≤ windowBytes := by
      cases slot with
      | none => exact Nat.zero_le _
      | some window => exact (h window List.mem_cons_self).bounded
    rw [List.map_cons, List.sum_cons, List.length_cons, Nat.add_mul, Nat.one_mul]
    omega

theorem Sound.mappedBytes_le (h : maps.Sound windowBytes slots) :
    maps.mappedBytes ≤ slots * windowBytes := by
  rw [h.bytes, ← h.slots]
  exact sum_width_le h.valid

theorem sum_width_set {windows : List (Option Window)} {slot : ℕ} {old : Option Window}
    (h : windows[slot]? = some old) (new : Option Window) :
    ((windows.set slot new).map width).sum + width old = (windows.map width).sum + width new := by
  induction windows generalizing slot with
  | nil => simp at h
  | cons head rest ih =>
    cases slot with
    | zero =>
      rw [List.getElem?_cons_zero, Option.some.injEq] at h
      rw [List.set_cons_zero, List.map_cons, List.sum_cons, List.map_cons, List.sum_cons, h]
      omega
    | succ slot =>
      rw [List.getElem?_cons_succ] at h
      have hrest := ih h
      rw [List.set_cons_succ, List.map_cons, List.sum_cons, List.map_cons, List.sum_cons]
      omega

theorem windowAt_eq_some {slot : ℕ} {window : Window} (h : maps.windowAt slot = some window) :
    maps.windows[slot]? = some (some window) := by
  unfold windowAt at h
  cases hslot : maps.windows[slot]? with
  | none => simp [hslot] at h
  | some entry =>
    rw [hslot] at h
    cases entry with
    | none => cases h
    | some found =>
      cases h
      rfl

theorem windowAt_eq_none {slot : ℕ} (hlt : slot < maps.windows.length)
    (h : maps.windowAt slot = none) :
    maps.windows[slot]? = some none := by
  unfold windowAt at h
  rw [List.getElem?_eq_getElem hlt] at h ⊢
  cases hentry : maps.windows[slot] with
  | none => rfl
  | some found => simp [hentry] at h

theorem Sound.withIo (h : maps.Sound windowBytes slots) (io : List Outcome) :
    ({ maps with io := io } : Maps).Sound windowBytes slots := ⟨h.slots, h.valid, h.bytes⟩

theorem Sound.cleared (h : maps.Sound windowBytes slots) {slot : ℕ} {window : Window}
    (hslot : maps.windowAt slot = some window) :
    (maps.cleared slot window).Sound windowBytes slots := by
  refine ⟨?_, fun other hmem => ?_, ?_⟩
  · exact (List.length_set ..).trans h.slots
  · rcases List.mem_or_eq_of_mem_set hmem with hmem | heq
    · exact h.valid other hmem
    · cases heq
  · have hsum := sum_width_set (windowAt_eq_some hslot) none
    change ((maps.windows.set slot none).map width).sum + window.length
      = (maps.windows.map width).sum + 0 at hsum
    change maps.mappedBytes - window.length = ((maps.windows.set slot none).map width).sum
    have hbytes := h.bytes
    omega

theorem Sound.placed (h : maps.Sound windowBytes slots) {slot : ℕ} {window : Window}
    (hlt : slot < slots)
    (hslot : maps.windowAt slot = none) (hvalid : window.Valid windowBytes) :
    (maps.placed slot window).Sound windowBytes slots := by
  refine ⟨?_, fun other hmem => ?_, ?_⟩
  · exact (List.length_set ..).trans h.slots
  · rcases List.mem_or_eq_of_mem_set hmem with hmem | heq
    · exact h.valid other hmem
    · cases heq
      exact hvalid
  · have hsum := sum_width_set (windowAt_eq_none (h.slots ▸ hlt) hslot) (some window)
    change ((maps.windows.set slot (some window)).map width).sum + 0 =
      (maps.windows.map width).sum + window.length at hsum
    change maps.mappedBytes + window.length = ((maps.windows.set slot (some window)).map width).sum
    have hbytes := h.bytes
    omega

theorem fronted_perm {slot : ℕ} (hlt : slot < maps.windows.length) :
    (maps.fronted slot).windows.Perm maps.windows := by
  unfold fronted
  rw [List.getElem?_eq_getElem hlt]
  exact List.getElem_cons_eraseIdx_perm hlt

theorem Sound.fronted (h : maps.Sound windowBytes slots) {slot : ℕ} (hlt : slot < slots) :
    (maps.fronted slot).Sound windowBytes slots := by
  have hperm : (maps.fronted slot).windows.Perm maps.windows := fronted_perm (h.slots ▸ hlt)
  refine ⟨hperm.length_eq.trans h.slots, fun window hmem => h.valid window (hperm.mem_iff.mp hmem),
    ?_⟩
  exact h.bytes.trans (hperm.map width).sum_eq.symm

theorem windowAt_fronted {slot : ℕ} (hlt : slot < maps.windows.length) :
    (maps.fronted slot).windowAt 0 = maps.windowAt slot := by
  unfold windowAt fronted
  rw [List.getElem?_eq_getElem hlt]
  rfl

/-! ## The calls -/

theorem call_ends (h : maps.Sound windowBytes slots) {F : Failure → Maps → Prop} :
    Ends call maps (fun _ t => t.Sound windowBytes slots ∧ t.windows = maps.windows) F :=
  .inl ⟨_, _, rfl, h.withIo _, rfl⟩

theorem validateBackingSize_ends (h : maps.Sound windowBytes slots) (operation : String) :
    Ends (validateBackingSize operation) maps (fun _ t => t.Sound windowBytes slots ∧ t.windows
      = maps.windows)
      (fun _ t => t.Sound windowBytes slots) := by
  refine Ends.bind (P := fun _ t => t.Sound windowBytes slots ∧ t.windows = maps.windows)
    (.inl ⟨_, _, rfl, h.withIo _, rfl⟩) fun outcome t ht => ?_
  unfold failOn
  cases outcome.errno with
  | none => exact Ends.pure ht
  | some errno => exact Ends.throw ht.1

theorem unmap_ends (h : maps.Sound windowBytes slots) (slot : ℕ) {F : Failure → Maps → Prop} :
    Ends (unmap slot) maps (fun failed t => t.Sound windowBytes slots ∧
      (failed = none → t.windowAt slot = none)) F := by
  refine Ends.get_bind ?_
  cases hslot : maps.windowAt slot with
  | none => exact Ends.pure ⟨h, fun _ => hslot⟩
  | some window =>
    refine Ends.bind (call_ends h) fun outcome t ht => ?_
    cases outcome.errno with
    | some errno => exact Ends.pure ⟨ht.1, fun hnone => nomatch hnone⟩
    | none =>
      have hsame : t.windowAt slot = some window := by
        unfold windowAt at hslot ⊢
        rw [ht.2]
        exact hslot
      refine Ends.bind (P := fun _ u => u = t.cleared slot window) (Ends.modify rfl) fun _ u hu =>
        ?_
      subst hu
      refine Ends.pure ⟨ht.1.cleared hsame, fun _ => ?_⟩
      change ((t.windows.set slot none)[slot]?).join = none
      have hlt : slot < t.windows.length :=
        (List.getElem?_eq_some_iff.mp (windowAt_eq_some hsame)).1
      rw [List.getElem?_set_self hlt]
      rfl

theorem evict_ends (h : maps.Sound windowBytes slots) (slot : ℕ) :
    Ends (evict slot) maps (fun _ t => t.Sound windowBytes slots ∧ t.windowAt slot = none)
      (fun _ t => t.Sound windowBytes slots) := by
  refine Ends.bind (unmap_ends h slot) fun failed t ht => ?_
  cases failed with
  | none => exact Ends.pure ⟨ht.1, ht.2 rfl⟩
  | some errno => exact Ends.throw ht.1

/-- Mapping keeps the windows apart. -/
theorem mapInto_ends (h : maps.Sound windowBytes slots) {slot : ℕ} (hlt : slot < slots)
    {window : Window}
    (hvalid : window.Valid windowBytes) :
    Ends (mapInto slot window) maps (fun found t => t.Sound windowBytes slots ∧ found = window)
      (fun _ t => t.Sound windowBytes slots) := by
  refine Ends.bind (evict_ends h slot) fun _ t ht => ?_
  refine Ends.bind (validateBackingSize_ends ht.1 _) fun _ u hu => ?_
  refine Ends.bind (call_ends hu.1) fun outcome v hv => ?_
  unfold failOn
  cases outcome.errno with
  | some errno => exact Ends.bind (P := fun _ _ => False) (Ends.throw hv.1) fun _ _ hfalse =>
    hfalse.elim
  | none =>
    have hempty : v.windowAt slot = none := by
      unfold windowAt
      rw [hv.2, hu.2]
      exact ht.2
    have hplaced := hv.1.placed hlt hempty hvalid
    have hlength : slot < (v.placed slot window).windows.length := hplaced.slots ▸ hlt
    have hfront : ((v.placed slot window).fronted slot).windowAt 0 = some window := by
      rw [windowAt_fronted hlength]
      change ((v.windows.set slot (some window))[slot]?).join = some window
      rw [List.getElem?_set_self (hv.1.slots ▸ hlt)]
      rfl
    refine Ends.bind (P := fun _ w => w = v) (Ends.pure rfl) fun _ w hw => ?_
    subst hw
    refine Ends.bind (P := fun _ x => x = w.placed slot window) (Ends.modify rfl) fun _ x hx => ?_
    subst hx
    refine Ends.bind (P := fun _ y => y = (w.placed slot window).fronted slot)
      (Ends.modify rfl) fun _ y hy => ?_
    subst hy
    refine Ends.get_bind ?_
    rw [hfront]
    exact Ends.pure ⟨hplaced.fronted hlt, rfl⟩

theorem hit_spec {physical slot : ℕ} (h : maps.hit physical = some slot) :
    ∃ window, maps.windowAt slot = some window ∧ window.covers physical = true := by
  obtain ⟨hlt, hcovers, -⟩ := List.findIdx?_eq_some_iff_getElem.mp h
  cases hentry : maps.windows[slot] with
  | none => simp [hentry] at hcovers
  | some window =>
    refine ⟨window, ?_, ?_⟩
    · rw [windowAt, List.getElem?_eq_getElem hlt, hentry]
      rfl
    · simpa [hentry] using hcovers

theorem victim_lt (h : 0 < maps.windows.length) : maps.victim < maps.windows.length := by
  unfold victim
  cases hempty : maps.windows.findIdx? (·.isNone) with
  | none => exact Nat.sub_lt h Nat.one_pos
  | some slot => exact (List.findIdx?_eq_some_iff_getElem.mp hempty).1

theorem around_spec {windowBytes : ℕ} (hpos : 0 < windowBytes) (physical : ℕ) :
    (Window.around windowBytes physical).Valid windowBytes ∧
      (Window.around windowBytes physical).covers physical = true := by
  have hmod : physical % chunkBytes % windowBytes < windowBytes := Nat.mod_lt _ hpos
  have hle : physical % chunkBytes % windowBytes ≤ physical % chunkBytes := Nat.mod_le ..
  unfold Window.covers
  rw [decide_eq_true_iff]
  have hstart : physical % chunkBytes - physical % chunkBytes % windowBytes
      ≤ physical % chunkBytes := Nat.sub_le ..
  refine ⟨⟨?_, Nat.min_le_left .., ?_⟩, ?_, ?_⟩
  all_goals
    simp only [Window.around]
    generalize hrest : physical % chunkBytes % windowBytes = rest at *
    simp only [chunkBytes_eq] at *
    omega

theorem mapped_ends (h : maps.Sound windowBytes slots) (hslots : 0 < slots) (hpos : 0 < windowBytes)
    (physical : ℕ) :
    Ends (mapped windowBytes physical) maps
      (fun window t => t.Sound windowBytes slots ∧ window.Valid windowBytes ∧
        window.covers physical = true)
      (fun _ t => t.Sound windowBytes slots) := by
  refine Ends.get_bind ?_
  cases hhit : maps.hit physical with
  | some slot =>
    obtain ⟨window, hwindow, hcovers⟩ := hit_spec hhit
    have hmem := windowAt_eq_some hwindow
    have hlt : slot < maps.windows.length := (List.getElem?_eq_some_iff.mp hmem).1
    refine Ends.bind (P := fun _ t => t = maps.fronted slot) (Ends.modify rfl) fun _ t ht => ?_
    subst ht
    refine Ends.get_bind ?_
    rw [windowAt_fronted hlt, hwindow]
    exact Ends.pure ⟨h.fronted (h.slots ▸ hlt), h.valid window (List.mem_of_getElem? hmem), hcovers⟩
  | none =>
    obtain ⟨hvalid, hcovers⟩ := around_spec hpos physical
    have hlt : maps.victim < slots := h.slots ▸ victim_lt (h.slots ▸ hslots)
    refine (mapInto_ends h hlt hvalid).mono (fun found t ht => ?_) fun _ _ ht => ht
    rw [ht.2]
    exact ⟨ht.1, hvalid, hcovers⟩

theorem unmapChunk_ends (offset : ℕ) (which : List ℕ) {maps : Maps}
    (h : maps.Sound windowBytes slots)
    {F : Failure → Maps → Prop} :
    Ends (unmapChunk offset which) maps (fun _ t => t.Sound windowBytes slots) F := by
  induction which generalizing maps with
  | nil => exact Ends.pure h
  | cons slot rest ih =>
    refine Ends.get_bind (Ends.bind (P := fun _ t => t.Sound windowBytes slots) ?_ fun _ t ht =>
      ih ht)
    refine Ends.when (fun _ => ?_) fun _ => h
    exact Ends.bind (unmap_ends h slot) fun _ t ht => Ends.pure ht.1

end Maps

end PineForge.Arena
