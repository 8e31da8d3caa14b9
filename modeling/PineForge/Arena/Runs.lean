import Mathlib
import PineForge.Arena.Calls

/-!
# Runs of a scratch arena

From an attachment, any calls on any regions under any failures: what the calls return is what
independent arrays of bytes, extended by zeroes, would return (`Trace`), and the chunks and windows
stay accounted for (`Accounted`).
-/

namespace PineForge.Arena

variable {n : ℕ}

/-! ## Attachment -/

/-- An error of the backing file. -/
def backingError (errno : ℕ) (operation : String) : Failure := .io errno operation "arena_backing"

/-- Refuse where a check holds. -/
def refuseIf (c : Prop) [Decidable c] (failure : Failure) : Except Failure Unit :=
  if c then .error failure else .ok ()

/-- The loop of `decimal` over the text that is left. -/
def decimalFrom (operation : String) : List Char → ℕ → Except Failure ℕ
  | [], value => .ok value
  | char :: text, value =>
    if char < '0' ∨ '9' < char then .error (backingError einval operation)
    else
      let digit := char.toNat - '0'.toNat
      if value > (2 ^ 64 - 1 - digit) / 10 then .error (backingError efbig operation)
      else decimalFrom operation text (value * 10 + digit)

/-- A positive decimal of the environment. -/
def decimal (text : List Char) (operation : String) : Except Failure ℕ := do
  refuseIf (text = []) (backingError einval operation)
  let value ← decimalFrom operation text 0
  refuseIf (value = 0) (backingError einval operation)
  pure value

/-- The default window. -/
def defaultWindowBytes : ℕ := 32 * chunkBytes

/-- `PF_SCRATCH_WINDOW_BYTES`, or the default where it is not set. -/
def requestedBytes : Option (List Char) → Except Failure ℕ
  | some text => decimal text "scratch arena window size"
  | none => .ok defaultWindowBytes

/-- `max_size` of the vectors of windows and of words. -/
def maxWindows : ℕ := (2 ^ 63 - 1) / 24

/-- The most words a vector may have. -/
def maxWords : ℕ := 2 ^ 60 - 1

/-- The number of windows under a cap. -/
def slotsUnder (chunks cap windowBytes : ℕ) : ℕ :=
  min (cap / windowBytes) (chunks * ((chunkBytes + windowBytes - 1) / windowBytes))

/-- The checks of the constructor over a backing that `validate_backing` accepted. -/
def configure (bytes : ℕ) (pageResult : ℤ) (configured : Option (List Char)) :
    Except Failure Config := do
  refuseIf (bytes > offMax ∨ bytes / chunkBytes > 2 ^ 32 - 1)
    (backingError efbig "scratch arena size")
  refuseIf (bytes / chunkBytes = 0) (backingError einval "scratch arena size")
  refuseIf (pageResult ≤ 0) (backingError einval "scratch arena page size")
  let page := pageResult.toNat
  refuseIf (page > chunkBytes ∨ chunkBytes % page ≠ 0)
    (backingError einval "scratch arena page size")
  let requested ← requestedBytes configured
  let cap := requested - requested % page
  refuseIf (cap = 0) (backingError einval "scratch arena window size")
  let windowBytes := min cap chunkBytes
  let slots := slotsUnder (bytes / chunkBytes) cap windowBytes
  refuseIf (slots > maxWindows ∨ (bytes / chunkBytes + 63) / 64 > maxWords)
    (backingError efbig "scratch arena metadata size")
  pure { bytesSupplied := bytes, cap := cap, windowBytes := windowBytes, slots := slots }

/-- The arena of a configuration: whatever the file holds, every chunk is free and nothing is
mapped. -/
def attached (config : Config) (file : ℕ → Fin 256) (io : List Outcome)
    (stores : Fin n → ScratchStore) : Arena n :=
  { config := config
    file := file
    maps := { windows := List.replicate config.slots none, io := io }
    pool := Pool.initial (config.bytesSupplied / chunkBytes)
    regions := fun r => { store := stores r } }

/-- The arena over a backing file. -/
def attach (file : ℕ → Fin 256) (io : List Outcome) (stores : Fin n → ScratchStore) (bytes : ℕ)
    (pageResult : ℤ)
    (configured : Option (List Char)) : Except Failure (Arena n) := do
  let config ← configure bytes pageResult configured
  pure (attached config file io stores)

theorem refuseIf_ok {c : Prop} [Decidable c] {failure : Failure} (h : refuseIf c failure = .ok ()) :
    ¬ c := by
  intro hc
  rw [refuseIf, if_pos hc] at h
  cases h

/-- An accepted configuration has a window. -/
theorem configure_ok {bytes : ℕ} {pageResult : ℤ} {configured : Option (List Char)}
    {config : Config}
    (h : configure bytes pageResult configured = .ok config) :
    0 < config.windowBytes ∧ 0 < config.slots ∧ config.slots * config.windowBytes ≤ config.cap := by
  unfold configure at h
  obtain ⟨_, -, h⟩ := Result.bind_eq_ok.mp h
  obtain ⟨_, hchunks, h⟩ := Result.bind_eq_ok.mp h
  obtain ⟨_, -, h⟩ := Result.bind_eq_ok.mp h
  obtain ⟨_, -, h⟩ := Result.bind_eq_ok.mp h
  obtain ⟨requested, -, h⟩ := Result.bind_eq_ok.mp h
  obtain ⟨_, hcap, h⟩ := Result.bind_eq_ok.mp h
  obtain ⟨_, -, h⟩ := Result.bind_eq_ok.mp h
  cases h
  have hchunks := refuseIf_ok hchunks
  have hcap := refuseIf_ok hcap
  generalize requested - requested % pageResult.toNat = cap at hcap ⊢
  generalize bytes / chunkBytes = chunks at hchunks ⊢
  dsimp only
  have hpos : 0 < min cap chunkBytes := by
    have := chunkBytes_pos
    omega
  refine ⟨hpos, ?_, ?_⟩
  · refine Nat.lt_min.mpr ⟨Nat.div_pos (Nat.min_le_left ..) hpos,
      Nat.mul_pos (by omega) (Nat.div_pos ?_ hpos)⟩
    have := chunkBytes_pos
    omega
  · calc slotsUnder chunks cap (min cap chunkBytes) * min cap chunkBytes
        ≤ cap / min cap chunkBytes * min cap chunkBytes :=
          Nat.mul_le_mul_right _ (Nat.min_le_left ..)
      _ ≤ cap := Nat.div_mul_le_self ..

/-- The array of a region that holds nothing. -/
def Extent.empty : Extent := ⟨0, fun _ => 0⟩

theorem sum_width_replicate (slots : ℕ) :
    ((List.replicate slots (none : Option Window)).map Maps.width).sum = 0 := by
  induction slots with
  | zero => rfl
  | succ slots ih =>
    rw [List.replicate_succ, List.map_cons, List.sum_cons, ih]
    rfl

theorem attach_sound {file : ℕ → Fin 256} {io : List Outcome}
    {stores : Fin n → ScratchStore} {bytes : ℕ}
    {pageResult : ℤ} {configured : Option (List Char)} {st : Arena n}
    (h : attach file io stores bytes pageResult configured = .ok st) :
    st.Sound ∧ st.extents = fun _ => Extent.empty := by
  unfold attach at h
  obtain ⟨config, hconfig, h⟩ := Result.bind_eq_ok.mp h
  cases h
  obtain ⟨hpos, hslots, hcap⟩ := configure_ok hconfig
  have hempty : ∀ r : Fin n, content (attached config file io stores) r = fun _ => 0 := by
    intro r
    funext i
    exact contentOf_none (Nat.zero_le _)
  refine ⟨⟨⟨hpos, hslots, ⟨List.length_replicate, fun window hmem => ?_,
    (sum_width_replicate _).symm⟩⟩, hcap,
    Pool.sound_initial _, fun r chunk hmem => (nomatch hmem), fun r => List.nodup_nil,
      fun r s _ chunk hmem => (nomatch hmem),
    ?_, fun r => ceilChunks_zero.symm, fun r i _ => ?_⟩, ?_⟩
  · cases List.eq_of_mem_replicate hmem
  · change config.bytesSupplied / chunkBytes + ∑ r : Fin n, ([] : List ℕ).length
      = config.bytesSupplied / chunkBytes
    simp
  · rw [hempty]
  · funext r
    unfold extents
    rw [hempty]
    rfl

/-! ## Calls -/

/-- The calls on an arena. -/
inductive Op (n : ℕ) where
  | openRegion (r : Fin n) (maxBytes : Option ℕ)
  | releaseRegion (r : Fin n)
  | releasePrefix (r : Fin n) (bytes : ℕ)
  | ensureSize (r : Fin n) (bytes neededBytesLowerBound : ℕ)
  | truncate (r : Fin n) (bytes : ℕ)
  | write (r : Fin n) (offset : ℕ) (source : Source)
  | read (r : Fin n) (offset : ℕ) (destination : Bool) (length : ℕ)
deriving DecidableEq, Repr

/-- The end of a write fits 64 bits. -/
def Op.Fits : Op n → Prop
  | .write _ offset source => offset + source.length < 2 ^ 64
  | _ => True

/-- A call that returns no bytes. -/
def noBytes (m : Action n Unit) : Action n Bytes := do
  m
  pure []

/-- A call, with the bytes a read returns. -/
def call : Op n → Action n Bytes
  | .openRegion r maxBytes => noBytes (openRegion r maxBytes)
  | .releaseRegion r => noBytes (releaseRegion r)
  | .releasePrefix r bytes => noBytes (releasePrefix r bytes)
  | .ensureSize r bytes needed => noBytes (ensureSize r bytes needed)
  | .truncate r bytes => noBytes (truncate r bytes)
  | .write r offset source => noBytes (write r offset source)
  | .read r offset destination length => read r offset destination length

/-- The results of calls one after the other, and the arena they leave. -/
def runOps : List (Op n) → Arena n → List (Except Stop Bytes) × Arena n
  | [], st => ([], st)
  | op :: ops, st => ((call op st).1 :: (runOps ops (call op st).2).1,
    (runOps ops (call op st).2).2)

/-! ## Arrays -/

namespace Extent

/-- The extent is at least so large. -/
def grown (extent : Extent) (size : ℕ) : Extent := { extent with size := max extent.size size }

/-- The extent with bytes written. -/
def written (extent : Extent) (offset : ℕ) (data : Bytes) : Extent :=
  { extent with bytes := PineForge.Window.put extent.bytes offset data }

/-- The extent cut or grown with zeroes. -/
def truncated (extent : Extent) (size : ℕ) : Extent := ⟨size, cut extent.bytes size⟩

/-- The extent less its first bytes. -/
def shifted (extent : Extent) (bytes : ℕ) : Extent :=
  ⟨extent.size - bytes, fun i => extent.bytes (bytes + i)⟩

end Extent

/-- What a call on independent arrays may return, and what it leaves. A failed call leaves them all,
but for a beginning of a write's own data or of the zeroes over what a truncation cuts off. -/
inductive Step : (Fin n → Extent) → Op n → Except Stop Bytes → (Fin n → Extent) → Prop where
  | opened (e : Fin n → Extent) (r : Fin n) (maxBytes : Option ℕ) :
    Step e (.openRegion r maxBytes) (.ok []) e
  | released (e : Fin n → Extent) (r : Fin n) :
    Step e (.releaseRegion r) (.ok []) (Function.update e r Extent.empty)
  | headReleased (e : Fin n → Extent) (r : Fin n) {bytes : ℕ} (hwhole : bytes % chunkBytes = 0)
    (hle : bytes ≤ (e r).size) : Step e (.releasePrefix r bytes) (.ok [])
      (Function.update e r ((e r).shifted bytes))
  | ensured (e : Fin n → Extent) (r : Fin n) (bytes needed : ℕ) :
    Step e (.ensureSize r bytes needed) (.ok []) (Function.update e r ((e r).grown bytes))
  | truncated (e : Fin n → Extent) (r : Fin n) (bytes : ℕ) :
    Step e (.truncate r bytes) (.ok []) (Function.update e r ((e r).truncated bytes))
  | nothingWritten (e : Fin n → Extent) (r : Fin n) (offset : ℕ) {source : Source}
    (hlength : source.length = 0) :
    Step e (.write r offset source) (.ok []) e
  | written (e : Fin n → Extent) (r : Fin n) (offset : ℕ) {data : Bytes} (hnil : data ≠ []) :
    Step e (.write r offset (.bytes data)) (.ok [])
      (Function.update e r (((e r).grown (offset + data.length)).written offset data))
  | nothingRead (e : Fin n → Extent) (r : Fin n) (offset : ℕ) (destination : Bool) :
    Step e (.read r offset destination 0) (.ok []) e
  | read (e : Fin n → Extent) (r : Fin n) {offset length : ℕ} (destination : Bool)
    (hpos : 0 < length)
    (hin : offset + length ≤ (e r).size) :
    Step e (.read r offset destination length)
      (.ok (PineForge.Window.window (e r).bytes offset length)) e
  | refused (e : Fin n → Extent) (op : Op n) (failure : Failure) :
    Step e op (.error (.thrown failure)) e
  | brokenWrite (e : Fin n → Extent) (r : Fin n) (offset : ℕ) (data : Bytes) (count : ℕ)
    (failure : Failure) :
    Step e (.write r offset (.bytes data)) (.error (.thrown failure))
      (Function.update e r (((e r).grown (offset + data.length)).written offset (data.take count)))
  | brokenTruncate (e : Fin n → Extent) (r : Fin n) {bytes : ℕ} (count : ℕ) (failure : Failure)
    (hless : bytes < (e r).size) :
    Step e (.truncate r bytes) (.error (.thrown failure))
      (Function.update e r ((e r).written bytes (List.replicate count 0)))

/-- The results that calls on independent arrays may have. -/
inductive Trace : (Fin n → Extent) → List (Op n) → List (Except Stop Bytes) →
    (Fin n → Extent) → Prop where
  | nil (e : Fin n → Extent) : Trace e [] [] e
  | cons {e e' e'' : Fin n → Extent} {op : Op n} {ops : List (Op n)} {result : Except Stop Bytes}
    {results : List (Except Stop Bytes)} (hstep : Step e op result e')
      (hrest : Trace e' ops results e'') :
    Trace e (op :: ops) (result :: results) e''

/-! ## One call -/

variable {st t : Arena n}

theorem Ends.step {op : Op n} {P : Bytes → Arena n → Prop} {F : Failure → Arena n → Prop}
    (h : Ends (call op) st P F)
    (hp : ∀ bytes t, P bytes t → t.Sound ∧ Step st.extents op (.ok bytes) t.extents)
    (hf : ∀ failure t, F failure t → t.Sound ∧
      Step st.extents op (.error (.thrown failure)) t.extents) :
    (call op st).2.Sound ∧ Step st.extents op (call op st).1 (call op st).2.extents := by
  rcases h with ⟨bytes, t, hcall, ht⟩ | ⟨failure, t, hcall, ht⟩
  · rw [hcall]
    exact hp bytes t ht
  · rw [hcall]
    exact hf failure t ht

theorem noBytes_ends {m : Action n Unit} {P : Unit → Arena n → Prop} {F : Failure → Arena n → Prop}
    (h : Ends m st P F) : Ends (noBytes m) st (fun bytes t => bytes = [] ∧ P () t) F :=
  Ends.bind h fun _ _ ht => Ends.pure ⟨rfl, ht⟩

theorem Untouched.step (h : Untouched st t) (op : Op n) (failure : Failure) :
    t.Sound ∧ Step st.extents op (.error (.thrown failure)) t.extents := by
  rw [h.extents]
  exact ⟨h.sound, Step.refused _ op failure⟩

/-- Each call follows the extents. -/
theorem call_step (hs : st.Sound) {op : Op n} (hfits : op.Fits) :
    (call op st).2.Sound ∧ Step st.extents op (call op st).1 (call op st).2.extents := by
  cases op with
  | openRegion r maxBytes =>
    refine Ends.step (noBytes_ends (openRegion_ends hs r maxBytes)) ?_ fun failure t ht =>
      ht.step _ failure
    rintro _ t ⟨rfl, hsound, -, hextents⟩
    rw [hextents]
    exact ⟨hsound, Step.opened _ r maxBytes⟩
  | releaseRegion r =>
    refine Ends.step (noBytes_ends (releaseRegion_ends hs r (F := fun _ _ => False)))
      ?_ fun _ _ hfalse => hfalse.elim
    rintro _ t ⟨rfl, ht⟩
    rw [ht.extents]
    exact ⟨ht.sound, Step.released _ r⟩
  | releasePrefix r bytes =>
    refine Ends.step (noBytes_ends (releasePrefix_ends hs r bytes)) ?_ fun failure t ht => ?_
    · rintro _ t ⟨rfl, hwhole, hle, ht⟩
      rw [ht.extents]
      exact ⟨ht.sound, Step.headReleased _ r hwhole hle⟩
    · rw [ht]
      exact ⟨hs, Step.refused _ _ failure⟩
  | ensureSize r bytes needed =>
    refine Ends.step (noBytes_ends (grow_ends hs r bytes needed)) ?_ fun failure t ht =>
      ht.step _ failure
    rintro _ t ⟨rfl, ht⟩
    rw [ht.extents]
    exact ⟨ht.sound, Step.ensured _ r bytes needed⟩
  | truncate r bytes =>
    refine Ends.step (noBytes_ends (truncate_ends hs r bytes)) ?_ ?_
    · rintro _ t ⟨rfl, ht⟩
      rw [ht.extents]
      exact ⟨ht.sound, Step.truncated _ r bytes⟩
    · rintro failure t (ht | ⟨hless, count, ht⟩)
      · exact ht.step _ failure
      · rw [ht.extents]
        exact ⟨ht.sound, Step.brokenTruncate _ r count failure hless⟩
  | write r offset source =>
    by_cases hlength : source.length = 0
    · have hcall : call (.write r offset source) st = (.ok [], st) := by
        have hwrite : write r offset source = pure () := by
          unfold write
          rw [if_pos hlength]
        change noBytes (write r offset source) st = _
        rw [hwrite]
        rfl
      rw [hcall]
      exact ⟨hs, Step.nothingWritten _ r offset hlength⟩
    cases source with
    | null length =>
      have hcall : call (.write r offset (.null length)) st =
          (.error (arenaError efault "scratch arena write"), st) := by
        have hwrite : write r offset (.null length)
            = Command.throw (arenaError efault "scratch arena write") := by
          unfold write
          rw [if_neg hlength]
        change noBytes (write r offset (.null length)) st = _
        rw [hwrite]
        rfl
      rw [hcall]
      exact ⟨hs, Step.refused _ _ _⟩
    | bytes data =>
      have hnil : data ≠ [] := List.ne_nil_of_length_pos (Nat.pos_of_ne_zero hlength)
      refine Ends.step (noBytes_ends (write_ends hs r hnil hfits)) ?_ ?_
      · rintro _ t ⟨rfl, ht⟩
        rw [ht.extents]
        exact ⟨ht.sound, Step.written _ r offset hnil⟩
      · rintro failure t (ht | ⟨count, -, ht⟩)
        · exact ht.step _ failure
        · rw [ht.extents]
          exact ⟨ht.sound, Step.brokenWrite _ r offset data count failure⟩
  | read r offset destination length =>
    rcases Nat.eq_zero_or_pos length with rfl | hpos
    · have hcall : call (.read r offset destination 0) st = (.ok [], st) := rfl
      rw [hcall]
      exact ⟨hs, Step.nothingRead _ r offset destination⟩
    · refine Ends.step (read_ends hs r offset destination hpos) ?_ ?_
      · rintro _ t ⟨hlooked, hin, rfl⟩
        have hkept := hlooked.untouched hs
        rw [hkept.extents]
        exact ⟨hkept.sound, Step.read _ r destination hpos hin⟩
      · rintro failure t ⟨hlooked, -⟩
        exact (hlooked.untouched hs).step _ failure

theorem runOps_trace {ops : List (Op n)} {st : Arena n} (hs : st.Sound)
    (hfits : ∀ op ∈ ops, op.Fits) :
    (runOps ops st).2.Sound ∧ Trace st.extents ops (runOps ops st).1 (runOps ops st).2.extents := by
  induction ops generalizing st with
  | nil => exact ⟨hs, Trace.nil _⟩
  | cons op ops ih =>
    obtain ⟨hsound, hstep⟩ := call_step hs (hfits op List.mem_cons_self)
    obtain ⟨hfinal, hrest⟩ := ih hsound fun op hmem => hfits op (List.mem_cons_of_mem _ hmem)
    exact ⟨hfinal, Trace.cons hstep hrest⟩

/-- Chunks and windows are accounted for. -/
structure Accounted (st : Arena n) : Prop where
  total : st.pool.chunksFree + ∑ r, (st.regions r).chunks.length = st.pool.chunksTotal
  free : st.pool.chunksFree
    = ((Finset.range st.pool.chunksTotal).filter fun c => st.pool.isFree c = true).card
  owned : ∀ r, ∀ chunk ∈ (st.regions r).chunks, chunk < st.pool.chunksTotal ∧
    st.pool.isFree chunk = false
  nodup : ∀ r, (st.regions r).chunks.Nodup
  apart : ∀ r s, r ≠ s → ∀ chunk ∈ (st.regions r).chunks, chunk ∉ (st.regions s).chunks
  mapped : st.maps.mappedBytes = (st.maps.windows.map Maps.width).sum
  capped : st.maps.mappedBytes ≤ st.config.cap
  hint : ∀ chunk, st.pool.isFree chunk = true → st.pool.searchWord ≤ chunk / 64

theorem Sound.accounted (hs : st.Sound) : Accounted st :=
  ⟨hs.total, hs.pool.counted, hs.owned, hs.nodup, hs.apart, hs.ready.maps.bytes,
    le_trans hs.ready.maps.mappedBytes_le hs.capped, hs.pool.hint⟩

/-- From an attachment, under any calls and failures: the results are those of independent arrays of
bytes, reads within a size return their bytes when no call fails, a failed growth takes nothing, and
all is accounted for. -/
theorem regions_are_arrays {file : ℕ → Fin 256} {io : List Outcome}
    {stores : Fin n → ScratchStore} {bytes : ℕ}
    {pageResult : ℤ} {configured : Option (List Char)} {st : Arena n}
    (hattach : attach file io stores bytes pageResult configured = .ok st) {ops : List (Op n)}
    (hfits : ∀ op ∈ ops, op.Fits) :
    Trace (fun _ => Extent.empty) ops (runOps ops st).1 (runOps ops st).2.extents ∧
      Accounted (runOps ops st).2 ∧
      (∀ r bytes needed, (∃ t, grow r bytes needed (runOps ops st).2 = (.ok (), t)) ∨
        ∃ failure t, grow r bytes needed (runOps ops st).2 = (.error (.thrown failure), t) ∧
          Untouched (runOps ops st).2 t) ∧
      (∀ r offset length, 0 < length → offset + length ≤ ((runOps ops st).2.extents r).size →
        Quiet (runOps ops st).2.maps →
        ∃ t, read r offset true length (runOps ops st).2 =
          (.ok (PineForge.Window.window ((runOps ops st).2.extents r).bytes offset length),
            t)) := by
  obtain ⟨hs, hempty⟩ := attach_sound hattach
  obtain ⟨hfinal, htrace⟩ := runOps_trace hs hfits
  rw [hempty] at htrace
  refine ⟨htrace, hfinal.accounted, fun r bytes needed => ?_,
    fun r offset length hpos hin hquiet => ?_⟩
  · rcases grow_ends hfinal r bytes needed with ⟨_, t, hgrow, -⟩ | ⟨failure, t, hgrow, ht⟩
    · exact .inl ⟨t, hgrow⟩
    · exact .inr ⟨failure, t, hgrow, ht⟩
  · rcases read_ends hfinal r offset true hpos with ⟨_, t, hread, -, -, rfl⟩ |
      ⟨failure, t, -, -, hwhy⟩
    · exact ⟨t, hread⟩
    · rcases hwhy with hnull | hpast | hnot
      · cases hnull
      · exact absurd hin (Nat.not_le_of_lt hpast)
      · exact absurd hquiet hnot

/-- Two regions on two chunks: there is no memory for the chunk directory of the first, so its write
fails; the other one is sized and read. -/
theorem regions_are_arrays_twoChunks :
    ∃ st : Arena 2, attach (fun _ => 7) [.fails 12 0] (fun _ => .unknown) 2097152 4096 none
      = .ok st ∧
      Trace (fun _ => Extent.empty)
        [.openRegion 0 none, .write 0 5 (.bytes [1, 2]), .ensureSize 1 3 0, .read 1 0 true 3]
        (runOps [.openRegion 0 none, .write 0 5 (.bytes [1, 2]), .ensureSize 1 3 0,
          .read 1 0 true 3] st).1
        (runOps [.openRegion 0 none, .write 0 5 (.bytes [1, 2]), .ensureSize 1 3 0,
          .read 1 0 true 3] st).2.extents := by
  have hconfig : configure 2097152 4096 none = .ok ⟨2097152, 33554432, 1048576, 2⟩ := by
    decide +kernel
  have hattach : attach (fun _ => 7) [.fails 12 0] (fun _ => .unknown) 2097152 4096 none =
      .ok (attached ⟨2097152, 33554432, 1048576, 2⟩ (fun _ => 7) [.fails 12 0] fun _ : Fin 2 =>
        .unknown) := by
    unfold attach
    rw [hconfig]
    rfl
  refine ⟨_, hattach, (regions_are_arrays hattach fun op hmem => ?_).1⟩
  simp only [List.mem_cons, List.not_mem_nil, or_false] at hmem
  rcases hmem with rfl | rfl | rfl | rfl
  · trivial
  · exact (by decide : 5 + 2 < 2 ^ 64)
  · trivial
  · trivial

end PineForge.Arena
