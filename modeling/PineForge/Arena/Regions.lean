import Mathlib
import PineForge.Machine.Window
import PineForge.Arena.Windows

/-!
# The regions of a scratch arena

A region is a list of chunks and a size. It grows by whole chunks, each zeroed through its windows
before it joins the region; when a later chunk fails, the claimed ones go back. Bytes are written
through the windows and read with positioned reads of the file, which sees what the windows wrote.
-/

namespace PineForge.Arena

/-- Bytes of the arena. -/
abbrev Bytes := List (Fin 256)

/-- A region: its chunks and its size. -/
structure Region where
  chunks : List ℕ := []
  size : ℕ := 0
  maxBytes : Option ℕ := none
  store : ScratchStore := .unknown
  /-- The capacity of the vector of chunks. -/
  capacity : ℕ := 0
deriving DecidableEq, Repr

/-- What an attachment fixes. -/
structure Config where
  bytesSupplied : ℕ
  /-- The cap on the mapped bytes, in whole pages. -/
  cap : ℕ
  windowBytes : ℕ
  slots : ℕ
deriving DecidableEq, Repr

end Arena

/-- A scratch arena and the regions on it. -/
structure Arena (n : ℕ) where
  config : Arena.Config
  /-- The backing file, as windows and positioned reads see it. -/
  file : ℕ → Fin 256
  maps : Arena.Maps
  pool : Arena.Pool
  regions : Fin n → Arena.Region
  openRegions : ℕ := 0

namespace Arena

variable {n : ℕ} {β : Type}

/-- A call on the arena. -/
abbrev Action (n : ℕ) := Command (Arena n) Stop

/-! ## Updates -/

/-- The arena with other windows. -/
def withMaps (st : Arena n) (maps : Maps) : Arena n := { st with maps := maps }

/-- The arena with other free chunks. -/
def withPool (st : Arena n) (pool : Pool) : Arena n := { st with pool := pool }

/-- The arena with bytes stored. -/
def stored (st : Arena n) (offset : ℕ) (data : Bytes) : Arena n :=
  { st with file := PineForge.Window.put st.file offset data }

/-- The arena with another region. -/
def withRegion (st : Arena n) (r : Fin n) (region : Region) : Arena n :=
  { st with regions := Function.update st.regions r region }

/-- A region with other chunks. -/
def withChunks (st : Arena n) (r : Fin n) (chunks : List ℕ) : Arena n :=
  st.withRegion r { st.regions r with chunks := chunks }

/-- A region with another size. -/
def withSize (st : Arena n) (r : Fin n) (size : ℕ) : Arena n :=
  st.withRegion r { st.regions r with size := size }

/-- A region with another capacity. -/
def withCapacity (st : Arena n) (r : Fin n) (capacity : ℕ) : Arena n :=
  st.withRegion r { st.regions r with capacity := capacity }

/-- The arena with another count of regions. -/
def withOpen (st : Arena n) (openRegions : ℕ) : Arena n := { st with openRegions := openRegions }

@[simp] theorem withMaps_pool (st : Arena n) (maps : Maps) : (st.withMaps maps).pool = st.pool :=
  rfl

@[simp] theorem withMaps_config (st : Arena n) (maps : Maps) :
    (st.withMaps maps).config = st.config := rfl

@[simp] theorem withMaps_regions (st : Arena n) (maps : Maps) :
    (st.withMaps maps).regions = st.regions := rfl

@[simp] theorem withMaps_file (st : Arena n) (maps : Maps) : (st.withMaps maps).file = st.file :=
  rfl

@[simp] theorem withPool_pool (st : Arena n) (pool : Pool) : (st.withPool pool).pool = pool := rfl

@[simp] theorem withRegion_self (st : Arena n) (r : Fin n) (region : Region) :
    (st.withRegion r region).regions r = region := Function.update_self ..

@[simp] theorem withRegion_of_ne (st : Arena n) {r s : Fin n} (h : s ≠ r) (region : Region) :
    (st.withRegion r region).regions s = st.regions s := Function.update_of_ne h ..

theorem withChunks_self (st : Arena n) (r : Fin n) (chunks : List ℕ) :
    (st.withChunks r chunks).regions r = { st.regions r with chunks := chunks } :=
      withRegion_self ..

section

variable (st : Arena n) (offset : ℕ) (data : Bytes)

@[simp] theorem stored_config : (st.stored offset data).config = st.config := rfl

@[simp] theorem stored_maps : (st.stored offset data).maps = st.maps := rfl

@[simp] theorem stored_pool : (st.stored offset data).pool = st.pool := rfl

@[simp] theorem stored_regions : (st.stored offset data).regions = st.regions := rfl

@[simp] theorem stored_openRegions : (st.stored offset data).openRegions = st.openRegions := rfl

@[simp] theorem stored_file :
    (st.stored offset data).file = PineForge.Window.put st.file offset data := rfl

end

/-- A command of the windows. -/
def onMaps (m : Mapping β) : Action n β := fun st => ((m st.maps).1, st.withMaps (m st.maps).2)

/-- `catch (...)` with a cleanup and a rethrow. -/
def onThrow (m : Action n β) (cleanup : Action n Unit) : Action n β := fun st =>
  match m st with
  | (.ok b, t) => (.ok b, t)
  | (.error stop, t) =>
    match cleanup t with
    | (.ok _, u) => (.error stop, u)
    | (.error other, u) => (.error other, u)

/-- Stop where a check holds. -/
def failIf (c : Prop) [Decidable c] (stop : Stop) : Action n Unit :=
  if c then Command.throw stop else pure ()

/-! ## Exhaustion -/

/-- The clamp of reported counters. -/
def int64Max : ℕ := 2 ^ 63 - 1

/-- `arena_exhausted` for bytes. -/
def exhaustedBytes (st : Arena n) (store : ScratchStore) (neededBytes : ℕ) : Stop :=
  .thrown (.exhausted (min st.pool.highWater int64Max) (min st.config.bytesSupplied int64Max)
    (min st.pool.bytesUsed int64Max) (min neededBytes int64Max) store)

/-- `arena_exhausted` for chunks. -/
def exhausted (st : Arena n) (store : ScratchStore) (neededChunks : ℕ) : Stop :=
  exhaustedBytes st store
    (if max neededChunks 1 > int64Max / chunkBytes then int64Max
      else max neededChunks 1 * chunkBytes)

/-! ## Chunks -/

/-- `claim_chunk`. A chunk's number is below the total, which fits 32 bits. -/
def claimChunk (store : ScratchStore) (neededChunks : ℕ) : Action n ℕ := do
  let st ← Command.get
  if st.pool.chunksFree = 0 then Command.throw (exhausted st store neededChunks)
  else
    match st.pool.claim with
    | none => Command.throw .undefined
    | some found => do
      Command.modify (·.withPool found.2)
      pure found.1

/-- The bytes a hole punch over a chunk clears. -/
def punched (outcome : Outcome) : ℕ :=
  match outcome with
  | .fails _ left => min left chunkBytes
  | _ => chunkBytes

/-- Punch a chunk's hole and free it. -/
def releaseChunk (chunk : ℕ) : Action n Unit := do
  onMaps (fun maps => Maps.unmapChunk (chunk * chunkBytes) (List.range maps.windows.length) maps)
  let outcome ← onMaps Maps.call
  Command.modify (·.stored (chunk * chunkBytes) (List.replicate (punched outcome) 0))
  Command.modify (fun st => st.withPool (st.pool.release chunk))

/-- The window over a byte of the file. -/
def mapped (physical : ℕ) : Action n Window := do
  let st ← Command.get
  onMaps (Maps.mapped st.config.windowBytes physical)

/-- The loop of `zero_chunk`. -/
def zeroFrom (start position : ℕ) : Action n Unit :=
  if _h : position - start < chunkBytes then do
    let window ← mapped position
    let inside := position - window.offset
    let length := window.length - inside
    Command.modify (·.stored (window.offset + inside) (List.replicate length 0))
    if _hpos : 0 < length then zeroFrom start (position + length) else Command.throw .diverges
  else pure ()
termination_by start + chunkBytes - position

/-- Clear a chunk. -/
def zeroChunk (chunk : ℕ) : Action n Unit := zeroFrom (chunk * chunkBytes) (chunk * chunkBytes)

/-- Release chunks in order. -/
def releaseChunks : List ℕ → Action n Unit
  | [] => pure ()
  | chunk :: chunks => do
    releaseChunk chunk
    releaseChunks chunks

/-- So many turns of the loops that give back the last chunk. -/
def popChunks (r : Fin n) : ℕ → Action n Unit
  | 0 => pure ()
  | count + 1 => do
    let st ← Command.get
    match (st.regions r).chunks.getLast? with
    | none => Command.throw .undefined
    | some chunk => do
      releaseChunk chunk
      Command.modify (fun st => st.withChunks r (st.regions r).chunks.dropLast)
      popChunks r count

/-- The loop that gives back the last chunk while there are more than `kept`. -/
def dropTo (r : Fin n) (kept : ℕ) : Action n Unit := do
  let st ← Command.get
  popChunks r ((st.regions r).chunks.length - kept)

/-! ## Growth -/

/-- The chunks that hold so many bytes. -/
def ceilChunks (bytes : ℕ) : ℕ := bytes / chunkBytes + (if bytes % chunkBytes ≠ 0 then 1 else 0)

/-- `max_size` of the vector of chunks. -/
def maxChunks : ℕ := 2 ^ 61 - 1

/-- `ENOMEM`. -/
def enomem : ℕ := 12

/-- `reserve` on the vector of chunks: `bad_alloc` by its number, else `length_error`. -/
def reserve (r : Fin n) (count : ℕ) (operation : String) : Action n Unit := do
  let outcome ← onMaps Maps.call
  match outcome.errno with
  | none => Command.modify (fun st => st.withCapacity r (max (st.regions r).capacity count))
  | some errno =>
    if errno = enomem then Command.throw (.thrown .outOfMemory)
    else Command.throw (arenaError efbig operation)

/-- The room for `target` chunks in the region's table. -/
def reserveTable (r : Fin n) (target : ℕ) : Action n Unit := do
  let st ← Command.get
  let region := st.regions r
  if region.maxBytes.isSome then
    failIf (target > region.capacity) (arenaError eio "scratch arena bounded directory")
  else
    Command.when (target > region.capacity)
      (reserve r (max target (min st.pool.chunksTotal (region.capacity + max region.capacity 1)))
        "scratch arena chunk table size")

/-- One turn of the loop of `grow`: a chunk is claimed, zeroed and joins the region. -/
def addChunk (r : Fin n) (needed : ℕ) : Action n Unit := do
  let st ← Command.get
  let chunk ← claimChunk (st.regions r).store needed
  onThrow (zeroChunk chunk) (releaseChunk chunk)
  Command.modify (fun st => st.withChunks r ((st.regions r).chunks ++ [chunk]))

/-- The loop of `grow` with so many chunks to come. -/
def extend (r : Fin n) : ℕ → Action n Unit
  | 0 => pure ()
  | missing + 1 => do
    addChunk r (missing + 1)
    extend r missing

/-- The refusal of `grow` before it claims. -/
def refuse (st : Arena n) (region : Region) (bytes target needed : ℕ) : Action n Unit :=
  failIf (region.maxBytes.any (fun share => decide (bytes > share)) = true ∨
    target > st.pool.chunksTotal ∨
      target - region.chunks.length > st.pool.chunksFree)
    (if needed ≠ 0 then exhaustedBytes st region.store needed
      else exhausted st region.store (target - region.chunks.length))

/-- What `grow` does for more bytes than the region has. -/
def growTo (r : Fin n) (bytes needed : ℕ) : Action n Unit := do
  let st ← Command.get
  let region := st.regions r
  let target := ceilChunks bytes
  refuse st region bytes target needed
  failIf (target > maxChunks) (arenaError efbig "scratch arena chunk table size")
  reserveTable r target
  onThrow (extend r (target - region.chunks.length)) (dropTo r region.chunks.length)
  Command.modify (·.withSize r bytes)

/-- Grow a region unless it is large enough. -/
def grow (r : Fin n) (bytes needed : ℕ) : Action n Unit := do
  let st ← Command.get
  if bytes ≤ (st.regions r).size then pure () else growTo r bytes needed

/-! ## Operations -/

/-- The largest `off_t`. -/
def offMax : ℕ := 2 ^ 63 - 1

/-- The whole directory of a bounded region. -/
def reserveShare (r : Fin n) : Option ℕ → Action n Unit
  | none => pure ()
  | some share => do
    failIf (share > offMax ∨ ceilChunks share > maxChunks ∨ ceilChunks share > 2 ^ 32 - 1)
      (arenaError efbig "scratch arena bounded directory size")
    reserve r (ceilChunks share) "scratch arena bounded directory size"

/-- Open a region with its share. -/
def openRegion (r : Fin n) (maxBytes : Option ℕ) : Action n Unit := do
  let st ← Command.get
  failIf ((st.regions r).chunks ≠ [] ∨ (st.regions r).size ≠ 0)
    (.thrown (.logic "scratch arena region already populated"))
  reserveShare r maxBytes
  Command.modify (fun st =>
    (st.withRegion r { st.regions r with maxBytes := maxBytes }).withOpen
      ((st.openRegions + 1) % 2 ^ 64))

/-- Release a region and all its chunks. -/
def releaseRegion (r : Fin n) : Action n Unit := do
  let st ← Command.get
  releaseChunks (st.regions r).chunks
  Command.modify (fun st =>
    (st.withRegion r { store := (st.regions r).store }).withOpen
      ((st.openRegions + (2 ^ 64 - 1)) % 2 ^ 64))

/-- Drop the first chunks of a region. -/
def releasePrefixChunks (r : Fin n) (bytes : ℕ) : Action n Unit := do
  let st ← Command.get
  let count := bytes / chunkBytes
  failIf ((st.regions r).chunks.length < count) .undefined
  releaseChunks ((st.regions r).chunks.take count)
  Command.modify (fun st => st.withChunks r ((st.regions r).chunks.drop count))
  Command.modify (fun st => st.withSize r ((st.regions r).size - bytes))

/-- Release the head of a region, chunk-wise. -/
def releasePrefix (r : Fin n) (bytes : ℕ) : Action n Unit := do
  let st ← Command.get
  failIf (bytes % chunkBytes ≠ 0 ∨ bytes > (st.regions r).size)
    (arenaError einval "scratch arena head release")
  releasePrefixChunks r bytes

/-- The region is at least so large. -/
def ensureSize (r : Fin n) (bytes needed : ℕ) : Action n Unit := grow r bytes needed

/-- The loop of `truncate` over the rest of the last chunk. -/
def zeroTail (finish position : ℕ) : Action n Unit :=
  if _h : position < finish then do
    let window ← mapped position
    let inside := position - window.offset
    let count := min (window.length - inside) (finish - position)
    Command.modify (·.stored (window.offset + inside) (List.replicate count 0))
    if _hpos : 0 < count then zeroTail finish (position + count) else Command.throw .diverges
  else pure ()
termination_by finish - position

/-- The bytes after the new end in the chunk that is kept. -/
def clearKept (r : Fin n) (bytes : ℕ) : Action n Unit := do
  let st ← Command.get
  match (st.regions r).chunks[ceilChunks bytes - 1]? with
  | none => Command.throw .undefined
  | some chunk =>
    zeroTail (chunk * chunkBytes + chunkBytes) (chunk * chunkBytes + bytes % chunkBytes)

/-- What `truncate` does for fewer bytes than the region has. -/
def shrink (r : Fin n) (bytes : ℕ) : Action n Unit := do
  Command.when (bytes % chunkBytes ≠ 0) (clearKept r bytes)
  dropTo r (ceilChunks bytes)
  let st ← Command.get
  Command.when (bytes = 0 ∧ (st.regions r).maxBytes.isNone = true)
    (Command.modify (fun st => (st.withChunks r []).withCapacity r 0))
  Command.modify (·.withSize r bytes)

/-- Set the size of a region. -/
def truncate (r : Fin n) (bytes : ℕ) : Action n Unit := do
  let st ← Command.get
  if bytes ≥ (st.regions r).size then grow r bytes 0 else shrink r bytes

/-- The loop of `write`: the data that is left, and where it goes. -/
def writeFrom (r : Fin n) (logical : ℕ) (data : Bytes) : Action n Unit :=
  if _h : data = [] then pure ()
  else do
    let st ← Command.get
    match (st.regions r).chunks[logical / chunkBytes]? with
    | none => Command.throw .undefined
    | some chunk => do
      let physical := chunk * chunkBytes + logical % chunkBytes
      let window ← mapped physical
      let inside := physical - window.offset
      let count := min data.length (window.length - inside)
      Command.modify (·.stored (window.offset + inside) (data.take count))
      if _hpos : 0 < count then writeFrom r (logical + count) (data.drop count)
        else Command.throw .diverges
termination_by data.length
decreasing_by
  have := List.length_pos_of_ne_nil _h
  rw [List.length_drop]
  omega

/-- The argument of `write`: a null pointer with a length, or the bytes at the pointer. -/
inductive Source where
  | null (length : ℕ)
  | bytes (data : Bytes)
deriving DecidableEq, Repr

/-- The bytes asked to write. -/
def Source.length : Source → ℕ
  | .null length => length
  | .bytes data => data.length

/-- Write at an offset, growing the region. -/
def write (r : Fin n) (offset : ℕ) (source : Source) : Action n Unit :=
  if source.length = 0 then pure ()
  else
    match source with
    | .null _ => Command.throw (arenaError efault "scratch arena write")
    | .bytes data => do
      grow r ((offset + data.length) % 2 ^ 64) 0
      writeFrom r offset data

/-- One positioned read, made again while it is interrupted. -/
def pread (physical count : ℕ) : Action n Bytes := do
  let outcome ← onMaps Maps.callRetried
  let st ← Command.get
  match outcome with
  | .ok => pure (PineForge.Window.window st.file physical count)
  | .fails errno _ => Command.throw (arenaError errno "scratch read")
  | .short received =>
    if received < count then do
      onMaps (Maps.validateBackingSize "scratch read")
      Command.throw (arenaError eio "scratch read")
    else pure (PineForge.Window.window st.file physical count)

/-- The loop of `read`: what is left to receive, and where it stands. -/
def readFrom (r : Fin n) (logical remaining : ℕ) : Action n Bytes :=
  if _h : remaining = 0 then pure []
  else do
    let st ← Command.get
    match (st.regions r).chunks[logical / chunkBytes]? with
    | none => Command.throw .undefined
    | some chunk => do
      let inChunk := logical % chunkBytes
      let count := min remaining (chunkBytes - inChunk)
      let received ← pread (chunk * chunkBytes + inChunk) count
      let rest ← readFrom r (logical + count) (remaining - count)
      pure (received ++ rest)
termination_by remaining
decreasing_by
  have : logical % chunkBytes < chunkBytes := Nat.mod_lt _ chunkBytes_pos
  omega

/-- `read` into a destination, which may be a null pointer. -/
def read (r : Fin n) (offset : ℕ) (destination : Bool) (length : ℕ) : Action n Bytes :=
  if length = 0 then pure []
  else if destination = false then Command.throw (arenaError efault "scratch arena read")
  else do
    let st ← Command.get
    if offset > (st.regions r).size ∨ length > (st.regions r).size - offset then
      Command.throw (arenaError eio "scratch read")
    else readFrom r offset length

end Arena

end PineForge
