import Mathlib
import PineForge.Arena.Chunks

/-!
# Growth of a region

`Sound` is the invariant of an arena between calls. `Grown r chunks st t`: the region took these
chunks, which were free and are zeroed now; whatever else changed lies in chunks that were free. The
loop of `grow` gives such a state also when it fails, and giving the chunks back then leaves `Grown
r [] st t`: nothing was taken.

`contentOf file chunks` is what the chunks of a region hold: one after the other, and zero beyond
the last. A write inside one chunk is a write at its logical place, a new zeroed chunk changes
nothing, and a chunk of another region is not seen.
-/

namespace PineForge.Arena

/-! ## What the chunks of a region hold -/

section

variable {file file' : ℕ → Fin 256} {chunks : List ℕ}

/-- The bytes that a list of chunks holds. -/
def contentOf (file : ℕ → Fin 256) (chunks : List ℕ) (i : ℕ) : Fin 256 :=
  (chunks[i / chunkBytes]?).elim 0 fun chunk => file (chunk * chunkBytes + i % chunkBytes)

theorem contentOf_some {i chunk : ℕ} (h : chunks[i / chunkBytes]? = some chunk) :
    contentOf file chunks i = file (chunk * chunkBytes + i % chunkBytes) := by
  rw [contentOf, h, Option.elim_some]

theorem contentOf_none {i : ℕ} (h : chunks.length ≤ i / chunkBytes) :
    contentOf file chunks i = 0 := by
  rw [contentOf, List.getElem?_eq_none h, Option.elim_none]

theorem contentOf_congr (h : ∀ i, i / chunkBytes ∈ chunks → file i = file' i) :
    contentOf file chunks = contentOf file' chunks := by
  funext i
  cases hchunk : chunks[i / chunkBytes]? with
  | none => rw [contentOf_none (List.getElem?_eq_none_iff.mp hchunk),
    contentOf_none (List.getElem?_eq_none_iff.mp hchunk)]
  | some chunk =>
    rw [contentOf_some hchunk, contentOf_some hchunk]
    apply h
    have hdiv : (chunk * chunkBytes + i % chunkBytes) / chunkBytes = chunk := by
      simp only [chunkBytes_eq]
      omega
    rw [hdiv]
    exact List.mem_of_getElem? hchunk

/-- A write inside one chunk is one in the region. -/
theorem contentOf_put (hnodup : chunks.Nodup) {j chunk place : ℕ} (hchunk : chunks[j]? = some chunk)
    {data : Bytes} (hin : place + data.length ≤ chunkBytes) :
    contentOf (PineForge.Window.put file (chunk * chunkBytes + place) data) chunks =
      PineForge.Window.put (contentOf file chunks) (j * chunkBytes + place) data := by
  funext i
  cases hother : chunks[i / chunkBytes]? with
  | none =>
    have hlen := List.getElem?_eq_none_iff.mp hother
    have hj := (List.getElem?_eq_some_iff.mp hchunk).1
    rw [contentOf_none hlen, PineForge.Window.put_outside _
      (by simp only [chunkBytes_eq] at *; omega), contentOf_none hlen]
  | some other =>
    rw [contentOf_some hother]
    by_cases hsame : i / chunkBytes = j
    · -- the chunk itself: the two writes are at the same place of it
      have heq : other = chunk := by
        rw [hsame, hchunk, Option.some.injEq] at hother
        exact hother.symm
      subst heq
      by_cases hplace : place ≤ i % chunkBytes ∧ i % chunkBytes < place + data.length
      · have hat : j * chunkBytes + place + (i % chunkBytes - place) = i := by
          simp only [chunkBytes_eq] at *
          omega
        have hget : data[i % chunkBytes - place]? = some data[i % chunkBytes - place] :=
          List.getElem?_eq_getElem (by omega)
        have hleft : PineForge.Window.put file (other * chunkBytes + place) data
            (other * chunkBytes + place + (i % chunkBytes - place)) = _ :=
              PineForge.Window.put_inside file hget
        have hright : PineForge.Window.put (contentOf file chunks) (j * chunkBytes + place) data
            (j * chunkBytes + place + (i % chunkBytes - place)) = _ :=
          PineForge.Window.put_inside (contentOf file chunks) hget
        rw [show other * chunkBytes + place + (i % chunkBytes - place)
          = other * chunkBytes + i % chunkBytes by omega]
          at hleft
        rw [hat] at hright
        rw [hleft, hright]
      · rw [PineForge.Window.put_outside _ (by omega), PineForge.Window.put_outside _ (by
          simp only [chunkBytes_eq] at *; omega), contentOf_some hother]
    · have hne : other ≠ chunk := by
        rintro rfl
        apply hsame
        exact (List.getElem?_inj (List.getElem?_eq_some_iff.mp hother).1 hnodup).mp
          (hother.trans hchunk.symm)
      rw [PineForge.Window.put_outside _ (by simp only [chunkBytes_eq] at *; omega),
        PineForge.Window.put_outside _ (by simp only [chunkBytes_eq] at *; omega),
          contentOf_some hother]

theorem contentOf_append (hzero : ∀ chunk ∈ more, ∀ place < chunkBytes,
      file (chunk * chunkBytes + place) = 0) :
    contentOf file (chunks ++ more) = contentOf file chunks := by
  funext i
  by_cases hlt : i / chunkBytes < chunks.length
  · rw [contentOf, List.getElem?_append_left hlt, contentOf]
  · have hle : chunks.length ≤ i / chunkBytes := by omega
    rw [contentOf_none hle, contentOf, List.getElem?_append_right hle]
    cases hmore : more[i / chunkBytes - chunks.length]? with
    | none => rfl
    | some chunk => exact hzero chunk (List.mem_of_getElem? hmore) _ (Nat.mod_lt _ chunkBytes_pos)

theorem contentOf_take (kept i : ℕ) :
    contentOf file (chunks.take kept) i = if i < kept * chunkBytes then
      contentOf file chunks i else 0 := by
  have hlt : i < kept * chunkBytes ↔ i / chunkBytes < kept :=
    (Nat.div_lt_iff_lt_mul chunkBytes_pos).symm
  by_cases h : i < kept * chunkBytes
  · rw [if_pos h, contentOf, List.getElem?_take_of_lt (hlt.mp h), contentOf]
  · rw [if_neg h]
    apply contentOf_none
    rw [List.length_take]
    rw [hlt] at h
    omega

theorem contentOf_drop (count i : ℕ) :
    contentOf file (chunks.drop count) i = contentOf file chunks (count * chunkBytes + i) := by
  unfold contentOf
  rw [List.getElem?_drop, show (count * chunkBytes + i) / chunkBytes = count + i / chunkBytes by
    simp only [chunkBytes_eq]; omega, show (count * chunkBytes + i) % chunkBytes = i % chunkBytes by
    simp only [chunkBytes_eq]; omega]

end

/-! ## Growth -/

variable {n : ℕ} {st t u : Arena n} {r : Fin n}

/-- The bytes of a region by their logical place. -/
def content (st : Arena n) (r : Fin n) : ℕ → Fin 256 := contentOf st.file (st.regions r).chunks

/-- The invariant between calls. -/
structure Sound (st : Arena n) : Prop where
  ready : st.Ready
  capped : st.config.slots * st.config.windowBytes ≤ st.config.cap
  pool : st.pool.Sound
  owned : ∀ r, ∀ chunk ∈ (st.regions r).chunks, chunk < st.pool.chunksTotal ∧
    st.pool.isFree chunk = false
  nodup : ∀ r, (st.regions r).chunks.Nodup
  apart : ∀ r s, r ≠ s → ∀ chunk ∈ (st.regions r).chunks, chunk ∉ (st.regions s).chunks
  total : st.pool.chunksFree + ∑ r, (st.regions r).chunks.length = st.pool.chunksTotal
  sized : ∀ r, (st.regions r).chunks.length = ceilChunks (st.regions r).size
  zero : ∀ r i, (st.regions r).size ≤ i → st.content r i = 0

/-! ## The loop -/

/-- A region has new chunks at its end. -/
structure Grown (r : Fin n) (chunks : List ℕ) (st t : Arena n) : Prop where
  config : t.config = st.config
  openRegions : t.openRegions = st.openRegions
  regions : t.regions = (st.withChunks r ((st.regions r).chunks ++ chunks)).regions
  ready : t.Ready
  pool : t.pool.Sound
  total : t.pool.chunksTotal = st.pool.chunksTotal
  free : ∀ c, t.pool.isFree c = (!decide (c ∈ chunks) && st.pool.isFree c)
  count : t.pool.chunksFree + chunks.length = st.pool.chunksFree
  nodup : chunks.Nodup
  taken : ∀ chunk ∈ chunks, st.pool.isFree chunk = true
  file : ∀ i, st.pool.isFree (i / chunkBytes) = false → t.file i = st.file i
  zeroed : ∀ chunk ∈ chunks, ∀ place < chunkBytes, t.file (chunk * chunkBytes + place) = 0

theorem withChunks_append_nil (st : Arena n) (r : Fin n) :
    (st.withChunks r ((st.regions r).chunks ++ [])).regions = st.regions := by
  rw [List.append_nil]
  exact Function.update_eq_self ..

theorem Grown.nil (hready : st.Ready) (hpool : st.pool.Sound) (r : Fin n) : Grown r [] st st where
  config := rfl
  openRegions := rfl
  regions := (withChunks_append_nil st r).symm
  ready := hready
  pool := hpool
  total := rfl
  free c := by simp
  count := rfl
  nodup := List.nodup_nil
  taken chunk hmem := nomatch hmem
  file i _ := rfl
  zeroed chunk hmem := nomatch hmem

/-- Growth by one chunk and then more. -/
theorem Grown.cons {chunk : ℕ} {chunks : List ℕ} (h : Grown r [chunk] st t)
    (h' : Grown r chunks t u) :
    Grown r (chunk :: chunks) st u := by
  have hnot : t.pool.isFree chunk = false := by simp [h.free]
  have hnotMem : chunk ∉ chunks := by
    intro hmem
    rw [h'.taken chunk hmem] at hnot
    cases hnot
  have hfreed : ∀ c, t.pool.isFree c = true → st.pool.isFree c = true := by
    intro c hc
    rw [h.free, Bool.and_eq_true] at hc
    exact hc.2
  refine ⟨h'.config.trans h.config, h'.openRegions.trans h.openRegions, ?_, h'.ready, h'.pool,
    h'.total.trans h.total, fun c => ?_, ?_, List.nodup_cons.mpr ⟨hnotMem, h'.nodup⟩, ?_,
      fun i hi => ?_, ?_⟩
  · rw [h'.regions, withChunks, withRegion, withChunks, withRegion]
    dsimp only
    rw [h.regions, withChunks, withRegion]
    dsimp only
    rw [Function.update_self, Function.update_idem, List.append_assoc]
    rfl
  · rw [h'.free, h.free]
    simp only [List.mem_cons, List.not_mem_nil, or_false, Bool.decide_or, Bool.not_or]
    rw [← Bool.and_assoc, Bool.and_comm (!decide (c ∈ chunks))]
  · have hone := h.count
    have hmany := h'.count
    rw [List.length_singleton] at hone
    rw [List.length_cons]
    omega
  · intro c hc
    rcases List.mem_cons.mp hc with rfl | hc
    · exact h.taken c List.mem_cons_self
    · exact hfreed c (h'.taken c hc)
  · have hkept : t.pool.isFree (i / chunkBytes) = false := by rw [h.free, hi, Bool.and_false]
    exact (h'.file i hkept).trans (h.file i hi)
  · intro c hc place hplace
    rcases List.mem_cons.mp hc with rfl | hc
    · have hdiv : (c * chunkBytes + place) / chunkBytes = c := by
        simp only [chunkBytes_eq] at *
        omega
      rw [h'.file _ (by rw [hdiv]; exact hnot)]
      exact h.zeroed c List.mem_cons_self place hplace
    · exact h'.zeroed c hc place hplace

/-- The pool after the claim of a chunk. -/
structure Claimed (pool : Pool) (chunk : ℕ) (next : Pool) : Prop where
  taken : pool.isFree chunk = true
  sound : next.Sound
  free : ∀ j, next.isFree j = (!decide (j = chunk) && pool.isFree j)
  count : next.chunksFree + 1 = pool.chunksFree
  total : next.chunksTotal = pool.chunksTotal

theorem claimChunk_ends (hpool : st.pool.Sound) (store : ScratchStore) (needed : ℕ) :
    Ends (claimChunk store needed) st (fun chunk t => ∃ next, t = st.withPool next ∧
      Claimed st.pool chunk next)
      (fun _ t => t = st) := by
  unfold claimChunk
  refine Ends.get_bind ?_
  by_cases hnone : st.pool.chunksFree = 0
  · rw [if_pos hnone]
    exact Ends.throw rfl
  · rw [if_neg hnone]
    obtain ⟨chunk, next, hclaim, htaken, hsound, hfree, hcount, htotal⟩ :=
      Pool.claim_spec hpool (Nat.pos_of_ne_zero hnone)
    rw [hclaim]
    refine Ends.bind (P := fun _ t => t = st.withPool next) (Ends.modify rfl) fun _ t ht => ?_
    exact Ends.pure ⟨next, ht, htaken, hsound, hfree, hcount, htotal⟩

theorem zeroChunk_ends (h : st.Ready) (chunk : ℕ) :
    Ends (zeroChunk chunk) st
      (fun _ t => Frame {chunk} st t ∧ t.Ready ∧ t.pool = st.pool ∧
        ∀ place < chunkBytes, t.file (chunk * chunkBytes + place) = 0)
      (fun _ t => Frame {chunk} st t ∧ t.Ready ∧ t.pool = st.pool) := by
  have hrest := zeroFrom_ends chunk (Nat.zero_le chunkBytes) h
  rw [Nat.add_zero] at hrest
  unfold zeroChunk
  refine Ends.mono hrest (fun _ t ht => ?_) fun _ t ht => ?_
  · obtain ⟨hframe, hpool⟩ := ht.frame (by omega)
    refine ⟨hframe, ht.1, hpool, fun place hplace => ?_⟩
    obtain ⟨-, maps, rfl⟩ := ht
    rw [withMaps_file, stored_file, Nat.add_zero]
    apply PineForge.Window.put_inside
    rw [List.getElem?_replicate, if_pos (by omega)]
  · obtain ⟨count, hcount, ht⟩ := ht
    obtain ⟨hframe, hpool⟩ := ht.frame (by omega)
    exact ⟨hframe, ht.1, hpool⟩

theorem file_of_frame {p : ℕ → Bool} {chunk : ℕ} (hf : Frame {chunk} st t)
    (htaken : p chunk = true) {i : ℕ}
    (hi : p (i / chunkBytes) = false) : t.file i = st.file i := by
  apply hf.file
  rintro rfl
  rw [hi] at htaken
  cases htaken

/-- A claimed and cleared chunk is appended. -/
theorem Grown.single {chunk : ℕ} {next : Pool} (hclaim : Claimed st.pool chunk next)
    (hframe : Frame {chunk} (st.withPool next) t) (hready : t.Ready) (hpool : t.pool = next)
    (hzero : ∀ place < chunkBytes, t.file (chunk * chunkBytes + place) = 0) :
    Grown r [chunk] st (t.withChunks r ((t.regions r).chunks ++ [chunk])) where
  config := hframe.config
  openRegions := hframe.openRegions
  regions := by
    rw [withChunks, withRegion]
    dsimp only
    rw [hframe.regions]
    rfl
  ready := hready.withChunks r _
  pool := by
    change t.pool.Sound
    rw [hpool]
    exact hclaim.sound
  total := by
    change t.pool.chunksTotal = _
    rw [hpool]
    exact hclaim.total
  free c := by
    change t.pool.isFree c = _
    rw [hpool, hclaim.free]
    simp only [List.mem_singleton]
  count := by
    change t.pool.chunksFree + 1 = _
    rw [hpool]
    exact hclaim.count
  nodup := List.nodup_singleton _
  taken c hc := by
    rw [List.mem_singleton.mp hc]
    exact hclaim.taken
  file i hi := file_of_frame (p := st.pool.isFree) hframe hclaim.taken hi
  zeroed c hc := by
    rw [List.mem_singleton.mp hc]
    exact hzero

theorem Grown.returned {chunk : ℕ} {next : Pool} (hclaim : Claimed st.pool chunk next)
    (hframe : Frame {chunk} (st.withPool next) t) (hready : t.Ready)
    (hpool : t.pool = next.release chunk) (hlt : chunk < st.pool.chunksTotal) :
    Grown r [] st t := by
  have hgone : next.isFree chunk = false := by simp [hclaim.free]
  obtain ⟨hsound, hfree⟩ := Pool.release_spec hclaim.sound (by rw [hclaim.total]; exact hlt) hgone
  refine ⟨hframe.config, hframe.openRegions, ?_, hready, ?_, ?_, fun c => ?_, ?_,
    List.nodup_nil, ?_,
    fun i hi => file_of_frame (p := st.pool.isFree) hframe hclaim.taken hi, ?_⟩
  · rw [withChunks_append_nil, hframe.regions]
    rfl
  · rw [hpool]
    exact hsound
  · rw [hpool]
    exact hclaim.total
  · rw [hpool, hfree, hclaim.free]
    by_cases hc : c = chunk
    · simp [hc, hclaim.taken]
    · simp [hc]
  · rw [hpool, List.length_nil]
    exact hclaim.count
  · intro c hc
    cases hc
  · intro c hc
    cases hc

theorem addChunk_ends (hready : st.Ready) (hpool : st.pool.Sound) (needed : ℕ) :
    Ends (addChunk r needed) st (fun _ t => ∃ chunk, Grown r [chunk] st t)
      (fun _ t => Grown r [] st t) := by
  unfold addChunk
  refine Ends.get_bind ?_
  refine Ends.bind ((claimChunk_ends hpool _ _).mono (fun _ _ ht => ht) fun _ t ht => ?_) ?_
  · rw [ht]
    exact Grown.nil hready hpool r
  rintro chunk t ⟨next, rfl, hclaim⟩
  refine Ends.bind (onThrow_ends (zeroChunk_ends (hready.withPool next) chunk) ?_) ?_
  · -- the zeroes failed: the chunk goes back
    rintro _ t ⟨hframe, hready', hpool'⟩
    refine (releaseChunk_ends hready' chunk).mono ?_ fun _ _ hfalse => hfalse
    rintro _ u ⟨hframe', hready'', hpool''⟩
    rw [hpool', withPool_pool] at hpool''
    exact Grown.returned hclaim (hframe.trans hframe') hready'' hpool''
      (hpool.within _ hclaim.taken)
  · rintro _ t ⟨hframe, hready', hpool', hzero⟩
    exact Ends.modify ⟨chunk, Grown.single hclaim hframe hready' hpool' hzero⟩

theorem extend_ends (missing : ℕ) {st : Arena n} (hready : st.Ready) (hpool : st.pool.Sound) :
    Ends (extend r missing) st (fun _ t => ∃ chunks : List ℕ, chunks.length = missing ∧
      Grown r chunks st t)
      (fun _ t => ∃ chunks, Grown r chunks st t) := by
  induction missing generalizing st with
  | zero => exact Ends.pure ⟨[], rfl, Grown.nil hready hpool r⟩
  | succ missing ih =>
    rw [extend]
    refine Ends.bind ((addChunk_ends hready hpool _).mono (fun _ _ ht => ht) fun _ t ht => ⟨[], ht⟩)
      ?_
    rintro _ t ⟨chunk, hone⟩
    refine (ih hone.ready hone.pool).mono ?_ ?_
    · rintro _ u ⟨chunks, hlength, hmany⟩
      refine ⟨chunk :: chunks, ?_, hone.cons hmany⟩
      rw [List.length_cons, hlength]
    · rintro _ u ⟨chunks, hmany⟩
      exact ⟨chunk :: chunks, hone.cons hmany⟩

/-- Rollback of a growth that failed. -/
theorem dropTo_ends {chunks : List ℕ} (hsound : st.pool.Sound) (h : Grown r chunks st t)
    {F : Failure → Arena n → Prop} :
    Ends (dropTo r (st.regions r).chunks.length) t (fun _ u => Grown r [] st u) F := by
  have hregion : (t.regions r).chunks = (st.regions r).chunks ++ chunks := by
    rw [h.regions, withChunks_self]
  unfold dropTo
  refine Ends.get_bind ?_
  rw [hregion, List.length_append, Nat.add_sub_cancel_left]
  refine (popChunks_ends r _ chunks h.ready hregion).mono ?_ fun _ _ hf => hf
  rintro _ u ⟨hframe, hready, hpool⟩
  have hheld : ∀ c ∈ chunks.reverse, c < t.pool.chunksTotal ∧ t.pool.isFree c = false := by
    intro c hc
    rw [List.mem_reverse] at hc
    refine ⟨?_, ?_⟩
    · rw [h.total]
      exact hsound.within c (h.taken c hc)
    · rw [h.free, decide_eq_true hc]
      rfl
  obtain ⟨hdone, hfree, hcount, htotal⟩ :=
    Pool.releaseAll_spec h.pool (List.nodup_reverse.mpr h.nodup) hheld
  rw [← hpool] at hdone hfree hcount htotal
  refine ⟨hframe.config.trans h.config, hframe.openRegions.trans h.openRegions, ?_, hready, hdone,
    htotal.trans h.total, fun c => ?_, ?_, List.nodup_nil, ?_, fun i hi => ?_, ?_⟩
  · rw [withChunks_append_nil, hframe.regions, withChunks, withRegion]
    dsimp only
    rw [h.regions, withChunks, withRegion]
    dsimp only
    rw [Function.update_self, Function.update_idem]
    exact Function.update_eq_self ..
  · rw [hfree, h.free]
    by_cases hc : c ∈ chunks
    · simp [hc, h.taken c hc]
    · simp [hc]
  · rw [hcount, List.length_reverse, List.length_nil]
    exact h.count
  · intro c hc
    cases hc
  · have hnotMem : i / chunkBytes ∉ {c | c ∈ chunks} := by
      intro hmem
      rw [h.taken _ hmem] at hi
      cases hi
    exact (hframe.file i hnotMem).trans (h.file i hi)
  · intro c hc
    cases hc

/-! ## Room in the table -/

/-- Only the capacity of a region's table and the calls to come changed. -/
def Reserved (r : Fin n) (st t : Arena n) : Prop :=
  t.Ready ∧ ∃ capacity maps, t = (st.withCapacity r capacity).withMaps maps

theorem Reserved.refl (h : st.Ready) (r : Fin n) : Reserved r st st := by
  refine ⟨h, (st.regions r).capacity, st.maps, ?_⟩
  rw [withCapacity, withRegion, Function.update_eq_self]
  rfl

theorem reserve_ends (h : st.Ready) (r : Fin n) (count : ℕ) (operation : String) :
    Ends (reserve r count operation) st (fun _ t => Reserved r st t)
      (fun _ t => Reserved r st t) := by
  unfold reserve
  refine Ends.bind ((onMaps_ends (F := fun _ _ => False) (Maps.call_ends h.maps)).mono
    (fun _ _ ht => ht) ?_) ?_
  · rintro failure t ⟨_, _, hfalse⟩
    exact hfalse.elim
  rintro outcome t ⟨maps, rfl, hmaps, -⟩
  have hready : (st.withMaps maps).Ready := h.withMaps hmaps
  cases outcome.errno with
  | none => exact Ends.modify ⟨⟨h.windowBytes_pos, h.slots_pos, hmaps⟩, _, maps, rfl⟩
  | some errno =>
    have hkept : Reserved r st (st.withMaps maps) := by
      refine ⟨hready, (st.regions r).capacity, maps, ?_⟩
      rw [withCapacity, withRegion, Function.update_eq_self]
    dsimp only
    by_cases hmemory : errno = enomem
    · rw [if_pos hmemory]
      exact Ends.throw hkept
    · rw [if_neg hmemory]
      exact Ends.throw hkept

theorem reserveTable_ends (h : st.Ready) (r : Fin n) (target : ℕ) :
    Ends (reserveTable r target) st (fun _ t => Reserved r st t) (fun _ t => Reserved r st t) := by
  unfold reserveTable
  refine Ends.get_bind ?_
  dsimp only
  by_cases hbounded : (st.regions r).maxBytes.isSome = true
  · rw [if_pos hbounded]
    exact failIf_ends (fun _ => Reserved.refl h r) fun _ => Reserved.refl h r
  · rw [if_neg hbounded]
    exact Ends.when (fun _ => reserve_ends h r _ _) fun _ => Reserved.refl h r

end PineForge.Arena
