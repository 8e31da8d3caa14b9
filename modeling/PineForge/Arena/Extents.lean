import Mathlib
import PineForge.Arena.Growth

/-!
# Regions as arrays of bytes

An `Extent` is what a region is for: a size and the bytes, zero beyond it. Every call replaces one
region and touches no chunk of another one, so it keeps the invariant and changes one extent
(`Sound.step`).
-/

namespace PineForge.Arena

variable {n : ℕ} {st t u : Arena n} {r : Fin n}

/-- An array of bytes, extended by zeroes. -/
structure Extent where
  size : ℕ
  bytes : ℕ → Fin 256

/-- The sizes and bytes a caller sees. -/
def extents (st : Arena n) (r : Fin n) : Extent := ⟨(st.regions r).size, st.content r⟩

theorem sum_chunks_update (regions : Fin n → Region) (r : Fin n) (region : Region) :
    ∑ s, (Function.update regions r region s).chunks.length + (regions r).chunks.length =
      ∑ s, (regions s).chunks.length + region.chunks.length := by
  rw [Fintype.sum_eq_add_sum_compl r, Fintype.sum_eq_add_sum_compl r fun s =>
    (regions s).chunks.length,
    Function.update_self]
  have hrest : ∑ s ∈ {r}ᶜ, (Function.update regions r region s).chunks.length =
      ∑ s ∈ {r}ᶜ, (regions s).chunks.length := by
    refine Finset.sum_congr rfl fun s hs => ?_
    rw [Finset.mem_compl, Finset.mem_singleton] at hs
    rw [Function.update_of_ne hs]
  omega

/-- What a call owes: one region is replaced, by chunks that no other region has and that are not
free. -/
structure Replaces (r : Fin n) (region : Region) (st t : Arena n) : Prop where
  config : t.config = st.config
  regions : t.regions = Function.update st.regions r region
  ready : t.Ready
  pool : t.pool.Sound
  total : t.pool.chunksTotal = st.pool.chunksTotal
  others : ∀ s, s ≠ r → ∀ chunk ∈ (st.regions s).chunks, t.pool.isFree chunk = false
  owned : ∀ chunk ∈ region.chunks, chunk < st.pool.chunksTotal ∧ t.pool.isFree chunk = false
  nodup : region.chunks.Nodup
  apart : ∀ s, s ≠ r → ∀ chunk ∈ region.chunks, chunk ∉ (st.regions s).chunks
  count : t.pool.chunksFree + region.chunks.length
    = st.pool.chunksFree + (st.regions r).chunks.length
  sized : region.chunks.length = ceilChunks region.size
  file : ∀ s, s ≠ r → ∀ i, i / chunkBytes ∈ (st.regions s).chunks → t.file i = st.file i
  zero : ∀ i, region.size ≤ i → contentOf t.file region.chunks i = 0

/-- A replaced region is all a caller sees change. -/
theorem Sound.step {region : Region} (hs : st.Sound) (h : Replaces r region st t) :
    t.Sound ∧ t.extents = Function.update st.extents r ⟨region.size,
      contentOf t.file region.chunks⟩ := by
  have hself : t.regions r = region := by rw [h.regions, Function.update_self]
  have hother : ∀ s, s ≠ r → t.regions s = st.regions s := by
    intro s hsr
    rw [h.regions, Function.update_of_ne hsr]
  have hcontent : ∀ s, s ≠ r → t.content s = st.content s := by
    intro s hsr
    unfold content
    rw [hother s hsr]
    exact contentOf_congr (h.file s hsr)
  refine ⟨⟨h.ready, ?_, h.pool, fun s => ?_, fun s => ?_, fun s q hsq => ?_, ?_, fun s => ?_,
    fun s i hi => ?_⟩, ?_⟩
  · rw [h.config]
    exact hs.capped
  · by_cases hsr : s = r
    · rw [hsr, hself, h.total]
      exact h.owned
    · rw [hother s hsr, h.total]
      exact fun chunk hmem => ⟨(hs.owned s chunk hmem).1, h.others s hsr chunk hmem⟩
  · by_cases hsr : s = r
    · rw [hsr, hself]
      exact h.nodup
    · rw [hother s hsr]
      exact hs.nodup s
  · by_cases hsr : s = r
    · have hqr : q ≠ r := fun hqr => hsq (hsr.trans hqr.symm)
      rw [hsr, hself, hother q hqr]
      exact h.apart q hqr
    · rw [hother s hsr]
      by_cases hqr : q = r
      · rw [hqr, hself]
        exact fun chunk hmem hin => h.apart s hsr chunk hin hmem
      · rw [hother q hqr]
        exact hs.apart s q hsq
  · have hsum := sum_chunks_update st.regions r region
    have htotal := hs.total
    have hcount := h.count
    rw [h.regions, h.total]
    omega
  · by_cases hsr : s = r
    · rw [hsr, hself]
      exact h.sized
    · rw [hother s hsr]
      exact hs.sized s
  · by_cases hsr : s = r
    · rw [hsr] at hi ⊢
      rw [hself] at hi
      rw [content, hself]
      exact h.zero i hi
    · rw [hcontent s hsr]
      rw [hother s hsr] at hi
      exact hs.zero s i hi
  · funext s
    by_cases hsr : s = r
    · rw [hsr, Function.update_self, extents, content, hself]
    · rw [Function.update_of_ne hsr, extents, extents, hcontent s hsr, hother s hsr]

theorem extents_update_self (st : Arena n) (r : Fin n) :
    Function.update st.extents r ⟨(st.regions r).size, st.content r⟩ = st.extents :=
      Function.update_eq_self ..

theorem Sound.replaces_self (hs : st.Sound) (r : Fin n) : Replaces r (st.regions r) st st where
  config := rfl
  regions := (Function.update_eq_self ..).symm
  ready := hs.ready
  pool := hs.pool
  total := rfl
  others s _ chunk hmem := (hs.owned s chunk hmem).2
  owned := hs.owned r
  nodup := hs.nodup r
  apart s hsr := hs.apart r s (Ne.symm hsr)
  count := rfl
  sized := hs.sized r
  file _ _ _ _ := rfl
  zero := hs.zero r

/-! ## Growth -/

/-- New chunks hold zeroes, so nothing is seen to change. -/
theorem Grown.replaces {chunks : List ℕ} {bytes : ℕ} (hs : st.Sound) (h : Grown r chunks st t)
    (hbytes : (st.regions r).size ≤ bytes)
    (hlength : ((st.regions r).chunks ++ chunks).length = ceilChunks bytes) :
    Replaces r { st.regions r with chunks := (st.regions r).chunks ++ chunks, size := bytes } st
        (t.withSize r bytes) ∧
      contentOf t.file ((st.regions r).chunks ++ chunks) = st.content r := by
  have hcontent : contentOf t.file ((st.regions r).chunks ++ chunks) = st.content r := by
    rw [contentOf_append h.zeroed]
    refine contentOf_congr fun i hi => h.file i (hs.owned r _ hi).2
  have hfresh : ∀ s, ∀ chunk ∈ chunks, chunk ∉ (st.regions s).chunks := by
    intro s chunk hmem hin
    have htaken := h.taken chunk hmem
    rw [(hs.owned s chunk hin).2] at htaken
    cases htaken
  refine ⟨⟨h.config, ?_, ?_, h.pool, h.total, fun s _ chunk hmem => ?_, fun chunk hmem => ?_, ?_,
    fun s hsr chunk hmem => ?_, ?_, hlength, fun s _ i hi => h.file i (hs.owned s _ hi).2,
      fun i hi => ?_⟩, hcontent⟩
  · rw [withSize, withRegion]
    dsimp only
    rw [h.regions, withChunks, withRegion]
    dsimp only
    rw [Function.update_self, Function.update_idem]
  · exact ⟨h.ready.windowBytes_pos, h.ready.slots_pos, h.ready.maps⟩
  · change t.pool.isFree chunk = false
    rw [h.free, (hs.owned s chunk hmem).2, Bool.and_false]
  · change chunk < _ ∧ t.pool.isFree chunk = false
    rw [h.free]
    rcases List.mem_append.mp hmem with hmem | hmem
    · rw [(hs.owned r chunk hmem).2, Bool.and_false]
      exact ⟨(hs.owned r chunk hmem).1, rfl⟩
    · rw [decide_eq_true hmem]
      exact ⟨hs.pool.within chunk (h.taken chunk hmem), rfl⟩
  · refine List.nodup_append.mpr ⟨hs.nodup r, h.nodup, fun a ha b hb hab => ?_⟩
    subst hab
    exact hfresh r a hb ha
  · rcases List.mem_append.mp hmem with hmem | hmem
    · exact hs.apart r s (Ne.symm hsr) chunk hmem
    · exact hfresh s chunk hmem
  · have hcount := h.count
    change t.pool.chunksFree + ((st.regions r).chunks ++ chunks).length = _
    rw [List.length_append]
    omega
  · change contentOf t.file ((st.regions r).chunks ++ chunks) i = 0
    rw [hcontent]
    exact hs.zero r i (le_trans hbytes hi)

/-- No region changed and no chunk was taken. -/
structure Untouched (st t : Arena n) : Prop where
  config : t.config = st.config
  sound : t.Sound
  extents : t.extents = st.extents
  regions : ∀ s, (t.regions s).chunks = (st.regions s).chunks ∧ (t.regions s).maxBytes
    = (st.regions s).maxBytes ∧
    (t.regions s).store = (st.regions s).store
  free : ∀ chunk, t.pool.isFree chunk = st.pool.isFree chunk
  count : t.pool.chunksFree = st.pool.chunksFree

theorem Untouched.refl (hs : st.Sound) : Untouched st st :=
  ⟨rfl, hs, rfl, fun _ => ⟨rfl, rfl, rfl⟩, fun _ => rfl, rfl⟩

theorem Untouched.trans (h : Untouched st t) (h' : Untouched t u) : Untouched st u where
  config := h'.config.trans h.config
  sound := h'.sound
  extents := h'.extents.trans h.extents
  regions s := ⟨(h'.regions s).1.trans (h.regions s).1, (h'.regions s).2.1.trans (h.regions s).2.1,
    (h'.regions s).2.2.trans (h.regions s).2.2⟩
  free chunk := (h'.free chunk).trans (h.free chunk)
  count := h'.count.trans h.count

theorem Grown.untouched (hs : st.Sound) (h : Grown r [] st t) : Untouched st t := by
  have hregions : t.regions = st.regions := h.regions.trans (withChunks_append_nil st r)
  have hsized : ((st.regions r).chunks ++ []).length = ceilChunks (st.regions r).size := by
    rw [List.append_nil]
    exact hs.sized r
  obtain ⟨hreplaces, hcontent⟩ := h.replaces hs (Nat.le_refl _) hsized
  have hsame : t.withSize r (st.regions r).size = t := by
    rw [withSize, withRegion, ← hregions, Function.update_eq_self]
  rw [hsame] at hreplaces
  obtain ⟨hsound, hextents⟩ := hs.step hreplaces
  refine ⟨h.config, hsound, ?_, fun s => ?_, fun chunk => ?_, ?_⟩
  · rw [hextents]
    change Function.update st.extents r ⟨(st.regions r).size,
      contentOf t.file ((st.regions r).chunks ++ [])⟩ = _
    rw [hcontent, extents_update_self]
  · rw [hregions]
    exact ⟨rfl, rfl, rfl⟩
  · rw [h.free]
    simp
  · exact h.count

theorem Reserved.untouched (hs : st.Sound) (h : Reserved r st t) : Untouched st t := by
  obtain ⟨hready, capacity, maps, rfl⟩ := h
  have hself := hs.replaces_self r
  have hreplaces : Replaces r { st.regions r with capacity := capacity } st
      ((st.withCapacity r capacity).withMaps maps) :=
    ⟨rfl, rfl, hready, hself.pool, rfl, hself.others, hself.owned, hself.nodup, hself.apart,
      rfl, hself.sized,
      hself.file, hself.zero⟩
  obtain ⟨hsound, hextents⟩ := hs.step hreplaces
  refine ⟨rfl, hsound, hextents.trans (extents_update_self st r), fun s => ?_, fun _ => rfl, rfl⟩
  by_cases hsr : s = r
  · subst hsr
    rw [withMaps_regions, withCapacity, withRegion_self]
    exact ⟨rfl, rfl, rfl⟩
  · rw [withMaps_regions, withCapacity, withRegion_of_ne _ hsr]
    exact ⟨rfl, rfl, rfl⟩

/-- The call left one extent with this size and these bytes, and the others as they were. -/
structure Changed (r : Fin n) (size : ℕ) (bytes : ℕ → Fin 256) (st t : Arena n) : Prop where
  config : t.config = st.config
  sound : t.Sound
  extents : t.extents = Function.update st.extents r ⟨size, bytes⟩

theorem ceilChunks_mono {a b : ℕ} (h : a ≤ b) : ceilChunks a ≤ ceilChunks b := by
  unfold ceilChunks
  simp only [chunkBytes_eq]
  split <;> split <;> omega

theorem refuse_ends (st : Arena n) (region : Region) (bytes target needed : ℕ) :
    Ends (refuse st region bytes target needed) st (fun _ t => t = st) (fun _ t => t = st) := by
  unfold refuse
  by_cases hneeded : needed ≠ 0
  · rw [if_pos hneeded]
    exact failIf_ends (fun _ => rfl) fun _ => rfl
  · rw [if_neg hneeded]
    exact failIf_ends (fun _ => rfl) fun _ => rfl

/-- Growth succeeds or changes nothing. -/
theorem growTo_ends (hs : st.Sound) {bytes : ℕ} (hbytes : (st.regions r).size ≤ bytes)
    (needed : ℕ) :
    Ends (growTo r bytes needed) st (fun _ t => Changed r bytes (st.content r) st t)
      (fun _ t => Untouched st t) := by
  unfold growTo
  refine Ends.get_bind ?_
  dsimp only
  refine Ends.bind ((refuse_ends st _ _ _ _).mono (fun _ _ ht => ht) fun _ t ht => ?_) fun _ t ht =>
    ?_
  · rw [ht]
    exact Untouched.refl hs
  subst ht
  refine Ends.bind (P := fun _ u => u = t)
    (failIf_ends (fun _ => rfl) fun _ => Untouched.refl hs) fun _ u hu => ?_
  subst hu
  refine Ends.bind ((reserveTable_ends hs.ready r _).mono (fun _ _ ht => ht) fun _ t ht =>
    ht.untouched hs)
    fun _ t ht => ?_
  have hkept := ht.untouched hs
  have hlength : (t.regions r).chunks.length = (u.regions r).chunks.length := by
    rw [(hkept.regions r).1]
  rw [← hlength]
  refine Ends.bind (onThrow_ends (extend_ends _ hkept.sound.ready hkept.sound.pool) ?_) ?_
  · rintro failure v ⟨chunks, hgrown⟩
    exact (dropTo_ends hkept.sound.pool hgrown).mono
      (fun _ w hw => hkept.trans (hw.untouched hkept.sound)) fun _ _ hfalse => hfalse
  · rintro _ v ⟨chunks, hchunks, hgrown⟩
    have hextent : t.extents r = u.extents r := by rw [hkept.extents]
    have hsize : (t.regions r).size = (u.regions r).size := congrArg Extent.size hextent
    have hle : (t.regions r).size ≤ bytes := hsize ▸ hbytes
    have htotal : ((t.regions r).chunks ++ chunks).length = ceilChunks bytes := by
      rw [List.length_append, hchunks, Nat.add_sub_cancel']
      rw [hkept.sound.sized r]
      exact ceilChunks_mono hle
    obtain ⟨hreplaces, hcontent⟩ := hgrown.replaces hkept.sound hle htotal
    obtain ⟨hsound, hextents⟩ := hkept.sound.step hreplaces
    refine Ends.modify ⟨hreplaces.config.trans hkept.config, hsound, ?_⟩
    rw [hextents, hkept.extents]
    change Function.update u.extents r ⟨bytes, contentOf v.file ((t.regions r).chunks ++ chunks)⟩
      = _
    rw [hcontent, show t.content r = u.content r from congrArg Extent.bytes hextent]

theorem grow_ends (hs : st.Sound) (r : Fin n) (bytes needed : ℕ) :
    Ends (grow r bytes needed) st
      (fun _ t => Changed r (max (st.regions r).size bytes) (st.content r) st t)
      (fun _ t => Untouched st t) := by
  unfold grow
  refine Ends.get_bind ?_
  by_cases hle : bytes ≤ (st.regions r).size
  · rw [if_pos hle, Nat.max_eq_left hle]
    exact Ends.pure ⟨rfl, hs, (extents_update_self st r).symm⟩
  · rw [if_neg hle, Nat.max_eq_right (by omega)]
    exact growTo_ends hs (by omega) needed

end PineForge.Arena
