import Mathlib
import PineForge.Arena.Extents

/-!
# What each call does to the extents

A write puts its data, a truncation cuts, a released head shifts, and a read returns a window of the
bytes. A write or truncation that fails on a window leaves a beginning of its own bytes.
-/

namespace PineForge.Arena

variable {n : ℕ} {st t u : Arena n} {r : Fin n}

/-! ## Writes -/

/-- The data stands in the region at its logical place; nothing else but the windows changed. -/
structure Wrote (r : Fin n) (logical : ℕ) (data : Bytes) (st t : Arena n) : Prop where
  config : t.config = st.config
  regions : t.regions = st.regions
  pool : t.pool = st.pool
  ready : t.Ready
  file : ∀ i, i / chunkBytes ∉ (st.regions r).chunks → t.file i = st.file i
  content : t.content r = PineForge.Window.put (st.content r) logical data

theorem Wrote.withMaps (r : Fin n) (logical : ℕ) {maps : Maps} (hready : (st.withMaps maps).Ready) :
    Wrote r logical [] st (st.withMaps maps) := by
  refine ⟨rfl, rfl, rfl, hready, fun _ _ => rfl, ?_⟩
  rw [PineForge.Window.put_nil]
  rfl

theorem Wrote.append {logical : ℕ} {data data' : Bytes} (h : Wrote r logical data st t)
    (h' : Wrote r (logical + data.length) data' t u) : Wrote r logical (data ++ data') st u := by
  refine ⟨h'.config.trans h.config, h'.regions.trans h.regions, h'.pool.trans h.pool, h'.ready,
    fun i hi => ?_, ?_⟩
  · have hkept : i / chunkBytes ∉ (t.regions r).chunks := by
      rw [h.regions]
      exact hi
    exact (h'.file i hkept).trans (h.file i hi)
  · rw [h'.content, h.content, PineForge.Window.put_append]

theorem wrote_stored {maps : Maps} (hready : (st.withMaps maps).Ready)
    (hnodup : (st.regions r).chunks.Nodup)
    {logical chunk : ℕ} (hchunk : (st.regions r).chunks[logical / chunkBytes]? = some chunk)
    {data : Bytes}
    (hin : logical % chunkBytes + data.length ≤ chunkBytes) :
    Wrote r logical data st
      ((st.withMaps maps).stored (chunk * chunkBytes + logical % chunkBytes) data) := by
  have hmem : chunk ∈ {c | c ∈ (st.regions r).chunks} := List.mem_of_getElem? hchunk
  have hframe := frame_stored (st.withMaps maps) hmem hin
  refine ⟨hframe.config, hframe.regions, ?_, hready.stored _ _, fun i hi => hframe.file i hi, ?_⟩
  · rw [stored_pool, withMaps_pool]
  · have hput : contentOf (PineForge.Window.put st.file
      (chunk * chunkBytes + logical % chunkBytes) data)
        (st.regions r).chunks = _ := contentOf_put hnodup hchunk hin
    rw [show logical / chunkBytes * chunkBytes + logical % chunkBytes
      = logical from Nat.div_add_mod' ..] at hput
    unfold content
    rw [stored_regions, stored_file, withMaps_regions, withMaps_file]
    exact hput

/-- A failed write leaves a beginning of its data. -/
theorem writeFrom_ends {logical : ℕ} {data : Bytes} {st : Arena n} (hready : st.Ready)
    (hnodup : (st.regions r).chunks.Nodup)
    (hroom : logical + data.length ≤ (st.regions r).chunks.length * chunkBytes) :
    Ends (writeFrom r logical data) st (fun _ t => Wrote r logical data st t)
      (fun _ t => ∃ count ≤ data.length, Wrote r logical (data.take count) st t) := by
  induction hlength : data.length using Nat.strong_induction_on generalizing logical data st with
  | _ length ih =>
    rw [writeFrom]
    by_cases hnil : data = []
    · rw [dif_pos hnil, hnil]
      exact Ends.pure (Wrote.withMaps r logical hready)
    rw [dif_neg hnil]
    have hpos : 0 < data.length := List.length_pos_of_ne_nil hnil
    refine Ends.get_bind ?_
    have hlt : logical / chunkBytes < (st.regions r).chunks.length :=
      (Nat.div_lt_iff_lt_mul chunkBytes_pos).mpr (by omega)
    have hchunk := List.getElem?_eq_getElem hlt
    rw [hchunk]
    dsimp only
    generalize (st.regions r).chunks[logical / chunkBytes] = chunk at hchunk ⊢
    refine Ends.bind ((mapped_ends hready _).mono (fun _ _ ht => ht) ?_) ?_
    · rintro failure t ⟨⟨maps, rfl⟩, hready'⟩
      exact ⟨0, Nat.zero_le _, Wrote.withMaps r logical hready'⟩
    rintro window t ⟨⟨maps, rfl⟩, hready', hvalid, hcovers⟩
    obtain ⟨hoffset, hinside, hin⟩ := inside_spec hvalid hcovers
    rw [hoffset]
    have hmod : (chunk * chunkBytes + logical % chunkBytes) % chunkBytes = logical % chunkBytes :=
      Nat.mul_add_mod_of_lt (Nat.mod_lt _ chunkBytes_pos)
    rw [hmod] at hin
    generalize hcount : min data.length
      (window.length - (chunk * chunkBytes + logical % chunkBytes - window.offset)) = count
    have hcountPos : 0 < count := by omega
    have hcountLe : count ≤ data.length := by omega
    have htake : (data.take count).length = count := by
      rw [List.length_take, Nat.min_eq_left hcountLe]
    have hone : Wrote r logical (data.take count) st
        ((st.withMaps maps).stored (chunk * chunkBytes + logical % chunkBytes) (data.take count)) :=
      wrote_stored hready' hnodup hchunk (by rw [htake]; omega)
    refine Ends.bind (P := fun _ t => Wrote r logical (data.take count) st t)
      (Ends.modify hone) fun _ t ht => ?_
    rw [dif_pos hcountPos]
    have hrest : Ends (writeFrom r (logical + count) (data.drop count)) t _ _ :=
      ih (data.drop count).length (by rw [List.length_drop]; omega) ht.ready
        (by rw [ht.regions]; exact hnodup) (by rw [ht.regions, List.length_drop]; omega) rfl
    refine hrest.mono (fun _ u hu => ?_) ?_
    · have happend := ht.append (by rw [htake]; exact hu)
      rwa [List.take_append_drop] at happend
    · rintro _ u ⟨more, hmore, hu⟩
      rw [List.length_drop] at hmore
      refine ⟨count + more, by omega, ?_⟩
      have happend := ht.append (by rw [htake]; exact hu)
      rwa [← List.take_add] at happend

theorem length_mul_chunkBytes (hs : st.Sound) (r : Fin n) :
    (st.regions r).size ≤ (st.regions r).chunks.length * chunkBytes := by
  rw [hs.sized r, ceilChunks]
  simp only [chunkBytes_eq]
  split <;> omega

theorem Wrote.changed {logical : ℕ} {data : Bytes} (hs : st.Sound) (h : Wrote r logical data st t)
    (hzero : ∀ i, (st.regions r).size ≤ i → PineForge.Window.put (st.content r) logical data i
      = 0) :
    Changed r (st.regions r).size (PineForge.Window.put (st.content r) logical data) st t := by
  have hself := hs.replaces_self r
  have hregion : t.regions r = st.regions r := by rw [h.regions]
  have hcontent : contentOf t.file (st.regions r).chunks
      = PineForge.Window.put (st.content r) logical data := by
    rw [← h.content, Arena.content, hregion]
  have hreplaces : Replaces r (st.regions r) st t := by
    refine ⟨h.config, h.regions.trans hself.regions, h.ready, ?_, ?_, fun s hsr => ?_, ?_,
      hself.nodup, hself.apart, ?_,
      hself.sized, fun s hsr i hi => ?_, fun i hi => ?_⟩
    · rw [h.pool]
      exact hs.pool
    · rw [h.pool]
    · rw [h.pool]
      exact hself.others s hsr
    · rw [h.pool]
      exact hself.owned
    · rw [h.pool]
    · exact h.file i fun hmem => hs.apart r s (Ne.symm hsr) _ hmem hi
    · rw [hcontent]
      exact hzero i hi
  obtain ⟨hsound, hextents⟩ := hs.step hreplaces
  refine ⟨h.config, hsound, ?_⟩
  rw [hextents, hcontent]

theorem put_beyond (hs : st.Sound) {logical : ℕ} {data : Bytes}
    (hin : logical + data.length ≤ (st.regions r).size)
    (i : ℕ) (hi : (st.regions r).size ≤ i) :
    PineForge.Window.put (st.content r) logical data i = 0 := by
  rw [PineForge.Window.put_outside _ (by omega)]
  exact hs.zero r i hi

theorem Changed.trans {size size' : ℕ} {bytes bytes' : ℕ → Fin 256} (h : Changed r size bytes st t)
    (h' : Changed r size' bytes' t u) : Changed r size' bytes' st u := by
  refine ⟨h'.config.trans h.config, h'.sound, ?_⟩
  rw [h'.extents, h.extents, Function.update_idem]

theorem Changed.extent {size : ℕ} {bytes : ℕ → Fin 256} (h : Changed r size bytes st t) :
    (t.regions r).size = size ∧ t.content r = bytes := by
  have hextent : t.extents r = ⟨size, bytes⟩ := by rw [h.extents, Function.update_self]
  exact ⟨congrArg Extent.size hextent, congrArg Extent.bytes hextent⟩

/-- A write that fails before it stores leaves everything; later it leaves a beginning of its
data. -/
theorem write_ends (hs : st.Sound) (r : Fin n) {offset : ℕ} {data : Bytes} (hnil : data ≠ [])
    (hfits : offset + data.length < 2 ^ 64) :
    Ends (write r offset (.bytes data)) st
      (fun _ t => Changed r (max (st.regions r).size (offset + data.length))
        (PineForge.Window.put (st.content r) offset data) st t)
      (fun _ t => Untouched st t ∨
        ∃ count ≤ data.length, Changed r (max (st.regions r).size (offset + data.length))
        (PineForge.Window.put (st.content r) offset (data.take count)) st t) := by
  have hpos : 0 < data.length := List.length_pos_of_ne_nil hnil
  unfold write
  rw [if_neg (show ¬ (Source.bytes data).length = 0 by exact Nat.pos_iff_ne_zero.mp hpos)]
  dsimp only
  rw [Nat.mod_eq_of_lt hfits]
  refine Ends.bind ((grow_ends hs r _ 0).mono (fun _ _ ht => ht) fun _ _ ht =>
    .inl ht) fun _ t ht => ?_
  obtain ⟨hsize, hcontent⟩ := ht.extent
  have hroom : offset + data.length ≤ (t.regions r).size := by
    rw [hsize]
    exact Nat.le_max_right ..
  refine (writeFrom_ends ht.sound.ready (ht.sound.nodup r)
    (le_trans hroom (length_mul_chunkBytes ht.sound r))).mono (fun _ u hu => ?_) ?_
  · have hchanged := hu.changed ht.sound (put_beyond ht.sound hroom)
    rw [hsize, hcontent] at hchanged
    exact ht.trans hchanged
  · rintro _ u ⟨count, hcount, hu⟩
    have hchanged := hu.changed ht.sound (put_beyond ht.sound (by rw [List.length_take]; omega))
    rw [hsize, hcontent] at hchanged
    exact .inr ⟨count, hcount, ht.trans hchanged⟩

/-! ## Reads -/

/-- No call to come fails. -/
def Quiet (maps : Maps) : Prop := ∀ outcome ∈ maps.io, outcome = .ok ∨ outcome.interrupted = true

/-- Only windows and calls changed, and a quiet arena stays quiet. -/
def Looked (st t : Arena n) : Prop :=
  ∃ maps, t = st.withMaps maps ∧ t.Ready ∧ (Quiet st.maps → Quiet maps)

theorem Looked.refl (h : st.Ready) : Looked st st := ⟨st.maps, rfl, h, fun hq => hq⟩

theorem Looked.trans (h : Looked st t) (h' : Looked t u) : Looked st u := by
  obtain ⟨maps, rfl, -, hq⟩ := h
  obtain ⟨maps', rfl, hready, hq'⟩ := h'
  exact ⟨maps', rfl, hready, fun hquiet => hq' (hq hquiet)⟩

theorem Looked.content (h : Looked st t) (r : Fin n) : t.content r = st.content r := by
  obtain ⟨maps, rfl, -, -⟩ := h
  rfl

theorem Looked.regions (h : Looked st t) : t.regions = st.regions := by
  obtain ⟨maps, rfl, -, -⟩ := h
  rfl

theorem Looked.file (h : Looked st t) : t.file = st.file := by
  obtain ⟨maps, rfl, -, -⟩ := h
  rfl

theorem Looked.untouched (hs : st.Sound) (h : Looked st t) : Untouched st t := by
  obtain ⟨maps, rfl, hready, -⟩ := h
  exact ⟨rfl, ⟨hready, hs.capped, hs.pool, hs.owned, hs.nodup, hs.apart, hs.total, hs.sized,
    hs.zero⟩, rfl,
    fun _ => ⟨rfl, rfl, rfl⟩, fun _ => rfl, rfl⟩

theorem callRetried_ends (h : st.Ready) {F : Failure → Arena n → Prop} :
    Ends (onMaps Maps.callRetried) st
      (fun outcome t => Looked st t ∧ (Quiet st.maps → outcome = .ok)) F := by
  refine .inl ⟨_, _, rfl, ⟨_, rfl, ?_, fun hquiet outcome hmem => ?_⟩, fun hquiet => ?_⟩
  · exact h.withMaps (h.maps.withIo _)
  · exact hquiet outcome ((List.dropWhile_sublist _).subset (List.mem_of_mem_tail hmem))
  · cases hio : st.maps.io.dropWhile Outcome.interrupted with
    | nil => simp
    | cons outcome rest =>
      have hmem : outcome ∈ st.maps.io :=
        (List.dropWhile_sublist _).subset (hio ▸ List.mem_cons_self)
      have hnot : outcome.interrupted = false := by
        have hhead := List.head_dropWhile_not Outcome.interrupted (show st.maps.io.dropWhile _
          ≠ [] by simp [hio])
        simpa [hio] using hhead
      rcases hquiet outcome hmem with hok | hinterrupted
      · simp [hok]
      · rw [hnot] at hinterrupted
        cases hinterrupted

/-- A read of the file changes only windows. -/
theorem pread_ends (h : st.Ready) (physical count : ℕ) :
    Ends (pread physical count) st
      (fun bytes t => Looked st t ∧ bytes = PineForge.Window.window st.file physical count)
      (fun _ t => Looked st t ∧ ¬ Quiet st.maps) := by
  unfold pread
  refine Ends.bind (callRetried_ends h) ?_
  rintro outcome t ⟨hlooked, hquiet⟩
  refine Ends.get_bind ?_
  have hready : t.Ready := by
    obtain ⟨maps, rfl, hready, -⟩ := hlooked
    exact hready
  rw [hlooked.file]
  cases outcome with
  | ok => exact Ends.pure ⟨hlooked, rfl⟩
  | fails errno punched =>
    refine Ends.throw ⟨hlooked, fun hq => ?_⟩
    cases hquiet hq
  | short received =>
    have hnot : ¬ Quiet st.maps := fun hq => by cases hquiet hq
    by_cases hshort : received < count
    · dsimp only
      rw [if_pos hshort]
      have hlater : ∀ maps : Maps, maps.Sound t.config.windowBytes t.config.slots →
          Looked st (t.withMaps maps) := by
        obtain ⟨before, rfl, -, -⟩ := hlooked
        exact fun maps hmaps => ⟨maps, rfl, hready.withMaps hmaps, fun hq => (hnot hq).elim⟩
      refine Ends.bind (P := fun _ u => Looked st u) ?_ fun _ u hu => Ends.throw ⟨hu, hnot⟩
      refine (onMaps_ends (Maps.validateBackingSize_ends hready.maps _)).mono ?_ ?_
      · rintro _ u ⟨maps, rfl, hmaps, -⟩
        exact hlater maps hmaps
      · rintro _ u ⟨maps, rfl, hmaps⟩
        exact ⟨hlater maps hmaps, hnot⟩
    · dsimp only
      rw [if_neg hshort]
      exact Ends.pure ⟨hlooked, rfl⟩

/-- The bytes of one chunk of the file are the region's bytes at their logical places. -/
theorem window_content {logical chunk count : ℕ}
    (hchunk : (st.regions r).chunks[logical / chunkBytes]? = some chunk)
    (hcount : logical % chunkBytes + count ≤ chunkBytes) :
    PineForge.Window.window st.file (chunk * chunkBytes + logical % chunkBytes) count =
      PineForge.Window.window (st.content r) logical count := by
  refine PineForge.Window.window_shift fun i hi => ?_
  have hdiv : (logical + i) / chunkBytes = logical / chunkBytes := by
    simp only [chunkBytes_eq] at *
    omega
  have hmod : (logical + i) % chunkBytes = logical % chunkBytes + i := by
    simp only [chunkBytes_eq] at *
    omega
  have hplace : (st.regions r).chunks[(logical + i) / chunkBytes]? = some chunk := by
    rw [hdiv]
    exact hchunk
  rw [Arena.content, contentOf_some hplace, hmod, Nat.add_assoc]

/-- A read goes through the region's chunks. -/
theorem readFrom_ends {logical remaining : ℕ} {st : Arena n} (hready : st.Ready)
    (hroom : logical + remaining ≤ (st.regions r).chunks.length * chunkBytes) :
    Ends (readFrom r logical remaining) st
      (fun bytes t => Looked st t ∧
        bytes = PineForge.Window.window (st.content r) logical remaining)
      (fun _ t => Looked st t ∧ ¬ Quiet st.maps) := by
  induction remaining using Nat.strong_induction_on generalizing logical st with
  | _ remaining ih =>
    rw [readFrom]
    by_cases hzero : remaining = 0
    · rw [dif_pos hzero, hzero]
      exact Ends.pure ⟨Looked.refl hready, rfl⟩
    rw [dif_neg hzero]
    refine Ends.get_bind ?_
    have hlt : logical / chunkBytes < (st.regions r).chunks.length :=
      (Nat.div_lt_iff_lt_mul chunkBytes_pos).mpr (by omega)
    have hchunk := List.getElem?_eq_getElem hlt
    rw [hchunk]
    dsimp only
    generalize (st.regions r).chunks[logical / chunkBytes] = chunk at hchunk ⊢
    have hmod : logical % chunkBytes < chunkBytes := Nat.mod_lt _ chunkBytes_pos
    generalize hcount : min remaining (chunkBytes - logical % chunkBytes) = count
    refine Ends.bind (pread_ends hready _ _) ?_
    rintro received t ⟨hlooked, hreceived⟩
    have hready' : t.Ready := by
      obtain ⟨maps, rfl, hready', -⟩ := hlooked
      exact hready'
    have hrest : Ends (readFrom r (logical + count) (remaining - count)) t _ _ :=
      ih (remaining - count) (by omega) hready'
      (by rw [hlooked.regions]; omega)
    refine Ends.bind (hrest.mono (fun _ _ hu => hu) ?_) ?_
    · rintro _ u ⟨hu, hnot⟩
      refine ⟨hlooked.trans hu, fun hq => hnot ?_⟩
      obtain ⟨maps, rfl, -, hquiet⟩ := hlooked
      exact hquiet hq
    · rintro rest u ⟨hu, hbytes⟩
      refine Ends.pure ⟨hlooked.trans hu, ?_⟩
      rw [hreceived, hbytes, hlooked.content, window_content hchunk (by omega),
        ← PineForge.Window.window_append,
        Nat.add_sub_cancel' (by omega)]

/-- A read of a destination: past the size it is refused, else it returns the bytes or a call
failed. -/
theorem read_ends (hs : st.Sound) (r : Fin n) (offset : ℕ) (destination : Bool) {length : ℕ}
    (hlength : 0 < length) :
    Ends (read r offset destination length) st
      (fun bytes t => Looked st t ∧ offset + length ≤ (st.regions r).size ∧
        bytes = PineForge.Window.window (st.content r) offset length)
      (fun _ t => Looked st t ∧
        (destination = false ∨ (st.regions r).size < offset + length ∨ ¬ Quiet st.maps)) := by
  unfold read
  rw [if_neg (by omega)]
  by_cases hnull : destination = false
  · rw [if_pos hnull]
    exact Ends.throw ⟨Looked.refl hs.ready, .inl hnull⟩
  rw [if_neg hnull]
  refine Ends.get_bind ?_
  by_cases hpast : offset > (st.regions r).size ∨ length > (st.regions r).size - offset
  · rw [if_pos hpast]
    exact Ends.throw ⟨Looked.refl hs.ready, .inr (.inl (by omega))⟩
  · rw [if_neg hpast]
    have hin : offset + length ≤ (st.regions r).size := by omega
    refine (readFrom_ends hs.ready (le_trans hin (length_mul_chunkBytes hs r))).mono ?_ ?_
    · rintro bytes t ⟨hlooked, hbytes⟩
      exact ⟨hlooked, hin, hbytes⟩
    · rintro _ t ⟨hlooked, hnot⟩
      exact ⟨hlooked, .inr (.inr hnot)⟩

/-! ## Releases -/

/-- Chunks given back leave the other regions. -/
theorem replaces_of_released {region : Region} (gone : List ℕ) (hs : st.Sound)
    (hperm : (region.chunks ++ gone).Perm (st.regions r).chunks) (hconfig : t.config = st.config)
    (hregions : t.regions = Function.update st.regions r region) (hready : t.Ready)
    (hpool : t.pool = st.pool.releaseAll gone)
    (hfile : ∀ i, i / chunkBytes ∉ gone → t.file i = st.file i)
    (hsized : region.chunks.length = ceilChunks region.size)
    (hzero : ∀ i, region.size ≤ i → contentOf t.file region.chunks i = 0) :
    Replaces r region st t := by
  have hnodup : (region.chunks ++ gone).Nodup := hperm.nodup_iff.mpr (hs.nodup r)
  obtain ⟨hkept, hgone, hapart⟩ := List.nodup_append.mp hnodup
  have hmem : ∀ chunk ∈ region.chunks ++ gone, chunk ∈ (st.regions r).chunks :=
    fun chunk h => hperm.mem_iff.mp h
  obtain ⟨hsound, hfree, hcount, htotal⟩ := Pool.releaseAll_spec hs.pool hgone
    fun chunk h => hs.owned r chunk (hmem chunk (List.mem_append_right _ h))
  rw [← hpool] at hsound hfree hcount htotal
  have hother : ∀ s, s ≠ r → ∀ chunk ∈ (st.regions s).chunks, chunk ∉ gone := by
    intro s hsr chunk hin hout
    exact hs.apart r s (Ne.symm hsr) chunk (hmem chunk (List.mem_append_right _ hout)) hin
  refine ⟨hconfig, hregions, hready, hsound, htotal, fun s hsr chunk hin => ?_,
    fun chunk hin => ?_, hkept,
    fun s hsr chunk hin => ?_, ?_, hsized, fun s hsr i hin => hfile i (hother s hsr _ hin), hzero⟩
  · rw [hfree, decide_eq_false (hother s hsr chunk hin), (hs.owned s chunk hin).2]
    rfl
  · have howned := hs.owned r chunk (hmem chunk (List.mem_append_left _ hin))
    refine ⟨howned.1, ?_⟩
    rw [hfree, decide_eq_false fun hout => hapart chunk hin chunk hout rfl, howned.2]
    rfl
  · exact hs.apart r s (Ne.symm hsr) chunk (hmem chunk (List.mem_append_left _ hin))
  · have hlength := hperm.length_eq
    rw [List.length_append] at hlength
    omega

theorem ceilChunks_zero : ceilChunks 0 = 0 := by
  unfold ceilChunks
  simp

theorem releaseRegion_ends (hs : st.Sound) (r : Fin n) {F : Failure → Arena n → Prop} :
    Ends (releaseRegion r) st (fun _ t => Changed r 0 (fun _ => 0) st t) F := by
  unfold releaseRegion
  refine Ends.get_bind ?_
  refine Ends.bind (releaseChunks_ends _ hs.ready) ?_
  rintro _ t ⟨hframe, hready, hpool⟩
  have hempty : contentOf t.file [] = fun _ => 0 := by
    funext i
    exact contentOf_none (Nat.zero_le _)
  have hreplaces : Replaces r { store := (t.regions r).store } st
      ((t.withRegion r { store := (t.regions r).store }).withOpen
        ((t.openRegions + (2 ^ 64 - 1)) % 2 ^ 64)) := by
    refine replaces_of_released (st.regions r).chunks hs ?_ hframe.config ?_ ?_ hpool
      hframe.file ?_ ?_
    · rw [List.nil_append]
    · change Function.update t.regions r _ = _
      rw [hframe.regions]
    · exact ⟨hready.windowBytes_pos, hready.slots_pos, hready.maps⟩
    · exact ceilChunks_zero.symm
    · intro i _
      change contentOf t.file [] i = 0
      rw [hempty]
  obtain ⟨hsound, hextents⟩ := hs.step hreplaces
  refine Ends.modify ⟨hreplaces.config, hsound, ?_⟩
  rw [hextents]
  change Function.update st.extents r ⟨0, contentOf t.file []⟩ = _
  rw [hempty]

/-- A head is released by whole chunks, or nothing is. -/
theorem releasePrefix_ends (hs : st.Sound) (r : Fin n) (bytes : ℕ) :
    Ends (releasePrefix r bytes) st
      (fun _ t => bytes % chunkBytes = 0 ∧ bytes ≤ (st.regions r).size ∧
        Changed r ((st.regions r).size - bytes) (fun i => st.content r (bytes + i)) st t)
      (fun _ t => t = st) := by
  unfold releasePrefix
  refine Ends.get_bind ?_
  refine Ends.bind (P := fun _ t => t = st ∧ bytes % chunkBytes = 0 ∧ bytes ≤ (st.regions r).size)
    (failIf_ends (fun h => ⟨rfl, by omega, by omega⟩) fun _ => rfl) ?_
  rintro _ t ⟨rfl, hmod, hle⟩
  have hwhole : bytes / chunkBytes * chunkBytes = bytes :=
    Nat.div_mul_cancel (Nat.dvd_of_mod_eq_zero hmod)
  have hlength : bytes / chunkBytes ≤ (t.regions r).chunks.length := by
    rw [hs.sized r, ceilChunks]
    exact le_trans (Nat.div_le_div_right hle) (Nat.le_add_right ..)
  unfold releasePrefixChunks
  refine Ends.get_bind ?_
  dsimp only
  rw [failIf, if_neg (by omega)]
  refine Ends.bind (P := fun _ u => u = t) (Ends.pure rfl) fun _ u hu => ?_
  subst hu
  refine Ends.bind (releaseChunks_ends _ hs.ready) ?_
  rintro _ t ⟨hframe, hready, hpool⟩
  refine Ends.bind (P := fun _ v => v
    = t.withChunks r ((t.regions r).chunks.drop (bytes / chunkBytes)))
    (Ends.modify rfl) fun _ v hv => ?_
  subst hv
  have hcontent : contentOf t.file ((u.regions r).chunks.drop (bytes / chunkBytes)) =
      fun i => u.content r (bytes + i) := by
    have hsame : contentOf t.file ((u.regions r).chunks.drop (bytes / chunkBytes)) =
        contentOf u.file ((u.regions r).chunks.drop (bytes / chunkBytes)) := by
      refine contentOf_congr fun i hi => hframe.file i fun hmem => ?_
      have hnodup := hs.nodup r
      rw [← List.take_append_drop (bytes / chunkBytes) (u.regions r).chunks] at hnodup
      exact (List.nodup_append.mp hnodup).2.2 _ hmem _ hi rfl
    rw [hsame]
    funext i
    rw [contentOf_drop, hwhole]
    rfl
  have hreplaces : Replaces r
      { u.regions r with
        chunks := (u.regions r).chunks.drop (bytes / chunkBytes), size :=
          (u.regions r).size - bytes } u
      ((t.withChunks r ((t.regions r).chunks.drop (bytes / chunkBytes))).withSize r
        (((t.withChunks r ((t.regions r).chunks.drop (bytes / chunkBytes))).regions r).size
          - bytes)) := by
    refine replaces_of_released ((u.regions r).chunks.take (bytes / chunkBytes)) hs ?_
      hframe.config ?_ ?_ hpool
      hframe.file ?_ fun i hi => ?_
    · exact List.perm_append_comm.trans (List.Perm.of_eq (List.take_append_drop ..))
    · rw [withSize, withChunks_self, withRegion, withChunks, withRegion]
      dsimp only
      rw [Function.update_idem, hframe.regions]
    · exact ⟨hready.windowBytes_pos, hready.slots_pos, hready.maps⟩
    · change ((u.regions r).chunks.drop (bytes / chunkBytes)).length
        = ceilChunks ((u.regions r).size - bytes)
      rw [List.length_drop, hs.sized r]
      unfold ceilChunks
      simp only [chunkBytes_eq] at *
      split <;> split <;> omega
    · change contentOf t.file ((u.regions r).chunks.drop (bytes / chunkBytes)) i = 0
      rw [hcontent]
      change (u.regions r).size - bytes ≤ i at hi
      exact hs.zero r _ (by omega)
  obtain ⟨hsound, hextents⟩ := hs.step hreplaces
  refine Ends.modify ⟨hmod, hle, hreplaces.config, hsound, ?_⟩
  rw [hextents]
  change Function.update u.extents r
    ⟨(u.regions r).size - bytes, contentOf t.file ((u.regions r).chunks.drop (bytes / chunkBytes))⟩
      = _
  rw [hcontent]

/-! ## Truncation -/

theorem put_zeroes (f : ℕ → Fin 256) (offset count i : ℕ) :
    PineForge.Window.put f offset (List.replicate count 0) i =
      if offset ≤ i ∧ i < offset + count then 0 else f i := by
  by_cases h : offset ≤ i ∧ i < offset + count
  · rw [if_pos h]
    have hput : PineForge.Window.put f offset (List.replicate count 0) (offset + (i - offset))
        = 0 :=
      PineForge.Window.put_inside f (by rw [List.getElem?_replicate, if_pos (by omega)])
    rwa [Nat.add_sub_cancel' h.1] at hput
  · rw [if_neg h]
    exact PineForge.Window.put_outside f (by rw [List.length_replicate]; omega)

theorem zeroes_beyond (hs : st.Sound) (offset count i : ℕ) (hi : (st.regions r).size ≤ i) :
    PineForge.Window.put (st.content r) offset (List.replicate count 0) i = 0 := by
  rw [put_zeroes]
  split
  · rfl
  · exact hs.zero r i hi

theorem Ready.of_stored {offset : ℕ} {data : Bytes} {maps : Maps}
    (h : ((st.stored offset data).withMaps maps).Ready) : (st.withMaps maps).Ready :=
  ⟨h.windowBytes_pos, h.slots_pos, h.maps⟩

theorem Zeroed.wrote {bytes chunk count : ℕ} (hnodup : (st.regions r).chunks.Nodup)
    (hchunk : (st.regions r).chunks[bytes / chunkBytes]? = some chunk)
    (hin : bytes % chunkBytes + count ≤ chunkBytes)
    (h : Zeroed (chunk * chunkBytes + bytes % chunkBytes) count st t) :
    Wrote r bytes (List.replicate count 0) st t := by
  obtain ⟨hready, maps, rfl⟩ := h
  rw [← withMaps_stored]
  exact wrote_stored (Ready.of_stored hready) hnodup hchunk (by rwa [List.length_replicate])

theorem clearKept_ends (hs : st.Sound) {bytes : ℕ} (hless : bytes < (st.regions r).size)
    (hmod : bytes % chunkBytes ≠ 0) :
    Ends (clearKept r bytes) st
      (fun _ t => Wrote r bytes (List.replicate (chunkBytes - bytes % chunkBytes) 0) st t)
      (fun _ t => ∃ count, Wrote r bytes (List.replicate count 0) st t) := by
  have hindex : ceilChunks bytes - 1 = bytes / chunkBytes := by
    rw [ceilChunks, if_pos hmod, Nat.add_sub_cancel]
  have hlt : bytes / chunkBytes < (st.regions r).chunks.length :=
    (Nat.div_lt_iff_lt_mul chunkBytes_pos).mpr (lt_of_lt_of_le hless (length_mul_chunkBytes hs r))
  have hchunk := List.getElem?_eq_getElem hlt
  have hplace : bytes % chunkBytes ≤ chunkBytes := Nat.le_of_lt (Nat.mod_lt _ chunkBytes_pos)
  unfold clearKept
  refine Ends.get_bind ?_
  rw [hindex, hchunk]
  refine Ends.mono (zeroTail_ends _ hplace hs.ready) (fun _ t ht => ?_) ?_
  · exact ht.wrote (hs.nodup r) hchunk (by omega)
  · rintro _ t ⟨count, hcount, ht⟩
    exact ⟨count, ht.wrote (hs.nodup r) hchunk (by omega)⟩

/-- The bytes below a size, and zero from there on. -/
def cut (bytes : ℕ → Fin 256) (size : ℕ) : ℕ → Fin 256 := fun i => if i < size then bytes i else 0

/-- The zeroes up to the end of the kept chunk, and the chunks after it gone. -/
theorem cut_eq (f : ℕ → Fin 256) (bytes : ℕ) {zeroes : ℕ}
    (hend : bytes + zeroes = ceilChunks bytes * chunkBytes)
    (i : ℕ) :
    (if i < ceilChunks bytes * chunkBytes then
      PineForge.Window.put f bytes (List.replicate zeroes 0) i else 0) =
      cut f bytes i := by
  unfold cut
  rw [put_zeroes]
  by_cases hlow : i < bytes
  · rw [if_pos hlow, if_pos (by omega), if_neg (by omega)]
  · rw [if_neg hlow]
    by_cases hend' : i < ceilChunks bytes * chunkBytes
    · rw [if_pos hend', if_pos (by omega)]
    · rw [if_neg hend']

theorem clear_ends (hs : st.Sound) {bytes : ℕ} (hless : bytes < (st.regions r).size) :
    Ends (Command.when (bytes % chunkBytes ≠ 0) (clearKept r bytes)) st
      (fun _ t => ∃ zeroes, bytes + zeroes = ceilChunks bytes * chunkBytes ∧
        Wrote r bytes (List.replicate zeroes 0) st t)
      (fun _ t => ∃ count, Wrote r bytes (List.replicate count 0) st t) := by
  refine Ends.when (fun hmod => ?_) fun hmod => ?_
  · refine (clearKept_ends hs hless hmod).mono (fun _ t ht => ⟨_, ?_, ht⟩) fun _ _ ht => ht
    have hlt : bytes % chunkBytes < chunkBytes := Nat.mod_lt _ chunkBytes_pos
    have hdiv := Nat.div_add_mod' bytes chunkBytes
    rw [ceilChunks, if_pos hmod, Nat.add_mul, Nat.one_mul]
    omega
  · refine ⟨0, ?_, Wrote.withMaps r bytes hs.ready⟩
    have hzero : bytes % chunkBytes = 0 := by omega
    have hdiv := Nat.div_add_mod' bytes chunkBytes
    rw [ceilChunks, if_neg hmod, Nat.add_zero, Nat.add_zero]
    omega

/-- The region after the chunks beyond the kept ones are gone. -/
def Trimmed (r : Fin n) (kept : ℕ) (st t : Arena n) : Prop :=
  t.Ready ∧ t.config = st.config ∧
    t.pool = st.pool.releaseAll ((st.regions r).chunks.drop kept).reverse ∧
    (∀ i, i / chunkBytes ∉ (st.regions r).chunks.drop kept → t.file i = st.file i) ∧
    ∃ capacity, t.regions = Function.update st.regions r
      { st.regions r with chunks := (st.regions r).chunks.take kept, capacity := capacity }

theorem trim_ends (hready : st.Ready) (r : Fin n) (kept : ℕ) {F : Failure → Arena n → Prop} :
    Ends (dropTo r kept) st (fun _ t => Trimmed r kept st t) F := by
  unfold dropTo
  refine Ends.get_bind ?_
  rw [← List.length_drop]
  refine (popChunks_ends r _ _ hready (List.take_append_drop kept _).symm).mono ?_ fun _ _ hf => hf
  rintro _ t ⟨hframe, hready', hpool⟩
  exact ⟨hready', hframe.config, hpool, hframe.file, (st.regions r).capacity, hframe.regions⟩

theorem Trimmed.reset (h : Trimmed r 0 st t) :
    Trimmed r 0 st ((t.withChunks r []).withCapacity r 0) := by
  obtain ⟨hready, hconfig, hpool, hfile, capacity, hregions⟩ := h
  refine ⟨⟨hready.windowBytes_pos, hready.slots_pos, hready.maps⟩, hconfig, hpool, hfile, 0, ?_⟩
  rw [withCapacity, withChunks_self, withRegion, withChunks, withRegion]
  dsimp only
  rw [Function.update_idem, hregions, Function.update_self, Function.update_idem, List.take_zero]

/-- Truncation leaves a beginning, then zeroes. -/
theorem Trimmed.changed {bytes zeroes : ℕ} (hs : st.Sound)
    (h : Wrote r bytes (List.replicate zeroes 0) st t)
    (hend : bytes + zeroes = ceilChunks bytes * chunkBytes) (hless : bytes < (st.regions r).size)
    (htrim : Trimmed r (ceilChunks bytes) t u) :
    Changed r bytes (cut (st.content r) bytes) st (u.withSize r bytes) := by
  have hcleared := h.changed hs (zeroes_beyond hs bytes zeroes)
  obtain ⟨hready, hconfig, hpool, hfile, capacity, hregions⟩ := htrim
  have hregion : (t.regions r).chunks = (st.regions r).chunks := by rw [h.regions]
  have hcontent : contentOf u.file ((t.regions r).chunks.take (ceilChunks bytes))
      = cut (st.content r) bytes := by
    have hsame : contentOf u.file ((t.regions r).chunks.take (ceilChunks bytes)) =
        contentOf t.file ((t.regions r).chunks.take (ceilChunks bytes)) := by
      refine contentOf_congr fun i hi => hfile i fun hmem => ?_
      have hnodup := hcleared.sound.nodup r
      rw [← List.take_append_drop (ceilChunks bytes) (t.regions r).chunks] at hnodup
      exact (List.nodup_append.mp hnodup).2.2 _ hi _ hmem rfl
    rw [hsame]
    funext i
    rw [contentOf_take, ← cut_eq (st.content r) bytes hend i, ← h.content]
    rfl
  have hreplaces : Replaces r
      { t.regions r with
        chunks := (t.regions r).chunks.take (ceilChunks bytes), size :=
          bytes, capacity := capacity } t
      (u.withSize r bytes) := by
    refine replaces_of_released ((t.regions r).chunks.drop (ceilChunks bytes)).reverse
      hcleared.sound ?_
      hconfig ?_ ?_ hpool (fun i hi => ?_) ?_ fun i hi => ?_
    · refine ((List.reverse_perm _).append_left _).trans (List.Perm.of_eq ?_)
      exact List.take_append_drop ..
    · rw [withSize, withRegion]
      dsimp only
      rw [hregions, Function.update_self, Function.update_idem]
    · exact ⟨hready.windowBytes_pos, hready.slots_pos, hready.maps⟩
    · rw [List.mem_reverse] at hi
      exact hfile i hi
    · change ((t.regions r).chunks.take (ceilChunks bytes)).length = ceilChunks bytes
      rw [List.length_take, hregion, hs.sized r,
        Nat.min_eq_left (ceilChunks_mono (Nat.le_of_lt hless))]
    · change contentOf u.file ((t.regions r).chunks.take (ceilChunks bytes)) i = 0
      change bytes ≤ i at hi
      rw [hcontent, cut, if_neg (by omega)]
  obtain ⟨hsound, hextents⟩ := hcleared.sound.step hreplaces
  refine ⟨hreplaces.config.trans h.config, hsound, ?_⟩
  rw [hextents]
  change Function.update t.extents r
    ⟨bytes, contentOf u.file ((t.regions r).chunks.take (ceilChunks bytes))⟩ = _
  rw [hcontent, hcleared.extents, Function.update_idem]

theorem shrink_ends (hs : st.Sound) {bytes : ℕ} (hless : bytes < (st.regions r).size) :
    Ends (shrink r bytes) st (fun _ t => Changed r bytes (cut (st.content r) bytes) st t)
      (fun _ t => ∃ count, Changed r (st.regions r).size
        (PineForge.Window.put (st.content r) bytes (List.replicate count 0)) st t) := by
  unfold shrink
  refine Ends.bind ((clear_ends hs hless).mono (fun _ _ ht => ht) ?_) ?_
  · rintro _ t ⟨count, ht⟩
    exact ⟨count, ht.changed hs (zeroes_beyond hs bytes count)⟩
  rintro _ t ⟨zeroes, hend, hwrote⟩
  refine Ends.bind (trim_ends hwrote.ready r (ceilChunks bytes)) fun _ u hu => ?_
  refine Ends.get_bind ?_
  refine Ends.bind (P := fun _ v => Trimmed r (ceilChunks bytes) t v) ?_ fun _ v hv =>
    Ends.modify (hv.changed hs hwrote hend hless)
  refine Ends.when (fun hempty => ?_) fun _ => hu
  rw [hempty.1, ceilChunks_zero] at hu ⊢
  exact Ends.modify hu.reset

theorem truncate_ends (hs : st.Sound) (r : Fin n) (bytes : ℕ) :
    Ends (truncate r bytes) st (fun _ t => Changed r bytes (cut (st.content r) bytes) st t)
      (fun _ t => Untouched st t ∨ bytes < (st.regions r).size ∧
        ∃ count, Changed r (st.regions r).size
        (PineForge.Window.put (st.content r) bytes (List.replicate count 0)) st t) := by
  unfold truncate
  refine Ends.get_bind ?_
  by_cases hmore : bytes ≥ (st.regions r).size
  · rw [if_pos hmore]
    have hcut : cut (st.content r) bytes = st.content r := by
      funext i
      unfold cut
      split
      · rfl
      · rw [hs.zero r i (by omega)]
    rw [hcut]
    refine (grow_ends hs r bytes 0).mono (fun _ t ht => ?_) fun _ t ht => .inl ht
    rwa [Nat.max_eq_right hmore] at ht
  · rw [if_neg hmore]
    exact (shrink_ends hs (by omega)).mono (fun _ _ ht => ht) fun _ t ht => .inr ⟨by omega, ht⟩

/-! ## Opening -/

theorem reserveShare_ends (h : st.Ready) (r : Fin n) (maxBytes : Option ℕ) :
    Ends (reserveShare r maxBytes) st (fun _ t => Reserved r st t)
      (fun _ t => Reserved r st t) := by
  cases maxBytes with
  | none => exact Ends.pure (Reserved.refl h r)
  | some share =>
    refine Ends.bind (P := fun _ t => t = st) (failIf_ends (fun _ => rfl) fun _ =>
      Reserved.refl h r) fun _ t ht => ?_
    subst ht
    exact reserve_ends h r _ _

theorem openRegion_ends (hs : st.Sound) (r : Fin n) (maxBytes : Option ℕ) :
    Ends (openRegion r maxBytes) st (fun _ t => t.Sound ∧ t.config = st.config ∧ t.extents
      = st.extents)
      (fun _ t => Untouched st t) := by
  unfold openRegion
  refine Ends.get_bind ?_
  refine Ends.bind (P := fun _ t => t = st) (failIf_ends (fun _ => rfl) fun _ =>
    Untouched.refl hs) fun _ t ht => ?_
  subst ht
  refine Ends.bind ((reserveShare_ends hs.ready r maxBytes).mono (fun _ _ hu => hu) fun _ u hu =>
    hu.untouched hs)
    fun _ u hu => ?_
  have hkept := hu.untouched hs
  have hself := hkept.sound.replaces_self r
  have hreplaces : Replaces r { u.regions r with maxBytes := maxBytes } u
      ((u.withRegion r { u.regions r with maxBytes := maxBytes }).withOpen
        ((u.openRegions + 1) % 2 ^ 64)) :=
    ⟨rfl, rfl, ⟨hself.ready.windowBytes_pos, hself.ready.slots_pos, hself.ready.maps⟩, hself.pool,
      rfl, hself.others,
      hself.owned, hself.nodup, hself.apart, rfl, hself.sized, hself.file, hself.zero⟩
  obtain ⟨hsound, hextents⟩ := hkept.sound.step hreplaces
  refine Ends.modify ⟨hsound, hkept.config, ?_⟩
  exact hextents.trans ((extents_update_self u r).trans hkept.extents)

end PineForge.Arena
