import Mathlib
import PineForge.Arena.Regions

/-!
# What the commands on chunks touch

`Frame S st t`: from `st` to `t` only bytes of the chunks in `S` and the windows changed. Each
command on chunks is stated with its frame, with what it does to the pool, and never stops but by a
throw.
-/

namespace PineForge.Arena

variable {n : ℕ} {β : Type} {st t u : Arena n} {S : Set ℕ}

/-- The windows are in order and one can be mapped. -/
structure Ready (st : Arena n) : Prop where
  windowBytes_pos : 0 < st.config.windowBytes
  slots_pos : 0 < st.config.slots
  maps : st.maps.Sound st.config.windowBytes st.config.slots

/-- Only the bytes of some chunks change. -/
structure Frame (S : Set ℕ) (st t : Arena n) : Prop where
  config : t.config = st.config
  regions : t.regions = st.regions
  openRegions : t.openRegions = st.openRegions
  file : ∀ i, i / chunkBytes ∉ S → t.file i = st.file i

namespace Frame

theorem refl (S : Set ℕ) (st : Arena n) : Frame S st st := ⟨rfl, rfl, rfl, fun _ _ => rfl⟩

theorem trans (h : Frame S st t) (h' : Frame S t u) : Frame S st u :=
  ⟨h'.config.trans h.config, h'.regions.trans h.regions, h'.openRegions.trans h.openRegions,
    fun i hi => (h'.file i hi).trans (h.file i hi)⟩

theorem mono {S' : Set ℕ} (h : Frame S st t) (hsub : S ⊆ S') : Frame S' st t :=
  ⟨h.config, h.regions, h.openRegions, fun i hi => h.file i fun hmem => hi (hsub hmem)⟩

theorem withMaps (h : Frame S st t) (maps : Maps) : Frame S st (t.withMaps maps) :=
  ⟨h.config, h.regions, h.openRegions, h.file⟩

theorem withPool (h : Frame S st t) (pool : Pool) : Frame S st (t.withPool pool) :=
  ⟨h.config, h.regions, h.openRegions, h.file⟩

theorem withRegion (h : Frame S st t) (r : Fin n) (region : Region) :
    Frame S (st.withRegion r region) (t.withRegion r region) := by
  refine ⟨h.config, ?_, h.openRegions, h.file⟩
  change Function.update t.regions r region = Function.update st.regions r region
  rw [h.regions]

theorem withChunks (h : Frame S st t) (r : Fin n) (chunks : List ℕ) :
    Frame S (st.withChunks r chunks) (t.withChunks r chunks) := by
  unfold Arena.withChunks
  rw [h.regions]
  exact h.withRegion r _

end Frame

theorem Ready.withMaps (h : st.Ready) {maps : Maps}
    (hmaps : maps.Sound st.config.windowBytes st.config.slots) :
    (st.withMaps maps).Ready := ⟨h.windowBytes_pos, h.slots_pos, hmaps⟩

theorem frame_stored (st : Arena n) {chunk place : ℕ} {data : Bytes} (hmem : chunk ∈ S)
    (hin : place + data.length ≤ chunkBytes) :
    Frame S st (st.stored (chunk * chunkBytes + place) data) := by
  refine ⟨stored_config .., stored_regions .., stored_openRegions .., fun i hi => ?_⟩
  rw [stored_file]
  refine PineForge.Window.put_outside st.file ?_
  have hne : i / chunkBytes ≠ chunk := by
    rintro rfl
    exact hi hmem
  simp only [chunkBytes_eq] at *
  omega

/-! ## Commands -/

theorem onMaps_ends {m : Mapping β} {P : β → Maps → Prop} {F : Failure → Maps → Prop}
    (h : Ends m st.maps P F) :
    Ends (onMaps m) st (fun b t => ∃ maps, t = st.withMaps maps ∧ P b maps)
      (fun failure t => ∃ maps, t = st.withMaps maps ∧ F failure maps) := by
  rcases h with ⟨b, maps, hm, hp⟩ | ⟨failure, maps, hm, hf⟩
  · exact .inl ⟨b, st.withMaps maps, by rw [onMaps, hm], maps, rfl, hp⟩
  · exact .inr ⟨failure, st.withMaps maps, by rw [onMaps, hm], maps, rfl, hf⟩

theorem onThrow_ends {m : Action n β} {cleanup : Action n Unit} {P : β → Arena n → Prop}
    {F G : Failure → Arena n → Prop} (hm : Ends m st P F)
    (hc : ∀ failure t, F failure t → Ends cleanup t (fun _ u => G failure u) (fun _ _ => False)) :
    Ends (onThrow m cleanup) st P G := by
  rcases hm with ⟨b, t, hm, hp⟩ | ⟨failure, t, hm, hf⟩
  · exact .inl ⟨b, t, by rw [onThrow, hm], hp⟩
  · rcases hc failure t hf with ⟨_, u, hc, hg⟩ | ⟨_, _, _, hfalse⟩
    · exact .inr ⟨failure, u, by simp only [onThrow, hm, hc], hg⟩
    · exact hfalse.elim

theorem failIf_ends {c : Prop} [Decidable c] {failure : Failure} {P : Unit → Arena n → Prop}
    {F : Failure → Arena n → Prop} (hp : ¬ c → P () st) (hf : c → F failure st) :
    Ends (failIf c (.thrown failure)) st P F := by
  unfold failIf
  by_cases h : c
  · rw [if_pos h]
    exact Ends.throw (hf h)
  · rw [if_neg h]
    exact Ends.pure (hp h)

/-- `mapped` changes the windows only. -/
theorem mapped_ends (h : st.Ready) (physical : ℕ) :
    Ends (mapped physical) st
      (fun window t => (∃ maps, t = st.withMaps maps) ∧ t.Ready ∧
        window.Valid st.config.windowBytes ∧
        window.covers physical = true)
      (fun _ t => (∃ maps, t = st.withMaps maps) ∧ t.Ready) := by
  refine Ends.get_bind ((onMaps_ends
    (Maps.mapped_ends h.maps h.slots_pos h.windowBytes_pos physical)).mono ?_ ?_)
  · rintro window t ⟨maps, rfl, hmaps, hvalid, hcovers⟩
    exact ⟨⟨maps, rfl⟩, h.withMaps hmaps, hvalid, hcovers⟩
  · rintro failure t ⟨maps, rfl, hmaps⟩
    exact ⟨⟨maps, rfl⟩, h.withMaps hmaps⟩

/-- From a byte to the end of a window over it: the window is left of the end of the byte's
chunk. -/
theorem inside_spec {windowBytes physical : ℕ} {window : Window} (hvalid : window.Valid windowBytes)
    (hcovers : window.covers physical = true) :
    window.offset + (physical - window.offset) = physical ∧
      0 < window.length - (physical - window.offset) ∧
      physical % chunkBytes + (window.length - (physical - window.offset)) ≤ chunkBytes := by
  obtain ⟨hle, hlt⟩ := of_decide_eq_true hcovers
  have hin := hvalid.inChunk
  simp only [chunkBytes_eq] at *
  omega

/-! ## Zeroes -/

theorem withMaps_stored (st : Arena n) (maps : Maps) (offset : ℕ) (data : Bytes) :
    (st.withMaps maps).stored offset data = (st.stored offset data).withMaps maps := rfl

theorem withMaps_withMaps (st : Arena n) (maps maps' : Maps) :
    (st.withMaps maps).withMaps maps' = st.withMaps maps' :=
  rfl

theorem stored_stored (st : Arena n) (offset : ℕ) (data data' : Bytes) :
    (st.stored offset data).stored (offset + data.length) data' = st.stored offset
    (data ++ data') := by
  unfold stored
  dsimp only
  rw [PineForge.Window.put_append]

theorem stored_nil (st : Arena n) (offset : ℕ) : st.stored offset [] = st := by
  unfold stored
  rw [PineForge.Window.put_nil]

/-- So many zeroes were written at a position, through other windows. -/
def Zeroed (position count : ℕ) (st t : Arena n) : Prop :=
  t.Ready ∧ ∃ maps, t = (st.stored position (List.replicate count 0)).withMaps maps

theorem Zeroed.refl (h : st.Ready) (position : ℕ) : Zeroed position 0 st st := by
  refine ⟨h, st.maps, ?_⟩
  rw [List.replicate_zero, stored_nil]
  rfl

theorem Zeroed.append {position count more : ℕ} {maps : Maps}
    (h : Zeroed (position + count) more
      ((st.withMaps maps).stored position (List.replicate count 0)) t) :
    Zeroed position (count + more) st t := by
  obtain ⟨hready, maps', rfl⟩ := h
  refine ⟨hready, maps', ?_⟩
  have hstored := stored_stored st position (List.replicate count 0) (List.replicate more 0)
  rw [List.length_replicate, List.replicate_append_replicate] at hstored
  rw [withMaps_stored, withMaps_stored, withMaps_withMaps, hstored]

theorem Ready.withPool (h : st.Ready) (pool : Pool) : (st.withPool pool).Ready :=
  ⟨h.windowBytes_pos, h.slots_pos, h.maps⟩

theorem Ready.withChunks (h : st.Ready) (r : Fin n) (chunks : List ℕ) :
    (st.withChunks r chunks).Ready :=
  ⟨h.windowBytes_pos, h.slots_pos, h.maps⟩

theorem Ready.stored (h : st.Ready) (offset : ℕ) (data : Bytes) : (st.stored offset data).Ready :=
  ⟨h.windowBytes_pos, h.slots_pos, h.maps⟩

/-- Zeroes from a place to the end of the chunk, or as far as the windows could be mapped. -/
def ZeroesRest (chunk place : ℕ) (m : Action n Unit) (base st : Arena n) : Prop :=
  Ends m st (fun _ t => Zeroed (chunk * chunkBytes + place) (chunkBytes - place) base t)
    (fun _ t => ∃ count ≤ chunkBytes - place, Zeroed (chunk * chunkBytes + place) count base t)

/-- One turn of a loop over the rest of a chunk: a window over the place, and what follows it. -/
theorem zeroesRest_turn {chunk place : ℕ} (hplace : place < chunkBytes) (h : st.Ready)
    {k : Window → Action n Unit}
    (hk : ∀ window count maps, (st.withMaps maps).Ready → 0 < count → place + count ≤ chunkBytes →
      window.offset + (chunk * chunkBytes + place - window.offset) = chunk * chunkBytes + place →
      window.length - (chunk * chunkBytes + place - window.offset) = count →
      ZeroesRest chunk place (k window) st (st.withMaps maps)) :
    ZeroesRest chunk place (mapped (chunk * chunkBytes + place) >>= k) st st := by
  refine Ends.bind ((mapped_ends h _).mono (fun _ _ ht => ht) fun failure t ht =>
    ?_) fun window t ht => ?_
  · obtain ⟨⟨maps, rfl⟩, hready⟩ := ht
    refine ⟨0, Nat.zero_le _, hready, maps, ?_⟩
    rw [List.replicate_zero, stored_nil]
  · obtain ⟨⟨maps, rfl⟩, hready, hvalid, hcovers⟩ := ht
    obtain ⟨hoffset, hpos, hin⟩ := inside_spec hvalid hcovers
    have hmod : (chunk * chunkBytes + place) % chunkBytes = place := Nat.mul_add_mod_of_lt hplace
    rw [hmod] at hin
    exact hk window _ maps hready hpos hin hoffset rfl

theorem ZeroesRest.after {chunk place count : ℕ} {maps : Maps} {m : Action n Unit}
    (hroom : place + count ≤ chunkBytes)
    (h : ZeroesRest chunk (place + count) m
      ((st.withMaps maps).stored (chunk * chunkBytes + place) (List.replicate count 0))
      ((st.withMaps maps).stored (chunk * chunkBytes + place) (List.replicate count 0))) :
    ZeroesRest chunk place m st
      ((st.withMaps maps).stored (chunk * chunkBytes + place) (List.replicate count 0)) := by
  refine Ends.mono h (fun _ t ht => ?_) fun _ t ht => ?_
  · rw [← Nat.add_assoc] at ht
    have happend := ht.append
    rwa [show count + (chunkBytes - (place + count)) = chunkBytes - place by omega] at happend
  · obtain ⟨more, hle, ht⟩ := ht
    rw [← Nat.add_assoc] at ht
    exact ⟨count + more, by omega, ht.append⟩

theorem ZeroesRest.done {chunk place : ℕ} (h : st.Ready) (hplace : chunkBytes - place = 0) :
    ZeroesRest chunk place (pure ()) st st := by
  refine Ends.pure ?_
  rw [hplace]
  exact Zeroed.refl h _

theorem zeroFrom_ends (chunk : ℕ) {place : ℕ} (hplace : place ≤ chunkBytes) {st : Arena n}
    (h : st.Ready) :
    ZeroesRest chunk place (zeroFrom (chunk * chunkBytes) (chunk * chunkBytes + place)) st st := by
  -- what is left of the chunk gets smaller with each window
  induction hleft : chunkBytes - place using Nat.strong_induction_on generalizing place st with
  | _ left ih =>
    rw [zeroFrom]
    by_cases hmore : chunk * chunkBytes + place - chunk * chunkBytes < chunkBytes
    · rw [dif_pos hmore]
      refine zeroesRest_turn (by omega) h fun window count maps hready hpos hroom hoffset hcount =>
        ?_
      dsimp only
      rw [hoffset, hcount]
      refine Ends.bind (P := fun _ t => t = _) (Ends.modify rfl) fun _ t ht => ?_
      subst ht
      rw [dif_pos hpos, Nat.add_assoc]
      exact (ih _ (by omega) hroom (hready.stored _ _) rfl).after hroom
    · rw [dif_neg hmore]
      exact ZeroesRest.done h (by omega)

theorem zeroTail_ends (chunk : ℕ) {place : ℕ} (hplace : place ≤ chunkBytes) {st : Arena n}
    (h : st.Ready) :
    ZeroesRest chunk place (zeroTail (chunk * chunkBytes + chunkBytes) (chunk * chunkBytes + place))
      st st := by
  induction hleft : chunkBytes - place using Nat.strong_induction_on generalizing place st with
  | _ left ih =>
    rw [zeroTail]
    by_cases hmore : chunk * chunkBytes + place < chunk * chunkBytes + chunkBytes
    · rw [dif_pos hmore]
      refine zeroesRest_turn (by omega) h fun window count maps hready hpos hroom hoffset hcount =>
        ?_
      dsimp only
      rw [hoffset, hcount]
      -- the window ends with the chunk, so the smaller of the two is the window's rest
      rw [show min count (chunk * chunkBytes + chunkBytes - (chunk * chunkBytes + place))
        = count by omega]
      refine Ends.bind (P := fun _ t => t = _) (Ends.modify rfl) fun _ t ht => ?_
      subst ht
      rw [dif_pos hpos, Nat.add_assoc]
      exact (ih _ (by omega) hroom (hready.stored _ _) rfl).after hroom
    · rw [dif_neg hmore]
      exact ZeroesRest.done h (by omega)

theorem Zeroed.frame {chunk place count : ℕ} (hin : place + count ≤ chunkBytes)
    (h : Zeroed (chunk * chunkBytes + place) count st t) :
    Frame {chunk} st t ∧ t.pool = st.pool := by
  obtain ⟨-, maps, rfl⟩ := h
  have hframe : Frame {chunk} st
      (st.stored (chunk * chunkBytes + place) (List.replicate count 0)) :=
    frame_stored st rfl (by rwa [List.length_replicate])
  refine ⟨hframe.withMaps maps, ?_⟩
  rw [withMaps_pool, stored_pool]

/-! ## Releases -/

/-- A released chunk is all that changes. -/
theorem releaseChunk_ends (h : st.Ready) (chunk : ℕ) {F : Failure → Arena n → Prop} :
    Ends (releaseChunk chunk) st
      (fun _ t => Frame {chunk} st t ∧ t.Ready ∧ t.pool = st.pool.release chunk) F := by
  refine Ends.bind ((onMaps_ends (F := fun _ _ => False)
    (Maps.unmapChunk_ends (chunk * chunkBytes) _ h.maps)).mono (fun _ _ ht => ht) ?_) ?_
  · rintro failure t ⟨_, _, hfalse⟩
    exact hfalse.elim
  rintro _ t ⟨maps, rfl, hmaps⟩
  refine Ends.bind ((onMaps_ends (F := fun _ _ => False) (Maps.call_ends hmaps)).mono
    (fun _ _ ht => ht) ?_) ?_
  · rintro failure t ⟨_, _, hfalse⟩
    exact hfalse.elim
  rintro outcome t ⟨maps', rfl, hmaps', -⟩
  have hcount : punched outcome ≤ chunkBytes := by
    unfold punched
    split
    · exact Nat.min_le_right ..
    · exact Nat.le_refl _
  have hframe : Frame {chunk} st
      (st.stored (chunk * chunkBytes) (List.replicate (punched outcome) 0)) := by
    have hplace : Frame {chunk} st
        (st.stored (chunk * chunkBytes + 0) (List.replicate (punched outcome) 0)) :=
      frame_stored st (Set.mem_singleton chunk) (by rw [List.length_replicate]; omega)
    rwa [Nat.add_zero] at hplace
  rw [withMaps_withMaps]
  generalize (List.replicate (punched outcome) 0 : Bytes) = zeroes at hframe ⊢
  generalize chunk * chunkBytes = start at hframe ⊢
  refine Ends.bind (P := fun _ t => t = (st.withMaps maps').stored start zeroes)
    (Ends.modify rfl) fun _ t ht => ?_
  have hpool : t.pool = st.pool := by rw [ht, stored_pool, withMaps_pool]
  have hready : t.Ready := ht ▸ (h.withMaps hmaps').stored start zeroes
  rw [withMaps_stored] at ht
  have htouched : Frame {chunk} st t := ht ▸ hframe.withMaps maps'
  refine Ends.modify ⟨htouched.withPool _, hready.withPool _, ?_⟩
  rw [withPool_pool, hpool]

theorem releaseChunks_ends (chunks : List ℕ) {st : Arena n} (h : st.Ready)
    {F : Failure → Arena n → Prop} :
    Ends (releaseChunks chunks) st
      (fun _ t => Frame {c | c ∈ chunks} st t ∧ t.Ready ∧
        t.pool = st.pool.releaseAll chunks) F := by
  induction chunks generalizing st with
  | nil => exact Ends.pure ⟨Frame.refl _ _, h, rfl⟩
  | cons chunk rest ih =>
    refine Ends.bind (releaseChunk_ends h chunk) fun _ t ht => ?_
    obtain ⟨hframe, hready, hpool⟩ := ht
    refine (ih hready).mono (fun _ u hu => ?_) fun _ _ hu => hu
    obtain ⟨hframe', hready', hpool'⟩ := hu
    refine ⟨(hframe.mono ?_).trans (hframe'.mono ?_), hready', ?_⟩
    · rintro c rfl
      exact List.mem_cons_self
    · intro c hc
      exact List.mem_cons_of_mem _ hc
    · rw [hpool', hpool]
      rfl

/-- The loop that gives back the last chunks leaves the region with the first ones. -/
theorem popChunks_ends (r : Fin n) (base chunks : List ℕ) {st : Arena n} (h : st.Ready)
    (hchunks : (st.regions r).chunks = base ++ chunks) {F : Failure → Arena n → Prop} :
    Ends (popChunks r chunks.length) st
      (fun _ t => Frame {c | c ∈ chunks} (st.withChunks r base) t ∧ t.Ready ∧
        t.pool = st.pool.releaseAll chunks.reverse) F := by
  induction chunks using List.reverseRecOn generalizing st with
  | nil =>
    refine Ends.pure ⟨?_, h, rfl⟩
    rw [List.append_nil] at hchunks
    rw [← hchunks, withChunks, withRegion, Function.update_eq_self]
    exact Frame.refl _ _
  | append_singleton front last ih =>
    rw [List.length_append, List.length_singleton, popChunks]
    refine Ends.get_bind ?_
    rw [hchunks, ← List.append_assoc, List.getLast?_concat]
    refine Ends.bind (releaseChunk_ends h last) fun _ t ht => ?_
    obtain ⟨hframe, hready, hpool⟩ := ht
    refine Ends.bind (P := fun _ u => u = t.withChunks r (base ++ front))
      (Ends.modify ?_) fun _ u hu => ?_
    · rw [hframe.regions, hchunks, ← List.append_assoc, List.dropLast_concat]
    subst hu
    have hfront : ((t.withChunks r (base ++ front)).regions r).chunks = base ++ front := by
      rw [withChunks_self]
    refine (ih (hready.withChunks r _) hfront).mono (fun _ u hu => ?_) fun _ _ hu => hu
    obtain ⟨hframe', hready', hpool'⟩ := hu
    have htwice : (t.withChunks r (base ++ front)).withChunks r base = t.withChunks r base := by
      simp [withChunks, withRegion]
    rw [htwice] at hframe'
    refine ⟨((hframe.withChunks r base).mono ?_).trans (hframe'.mono ?_), hready', ?_⟩
    · rintro c rfl
      exact List.mem_append_right _ List.mem_cons_self
    · intro c hc
      exact List.mem_append_left _ hc
    · rw [hpool', List.reverse_append, Pool.releaseAll_append]
      change t.pool.releaseAll front.reverse = _
      rw [hpool]
      rfl

end PineForge.Arena
