import Mathlib
import PineForge.History.Owner

/-!
# Records in the extent

What the writes of a preparation do to the extent, and what they leave where one fails. A command
`Writes` a range when, however it ends, it changes the extent only there. A staged record is one
write of `recordBytes`.
-/

namespace PineForge.History

open Window LittleEndian

/-! ## Commands that write a range -/

/-- The figures that a preparation keeps for its reader. -/
structure Figures where
  ioHighWater : ℕ
  demandHighWater : ℕ
  candidate : ℕ

/-- The figures of an owner. -/
def Owner.figures (st : Owner) : Figures :=
  ⟨st.ioHighWaterBytes, st.demandHighWaterBytes, st.candidateBytes⟩

/-- The state with other content, other outcomes to come and other figures. -/
def Owner.after (st : Owner) (file : ℕ → Fin 256) (io : List Outcome) (figures : Figures) : Owner :=
  { st with
    file := file
    io := io
    ioHighWaterBytes := figures.ioHighWater
    demandHighWaterBytes := figures.demandHighWater
    candidateBytes := figures.candidate }

/-- However the command ends, it has changed the extent only in a range; a return has the
postcondition. -/
def Writes {β : Type} (low high : ℕ) (m : Action β) (st : Owner) (post : β → (ℕ → Fin 256) → Prop) :
    Prop :=
  ∃ file io figures, (m st).2 = st.after file io figures ∧
    (∀ i, i < low ∨ high ≤ i → file i = st.file i) ∧
    ((∃ b, (m st).1 = .ok b ∧ post b file) ∨ ∃ failure, (m st).1 = .error (.thrown failure))

section

variable {β γ : Type} {low high : ℕ} {st : Owner} {m : Action β} {k : β → Action γ}
  {post : β → (ℕ → Fin 256) → Prop} {post' : γ → (ℕ → Fin 256) → Prop}

theorem Writes.bind (hm : Writes low high m st post)
    (hk : ∀ b file io figures, post b file → (∀ i, i < low ∨ high ≤ i → file i = st.file i) →
      Writes low high (k b) (st.after file io figures) post') :
    Writes low high (m >>= k) st post' := by
  obtain ⟨file, io, figures, hstate, hframe, hresult⟩ := hm
  rcases hresult with ⟨b, hb, hpost⟩ | ⟨failure, hfailure⟩
  · obtain ⟨file', io', figures', hstate', hframe', hresult'⟩ := hk b file io figures hpost hframe
    have hrun : m st = (.ok b, st.after file io figures) := Prod.ext hb hstate
    refine ⟨file', io', figures', ?_, ?_, ?_⟩
    · rw [Command.bind_ok hrun, hstate']
      rfl
    · intro i hi
      rw [hframe' i hi]
      exact hframe i hi
    · rw [Command.bind_ok hrun]
      exact hresult'
  · have hrun : m st = (.error (.thrown failure), st.after file io figures) :=
      Prod.ext hfailure hstate
    refine ⟨file, io, figures, ?_, hframe, .inr ⟨failure, ?_⟩⟩
    · rw [Command.bind_error hrun]
    · rw [Command.bind_error hrun]

theorem Writes.mono {low' high' : ℕ} (hm : Writes low high m st post) (hlow : low' ≤ low)
    (hhigh : high ≤ high')
    {wider : β → (ℕ → Fin 256) → Prop}
    (hpost : ∀ b file, (∀ i, i < low ∨ high ≤ i → file i = st.file i) → post b file →
      wider b file) :
    Writes low' high' m st wider := by
  obtain ⟨file, io, figures, hstate, hframe, hresult⟩ := hm
  refine ⟨file, io, figures, hstate, fun i hi => hframe i (by omega), ?_⟩
  rcases hresult with ⟨b, hb, hb'⟩ | hfailure
  · exact .inl ⟨b, hb, hpost b file hframe hb'⟩
  · exact .inr hfailure

theorem writes_pure (low high : ℕ) (b : β) (st : Owner) :
    Writes low high (pure b) st fun c file => c = b ∧ file = st.file :=
  ⟨st.file, st.io, st.figures, rfl, fun _ _ => rfl, .inl ⟨b, rfl, rfl, rfl⟩⟩

theorem writes_fail (low high : ℕ) (failure : Failure) (st : Owner)
    (post : β → (ℕ → Fin 256) → Prop) :
    Writes low high (fail failure) st post :=
  ⟨st.file, st.io, st.figures, rfl, fun _ _ => rfl, .inr ⟨failure, rfl⟩⟩

theorem writes_failIf (low high : ℕ) (c : Prop) [Decidable c] (failure : Failure) (st : Owner) :
    Writes low high (failIf c failure) st fun _ file => ¬c ∧ file = st.file := by
  unfold failIf
  split
  · exact writes_fail low high failure st _
  · rename_i hc
    exact (writes_pure low high () st).mono le_rfl le_rfl fun _ _ _ h => ⟨hc, h.2⟩

theorem writes_get (low high : ℕ) (st : Owner) :
    Writes low high Command.get st fun s file => s = st ∧ file = st.file :=
  ⟨st.file, st.io, st.figures, rfl, fun _ _ => rfl, .inl ⟨st, rfl, rfl, rfl⟩⟩

theorem outcome_apply (st : Owner) :
    outcome st = (.ok (st.io.headD .ok), { st with io := st.io.tail }) := by
  unfold outcome
  cases hio : st.io with
  | nil =>
    cases st
    subst hio
    rfl
  | cons o rest => rfl

theorem writes_outcome (low high : ℕ) (st : Owner) :
    Writes low high outcome st fun _ file => file = st.file := by
  refine ⟨st.file, st.io.tail, st.figures, ?_, fun _ _ => rfl, .inl ⟨st.io.headD .ok, ?_, rfl⟩⟩
  · rw [outcome_apply]
    rfl
  · rw [outcome_apply]

theorem writes_verifyGeometry (low high : ℕ) (st : Owner) :
    Writes low high verifyGeometry st fun _ file => file = st.file := by
  refine (writes_outcome low high st).bind fun o file io figures hfile _ => ?_
  cases o with
  | ok => exact (writes_pure low high () _).mono le_rfl le_rfl fun _ _ _ h => h.2.trans hfile
  | fails errno left => exact writes_fail low high _ _ _

theorem writes_noteRange (low high finish : ℕ) (st : Owner) :
    Writes low high (noteRange finish) st fun _ file => file = st.file :=
  ⟨st.file, st.io, { st.figures with ioHighWater := max st.ioHighWaterBytes finish }, rfl,
    fun _ _ => rfl, .inl ⟨(), rfl, rfl⟩⟩

theorem writes_store {low high : ℕ} (st : Owner) {offset : ℕ} {data : Bytes} (hlow : low ≤ offset)
    (hhigh : offset + data.length ≤ high) :
    Writes low high (store offset data) st fun _ file => file = put st.file offset data :=
  ⟨put st.file offset data, st.io, st.figures, rfl, fun i hi => put_outside st.file (by omega),
    .inl ⟨(), rfl, rfl⟩⟩

theorem writes_write (st : Owner) (offset : ℕ) (data : Bytes) :
    Writes offset (offset + data.length) (write offset data) st
      fun _ file => file = put st.file offset data := by
  unfold write
  refine (writes_verifyGeometry _ _ st).bind fun _ file io figures hgeometry _ => ?_
  refine (writes_get _ _ _).bind fun _ file' io' figures' hget _ => ?_
  refine (writes_failIf _ _ _ _ _).bind fun _ file'' io'' figures'' hextent _ => ?_
  refine (writes_noteRange _ _ _ _).bind fun _ file₃ io₃ figures₃ hfigures _ => ?_
  refine (writes_outcome _ _ _).bind fun o file₄ io₄ figures₄ houtcome _ => ?_
  have hfile : file₄ = st.file :=
    houtcome.trans (hfigures.trans (hextent.2.trans (hget.2.trans hgeometry)))
  subst hfile
  cases o with
  | ok => exact writes_store _ le_rfl le_rfl
  | fails errno left =>
    have htake : offset + (data.take left).length ≤ offset + data.length := by
      rw [List.length_take]
      omega
    exact (writes_store _ le_rfl htake).bind fun _ _ _ _ _ _ => writes_fail _ _ _ _ _

theorem writes_readPhysical (low high : ℕ) (st : Owner) (offset length : ℕ) :
    Writes low high (readPhysical offset length) st
      fun bytes file => bytes = window st.file offset length ∧ file = st.file := by
  unfold readPhysical
  refine (writes_verifyGeometry _ _ st).bind fun _ file io figures hgeometry _ => ?_
  refine (writes_get _ _ _).bind fun _ file' io' figures' hget _ => ?_
  refine (writes_failIf _ _ _ _ _).bind fun _ file'' io'' figures'' hextent _ => ?_
  refine (writes_outcome _ _ _).bind fun o file₃ io₃ figures₃ houtcome _ => ?_
  have hfile : file₃ = st.file := houtcome.trans (hextent.2.trans (hget.2.trans hgeometry))
  subst hfile
  cases o with
  | fails errno left => exact writes_fail _ _ _ _ _
  | ok =>
    refine (writes_get _ _ _).bind fun s file₄ io₄ figures₄ hs _ => ?_
    obtain ⟨rfl, rfl⟩ := hs
    exact writes_pure _ _ _ _

end

/-! ## The copy of a displaced record -/

/-- The pages of a copy, or a beginning of them; the source is behind the destination. -/
theorem writes_copyPages (pages : ℕ) : ∀ (st : Owner) (source destination : ℕ),
    destination + pageBytes * pages ≤ source →
    Writes destination (destination + pageBytes * pages) (copyPages source destination pages) st
      fun _ file => ∀ i, i < pageBytes * pages → file (destination + i) = st.file (source + i) := by
  induction pages with
  | zero =>
    intro st source destination _
    exact (writes_pure _ _ () st).mono le_rfl le_rfl fun _ _ _ _ i hi => by simp at hi
  | succ pages ih =>
    intro st source destination hapart
    rw [Nat.mul_succ] at hapart ⊢
    refine (writes_readPhysical _ _ st source pageBytes).bind fun bytes file io figures hread _ =>
      ?_
    obtain ⟨rfl, rfl⟩ := hread
    have hwrite := writes_write (st.after st.file io figures) destination
      (window st.file source pageBytes)
    rw [length_window] at hwrite
    refine (hwrite.mono le_rfl (by omega) fun _ _ _ h => h).bind fun _ file' io' figures' hput _ =>
      ?_
    refine (ih _ (source + pageBytes) (destination + pageBytes) (by omega)).mono
      (by omega) (by omega) ?_
    intro _ file'' hframe hcopied i hi
    subst hput
    rcases Nat.lt_or_ge i pageBytes with hlow | hhigh
    · rw [hframe _ (Or.inl (by omega))]
      exact put_inside st.file (getElem?_window st.file source hlow)
    · have hrest := hcopied (i - pageBytes) (by omega)
      rw [show destination + pageBytes + (i - pageBytes) = destination + i by omega,
        show source + pageBytes + (i - pageBytes) = source + i by omega] at hrest
      rw [hrest]
      exact put_outside st.file (Or.inr (by rw [length_window]; omega))

/-! ## The bytes of a record -/

/-- The pages of a payload. -/
def pagesOf (size : ℕ) : ℕ := (size + (pageBytes - 1)) / pageBytes

theorem pageBytes_eq : pageBytes = 512 := by unfold pageBytes; rfl

theorem size_le_pages (size : ℕ) : size ≤ pageBytes * pagesOf size := by
  rw [pagesOf, pageBytes_eq]
  omega

theorem pages_lt (size : ℕ) : pageBytes * pagesOf size < size + pageBytes := by
  rw [pagesOf, pageBytes_eq]
  omega

/-- A payload filled up to whole pages. -/
def paddedPayload (payload : Bytes) : Bytes :=
  payload ++ List.replicate (pageBytes * pagesOf payload.length - payload.length) 0

/-- The bytes a record takes. -/
def spanOf (size : ℕ) : ℕ := pageBytes * pagesOf size + 2 * pageBytes

/-- A record as a caller sees it. -/
structure Record where
  kind : RecordKind
  payload : Bytes
deriving DecidableEq, Repr

/-- The header page or, with the digest, the witness page of a record. -/
def markPage (ownerId : ℕ) (r : Record) (sequence start last : ℕ) : Bytes :=
  pageOf (headerBytes ownerId r.kind r.payload.length (pagesOf r.payload.length)
    sequence start last)

/-- A record as it stands in the extent. -/
def recordBytes (ownerId : ℕ) (r : Record) (sequence start : ℕ) : Bytes :=
  markPage ownerId r sequence start 0 ++ paddedPayload r.payload ++
    markPage ownerId r sequence start (digestBytes digestSeed r.payload)

@[simp] theorem length_headerBytes (ownerId : ℕ) (kind : RecordKind)
    (size pages sequence start last : ℕ) :
    (headerBytes ownerId kind size pages sequence start last).length = 64 := by
  simp only [headerBytes, List.flatMap_cons, List.flatMap_nil, List.length_append, length_bytes,
    List.length_nil]

theorem length_pageOf {bytes : Bytes} (h : bytes.length ≤ pageBytes) :
    (pageOf bytes).length = pageBytes := by
  rw [pageOf, List.length_append, List.length_replicate]
  omega

@[simp] theorem length_markPage (ownerId : ℕ) (r : Record) (sequence start last : ℕ) :
    (markPage ownerId r sequence start last).length = pageBytes := by
  refine length_pageOf ?_
  rw [length_headerBytes, pageBytes_eq]
  omega

@[simp] theorem length_paddedPayload (payload : Bytes) :
    (paddedPayload payload).length = pageBytes * pagesOf payload.length := by
  have h := size_le_pages payload.length
  rw [paddedPayload, List.length_append, List.length_replicate]
  omega

@[simp] theorem length_recordBytes (ownerId : ℕ) (r : Record) (sequence start : ℕ) :
    (recordBytes ownerId r sequence start).length = spanOf r.payload.length := by
  rw [recordBytes, List.length_append, List.length_append, length_markPage, length_markPage,
    length_paddedPayload, spanOf]
  omega

/-! ## A staged record -/

theorem writes_historyAdd (low high a b : ℕ) (st : Owner) :
    Writes low high (historyAdd a b) st fun c file => c = a + b ∧ file = st.file := by
  unfold historyAdd
  split
  · exact writes_fail _ _ _ _ _
  · exact writes_pure _ _ _ _

theorem writes_historyRound (low high bytes : ℕ) (st : Owner) :
    Writes low high (historyRound bytes pageBytes) st
      fun c file => c = pageBytes * pagesOf bytes ∧ file = st.file := by
  unfold historyRound
  split
  · rename_i hrest
    refine (writes_historyAdd _ _ _ _ _).mono le_rfl le_rfl fun c file _ h => ⟨?_, h.2⟩
    rw [h.1, pagesOf, pageBytes_eq] at *
    omega
  · rename_i hwhole
    refine (writes_pure _ _ _ _).mono le_rfl le_rfl fun c file _ h => ⟨?_, h.2⟩
    rw [h.1, pagesOf, pageBytes_eq] at *
    omega

theorem writes_noteDemand (low high finish span : ℕ) (st : Owner) :
    Writes low high (noteDemand finish span) st fun _ file => file = st.file :=
  ⟨st.file, st.io, ⟨st.ioHighWaterBytes, max st.demandHighWaterBytes finish, span⟩, rfl,
    fun _ _ => rfl,
    .inl ⟨(), rfl, rfl⟩⟩

theorem digestBytes_append (digest : ℕ) (a b : Bytes) :
    digestBytes (digestBytes digest a) b = digestBytes digest (a ++ b) := by
  rw [digestBytes, digestBytes, digestBytes, List.foldl_append]

theorem page_append (rest : Bytes) (pages : ℕ) :
    pageOf (rest.take pageBytes) ++
        (rest.drop pageBytes ++ List.replicate (pageBytes * pages - (rest.drop pageBytes).length) 0)
      = rest ++ List.replicate (pageBytes * (pages + 1) - rest.length) 0 := by
  rw [pageOf, List.length_take, List.length_drop, Nat.mul_succ]
  rcases Nat.le_total pageBytes rest.length with hlong | hshort
  · rw [Nat.min_eq_left hlong, Nat.sub_self, List.replicate_zero, List.append_nil,
      ← List.append_assoc,
      List.take_append_drop]
    congr 2
    omega
  · rw [Nat.min_eq_right hshort, List.drop_of_length_le hshort, List.take_of_length_le hshort,
      List.nil_append,
      List.append_assoc, List.replicate_append_replicate]
    congr 2
    omega

/-- The payload is written page by page. -/
theorem writes_writePayload (source : ByteSource) (start pages : ℕ) :
    ∀ (st : Owner) (position digest : ℕ),
    source.bytes.length ≤ position + pageBytes * pages →
    Writes (start + pageBytes + position) (start + pageBytes + position + pageBytes * pages)
      (writePayload source start pages position digest) st fun d file =>
        d = digestBytes digest (source.bytes.drop position) ∧
        file = put st.file (start + pageBytes + position) (source.bytes.drop position ++
          List.replicate (pageBytes * pages - (source.bytes.drop position).length) 0) := by
  induction pages with
  | zero =>
    intro st position digest hlength
    refine (writes_pure _ _ digest st).mono le_rfl le_rfl fun d file _ h => ?_
    rw [List.drop_of_length_le (by omega)]
    simpa [digestBytes] using h
  | succ pages ih =>
    intro st position digest hlength
    rw [writePayload]
    refine (writes_failIf _ _ _ _ _).bind fun _ file io figures hfile _ => ?_
    obtain ⟨-, rfl⟩ := hfile
    have hchunk : (pageOf ((source.bytes.drop position).take pageBytes)).length = pageBytes :=
      length_pageOf (by rw [List.length_take]; omega)
    have hwrite := writes_write (st.after st.file io figures) (start + pageBytes + position)
      (pageOf ((source.bytes.drop position).take pageBytes))
    rw [hchunk] at hwrite
    rw [Nat.mul_succ] at hlength
    refine (hwrite.mono le_rfl (by rw [Nat.mul_succ]; omega) fun _ _ _ h =>
      h).bind fun _ file' io' figures' hput _ => ?_
    subst hput
    refine (ih _ (position + pageBytes) _ (by omega)).mono (by omega)
      (by rw [Nat.mul_succ]; omega) ?_
    intro d file'' _ hrest
    rw [← List.drop_drop] at hrest
    obtain ⟨hdigest, hfile⟩ := hrest
    constructor
    · rw [hdigest, digestBytes_append, List.take_append_drop]
    · have happend := put_append st.file (start + pageBytes + position)
        (pageOf ((source.bytes.drop position).take pageBytes))
        ((source.bytes.drop position).drop pageBytes ++
          List.replicate (pageBytes * pages - ((source.bytes.drop position).drop pageBytes).length)
            0)
      rw [hchunk, Nat.add_assoc (start + pageBytes)] at happend
      rw [hfile, ← page_append, ← happend]
      rfl

theorem put_recordBytes (f : ℕ → Fin 256) (start ownerId : ℕ) (r : Record)
    (sequence logicalStart : ℕ) :
    put f start (recordBytes ownerId r sequence logicalStart)
      = put (put (put f start (markPage ownerId r sequence logicalStart 0)) (start + pageBytes)
          (paddedPayload r.payload)) (start + pageBytes + pageBytes * pagesOf r.payload.length)
          (markPage ownerId r sequence logicalStart (digestBytes digestSeed r.payload)) := by
  rw [recordBytes, ← put_append, ← put_append, List.length_append, length_markPage,
    length_paddedPayload,
    Nat.add_assoc start]

/-- A record is its header and payload. -/
theorem writes_writeRecord (source : ByteSource) (kind : RecordKind)
    (ownerId sequence logicalStart start : ℕ)
    (st : Owner) :
    Writes start (start + spanOf source.bytes.length)
      (writeRecord (headerBytes ownerId kind source.bytes.length (pagesOf source.bytes.length)
        sequence logicalStart)
        source start (start + spanOf source.bytes.length) (pagesOf source.bytes.length)) st
      fun _ file => file = put st.file start
        (recordBytes ownerId ⟨kind, source.bytes⟩ sequence logicalStart) := by
  have hspan : spanOf source.bytes.length = pageBytes + pageBytes * pagesOf source.bytes.length
      + pageBytes := by
    rw [spanOf]
    omega
  have hheader : ∀ last, (pageOf
    (headerBytes ownerId kind source.bytes.length (pagesOf source.bytes.length) sequence
      logicalStart last)).length = pageBytes := by
    intro last
    exact length_markPage ownerId ⟨kind, source.bytes⟩ sequence logicalStart last
  unfold writeRecord
  have hfirst := writes_write st start (pageOf (headerBytes ownerId kind source.bytes.length
    (pagesOf source.bytes.length) sequence logicalStart 0))
  rw [hheader] at hfirst
  refine (hfirst.mono le_rfl (by omega) fun _ _ _ h => h).bind fun _ file₁ io₁ figures₁ hfile₁ _ =>
    ?_
  subst hfile₁
  have hpayload := writes_writePayload source start (pagesOf source.bytes.length)
    (st.after (put st.file start (pageOf (headerBytes ownerId kind source.bytes.length
      (pagesOf source.bytes.length) sequence logicalStart 0))) io₁ figures₁) 0 digestSeed
    (by rw [Nat.zero_add]; exact size_le_pages _)
  refine (hpayload.mono (by omega) (by omega) fun _ _ _ h =>
    h).bind fun digest file₂ io₂ figures₂ hfile₂ _ => ?_
  obtain ⟨hdigest, hfile₂⟩ := hfile₂
  rw [List.drop_zero] at hdigest hfile₂
  subst hdigest
  have hlast := writes_write (st.after file₂ io₂ figures₂)
    (start + spanOf source.bytes.length - pageBytes)
    (pageOf (headerBytes ownerId kind source.bytes.length (pagesOf source.bytes.length)
      sequence logicalStart
      (digestBytes digestSeed source.bytes)))
  rw [hheader] at hlast
  refine hlast.mono (by omega) (by omega) fun _ file _ hfile => ?_
  -- three writes, each where the one before it ended
  rw [hfile, put_recordBytes, hfile₂]
  have hplace : start + spanOf source.bytes.length - pageBytes
      = start + pageBytes + pageBytes * pagesOf source.bytes.length := by omega
  rw [hplace]
  rfl

/-- The span of a source, and where the record is put. -/
def Owner.placeOf (st : Owner) (size : ℕ) : ℕ :=
  candidateStart st (st.committedBytes + spanOf size) (spanOf size)

theorem writes_terminateIf (low high : ℕ) {c : Prop} [Decidable c] (hc : ¬c) (st : Owner) :
    Writes low high (terminateIf c) st fun _ file => file = st.file := by
  unfold terminateIf
  rw [if_neg hc]
  exact (writes_pure _ _ _ _).mono le_rfl le_rfl fun _ _ _ h => h.2

/-- A candidate is written past what is held. -/
theorem writes_writeCandidate (kind : RecordKind) (source : ByteSource) (st : Owner)
    (hpending : ¬(st.pending = true ∧ st.pendingStart < st.committedBytes)) :
    Writes (st.placeOf source.bytes.length)
      (st.placeOf source.bytes.length + spanOf source.bytes.length)
      (writeCandidate kind source) st fun c file =>
        c = ⟨st.placeOf source.bytes.length,
          st.placeOf source.bytes.length + spanOf source.bytes.length,
          st.committedBytes + spanOf source.bytes.length, spanOf source.bytes.length, kind⟩ ∧
        st.placeOf source.bytes.length + spanOf source.bytes.length ≤ st.extentBytes ∧
        file = put st.file (st.placeOf source.bytes.length)
          (recordBytes st.ownerId ⟨kind, source.bytes⟩ (st.committedRecords + 1)
            st.committedBytes) := by
  unfold writeCandidate
  refine (writes_historyRound _ _ _ st).bind fun payload file₁ io₁ figures₁ hpayload _ => ?_
  obtain ⟨rfl, rfl⟩ := hpayload
  refine (writes_historyAdd _ _ _ _ _).bind fun span file₂ io₂ figures₂ hspan _ => ?_
  obtain ⟨rfl, hfile₂⟩ := hspan
  refine (writes_get _ _ _).bind fun st₁ file₃ io₃ figures₃ hst₁ _ => ?_
  obtain ⟨rfl, hfile₃⟩ := hst₁
  refine (writes_historyAdd _ _ _ _ _).bind fun logicalEnd file₄ io₄ figures₄ hlogical _ => ?_
  obtain ⟨rfl, hfile₄⟩ := hlogical
  refine (writes_get _ _ _).bind fun st₂ file₅ io₅ figures₅ hst₂ _ => ?_
  obtain ⟨rfl, hfile₅⟩ := hst₂
  refine (writes_terminateIf _ _ hpending _).bind fun _ file₆ io₆ figures₆ hfile₆ _ => ?_
  refine (writes_historyAdd _ _ _ _ _).bind fun finish file₇ io₇ figures₇ hfinish _ => ?_
  obtain ⟨rfl, hfile₇⟩ := hfinish
  refine (writes_historyAdd _ _ _ _ _).bind fun sequence file₈ io₈ figures₈ hsequence _ => ?_
  obtain ⟨rfl, hfile₈⟩ := hsequence
  refine (writes_noteDemand _ _ _ _ _).bind fun _ file₉ io₉ figures₉ hfile₉ _ => ?_
  refine (writes_failIf _ _ _ _ _).bind fun _ file₁₀ io₁₀ figures₁₀ hextent _ => ?_
  refine (writes_verifyGeometry _ _ _).bind fun _ file₁₁ io₁₁ figures₁₁ hfile₁₁ _ => ?_
  have hfile : file₁₁ = st.file :=
    hfile₁₁.trans (hextent.2.trans (hfile₉.trans (hfile₈.trans (hfile₇.trans (hfile₆.trans
      (hfile₅.trans (hfile₄.trans (hfile₃.trans hfile₂))))))))
  subst hfile
  have hpages : pageBytes * pagesOf source.bytes.length / pageBytes = pagesOf source.bytes.length :=
    Nat.mul_div_cancel_left _ (by rw [pageBytes_eq]; omega)
  rw [hpages]
  refine (writes_writeRecord source kind st.ownerId (st.committedRecords + 1) st.committedBytes
    (st.placeOf source.bytes.length) _).bind fun _ file io figures hrecord _ => ?_
  refine (writes_pure _ _ _ _).mono le_rfl le_rfl fun c file' _ hc => ⟨hc.1, ?_, hc.2.trans hrecord⟩
  exact Nat.le_of_not_lt hextent.1

end PineForge.History
