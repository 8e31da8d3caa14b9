import Mathlib
import PineForge.History.Records

/-!
# Reading the log

A reader addresses the log by logical offsets, and a displaced record is read where it stands. Where
the log reads as a record from an offset on, the checks of a visit pass, so a visit that meets no
failing system call gets through all records.
-/

namespace PineForge.History

open Window LittleEndian

/-- The log by logical offsets. -/
def Owner.view (st : Owner) (i : ℕ) : Fin 256 :=
  if st.relocated ∧ st.relocationLogical ≤ i then
    st.file (st.relocationStart + (i - st.relocationLogical))
  else st.file i

/-- The state with other outcomes to come. -/
def Owner.withIo (st : Owner) (io : List Outcome) : Owner := { st with io := io }

/-- No system call to come fails. -/
def Owner.Quiet (st : Owner) : Prop := ∀ o ∈ st.io, o = Outcome.ok

/-- The committed log, and a displaced record behind it, are in the extent. -/
structure Owner.Placed (st : Owner) : Prop where
  committed : st.committedBytes ≤ st.extentBytes
  extent : st.extentBytes < 2 ^ 63
  displaced : st.relocated = true → st.relocationLogical + st.relocationBytes = st.committedBytes ∧
    st.committedBytes ≤ st.relocationStart ∧ st.relocationStart + st.relocationBytes
      ≤ st.extentBytes

/-! ## Commands that only read -/

/-- The command changes nothing but the outcomes to come, and does not throw where all is quiet. -/
def Looks {β : Type} (quiet : Prop) (m : Action β) (st : Owner) (post : β → Prop) : Prop :=
  ∀ io, io <:+ st.io → ∃ io', io' <:+ st.io ∧ (m (st.withIo io)).2 = st.withIo io' ∧
    ((∃ b, (m (st.withIo io)).1 = .ok b ∧ post b) ∨
      (∃ failure, (m (st.withIo io)).1 = .error (.thrown failure)) ∧ ¬quiet)

section

variable {β γ : Type} {quiet : Prop} {m : Action β} {k : β → Action γ} {st : Owner}
    {post : β → Prop}
  {post' : γ → Prop}

theorem Looks.bind (hm : Looks quiet m st post) (hk : ∀ b, post b → Looks quiet (k b) st post') :
    Looks quiet (m >>= k) st post' := by
  intro io hio
  obtain ⟨io₁, hio₁, hstate, hresult⟩ := hm io hio
  rcases hresult with ⟨b, hb, hpost⟩ | ⟨⟨failure, hfailure⟩, hnoisy⟩
  · have hrun : m (st.withIo io) = (.ok b, st.withIo io₁) := Prod.ext hb hstate
    rw [Command.bind_ok hrun]
    exact hk b hpost io₁ hio₁
  · have hrun : m (st.withIo io) = (.error (.thrown failure), st.withIo io₁) :=
      Prod.ext hfailure hstate
    rw [Command.bind_error hrun]
    exact ⟨io₁, hio₁, rfl, .inr ⟨⟨failure, rfl⟩, hnoisy⟩⟩

theorem Looks.mono {wider : β → Prop} (hm : Looks quiet m st post) (h : ∀ b, post b → wider b) :
    Looks quiet m st wider := by
  intro io hio
  obtain ⟨io', hio', hstate, ⟨b, hb, hpost⟩ | hthrows⟩ := hm io hio
  · exact ⟨io', hio', hstate, .inl ⟨b, hb, h b hpost⟩⟩
  · exact ⟨io', hio', hstate, .inr hthrows⟩

theorem looks_pure {b : β} (h : post b) : Looks quiet (pure b) st post :=
  fun io hio => ⟨io, hio, rfl, .inl ⟨b, rfl, h⟩⟩

theorem looks_fail {failure : Failure} (h : ¬quiet) :
    Looks quiet (fail failure : Action β) st post :=
  fun io hio => ⟨io, hio, rfl, .inr ⟨⟨failure, rfl⟩, h⟩⟩

theorem looks_failIf {c : Prop} [Decidable c] (h : ¬c) (failure : Failure) :
    Looks quiet (failIf c failure) st fun _ => True := by
  unfold failIf
  rw [if_neg h]
  exact looks_pure trivial

theorem looks_get : Looks quiet Command.get st fun s => ∃ io, s = st.withIo io :=
  fun io hio => ⟨io, hio, rfl, .inl ⟨st.withIo io, rfl, io, rfl⟩⟩

theorem looks_outcome (hquiet : quiet → st.Quiet) : Looks quiet outcome st fun o => quiet →
    o = .ok := by
  intro io hio
  refine ⟨io.tail, (List.tail_suffix io).trans hio, ?_, .inl ⟨io.headD .ok, ?_, ?_⟩⟩
  · rw [outcome_apply]
    rfl
  · rw [outcome_apply]
    rfl
  · intro h
    cases io with
    | nil => rfl
    | cons o rest => exact hquiet h o (hio.subset (by simp))

theorem looks_historyAdd {a b : ℕ} (h : a + b ≤ wordMax) :
    Looks quiet (historyAdd a b) st fun c => c = a + b := by
  unfold historyAdd
  rw [if_neg (by omega)]
  exact looks_pure rfl

theorem looks_historyRound {size : ℕ} (h : spanOf size ≤ wordMax) :
    Looks quiet (historyRound size pageBytes) st fun c => c = pageBytes * pagesOf size := by
  have hpages := pages_lt size
  have hle := size_le_pages size
  have hspan : pageBytes * pagesOf size + 2 * pageBytes ≤ wordMax := h
  have hunit : size % pageBytes < pageBytes := Nat.mod_lt _ (by rw [pageBytes_eq]; omega)
  unfold historyRound
  split
  · rename_i hrest
    refine (looks_historyAdd (by omega)).mono fun c hc => ?_
    rw [hc, pagesOf, pageBytes_eq] at *
    omega
  · rename_i hwhole
    refine looks_pure ?_
    rw [pagesOf, pageBytes_eq] at *
    omega

/-! ## Reads of the log -/

theorem looks_verifyGeometry (hquiet : quiet → st.Quiet) :
    Looks quiet verifyGeometry st fun _ => True := by
  unfold verifyGeometry
  refine (looks_outcome hquiet).bind fun o ho => ?_
  cases o with
  | ok => exact looks_pure trivial
  | fails errno left => exact looks_fail fun h => by cases ho h

theorem looks_readPhysical (hquiet : quiet → st.Quiet) {offset length : ℕ}
    (h : offset + length ≤ st.extentBytes) :
    Looks quiet (readPhysical offset length) st fun bytes => bytes
      = window st.file offset length := by
  unfold readPhysical
  refine (looks_verifyGeometry hquiet).bind fun _ _ => ?_
  refine looks_get.bind fun s hs => ?_
  obtain ⟨io, rfl⟩ := hs
  refine (looks_failIf (Nat.not_lt.mpr h) _).bind fun _ _ => ?_
  refine (looks_outcome hquiet).bind fun o ho => ?_
  cases o with
  | fails errno left => exact looks_fail fun h => by cases ho h
  | ok =>
    refine looks_get.bind fun s hs => ?_
    obtain ⟨io', rfl⟩ := hs
    exact looks_pure rfl

theorem view_of_displaced {i : ℕ} (hrelocated : st.relocated = true)
    (h : st.relocationLogical ≤ i) :
    st.view i = st.file (st.relocationStart + (i - st.relocationLogical)) :=
  if_pos ⟨hrelocated, h⟩

theorem view_of_placed {i : ℕ} (h : st.relocated = true → i < st.relocationLogical) :
    st.view i = st.file i :=
  if_neg fun hboth => absurd (h hboth.1) (Nat.not_lt.mpr hboth.2)

/-- A committed read shows the viewed bytes. -/
theorem looks_readParts (hplaced : st.Placed) (hquiet : quiet → st.Quiet) (length : ℕ) :
    ∀ {offset : ℕ},
    offset + length ≤ st.committedBytes →
    Looks quiet (readParts offset length) st fun bytes => bytes = window st.view offset length := by
  have hcommitted := hplaced.committed
  induction length using Nat.strong_induction_on with
  | _ length ih =>
    intro offset hlength
    rw [readParts]
    by_cases hzero : length = 0
    · rw [if_pos hzero, hzero]
      exact looks_pure rfl
    rw [if_neg hzero]
    refine looks_get.bind fun s hs => ?_
    obtain ⟨io, rfl⟩ := hs
    by_cases hbefore : (st.withIo io).relocated = true ∧ offset < (st.withIo io).relocationLogical
    · -- a part before the displaced record, and the rest
      rw [dif_pos hbefore]
      change st.relocated = true ∧ offset < st.relocationLogical at hbefore
      have hdisplaced := hplaced.displaced hbefore.1
      refine (looks_readPhysical hquiet (show offset + min length (st.relocationLogical - offset)
        ≤ st.extentBytes by omega)).bind fun head hhead => ?_
      have hrest := @ih (length - min length (st.relocationLogical - offset)) (by omega)
        (offset + min length (st.relocationLogical - offset)) (by omega)
      refine hrest.bind fun rest hrest => looks_pure ?_
      have hsplit : length = min length (st.relocationLogical - offset)
          + (length - min length (st.relocationLogical - offset)) := by omega
      have hfirst : window st.file offset (min length (st.relocationLogical - offset))
          = window st.view offset (min length (st.relocationLogical - offset)) :=
        window_congr fun i _ hi => (view_of_placed fun _ => by omega).symm
      rw [hhead, hrest, hfirst, ← window_append, ← hsplit]
    · rw [dif_neg hbefore]
      change ¬(st.relocated = true ∧ offset < st.relocationLogical) at hbefore
      by_cases hrelocated : (st.withIo io).relocated = true
      · rw [if_pos hrelocated]
        change st.relocated = true at hrelocated
        have hdisplaced := hplaced.displaced hrelocated
        have hle : st.relocationLogical ≤ offset := by
          by_contra hlt
          exact hbefore ⟨hrelocated, by omega⟩
        refine (looks_readPhysical hquiet
          (show st.relocationStart + (offset - st.relocationLogical) + length
          ≤ st.extentBytes by omega)).mono fun bytes hbytes => ?_
        rw [hbytes]
        refine window_shift fun i _ => ?_
        have hplace : st.relocationStart + (offset - st.relocationLogical) + i
            = st.relocationStart + (offset + i - st.relocationLogical) := by omega
        rw [view_of_displaced hrelocated (by omega), hplace]
      · rw [if_neg hrelocated]
        refine (looks_readPhysical hquiet (show offset + length ≤ st.extentBytes by omega)).mono
          fun bytes hbytes => ?_
        rw [hbytes]
        exact window_congr fun i _ _ => (view_of_placed fun h => absurd h hrelocated).symm

theorem looks_read (hplaced : st.Placed) (hquiet : quiet → st.Quiet) {offset length : ℕ}
    (h : offset + length ≤ st.committedBytes) :
    Looks quiet (read offset length) st fun bytes => bytes = window st.view offset length := by
  unfold read
  refine (looks_verifyGeometry hquiet).bind fun _ _ => ?_
  refine looks_get.bind fun s hs => ?_
  obtain ⟨io, rfl⟩ := hs
  refine (looks_failIf (Nat.not_lt.mpr h) _).bind fun _ _ => ?_
  exact looks_readParts hplaced hquiet length h

end

/-! ## The words of a header -/

theorem take_flatMap_bytes (words : List ℕ) : ∀ {index w : ℕ}, words[index]? = some w →
    ((words.flatMap (bytes 8)).drop (8 * index)).take 8 = bytes 8 w := by
  induction words with
  | nil =>
    intro index w h
    cases h
  | cons v words ih =>
    intro index w h
    rw [List.flatMap_cons]
    cases index with
    | zero =>
      rw [List.getElem?_cons_zero, Option.some.injEq] at h
      subst h
      rw [Nat.mul_zero, List.drop_zero, List.take_left' (length_bytes 8 v)]
    | succ index =>
      rw [Nat.mul_succ, Nat.add_comm, ← List.drop_drop, List.drop_left' (length_bytes 8 v)]
      exact ih (by rwa [List.getElem?_cons_succ] at h)

theorem headerWord_flatMap {words : List ℕ} {index w : ℕ} (h : words[index]? = some w)
    (hw : w ≤ wordMax) :
    headerWord (words.flatMap (bytes 8)) index = w := by
  rw [headerWord, take_flatMap_bytes words h, word_bytes]
  rw [wordMax] at hw
  omega

theorem headerWord_headerBytes {ownerId : ℕ} {kind : RecordKind}
    {size pages sequence start last index w : ℕ}
    (h : [magic, kind.code, size, pages, sequence, start, ownerId, last][index]? = some w)
    (hw : w ≤ wordMax) :
    headerWord (headerBytes ownerId kind size pages sequence start last) index = w :=
  headerWord_flatMap h hw

theorem take_headerBytes (ownerId : ℕ) (kind : RecordKind) (size pages sequence start last : ℕ) :
    (headerBytes ownerId kind size pages sequence start last).take 56
      = [magic, kind.code, size, pages, sequence, start, ownerId].flatMap (bytes 8) := by
  have hsplit : headerBytes ownerId kind size pages sequence start last
      = [magic, kind.code, size, pages, sequence, start, ownerId].flatMap (bytes 8) ++
        bytes 8 last := by
    simp only [headerBytes, List.flatMap_cons, List.flatMap_nil, List.append_nil, List.append_assoc]
  rw [hsplit, List.take_left']
  simp only [List.flatMap_cons, List.flatMap_nil, List.length_append, length_bytes, List.length_nil]

theorem ofCode_code (kind : RecordKind) : RecordKind.ofCode kind.code = kind := by
  cases kind with
  | issued => rfl
  | cohortOpen => rfl
  | cohortReceipt => rfl

theorem digestBytes_lt {digest : ℕ} (h : digest ≤ wordMax) (payload : Bytes) :
    digestBytes digest payload ≤ wordMax := by
  induction payload generalizing digest with
  | nil => exact h
  | cons b payload ih =>
    refine ih ?_
    have hmod := Nat.mod_lt ((digest ^^^ b.val) * 1099511628211) (show 0 < 2 ^ 64 by omega)
    exact Nat.le_sub_one_of_lt hmod

/-! ## Records that are read -/

/-- The content reads as a record from a position on. -/
def RecordAt (content : ℕ → Fin 256) (offset ownerId : ℕ) (r : Record) (sequence start : ℕ) :
    Prop :=
  window content offset (spanOf r.payload.length) = recordBytes ownerId r sequence start

section

variable {content : ℕ → Fin 256} {offset ownerId : ℕ} {r : Record} {sequence start : ℕ}

theorem RecordAt.part (h : RecordAt content offset ownerId r sequence start) {skip count : ℕ}
    (hpart : skip + count ≤ spanOf r.payload.length) :
    window content (offset + skip) count
      = ((recordBytes ownerId r sequence start).drop skip).take count := by
  rw [window_part content offset hpart, h]

theorem RecordAt.header (h : RecordAt content offset ownerId r sequence start) :
    window content offset 64
      = headerBytes ownerId r.kind r.payload.length (pagesOf r.payload.length) sequence
        start 0 := by
  have hpart := @RecordAt.part content offset ownerId r sequence start h 0 64
    (by rw [spanOf, pageBytes_eq]; omega)
  rw [Nat.add_zero, List.drop_zero] at hpart
  rw [hpart, recordBytes, markPage, pageOf, List.append_assoc, List.append_assoc,
    List.take_left' (length_headerBytes ..)]

theorem RecordAt.witness (h : RecordAt content offset ownerId r sequence start) :
    window content (offset + (pageBytes + pageBytes * pagesOf r.payload.length)) 64
      = headerBytes ownerId r.kind r.payload.length (pagesOf r.payload.length) sequence start
          (digestBytes digestSeed r.payload) := by
  have hlength : (markPage ownerId r sequence start 0 ++ paddedPayload r.payload).length
      = pageBytes + pageBytes * pagesOf r.payload.length := by
    rw [List.length_append, length_markPage, length_paddedPayload]
  rw [h.part (by rw [spanOf, pageBytes_eq]; omega), recordBytes, List.drop_left' hlength,
    markPage, pageOf,
    List.take_left' (length_headerBytes ..)]

theorem RecordAt.payload (h : RecordAt content offset ownerId r sequence start) {skip count : ℕ}
    (hpart : skip + count ≤ r.payload.length) :
    window content (offset + pageBytes + skip) count = (r.payload.drop skip).take count := by
  have hle := size_le_pages r.payload.length
  have hdrop : (recordBytes ownerId r sequence start).drop pageBytes
      = r.payload ++ (List.replicate (pageBytes * pagesOf r.payload.length - r.payload.length) 0 ++
        markPage ownerId r sequence start (digestBytes digestSeed r.payload)) := by
    rw [recordBytes, List.append_assoc, List.drop_left' (length_markPage ..), paddedPayload,
      List.append_assoc]
  rw [Nat.add_assoc, h.part (by rw [spanOf]; omega), ← List.drop_drop, hdrop,
    List.drop_append_of_le_length (by omega),
      List.take_append_of_le_length (by rw [List.length_drop]; omega)]

end

section

variable {quiet : Prop} {r : Record} {sequence : ℕ}

theorem looks_readDigest {st : Owner} {offset : ℕ} (hplaced : st.Placed) (hquiet : quiet → st.Quiet)
    (hrecord : RecordAt st.view offset st.ownerId r sequence offset)
    (hfits : offset + spanOf r.payload.length ≤ st.committedBytes) (pages : ℕ) :
    ∀ {position digest : ℕ},
    position + pageBytes * pages = pageBytes * pagesOf r.payload.length →
    Looks quiet (readDigest (offset + pageBytes) r.payload.length pages position digest) st
      fun d => d = digestBytes digest (r.payload.drop position) := by
  have hle := size_le_pages r.payload.length
  rw [spanOf] at hfits
  induction pages with
  | zero =>
    intro position digest hpages
    refine looks_pure ?_
    rw [List.drop_of_length_le (by omega)]
    rfl
  | succ pages ih =>
    intro position digest hpages
    rw [Nat.mul_succ] at hpages
    rw [readDigest]
    refine (looks_read hplaced hquiet (by omega)).bind fun chunk hchunk => ?_
    have hpage : chunk = (r.payload.drop position).take pageBytes := by
      rcases Nat.le_total position r.payload.length with hin | hout
      · rw [hchunk, hrecord.payload (by omega), ← List.length_drop, ← List.take_take,
          List.take_length]
      · rw [hchunk, List.drop_of_length_le hout, List.take_nil, Nat.sub_eq_zero_of_le hout,
          Nat.min_zero]
        rfl
    refine (ih (by omega)).mono fun d hd => ?_
    rw [hd, hpage, digestBytes_append, ← List.drop_drop, List.take_append_drop]

/-- The words of a header, which are all in range. -/
structure HeaderWords (header : Bytes) (ownerId : ℕ) (r : Record) (sequence start last : ℕ) :
    Prop where
  magic : headerWord header 0 = magic
  kind : headerWord header 1 = r.kind.code
  size : headerWord header 2 = r.payload.length
  pages : headerWord header 3 = pagesOf r.payload.length
  sequence : headerWord header 4 = sequence
  start : headerWord header 5 = start
  owner : headerWord header 6 = ownerId
  last : headerWord header 7 = last

theorem headerWords {ownerId start last : ℕ} (hspan : spanOf r.payload.length ≤ wordMax)
    (howner : ownerId ≤ wordMax) (hsequence : sequence ≤ wordMax) (hstart : start ≤ wordMax)
    (hlast : last ≤ wordMax) :
    HeaderWords (headerBytes ownerId r.kind r.payload.length (pagesOf r.payload.length)
      sequence start last)
      ownerId r sequence start last := by
  have hle := size_le_pages r.payload.length
  have hpages : pagesOf r.payload.length ≤ pageBytes * pagesOf r.payload.length :=
    Nat.le_mul_of_pos_left _ (by rw [pageBytes_eq]; omega)
  rw [spanOf] at hspan
  constructor
  · exact headerWord_headerBytes rfl (by decide)
  · exact headerWord_headerBytes rfl (by cases r.kind <;> decide)
  · exact headerWord_headerBytes rfl (by omega)
  · exact headerWord_headerBytes rfl (by omega)
  · exact headerWord_headerBytes rfl hsequence
  · exact headerWord_headerBytes rfl hstart
  · exact headerWord_headerBytes rfl howner
  · exact headerWord_headerBytes rfl hlast

theorem code_bounds (kind : RecordKind) : ¬(kind.code < 1 ∨ kind.code > 3) := by
  cases kind <;> decide

/-- The checks of a stored record pass. -/
theorem looks_checkRecord {st : Owner} {offset : ℕ} (hplaced : st.Placed)
    (hquiet : quiet → st.Quiet)
    (howner : st.ownerId ≤ wordMax) (hsequence : sequence ≤ wordMax)
    (hrecord : RecordAt st.view offset st.ownerId r sequence offset)
    (hfits : offset + spanOf r.payload.length ≤ st.committedBytes) :
    Looks quiet (checkRecord st.committedBytes offset sequence) st fun out =>
      out = (r.kind, ⟨offset + pageBytes, r.payload.length⟩, offset + spanOf r.payload.length) := by
  have hcommitted := hplaced.committed
  have hextent := hplaced.extent
  have hword : wordMax = 2 ^ 64 - 1 := rfl
  have hspan : spanOf r.payload.length = pageBytes * pagesOf r.payload.length + 2 * pageBytes := rfl
  have hpage : pageBytes = 512 := pageBytes_eq
  have hdivide : pageBytes * pagesOf r.payload.length / pageBytes = pagesOf r.payload.length :=
    Nat.mul_div_cancel_left _ (by omega)
  have hdigest : digestBytes digestSeed r.payload ≤ wordMax := digestBytes_lt (by decide) _
  unfold checkRecord
  refine (looks_read hplaced hquiet (by omega)).bind fun header hheader => ?_
  rw [hrecord.header] at hheader
  have hwords : HeaderWords header st.ownerId r sequence offset 0 := by
    rw [hheader]
    exact headerWords (by omega) howner hsequence (by omega) (Nat.zero_le _)
  rw [hwords.magic, hwords.kind, hwords.size, hwords.pages, hwords.sequence,
    hwords.start, hwords.last]
  refine (looks_historyRound (by omega)).bind fun rounded hrounded => ?_
  subst hrounded
  refine looks_get.bind fun s hs => ?_
  obtain ⟨io, rfl⟩ := hs
  have hpasses : ¬(magic ≠ magic ∨
    pagesOf r.payload.length ≠ pageBytes * pagesOf r.payload.length / pageBytes
      ∨ sequence ≠ sequence ∨ offset ≠ offset ∨ headerWord header 6 ≠ st.ownerId ∨ 0 ≠ 0 ∨
        r.kind.code < 1
      ∨ r.kind.code > 3) := by
    rw [hwords.owner, hdivide]
    simpa using code_bounds r.kind
  refine (looks_failIf hpasses _).bind fun _ _ => ?_
  refine (looks_historyAdd (by omega)).bind fun span hspan' => ?_
  subst hspan'
  refine (looks_historyAdd (by omega)).bind fun next hnext => ?_
  subst hnext
  refine (looks_failIf (by omega) _).bind fun _ _ => ?_
  rw [hdivide]
  refine (looks_readDigest hplaced hquiet hrecord hfits _
    (Nat.zero_add _)).bind fun digest hdigest' => ?_
  rw [List.drop_zero] at hdigest'
  refine (looks_read hplaced hquiet (by omega)).bind fun witness hwitness => ?_
  have hplace : offset + (pageBytes * pagesOf r.payload.length + 2 * pageBytes) - pageBytes
      = offset + (pageBytes + pageBytes * pagesOf r.payload.length) := by omega
  rw [hplace, hrecord.witness] at hwitness
  have hmatches : ¬(header.take 56 ≠ witness.take 56 ∨ headerWord witness 7 ≠ digest) := by
    have hlast := (@headerWords r sequence st.ownerId offset _ (by omega) howner hsequence
      (by omega) hdigest).last
    rw [← hwitness] at hlast
    rw [hheader, hlast, hdigest', hwitness, take_headerBytes, take_headerBytes]
    simp
  refine (looks_failIf hmatches _).bind fun _ _ => looks_pure ?_
  rw [ofCode_code, hspan]

end

/-! ## Visits -/

/-- Dense records from an offset to an end, numbered from an index on. -/
def Laid (content : ℕ → Fin 256) (ownerId finish : ℕ) : ℕ → ℕ → List Record → Prop
  | _, offset, [] => offset = finish
  | index, offset, r :: records =>
    RecordAt content offset ownerId r (index + 1) offset ∧
      Laid content ownerId finish (index + 1) (offset + spanOf r.payload.length) records

theorem Laid.offset_le {content : ℕ → Fin 256} {ownerId finish : ℕ} (records : List Record) :
    ∀ {index offset : ℕ}, Laid content ownerId finish index offset records →
      offset + records.length ≤ finish := by
  induction records with
  | nil =>
    intro index offset h
    exact le_of_eq h
  | cons r records ih =>
    intro index offset h
    have hrest := ih h.2
    have hspan : spanOf r.payload.length = pageBytes * pagesOf r.payload.length + 2 * pageBytes :=
      rfl
    have hpage : pageBytes = 512 := pageBytes_eq
    rw [List.length_cons]
    omega

theorem Laid.congr {content content' : ℕ → Fin 256} {ownerId finish : ℕ}
    (hsame : ∀ i, i < finish → content i = content' i) (records : List Record) :
    ∀ {index offset : ℕ},
    Laid content ownerId finish index offset records →
      Laid content' ownerId finish index offset records := by
  induction records with
  | nil =>
    intro index offset h
    exact h
  | cons r records ih =>
    intro index offset h
    have hle := h.2.offset_le
    refine ⟨?_, ih h.2⟩
    rw [RecordAt, ← h.1]
    exact window_congr fun i _ hi => (hsame i (by omega)).symm

theorem Laid.snoc {content : ℕ → Fin 256} {ownerId finish : ℕ} {r : Record}
    (records : List Record) :
    ∀ {index offset : ℕ}, Laid content ownerId finish index offset records →
      RecordAt content finish ownerId r (index + records.length + 1) finish →
      Laid content ownerId (finish + spanOf r.payload.length) index offset (records ++ [r]) := by
  induction records with
  | nil =>
    intro index offset h hr
    cases h
    exact ⟨hr, rfl⟩
  | cons r' records ih =>
    intro index offset h hr
    refine ⟨h.1, ih h.2 ?_⟩
    rw [List.length_cons, Nat.add_comm records.length, ← Nat.add_assoc index] at hr
    exact hr

/-- The state after a visitor was handed some records. -/
def Owner.seen (st : Owner) (visited : List (RecordKind × RecordSource)) : Owner :=
  { st with visited := visited }

/-- What a visitor is handed for records that stand from an offset on. -/
def sourcesFrom : ℕ → List Record → List (RecordKind × RecordSource)
  | _, [] => []
  | offset, r :: records =>
    (r.kind, ⟨offset + pageBytes, r.payload.length⟩) :: sourcesFrom
    (offset + spanOf r.payload.length) records

/-- A visit sees the records in order. -/
theorem visitFrom_laid {quiet : Prop} {st : Owner} (hplaced : st.Placed) (hquiet : quiet → st.Quiet)
    (howner : st.ownerId ≤ wordMax) (visit : ℕ → Bool) (records : List Record) :
    ∀ {index offset : ℕ} {visited : List (RecordKind × RecordSource)} {io : List Outcome},
      io <:+ st.io →
    Laid st.view st.ownerId st.committedBytes index offset records →
      index + records.length ≤ wordMax →
    ∃ n ≤ records.length, ∃ io', io' <:+ st.io ∧
      (visitFrom visit st.committedBytes records.length index offset
        ((st.seen visited).withIo io)).2
        = (st.seen (visited ++ (sourcesFrom offset records).take n)).withIo io' ∧
      (((visitFrom visit st.committedBytes records.length index offset
        ((st.seen visited).withIo io)).1 = .ok () ∧
          ((∀ i, visit i = true) → n = records.length)) ∨
        (∃ failure, (visitFrom visit st.committedBytes records.length index offset
          ((st.seen visited).withIo io)).1 = .error (.thrown failure)) ∧ ¬quiet) := by
  induction records with
  | nil =>
    intro index offset visited io hio hlaid _
    have hend : offset = st.committedBytes := hlaid
    have hrun : visitFrom visit st.committedBytes 0 index offset ((st.seen visited).withIo io)
        = (.ok (), (st.seen visited).withIo io) := by
      unfold visitFrom failIf
      rw [if_neg (not_not.mpr hend)]
      rfl
    refine ⟨0, le_rfl, io, hio, ?_, .inl ⟨?_, fun _ => rfl⟩⟩
    · rw [List.length_nil, hrun, List.take_zero, List.append_nil]
    · rw [List.length_nil, hrun]
  | cons r records ih =>
    intro index offset visited io hio hlaid hcount
    have hle := hlaid.2.offset_le
    rw [List.length_cons] at hcount
    have hplaced' : (st.seen visited).Placed :=
      ⟨hplaced.committed, hplaced.extent, hplaced.displaced⟩
    have hchecked := @looks_checkRecord quiet r (index + 1) (st.seen visited) offset hplaced'
      hquiet howner
      (by omega) hlaid.1 (by show _ ≤ st.committedBytes; omega)
    obtain ⟨io₁, hio₁, hstate, hresult⟩ := hchecked io hio
    rcases hresult with ⟨out, hout, rfl⟩ | ⟨⟨failure, hfailure⟩, hnoisy⟩
    · have hrun : checkRecord st.committedBytes offset (index + 1) ((st.seen visited).withIo io)
          = (.ok (r.kind, ⟨offset + pageBytes, r.payload.length⟩, offset + spanOf r.payload.length),
            (st.seen visited).withIo io₁) := Prod.ext hout hstate
      have hstep : visitFrom visit st.committedBytes (records.length + 1) index offset
            ((st.seen visited).withIo io)
          = (if visit index then visitFrom visit st.committedBytes records.length (index + 1)
              (offset + spanOf r.payload.length) else pure ())
            ((st.seen (visited ++ [(r.kind, ⟨offset + pageBytes, r.payload.length⟩)])).withIo
              io₁) := by
        rw [visitFrom, Command.bind_ok hrun]
        rfl
      rw [List.length_cons, hstep]
      by_cases hvisit : visit index = true
      · rw [if_pos hvisit]
        obtain ⟨n, hn, io', hio', hafter, hend⟩ :=
          @ih (index + 1) (offset + spanOf r.payload.length)
          (visited ++ [(r.kind, ⟨offset + pageBytes, r.payload.length⟩)]) io₁ hio₁
            hlaid.2 (by omega)
        refine ⟨n + 1, Nat.succ_le_succ hn, io', hio', ?_, ?_⟩
        · rw [hafter, sourcesFrom, List.take_succ_cons, List.append_assoc]
          rfl
        · rcases hend with ⟨hreturns, hall⟩ | hthrows
          · exact .inl ⟨hreturns, fun h => by rw [hall h]⟩
          · exact .inr hthrows
      · rw [if_neg hvisit]
        refine ⟨1, by omega, io₁, hio₁, ?_, .inl ⟨rfl, fun h => absurd (h index) hvisit⟩⟩
        rw [sourcesFrom, List.take_succ_cons, List.take_zero]
        rfl
    · have hrun : checkRecord st.committedBytes offset (index + 1) ((st.seen visited).withIo io)
          = (.error (.thrown failure), (st.seen visited).withIo io₁) := Prod.ext hfailure hstate
      have hstep : visitFrom visit st.committedBytes (records.length + 1) index offset
            ((st.seen visited).withIo io)
              = (.error (.thrown failure), (st.seen visited).withIo io₁) := by
        rw [visitFrom, Command.bind_error hrun]
      refine ⟨0, Nat.zero_le _, io₁, hio₁, ?_, .inr ⟨⟨failure, ?_⟩, hnoisy⟩⟩
      · rw [List.length_cons, hstep, List.take_zero, List.append_nil]
      · rw [List.length_cons, hstep]

end PineForge.History
