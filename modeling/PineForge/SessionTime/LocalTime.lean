import Mathlib
import PineForge.SessionTime.UtcBars

/-!
# The local-time memo

Eight slots remember, each for the spelling of a zone, an interval of seconds over which libc gave
one offset, flag and abbreviation; inside it the fields of a second are the civil fields of the
second plus the offset. An interval grows from probes twelve hours apart. Where the transitions of a
zone lie further apart than that, two probes in one state leave no room for another state between
them (`Spaced.const`), so every interval is in its state throughout (`Slot.Sound`), and no sequence
of reads can be told from libc's own answers (`decompose_run`).
-/

namespace PineForge.SessionTime

open Calendar

/-! ## Names of zones -/

/-- The spelling of a zone. -/
abbrev ZoneName := List Char

/-- `UTC`. -/
def utcName : ZoneName := ['U', 'T', 'C']

/-- The spellings read as UTC at once. -/
def plainUtcSpelling (tz : ZoneName) : Bool :=
  tz = [] ∨ tz = utcName ∨ tz = "Etc/UTC".toList ∨ tz = "GMT".toList ∨ tz = "Etc/GMT".toList

/-- One digit or more. -/
def allDigits (s : List Char) : Bool := s ≠ [] ∧ s.all Char.isDigit

/-- `std::stoi` of digits, refused past the largest `int`. -/
def timezoneOffsetPart (s : List Char) : Option ℕ :=
  let value := s.foldl (fun n c => n * 10 + (c.toNat - '0'.toNat)) 0
  if value ≤ 2147483647 then some value else none

/-- The hours and minutes of an offset, as texts. -/
def splitOffset (body : List Char) : List Char × List Char :=
  if ':' ∈ body then (body.takeWhile (· ≠ ':'), (body.dropWhile (· ≠ ':')).tail)
  else if body.length > 2 then (body.take (body.length - 2), body.drop (body.length - 2))
  else (body, ['0'])

/-- The value of `TZ` for a spelling, or nothing where the offset's number is refused. -/
def normalizeTimezoneForPosix (tz : ZoneName) : Option ZoneName :=
  if plainUtcSpelling tz then some utcName
  else if tz.take 3 = "GMT".toList ∨ tz.take 3 = utcName then
    match tz.drop 3 with
    | [] => some tz
    | sign :: body =>
      if sign ≠ '+' ∧ sign ≠ '-' then some tz
      else
        let parts := splitOffset body
        if ¬ (allDigits parts.1 ∧ allDigits parts.2) then some tz
        else do
          let hours ← timezoneOffsetPart parts.1
          let minutes ← timezoneOffsetPart parts.2
          if hours > 23 ∨ minutes > 59 then some tz
          else if hours = 0 ∧ minutes = 0 then some utcName
          else
            some (utcName ++ [if sign = '+' then '-' else '+'] ++ Nat.toDigits 10 hours
              ++ if minutes ≠ 0 then
                  ':' :: (if minutes < 10 then ['0'] else []) ++ Nat.toDigits 10 minutes
                else [])
  else some tz

/-- A value of `TZ` that reads as UTC. -/
def utcTarget (target : ZoneName) : Prop :=
  target = [] ∨ target = utcName ∨ target = "Etc/UTC".toList

instance (target : ZoneName) : Decidable (utcTarget target) := inferInstanceAs (Decidable (_ ∨ _))

/-- Whether a name's POSIX form is UTC. -/
def normalizesToUtc (tz : ZoneName) : Option Bool :=
  (normalizeTimezoneForPosix tz).map fun target => utcTarget target

/-! ## libc -/

/-- A broken-down local time. -/
structure LocalTm where
  tm : Tm
  gmtoff : ℤ
  zone : Option (List Char)
deriving DecidableEq, Repr

/-- What a reader of the fields sees: all but the abbreviation. -/
def LocalTm.seen (t : LocalTm) : Tm × ℤ := (t.tm, t.gmtoff)

/-- `localtime_r` under a value of `TZ`, and `gmtime_r`. UTC has the civil fields. -/
structure Libc where
  localtime : ZoneName → ℤ → Option LocalTm
  gmtime : ℤ → Option LocalTm
  gmtime_civil : ∀ secs, inCivilSpan secs → (gmtime secs).map LocalTm.seen
    = some (civilFields secs, 0)
  localtime_utc : ∀ target secs, utcTarget target →
    (localtime target secs).map LocalTm.seen = (gmtime secs).map LocalTm.seen

/-- What a call leaves: an exception of the zone's name, a failure of libc, or the fields. -/
inductive Reading
  | refused
  | failed
  | fields (seen : Tm × ℤ)
deriving DecidableEq, Repr

/-- A reading of the C library. -/
def Reading.ofLibc : Option LocalTm → Reading
  | none => .failed
  | some t => .fields t.seen

/-- libc's own answer for an instant. -/
def Libc.answer (libc : Libc) (ms : ℤ) (tz : ZoneName) : Reading :=
  match normalizeTimezoneForPosix tz with
  | none => .refused
  | some target => .ofLibc (libc.localtime target (ms.tdiv 1000))

/-! ## The memo -/

/-- Half a day. -/
def probeGap : ℤ := 12 * 3600

/-- The steps a bridge may take. -/
def bridgeSteps : ℤ := 4

/-- The steps to an edge. -/
def reachSteps : ℕ := 60

/-- The offset, flag and abbreviation of a zone. -/
structure ZoneState where
  gmtoff : ℤ
  isdst : ℤ
  abbr : List Char
deriving DecidableEq, Repr

/-- A zone's state over a range. -/
structure Slot where
  zone : ZoneName
  utc : Bool
  lo : ℤ
  hi : ℤ
  state : ZoneState
  lastRead : ℕ
deriving DecidableEq, Repr

/-- The slots and the clock of their use. -/
structure Memo where
  slots : List Slot
  clock : ℕ
deriving DecidableEq, Repr

/-- Eight unused slots. -/
def Memo.empty : Memo := ⟨List.replicate 8 ⟨[], false, 0, 0, ⟨0, 0, []⟩, 0⟩, 0⟩

/-- The next tick. -/
def tick (clock : ℕ) : ℕ := (clock + 1) % 2 ^ 64

/-- Whether a slot is of a zone. -/
def holdsZone (slot : Slot) (tz : ZoneName) : Bool := slot.zone ≠ [] ∧ slot.zone = tz

/-- The civil fields are the same. -/
def sameCivilFields (a b : Tm) : Bool :=
  a.sec = b.sec ∧ a.min = b.min ∧ a.hour = b.hour ∧ a.mday = b.mday ∧ a.mon = b.mon ∧
    a.year = b.year ∧
    a.wday = b.wday ∧ a.yday = b.yday

/-- A reading is in a state. -/
def sameState (t : LocalTm) (state : ZoneState) : Bool :=
  t.gmtoff = state.gmtoff ∧ t.tm.isdst = state.isdst ∧ t.zone = some state.abbr

/-- The slot that gives way: the first unused one, else the one read longest ago. -/
def claimFrom : List Slot → ℕ → ℕ → ℕ → ℕ
  | [], _, best, _ => best
  | slot :: rest, index, best, bestRead =>
    if slot.zone = [] then index
    else if slot.lastRead < bestRead then claimFrom rest (index + 1) index slot.lastRead
    else claimFrom rest (index + 1) best bestRead

/-- The slot to claim. -/
def claimIndex (slots : List Slot) : ℕ :=
  claimFrom slots 0 0 ((slots.head?.map Slot.lastRead).getD 0)

/-- Claim a slot for a zone. -/
def claimZoneSlot (memo : Memo) (tz : ZoneName) (utc : Bool) (fill : Slot → Slot) : Memo :=
  let clock := tick memo.clock
  ⟨memo.slots.modify (claimIndex memo.slots)
    fun slot => fill { slot with zone := tz, utc, lo := 1, hi := 0, lastRead := clock }, clock⟩

section

variable (libc : Libc) (target : ZoneName)

/-- libc at a second reads a state, and the civil fields of the second plus its offset are
libc's. -/
def stateHolds (state : ZoneState) (secs : ℤ) : Bool :=
  match libc.localtime target secs with
  | none => false
  | some probe => sameState probe state ∧
    sameCivilFields (civilFields (secs + state.gmtoff)) probe.tm

/-- Every probe gap strictly between two seconds reads the state. -/
def bridgesFrom (state : ZoneState) (probe last : ℤ) : Bool :=
  if probe < last then
    stateHolds libc target state probe && bridgesFrom state (probe + probeGap) last
  else true
termination_by (last - probe).toNat
decreasing_by
  unfold probeGap
  omega

/-- The state holds between two instants. -/
def bridges (state : ZoneState) (first last : ℤ) : Bool :=
  bridgesFrom libc target state (first + probeGap) last

/-- The edge of the state between a second in it and one outside. -/
def bisectEdge (state : ZoneState) (inside outside : ℤ) : ℤ :=
  if inside - outside > 1 ∨ outside - inside > 1 then
    let mid := inside + (outside - inside).tdiv 2
    if stateHolds libc target state mid then bisectEdge state mid outside
    else bisectEdge state inside mid
  else inside
termination_by (outside - inside).natAbs
decreasing_by
  · grind
  · grind

/-- Step to the edge of a state. -/
def reachFrom (state : ZoneState) (direction : ℤ) : ℕ → ℤ → ℤ
  | 0, inside => inside
  | steps + 1, inside =>
    let outside := inside + direction * probeGap
    if stateHolds libc target state outside then reachFrom state direction steps outside
    else bisectEdge libc target state inside outside

/-- The farthest second in a direction that is still in the state. -/
def reach (state : ZoneState) (first direction : ℤ) : ℤ :=
  reachFrom libc target state direction reachSteps first

/-- A slot joins a second in its state: it bridges the gap, and reaches on. -/
def joinSlot (tz : ZoneName) (secs : ℤ) (out : LocalTm) (clock : ℕ) (slot : Slot) : Option Slot :=
  if ¬ holdsZone slot tz ∨ slot.lo > slot.hi ∨ ¬ sameState out slot.state then none
  else if secs > slot.hi ∧ secs - slot.hi ≤ bridgeSteps * probeGap ∧
      bridges libc target slot.state slot.hi secs then
    some { slot with hi := reach libc target slot.state secs 1, lastRead := clock }
  else if secs < slot.lo ∧ slot.lo - secs ≤ bridgeSteps * probeGap ∧
      bridges libc target slot.state secs slot.lo then
    some { slot with lo := reach libc target slot.state secs (-1), lastRead := clock }
  else none

/-- Join a reading to the first slot that takes it. -/
def joinFirst (tz : ZoneName) (secs : ℤ) (out : LocalTm) (clock : ℕ) :
    List Slot → Option (List Slot)
  | [] => none
  | slot :: rest =>
    match joinSlot libc target tz secs out clock slot with
    | some joined => some (joined :: rest)
    | none => (joinFirst tz secs out clock rest).map (slot :: ·)

/-- How far a state is probed. -/
def margin : ℤ := (bridgeSteps + reachSteps + 1) * probeGap + 2 * 86400

/-- An answer of libc is remembered: by a slot that joins it, else by a claimed one. -/
def remember (memo : Memo) (tz : ZoneName) (secs : ℤ) (out : LocalTm) : Memo :=
  match out.zone with
  | none => memo
  | some abbr =>
    if tz.length > 48 ∨ ¬ inCivilSpan (secs - margin) ∨ ¬ inCivilSpan (secs + margin) ∨
      abbr.length ≥ 16 then
      memo
    else if ¬ sameCivilFields (civilFields (secs + out.gmtoff)) out.tm then memo
    else match joinFirst libc target tz secs out (tick memo.clock) memo.slots with
      | some slots => ⟨slots, tick memo.clock⟩
      | none => claimZoneSlot memo tz false fun slot =>
          { slot with state := ⟨out.gmtoff, out.tm.isdst, abbr⟩, lo := secs, hi := secs }

end

section

variable (libc : Libc)

/-- A reading in UTC. -/
def utcReading (secs : ℤ) : Reading :=
  if inCivilSpan secs then .fields (civilFields secs, 0) else .ofLibc (libc.gmtime secs)

/-- The first slot that answers for a zone, and the slots after that read. -/
def readFrom (tz : ZoneName) (secs : ℤ) (clock : ℕ) : List Slot → Option (Slot × List Slot)
  | [] => none
  | slot :: rest =>
    if holdsZone slot tz ∧ (slot.utc ∨ slot.lo ≤ secs ∧ secs ≤ slot.hi) then
      some (slot, { slot with lastRead := clock } :: rest)
    else (readFrom tz secs clock rest).map fun r => (r.1, slot :: r.2)

/-- A reading from a slot. -/
def Slot.reading (slot : Slot) (secs : ℤ) : Reading :=
  .fields ({ civilFields (secs + slot.state.gmtoff) with isdst := slot.state.isdst },
    slot.state.gmtoff)

/-- `localtime_r` under the zone. -/
def askLibc (memo : Memo) (tz : ZoneName) (secs : ℤ) : Reading × Memo :=
  match normalizeTimezoneForPosix tz with
  | none => (.refused, memo)
  | some target =>
    match libc.localtime target secs with
    | none => (.failed, memo)
    | some out => (.fields out.seen, remember libc target memo tz secs out)

/-- `decompose_ms_local`. -/
def decomposeMsLocal (memo : Memo) (barMs : ℤ) (tz : ZoneName) : Reading × Memo :=
  let secs := barMs.tdiv 1000
  if plainUtcSpelling tz then (utcReading libc secs, memo)
  else
    match readFrom tz secs (tick memo.clock) memo.slots with
    | some (slot, slots) =>
      (if slot.utc then utcReading libc secs else slot.reading secs, ⟨slots, tick memo.clock⟩)
    | none =>
      if memo.slots.any (holdsZone · tz) then askLibc libc memo tz secs
      else
        match normalizesToUtc tz with
        | none => (.refused, memo)
        | some true =>
          (utcReading libc secs, if tz.length ≤ 48 then claimZoneSlot memo tz true id else memo)
        | some false => askLibc libc memo tz secs

/-- A thread's reads, one after the other. -/
def readings (memo : Memo) : List (ℤ × ZoneName) → List Reading
  | [] => []
  | (barMs, tz) :: rest =>
    (decomposeMsLocal libc memo barMs tz).1 :: readings (decomposeMsLocal libc memo barMs tz).2 rest

end

/-! ## Functions with spaced changes -/

section

variable {α : Type} {f : ℤ → α} {gap a b : ℤ}

/-- The changes of a function of integers lie more than a gap apart. -/
def Spaced (gap : ℤ) (f : ℤ → α) : Prop :=
  ∀ s t, s < t → f (s - 1) ≠ f s → f (t - 1) ≠ f t → gap < t - s

theorem exists_change (hab : a ≤ b) (h : f a ≠ f b) : ∃ t, a < t ∧ t ≤ b ∧ f (t - 1) ≠ f t := by
  induction b, hab using Int.leInduction with
  | base => exact absurd rfl h
  | succ b hab ih =>
    by_cases hb : f a = f b
    · refine ⟨b + 1, by omega, le_rfl, ?_⟩
      rw [add_sub_cancel_right, ← hb]
      exact h
    · obtain ⟨t, hat, htb, ht⟩ := ih hb
      exact ⟨t, hat, by omega, ht⟩

theorem Spaced.const (h : Spaced gap f) (hgap : b - a ≤ gap) (hf : f a = f b) {c : ℤ}
    (hac : a ≤ c) (hcb : c ≤ b) : f c = f a := by
  by_contra hc
  obtain ⟨s, has, hsc, hs⟩ := exists_change hac (Ne.symm hc)
  obtain ⟨t, hct, htb, ht⟩ := exists_change hcb (fun hcb' => hc (hcb'.trans hf.symm))
  have hlt := h s t (by omega) hs ht
  omega

/-- A value is taken all through the integers between two, in either order. -/
def Spans (f : ℤ → α) (v : α) (a b : ℤ) : Prop := ∀ c, min a b ≤ c → c ≤ max a b → f c = v

theorem Spans.trans {v : α} {c : ℤ} (hab : Spans f v a b) (hbc : Spans f v b c) :
    Spans f v a c := by
  intro x hlow hhigh
  by_cases hx : min a b ≤ x ∧ x ≤ max a b
  · exact hab x hx.1 hx.2
  · exact hbc x (by omega) (by omega)

theorem Spans.self {v : α} (h : f a = v) : Spans f v a a := by
  intro c hlow hhigh
  rwa [show c = a by omega]

theorem Spaced.spans {v : α} (h : Spaced gap f) (ha : f a = v) (hb : f b = v)
    (hgap : |b - a| ≤ gap) :
    Spans f v a b := by
  intro c hlow hhigh
  obtain hab | hba := le_total a b
  · rw [← ha]
    rw [abs_of_nonneg (by omega)] at hgap
    exact h.const hgap (ha.trans hb.symm) (by omega) (by omega)
  · rw [← hb]
    rw [abs_of_nonpos (by omega)] at hgap
    exact h.const (by omega) (hb.trans ha.symm) (by omega) (by omega)

end

/-! ## Probes -/

section

variable {libc : Libc} {target : ZoneName} {state : ZoneState}

variable (libc target) in
/-- The state of a zone at a second, where its fields are the civil ones plus the offset. -/
def stateAt (secs : ℤ) : Option ZoneState :=
  match libc.localtime target secs with
  | none => none
  | some t =>
    match t.zone with
    | none => none
    | some abbr =>
      if sameCivilFields (civilFields (secs + t.gmtoff)) t.tm then some ⟨t.gmtoff, t.tm.isdst, abbr⟩
        else none

theorem sameState_iff (t : LocalTm) (state : ZoneState) : sameState t state = true ↔
    t.gmtoff = state.gmtoff ∧ t.tm.isdst = state.isdst ∧ t.zone = some state.abbr := by
  unfold sameState
  rw [decide_eq_true_iff]

theorem stateHolds_iff (secs : ℤ) :
    stateHolds libc target state secs = true ↔ stateAt libc target secs = some state := by
  unfold stateHolds stateAt
  cases libc.localtime target secs with
  | none => simp
  | some t =>
    dsimp only
    rw [decide_eq_true_iff, sameState_iff]
    cases hzone : t.zone with
    | none => simp
    | some abbr =>
      dsimp only
      obtain ⟨gmtoff, isdst, text⟩ := state
      constructor
      · rintro ⟨⟨rfl, rfl, habbr⟩, hcivil⟩
        cases habbr
        rw [if_pos hcivil]
      · intro h
        split at h
        · cases h
          exact ⟨⟨rfl, rfl, rfl⟩, ‹_›⟩
        · cases h

theorem sameCivilFields_iff (a b : Tm) :
    sameCivilFields a b = true ↔ b = { a with isdst := b.isdst } := by
  unfold sameCivilFields
  rw [decide_eq_true_iff]
  obtain ⟨sec, min, hour, mday, mon, year, wday, yday, isdst⟩ := a
  obtain ⟨sec', min', hour', mday', mon', year', wday', yday', isdst'⟩ := b
  constructor
  · rintro ⟨h1, h2, h3, h4, h5, h6, h7, h8⟩
    dsimp only at *
    rw [h1, h2, h3, h4, h5, h6, h7, h8]
  · intro h
    injection h with h1 h2 h3 h4 h5 h6 h7 h8
    exact ⟨h1.symm, h2.symm, h3.symm, h4.symm, h5.symm, h6.symm, h7.symm, h8.symm⟩

theorem ofLibc_of_stateAt {secs : ℤ} (h : stateAt libc target secs = some state) :
    Reading.ofLibc (libc.localtime target secs)
      = .fields ({ civilFields (secs + state.gmtoff) with isdst := state.isdst },
        state.gmtoff) := by
  rw [← stateHolds_iff] at h
  unfold stateHolds at h
  cases hlocal : libc.localtime target secs with
  | none =>
    rw [hlocal] at h
    cases h
  | some t =>
    rw [hlocal] at h
    dsimp only at h
    rw [decide_eq_true_iff, sameState_iff, sameCivilFields_iff] at h
    obtain ⟨⟨hoff, hdst, -⟩, hcivil⟩ := h
    rw [hdst] at hcivil
    change Reading.fields (t.tm, t.gmtoff) = _
    rw [hcivil, hoff]

theorem abs_step (secs : ℤ) {direction : ℤ} (h : |direction| = 1) :
    |secs + direction * probeGap - secs| ≤ probeGap := by
  rw [add_sub_cancel_left, abs_mul, h, one_mul]
  exact le_of_eq (abs_of_nonneg (by decide))

variable (hspaced : Spaced probeGap (stateAt libc target))
include hspaced

theorem bridgesFrom_spans {probe last : ℤ}
    (hfirst : stateAt libc target (probe - probeGap) = some state)
    (hlast : stateAt libc target last = some state) (hle : probe - probeGap ≤ last)
    (h : bridgesFrom libc target state probe last = true) :
    Spans (stateAt libc target) (some state) (probe - probeGap) last := by
  fun_induction bridgesFrom libc target state probe last with
  | case1 probe hlt ih =>
    rw [Bool.and_eq_true, stateHolds_iff] at h
    have hstep := hspaced.spans hfirst h.1 (by
      rw [sub_sub_cancel]
      exact le_of_eq (abs_of_nonneg (by decide)))
    rw [add_sub_cancel_right] at ih
    exact hstep.trans (ih h.1 hlt.le h.2)
  | case2 probe hge =>
    refine hspaced.spans hfirst hlast ?_
    rw [abs_of_nonneg (by omega)]
    omega

theorem bridges_spans {first last : ℤ} (hfirst : stateAt libc target first = some state)
    (hlast : stateAt libc target last = some state) (hle : first ≤ last)
    (h : bridges libc target state first last = true) :
    Spans (stateAt libc target) (some state) first last := by
  have hspans := bridgesFrom_spans hspaced
    (show stateAt libc target (first + probeGap - probeGap)
      = some state by rwa [add_sub_cancel_right])
    hlast (by omega) h
  rwa [add_sub_cancel_right] at hspans

theorem bisectEdge_spans {inside outside : ℤ} (hinside : stateAt libc target inside = some state)
    (hgap : |outside - inside| ≤ probeGap) :
    Spans (stateAt libc target) (some state) inside
      (bisectEdge libc target state inside outside) := by
  fun_induction bisectEdge libc target state inside outside with
  | case1 inside outside hwide mid hmid ih =>
    rw [stateHolds_iff] at hmid
    have hhalf : |outside - mid| ≤ |outside - inside| ∧ |mid - inside| ≤ |outside - inside| := by
      grind
    exact (hspaced.spans hinside hmid (hhalf.2.trans hgap)).trans (ih hmid (hhalf.1.trans hgap))
  | case2 inside outside hwide mid hmid ih =>
    have hhalf : |mid - inside| ≤ |outside - inside| := by grind
    exact ih hinside (hhalf.trans hgap)
  | case3 inside outside hnarrow => exact Spans.self hinside

theorem reachFrom_spans (direction : ℤ) (hdirection : |direction| = 1) (steps : ℕ) {inside : ℤ}
    (hinside : stateAt libc target inside = some state) :
    Spans (stateAt libc target) (some state) inside
      (reachFrom libc target state direction steps inside) := by
  induction steps generalizing inside with
  | zero => exact Spans.self hinside
  | succ steps ih =>
    unfold reachFrom
    dsimp only
    have hgap := abs_step inside hdirection
    split
    · rename_i hout
      rw [stateHolds_iff] at hout
      exact (hspaced.spans hinside hout hgap).trans (ih hout)
    · exact bisectEdge_spans hspaced hinside hgap

end

/-! ## Sound slots -/

section

variable {libc : Libc} {tz target : ZoneName} {secs : ℤ}

variable (libc) in
/-- A used slot is of a zone with a value of `TZ`: UTC, or in one state through its interval. -/
def Slot.Sound (slot : Slot) : Prop :=
  slot.zone ≠ [] → ∃ target, normalizeTimezoneForPosix slot.zone = some target ∧
    (slot.utc = true → utcTarget target ∧ slot.hi < slot.lo) ∧
    (slot.utc = false → ∀ secs, slot.lo ≤ secs → secs ≤ slot.hi →
      stateAt libc target secs = some slot.state)

variable (libc) in
/-- Every slot reads as the C library does. -/
def Memo.Sound (memo : Memo) : Prop := ∀ slot ∈ memo.slots, slot.Sound libc

theorem Memo.empty_sound : Memo.empty.Sound libc := by
  intro slot hslot hzone
  rw [List.eq_of_mem_replicate hslot] at hzone
  exact absurd rfl hzone

theorem holdsZone_iff (slot : Slot) : holdsZone slot tz = true ↔ slot.zone ≠ [] ∧
    slot.zone = tz := by
  unfold holdsZone
  rw [decide_eq_true_iff]

theorem utcReading_eq (htarget : utcTarget target) (secs : ℤ) :
    utcReading libc secs = .ofLibc (libc.localtime target secs) := by
  have hofLibc : ∀ t u : Option LocalTm, t.map LocalTm.seen = u.map LocalTm.seen →
      Reading.ofLibc t = .ofLibc u := by
    rintro (- | t) (- | u) h
    · rfl
    · cases h
    · cases h
    · exact congrArg Reading.fields (Option.some.inj h)
  have hutc := libc.localtime_utc target secs htarget
  unfold utcReading
  split
  · rename_i hspan
    rw [libc.gmtime_civil secs hspan] at hutc
    cases hlocal : libc.localtime target secs with
    | none =>
      rw [hlocal] at hutc
      cases hutc
    | some t =>
      rw [hlocal] at hutc
      exact congrArg Reading.fields (Option.some.inj hutc).symm
  · exact (hofLibc _ _ hutc).symm

theorem readFrom_sound {clock : ℕ} {slots slots' : List Slot} {slot : Slot}
    (hslots : ∀ s ∈ slots, s.Sound libc) (h : readFrom tz secs clock slots = some (slot, slots')) :
    (∀ s ∈ slots', s.Sound libc) ∧ slot.Sound libc ∧ holdsZone slot tz = true ∧
      (slot.utc = false → slot.lo ≤ secs ∧ secs ≤ slot.hi) := by
  induction slots generalizing slots' with
  | nil => cases h
  | cons first rest ih =>
    obtain ⟨hfirst, hrest⟩ := List.forall_mem_cons.mp hslots
    unfold readFrom at h
    split at h
    · rename_i hread
      cases h
      refine ⟨List.forall_mem_cons.mpr ⟨hfirst, hrest⟩, hfirst, hread.1, fun hutc => ?_⟩
      obtain hyes | hin := hread.2
      · rw [hutc] at hyes
        cases hyes
      · exact hin
    · rw [Option.map_eq_some_iff] at h
      obtain ⟨⟨found, slots''⟩, hfound, heq⟩ := h
      cases heq
      obtain ⟨hleft, hslot⟩ := ih hrest hfound
      exact ⟨List.forall_mem_cons.mpr ⟨hfirst, hleft⟩, hslot⟩

theorem claimZoneSlot_sound {memo : Memo} (hmemo : memo.Sound libc) (utc : Bool)
    (fill : Slot → Slot)
    (hfill : ∀ slot : Slot,
      (fill { slot with zone := tz, utc, lo := 1, hi := 0, lastRead := tick memo.clock }).Sound
        libc) :
    (claimZoneSlot memo tz utc fill).Sound libc := by
  intro slot hslot
  unfold claimZoneSlot at hslot
  obtain ⟨i, hi, rfl⟩ := List.getElem_of_mem hslot
  dsimp only
  rw [List.getElem_modify]
  split
  · exact hfill _
  · exact hmemo _ (List.getElem_mem _)

variable (hspaced : Spaced probeGap (stateAt libc target))
include hspaced

/-- A joined slot is sound. -/
theorem joinSlot_sound (hnorm : normalizeTimezoneForPosix tz = some target)
    {out : LocalTm} {clock : ℕ}
    {slot joined : Slot} (hslot : slot.Sound libc)
    (hsecs : ∀ state, sameState out state = true → stateAt libc target secs = some state)
    (h : joinSlot libc target tz secs out clock slot = some joined) : joined.Sound libc := by
  unfold joinSlot at h
  split at h
  · cases h
  · rename_i hskip
    rw [not_or, not_or, not_not, not_not, not_lt] at hskip
    obtain ⟨hholds, hle, hsame⟩ := hskip
    obtain ⟨hzone, rfl⟩ := (holdsZone_iff slot).mp hholds
    obtain ⟨target', hnorm', hutc, hin⟩ := hslot hzone
    cases hnorm.symm.trans hnorm'
    have hnot : slot.utc = false := by
      rw [← Bool.not_eq_true]
      intro htrue
      have := (hutc htrue).2
      omega
    have hin := hin hnot
    have hsecs := hsecs _ hsame
    split at h
    · rename_i hlater
      obtain ⟨hgt, -, hbridge⟩ := hlater
      cases h
      refine fun _ => ⟨target, hnorm, fun htrue => absurd (hnot.symm.trans htrue) (by decide),
        fun _ c hlow hhigh => ?_⟩
      dsimp only at hlow hhigh ⊢
      have hspans := bridges_spans hspaced (hin _ hle le_rfl) hsecs (by omega) hbridge
      have hreach := reachFrom_spans hspaced 1 (by decide) reachSteps hsecs
      by_cases hc : c ≤ slot.hi
      · exact hin c hlow hc
      · exact (hspans.trans hreach) c (by unfold reach at hhigh; omega)
          (by unfold reach at hhigh; omega)
    · split at h
      · rename_i hearlier
        obtain ⟨hlt, -, hbridge⟩ := hearlier
        cases h
        refine fun _ => ⟨target, hnorm, fun htrue => absurd (hnot.symm.trans htrue) (by decide),
        fun _ c hlow hhigh => ?_⟩
        dsimp only at hlow hhigh ⊢
        have hspans := bridges_spans hspaced hsecs (hin _ le_rfl hle) (by omega) hbridge
        have hreach := reachFrom_spans hspaced (-1) (by decide) reachSteps hsecs
        by_cases hc : slot.lo ≤ c
        · exact hin c hc hhigh
        · have hback : Spans (stateAt libc target) (some slot.state) slot.lo secs := by
            intro x hx hx'
            exact hspans x (by omega) (by omega)
          exact (hback.trans hreach) c (by unfold reach at hlow; omega)
            (by unfold reach at hlow; omega)
      · cases h

theorem joinFirst_sound (hnorm : normalizeTimezoneForPosix tz = some target)
    {out : LocalTm} {clock : ℕ}
    (hsecs : ∀ state, sameState out state = true → stateAt libc target secs = some state)
    {slots slots' : List Slot} (hslots : ∀ s ∈ slots, s.Sound libc)
    (h : joinFirst libc target tz secs out clock slots = some slots') :
    ∀ s ∈ slots', s.Sound libc := by
  induction slots generalizing slots' with
  | nil => cases h
  | cons slot rest ih =>
    obtain ⟨hslot, hrest⟩ := List.forall_mem_cons.mp hslots
    unfold joinFirst at h
    split at h
    · rename_i joined hjoined
      cases h
      exact List.forall_mem_cons.mpr ⟨joinSlot_sound hspaced hnorm hslot hsecs hjoined, hrest⟩
    · rw [Option.map_eq_some_iff] at h
      obtain ⟨rest', hrest', rfl⟩ := h
      exact List.forall_mem_cons.mpr ⟨hslot, ih hrest hrest'⟩

/-- The memo stays sound when it learns. -/
theorem remember_sound (hnorm : normalizeTimezoneForPosix tz = some target) {memo : Memo}
    (hmemo : memo.Sound libc) {out : LocalTm} (hout : libc.localtime target secs = some out) :
    (remember libc target memo tz secs out).Sound libc := by
  unfold remember
  cases hzone : out.zone with
  | none => exact hmemo
  | some abbr =>
    dsimp only
    split
    · exact hmemo
    · split
      · exact hmemo
      · rename_i hcivil
        rw [not_not] at hcivil
        have hstate : stateAt libc target secs = some ⟨out.gmtoff, out.tm.isdst, abbr⟩ := by
          unfold stateAt
          rw [hout]
          dsimp only
          rw [hzone]
          exact if_pos hcivil
        have hsecs : ∀ state, sameState out state = true → stateAt libc target secs
            = some state := by
          intro state hsame
          obtain ⟨hoff, hdst, habbr⟩ := (sameState_iff out state).mp hsame
          rw [hstate, hoff, hdst, Option.some.inj (hzone.symm.trans habbr)]
        split
        · rename_i slots hjoined
          exact joinFirst_sound hspaced hnorm hsecs hmemo hjoined
        · refine claimZoneSlot_sound hmemo false _ fun slot _ =>
            ⟨target, hnorm, nofun, fun _ c hlow hhigh => ?_⟩
          dsimp only at hlow hhigh ⊢
          rw [show c = secs by omega]
          exact hstate

end

/-! ## Reads -/

section

variable {libc : Libc} (hspaced : ∀ target, Spaced probeGap (stateAt libc target))
include hspaced

theorem askLibc_sound {memo : Memo} (hmemo : memo.Sound libc) (tz : ZoneName) (barMs : ℤ) :
    (askLibc libc memo tz (barMs.tdiv 1000)).1 = libc.answer barMs tz ∧
      (askLibc libc memo tz (barMs.tdiv 1000)).2.Sound libc := by
  unfold askLibc Libc.answer
  cases hnorm : normalizeTimezoneForPosix tz with
  | none => exact ⟨rfl, hmemo⟩
  | some target =>
    dsimp only
    cases hout : libc.localtime target (barMs.tdiv 1000) with
    | none => exact ⟨rfl, hmemo⟩
    | some out => exact ⟨rfl, remember_sound (hspaced target) hnorm hmemo hout⟩

/-- The memo answers as the library. -/
theorem decompose_sound {memo : Memo} (hmemo : memo.Sound libc) (barMs : ℤ) (tz : ZoneName) :
    (decomposeMsLocal libc memo barMs tz).1 = libc.answer barMs tz ∧
      (decomposeMsLocal libc memo barMs tz).2.Sound libc := by
  have hanswer : ∀ target, normalizeTimezoneForPosix tz = some target →
      libc.answer barMs tz = .ofLibc (libc.localtime target (barMs.tdiv 1000)) := by
    intro target hnorm
    unfold Libc.answer
    rw [hnorm]
  unfold decomposeMsLocal
  dsimp only
  split
  · rename_i hplain
    have hnorm : normalizeTimezoneForPosix tz = some utcName := if_pos hplain
    rw [hanswer _ hnorm]
    exact ⟨utcReading_eq (.inr (.inl rfl)) _, hmemo⟩
  · split
    · rename_i slot slots hread
      obtain ⟨hslots, hslot, hholds, hin⟩ := readFrom_sound hmemo hread
      obtain ⟨hzone, rfl⟩ := (holdsZone_iff slot).mp hholds
      obtain ⟨target, hnorm, hutc, hstate⟩ := hslot hzone
      rw [hanswer _ hnorm]
      refine ⟨?_, hslots⟩
      dsimp only
      split
      · rename_i htrue
        exact utcReading_eq (hutc htrue).1 _
      · rename_i hfalse
        rw [Bool.not_eq_true] at hfalse
        obtain ⟨hlow, hhigh⟩ := hin hfalse
        exact (ofLibc_of_stateAt (hstate hfalse _ hlow hhigh)).symm
    · split
      · exact askLibc_sound hspaced hmemo tz barMs
      · split
        · rename_i hnone
          unfold normalizesToUtc at hnone
          rw [Option.map_eq_none_iff] at hnone
          unfold Libc.answer
          rw [hnone]
          exact ⟨rfl, hmemo⟩
        · rename_i htrue
          unfold normalizesToUtc at htrue
          rw [Option.map_eq_some_iff] at htrue
          obtain ⟨target, hnorm, htarget⟩ := htrue
          rw [decide_eq_true_iff] at htarget
          rw [hanswer _ hnorm]
          refine ⟨utcReading_eq htarget _, ?_⟩
          dsimp only
          split
          · refine claimZoneSlot_sound hmemo true id fun slot _ =>
              ⟨target, hnorm, fun _ => ⟨htarget, ?_⟩, nofun⟩
            exact zero_lt_one
          · exact hmemo
        · exact askLibc_sound hspaced hmemo tz barMs

theorem readings_eq {memo : Memo} (hmemo : memo.Sound libc) (reads : List (ℤ × ZoneName)) :
    readings libc memo reads = reads.map fun read => libc.answer read.1 read.2 := by
  induction reads generalizing memo with
  | nil => rfl
  | cons read rest ih =>
    obtain ⟨barMs, tz⟩ := read
    obtain ⟨hread, hsound⟩ := decompose_sound hspaced hmemo barMs tz
    unfold readings
    rw [hread, ih hsound]
    rfl

end

/-- Reads of any zones at any instants, in any order, give libc's own answers. -/
theorem decompose_run (libc : Libc) (hspaced : ∀ target, Spaced probeGap (stateAt libc target))
    (reads : List (ℤ × ZoneName)) :
    readings libc Memo.empty reads = reads.map fun read => libc.answer read.1 read.2 :=
  readings_eq hspaced Memo.empty_sound reads

/-! ## Pyongyang -/

/-- Half an hour more from 2018-05-04 15:00 UTC on. -/
def pyongyangOffset (secs : ℤ) : ℤ := if secs < 1525446000 then 30600 else 32400

/-- libc with UTC, and every other zone on Pyongyang's clock. -/
def pyongyang : Libc where
  localtime target secs :=
    if utcTarget target then some ⟨civilFields secs, 0, some utcName⟩
    else some ⟨civilFields (secs + pyongyangOffset secs), pyongyangOffset secs,
      some ['K', 'S', 'T']⟩
  gmtime secs := some ⟨civilFields secs, 0, some ['G', 'M', 'T']⟩
  gmtime_civil _ _ := rfl
  localtime_utc target secs h := by
    rw [if_pos h]
    rfl

theorem sameCivilFields_self (t : Tm) : sameCivilFields t t = true :=
  (sameCivilFields_iff t t).mpr rfl

/-- Its changes lie further than a probe. -/
theorem pyongyang_spaced (target : ZoneName) : Spaced probeGap (stateAt pyongyang target) := by
  intro s t hlt hs ht
  by_cases htarget : utcTarget target
  · exfalso
    have hstate : ∀ secs, stateAt pyongyang target secs = some ⟨0, 0, utcName⟩ := by
      intro secs
      unfold stateAt pyongyang
      dsimp only
      rw [if_pos htarget]
      dsimp only
      rw [add_zero, if_pos (sameCivilFields_self _)]
      rfl
    exact hs (by rw [hstate, hstate])
  · have hstate : ∀ secs, stateAt pyongyang target secs
        = some ⟨pyongyangOffset secs, 0, ['K', 'S', 'T']⟩ := by
      intro secs
      unfold stateAt pyongyang
      dsimp only
      rw [if_neg htarget]
      dsimp only
      rw [if_pos (sameCivilFields_self _)]
      rfl
    have hchange : ∀ u, stateAt pyongyang target (u - 1) ≠ stateAt pyongyang target u →
        u = 1525446000 := by
      intro u hu
      by_contra hne
      rw [hstate, hstate] at hu
      refine hu ?_
      unfold pyongyangOffset
      split <;> split <;> first | rfl | omega
    rw [hchange s hs, hchange t ht] at hlt
    exact absurd hlt (lt_irrefl _)

/-- Around the change, with another zone between. -/
theorem decompose_run_pyongyang :
    readings pyongyang Memo.empty [(1525440000000, "Asia/Pyongyang".toList),
      (1525447000000, "GMT+0".toList),
        (1525447000000, "Asia/Pyongyang".toList), (1525441000000, "Asia/Pyongyang".toList)]
      = [(1525440000000, "Asia/Pyongyang".toList), (1525447000000, "GMT+0".toList),
        (1525447000000, "Asia/Pyongyang".toList), (1525441000000, "Asia/Pyongyang".toList)].map
          fun read => pyongyang.answer read.1 read.2 :=
  decompose_run pyongyang pyongyang_spaced _

end PineForge.SessionTime
