import Mathlib
import PineForge.MultiDay.Lookups

/-!
# The stamps of the periods

The partition begins with the last period that opens at or before the first held day. The stamp of
an open is that of its bar, or the stamp of the session day of its local noon where no bar holds it.
A date without such a noon and a stamp that does not come after the one before refuse the partition.
What the generator gives until it ends or refuses is the beginning of the table (`accept`), and it
ends without refusing where the table is complete and increasing (`accept_eq_iff`).
-/

namespace PineForge.MultiDay

/-- The generator of stamps. -/
structure Stamps (H : Type) where
  scan : Scan H
  ahead : Option Open
  started : Bool
  done : Bool
  previous : Option ℤ

/-- The partition is refused. -/
def Stamps.refuse {H : Type} (st : Stamps H) : Stamps H :=
  { st with scan := { st.scan with failed := true } }

/-- The stamp of an open. -/
def openStamp (s : Sessions) (o : Open) : Option ℤ :=
  match o.held with
  | some value => some value
  | none => s.noonOpen o.date

section

variable {H : Type} (p : Params) (find : ℤ → H → Option (Option ℤ) × H)

/-- The next open of the partition. -/
def takeOpen (st : Stamps H) : Option Open × Stamps H :=
  if st.started then
    match st.ahead with
    | some o => (some o, { st with ahead := none })
    | none =>
      match nextOpen p find st.scan with
      | (none, scan) => (none, { st with scan := scan, done := true })
      | (some o, scan) => (some o, { st with scan := scan })
  else
    match (openDates p find).lastWhile (·.date ≤ p.first) none st.scan with
    | (none, ahead, scan) => (none,
      Stamps.refuse { st with started := true, ahead := ahead, scan := scan })
    | (some o, ahead, scan) => (some o, { st with started := true, ahead := ahead, scan := scan })

variable (s : Sessions)

/-- The next stamp, or a refusal. -/
def nextStamp (st : Stamps H) : Option ℤ × Stamps H :=
  if st.scan.failed ∨ st.done then (none, st)
  else
    match takeOpen p find st with
    | (none, st) => (none, st)
    | (some o, st) =>
      match openStamp s o with
      | none => (none, st.refuse)
      | some stamp =>
        if st.previous.any (stamp ≤ ·) then (none, st.refuse)
        else (some stamp, { st with previous := some stamp })

/-- What is left to scan. -/
def stampsSize (st : Stamps H) : ℕ := scanSize p st.scan + st.ahead.toList.length

theorem takeOpen_size (st : Stamps H) :
    stampsSize p (takeOpen p find st).2 + (takeOpen p find st).1.toList.length
      ≤ stampsSize p st := by
  unfold takeOpen
  split
  · split
    · rename_i o hahead
      simp [stampsSize, hahead]
    · rename_i hahead
      have hsize := nextOpen_size p find st.scan
      split
      · rename_i scan hnext
        rw [hnext] at hsize
        simpa [stampsSize, hahead] using hsize
      · rename_i o scan hnext
        rw [hnext] at hsize
        simpa [stampsSize, hahead] using hsize
  · have hsize := (openDates p find).lastWhile_size (·.date ≤ p.first) none st.scan
    split
    · rename_i ahead scan hlast
      rw [hlast] at hsize
      change scanSize p scan + 0 + ahead.toList.length ≤ scanSize p st.scan + 0 at hsize
      change scanSize p scan + ahead.toList.length + 0 ≤ scanSize p st.scan + st.ahead.toList.length
      omega
    · rename_i o ahead scan hlast
      rw [hlast] at hsize
      change scanSize p scan + 1 + ahead.toList.length ≤ scanSize p st.scan + 0 at hsize
      change scanSize p scan + ahead.toList.length + 1 ≤ scanSize p st.scan + st.ahead.toList.length
      omega

theorem nextStamp_size (st : Stamps H) :
    stampsSize p (nextStamp p find s st).2 + (nextStamp p find s st).1.toList.length
      ≤ stampsSize p st := by
  have hsize := takeOpen_size p find st
  unfold nextStamp
  split
  · simp
  · split
    · rename_i st' htake
      rw [htake] at hsize
      exact hsize
    · rename_i o st' htake
      rw [htake] at hsize
      have hless : stampsSize p st' + 1 ≤ stampsSize p st := hsize
      have hrefused : stampsSize p st'.refuse = stampsSize p st' := rfl
      split
      · rw [hrefused, Option.toList_none, List.length_nil]
        omega
      · split
        · rw [hrefused, Option.toList_none, List.length_nil]
          omega
        · exact hless

/-- The stamps of the partition, until it ends or is refused. -/
def stamps : Generator (Stamps H) ℤ where
  next := nextStamp p find s
  size := stampsSize p
  shrinks st o h := by
    have := nextStamp_size p find s st
    rw [h, Option.toList_some, List.length_singleton] at this
    omega
  ends st h := by
    have := nextStamp_size p find s st
    rw [h, Option.toList_none, List.length_nil] at this
    omega

/-- Before the first stamp. -/
def stampsStart (held : H) : Stamps H :=
  ⟨⟨held, p.firstYear, yearFirst p.firstYear, yearFirst (p.firstYear + 1), 0, false⟩, none,
    false, false, none⟩

end

/-! ## The table -/

/-- The opens from the last at or before the first held day on. -/
def fromFirst (p : Params) (os : List Open) : Option (List Open) :=
  ((os.takeWhile (·.date ≤ p.first)).getLast?).map (· :: os.dropWhile (·.date ≤ p.first))

/-- The stamps of a partition, where every open has one. -/
def stampsOf (s : Sessions) (p : Params) (stamp : ℤ → Option ℤ) : Option (List ℤ) :=
  (fromFirst p (opens p stamp)).bind (·.mapM (openStamp s))

theorem stampsOf_ne_nil {s : Sessions} {p : Params} {stamp : ℤ → Option ℤ} {table : List ℤ}
    (h : stampsOf s p stamp = some table) : table ≠ [] := by
  obtain ⟨os, hos, hmap⟩ := Option.bind_eq_some_iff.mp h
  obtain ⟨o, -, rfl⟩ := Option.map_eq_some_iff.mp hos
  rintro rfl
  rw [List.mapM_cons] at hmap
  obtain ⟨_, _, hrest⟩ := Option.bind_eq_some_iff.mp hmap
  obtain ⟨_, _, hnil⟩ := Option.bind_eq_some_iff.mp hrest
  cases hnil

/-- The stamps of opens up to the first that has none or that does not come after the one before,
and whether there is such. -/
def accept (s : Sessions) : Option ℤ → List Open → List ℤ × Bool
  | _, [] => ([], false)
  | previous, o :: os =>
    match openStamp s o with
    | none => ([], true)
    | some stamp =>
      if previous.any (stamp ≤ ·) then ([], true)
      else (stamp :: (accept s (some stamp) os).1, (accept s (some stamp) os).2)

/-- The stamps are accepted where they increase. -/
theorem accept_eq_iff (s : Sessions) (previous : Option ℤ) (os : List Open) (table : List ℤ) :
    accept s previous os = (table, false) ↔
      os.mapM (openStamp s) = some table ∧ (previous.toList ++ table).IsChain (· < ·) := by
  induction os generalizing previous table with
  | nil =>
    rw [accept, List.mapM_nil, Prod.mk.injEq]
    constructor
    · rintro ⟨rfl, -⟩
      refine ⟨rfl, ?_⟩
      cases previous with
      | none => exact .nil
      | some l => exact .singleton l
    · rintro ⟨h, -⟩
      exact ⟨Option.some.inj h, rfl⟩
  | cons o os ih =>
    rw [accept, List.mapM_cons]
    cases hstamp : openStamp s o with
    | none => exact iff_of_false (by simp) (by simp)
    | some stamp =>
      have hmap : ∀ table, (do let t ← some stamp; let ts ← os.mapM (openStamp s); pure (t :: ts))
        = some table ↔
          ∃ rest, os.mapM (openStamp s) = some rest ∧ stamp :: rest = table := by
        intro table
        simp [Option.bind_eq_some_iff]
      rw [hmap]
      have hchain : ∀ rest, (previous.toList ++ stamp :: rest).IsChain (· < ·) ↔
          previous.any (stamp ≤ ·) = false ∧ ((some stamp).toList ++ rest).IsChain (· < ·) := by
        intro rest
        cases previous with
        | none => simp
        | some l => simp
      dsimp only
      split
      · rename_i hback
        refine iff_of_false (by simp) ?_
        rintro ⟨⟨rest, -, rfl⟩, h⟩
        rw [((hchain rest).mp h).1] at hback
        cases hback
      · rename_i hback
        rw [Bool.not_eq_true] at hback
        rw [Prod.mk.injEq]
        constructor
        · rintro ⟨rfl, hend⟩
          obtain ⟨hrest, h⟩ := (ih (some stamp) _).mp (Prod.ext rfl hend)
          exact ⟨⟨_, hrest, rfl⟩, (hchain _).mpr ⟨hback, h⟩⟩
        · rintro ⟨⟨rest, hrest, rfl⟩, h⟩
          have hrun := (ih (some stamp) rest).mpr ⟨hrest, ((hchain rest).mp h).2⟩
          rw [hrun]
          exact ⟨rfl, rfl⟩

section

variable {H : Type} {p : Params} {find : ℤ → H → Option (Option ℤ) × H} {s : Sessions}
    {stamp : ℤ → Option ℤ}
  {Knows : H → ℤ → Prop} {st : Stamps H}

/-- A generator under way that gives the stamps of its opens. -/
structure UnderWay (Knows : H → ℤ → Prop) (st : Stamps H) : Prop where
  scanning : Scanning Knows st.scan
  started : st.started = true
  done : st.done = false

/-- The opens that a generator under way is still to stamp. -/
def pending (p : Params) (stamp : ℤ → Option ℤ) (st : Stamps H) : List Open :=
  st.ahead.toList ++ remaining p stamp st.scan

theorem takeOpen_spec (hreads : Reads stamp find Knows) (h : UnderWay Knows st) :
    (takeOpen p find st).1 = (pending p stamp st).head? ∧
      ((takeOpen p find st).2.previous = st.previous) ∧ (takeOpen p find st).2.scan.failed = false ∧
      ((takeOpen p find st).1.isSome → UnderWay Knows (takeOpen p find st).2 ∧
        pending p stamp (takeOpen p find st).2 = (pending p stamp st).tail) := by
  unfold takeOpen
  rw [if_pos h.started]
  cases hahead : st.ahead with
  | some o =>
    dsimp only
    rw [pending, hahead]
    exact ⟨rfl, rfl, h.scanning.sound, fun _ => ⟨⟨h.scanning, h.started, h.done⟩, rfl⟩⟩
  | none =>
    obtain ⟨hnext, hscanning, htail⟩ := nextOpen_spec (p := p) hreads h.scanning
    have hpending : pending p stamp st = remaining p stamp st.scan := by
      rw [pending, hahead]
      rfl
    rw [hpending]
    dsimp only
    split
    · rename_i scan heq
      rw [heq] at hnext hscanning
      exact ⟨hnext, rfl, hscanning.sound, nofun⟩
    · rename_i o scan heq
      rw [heq] at hnext hscanning htail
      exact ⟨hnext, rfl, hscanning.sound, fun _ => ⟨⟨hscanning, h.started, h.done⟩, htail⟩⟩

theorem takeOpen_none (h : (takeOpen p find st).1 = none) :
    (takeOpen p find st).2.scan.failed = true ∨ (takeOpen p find st).2.done = true := by
  unfold takeOpen at h ⊢
  split
  · rename_i hstarted
    rw [if_pos hstarted] at h
    split
    · rename_i o hahead
      rw [hahead] at h
      cases h
    · rename_i hahead
      rw [hahead] at h
      dsimp only at h
      split
      · exact .inr rfl
      · rename_i o scan hnext
        rw [hnext] at h
        cases h
  · rename_i hstarted
    rw [if_neg hstarted] at h
    split
    · exact .inl rfl
    · rename_i o ahead scan hlast
      rw [hlast] at h
      cases h

/-- Nothing follows the end. -/
theorem list_of_ended (h : (nextStamp p find s st).1 = none) :
    (stamps p find s).list (nextStamp p find s st).2 = [] := by
  have hstopped : (nextStamp p find s st).2.scan.failed = true ∨
      (nextStamp p find s st).2.done = true := by
    unfold nextStamp at h ⊢
    split
    · assumption
    · rename_i hgo
      rw [if_neg hgo] at h
      split
      · rename_i st' htake
        have hnone : (takeOpen p find st).1 = none := by rw [htake]
        have hended := takeOpen_none hnone
        rw [htake] at hended
        exact hended
      · rename_i o st' htake
        rw [htake] at h
        dsimp only at h
        split
        · exact .inl rfl
        · rename_i value hstamp
          rw [hstamp] at h
          dsimp only at h
          split
          · exact .inl rfl
          · rename_i hback
            rw [if_neg hback] at h
            cases h
  have hnext : (stamps p find s).next (nextStamp p find s st).2
      = (none, (nextStamp p find s st).2) :=
    if_pos hstopped
  exact Generator.list_of_none (congrArg Prod.fst hnext)

/-- The generator gives the stamps of these opens until one refuses, and has then been refused. -/
def Accepts (p : Params) (find : ℤ → H → Option (Option ℤ) × H) (s : Sessions) (st : Stamps H)
    (os : List Open) :
    Prop :=
  (stamps p find s).list st = (accept s st.previous os).1 ∧
    ((stamps p find s).rest st).scan.failed = (accept s st.previous os).2

theorem UnderWay.goes (h : UnderWay Knows st) : ¬ (st.scan.failed = true ∨ st.done = true) := by
  rw [h.scanning.sound, h.done]
  decide

theorem accepts_of_none {st' : Stamps H} {os : List Open}
    (hnext : (stamps p find s).next st = (none, st'))
    (hend : accept s st.previous os = ([], st'.scan.failed)) : Accepts p find s st os := by
  unfold Accepts
  rw [Generator.list_of_none (congrArg Prod.fst hnext),
    Generator.rest_of_none (congrArg Prod.fst hnext), hnext, hend]
  exact ⟨rfl, rfl⟩

/-- One open and what follows it. -/
theorem accepts_taken {st' : Stamps H} {o : Open} {os : List Open}
    (hgo : ¬ (st.scan.failed = true ∨ st.done = true))
    (htake : takeOpen p find st = (some o, st')) (hprevious : st'.previous = st.previous)
    (hrest : ∀ value, Accepts p find s { st' with previous := some value } os) :
    Accepts p find s st (o :: os) := by
  have hrun : (stamps p find s).next st = nextStamp p find s st := rfl
  rw [nextStamp, if_neg hgo, htake] at hrun
  dsimp only at hrun
  cases hstamp : openStamp s o with
  | none =>
    rw [hstamp] at hrun
    apply accepts_of_none hrun
    rw [accept, hstamp]
    rfl
  | some value =>
    rw [hstamp] at hrun
    dsimp only at hrun
    cases hback : st.previous.any (value ≤ ·) with
    | true =>
      rw [hprevious, if_pos hback] at hrun
      apply accepts_of_none hrun
      rw [accept, hstamp]
      dsimp only
      rw [if_pos hback]
      rfl
    | false =>
      rw [hprevious, if_neg (by rw [hback]; decide)] at hrun
      obtain ⟨hlist, hfailed⟩ := hrest value
      unfold Accepts
      rw [Generator.list_of_some (congrArg Prod.fst hrun),
        Generator.rest_of_some (congrArg Prod.fst hrun), hrun,
        accept, hstamp]
      dsimp only
      rw [if_neg (by rw [hback]; decide)]
      exact ⟨congrArg (value :: ·) hlist, hfailed⟩

theorem accepts_underWay (hreads : Reads stamp find Knows) (h : UnderWay Knows st) :
    Accepts p find s st (pending p stamp st) := by
  induction hp : pending p stamp st generalizing st with
  | nil =>
    obtain ⟨htake, -, hsound, -⟩ := takeOpen_spec (p := p) hreads h
    rw [hp] at htake
    have hnext : (stamps p find s).next st = (none, (takeOpen p find st).2) := by
      change nextStamp p find s st = _
      rw [nextStamp, if_neg h.goes]
      split
      · rename_i st' heq
        rw [heq]
      · rename_i o st' heq
        rw [heq] at htake
        cases htake
    apply accepts_of_none hnext
    rw [hsound]
    rfl
  | cons o os ih =>
    obtain ⟨htake, hprevious, -, hrest⟩ := takeOpen_spec (p := p) hreads h
    rw [hp] at htake hrest
    obtain ⟨hway, hpending⟩ := hrest (by rw [htake]; rfl)
    exact accepts_taken h.goes (Prod.ext htake rfl) hprevious
      fun value => ih ⟨hway.scanning, hway.started, hway.done⟩ hpending

/-! ## From the first bars -/

theorem opens_eq_remaining {held : H} (hyears : p.firstYear ≤ p.lastYear) :
    remaining p stamp (stampsStart p held).scan = opens p stamp := by
  rw [opens, opensOf, range_cons (show p.firstYear < p.lastYear + 1 by omega), List.flatMap_cons]
  rfl

/-- From the first bars the generator stamps the table's opens, or refuses where none is at or
before the first held day. -/
theorem accepts_start (hreads : Reads stamp find Knows) {held : H}
    (hknows : Knows held (yearFirst p.firstYear))
    (hyears : p.firstYear ≤ p.lastYear) :
    (fromFirst p (opens p stamp) = none → (stamps p find s).list (stampsStart p held) = []) ∧
      ∀ os, fromFirst p (opens p stamp) = some os → Accepts p find s (stampsStart p held) os := by
  have hscanning : Scanning Knows (stampsStart p held).scan := by
    refine ⟨?_, rfl, hknows, rfl⟩
    have := (yearFirst_succ p.firstYear).1
    change yearFirst p.firstYear ≤ yearFirst (p.firstYear + 1)
    omega
  have hend : ∀ st : Scan H, Scanning Knows st → ((openDates p find).next st).1 = none →
      (openDates p find).list ((openDates p find).next st).2 = [] := by
    intro st hst hnone
    obtain ⟨hhead, hst', htail⟩ := nextOpen_spec (p := p) hreads hst
    have hnil : remaining p stamp st = [] := List.head?_eq_none_iff.mp (hhead.symm.trans hnone)
    exact (list_openDates hreads hst').trans (htail.trans (by rw [hnil]; rfl))
  obtain ⟨hlast, hahead, hrest, hscanning'⟩ := Generator.lastWhile_spec (g := openDates p find)
    (fun st hst => (nextOpen_spec (p := p) hreads hst).2.1) hend (·.date ≤ p.first) none hscanning
  rw [list_openDates hreads hscanning, opens_eq_remaining hyears, Option.or_none] at hlast
  rw [list_openDates hreads hscanning, opens_eq_remaining hyears] at hahead hrest
  rw [list_openDates hreads hscanning'] at hrest
  have hgo : ¬ ((stampsStart p held).scan.failed = true ∨ (stampsStart p held).done = true) := nofun
  have htake : takeOpen p find (stampsStart p held) = takeOpen p find (stampsStart p held) := rfl
  conv_rhs at htake => rw [takeOpen, if_neg (show ¬ (stampsStart p held).started = true from nofun)]
  generalize (openDates p find).lastWhile (·.date ≤ p.first) none (stampsStart p held).scan = found
    at hlast hahead hrest hscanning' htake
  obtain ⟨last, ahead, scan⟩ := found
  cases hlast' : ((opens p stamp).takeWhile (·.date ≤ p.first)).getLast? with
  | none =>
    refine ⟨fun _ => ?_, fun os hos => ?_⟩
    · cases hlast.trans hlast'
      have hnext : (stamps p find s).next (stampsStart p held)
          = (none, Stamps.refuse ⟨scan, ahead, true, false, none⟩) := by
        change nextStamp p find s (stampsStart p held) = _
        rw [nextStamp, if_neg hgo, htake]
        rfl
      exact Generator.list_of_none (congrArg Prod.fst hnext)
    · rw [fromFirst, hlast'] at hos
      cases hos
  | some o =>
    refine ⟨fun hos => ?_, fun os hos => ?_⟩
    · rw [fromFirst, hlast'] at hos
      cases hos
    · cases hlast.trans hlast'
      rw [fromFirst, hlast', Option.map_some, Option.some.injEq] at hos
      rw [← hos]
      apply accepts_taken hgo htake rfl
      intro value
      have hway : UnderWay Knows (⟨scan, ahead, true, false, some value⟩ : Stamps H) :=
        ⟨hscanning', rfl, rfl⟩
      have hpending : pending p stamp (⟨scan, ahead, true, false, some value⟩ : Stamps H)
          = (opens p stamp).dropWhile (·.date ≤ p.first) := by
        change ahead.toList ++ remaining p stamp scan = _
        dsimp only at hrest hahead
        rw [hrest, hahead]
        cases (opens p stamp).dropWhile (·.date ≤ p.first) with
        | nil => rfl
        | cons next later => rfl
      have haccepts := accepts_underWay (p := p) (s := s) hreads hway
      rw [hpending] at haccepts
      exact haccepts

end

end PineForge.MultiDay
