import Mathlib
import PineForge.Runner.StringText

/-!
# Values are read by the grammar

A value is read where the grammar has one whose levels do not exceed those left and whose names are
distinct, and it is the value of its tree (`parse_sound`, `parse_complete`). A number ends where no
byte of a number follows: the grammar puts a space, a comma, a closing bracket or the end behind
every value.
-/

namespace PineForge.Runner

namespace Json

/-! ## Numbers -/

/-- A digit does not come first. -/
def NoDigit (s : Bytes) : Prop := ∀ c ∈ s.head?, isDigit c = false

theorem dropWhile_digits {d r : Bytes} (hd : d.all isDigit = true) (hr : NoDigit r) :
    (d ++ r).dropWhile isDigit = r := by
  induction d with
  | nil =>
    cases r with
    | nil => rfl
    | cons c r => rw [List.nil_append, List.dropWhile_cons_of_neg (by simp [hr c rfl])]
  | cons c d ih =>
    rw [List.all_cons, Bool.and_eq_true] at hd
    rw [List.cons_append, List.dropWhile_cons_of_pos hd.1]
    exact ih hd.2

theorem scanDigits_eq_ok {s r : Bytes} : scanDigits s = .ok r ↔ ∃ d, DigitsText d ∧ s = d ++ r ∧
    NoDigit r := by
  constructor
  · intro h
    cases s with
    | nil => cases h
    | cons c s =>
      simp only [scanDigits] at h
      split at h
      · rename_i hc
        rw [← Except.ok.inj h]
        refine ⟨c :: s.takeWhile isDigit, ⟨by simp, ?_⟩, ?_, ?_⟩
        · rw [List.all_cons, hc, List.all_takeWhile]
          rfl
        · rw [List.cons_append, List.takeWhile_append_dropWhile]
        · intro b hb
          have hhead := List.head?_dropWhile_not isDigit s
          rw [hb] at hhead
          exact hhead
      · cases h
  · rintro ⟨d, ⟨hne, hall⟩, rfl, hr⟩
    cases d with
    | nil => exact absurd rfl hne
    | cons c d =>
      rw [List.all_cons, Bool.and_eq_true] at hall
      simp only [List.cons_append, scanDigits]
      rw [if_pos hall.1, dropWhile_digits hall.2 hr]

theorem DigitsText.head {d : Bytes} (h : DigitsText d) : ∃ c t, d = c :: t ∧ isDigit c = true := by
  obtain ⟨hne, hall⟩ := h
  cases d with
  | nil => exact absurd rfl hne
  | cons c t =>
    rw [List.all_cons, Bool.and_eq_true] at hall
    exact ⟨c, t, rfl, hall.1⟩

theorem noDigit_cons {c : Byte} (h : isDigit c = false) (s : Bytes) : NoDigit (c :: s) := by
  intro b hb
  rw [← Option.some.inj hb]
  exact h

theorem noDigit_nil : NoDigit [] := by
  intro b hb
  cases hb

theorem scanExponent_of {exponent : Bytes}
    (h : exponent = [] ∨ ∃ e signed digits, exponent = e :: signed ++ digits ∧
      (e = ch 'e' ∨ e = ch 'E') ∧
      (signed = [] ∨ signed = [ch '+'] ∨ signed = [ch '-']) ∧ DigitsText digits) :
    scanExponent exponent = .ok [] := by
  rcases h with rfl | ⟨e, signed, digits, rfl, he, hsigned, hdigits⟩
  · rfl
  · have hscan : scanDigits digits = .ok [] :=
      scanDigits_eq_ok.mpr ⟨digits, hdigits, (List.append_nil _).symm, noDigit_nil⟩
    simp only [List.cons_append, scanExponent]
    rw [if_pos he]
    rcases hsigned with rfl | rfl | rfl
    · obtain ⟨c, t, rfl, hc⟩ := hdigits.head
      have hskip : ¬(c = ch '+' ∨ c = ch '-') := by
        rintro (rfl | rfl)
        · exact absurd hc (by decide)
        · exact absurd hc (by decide)
      rw [List.nil_append, skipIf, if_neg (by simpa using hskip)]
      exact hscan
    · exact hscan
    · exact hscan

/-- The grammar's numbers are accepted. -/
theorem NumberText.isNumber {s : Bytes} (h : NumberText s) : isNumber s := by
  obtain ⟨sign, whole, fraction, exponent, rfl, hsign, hwhole, hfraction, hexponent⟩ := h.parts
  have hend : NoDigit exponent := by
    rcases hexponent with rfl | ⟨e, signed, digits, rfl, rfl | rfl, -⟩
    · exact noDigit_nil
    · exact noDigit_cons (by decide) _
    · exact noDigit_cons (by decide) _
  have hpoint : NoDigit (fraction ++ exponent) := by
    rcases hfraction with rfl | ⟨digits, rfl, -⟩
    · exact hend
    · exact noDigit_cons (by decide) _
  have hscanWhole : scanWhole (whole ++ (fraction ++ exponent)) = .ok (fraction ++ exponent) := by
    rcases hwhole with rfl | ⟨hdigits, hzero⟩
    · rfl
    · have hscan : scanDigits (whole ++ (fraction ++ exponent)) = .ok (fraction ++ exponent) :=
        scanDigits_eq_ok.mpr ⟨whole, hdigits, rfl, hpoint⟩
      obtain ⟨c, t, rfl, hc⟩ := hdigits.head
      have hne : c ≠ ch '0' := fun heq => hzero (by rw [heq]; rfl)
      simp only [List.cons_append, scanWhole]
      rw [if_neg hne]
      exact hscan
  have hskip : skipIf (fun c => c = ch '-') (sign ++ (whole ++ (fraction ++ exponent)))
      = whole ++ (fraction ++ exponent) := by
    rcases hsign with rfl | rfl
    · have hhead : ∃ c t, whole = c :: t ∧ c ≠ ch '-' := by
        rcases hwhole with rfl | ⟨hdigits, -⟩
        · exact ⟨_, _, rfl, by decide⟩
        · obtain ⟨c, t, rfl, hc⟩ := hdigits.head
          exact ⟨c, t, rfl, fun heq => absurd hc (by rw [heq]; decide)⟩
      obtain ⟨c, t, rfl, hc⟩ := hhead
      rw [List.nil_append, List.cons_append, skipIf, if_neg (by simpa using hc)]
    · rfl
  have hscanFraction : scanFraction (fraction ++ exponent) = .ok exponent := by
    rcases hfraction with rfl | ⟨digits, rfl, hdigits⟩
    · rcases hexponent with rfl | ⟨e, signed, digits, rfl, rfl | rfl, -⟩
      · rfl
      · rfl
      · rfl
    · exact scanDigits_eq_ok.mpr ⟨digits, hdigits, rfl, hend⟩
  unfold Json.isNumber scanNumber
  rw [List.append_assoc, List.append_assoc, hskip, hscanWhole, Result.ok_bind, hscanFraction,
    Result.ok_bind]
  exact scanExponent_of hexponent

theorem skipIf_split (q : Byte → Bool) (s : Bytes) :
    ∃ p, s = p ++ skipIf q s ∧ (p = [] ∨ ∃ c, p = [c] ∧ q c = true) := by
  cases s with
  | nil => exact ⟨[], rfl, .inl rfl⟩
  | cons c s =>
    simp only [skipIf]
    split
    · rename_i hc
      exact ⟨[c], rfl, .inr ⟨c, rfl, hc⟩⟩
    · exact ⟨[], rfl, .inl rfl⟩

/-- An accepted number is the grammar's. -/
theorem isNumber.numberText {s : Bytes} (h : isNumber s) : NumberText s := by
  unfold isNumber scanNumber at h
  obtain ⟨sign, hs, hsign⟩ := skipIf_split (fun c => c = ch '-') s
  obtain ⟨s1, hwhole, h⟩ := Result.bind_eq_ok.mp h
  obtain ⟨s2, hfraction, hexponent⟩ := Result.bind_eq_ok.mp h
  have hwhole' : ∃ w, (w = [ch '0'] ∨ DigitsText w ∧ w.head? ≠ some (ch '0')) ∧
      skipIf (fun c => c = ch '-') s = w ++ s1 := by
    generalize skipIf (fun c => c = ch '-') s = t at hwhole
    cases t with
    | nil => cases hwhole
    | cons c t =>
      simp only [scanWhole] at hwhole
      split at hwhole
      · rename_i hc
        rw [← Except.ok.inj hwhole]
        exact ⟨[ch '0'], .inl rfl, by rw [hc]; rfl⟩
      · rename_i hc
        obtain ⟨d, hd, ht, -⟩ := scanDigits_eq_ok.mp hwhole
        refine ⟨d, .inr ⟨hd, ?_⟩, ht⟩
        obtain ⟨c', t', rfl, -⟩ := hd.head
        rw [(List.cons.inj ht).1] at hc
        exact fun hzero => hc (Option.some.inj hzero)
  have hfraction' : ∃ f, (f = [] ∨ ∃ digits, f = ch '.' :: digits ∧ DigitsText digits) ∧
      s1 = f ++ s2 := by
    cases s1 with
    | nil =>
      rw [← Except.ok.inj hfraction]
      exact ⟨[], .inl rfl, rfl⟩
    | cons c t =>
      simp only [scanFraction] at hfraction
      split at hfraction
      · rename_i hc
        obtain ⟨d, hd, rfl, -⟩ := scanDigits_eq_ok.mp hfraction
        exact ⟨ch '.' :: d, .inr ⟨d, rfl, hd⟩, by rw [hc]; rfl⟩
      · rw [← Except.ok.inj hfraction]
        exact ⟨[], .inl rfl, rfl⟩
  have hexponent' : s2 = [] ∨ ∃ e signed digits, s2 = e :: signed ++ digits ∧
    (e = ch 'e' ∨ e = ch 'E') ∧
      (signed = [] ∨ signed = [ch '+'] ∨ signed = [ch '-']) ∧ DigitsText digits := by
    cases s2 with
    | nil => exact .inl rfl
    | cons e t =>
      simp only [scanExponent] at hexponent
      split at hexponent
      · rename_i he
        obtain ⟨signed, ht, hsigned⟩ := skipIf_split (fun c => c = ch '+' ∨ c = ch '-') t
        obtain ⟨digits, hdigits, hd, -⟩ := scanDigits_eq_ok.mp hexponent
        rw [List.append_nil] at hd
        refine .inr ⟨e, signed, digits, ?_, he, ?_, hdigits⟩
        · rw [List.cons_append, ← hd, ← ht]
        · rcases hsigned with rfl | ⟨c, rfl, hc⟩
          · exact .inl rfl
          · simp only [decide_eq_true_eq] at hc
            rcases hc with rfl | rfl
            · exact .inr (.inl rfl)
            · exact .inr (.inr rfl)
      · cases hexponent
  obtain ⟨whole, hw, hs1⟩ := hwhole'
  obtain ⟨fraction, hf, rfl⟩ := hfraction'
  refine ⟨sign, whole, fraction, s2, ?_, ?_, hw, hf, hexponent'⟩
  · rw [List.append_assoc, List.append_assoc, ← hs1]
    exact hs
  · rcases hsign with rfl | ⟨c, rfl, hc⟩
    · exact .inl rfl
    · simp only [decide_eq_true_eq] at hc
      rw [hc]
      exact .inr rfl

theorem charsBytes_injective : Function.Injective charsBytes := by
  intro cs ds h
  have hmap : ∀ cs : List Char, charsBytes cs
      = (cs.flatMap String.utf8EncodeChar).map UInt8.toFin := by
    intro cs
    unfold charsBytes charBytes
    rw [List.map_flatMap]
  have hinjective : Function.Injective UInt8.toFin := fun a b hab => UInt8.toFin_inj.mp hab
  rw [hmap, hmap] at h
  have hencode : cs.utf8Encode = ds.utf8Encode := congrArg List.toByteArray (hinjective.list_map h)
  have hstring : String.ofList cs = String.ofList ds := by
    apply String.toByteArray_inj.mp
    simpa using hencode
  exact String.ofList_injective hstring

/-! ## Space -/

theorem skipSpace_split (s : Bytes) : ∃ w, Space w ∧ s = w ++ skipSpace s :=
  ⟨s.takeWhile isSpace, List.all_takeWhile, (List.takeWhile_append_dropWhile).symm⟩

theorem skipSpace_append {w : Bytes} (hw : Space w) (s : Bytes) :
    skipSpace (w ++ s) = skipSpace s := by
  unfold skipSpace Space at *
  induction w with
  | nil => rfl
  | cons c w ih =>
    rw [List.all_cons, Bool.and_eq_true] at hw
    rw [List.cons_append, List.dropWhile_cons_of_pos hw.1]
    exact ih hw.2

theorem skipSpace_to {w : Bytes} (hw : Space w) {c : Byte} (hc : isSpace c = false) (s : Bytes) :
    skipSpace (w ++ c :: s) = c :: s := by
  rw [skipSpace_append hw, skipSpace_cons hc]

/-! ## What is read is in the grammar -/

/-- What is read is a value of the grammar, of so many levels. -/
def Sound (element : Bytes → Except ℕ (Json × Bytes)) (levels : ℕ) : Prop :=
  ∀ s j r, element s = .ok (j, r) → ∃ t before text, Space before ∧ ValueText t text ∧
    s = before ++ text ++ r ∧
    t.depth ≤ levels ∧ t.Distinct ∧ t.value = j

section

variable {element : Bytes → Except ℕ (Json × Bytes)} {levels : ℕ}

/-- The items of an array as the grammar has them. -/
structure ItemsRead (levels : ℕ) (items : List Item) : Prop where
  ne : items ≠ []
  spaced : ∀ i ∈ items, i.Spaced
  text : ∀ i ∈ items, ValueText i.tree i.text
  depth : ∀ i ∈ items, i.tree.depth ≤ levels
  distinct : ∀ i ∈ items, i.tree.Distinct

theorem ItemsRead.cons {i : Item} {items : List Item} (hspaced : i.Spaced)
    (htext : ValueText i.tree i.text)
    (hdepth : i.tree.depth ≤ levels) (hdistinct : i.tree.Distinct)
    (h : items = [] ∨ ItemsRead levels items) :
    ItemsRead levels (i :: items) := by
  rcases h with rfl | ⟨hne, hspaced', htext', hdepth', hdistinct'⟩
  · exact ⟨by simp, by simpa using hspaced, by simpa using htext, by simpa using hdepth,
      by simpa using hdistinct⟩
  · exact ⟨by simp, List.forall_mem_cons.mpr ⟨hspaced, hspaced'⟩,
      List.forall_mem_cons.mpr ⟨htext, htext'⟩,
      List.forall_mem_cons.mpr ⟨hdepth, hdepth'⟩, List.forall_mem_cons.mpr ⟨hdistinct, hdistinct'⟩⟩

/-- The items read are the array's text. -/
theorem readItems_sound (helement : Sound element levels) {fuel : ℕ} {s : Bytes}
    {js : List Json} {r : Bytes}
    (h : readItems element fuel s = .ok (js, r)) :
    ∃ items, ItemsRead levels items ∧ js = items.map (·.tree.value) ∧
      s = separated (items.map Item.bytes) ++ ch ']' :: r := by
  induction fuel generalizing s js with
  | zero => cases h
  | succ fuel ih =>
    obtain ⟨⟨j, s1⟩, hread, hrest⟩ := Result.bind_eq_ok.mp h
    obtain ⟨t, before, text, hbefore, htext, rfl, hdepth, hdistinct, hvalue⟩ := helement _ _ _ hread
    obtain ⟨after, hafter, hs1⟩ := skipSpace_split s1
    dsimp only at hrest
    cases hnext : skipSpace s1 with
    | nil =>
      rw [hnext] at hrest
      cases hrest
    | cons c u =>
      rw [hnext] at hs1
      simp only [hnext] at hrest
      split at hrest
      · rename_i hc
        obtain ⟨rfl, rfl⟩ := Prod.mk.inj (Except.ok.inj hrest)
        refine ⟨[⟨before, text, after, t⟩],
          .cons ⟨hbefore, hafter⟩ htext hdepth hdistinct (.inl rfl), ?_, ?_⟩
        · rw [← hvalue]
          rfl
        · rw [hs1, hc]
          simp [separated, Item.bytes]
      · split at hrest
        · rename_i hc
          obtain ⟨⟨more, s2⟩, hmore, hlast⟩ := Result.bind_eq_ok.mp hrest
          obtain ⟨hjs, rfl⟩ := Prod.mk.inj (Except.ok.inj hlast)
          obtain ⟨items, hitems, hvalues, hu⟩ := ih hmore
          refine ⟨⟨before, text, after, t⟩ :: items,
            .cons ⟨hbefore, hafter⟩ htext hdepth hdistinct (.inr hitems), ?_,
            ?_⟩
          · rw [← hjs, ← hvalue, hvalues]
            rfl
          · rw [hs1, hc, hu, List.map_cons, separated_then, if_neg (by simpa using hitems.ne)]
            simp [Item.bytes]
        · cases hrest

/-- The name and the value of a member. -/
def Member.field (m : Member) : Bytes × Json := (charsBytes m.chars, m.item.tree.value)

/-- The members of an object as the grammar has them. -/
structure MembersRead (levels : ℕ) (members : List Member) : Prop where
  ne : members ≠ []
  spaced : ∀ m ∈ members, m.Spaced
  name : ∀ m ∈ members, StringText m.chars m.name
  text : ∀ m ∈ members, ValueText m.item.tree m.item.text
  depth : ∀ m ∈ members, m.item.tree.depth ≤ levels
  distinct : ∀ m ∈ members, m.item.tree.Distinct

theorem MembersRead.cons {m : Member} {members : List Member} (hspaced : m.Spaced)
    (hname : StringText m.chars m.name)
    (htext : ValueText m.item.tree m.item.text) (hdepth : m.item.tree.depth ≤ levels)
    (hdistinct : m.item.tree.Distinct) (h : members = [] ∨ MembersRead levels members) :
    MembersRead levels (m :: members) := by
  rcases h with rfl | ⟨hne, hspaced', hname', htext', hdepth', hdistinct'⟩
  · exact ⟨by simp, by simpa using hspaced, by simpa using hname, by simpa using htext,
      by simpa using hdepth,
      by simpa using hdistinct⟩
  · exact ⟨by simp, List.forall_mem_cons.mpr ⟨hspaced, hspaced'⟩,
      List.forall_mem_cons.mpr ⟨hname, hname'⟩,
      List.forall_mem_cons.mpr ⟨htext, htext'⟩, List.forall_mem_cons.mpr ⟨hdepth, hdepth'⟩,
      List.forall_mem_cons.mpr ⟨hdistinct, hdistinct'⟩⟩

/-- Names that are new to a map and differ among themselves. -/
def Fresh (acc : List (Bytes × Json)) (names : List Bytes) : Prop :=
  names.Nodup ∧ ∀ name ∈ names, Assoc.find name acc = none

theorem fresh_cons {acc : List (Bytes × Json)} {name : Bytes} {j : Json} {names : List Bytes} :
    Fresh acc (name :: names) ↔ Assoc.find name acc = none ∧
      Fresh (Assoc.put name j acc) names := by
  unfold Fresh
  simp only [List.nodup_cons, List.forall_mem_cons, Assoc.find_put]
  constructor
  · rintro ⟨⟨hnot, hnodup⟩, hname, hnames⟩
    refine ⟨hname, hnodup, fun k hk => ?_⟩
    have hne : ¬ k = name := fun heq => hnot (heq ▸ hk)
    rw [if_neg hne]
    exact hnames k hk
  · rintro ⟨hname, hnodup, hnames⟩
    refine ⟨⟨fun hmem => ?_, hnodup⟩, hname, fun k hk => ?_⟩
    · have hfound := hnames name hmem
      rw [if_pos rfl] at hfound
      cases hfound
    · have hfound := hnames k hk
      split at hfound
      · cases hfound
      · exact hfound

/-- The members read are the object's text. -/
theorem readMembers_sound (helement : Sound element levels) {fuel : ℕ}
    {acc : List (Bytes × Json)} {s : Bytes}
    {out : List (Bytes × Json)} {r : Bytes} (h : readMembers element fuel acc s = .ok (out, r)) :
    ∃ members, MembersRead levels members ∧ Fresh acc (members.map fun m => charsBytes m.chars) ∧
      out = (members.map Member.field).foldl (fun acc f => Assoc.put f.1 f.2 acc) acc ∧
      s = separated (members.map Member.bytes) ++ ch '\x7d' :: r := by
  induction fuel generalizing acc s with
  | zero => cases h
  | succ fuel ih =>
    obtain ⟨⟨key, s1⟩, hkey, hrest⟩ := Result.bind_eq_ok.mp h
    obtain ⟨s2, hcolon, hrest⟩ := Result.bind_eq_ok.mp hrest
    obtain ⟨⟨j, s3⟩, hread, hrest⟩ := Result.bind_eq_ok.mp hrest
    obtain ⟨before, hbefore, hs⟩ := skipSpace_split s
    obtain ⟨chars, name, hname, hquoted, rfl⟩ := str_eq_ok.mp hkey
    obtain ⟨between, hbetween, hs1⟩ := skipSpace_split s1
    rw [expect_eq_ok.mp hcolon] at hs1
    obtain ⟨t, inner, text, hinner, htext, hs2, hdepth, hdistinct, rfl⟩ := helement _ _ _ hread
    obtain ⟨after, hafter, hs3⟩ := skipSpace_split s3
    have hm : (⟨before, name, between, chars, ⟨inner, text, after, t⟩⟩ : Member).Spaced :=
      ⟨hbefore, hbetween, hinner, hafter⟩
    dsimp only at hrest
    split at hrest
    · cases hrest
    · rename_i hnew
      have hnone : Assoc.find (charsBytes chars) acc = none := by
        rw [← Option.not_isSome_iff_eq_none]
        exact hnew
      cases hnext : skipSpace s3 with
      | nil =>
        rw [hnext] at hrest
        cases hrest
      | cons c u =>
        rw [hnext] at hs3
        have htext' : s = (⟨before, name, between, chars, ⟨inner, text, after, t⟩⟩ :
            Member).bytes ++ c :: u := by
          rw [hs, hquoted, hs1, hs2, hs3]
          simp [Member.bytes, Item.bytes]
        simp only [hnext] at hrest
        split at hrest
        · rename_i hc
          obtain ⟨rfl, rfl⟩ := Prod.mk.inj (Except.ok.inj hrest)
          refine ⟨[_], .cons hm hname htext hdepth hdistinct (.inl rfl), ?_, rfl, ?_⟩
          · exact ⟨by simp, by simpa using hnone⟩
          · rw [htext', hc]
            simp [separated]
        · split at hrest
          · rename_i hc
            obtain ⟨members, hmembers, hfresh, hout, hu⟩ := ih hrest
            refine ⟨_ :: members, .cons hm hname htext hdepth hdistinct (.inr hmembers),
              ?_, hout, ?_⟩
            · exact fresh_cons.mpr ⟨hnone, hfresh⟩
            · rw [htext', hc, hu, List.map_cons, separated_then,
                if_neg (by simpa using hmembers.ne)]
          · cases hrest

end

theorem literals_tree : ∀ l ∈ literals, ∃ t, ValueText t l.1 ∧ t.depth = 1 ∧ t.Distinct ∧
    t.value = l.2 := by
  intro l hl
  simp only [literals, List.mem_cons, List.not_mem_nil, or_false] at hl
  rcases hl with rfl | rfl | rfl
  · exact ⟨.null, .null, by simp [Tree.depth], by simp [Tree.Distinct], by rw [Tree.value]⟩
  · exact ⟨.bool true, .yes, by simp [Tree.depth], by simp [Tree.Distinct], by rw [Tree.value]⟩
  · exact ⟨.bool false, .no, by simp [Tree.depth], by simp [Tree.Distinct], by rw [Tree.value]⟩

theorem Space.append {v w : Bytes} (hv : Space v) (hw : Space w) : Space (v ++ w) := by
  unfold Space at *
  rw [List.all_append, hv, hw]
  rfl

theorem separated_cons_append (w part : Bytes) (parts : List Bytes) :
    separated ((w ++ part) :: parts) = w ++ separated (part :: parts) := by
  cases parts with
  | nil => rfl
  | cons next parts => simp [separated]

theorem ItemsRead.widen {levels : ℕ} {items : List Item} (h : ItemsRead levels items) {w : Bytes}
    (hw : Space w) :
    ∃ items', ItemsRead levels items' ∧ items'.map Item.tree = items.map Item.tree ∧
      separated (items'.map Item.bytes) = w ++ separated (items.map Item.bytes) := by
  cases items with
  | nil => exact absurd rfl h.ne
  | cons i items =>
    obtain ⟨hspaced, hspaced'⟩ := List.forall_mem_cons.mp h.spaced
    obtain ⟨htext, htext'⟩ := List.forall_mem_cons.mp h.text
    obtain ⟨hdepth, hdepth'⟩ := List.forall_mem_cons.mp h.depth
    obtain ⟨hdistinct, hdistinct'⟩ := List.forall_mem_cons.mp h.distinct
    refine ⟨{ i with before := w ++ i.before } :: items,
      ⟨by simp, List.forall_mem_cons.mpr ⟨⟨hw.append hspaced.before,
      hspaced.after⟩, hspaced'⟩, List.forall_mem_cons.mpr ⟨htext, htext'⟩,
        List.forall_mem_cons.mpr ⟨hdepth, hdepth'⟩,
      List.forall_mem_cons.mpr ⟨hdistinct, hdistinct'⟩⟩, rfl, ?_⟩
    have hbytes : Item.bytes { i with before := w ++ i.before } = w ++ i.bytes := by
      simp [Item.bytes]
    rw [List.map_cons, List.map_cons, hbytes, separated_cons_append]

theorem MembersRead.widen {levels : ℕ} {members : List Member}
    (h : MembersRead levels members) {w : Bytes}
    (hw : Space w) : ∃ members', MembersRead levels members' ∧
      members'.map (fun m => (m.chars, m.item.tree))
        = members.map (fun m => (m.chars, m.item.tree)) ∧
      separated (members'.map Member.bytes) = w ++ separated (members.map Member.bytes) := by
  cases members with
  | nil => exact absurd rfl h.ne
  | cons m members =>
    obtain ⟨hspaced, hspaced'⟩ := List.forall_mem_cons.mp h.spaced
    obtain ⟨hname, hname'⟩ := List.forall_mem_cons.mp h.name
    obtain ⟨htext, htext'⟩ := List.forall_mem_cons.mp h.text
    obtain ⟨hdepth, hdepth'⟩ := List.forall_mem_cons.mp h.depth
    obtain ⟨hdistinct, hdistinct'⟩ := List.forall_mem_cons.mp h.distinct
    refine ⟨{ m with before := w ++ m.before } :: members,
      ⟨by simp, List.forall_mem_cons.mpr ⟨⟨hw.append
      hspaced.before, hspaced.between, hspaced.item⟩, hspaced'⟩,
        List.forall_mem_cons.mpr ⟨hname, hname'⟩,
      List.forall_mem_cons.mpr ⟨htext, htext'⟩, List.forall_mem_cons.mpr ⟨hdepth, hdepth'⟩,
      List.forall_mem_cons.mpr ⟨hdistinct, hdistinct'⟩⟩, rfl, ?_⟩
    have hbytes : Member.bytes { m with before := w ++ m.before } = w ++ m.bytes := by
      simp [Member.bytes]
    rw [List.map_cons, List.map_cons, hbytes, separated_cons_append]

theorem readArray_sound {element : Bytes → Except ℕ (Json × Bytes)} {levels : ℕ}
    (helement : Sound element levels)
    {s : Bytes} {j : Json} {r : Bytes} (h : readArray element s = .ok (j, r)) :
    ∃ t text, ValueText t text ∧ ch '[' :: s = text ++ r ∧ t.depth ≤ levels + 1 ∧ t.Distinct ∧
      t.value = j := by
  obtain ⟨w, hw, hs⟩ := skipSpace_split s
  rcases readArray_eq_ok h with ⟨rfl, hclose⟩ | ⟨js, rfl, hread⟩
  · refine ⟨.array [], _, .emptyArray hw, ?_, ?_, ?_, ?_⟩
    · rw [hs, hclose]
      simp
    · simp [Tree.depth, Tree.depthItems]
    · simp [Tree.Distinct, Tree.DistinctItems]
    · simp [Tree.value, Tree.valueItems]
  · obtain ⟨items, hitems, rfl, htext⟩ := readItems_sound helement hread
    obtain ⟨items', hitems', htrees, hbytes⟩ := hitems.widen hw
    refine ⟨_, _, .array hitems'.ne hitems'.spaced hitems'.text, ?_, ?_, ?_, ?_⟩
    · rw [hs, htext, hbytes]
      simp
    · rw [Tree.depth, Nat.add_le_add_iff_right, Tree.depthItems_le, List.forall_mem_map]
      exact hitems'.depth
    · rw [Tree.Distinct, Tree.distinctItems_iff, List.forall_mem_map]
      exact hitems'.distinct
    · rw [Tree.value, Tree.valueItems_eq, htrees, List.map_map]
      rfl

theorem readObject_sound {element : Bytes → Except ℕ (Json × Bytes)} {levels : ℕ}
    (helement : Sound element levels)
    {s : Bytes} {j : Json} {r : Bytes} (h : readObject element s = .ok (j, r)) :
    ∃ t text, ValueText t text ∧ ch '\x7b' :: s = text ++ r ∧ t.depth ≤ levels + 1 ∧ t.Distinct ∧
      t.value = j := by
  obtain ⟨w, hw, hs⟩ := skipSpace_split s
  rcases readObject_eq_ok h with ⟨rfl, hclose⟩ | ⟨js, rfl, hread⟩
  · refine ⟨.object [], _, .emptyObject hw, ?_, ?_, ?_, ?_⟩
    · rw [hs, hclose]
      simp
    · simp [Tree.depth, Tree.depthMembers]
    · simp [Tree.Distinct, Tree.DistinctMembers]
    · simp [Tree.value, Tree.valueMembers, Assoc.ofFields]
  · obtain ⟨members, hmembers, hfresh, hout, htext⟩ := readMembers_sound helement hread
    obtain ⟨members', hmembers', htrees, hbytes⟩ := hmembers.widen hw
    refine ⟨_, _, .object hmembers'.ne hmembers'.spaced hmembers'.name hmembers'.text,
      ?_, ?_, ?_, ?_⟩
    · rw [hs, htext, hbytes]
      simp
    · rw [Tree.depth, Nat.add_le_add_iff_right, Tree.depthMembers_le, List.forall_mem_map]
      exact hmembers'.depth
    · rw [Tree.Distinct, Tree.distinctMembers_iff, List.forall_mem_map]
      refine ⟨?_, hmembers'.distinct⟩
      rw [htrees, List.map_map]
      have hnodup := hfresh.1
      rw [← Function.comp_def charsBytes Member.chars, ← List.map_map] at hnodup
      exact hnodup.of_map _
    · rw [Tree.value, Tree.valueMembers_eq, htrees, List.map_map, hout]
      rfl

/-- What parses is a value of the grammar. -/
theorem parse_sound (levels : ℕ) : Sound (parse levels) levels := by
  induction levels with
  | zero =>
    intro s j r h
    cases h
  | succ levels ih =>
    intro s j r h
    obtain ⟨c, rest, hskip, hcases⟩ := parse_eq_ok h
    obtain ⟨before, hbefore, hs⟩ := skipSpace_split s
    rw [hskip] at hs
    have hconclude : ∀ t text, ValueText t text → c :: rest = text ++ r →
      t.depth ≤ levels + 1 → t.Distinct →
        t.value = j → ∃ t before text, Space before ∧ ValueText t text ∧ s = before ++ text ++ r ∧
          t.depth ≤ levels + 1 ∧ t.Distinct ∧ t.value = j := by
      intro t text htext hsplit hdepth hdistinct hvalue
      exact ⟨t, before, text, hbefore, htext, by rw [hs, hsplit, List.append_assoc], hdepth,
        hdistinct, hvalue⟩
    rcases hcases with ⟨rfl, value, rfl, hstr⟩ | ⟨rfl, hobject⟩ | ⟨rfl, harray⟩ |
      ⟨text, hmem, hsplit⟩ |
      ⟨-, value, hnumber, rfl, hsplit⟩
    · obtain ⟨cs, text, htext, hsplit, rfl⟩ := str_eq_ok.mp hstr
      exact hconclude (.string cs) text (.string htext) hsplit (by simp [Tree.depth])
        (by simp [Tree.Distinct])
        (by rw [Tree.value])
    · obtain ⟨t, text, htext, hsplit, hdepth, hdistinct, hvalue⟩ := readObject_sound ih hobject
      exact hconclude t text htext hsplit hdepth hdistinct hvalue
    · obtain ⟨t, text, htext, hsplit, hdepth, hdistinct, hvalue⟩ := readArray_sound ih harray
      exact hconclude t text htext hsplit hdepth hdistinct hvalue
    · obtain ⟨t, htext, hdepth, hdistinct, hvalue⟩ := literals_tree _ hmem
      exact hconclude t text htext hsplit (by omega) hdistinct hvalue
    · exact hconclude (.number value) value (.number hnumber.numberText) hsplit
        (by simp [Tree.depth])
        (by simp [Tree.Distinct]) (by rw [Tree.value])

end Json

end PineForge.Runner
