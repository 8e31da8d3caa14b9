import Mathlib
import PineForge.Runner.Canonical

/-!
# The ratio cursor of a stored report

`stored_report_ratio_cursor` reads the cursor of a canonical delta off the end of its text, before
the last member of the envelope, and other texts through the parser. Without a backslash a quotation
mark opens or closes a string, so the end of a text fixes its last two members (`lastTwo`), and both
ways give one answer.
-/

namespace PineForge.Runner

namespace Json

/-- The end of a printed delta. -/
def deltaTail : Bytes := ascii ",\"schema_version\":\"pineforge-native-report-delta/v1\"\x7d"

/-- What stands before the cursor. -/
def ratioKey : Bytes := ascii ",\"ratios_as_of_input\":"

/-- Where a text first occurs. -/
def findText (needle s : Bytes) : Option ℕ := s.tails.findIdx? fun rest => needle.isPrefixOf rest

/-- The cursor that parsing finds. -/
def parsedRatioCursor (stored : Bytes) : Except Error (Option ℕ) := do
  let payload ← parseJson stored
  let schema ← payload.find (ascii "schema_version")
  if schema.any fun j => j.kind = .string ∧
    j.value = ascii "pineforge-native-report-delta/v2" then do
    let ratios ← payload.atKey (ascii "ratios")
    let asOf ← ratios.atKey (ascii "as_of_input")
    let cursor ← asOf.integer
    pure (some cursor)
  else
    match ← payload.find (ascii "ratios_as_of_input") with
    | some asOf => do
      let cursor ← asOf.integer
      pure (some cursor)
    | none => pure none

/-- The text before the envelope's last member. -/
def beforeTail (stored : Bytes) : Bytes := stored.take (stored.length - deltaTail.length)

/-- The digits before the envelope's last member, at most twenty. -/
def cursorDigits (stored : Bytes) : Bytes :=
  (((beforeTail stored).reverse.take 20).takeWhile isDigit).reverse

/-- Where the digits begin. -/
def digitsBegin (stored : Bytes) : ℕ := (beforeTail stored).length - (cursorDigits stored).length

/-- A canonical delta with one marker and no escape. -/
def marked (stored : Bytes) : Bool :=
  stored.length ≤ 1024 * 1024 ∧ deltaTail.length ≤ stored.length ∧
    stored.drop (stored.length - deltaTail.length) = deltaTail ∧
    cursorDigits stored ≠ [] ∧
    ((cursorDigits stored).head? ≠ some (ch '0') ∨ (cursorDigits stored).length = 1) ∧
    ratioKey.length ≤ digitsBegin stored ∧
    (stored.drop (digitsBegin stored - ratioKey.length)).take ratioKey.length = ratioKey ∧
    findText (ascii "\"ratios_as_of_input\"") stored
      = some (digitsBegin stored - ratioKey.length + 1) ∧
    ch '\\' ∉ stored

/-- `stored_report_ratio_cursor`. -/
def storedReportRatioCursor (stored : Bytes) (reportEqualityChecked : Bool) :
    Except Error (Option ℕ) :=
  if reportEqualityChecked ∧ marked stored then
    match readUnsigned (cursorDigits stored) with
    | some cursor => .ok (some cursor)
    | none => .error (ascii "invalid or overflowing integer")
  else parsedRatioCursor stored

/-! ## The end of a text -/

theorem run_unique {p : Byte → Bool} {v w x y : Bytes} {a b : Byte} (ha : p a = false)
    (hb : p b = false)
    (hx : x.all p = true) (hy : y.all p = true) (h : v ++ a :: x = w ++ b :: y) :
    v = w ∧ a = b ∧ x = y := by
  have hrun : ∀ {v x : Bytes} {a : Byte}, p a = false → x.all p = true →
      (v ++ a :: x).reverse.takeWhile p = x.reverse := by
    intro v x a ha hx
    rw [List.reverse_append, List.reverse_cons, List.append_assoc,
      List.takeWhile_append_of_pos (by simpa using hx)]
    simp [ha]
  have hxy : x = y := by
    apply List.reverse_injective
    rw [← hrun ha hx, h, hrun hb hy]
  subst hxy
  have hcut : v ++ [a] ++ x = w ++ [b] ++ x := by simpa using h
  obtain ⟨hvw, hab⟩ := List.append_inj' (List.append_cancel_right hcut) rfl
  exact ⟨hvw, List.head_eq_of_cons_eq hab, rfl⟩

/-- Space behind a byte that is none is empty where the text ends in a byte that is none. -/
theorem space_end {v w s : Bytes} {a b : Byte} (ha : isSpace a = false) (hb : isSpace b = false)
    (hs : Space s)
    (h : v ++ a :: s = w ++ [b]) : s = [] ∧ v = w ∧ a = b := by
  obtain ⟨hvw, hab, hs⟩ := run_unique ha hb hs rfl h
  exact ⟨hs, hvw, hab⟩

/-- Without a backslash the characters of a string are as they stand, and none is a quotation
mark. -/
theorem CharsText.plain {cs : List Char} {s : Bytes} (h : CharsText cs s) (hback : ch '\\' ∉ s) :
    s = charsBytes cs ∧ s.all (fun b => b ≠ ch '"') = true := by
  induction h with
  | nil => exact ⟨rfl, rfl⟩
  | @cons c cs s t head tail ih =>
    rw [List.mem_append, not_or] at hback
    obtain ⟨ht, hquote⟩ := ih hback.2
    have hunescaped : s = charBytes c ∧ ∀ b ∈ s, b ≠ ch '"' := by
      cases head with
      | unescaped control quotation backslash =>
        refine ⟨rfl, fun b hb => ?_⟩
        by_cases hwide : 0x80 ≤ c.toNat
        · have hhigh := utf8_high (isScalar_toNat c) hwide
          rw [utf8_toNat] at hhigh
          rintro rfl
          exact absurd (hhigh _ hb) (by decide)
        · rw [charBytes_narrow (not_le.mp hwide), List.mem_singleton] at hb
          rintro rfl
          have hvals := congrArg Fin.val hb
          rw [ofNat_val (by omega)] at hvals
          exact quotation (Char.ext (UInt32.toNat_inj.mp hvals.symm))
      | short _ => exact absurd (List.mem_cons_self ..) hback.1
      | unicode _ => exact absurd (List.mem_cons_self ..) hback.1
      | pair _ _ _ _ _ => exact absurd (List.mem_cons_self ..) hback.1
    refine ⟨?_, ?_⟩
    · rw [hunescaped.1, ht]
      rfl
    · rw [List.all_append, hquote, Bool.and_true, List.all_eq_true]
      intro b hb
      simpa using hunescaped.2 b hb

theorem string_end {cs : List Char} {q v w x : Bytes} (hq : StringText cs q) (hback : ch '\\' ∉ q)
    (hx : x.all (fun b => b ≠ ch '"') = true) (h : v ++ q = w ++ ch '"' :: x ++ [ch '"']) :
    v = w ∧ charsBytes cs = x := by
  obtain ⟨hcs⟩ := hq
  rename_i body
  have hplain := hcs.plain (fun hmem => hback (by simp [hmem]))
  have hcut : v ++ ch '"' :: body ++ [ch '"'] = w ++ ch '"' :: x ++ [ch '"'] := by simpa using h
  obtain ⟨hvw, -, hbody⟩ :=
    run_unique (by decide) (by decide) hplain.2 hx (List.append_cancel_right hcut)
  exact ⟨hvw, by rw [← hplain.1, hbody]⟩

theorem getLast_append (u : Bytes) (c : Byte) : (u ++ [c]).getLast? = some c := by simp

theorem NumberText.getLast {s : Bytes} (h : NumberText s) {c : Byte} (hc : s.getLast? = some c) :
    isNumberByte c = true := by
  have hall := h.isNumber.all
  rw [List.all_eq_true] at hall
  exact hall c (List.mem_of_getLast? hc)

theorem ValueText.of_quote {t : Tree} {s : Bytes} (h : ValueText t s)
    (hlast : s.getLast? = some (ch '"')) :
    ∃ cs, t = .string cs ∧ StringText cs s := by
  cases h with
  | null => exact absurd hlast (by decide)
  | yes => exact absurd hlast (by decide)
  | no => exact absurd hlast (by decide)
  | number hnumber => exact absurd (hnumber.getLast hlast) (by decide)
  | string hstring => exact ⟨_, rfl, hstring⟩
  | emptyArray _ =>
    rw [getLast_append] at hlast
    exact absurd hlast (by decide)
  | array _ _ _ =>
    rw [getLast_append] at hlast
    exact absurd hlast (by decide)
  | emptyObject _ =>
    rw [getLast_append] at hlast
    exact absurd hlast (by decide)
  | object _ _ _ _ =>
    rw [getLast_append] at hlast
    exact absurd hlast (by decide)

theorem isDigit_ne {c b : Byte} (hc : isDigit c = true) (hb : isDigit b = false) :
    some b ≠ some c := by
  rintro h
  rw [← Option.some.inj h, hb] at hc
  cases hc

theorem ValueText.of_digit {t : Tree} {s : Bytes} (h : ValueText t s) {c : Byte}
    (hlast : s.getLast? = some c)
    (hc : isDigit c = true) : t = .number s ∧ NumberText s := by
  cases h with
  | null => exact absurd hlast (isDigit_ne (b := ch 'l') hc (by decide))
  | yes => exact absurd hlast (isDigit_ne (b := ch 'e') hc (by decide))
  | no => exact absurd hlast (isDigit_ne (b := ch 'e') hc (by decide))
  | number hnumber => exact ⟨rfl, hnumber⟩
  | string hstring =>
    obtain ⟨hcs⟩ := hstring
    rw [getLast_append] at hlast
    exact absurd hlast (isDigit_ne hc (by decide))
  | emptyArray _ =>
    rw [getLast_append] at hlast
    exact absurd hlast (isDigit_ne hc (by decide))
  | array _ _ _ =>
    rw [getLast_append] at hlast
    exact absurd hlast (isDigit_ne hc (by decide))
  | emptyObject _ =>
    rw [getLast_append] at hlast
    exact absurd hlast (isDigit_ne hc (by decide))
  | object _ _ _ _ =>
    rw [getLast_append] at hlast
    exact absurd hlast (isDigit_ne hc (by decide))

/-- The members of an object, with their names and values in the grammar. -/
structure MembersText (members : List Member) : Prop where
  spaced : ∀ m ∈ members, m.Spaced
  name : ∀ m ∈ members, StringText m.chars m.name
  text : ∀ m ∈ members, ValueText m.item.tree m.item.text

theorem ValueText.of_brace {t : Tree} {s : Bytes} (h : ValueText t s)
    (hlast : s.getLast? = some (ch '\x7d')) :
    (∃ w, Space w ∧ s = ch '\x7b' :: w ++ [ch '\x7d']) ∨
      ∃ members, members ≠ [] ∧ MembersText members ∧
        t = .object (members.map fun m => (m.chars, m.item.tree)) ∧
        s = ch '\x7b' :: separated (members.map Member.bytes) ++ [ch '\x7d'] := by
  cases h with
  | null => exact absurd hlast (by decide)
  | yes => exact absurd hlast (by decide)
  | no => exact absurd hlast (by decide)
  | number hnumber => exact absurd (hnumber.getLast hlast) (by decide)
  | string hstring =>
    obtain ⟨hcs⟩ := hstring
    rw [getLast_append] at hlast
    exact absurd hlast (by decide)
  | emptyArray _ =>
    rw [getLast_append] at hlast
    exact absurd hlast (by decide)
  | array _ _ _ =>
    rw [getLast_append] at hlast
    exact absurd hlast (by decide)
  | emptyObject hspace => exact .inl ⟨_, hspace, rfl⟩
  | object hne hspaced hname htext => exact .inr ⟨_, hne, ⟨hspaced, hname, htext⟩, rfl, rfl⟩

/-! ## The last members -/

theorem separated_snoc (parts : List Bytes) (last : Bytes) :
    separated (parts ++ [last]) = if parts = [] then last
      else separated parts ++ ch ',' :: last := by
  induction parts with
  | nil => rfl
  | cons part parts ih =>
    rw [if_neg (by simp)]
    cases parts with
    | nil => simp [separated]
    | cons next parts =>
      rw [if_neg (by simp)] at ih
      simp only [List.cons_append, separated] at ih ⊢
      rw [ih]
      simp

theorem StringText.last {cs : List Char} {s : Bytes} (h : StringText cs s) :
    ∃ u, s = u ++ [ch '"'] := by
  obtain ⟨hcs⟩ := h
  exact ⟨_, rfl⟩

theorem name_end {m : Member} (hspaced : m.Spaced) (hname : StringText m.chars m.name)
    (hback : ch '\\' ∉ m.name)
    {v w x : Bytes} (hx : x.all (fun b => b ≠ ch '"') = true) {a : Byte}
    (h : v ++ (m.before ++ m.name ++ m.between) = w ++ a :: ch '"' :: x ++ [ch '"']) :
    v ++ m.before = w ++ [a] ∧ charsBytes m.chars = x := by
  obtain ⟨u, hu⟩ := hname.last
  have hbetween : m.between = [] := by
    refine (space_end (v := v ++ m.before ++ u) (w := w ++ a :: ch '"' :: x) (a := ch '"')
      (b := ch '"')
      (by decide) (by decide) hspaced.between ?_).1
    rw [← h, hu]
    simp
  rw [hbetween, List.append_nil, ← List.append_assoc] at h
  have hsplit : v ++ m.before ++ m.name = (w ++ [a]) ++ ch '"' :: x ++ [ch '"'] := by
    rw [h]
    simp
  exact string_end hname hback hx hsplit

theorem ValueText.last {t : Tree} {s : Bytes} (h : ValueText t s) :
    ∃ u b, s = u ++ [b] ∧ isSpace b = false := by
  cases h with
  | null => exact ⟨ascii "nul", ch 'l', by decide, by decide⟩
  | yes => exact ⟨ascii "tru", ch 'e', by decide, by decide⟩
  | no => exact ⟨ascii "fals", ch 'e', by decide, by decide⟩
  | number hnumber =>
    rcases List.eq_nil_or_concat' s with hnil | ⟨u, b, hu⟩
    · exact absurd hnil hnumber.isNumber.ne_nil
    · refine ⟨u, b, hu, ?_⟩
      have hb := hnumber.getLast (by rw [hu]; exact getLast_append u b)
      cases hspace : isSpace b with
      | false => rfl
      | true =>
        rw [isSpace_not_number hspace] at hb
        cases hb
  | string hstring =>
    obtain ⟨u, rfl⟩ := hstring.last
    exact ⟨u, _, rfl, by decide⟩
  | emptyArray _ => exact ⟨_, _, rfl, by decide⟩
  | array _ _ _ => exact ⟨_, _, rfl, by decide⟩
  | emptyObject _ => exact ⟨_, _, rfl, by decide⟩
  | object _ _ _ _ => exact ⟨_, _, rfl, by decide⟩

/-- A value at the end of a text has no space behind it, and its text ends as the whole does. -/
theorem item_end {i : Item} (hspaced : i.Spaced) (htext : ValueText i.tree i.text)
    {v w : Bytes} {c : Byte}
    (hc : isSpace c = false) (h : v ++ i.bytes = w ++ [c]) :
    v ++ i.before ++ i.text = w ++ [c] ∧ i.text.getLast? = some c := by
  obtain ⟨u, b, hu, hb⟩ := htext.last
  have hsplit : (v ++ i.before ++ u) ++ b :: i.after = w ++ [c] := by
    rw [← h, Item.bytes, hu]
    simp
  obtain ⟨hafter, -, rfl⟩ := space_end hb hc hspaced.after hsplit
  refine ⟨?_, by rw [hu]; exact getLast_append u b⟩
  rw [← h, Item.bytes, hafter]
  simp

theorem string_member_end {m : Member} (hspaced : m.Spaced) (hname : StringText m.chars m.name)
    (htext : ValueText m.item.tree m.item.text) (hback : ch '\\' ∉ m.bytes)
    {v w x y : Bytes} {a : Byte}
    (hx : x.all (fun b => b ≠ ch '"') = true) (hy : y.all (fun b => b ≠ ch '"') = true)
    (h : v ++ m.bytes = w ++ a :: ch '"' :: x ++ [ch '"', ch ':', ch '"'] ++ y ++ [ch '"']) :
    v ++ m.before = w ++ [a] ∧ charsBytes m.chars = x ∧ ∃ cs, m.item.tree = .string cs ∧
      charsBytes cs = y := by
  have hname' : ch '\\' ∉ m.name := fun hmem => hback (by simp [Member.bytes, hmem])
  have htext' : ch '\\' ∉ m.item.text :=
    fun hmem => hback (by simp [Member.bytes, Item.bytes, hmem])
  have hitem : (v ++ (m.before ++ m.name ++ m.between ++ [ch ':'])) ++ m.item.bytes
      = (w ++ a :: ch '"' :: x ++ [ch '"', ch ':', ch '"'] ++ y) ++ [ch '"'] := by
    rw [← h, Member.bytes]
    simp
  obtain ⟨hend, hlast⟩ := item_end hspaced.item htext (by decide) hitem
  obtain ⟨cs, htree, hstring⟩ := htext.of_quote hlast
  have hvalue : (v ++ (m.before ++ m.name ++ m.between ++ [ch ':']) ++ m.item.before) ++ m.item.text
      = (w ++ a :: ch '"' :: x ++ [ch '"', ch ':']) ++ ch '"' :: y ++ [ch '"'] := by
    rw [hend]
    simp
  obtain ⟨hfront, hcs⟩ := string_end hstring htext' hy hvalue
  have hcolon : (v ++ (m.before ++ m.name ++ m.between)) ++ ch ':' :: m.item.before
      = (w ++ a :: ch '"' :: x ++ [ch '"']) ++ [ch ':'] := by
    simpa using hfront
  obtain ⟨-, hfront, -⟩ := space_end (by decide) (by decide) hspaced.item.before hcolon
  obtain ⟨hbefore, hchars⟩ := name_end hspaced hname hname' hx hfront
  exact ⟨hbefore, hchars, cs, htree, hcs⟩

/-- The name before the last digits. -/
theorem number_member_end {m : Member} (hspaced : m.Spaced) (hname : StringText m.chars m.name)
    (htext : ValueText m.item.tree m.item.text) (hback : ch '\\' ∉ m.bytes)
    {v w x y : Bytes} {a : Byte}
    (hx : x.all (fun b => b ≠ ch '"') = true) (hy : DigitsText y)
    (h : v ++ m.bytes = w ++ a :: ch '"' :: x ++ [ch '"', ch ':'] ++ y) :
    charsBytes m.chars = x ∧ m.item.tree = .number y := by
  have hname' : ch '\\' ∉ m.name := fun hmem => hback (by simp [Member.bytes, hmem])
  rcases List.eq_nil_or_concat' y with hnil | ⟨u, c, hu⟩
  · exact absurd hnil hy.1
  have hc : isDigit c = true := List.all_eq_true.mp hy.2 c (by rw [hu]; simp)
  have hspace : isSpace c = false := by
    cases hspace : isSpace c with
    | false => rfl
    | true => exact absurd (isNumberByte_of_isDigit hc) (by rw [isSpace_not_number hspace]; decide)
  have hitem : (v ++ (m.before ++ m.name ++ m.between ++ [ch ':'])) ++ m.item.bytes
      = (w ++ a :: ch '"' :: x ++ [ch '"', ch ':'] ++ u) ++ [c] := by
    rw [List.append_assoc _ u, ← hu, ← h, Member.bytes]
    simp
  obtain ⟨hend, hlast⟩ := item_end hspaced.item htext hspace hitem
  obtain ⟨htree, hnumber⟩ := htext.of_digit hlast hc
  rw [List.append_assoc _ u, ← hu] at hend
  -- the token is the digits: before it stands space or the colon, no byte of a number
  have hdigits : y.all isNumberByte = true := by
    rw [List.all_eq_true]
    exact fun b hb => isNumberByte_of_isDigit (List.all_eq_true.mp hy.2 b hb)
  rcases List.eq_nil_or_concat' m.item.before with hbefore | ⟨s, b, hb⟩
  · rw [hbefore, List.append_nil] at hend
    have hrun : (v ++ (m.before ++ m.name ++ m.between)) ++ ch ':' :: m.item.text
        = (w ++ a :: ch '"' :: x ++ [ch '"']) ++ ch ':' :: y := by
      simpa using hend
    obtain ⟨hfront, -, htoken⟩ :=
      run_unique (by decide) (by decide) hnumber.isNumber.all hdigits hrun
    obtain ⟨-, hchars⟩ := name_end hspaced hname hname' hx hfront
    exact ⟨hchars, by rw [htree, htoken]⟩
  · have hbspace : isSpace b = true := by
      have hall := hspaced.item.before
      unfold Space at hall
      exact List.all_eq_true.mp hall b (by rw [hb]; simp)
    have hrun : (v ++ (m.before ++ m.name ++ m.between ++ [ch ':']) ++ s) ++ b :: m.item.text
        = (w ++ a :: ch '"' :: x ++ [ch '"']) ++ ch ':' :: y := by
      rw [hb] at hend
      simpa using hend
    obtain ⟨-, hcolon, -⟩ :=
      run_unique (isSpace_not_number hbspace) (by decide) hnumber.isNumber.all hdigits hrun
    rw [hcolon] at hbspace
    exact absurd hbspace (by decide)

/-- The name of the schema. -/
def schemaName : Bytes := ascii "schema_version"

/-- The first schema. -/
def schemaOne : Bytes := ascii "pineforge-native-report-delta/v1"

/-- The name of the cursor. -/
def ratioName : Bytes := ascii "ratios_as_of_input"

theorem deltaTail_eq : deltaTail = ch ',' :: ch '"' :: schemaName ++
    [ch '"', ch ':', ch '"'] ++ schemaOne
    ++ [ch '"', ch '\x7d'] := by decide

theorem ratioKey_eq : ratioKey = ch ',' :: ch '"' :: ratioName ++ [ch '"', ch ':'] := by decide

/-- The last two members of a marked text. -/
theorem lastTwo {t : Tree} {k digits : Bytes}
    (ht : JsonText t (k ++ ratioKey ++ digits ++ deltaTail))
    (hback : ch '\\' ∉ k ++ ratioKey ++ digits ++ deltaTail) (hdigits : DigitsText digits) :
    ∃ members : List (List Char × Tree), ∃ name schema : List Char, ∃ one : List Char,
      t = .object (members ++ [(name, .number digits), (schema, .string one)]) ∧ charsBytes name
        = ratioName ∧
        charsBytes schema = schemaName ∧ charsBytes one = schemaOne := by
  generalize hs : k ++ ratioKey ++ digits ++ deltaTail = s at ht hback
  obtain ⟨hbefore, htext, hafter⟩ := ht
  rename_i before text after
  -- the value ends in a brace, and nothing follows it
  obtain ⟨u, b, hu, hb⟩ := htext.last
  have hclose : (before ++ u) ++ b :: after
      = (k ++ ratioKey ++ digits ++ ch ',' :: ch '"' :: schemaName ++
        [ch '"', ch ':', ch '"'] ++ schemaOne
        ++ [ch '"']) ++ [ch '\x7d'] := by
    have hsplit : (before ++ u) ++ b :: after = before ++ text ++ after := by
      rw [hu]
      simp
    rw [hsplit, ← hs, deltaTail_eq]
    simp
  obtain ⟨rfl, hfront, rfl⟩ := space_end hb (by decide) hafter hclose
  rw [List.append_nil] at hs hback
  have hlast : text.getLast? = some (ch '\x7d') := by
    rw [hu]
    exact getLast_append u _
  rcases htext.of_brace hlast with ⟨w, hw, htexts⟩ | ⟨members, hne, hmembers, rfl, htexts⟩
  · -- an empty object does not end in a quotation mark and a brace
    rw [hu] at htexts
    have hopen : before ++ ch '\x7b' :: w = before ++ u := by
      rw [List.append_cancel_right htexts]
    rw [hfront] at hopen
    obtain ⟨-, -, hbad⟩ := space_end (by decide) (by decide) hw hopen
    exact absurd hbad (by decide)
  · have hmembersText : before ++ u
        = before ++ ch '\x7b' :: separated (members.map Member.bytes) := by
      rw [hu] at htexts
      rw [List.append_cancel_right htexts]
    have hplain : ch '\\' ∉ before ++ u := by
      intro hmem
      apply hback
      rw [hu, ← List.append_assoc]
      exact List.mem_append_left _ hmem
    rcases List.eq_nil_or_concat' members with hnil | ⟨init, m, rfl⟩
    · exact absurd hnil hne
    have hm : m ∈ init ++ [m] := by simp
    rw [List.map_append, List.map_cons, List.map_nil, separated_snoc] at hmembersText
    by_cases hinit : init.map Member.bytes = []
    · -- before a first member stands the opening brace, no comma
      rw [if_pos hinit] at hmembersText
      have hend : (before ++ [ch '\x7b']) ++ m.bytes = (k ++ ratioKey ++ digits) ++ ch ',' :: ch '"'
        :: schemaName
          ++ [ch '"', ch ':', ch '"'] ++ schemaOne ++ [ch '"'] := by
        rw [← hfront, hmembersText]
        simp
      have hmback : ch '\\' ∉ m.bytes := by
        intro hmem
        apply hplain
        rw [hmembersText]
        simp [hmem]
      obtain ⟨hopen, -⟩ := string_member_end (hmembers.spaced m hm) (hmembers.name m hm)
        (hmembers.text m hm) hmback
        (by decide) (by decide) hend
      have hopen' : before ++ ch '\x7b' :: m.before = (k ++ ratioKey ++ digits) ++ [ch ','] := by
        rw [← hopen]
        simp
      obtain ⟨-, -, hbad⟩ := space_end (by decide) (by decide) (hmembers.spaced m hm).before hopen'
      exact absurd hbad (by decide)
    · rw [if_neg hinit] at hmembersText
      have hend : (before ++ ch '\x7b' :: separated (init.map Member.bytes) ++ [ch ',']) ++ m.bytes
          = (k ++ ratioKey ++ digits) ++ ch ',' :: ch '"' :: schemaName ++
            [ch '"', ch ':', ch '"'] ++ schemaOne
            ++ [ch '"'] := by
        rw [← hfront, hmembersText]
        simp
      have hmback : ch '\\' ∉ m.bytes := by
        intro hmem
        apply hplain
        rw [hmembersText]
        simp [hmem]
      obtain ⟨hopen, hschema, one, htree, hone⟩ :=
        string_member_end (hmembers.spaced m hm) (hmembers.name m hm)
        (hmembers.text m hm) hmback (by decide) (by decide) hend
      have hopen' : (before ++ ch '\x7b' :: separated (init.map Member.bytes)) ++ ch ',' :: m.before
          = (k ++ ratioKey ++ digits) ++ [ch ','] := by
        rw [← hopen]
        simp
      obtain ⟨-, hinitText, -⟩ :=
        space_end (by decide) (by decide) (hmembers.spaced m hm).before hopen'
      rcases List.eq_nil_or_concat' init with hnil | ⟨init, m', rfl⟩
      · rw [hnil] at hinit
        exact absurd rfl hinit
      have hm' : m' ∈ init ++ [m'] ++ [m] := by simp
      obtain ⟨v, hv⟩ : ∃ v, separated ((init ++ [m']).map Member.bytes) = v ++ m'.bytes := by
        rw [List.map_append, List.map_cons, List.map_nil, separated_snoc]
        split
        · exact ⟨[], rfl⟩
        · exact ⟨separated (init.map Member.bytes) ++ [ch ','], by simp⟩
      have hend' : (before ++ ch '\x7b' :: v) ++ m'.bytes
          = k ++ ch ',' :: ch '"' :: ratioName ++ [ch '"', ch ':'] ++ digits := by
        have hsplit : (before ++ ch '\x7b' :: v) ++ m'.bytes = k ++ ratioKey ++ digits := by
          rw [← hinitText, hv]
          simp
        rw [hsplit, ratioKey_eq]
        simp
      have hmback' : ch '\\' ∉ m'.bytes := by
        intro hmem
        apply hplain
        rw [hmembersText, hv]
        simp [hmem]
      obtain ⟨hname, hnumber⟩ := number_member_end (hmembers.spaced m' hm') (hmembers.name m' hm')
        (hmembers.text m' hm') hmback' (by decide) hdigits hend'
      refine ⟨init.map fun m => (m.chars, m.item.tree), m'.chars, m.chars, one, ?_, hname,
        hschema, hone⟩
      rw [← hnumber, ← htree]
      simp

/-! ## Both ways -/

/-- A marked text is its marker, digits and the envelope's end behind something. -/
theorem marked_split {stored : Bytes} (h : marked stored = true) :
    ∃ k, stored = k ++ ratioKey ++ cursorDigits stored ++ deltaTail ∧
      DigitsText (cursorDigits stored) ∧
      ch '\\' ∉ stored := by
  unfold marked at h
  simp only [decide_eq_true_eq] at h
  obtain ⟨-, hsize, htail, hdigits, -, hroom, hkey, -, hback⟩ := h
  have hstored : stored = beforeTail stored ++ deltaTail := by
    have hsplit := List.take_append_drop (stored.length - deltaTail.length) stored
    rw [htail] at hsplit
    exact hsplit.symm
  have hall : (cursorDigits stored).all isDigit = true := by
    unfold cursorDigits
    rw [List.all_reverse]
    exact List.all_takeWhile
  obtain ⟨front, hfront⟩ : ∃ front, beforeTail stored = front ++ cursorDigits stored := by
    have hprefix : ((beforeTail stored).reverse.take 20).takeWhile
        isDigit <+: (beforeTail stored).reverse :=
      (List.takeWhile_prefix _).trans (List.take_prefix _ _)
    obtain ⟨rest, hrest⟩ := hprefix
    refine ⟨rest.reverse, ?_⟩
    unfold cursorDigits
    rw [← List.reverse_append, hrest, List.reverse_reverse]
  have hbegin : digitsBegin stored = front.length := by
    unfold digitsBegin
    rw [hfront, List.length_append, Nat.add_sub_cancel]
  rw [hbegin] at hroom hkey
  obtain ⟨k, hk⟩ : ∃ k, front = k ++ ratioKey := by
    refine ⟨front.take (front.length - ratioKey.length), ?_⟩
    have hsplit := List.take_append_drop (front.length - ratioKey.length) front
    have htake : ∀ rest, ((front ++ rest).drop (front.length - ratioKey.length)).take
      ratioKey.length
        = front.drop (front.length - ratioKey.length) := by
      intro rest
      have hlength : (front.drop (front.length - ratioKey.length)).length = ratioKey.length := by
        rw [List.length_drop]
        omega
      rw [List.drop_append_of_le_length (Nat.sub_le _ _), List.take_append_of_le_length hlength.ge,
        List.take_of_length_le hlength.le]
    have hdrop : front.drop (front.length - ratioKey.length) = ratioKey := by
      rw [← htake (cursorDigits stored ++ deltaTail), ← List.append_assoc, ← hfront, ← hstored]
      exact hkey
    rw [hdrop] at hsplit
    exact hsplit.symm
  refine ⟨k, ?_, ⟨hdigits, hall⟩, hback⟩
  rw [← hk, ← hfront]
  exact hstored

theorem find_object {members : List (List Char × Tree)} (hdistinct : (Tree.object members).Distinct)
    {name : List Char} {t : Tree} (hmem : (name, t) ∈ members) :
    (Tree.object members).value.find (charsBytes name) = .ok (some t.value) := by
  rw [Tree.Distinct] at hdistinct
  have hnodup := Tree.nodup_valueMembers hdistinct.1
  have hvalue : (charsBytes name, t.value) ∈ Tree.valueMembers members := by
    rw [Tree.valueMembers_eq]
    exact List.mem_map.mpr ⟨(name, t), hmem, rfl⟩
  have hfind := Assoc.find_of_mem hnodup hvalue
  have hobject : ∀ (ms : List (Bytes × Json)) (key : Bytes), (object ms).find key
      = .ok (Assoc.find key ms) :=
    fun _ _ => rfl
  rw [Tree.value, hobject, Assoc.find_ofFields hnodup, hfind]

/-- The cursor read off the end of a text that is read is the one the parser finds. -/
theorem storedReportRatioCursor_checked (stored : Bytes) {j : Json} (h : parseJson stored = .ok j) :
    storedReportRatioCursor stored true = storedReportRatioCursor stored false := by
  unfold storedReportRatioCursor
  cases hmarked : marked stored with
  | false => simp
  | true =>
    obtain ⟨k, hstored, hdigits, hback⟩ := marked_split hmarked
    obtain ⟨-, t, ht, -, hdistinct, rfl⟩ := parseJson_iff.mp h
    rw [hstored] at ht hback
    obtain ⟨members, name, schema, one, rfl, hname, hschema, hone⟩ := lastTwo ht hback hdigits
    generalize hobject : (Tree.object
      (members ++ [(name, .number (cursorDigits stored)), (schema, .string one)])).value
      = payload at h
    have hfindSchema : payload.find (ascii "schema_version") = .ok (some (string schemaOne)) := by
      have hfind := find_object hdistinct (show (schema, Tree.string one) ∈ _ by simp)
      rw [hobject, hschema, Tree.value, hone] at hfind
      exact hfind
    have hfindRatio : payload.find (ascii "ratios_as_of_input")
        = .ok (some (number (cursorDigits stored))) := by
      have hfind := find_object hdistinct
        (show (name, Tree.number (cursorDigits stored)) ∈ _ by simp)
      rw [hobject, hname, Tree.value] at hfind
      exact hfind
    have hversion : ((some (string schemaOne)).any fun j =>
        j.kind = .string ∧ j.value = ascii "pineforge-native-report-delta/v2") = false := by decide
    have hparsed : parsedRatioCursor stored
        = (number (cursorDigits stored)).integer >>= fun cursor => pure (some cursor) := by
      unfold parsedRatioCursor
      rw [h, Result.ok_bind, hfindSchema, Result.ok_bind,
        if_neg (by rw [hversion]; decide), hfindRatio]
      rfl
    rw [if_pos ⟨rfl, rfl⟩, if_neg (by simp), hparsed]
    unfold integer number
    dsimp only [mk_kind, mk_value]
    cases readUnsigned (cursorDigits stored) with
    | none => rfl
    | some cursor => rfl

/-- A delta without rows. -/
def emptyDelta : Bytes :=
  ascii "\x7b\"arrays\":\x7b\x7d,\"ratios_as_of_input\":7,\"schema_version\":\"pineforge-native-report-delta/v1\"\x7d"

theorem storedReportRatioCursor_emptyDelta : marked emptyDelta = true ∧
    storedReportRatioCursor emptyDelta true = .ok (some 7) ∧
    storedReportRatioCursor emptyDelta true = storedReportRatioCursor emptyDelta false := by
  refine ⟨by decide +kernel, by decide +kernel, ?_⟩
  have hread : (parseJson emptyDelta).toBool = true := by decide +kernel
  cases hparse : parseJson emptyDelta with
  | error e =>
    rw [hparse] at hread
    cases hread
  | ok j => exact storedReportRatioCursor_checked emptyDelta hparse

end Json

end PineForge.Runner
