import Mathlib
import PineForge.Runner.ParseDump

/-!
# The grammar of JSON texts

RFC 8259 as a relation between texts and trees: the characters of a string with their escapes,
number tokens, arrays and objects with space around every part. A character is a Unicode scalar
value and stands for its UTF-8 bytes, so a string that is not well-formed has no tree. A tree keeps
its members in the order of the text, repeated names included.
-/

namespace PineForge.Runner

namespace Json

/-- The UTF-8 bytes of a character. -/
def charBytes (c : Char) : Bytes := (String.utf8EncodeChar c).map UInt8.toFin

/-- The bytes of characters. -/
def charsBytes (cs : List Char) : Bytes := cs.flatMap charBytes

/-- A text's tree, its members in order. -/
inductive Tree
  | null
  | bool (b : Bool)
  | number (token : Bytes)
  | string (chars : List Char)
  | array (items : List Tree)
  | object (members : List (List Char × Tree))

/-! ## Strings -/

/-- The characters after a backslash that stand for one character each. -/
def shortEscapes : List (Byte × Char) :=
  [(ch '"', '"'), (ch '\\', '\\'), (ch '/', '/'), (ch 'b', '\x08'), (ch 'f', '\x0c'),
    (ch 'n', '\n'),
    (ch 'r', '\r'), (ch 't', '\t')]

/-- A hexadecimal digit and its value. -/
inductive HexDigit : Byte → ℕ → Prop
  | digit {b : Byte} (low : 48 ≤ b) (high : b ≤ 57) : HexDigit b (b.val - 48)
  | lower {b : Byte} (low : 97 ≤ b) (high : b ≤ 102) : HexDigit b (b.val - 87)
  | upper {b : Byte} (low : 65 ≤ b) (high : b ≤ 70) : HexDigit b (b.val - 55)

/-- Four hexadecimal digits. -/
inductive Hex4 : Bytes → ℕ → Prop
  | mk {a b c d : Byte} {i j k l : ℕ} (ha : HexDigit a i) (hb : HexDigit b j) (hc : HexDigit c k)
    (hd : HexDigit d l) :
    Hex4 [a, b, c, d] (((i * 16 + j) * 16 + k) * 16 + l)

/-- The ways to write a character in a string. -/
inductive CharText : Char → Bytes → Prop
  | unescaped {c : Char} (control : 0x20 ≤ c.toNat) (quotation : c ≠ '"') (backslash : c ≠ '\\') :
    CharText c (charBytes c)
  | short {e : Byte} {c : Char} (h : (e, c) ∈ shortEscapes) : CharText c [ch '\\', e]
  | unicode {c : Char} {digits : Bytes} (h : Hex4 digits c.toNat) :
    CharText c (ch '\\' :: ch 'u' :: digits)
  | pair {c : Char} {high low : ℕ} {first second : Bytes} (hfirst : Hex4 first high)
    (hsecond : Hex4 second low)
    (hhigh : 0xd800 ≤ high ∧ high ≤ 0xdbff) (hlow : 0xdc00 ≤ low ∧ low ≤ 0xdfff)
    (hc : c.toNat = 0x10000 + (high - 0xd800) * 0x400 + (low - 0xdc00)) :
    CharText c (ch '\\' :: ch 'u' :: first ++ ch '\\' :: ch 'u' :: second)

/-- A text of a string's characters. -/
inductive CharsText : List Char → Bytes → Prop
  | nil : CharsText [] []
  | cons {c : Char} {cs : List Char} {s t : Bytes} (head : CharText c s) (tail : CharsText cs t) :
    CharsText (c :: cs) (s ++ t)

/-- A text of a string. -/
inductive StringText : List Char → Bytes → Prop
  | mk {cs : List Char} {s : Bytes} (h : CharsText cs s) : StringText cs (ch '"' :: s ++ [ch '"'])

/-! ## Numbers -/

/-- One digit or more. -/
def DigitsText (s : Bytes) : Prop := s ≠ [] ∧ s.all isDigit = true

/-- A sign, whole digits without a leading zero, a fraction and an exponent. -/
structure NumberText (s : Bytes) : Prop where
  parts : ∃ sign whole fraction exponent : Bytes, s = sign ++ whole ++ fraction ++ exponent ∧
    (sign = [] ∨ sign = [ch '-']) ∧
    (whole = [ch '0'] ∨ DigitsText whole ∧ whole.head? ≠ some (ch '0')) ∧
    (fraction = [] ∨ ∃ digits, fraction = ch '.' :: digits ∧ DigitsText digits) ∧
    (exponent = [] ∨ ∃ e signed digits, exponent = e :: signed ++ digits ∧
      (e = ch 'e' ∨ e = ch 'E') ∧
      (signed = [] ∨ signed = [ch '+'] ∨ signed = [ch '-']) ∧ DigitsText digits)

/-! ## Values -/

/-- Space, or nothing. -/
def Space (s : Bytes) : Prop := s.all isSpace = true

/-- A value with the space around it. -/
structure Item where
  before : Bytes
  text : Bytes
  after : Bytes
  tree : Tree

/-- The text of an item with its space. -/
def Item.bytes (i : Item) : Bytes := i.before ++ i.text ++ i.after

/-- A name and a value with the space around them. -/
structure Member where
  before : Bytes
  name : Bytes
  between : Bytes
  chars : List Char
  item : Item

/-- The text of a member with its space. -/
def Member.bytes (m : Member) : Bytes := m.before ++ m.name ++ m.between ++ ch ':' :: m.item.bytes

/-- There is only space around an item. -/
structure Item.Spaced (i : Item) : Prop where
  before : Space i.before
  after : Space i.after

/-- There is only space around a member's parts. -/
structure Member.Spaced (m : Member) : Prop where
  before : Space m.before
  between : Space m.between
  item : m.item.Spaced

/-- A text of a tree. -/
inductive ValueText : Tree → Bytes → Prop
  | null : ValueText .null (ascii "null")
  | yes : ValueText (.bool true) (ascii "true")
  | no : ValueText (.bool false) (ascii "false")
  | number {s : Bytes} (h : NumberText s) : ValueText (.number s) s
  | string {cs : List Char} {s : Bytes} (h : StringText cs s) : ValueText (.string cs) s
  | emptyArray {s : Bytes} (h : Space s) : ValueText (.array []) (ch '[' :: s ++ [ch ']'])
  | array {items : List Item} (hne : items ≠ []) (hspaced : ∀ i ∈ items, i.Spaced)
    (htext : ∀ i ∈ items, ValueText i.tree i.text) :
    ValueText (.array (items.map Item.tree))
      (ch '[' :: separated (items.map Item.bytes) ++ [ch ']'])
  | emptyObject {s : Bytes} (h : Space s) : ValueText (.object []) (ch '\x7b' :: s ++ [ch '\x7d'])
  | object {members : List Member} (hne : members ≠ []) (hspaced : ∀ m ∈ members, m.Spaced)
    (hname : ∀ m ∈ members, StringText m.chars m.name)
    (htext : ∀ m ∈ members, ValueText m.item.tree m.item.text) :
    ValueText (.object (members.map fun m => (m.chars, m.item.tree)))
      (ch '\x7b' :: separated (members.map Member.bytes) ++ [ch '\x7d'])

/-- A whole text: one value with space around it. -/
inductive JsonText : Tree → Bytes → Prop
  | mk {t : Tree} {before text after : Bytes} (hbefore : Space before) (htext : ValueText t text)
    (hafter : Space after) : JsonText t (before ++ text ++ after)

/-! ## Trees -/

namespace Tree

theorem induct {P : Tree → Prop} (hnull : P .null) (hbool : ∀ b, P (.bool b))
    (hnumber : ∀ v, P (.number v))
    (hstring : ∀ cs, P (.string cs)) (harray : ∀ items, (∀ t ∈ items, P t) → P (.array items))
    (hobject : ∀ members, (∀ m ∈ members, P (Prod.snd m)) → P (.object members)) (t : Tree) :
    P t := by
  refine @Tree.rec P (fun items => ∀ t ∈ items, P t) (fun members => ∀ m ∈ members, P (Prod.snd m))
    (fun m => P m.2) hnull hbool hnumber hstring harray hobject ?_ ?_ ?_ ?_ (fun _ _ h => h) t
  · exact fun t ht => absurd ht List.not_mem_nil
  · intro head tail hhead htail t ht
    rcases List.mem_cons.mp ht with rfl | ht
    · exact hhead
    · exact htail t ht
  · exact fun m hm => absurd hm List.not_mem_nil
  · intro head tail hhead htail m hm
    rcases List.mem_cons.mp hm with rfl | hm
    · exact hhead
    · exact htail m hm

mutual

/-- The levels of a tree: one more than its deepest part has. -/
def depth : Tree → ℕ
  | .array items => depthItems items + 1
  | .object members => depthMembers members + 1
  | .null | .bool _ | .number _ | .string _ => 1

/-- The depth of items. -/
def depthItems : List Tree → ℕ
  | [] => 0
  | t :: items => max (depth t) (depthItems items)

/-- The depth of members. -/
def depthMembers : List (List Char × Tree) → ℕ
  | [] => 0
  | (_, t) :: members => max (depth t) (depthMembers members)

end

mutual

/-- No name is repeated in an object. -/
def Distinct : Tree → Prop
  | .array items => DistinctItems items
  | .object members => (members.map Prod.fst).Nodup ∧ DistinctMembers members
  | .null | .bool _ | .number _ | .string _ => True

/-- Names within items are distinct. -/
def DistinctItems : List Tree → Prop
  | [] => True
  | t :: items => Distinct t ∧ DistinctItems items

/-- Names within members are distinct. -/
def DistinctMembers : List (List Char × Tree) → Prop
  | [] => True
  | (_, t) :: members => Distinct t ∧ DistinctMembers members

end

mutual

/-- The value of a tree: an object is a map of its members. -/
def value : Tree → Json
  | .null => Json.null
  | .bool b => Json.boolean b
  | .number v => Json.number v
  | .string cs => Json.string (charsBytes cs)
  | .array items => Json.array (valueItems items)
  | .object members => Json.object (Assoc.ofFields (valueMembers members))

/-- The values of items. -/
def valueItems : List Tree → List Json
  | [] => []
  | t :: items => value t :: valueItems items

/-- The values of members. -/
def valueMembers : List (List Char × Tree) → List (Bytes × Json)
  | [] => []
  | (name, t) :: members => (charsBytes name, value t) :: valueMembers members

end

theorem depthItems_le {items : List Tree} {n : ℕ} :
    depthItems items ≤ n ↔ ∀ t ∈ items, depth t ≤ n := by
  induction items with
  | nil => simp [depthItems]
  | cons t items ih => simp [depthItems, ih]

theorem depthMembers_le {members : List (List Char × Tree)} {n : ℕ} :
    depthMembers members ≤ n ↔ ∀ m ∈ members, depth m.2 ≤ n := by
  induction members with
  | nil => simp [depthMembers]
  | cons m members ih =>
    obtain ⟨name, t⟩ := m
    simp [depthMembers, ih]

theorem distinctItems_iff {items : List Tree} : DistinctItems items ↔ ∀ t ∈ items, Distinct t := by
  induction items with
  | nil => simp [DistinctItems]
  | cons t items ih => simp [DistinctItems, ih]

theorem distinctMembers_iff {members : List (List Char × Tree)} :
    DistinctMembers members ↔ ∀ m ∈ members, Distinct m.2 := by
  induction members with
  | nil => simp [DistinctMembers]
  | cons m members ih =>
    obtain ⟨name, t⟩ := m
    simp [DistinctMembers, ih]

theorem valueItems_eq (items : List Tree) : valueItems items = items.map value := by
  induction items with
  | nil => rfl
  | cons t items ih => rw [valueItems, ih, List.map_cons]

theorem valueMembers_eq (members : List (List Char × Tree)) :
    valueMembers members = members.map fun m => (charsBytes m.1, value m.2) := by
  induction members with
  | nil => rfl
  | cons m members ih =>
    obtain ⟨name, t⟩ := m
    rw [valueMembers, ih, List.map_cons]

end Tree

end Json

end PineForge.Runner
