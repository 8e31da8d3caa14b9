import PineForge.Machine.Boundaries

/-!
# Numbers of texts

`str_tonumber` of `script_string.cpp`. A text of at most one page goes to `strtod` as it is. A
longer one is scanned: its first significant digits, a digit that stands for the rest and an
exponent within bounds are spelled and handed to `strtod` in its place.

`strtod` is a parameter. What it does when it rounds correctly is said by `CorrectlyRounding`, over
the number at the start of a text that the C grammar gives it (`readNumber`). The page a reader
holds is left out: a text is the list of its bytes, and past its end a reader finds zeros.
-/

namespace PineForge.Text

open Nearest

/-- Bytes of a text. -/
abbrev Bytes := List UInt8

/-- The byte of an ASCII character. -/
def ch (c : Char) : UInt8 := c.toUInt8

/-- The bytes of a literal. -/
def chars (s : String) : Bytes := s.toList.map ch

/-- `input[p]`, for the text from `p` on. -/
def peek (s : Bytes) : UInt8 := s.headD 0

/-- `isspace` of the C locale. -/
def isSpace (b : UInt8) : Bool := b = ch ' ' ∨ 9 ≤ b ∧ b ≤ 13

/-- The lower case of a letter. -/
def toLower (b : UInt8) : UInt8 := if ch 'A' ≤ b ∧ b ≤ ch 'Z' then b + 32 else b

/-- The decimal point of the C locale. -/
def point : UInt8 := ch '.'

/-! ## Doubles -/

/-- A binary64 value: the magnitude of a finite one is rational. -/
inductive Double
  | finite (negative : Bool) (magnitude : ℚ)
  | infinite (negative : Bool)
  | nan (payload : ℕ)
deriving DecidableEq

/-- `na<double>()`. -/
def na : Double := .nan 0

/-- What `strtod` reports: that nothing was converted, or a value and whether `errno` is
`ERANGE`. -/
inductive Parsed
  | noConversion
  | value (double : Double) (range : Bool)
deriving DecidableEq

/-- What a buffer converts to. -/
def parseBuffer (strtod : Bytes → Parsed) (input : Bytes) : Double :=
  match strtod input with
  | .noConversion => na
  | .value double range => if range then na else double

/-! ## Digits -/

/-- The value of a digit. -/
def digit (b : UInt8) (hex : Bool) : Option ℕ :=
  if ch '0' ≤ b ∧ b ≤ ch '9' then some (b.toNat - 48)
  else if hex ∧ ch 'a' ≤ b ∧ b ≤ ch 'f' then some (b.toNat - 97 + 10)
  else if hex ∧ ch 'A' ≤ b ∧ b ≤ ch 'F' then some (b.toNat - 65 + 10)
  else none

/-- The byte of a digit. -/
def digitChar (d : ℕ) : UInt8 := .ofNat (if d < 10 then 48 + d else 97 + d - 10)

/-- The number that big-endian digits spell. -/
def number (base : ℕ) (digits : List ℕ) : ℕ := Nat.ofDigits base digits.reverse

/-- `to_chars` of an unsigned integer. -/
def decimal (n : ℕ) : Bytes :=
  if n = 0 then [ch '0'] else (Nat.digits 10 n).reverse.map digitChar

/-- The digits of an integer. -/
def toChars (n : ℤ) : Bytes := if n < 0 then ch '-' :: decimal n.natAbs else decimal n.natAbs

/-! ## Exponents -/

/-- Two `uint64_t` words. -/
structure Magnitude where
  high : ℕ
  low : ℕ
deriving DecidableEq

namespace Magnitude

/-- The order of magnitudes. -/
def compare (a b : Magnitude) : ℤ :=
  if a.high ≠ b.high then if a.high < b.high then -1 else 1
  else if a.low < b.low then -1
  else if a.low > b.low then 1 else 0

/-- A sum that wraps. -/
def add (a b : Magnitude) : Magnitude :=
  let low := (a.low + b.low) % 2 ^ 64
  ⟨(a.high + b.high + if low < a.low then 1 else 0) % 2 ^ 64, low⟩

/-- A difference that wraps. -/
def subtract (a b : Magnitude) : Magnitude :=
  ⟨(a.high + 2 * 2 ^ 64 - b.high - if a.low < b.low then 1 else 0) % 2 ^ 64,
    (a.low + 2 ^ 64 - b.low) % 2 ^ 64⟩

/-- Four times a number. -/
def timesFour (value : ℕ) : Magnitude := ⟨value / 2 ^ 62, value * 4 % 2 ^ 64⟩

/-- One more digit, up to `16 * 2 ^ 64`. -/
def decimalDigit (value : Magnitude) (d : ℕ) : Magnitude :=
  if value.high ≥ 16 then ⟨16, 0⟩
  else
    let lower := value.low % 2 ^ 32 * 10 + d
    let upper := value.low / 2 ^ 32 * 10 + lower / 2 ^ 32
    let high := value.high * 10 + upper / 2 ^ 32
    if high ≥ 16 then ⟨16, 0⟩ else ⟨high, upper * 2 ^ 32 % 2 ^ 64 ||| lower % 2 ^ 32⟩

end Magnitude

/-- A signed magnitude. -/
structure Scale where
  value : Magnitude := ⟨0, 0⟩
  negative : Bool := false
deriving DecidableEq

namespace Scale

/-- Add a term or take it away. -/
def accumulate (s : Scale) (term : Magnitude) (minus : Bool) : Scale :=
  if s.negative = minus then { s with value := s.value.add term }
  else if s.value.compare term ≥ 0 then { s with value := s.value.subtract term }
  else ⟨term.subtract s.value, minus⟩

/-- The scale, clamped. -/
def bounded (s : Scale) : ℤ :=
  let amount : ℤ := if s.value.high ≠ 0 ∨ s.value.low > 10000 then 10000 else s.value.low
  if s.negative then -amount else amount

end Scale

/-- The letter before an exponent. -/
def exponentMarker (hex : Bool) (b : UInt8) : Bool :=
  if hex then b = ch 'p' ∨ b = ch 'P' else b = ch 'e' ∨ b = ch 'E'

/-- Scan an exponent's digits. -/
def scanExponent : Magnitude → Bytes → Magnitude
  | value, [] => value
  | value, b :: rest =>
    if ch '0' ≤ b ∧ b ≤ ch '9' then scanExponent (value.decimalDigit (b.toNat - 48)) rest else value

/-- Whether a minus sign is next, and the text behind a sign. -/
def takeSign (s : Bytes) : Bool × Bytes :=
  (peek s = ch '-', if peek s = ch '-' ∨ peek s = ch '+' then s.tail else s)

/-- The exponent, if there is one. -/
def exponentScale (hex : Bool) (s : Bytes) : Scale :=
  if exponentMarker hex (peek s) then
    let (negative, rest) := takeSign s.tail
    ⟨scanExponent ⟨0, 0⟩ rest, negative⟩
  else {}

/-! ## Mantissas -/

/-- `retained`. -/
def retained : ℕ := 2048

/-- What is kept of a mantissa. -/
structure Mantissa where
  afterPoint : Bool := false
  any : Bool := false
  significant : Bool := false
  sticky : Bool := false
  fraction : ℕ := 0
  significantDigits : ℕ := 0
  digits : Bytes := []
deriving DecidableEq

/-- Take one digit. -/
def Mantissa.takeDigit (m : Mantissa) (d : ℕ) : Mantissa :=
  let significant := m.significant || d ≠ 0
  let keeps : Bool := m.digits.length < retained
  { m with
    any := true
    fraction := if m.afterPoint then m.fraction + 1 else m.fraction
    significant := significant
    significantDigits := if significant then m.significantDigits + 1 else m.significantDigits
    digits := if significant && keeps then m.digits ++ [digitChar d] else m.digits
    sticky := if significant && !keeps then m.sticky || d ≠ 0 else m.sticky }

/-- The scan of digits and one point, and the text it ends at. -/
def scan (hex : Bool) : Mantissa → Bytes → Mantissa × Bytes
  | m, [] => (m, [])
  | m, b :: rest =>
    match digit b hex with
    | some d => scan hex (m.takeDigit d) rest
    | none =>
      if m.afterPoint = false ∧ b = point then scan hex { m with afterPoint := true } rest
      else (m, b :: rest)

/-! ## `str_tonumber` -/

/-- Whether the text starts with the spelling, in either case. -/
def token : Bytes → Bytes → Bool
  | _, [] => true
  | s, c :: spelling => toLower (peek s) = c && token s.tail spelling

/-- `negative`, and the text behind spaces and a sign. -/
def signed (text : Bytes) : Bool × Bytes := takeSign (text.dropWhile isSpace)

/-- The text begins with `0x`. -/
def hexPrefixed (s : Bytes) : Bool :=
  peek s = ch '0' ∧ (peek s.tail = ch 'x' ∨ peek s.tail = ch 'X')

/-- What becomes of a text: an answer, or a spelling for `strtod`. -/
inductive Handed
  | answer (double : Double)
  | spelled (spelling : Bytes)
deriving DecidableEq

/-- What the handed text converts to. -/
def Handed.parse (strtod : Bytes → Parsed) : Handed → Double
  | .answer double => double
  | .spelled spelling => parseBuffer strtod spelling

/-- The short spelling of a number. -/
def spell (negative hex : Bool) (digits : Bytes) (exponent : ℤ) : Bytes :=
  (if negative then [ch '-'] else []) ++ (if hex then [ch '0', ch 'x'] else []) ++ digits
    ++ (if hex then ch 'p' else ch 'e') :: toChars exponent

/-- A count of digits as a term of the scale. -/
def places (hex : Bool) (count : ℕ) : Magnitude := if hex then .timesFour count else ⟨0, count⟩

/-- The spelling of a mantissa with an exponent before the text that is left. -/
def shorten (negative hex : Bool) (m : Mantissa) (rest : Bytes) : Bytes :=
  let omitted := m.significantDigits - m.digits.length
  let scale := (exponentScale hex rest).accumulate (places hex omitted) false
  let scale := scale.accumulate (places hex m.fraction) true
  if m.sticky then
    spell negative hex (m.digits ++ [ch '1'])
      (scale.accumulate ⟨0, if hex then 4 else 1⟩ true).bounded
  else spell negative hex m.digits scale.bounded

/-- What a long text is handed on as. -/
def handed (text : Bytes) : Handed :=
  let (negative, s) := signed text
  let hex := hexPrefixed s
  let (m, rest) := scan hex {} (if hex then s.drop 2 else s)
  if ¬m.any then .answer (if hex then .finite negative 0 else na)
  else if ¬m.significant then .answer (.finite negative 0)
  else .spelled (shorten negative hex m rest)

/-! ## Infinities and payloads -/

/-- What is kept of a payload. -/
structure Payload where
  value : ℕ := 0
  any : Bool := false
  overflow : Bool := false
  numeric : Bool := true
  closed : Bool := false

/-- A character of a payload. -/
def isPayloadChar (b : UInt8) : Bool :=
  ch '0' ≤ b ∧ b ≤ ch '9' ∨ ch 'a' ≤ b ∧ b ≤ ch 'z' ∨ ch 'A' ≤ b ∧ b ≤ ch 'Z' ∨ b = ch '_'

/-- Scan a payload. -/
def scanPayload (base : ℕ) : Payload → Bytes → Payload
  | p, [] => p
  | p, b :: rest =>
    if b = ch ')' then { p with closed := true }
    else if ¬isPayloadChar b then p
    else
      let d := digit b true
      if p.numeric ∧ d.any (· < base) then
        let overflow : Bool := p.overflow ∨ p.value > (2 ^ 64 - 1 - d.getD 0) / base
        let value := if overflow then 2 ^ 64 - 1 else p.value * base + d.getD 0
        scanPayload base { p with any := true, overflow := overflow, value := value } rest
      else scanPayload base { p with numeric := false } rest

/-- The payload behind `nan`, in the base its first digits say. -/
def readPayload (s : Bytes) : Payload :=
  let parenthesis : Bool := peek s = ch '('
  let s := if parenthesis then s.tail else s
  let octal : Bool := parenthesis ∧ peek s = ch '0'
  let hex : Bool := octal ∧ (peek s.tail = ch 'x' ∨ peek s.tail = ch 'X')
  let base := if hex then 16 else if octal then 8 else 10
  if parenthesis then scanPayload base {} (if hex then s.drop 2 else s) else { numeric := false }

/-- A payload as a decimal number, with what makes `strtod` refuse it as it refuses the text. -/
def Payload.spelling (p : Payload) : Bytes :=
  if p.closed ∧ p.any ∧ (p.numeric ∨ p.overflow) then
    ch '(' :: decimal p.value ++ (if p.overflow then [ch '0'] else [])
      ++ (if p.numeric then [] else [ch '_']) ++ [ch ')']
  else []

/-- A long spelling of no number. -/
def longSpecial (strtod : Bytes → Parsed) (s : Bytes) (negative : Bool) : Double :=
  if token s (chars "inf") then .infinite negative
  else if ¬token s (chars "nan") then na
  else parseBuffer strtod ((if negative then [ch '-'] else []) ++ chars "nan" ++
    (readPayload (s.drop 3)).spelling)

/-- Whether the text spells an infinity or a NaN. -/
def isSpecial (text : Bytes) : Bool :=
  token (signed text).2 (chars "inf") || token (signed text).2 (chars "nan")

/-- `ScriptString::chunk_bytes`. -/
def chunkBytes : ℕ := 4096

/-- `str.tonumber`. -/
def strToNumber (strtod : Bytes → Parsed) (text : Bytes) : Double :=
  if text.length ≤ chunkBytes then parseBuffer strtod text
  else if isSpecial text then longSpecial strtod (signed text).2 (signed text).1
  else (handed text).parse strtod

/-! ## Correct rounding -/

/-- The digits at the start of a text, and the text behind them. -/
def leadingDigits (hex : Bool) : Bytes → List ℕ × Bytes
  | [] => ([], [])
  | b :: rest =>
    match digit b hex with
    | some d => (d :: (leadingDigits hex rest).1, (leadingDigits hex rest).2)
    | none => ([], b :: rest)

/-- A number as C spells it: digits before and behind the point, and an exponent. -/
structure Subject where
  hex : Bool
  whole : List ℕ
  fraction : List ℕ
  exponent : ℤ

/-- Read an exponent. -/
def readExponent (hex : Bool) (s : Bytes) : ℤ :=
  if exponentMarker hex (peek s) then
    let (negative, rest) := takeSign s.tail
    let amount : ℤ := number 10 (leadingDigits false rest).1
    if negative then -amount else amount
  else 0

/-- Read the digits and the exponent. -/
def readSubject (hex : Bool) (s : Bytes) : Subject :=
  let (whole, rest) := leadingDigits hex s
  if peek rest = point then
    let (fraction, rest) := leadingDigits hex rest.tail
    ⟨hex, whole, fraction, readExponent hex rest⟩
  else ⟨hex, whole, [], readExponent hex rest⟩

/-- The radix of the exponent. -/
def radix (hex : Bool) : ℕ := if hex then 2 else 10

/-- The places of the exponent that a digit takes. -/
def digitPlaces (hex : Bool) : ℕ := if hex then 4 else 1

/-- The base of a digit. -/
def digitBase (hex : Bool) : ℕ := radix hex ^ digitPlaces hex

/-- All digits. -/
def Subject.digits (n : Subject) : List ℕ := n.whole ++ n.fraction

/-- The rational of a number. -/
def Subject.magnitude (n : Subject) : ℚ :=
  number (digitBase n.hex) n.digits
    * (radix n.hex : ℚ) ^ (n.exponent - (digitPlaces n.hex * n.fraction.length : ℕ))

/-- The number a text that is not special starts with; of `0x` without digits that is the zero. -/
def readNumber (text : Bytes) : Option (Bool × ℚ) :=
  let (negative, s) := signed text
  let hex := hexPrefixed s
  let n := readSubject hex (if hex then s.drop 2 else s)
  if n.digits ≠ [] then some (negative, n.magnitude)
  else if hex then some (negative, 0) else none

/-- What `strtod` answers of it. -/
def Parsed.ofConverted (negative : Bool) : Converted → Parsed
  | .overflow => .value (.infinite negative) true
  | .finite magnitude underflow => .value (.finite negative magnitude) underflow

/-- What a conversion reports of a number. -/
def Parsed.ofNumber (tininess : Tininess) (n : Option (Bool × ℚ)) : Parsed :=
  n.elim .noConversion fun n => .ofConverted n.1 (convert tininess n.2)

/-- Correct rounding to nearest in the C locale. -/
def CorrectlyRounding (tininess : Tininess) (strtod : Bytes → Parsed) : Prop :=
  ∀ text, isSpecial text = false → strtod text = .ofNumber tininess (readNumber text)

end PineForge.Text
