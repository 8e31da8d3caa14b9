import Mathlib.Data.List.Lex
import Mathlib.Data.List.TakeWhile
import Mathlib.Data.Nat.Digits.Lemmas
import Mathlib.Order.Fin.Basic
import PineForge.Machine.Assoc
import PineForge.Machine.Endian
import PineForge.Machine.Command

/-!
# JSON values

The native runner's `Json`: a kind with a text, items and members beside it, of which the kind says
what is printed. A value keeps the parts its kind does not print. Number tokens stay decimal text.
On values with nothing hidden, printing is injective.
-/

namespace PineForge.Runner

/-- A byte. -/
abbrev Byte := Fin 256

/-- Bytes. -/
abbrev Bytes := List Byte

/-- The byte of an ASCII character. -/
def ch (c : Char) : Byte := Fin.ofNat 256 c.toNat

/-- The bytes of a literal. -/
def ascii (s : String) : Bytes := s.toByteArray.data.toList.map UInt8.toFin

/-- The kinds of values. -/
inductive Kind
  | null
  | bool
  | number
  | string
  | array
  | object
deriving DecidableEq, Repr

/-- A value, with all fields of the struct. -/
inductive Json
  | mk (kind : Kind) (value : Bytes) (items : List Json) (members : List (Bytes × Json))
deriving Repr

namespace Json

/-- The kind of a value. -/
def kind : Json → Kind
  | mk kind _ _ _ => kind

/-- The text of a value. -/
def value : Json → Bytes
  | mk _ value _ _ => value

/-- The items of a value. -/
def items : Json → List Json
  | mk _ _ items _ => items

/-- The members of a value. -/
def members : Json → List (Bytes × Json)
  | mk _ _ _ members => members

@[simp] theorem mk_kind (k : Kind) (v : Bytes) (is : List Json) (ms : List (Bytes × Json)) :
    (mk k v is ms).kind = k := rfl

@[simp] theorem mk_value (k : Kind) (v : Bytes) (is : List Json) (ms : List (Bytes × Json)) :
    (mk k v is ms).value = v := rfl

@[simp] theorem mk_items (k : Kind) (v : Bytes) (is : List Json) (ms : List (Bytes × Json)) :
    (mk k v is ms).items = is := rfl

@[simp] theorem mk_members (k : Kind) (v : Bytes) (is : List Json) (ms : List (Bytes × Json)) :
    (mk k v is ms).members = ms := rfl

/-- `null`. -/
def null : Json := mk .null [] [] []

/-- A string. -/
def string (v : Bytes) : Json := mk .string v [] []

/-- A number, by its token. -/
def number (v : Bytes) : Json := mk .number v [] []

/-- A Boolean. -/
def boolean (v : Bool) : Json := mk .bool (if v then ascii "true" else ascii "false") [] []

/-- An array. -/
def array (items : List Json) : Json := mk .array [] items []

/-- An object. -/
def object (members : List (Bytes × Json)) : Json := mk .object [] [] members

theorem induct {P : Json → Prop}
    (h : ∀ kind value items members, (∀ j ∈ items, P j) → (∀ e ∈ members, P (Prod.snd e)) →
      P (mk kind value items members)) (j : Json) : P j := by
  refine @Json.rec P (fun items => ∀ j ∈ items, P j) (fun members => ∀ e ∈ members, P (Prod.snd e))
    (fun e => P e.2) (fun kind value items members hitems hmembers =>
      h kind value items members hitems hmembers) ?_ ?_ ?_ ?_ (fun _ _ h => h) j
  · exact fun j hj => absurd hj List.not_mem_nil
  · intro head tail hhead htail j hj
    rcases List.mem_cons.mp hj with rfl | hj
    · exact hhead
    · exact htail j hj
  · exact fun e he => absurd he List.not_mem_nil
  · intro head tail hhead htail e he
    rcases List.mem_cons.mp he with rfl | he
    · exact hhead
    · exact htail e he

/-! ## Access -/

/-- The text of a `runtime_error`. -/
abbrev Error := Bytes

/-- The member of a name, which is there. -/
def atKey (j : Json) (key : Bytes) : Except Error Json :=
  match j.kind, Assoc.find key j.members with
  | .object, some v => .ok v
  | _, _ => .error (ascii "missing field: " ++ key)

/-- The member of a name, if it is there. -/
def find (j : Json) (key : Bytes) : Except Error (Option Json) :=
  if j.kind = .object then .ok (Assoc.find key j.members) else .error (ascii "expected object")

/-- The text of a string. -/
def text (j : Json) : Except Error Bytes :=
  if j.kind = .string then .ok j.value else .error (ascii "expected string")

@[simp] theorem text_string (v : Bytes) : (string v).text = .ok v := rfl

/-- A decimal digit. -/
def isDigit (b : Byte) : Bool := ch '0' ≤ b ∧ b ≤ ch '9'

/-- `from_chars` of an unsigned 64-bit integer over the whole text. -/
def readUnsigned (v : Bytes) : Option ℕ :=
  if v ≠ [] ∧ v.all isDigit then
    let n := v.foldl (fun n b => 10 * n + (b.val - 48)) 0
    if n < 2 ^ 64 then some n else none
  else none

/-- The byte of a digit. -/
def digitByte (d : ℕ) : Byte := Fin.ofNat 256 (48 + d)

/-- `to_string` of an unsigned integer. -/
def decimal (n : ℕ) : Bytes :=
  if n = 0 then [ch '0'] else (Nat.digits 10 n).reverse.map digitByte

/-- The number of an unsigned token. -/
def integer (j : Json) : Except Error ℕ :=
  if j.kind = .number then
    match readUnsigned j.value with
    | some n => .ok n
    | none => .error (ascii "invalid or overflowing integer")
  else .error (ascii "expected integer")

/-! ## Printing -/

/-- The byte of a hexadecimal digit. -/
def hexDigit (n : ℕ) : Byte := if n < 10 then Fin.ofNat 256 (48 + n) else Fin.ofNat 256 (87 + n)

/-- The bytes that quote a byte. -/
def quoteByte (b : Byte) : Bytes :=
  if b = ch '"' ∨ b = ch '\\' then [ch '\\', b]
  else if b < 32 then
    [ch '\\', ch 'u', ch '0', ch '0', hexDigit (b.val / 16), hexDigit (b.val % 16)]
  else [b]

/-- The bytes that quote a string. -/
def quote (s : Bytes) : Bytes := ch '"' :: s.flatMap quoteByte ++ [ch '"']

/-- Parts one after the other, a comma between two. -/
def separated : List Bytes → Bytes
  | [] => []
  | [part] => part
  | part :: rest => part ++ ch ',' :: separated rest

mutual

/-- The text of a value. -/
def dump : Json → Bytes
  | mk .null _ _ _ => ascii "null"
  | mk .string value _ _ => quote value
  | mk .bool value _ _ => value
  | mk .number value _ _ => value
  | mk .array _ items _ => ch '[' :: separated (dumpItems items) ++ [ch ']']
  | mk .object _ _ members => ch '\x7b' :: separated (dumpMembers members) ++ [ch '\x7d']

/-- The texts of items. -/
def dumpItems : List Json → List Bytes
  | [] => []
  | j :: items => dump j :: dumpItems items

/-- The texts of members. -/
def dumpMembers : List (Bytes × Json) → List Bytes
  | [] => []
  | (key, j) :: members => (quote key ++ ch ':' :: dump j) :: dumpMembers members

end

/-- The text of a member. -/
def dumpMember (e : Bytes × Json) : Bytes := quote e.1 ++ ch ':' :: dump e.2

theorem dumpItems_eq (items : List Json) : dumpItems items = items.map dump := by
  induction items with
  | nil => rfl
  | cons j items ih => rw [dumpItems, ih, List.map_cons]

theorem dumpMembers_eq (members : List (Bytes × Json)) :
    dumpMembers members = members.map dumpMember := by
  induction members with
  | nil => rfl
  | cons e members ih =>
    obtain ⟨key, j⟩ := e
    rw [dumpMembers, ih, List.map_cons]
    rfl

/-! ## Number tokens -/

/-- A failure, at what is left of the input. -/
def failAt (rest : Bytes) : Except ℕ Bytes := .error rest.length

/-- `take`: the input after a byte that may start it. -/
def skipIf (p : Byte → Bool) : Bytes → Bytes
  | [] => []
  | c :: rest => if p c then rest else c :: rest

/-- Scan one digit or more. -/
def scanDigits (s : Bytes) : Except ℕ Bytes :=
  match s with
  | [] => failAt []
  | c :: rest => if isDigit c then .ok (rest.dropWhile isDigit) else failAt (c :: rest)

/-- Scan a whole number. -/
def scanWhole (s : Bytes) : Except ℕ Bytes :=
  match s with
  | [] => failAt []
  | c :: rest => if c = ch '0' then .ok rest else scanDigits (c :: rest)

/-- Scan a fraction, if there is one. -/
def scanFraction (s : Bytes) : Except ℕ Bytes :=
  match s with
  | [] => .ok []
  | c :: rest => if c = ch '.' then scanDigits rest else .ok (c :: rest)

/-- Scan an exponent, if there is one. -/
def scanExponent (s : Bytes) : Except ℕ Bytes :=
  match s with
  | [] => .ok []
  | c :: rest =>
    if c = ch 'e' ∨ c = ch 'E' then scanDigits (skipIf (fun c => c = ch '+' ∨ c = ch '-') rest)
    else .ok (c :: rest)

/-- What is left after a number token. -/
def scanNumber (s : Bytes) : Except ℕ Bytes := do
  let s ← scanWhole (skipIf (fun c => c = ch '-') s)
  let s ← scanFraction s
  scanExponent s

/-- A whole text that is one number token. -/
def isNumber (v : Bytes) : Prop := scanNumber v = .ok []

instance (v : Bytes) : Decidable (isNumber v) := inferInstanceAs (Decidable (scanNumber v = .ok []))

/-- A byte of a number token. -/
def isNumberByte (b : Byte) : Bool :=
  isDigit b ∨ b = ch '-' ∨ b = ch '+' ∨ b = ch '.' ∨ b = ch 'e' ∨ b = ch 'E'

/-- What may follow a value: the end, a comma or a closing bracket. -/
def Delimited (s : Bytes) : Prop := ∀ c ∈ s.head?, c = ch ',' ∨ c = ch ']' ∨ c = ch '\x7d'

theorem Delimited.not_numberByte {s : Bytes} (h : Delimited s) :
    ∀ c ∈ s.head?, isNumberByte c = false := by
  intro c hc
  rcases h c hc with rfl | rfl | rfl <;> decide

/-- What a scan reads is number bytes, and it stops where they stop. -/
structure Scans (f : Bytes → Except ℕ Bytes) : Prop where
  reads : ∀ s r, f s = .ok r → ∃ p, s = p ++ r ∧ p.all isNumberByte = true
  stops : ∀ s r rest, (∀ c ∈ rest.head?, isNumberByte c = false) → f s = .ok r →
    f (s ++ rest) = .ok (r ++ rest)

theorem Scans.bind {f g : Bytes → Except ℕ Bytes} (hf : Scans f) (hg : Scans g) :
    Scans fun s => f s >>= g where
  reads := by
    intro s r h
    obtain ⟨m, hs, h⟩ := Result.bind_eq_ok.mp h
    obtain ⟨p, hp, hall⟩ := hf.reads s m hs
    obtain ⟨q, hq, hall'⟩ := hg.reads m r h
    exact ⟨p ++ q, by rw [hp, hq, List.append_assoc], by rw [List.all_append, hall, hall']; rfl⟩
  stops := by
    intro s r rest hrest h
    obtain ⟨m, hs, h⟩ := Result.bind_eq_ok.mp h
    rw [hf.stops s m rest hrest hs, Result.ok_bind]
    exact hg.stops m r rest hrest h

theorem isNumberByte_of_isDigit {c : Byte} (h : isDigit c = true) : isNumberByte c = true := by
  simp [isNumberByte, h]

theorem isDigit_of_not_number {rest : Bytes} (h : ∀ c ∈ rest.head?, isNumberByte c = false) :
    ∀ c ∈ rest.head?, isDigit c = false := by
  intro c hc
  cases hd : isDigit c with
  | false => rfl
  | true => rw [← h c hc, isNumberByte_of_isDigit hd]

theorem dropWhile_digits_append (s : Bytes) {rest : Bytes}
    (h : ∀ c ∈ rest.head?, isNumberByte c = false) :
    (s ++ rest).dropWhile isDigit = s.dropWhile isDigit ++ rest := by
  induction s with
  | nil =>
    cases rest with
    | nil => rfl
    | cons c rest =>
      rw [List.nil_append, List.dropWhile_cons_of_neg (by simp [isDigit_of_not_number h c rfl])]
      rfl
  | cons c s ih =>
    cases hd : isDigit c with
    | true => simp only [List.cons_append, List.dropWhile_cons, hd, if_true, ih]
    | false => simp [hd]

theorem scans_digits : Scans scanDigits where
  reads := by
    intro s r h
    cases s with
    | nil => simp [scanDigits, failAt] at h
    | cons c s =>
      cases hd : isDigit c with
      | false => simp [scanDigits, failAt, hd] at h
      | true =>
        simp only [scanDigits, hd, if_true, Except.ok.injEq] at h
        refine ⟨c :: s.takeWhile isDigit, ?_, ?_⟩
        · rw [← h, List.cons_append, List.takeWhile_append_dropWhile]
        · simp only [List.all_cons, isNumberByte_of_isDigit hd, Bool.true_and, List.all_eq_true]
          exact fun x hx => isNumberByte_of_isDigit (List.mem_takeWhile_imp hx)
  stops := by
    intro s r rest hrest h
    cases s with
    | nil => simp [scanDigits, failAt] at h
    | cons c s =>
      cases hd : isDigit c with
      | false => simp [scanDigits, failAt, hd] at h
      | true =>
        simp only [scanDigits, hd, if_true, Except.ok.injEq] at h
        simp only [List.cons_append, scanDigits, hd, if_true, dropWhile_digits_append s hrest, h]

theorem scans_whole : Scans scanWhole where
  reads := by
    intro s r h
    cases s with
    | nil => simp [scanWhole, failAt] at h
    | cons c s =>
      simp only [scanWhole] at h
      split at h
      · rename_i hc
        subst hc
        exact ⟨[ch '0'], by rw [← Except.ok.inj h]; rfl, by decide⟩
      · exact scans_digits.reads _ r h
  stops := by
    intro s r rest hrest h
    cases s with
    | nil => simp [scanWhole, failAt] at h
    | cons c s =>
      rw [List.cons_append]
      simp only [scanWhole] at h ⊢
      split at h
      · rename_i hc
        rw [if_pos hc, Except.ok.inj h]
      · rename_i hc
        rw [if_neg hc]
        exact scans_digits.stops _ r rest hrest h

theorem scans_skipIf {f : Bytes → Except ℕ Bytes} {p : Byte → Bool} (hf : Scans f)
    (hnil : ∀ r, f [] ≠ .ok r) (hp : ∀ c, p c = true → isNumberByte c = true) :
    Scans fun s => f (skipIf p s) where
  reads := by
    intro s r h
    cases s with
    | nil => exact absurd h (hnil r)
    | cons c s =>
      cases hc : p c with
      | true =>
        simp only [skipIf, hc, if_true] at h
        obtain ⟨q, hq, hall⟩ := hf.reads s r h
        exact ⟨c :: q, by rw [hq]; rfl, by simp only [List.all_cons, hp c hc, hall, Bool.and_self]⟩
      | false =>
        simp only [skipIf, hc, Bool.false_eq_true, if_false] at h
        exact hf.reads _ r h
  stops := by
    intro s r rest hrest h
    cases s with
    | nil => exact absurd h (hnil r)
    | cons c s =>
      rw [List.cons_append]
      cases hc : p c with
      | true =>
        simp only [skipIf, hc, if_true] at h ⊢
        exact hf.stops s r rest hrest h
      | false =>
        simp only [skipIf, hc, Bool.false_eq_true, if_false] at h ⊢
        exact hf.stops _ r rest hrest h

/-- An optional part of a number. -/
theorem scans_optional {f g : Bytes → Except ℕ Bytes} {p : Byte → Bool} (hf : Scans f)
    (hp : ∀ c, p c = true → isNumberByte c = true) (hnil : g [] = .ok [])
    (hcons : ∀ c s, g (c :: s) = if p c = true then f s else .ok (c :: s)) : Scans g where
  reads := by
    intro s r h
    cases s with
    | nil =>
      rw [hnil] at h
      exact ⟨[], by rw [← Except.ok.inj h]; rfl, rfl⟩
    | cons c s =>
      rw [hcons] at h
      cases hc : p c with
      | true =>
        rw [if_pos hc] at h
        obtain ⟨q, hq, hall⟩ := hf.reads s r h
        exact ⟨c :: q, by rw [hq]; rfl, by simp only [List.all_cons, hp c hc, hall, Bool.and_self]⟩
      | false =>
        rw [if_neg (by simp [hc])] at h
        exact ⟨[], Except.ok.inj h, rfl⟩
  stops := by
    intro s r rest hrest h
    cases s with
    | nil =>
      rw [hnil] at h
      rw [← Except.ok.inj h]
      cases rest with
      | nil => exact hnil
      | cons c rest =>
        have hc : ¬p c = true := fun hc => absurd (hrest c rfl) (by simp [hp c hc])
        rw [List.nil_append, hcons, if_neg hc]
    | cons c s =>
      rw [hcons] at h
      rw [List.cons_append, hcons]
      cases hc : p c with
      | true =>
        rw [if_pos hc] at h
        rw [if_pos rfl]
        exact hf.stops s r rest hrest h
      | false =>
        rw [if_neg (by simp [hc])] at h
        rw [if_neg (by simp), ← Except.ok.inj h]
        rfl

theorem scanDigits_nil (r : Bytes) : scanDigits [] ≠ .ok r := by simp [scanDigits, failAt]

theorem scanWhole_nil (r : Bytes) : scanWhole [] ≠ .ok r := by simp [scanWhole, failAt]

theorem scans_fraction : Scans scanFraction := by
  refine scans_optional (p := fun c => c = ch '.') scans_digits ?_ rfl fun c s => ?_
  · exact fun c hc => by simp only [decide_eq_true_eq] at hc; simp [isNumberByte, hc]
  · simp [scanFraction]

theorem scans_exponent : Scans scanExponent := by
  refine scans_optional (p := fun c => c = ch 'e' ∨ c = ch 'E')
    (scans_skipIf (p := fun c => c = ch '+' ∨ c = ch '-') scans_digits scanDigits_nil ?_) ?_ rfl
    fun c s => ?_
  · intro c hc
    simp only [decide_eq_true_eq] at hc
    rcases hc with hc | hc <;> simp [isNumberByte, hc]
  · intro c hc
    simp only [decide_eq_true_eq] at hc
    rcases hc with hc | hc <;> simp [isNumberByte, hc]
  · simp [scanExponent]

theorem scans_number : Scans scanNumber := by
  refine (scans_skipIf (p := fun c => c = ch '-') scans_whole scanWhole_nil ?_).bind
    (scans_fraction.bind scans_exponent)
  exact fun c hc => by simp only [decide_eq_true_eq] at hc; simp [isNumberByte, hc]

theorem isNumber.all {v : Bytes} (h : isNumber v) : v.all isNumberByte = true := by
  obtain ⟨p, hp, hall⟩ := scans_number.reads v [] h
  rw [hp, List.append_nil]
  exact hall

theorem isNumber.ne_nil {v : Bytes} (h : isNumber v) : v ≠ [] := by
  intro hnil
  subst hnil
  exact absurd h (by decide)

/-! ## Printing is read one way -/

theorem hexDigit_injective {m n : ℕ} (hm : m < 16) (hn : n < 16) (h : hexDigit m = hexDigit n) :
    m = n := by
  have hval := congrArg Fin.val h
  unfold hexDigit at hval
  split at hval <;> split at hval <;> simp only [Fin.val_ofNat] at hval <;> omega

/-- A quoted byte is known by its bytes. -/
theorem quoteByte_unique {b c : Byte} {s t : Bytes} (h : quoteByte b ++ s = quoteByte c ++ t) :
    b = c ∧ s = t := by
  have hu : ∀ b : Byte, b = ch '"' ∨ b = ch '\\' → b ≠ ch 'u' := by
    rintro b (rfl | rfl) <;> decide
  by_cases hb : b = ch '"' ∨ b = ch '\\' <;> by_cases hc : c = ch '"' ∨ c = ch '\\'
  · simp only [quoteByte, hb, hc, if_true, List.cons_append, List.nil_append, List.cons.injEq,
      true_and] at h
    exact h
  · by_cases hc' : c < 32
    · simp only [quoteByte, hb, hc, hc', if_true, if_false, List.cons_append, List.nil_append,
        List.cons.injEq, true_and] at h
      exact absurd h.1 (hu b hb)
    · simp only [quoteByte, hb, hc, hc', if_true, if_false, List.cons_append, List.nil_append,
        List.cons.injEq] at h
      exact absurd (Or.inr h.1.symm) hc
  · by_cases hb' : b < 32
    · simp only [quoteByte, hb, hc, hb', if_true, if_false, List.cons_append, List.nil_append,
        List.cons.injEq, true_and] at h
      exact absurd h.1.symm (hu c hc)
    · simp only [quoteByte, hb, hc, hb', if_true, if_false, List.cons_append, List.nil_append,
        List.cons.injEq] at h
      exact absurd (Or.inr h.1) hb
  · by_cases hb' : b < 32 <;> by_cases hc' : c < 32
    · simp only [quoteByte, hb, hc, hb', hc', if_true, if_false, List.cons_append, List.nil_append,
        List.cons.injEq, true_and] at h
      have hhigh := hexDigit_injective (by omega) (by omega) h.1
      have hlow := hexDigit_injective (by omega) (by omega) h.2.1
      exact ⟨Fin.ext (by omega), h.2.2⟩
    · simp only [quoteByte, hb, hc, hb', hc', if_true, if_false, List.cons_append, List.nil_append,
        List.cons.injEq] at h
      exact absurd (Or.inr h.1.symm) hc
    · simp only [quoteByte, hb, hc, hb', hc', if_true, if_false, List.cons_append, List.nil_append,
        List.cons.injEq] at h
      exact absurd (Or.inr h.1) hb
    · simp only [quoteByte, hb, hc, hb', hc', if_false, List.cons_append, List.nil_append,
        List.cons.injEq] at h
      exact h

theorem quoteByte_head (b : Byte) : ∃ c r, quoteByte b = c :: r ∧ c ≠ ch '"' := by
  unfold quoteByte
  split
  · exact ⟨_, _, rfl, by decide⟩
  · rename_i hb
    split
    · exact ⟨_, _, rfl, by decide⟩
    · exact ⟨b, [], rfl, fun h => hb (Or.inl h)⟩

theorem quoted_unique {v w s t : Bytes}
    (h : v.flatMap quoteByte ++ ch '"' :: s = w.flatMap quoteByte ++ ch '"' :: t) :
    v = w ∧ s = t := by
  induction v generalizing w with
  | nil =>
    cases w with
    | nil => exact ⟨rfl, (List.cons.inj h).2⟩
    | cons c w =>
      obtain ⟨d, r, hd, hne⟩ := quoteByte_head c
      simp only [List.flatMap_nil, List.nil_append, List.flatMap_cons, hd, List.cons_append,
        List.cons.injEq] at h
      exact absurd h.1.symm hne
  | cons b v ih =>
    cases w with
    | nil =>
      obtain ⟨d, r, hd, hne⟩ := quoteByte_head b
      simp only [List.flatMap_nil, List.nil_append, List.flatMap_cons, hd, List.cons_append,
        List.cons.injEq] at h
      exact absurd h.1 hne
    | cons c w =>
      simp only [List.flatMap_cons, List.append_assoc] at h
      obtain ⟨hbc, h⟩ := quoteByte_unique h
      obtain ⟨hvw, hst⟩ := ih h
      exact ⟨by rw [hbc, hvw], hst⟩

theorem quote_unique {v w s t : Bytes} (h : quote v ++ s = quote w ++ t) : v = w ∧ s = t := by
  simp only [quote, List.cons_append, List.append_assoc, List.nil_append, List.cons.injEq,
    true_and] at h
  exact quoted_unique h

theorem separated_then (part : Bytes) (rest : List Bytes) (close : Byte) (s : Bytes) :
    separated (part :: rest) ++ close :: s
      = part ++ if rest = [] then close :: s else ch ',' :: (separated rest ++ close :: s) := by
  cases rest with
  | nil => rfl
  | cons next rest => simp [separated]

section

variable {δ : Type} {render : δ → Bytes} {close : Byte}

/-- Parts that are each read one way are so in sequence, up to the closing bracket. -/
theorem separated_unique (hclose : close = ch ']' ∨ close = ch '\x7d') {xs ys : List δ}
    (hx : ∀ x ∈ xs, ∃ c r, render x = c :: r ∧ c ≠ close)
    (hy : ∀ y ∈ ys, ∃ c r, render y = c :: r ∧ c ≠ close)
    (hread : ∀ x ∈ xs, ∀ y ∈ ys, ∀ s t, Delimited s → Delimited t →
      render x ++ s = render y ++ t → x = y ∧ s = t) {s t : Bytes}
    (h : separated (xs.map render) ++ close :: s = separated (ys.map render) ++ close :: t) :
    xs = ys ∧ s = t := by
  have hcomma : close ≠ ch ',' := by rcases hclose with rfl | rfl <;> decide
  have hdelimited : ∀ (rest : List Bytes) (s : Bytes),
      Delimited (if rest = [] then close :: s else ch ',' :: (separated rest ++ close :: s)) := by
    intro rest s c hc
    split at hc <;> simp only [List.head?_cons, Option.mem_some_iff] at hc
    · exact Or.inr (hc ▸ hclose)
    · exact Or.inl hc.symm
  induction xs generalizing ys with
  | nil =>
    cases ys with
    | nil => exact ⟨rfl, (List.cons.inj h).2⟩
    | cons y ys =>
      obtain ⟨c, r, hr, hne⟩ := hy y (by simp)
      rw [List.map_cons, separated_then, hr] at h
      exact absurd (List.cons.inj h).1.symm hne
  | cons x xs ih =>
    cases ys with
    | nil =>
      obtain ⟨c, r, hr, hne⟩ := hx x (by simp)
      rw [List.map_cons, separated_then, hr] at h
      exact absurd (List.cons.inj h).1 hne
    | cons y ys =>
      rw [List.map_cons, List.map_cons, separated_then, separated_then] at h
      obtain ⟨hxy, htail⟩ := hread x (by simp) y (by simp) _ _ (hdelimited _ _) (hdelimited _ _) h
      subst hxy
      cases xs with
      | nil =>
        cases ys with
        | nil => exact ⟨rfl, (List.cons.inj htail).2⟩
        | cons y' ys => exact absurd (List.cons.inj htail).1 hcomma
      | cons x' xs =>
        cases ys with
        | nil => exact absurd (List.cons.inj htail).1.symm hcomma
        | cons y' ys =>
          obtain ⟨heq, hst⟩ := ih (fun x h => hx x (List.mem_cons_of_mem _ h))
            (fun y h => hy y (List.mem_cons_of_mem _ h))
            (fun x hx y hy => hread x (List.mem_cons_of_mem _ hx) y (List.mem_cons_of_mem _ hy))
            (List.cons.inj htail).2
          exact ⟨by rw [heq], hst⟩

end

/-! ## Well-formed values -/

/-- What a kind keeps beside what it prints: nothing. Members are sorted by name. -/
def NodeFormed : Kind → Bytes → List Json → List (Bytes × Json) → Prop
  | .null, value, items, members => value = [] ∧ items = [] ∧ members = []
  | .bool, value, items, members =>
    (value = ascii "true" ∨ value = ascii "false") ∧ items = [] ∧ members = []
  | .number, value, items, members => isNumber value ∧ items = [] ∧ members = []
  | .string, _, items, members => items = [] ∧ members = []
  | .array, value, _, members => value = [] ∧ members = []
  | .object, value, items, members => value = [] ∧ items = [] ∧ Assoc.Sorted members

mutual

/-- A value that a constructor or the parser makes. -/
def WellFormed : Json → Prop
  | mk kind value items members =>
    NodeFormed kind value items members ∧ ItemsFormed items ∧ MembersFormed members

/-- Every item is well formed. -/
def ItemsFormed : List Json → Prop
  | [] => True
  | j :: items => WellFormed j ∧ ItemsFormed items

/-- Every member is well formed. -/
def MembersFormed : List (Bytes × Json) → Prop
  | [] => True
  | (_, j) :: members => WellFormed j ∧ MembersFormed members

end

theorem itemsFormed_iff (items : List Json) :
    ItemsFormed items ↔ ∀ j ∈ items, WellFormed j := by
  induction items with
  | nil => simp [ItemsFormed]
  | cons j items ih => simp [ItemsFormed, ih]

theorem membersFormed_iff (members : List (Bytes × Json)) :
    MembersFormed members ↔ ∀ e ∈ members, WellFormed e.2 := by
  induction members with
  | nil => simp [MembersFormed]
  | cons e members ih =>
    obtain ⟨key, j⟩ := e
    simp [MembersFormed, ih]

theorem wellFormed_mk {kind : Kind} {value : Bytes} {items : List Json}
    {members : List (Bytes × Json)} :
    WellFormed (mk kind value items members) ↔ NodeFormed kind value items members ∧
      (∀ j ∈ items, WellFormed j) ∧ ∀ e ∈ members, WellFormed e.2 := by
  rw [WellFormed, itemsFormed_iff, membersFormed_iff]

/-- The kind of a value, by the first byte of its text. -/
def headKind (b : Byte) : Kind :=
  if b = ch '"' then .string
  else if b = ch 'n' then .null
  else if b = ch 't' ∨ b = ch 'f' then .bool
  else if b = ch '[' then .array
  else if b = ch '\x7b' then .object
  else .number

theorem headKind_number {b : Byte} (h : isNumberByte b = true) : headKind b = .number := by
  unfold headKind
  rw [if_neg, if_neg, if_neg, if_neg, if_neg]
  all_goals
    intro hb
    first
      | (rw [hb] at h; exact absurd h (by decide))
      | (rcases hb with hb | hb <;> rw [hb] at h <;> exact absurd h (by decide))

/-- The bytes that start a value. -/
def startsValue (b : Byte) : Bool :=
  isNumberByte b ∨ b = ch '"' ∨ b = ch 'n' ∨ b = ch 't' ∨ b = ch 'f' ∨ b = ch '[' ∨ b = ch '\x7b'

theorem dump_head {j : Json} (h : WellFormed j) :
    ∃ c r, dump j = c :: r ∧ headKind c = j.kind ∧ startsValue c = true := by
  obtain ⟨kind, value, items, members⟩ := j
  obtain ⟨hnode, -, -⟩ := wellFormed_mk.mp h
  cases kind with
  | null => exact ⟨ch 'n', ascii "ull", by rw [dump]; decide, rfl, rfl⟩
  | bool =>
    rcases hnode.1 with rfl | rfl
    · exact ⟨ch 't', ascii "rue", by rw [dump]; decide, rfl, rfl⟩
    · exact ⟨ch 'f', ascii "alse", by rw [dump]; decide, rfl, rfl⟩
  | number =>
    have hnumber : isNumber value := hnode.1
    cases value with
    | nil => exact absurd rfl hnumber.ne_nil
    | cons c r =>
      have hall := hnumber.all
      simp only [List.all_cons, Bool.and_eq_true] at hall
      exact ⟨c, r, by rw [dump], headKind_number hall.1, by simp [startsValue, hall.1]⟩
  | string => exact ⟨ch '"', _, by rw [dump]; rfl, rfl, rfl⟩
  | array => exact ⟨ch '[', _, by rw [dump]; rfl, rfl, rfl⟩
  | object => exact ⟨ch '\x7b', _, by rw [dump]; rfl, rfl, rfl⟩

theorem number_unique {v w s t : Bytes} (hv : isNumber v) (hw : isNumber w) (hs : Delimited s)
    (ht : Delimited t) (h : v ++ s = w ++ t) : v = w ∧ s = t := by
  have htake : ∀ {v s : Bytes}, isNumber v → Delimited s →
      (v ++ s).takeWhile isNumberByte = v := by
    intro v s hv hs
    rw [List.takeWhile_append_of_pos (List.all_eq_true.mp hv.all)]
    cases s with
    | nil => simp
    | cons c s => simp [hs.not_numberByte c rfl]
  have hvw : v = w := by rw [← htake hv hs, h, htake hw ht]
  subst hvw
  exact ⟨rfl, List.append_cancel_left h⟩

/-! ## Decimal text -/

theorem digitByte_val {d : ℕ} (h : d < 10) : (digitByte d).val = 48 + d := by
  simp only [digitByte, Fin.val_ofNat]
  omega

theorem isDigit_digitByte {d : ℕ} (h : d < 10) : isDigit (digitByte d) = true := by
  have hval := digitByte_val h
  have h0 : (ch '0').val = 48 := by decide
  have h9 : (ch '9').val = 57 := by decide
  simp only [isDigit, Fin.le_def, decide_eq_true_eq]
  omega

theorem decimal_digits (n : ℕ) : (decimal n).all isDigit = true := by
  unfold decimal
  split
  · decide
  · simp only [List.all_map, List.all_reverse, List.all_eq_true, Function.comp_apply]
    exact fun d hd => isDigit_digitByte (Nat.digits_lt_base (by omega) hd)

theorem decimal_ne_nil (n : ℕ) : decimal n ≠ [] := by
  unfold decimal
  split
  · simp
  · rename_i hn
    simp [Nat.digits_ne_nil_iff_ne_zero, hn]

theorem foldl_digits (ds : List ℕ) (h : ∀ d ∈ ds, d < 10) :
    (ds.reverse.map digitByte).foldl (fun n b => 10 * n + (b.val - 48)) 0 = Nat.ofDigits 10 ds := by
  induction ds with
  | nil => rfl
  | cons d ds ih =>
    have hd := digitByte_val (h d (by simp))
    rw [List.reverse_cons, List.map_append, List.foldl_append,
      ih fun x hx => h x (List.mem_cons_of_mem _ hx), Nat.ofDigits_cons]
    simp only [List.map_cons, List.map_nil, List.foldl_cons, List.foldl_nil, hd]
    omega

theorem foldl_decimal (n : ℕ) : (decimal n).foldl (fun n b => 10 * n + (b.val - 48)) 0 = n := by
  unfold decimal
  split
  · rename_i hn
    rw [hn]
    decide
  · rw [foldl_digits _ fun d hd => Nat.digits_lt_base (by omega) hd, Nat.ofDigits_digits]

theorem decimal_injective : Function.Injective decimal := by
  intro m n h
  rw [← foldl_decimal m, h, foldl_decimal]

theorem dropWhile_all {p : Byte → Bool} {s : Bytes} (h : s.all p = true) : s.dropWhile p = [] :=
  List.dropWhile_eq_nil_iff.mpr (List.all_eq_true.mp h)

theorem scanWhole_decimal (n : ℕ) : scanWhole (decimal n) = .ok [] := by
  by_cases hn : n = 0
  · rw [hn]
    decide
  · have hdigits := decimal_digits n
    have hhead : (decimal n).head? ≠ some (ch '0') := by
      simp only [decimal, hn, if_false, List.head?_map, List.head?_reverse]
      intro hzero
      cases hlast : (Nat.digits 10 n).getLast? with
      | none => simp [hlast] at hzero
      | some d =>
        have hne : Nat.digits 10 n ≠ [] := Nat.digits_ne_nil_iff_ne_zero.mpr hn
        have hd : (Nat.digits 10 n).getLast hne = d := by
          rw [List.getLast?_eq_some_getLast hne] at hlast
          exact Option.some.inj hlast
        have hlt : d < 10 := Nat.digits_lt_base (by omega) (List.mem_of_getLast? hlast)
        have hval := digitByte_val hlt
        simp only [hlast, Option.map_some, Option.some.injEq] at hzero
        rw [hzero] at hval
        have h0 : (ch '0').val = 48 := by decide
        exact absurd (hd.trans (by omega : d = 0)) (Nat.getLast_digit_ne_zero 10 hn)
    cases hs : decimal n with
    | nil => exact absurd hs (decimal_ne_nil n)
    | cons c s =>
      rw [hs] at hdigits hhead
      simp only [List.all_cons, Bool.and_eq_true] at hdigits
      have hc : c ≠ ch '0' := fun h => hhead (by rw [h]; rfl)
      simp only [scanWhole, hc, if_false, scanDigits, hdigits.1, if_true, dropWhile_all hdigits.2]

theorem isNumber_decimal (n : ℕ) : isNumber (decimal n) := by
  have hskip : skipIf (fun c => c = ch '-') (decimal n) = decimal n := by
    have hdigits := decimal_digits n
    cases hs : decimal n with
    | nil => rfl
    | cons c s =>
      rw [hs] at hdigits
      simp only [List.all_cons, Bool.and_eq_true] at hdigits
      have hc : c ≠ ch '-' := fun h => absurd hdigits.1 (by rw [h]; decide)
      simp [skipIf, hc]
  unfold isNumber scanNumber
  rw [hskip, scanWhole_decimal]
  rfl

/-! ## Values from their texts -/

/-- A printed value is known by its bytes. -/
theorem dump_unique (a : Json) : ∀ b, WellFormed a → WellFormed b → ∀ s t, Delimited s →
    Delimited t → dump a ++ s = dump b ++ t → a = b ∧ s = t := by
  induction a using induct with
  | h kind value items members hitems hmembers =>
    intro b ha hb s t hs ht h
    obtain ⟨kind', value', items', members'⟩ := b
    -- the first byte says the kind
    have hkind : kind = kind' := by
      obtain ⟨c, r, hc, hhead, -⟩ := dump_head ha
      obtain ⟨d, r', hd, hhead', -⟩ := dump_head hb
      rw [hc, hd] at h
      have hcd : c = d := (List.cons.inj h).1
      rw [hcd] at hhead
      exact hhead.symm.trans hhead'
    subst hkind
    obtain ⟨hnode, haitems, hamembers⟩ := wellFormed_mk.mp ha
    obtain ⟨hnode', hbitems, hbmembers⟩ := wellFormed_mk.mp hb
    cases kind with
    | null =>
      obtain ⟨rfl, rfl, rfl⟩ := hnode
      obtain ⟨rfl, rfl, rfl⟩ := hnode'
      exact ⟨rfl, List.append_cancel_left h⟩
    | bool =>
      obtain ⟨hv, rfl, rfl⟩ := hnode
      obtain ⟨hw, rfl, rfl⟩ := hnode'
      rw [dump, dump] at h
      have hvalue : value = value' := by
        rcases hv with rfl | rfl <;> rcases hw with rfl | rfl
        · rfl
        · exact absurd (List.cons.inj h).1 (by decide)
        · exact absurd (List.cons.inj h).1 (by decide)
        · rfl
      subst hvalue
      exact ⟨rfl, List.append_cancel_left h⟩
    | number =>
      obtain ⟨hv, rfl, rfl⟩ := hnode
      obtain ⟨hw, rfl, rfl⟩ := hnode'
      rw [dump, dump] at h
      obtain ⟨rfl, hst⟩ := number_unique hv hw hs ht h
      exact ⟨rfl, hst⟩
    | string =>
      obtain ⟨rfl, rfl⟩ := hnode
      obtain ⟨rfl, rfl⟩ := hnode'
      rw [dump, dump] at h
      obtain ⟨rfl, hst⟩ := quote_unique h
      exact ⟨rfl, hst⟩
    | array =>
      obtain ⟨rfl, rfl⟩ := hnode
      obtain ⟨rfl, rfl⟩ := hnode'
      simp only [dump, dumpItems_eq, List.cons_append, List.append_assoc, List.nil_append,
        List.cons.injEq, true_and] at h
      have hhead : ∀ j, WellFormed j → ∃ c r, dump j = c :: r ∧ c ≠ ch ']' := by
        intro j hj
        obtain ⟨c, r, hc, -, hstart⟩ := dump_head hj
        refine ⟨c, r, hc, fun heq => ?_⟩
        rw [heq] at hstart
        exact absurd hstart (by decide)
      obtain ⟨rfl, hst⟩ := separated_unique (Or.inl rfl) (fun j hj => hhead j (haitems j hj))
        (fun j hj => hhead j (hbitems j hj))
        (fun x hx y hy => hitems x hx y (haitems x hx) (hbitems y hy)) h
      exact ⟨rfl, hst⟩
    | object =>
      obtain ⟨rfl, rfl, -⟩ := hnode
      obtain ⟨rfl, rfl, -⟩ := hnode'
      simp only [dump, dumpMembers_eq, List.cons_append, List.append_assoc, List.nil_append,
        List.cons.injEq, true_and] at h
      have hhead : ∀ e : Bytes × Json, ∃ c r, dumpMember e = c :: r ∧ c ≠ ch '\x7d' :=
        fun e => ⟨ch '"', _, rfl, by decide⟩
      have hread : ∀ x ∈ members, ∀ y ∈ members', ∀ s t, Delimited s → Delimited t →
          dumpMember x ++ s = dumpMember y ++ t → x = y ∧ s = t := by
        intro x hx y hy s t hs ht h
        simp only [dumpMember, List.append_assoc] at h
        obtain ⟨hkey, h⟩ := quote_unique h
        obtain ⟨hvalue, hst⟩ := hmembers x hx y.2 (hamembers x hx) (hbmembers y hy) s t hs ht
          (List.cons.inj h).2
        exact ⟨Prod.ext hkey hvalue, hst⟩
      obtain ⟨rfl, hst⟩ := separated_unique (Or.inr rfl) (fun e _ => hhead e) (fun e _ => hhead e)
        hread h
      exact ⟨rfl, hst⟩

theorem dump_injective {a b : Json} (ha : WellFormed a) (hb : WellFormed b)
    (h : dump a = dump b) : a = b :=
  (dump_unique a b ha hb [] [] (by simp [Delimited]) (by simp [Delimited]) (by rw [h])).1

end Json

end PineForge.Runner
