import PineForge.Runner.Json

/-!
# Reading JSON

`JsonParser`: a bounded reader of one value, at most 1 MiB of text and 32 levels deep. A scan works
on what is left of the text and fails at what is then left. What it reads has nothing hidden, and of
a printed value it reads that value, if it reads one.
-/

namespace PineForge.Runner

namespace Json

/-- Space of JSON. -/
def isSpace (b : Byte) : Bool := b = 32 ∨ b = 9 ∨ b = 13 ∨ b = 10

/-- The text behind its space. -/
def skipSpace (s : Bytes) : Bytes := s.dropWhile isSpace

/-- The byte that must come next. -/
def expect (b : Byte) : Bytes → Except ℕ Bytes
  | [] => .error 0
  | c :: s => if c = b then .ok s else .error (s.length + 1)

/-! ## Strings -/

/-- The value of a hexadecimal digit. -/
def hexValue (b : Byte) : Option ℕ :=
  if 48 ≤ b ∧ b ≤ 57 then some (b.val - 48)
  else if 97 ≤ b ∧ b ≤ 102 then some (b.val - 87)
  else if 65 ≤ b ∧ b ≤ 70 then some (b.val - 55)
  else none

/-- Read so many hexadecimal digits. -/
def hexDigits : ℕ → ℕ → Bytes → Except ℕ (ℕ × Bytes)
  | 0, n, s => .ok (n, s)
  | _ + 1, _, [] => .error 0
  | k + 1, n, c :: s =>
    match hexValue c with
    | some d => hexDigits k (16 * n + d) s
    | none => .error s.length

/-- Read four of them. -/
def hex4 (s : Bytes) : Except ℕ (ℕ × Bytes) := hexDigits 4 0 s

/-- The UTF-8 bytes of a code point. -/
def utf8 (point : ℕ) : Bytes :=
  if point < 0x80 then [Fin.ofNat 256 point]
  else if point < 0x800 then
    [Fin.ofNat 256 (0xc0 + point / 64), Fin.ofNat 256 (0x80 + point % 64)]
  else if point < 0x10000 then
    [Fin.ofNat 256 (0xe0 + point / 4096), Fin.ofNat 256 (0x80 + point / 64 % 64),
      Fin.ofNat 256 (0x80 + point % 64)]
  else
    [Fin.ofNat 256 (0xf0 + point / 262144), Fin.ofNat 256 (0x80 + point / 4096 % 64),
      Fin.ofNat 256 (0x80 + point / 64 % 64), Fin.ofNat 256 (0x80 + point % 64)]

/-- The continuation bytes of a character. -/
def tailBytes : ℕ → ℕ → Bytes → Except ℕ (ℕ × Bytes)
  | 0, point, s => .ok (point, s)
  | _ + 1, _, [] => .error 0
  | k + 1, point, c :: s =>
    if c.val / 64 = 2 then tailBytes k (64 * point + c.val % 64) s else .error s.length

/-- How many continuation bytes a first byte asks for. -/
def tailCount (c : Byte) : ℕ :=
  if 0xf0 ≤ c then 3 else if 0xe0 ≤ c then 2 else if 0xc2 ≤ c then 1 else 0

/-- The least point of so many bytes. -/
def leastPoint (n : ℕ) : ℕ := if n = 1 then 0x80 else if n = 2 then 0x800 else 0x10000

/-- A surrogate. -/
def isSurrogate (point : ℕ) : Bool := 0xd800 ≤ point ∧ point ≤ 0xdfff

/-- A character of more than one byte. -/
def readWide (c : Byte) (s : Bytes) : Except ℕ (Bytes × Bytes) := do
  let n := tailCount c
  if n = 0 ∨ 0xf4 < c then .error s.length
  else do
    let (point, s) ← tailBytes n (c.val % 2 ^ (6 - n)) s
    if point < leastPoint n ∨ 0x10ffff < point ∨ isSurrogate point then .error s.length
    else .ok (utf8 point, s)

/-- The code point of an escape, from its first four digits on. -/
def readPoint (s : Bytes) : Except ℕ (ℕ × Bytes) := do
  let (point, s) ← hex4 s
  if 0xd800 ≤ point ∧ point ≤ 0xdbff then do
    let s ← expect (ch '\\') s
    let s ← expect (ch 'u') s
    let (low, s) ← hex4 s
    if low < 0xdc00 ∨ 0xdfff < low then .error s.length
    else .ok (0x10000 + (point - 0xd800) * 1024 + (low - 0xdc00), s)
  else if 0xdc00 ≤ point ∧ point ≤ 0xdfff then .error s.length
  else .ok (point, s)

/-- Read what follows a backslash. -/
def readEscape : Bytes → Except ℕ (Bytes × Bytes)
  | [] => .error 0
  | e :: s =>
    if e = ch '"' ∨ e = ch '\\' ∨ e = ch '/' then .ok ([e], s)
    else if e = ch 'b' then .ok ([8], s)
    else if e = ch 'f' then .ok ([12], s)
    else if e = ch 'n' then .ok ([10], s)
    else if e = ch 'r' then .ok ([13], s)
    else if e = ch 't' then .ok ([9], s)
    else if e = ch 'u' then do
      let (point, s) ← readPoint s
      .ok (utf8 point, s)
    else .error s.length

/-- One turn of a string's loop: what it adds, or its end. -/
def readChar : Bytes → Except ℕ (Option Bytes × Bytes)
  | [] => .error 0
  | c :: s =>
    if c = ch '"' then .ok (none, s)
    else if c < 32 then .error s.length
    else if c = ch '\\' then do
      let (b, s) ← readEscape s
      .ok (some b, s)
    else if c < 128 then .ok (some [c], s)
    else do
      let (b, s) ← readWide c s
      .ok (some b, s)

/-- The loop of a string, a turn for each unit of fuel. -/
def readChars : ℕ → Bytes → Except ℕ (Bytes × Bytes)
  | 0, s => .error s.length
  | fuel + 1, s => do
    let (b, s) ← readChar s
    match b with
    | none => .ok ([], s)
    | some b => do
      let (out, s) ← readChars fuel s
      .ok (b ++ out, s)

/-- Read a string. -/
def str (s : Bytes) : Except ℕ (Bytes × Bytes) := do
  let s ← expect (ch '"') s
  readChars (s.length + 1) s

/-! ## Values -/

/-- The items of an array up to its bracket, a turn for each unit of fuel. -/
def readItems (element : Bytes → Except ℕ (Json × Bytes)) : ℕ → Bytes → Except ℕ (List Json × Bytes)
  | 0, s => .error s.length
  | fuel + 1, s => do
    let (j, s) ← element s
    match skipSpace s with
    | [] => .error 0
    | c :: s =>
      if c = ch ']' then .ok ([j], s)
      else if c = ch ',' then do
        let (items, s) ← readItems element fuel s
        .ok (j :: items, s)
      else .error (s.length + 1)

/-- The members of an object up to its brace, a turn for each unit of fuel. -/
def readMembers (element : Bytes → Except ℕ (Json × Bytes)) :
    ℕ → List (Bytes × Json) → Bytes → Except ℕ (List (Bytes × Json) × Bytes)
  | 0, _, s => .error s.length
  | fuel + 1, members, s => do
    let (key, s) ← str (skipSpace s)
    let s ← expect (ch ':') (skipSpace s)
    let (j, s) ← element s
    if (Assoc.find key members).isSome then .error s.length
    else
      match skipSpace s with
      | [] => .error 0
      | c :: s =>
        if c = ch '\x7d' then .ok (Assoc.put key j members, s)
        else if c = ch ',' then readMembers element fuel (Assoc.put key j members) s
        else .error (s.length + 1)

/-- Read an array behind its bracket. -/
def readArray (element : Bytes → Except ℕ (Json × Bytes)) (s : Bytes) : Except ℕ (Json × Bytes) :=
  do
  let s := skipSpace s
  if s.head? = some (ch ']') then .ok (array [], s.tail)
  else do
    let (items, s) ← readItems element (s.length + 1) s
    .ok (array items, s)

/-- Read an object behind its brace. -/
def readObject (element : Bytes → Except ℕ (Json × Bytes)) (s : Bytes) :
    Except ℕ (Json × Bytes) := do
  let s := skipSpace s
  if s.head? = some (ch '\x7d') then .ok (object [], s.tail)
  else do
    let (members, s) ← readMembers element (s.length + 1) [] s
    .ok (object members, s)

/-- The literals. -/
def literals : List (Bytes × Json) :=
  [(ascii "null", null), (ascii "true", boolean true), (ascii "false", boolean false)]

/-- Read a number. -/
def readNumber (s : Bytes) : Except ℕ (Json × Bytes) :=
  match scanNumber s with
  | .ok rest => .ok (number (s.take (s.length - rest.length)), rest)
  | .error e => .error e

/-- `parse`, with the levels that are left. -/
def parse : ℕ → Bytes → Except ℕ (Json × Bytes)
  | 0, s => .error s.length
  | levels + 1, s =>
    match skipSpace s with
    | [] => .error 0
    | c :: rest =>
      if c = ch '"' then do
        let (value, s) ← str (c :: rest)
        .ok (string value, s)
      else if c = ch '\x7b' then readObject (parse levels) rest
      else if c = ch '[' then readArray (parse levels) rest
      else
        match literals.find? fun l => l.1.isPrefixOf (c :: rest) with
        | some l => .ok (l.2, (c :: rest).drop l.1.length)
        | none => readNumber (c :: rest)

/-- The most levels. -/
def maxDepth : ℕ := 32

/-- The most bytes. -/
def maxFrame : ℕ := 1024 * 1024

/-- The error at an offset. -/
def invalidAt (s : Bytes) (left : ℕ) : Error :=
  ascii "invalid JSON at byte " ++ decimal (s.length - left)

/-- `parse_json`. -/
def parseJson (s : Bytes) : Except Error Json :=
  if s.length > maxFrame then .error (ascii "JSON frame exceeds 1 MiB")
  else
    match parse maxDepth s with
    | .error left => .error (invalidAt s left)
    | .ok (j, rest) =>
      match skipSpace rest with
      | [] => .ok j
      | left => .error (invalidAt s left.length)

/-! ## Every turn of a loop reads something -/

theorem expect_eq_ok {b : Byte} {s r : Bytes} : expect b s = .ok r ↔ s = b :: r := by
  cases s with
  | nil => simp [expect]
  | cons c s =>
    simp only [expect]
    split
    · rename_i hc
      simp [hc]
    · rename_i hc
      simp [hc]

/-! ## Number tokens on their own -/

/-- A scan does not look past what it leaves. -/
def Cuts (f : Bytes → Except ℕ Bytes) : Prop :=
  ∀ p m r, f (p ++ (m ++ r)) = .ok (m ++ r) → f (p ++ m) = .ok m

theorem scanDigits_length {s r : Bytes} (h : scanDigits s = .ok r) : r.length < s.length := by
  cases s with
  | nil => cases h
  | cons c s =>
    simp only [scanDigits] at h
    split at h
    · rw [← Except.ok.inj h]
      exact Nat.lt_succ_of_le (List.dropWhile_suffix isDigit).length_le
    · cases h

theorem scanWhole_length {s r : Bytes} (h : scanWhole s = .ok r) : r.length < s.length := by
  cases s with
  | nil => cases h
  | cons c s =>
    simp only [scanWhole] at h
    split at h
    · rw [← Except.ok.inj h]
      exact Nat.lt_succ_self _
    · exact scanDigits_length h

theorem dropWhile_cut {q : Byte → Bool} (p m r : Bytes)
    (h : (p ++ (m ++ r)).dropWhile q = m ++ r) : (p ++ m).dropWhile q = m := by
  induction p with
  | nil =>
    cases m with
    | nil => rfl
    | cons c m =>
      -- the first byte left is none to drop
      cases hq : q c with
      | false => simp [hq]
      | true =>
        rw [List.nil_append, List.cons_append, List.dropWhile_cons_of_pos hq] at h
        have hle := (List.dropWhile_suffix (l := m ++ r) q).length_le
        rw [h, List.length_cons] at hle
        exact absurd hle (Nat.not_succ_le_self _)
  | cons c p ih =>
    cases hq : q c with
    | false =>
      rw [List.cons_append, List.dropWhile_cons_of_neg (by simp [hq])] at h
      have hlength := congrArg List.length h
      simp only [List.length_cons, List.length_append] at hlength
      omega
    | true =>
      rw [List.cons_append, List.dropWhile_cons_of_pos hq] at h ⊢
      exact ih h

theorem cuts_digits : Cuts scanDigits := by
  intro p m r h
  cases p with
  | nil => exact absurd (scanDigits_length h) (Nat.lt_irrefl _)
  | cons c p =>
    simp only [List.cons_append, scanDigits] at h ⊢
    split at h
    · rename_i hd
      rw [if_pos hd, dropWhile_cut p m r (Except.ok.inj h)]
    · cases h

theorem cuts_whole : Cuts scanWhole := by
  intro p m r h
  cases p with
  | nil => exact absurd (scanWhole_length h) (Nat.lt_irrefl _)
  | cons c p =>
    simp only [List.cons_append, scanWhole] at h ⊢
    split at h
    · rename_i hc
      rw [if_pos hc]
      have hp : p = [] := List.append_left_eq_self.mp (Except.ok.inj h)
      rw [hp]
      rfl
    · rename_i hc
      rw [if_neg hc]
      exact cuts_digits (c :: p) m r h

theorem skipIf_length (q : Byte → Bool) (s : Bytes) : (skipIf q s).length ≤ s.length := by
  cases s with
  | nil => exact le_refl _
  | cons c s =>
    simp only [skipIf]
    split
    · exact Nat.le_succ _
    · exact le_refl _

theorem Cuts.skipIf {f : Bytes → Except ℕ Bytes} (hf : Cuts f)
    (hlength : ∀ {s r}, f s = .ok r → r.length < s.length) (q : Byte → Bool) :
    Cuts fun s => f (Json.skipIf q s) := by
  intro p m r h
  dsimp only at h ⊢
  cases p with
  | nil =>
    have hlt := hlength h
    have hle := skipIf_length q (m ++ r)
    rw [List.nil_append] at hlt
    omega
  | cons c p =>
    simp only [List.cons_append, Json.skipIf] at h ⊢
    split at h
    · rename_i hc
      rw [if_pos hc]
      exact hf p m r h
    · rename_i hc
      rw [if_neg hc]
      exact hf (c :: p) m r h

theorem Cuts.optional {f g : Bytes → Except ℕ Bytes} {q : Byte → Bool} (hf : Cuts f)
    (hlength : ∀ {s r}, f s = .ok r → r.length < s.length) (hnil : g [] = .ok [])
    (hcons : ∀ c s, g (c :: s) = if q c then f s else .ok (c :: s)) : Cuts g := by
  intro p m r h
  cases p with
  | nil =>
    cases m with
    | nil => exact hnil
    | cons c m =>
      rw [List.nil_append, List.cons_append, hcons] at h
      rw [List.nil_append, hcons]
      split at h
      · have hlt := hlength h
        rw [List.length_cons] at hlt
        omega
      · rename_i hc
        rw [if_neg hc]
  | cons c p =>
    rw [List.cons_append, hcons] at h ⊢
    split at h
    · rename_i hc
      rw [if_pos hc]
      exact hf p m r h
    · have heq := congrArg List.length (Except.ok.inj h)
      simp only [List.length_cons, List.length_append] at heq
      omega

theorem Cuts.bind {f g : Bytes → Except ℕ Bytes} (hf : Cuts f) (hg : Cuts g) (hsf : Scans f)
    (hsg : Scans g) : Cuts fun s => f s >>= g := by
  intro p m r h
  obtain ⟨t, ht, h⟩ := Result.bind_eq_ok.mp h
  obtain ⟨p1, hp1, -⟩ := hsf.reads _ _ ht
  obtain ⟨p2, hp2, -⟩ := hsg.reads _ _ h
  have hp : p = p1 ++ p2 := by
    refine List.append_cancel_right (hp1.trans ?_)
    rw [hp2, List.append_assoc]
  rw [hp1] at ht
  rw [hp2] at ht h
  have hfirst := hf p1 (p2 ++ m) r (by rwa [List.append_assoc])
  dsimp only
  rw [hp, List.append_assoc, hfirst, Result.ok_bind]
  exact hg p2 m r h

theorem cuts_number : Cuts scanNumber := by
  have hsign : Cuts fun s => scanWhole (skipIf (fun c => c = ch '-') s) :=
    cuts_whole.skipIf scanWhole_length _
  have hfraction : Cuts scanFraction :=
    Cuts.optional (q := fun c => c = ch '.') cuts_digits scanDigits_length rfl
      (fun c s => by simp [scanFraction])
  have hexponent : Cuts scanExponent :=
    Cuts.optional (q := fun c => c = ch 'e' ∨ c = ch 'E')
      (cuts_digits.skipIf scanDigits_length fun c => c = ch '+' ∨ c = ch '-')
      (fun h => lt_of_lt_of_le (scanDigits_length h) (skipIf_length _ _)) rfl
      (fun c s => by simp [scanExponent])
  have hsigned : Scans fun s => scanWhole (skipIf (fun c => c = ch '-') s) := by
    refine scans_skipIf scans_whole scanWhole_nil fun c hc => ?_
    simp only [decide_eq_true_eq] at hc
    simp [isNumberByte, hc]
  exact hsign.bind (hfraction.bind hexponent scans_fraction scans_exponent) hsigned
    (scans_fraction.bind scans_exponent)

theorem readNumber_eq_ok {s : Bytes} {j : Json} {r : Bytes} (h : readNumber s = .ok (j, r)) :
    scanNumber s = .ok r ∧ ∃ v, isNumber v ∧ j = number v ∧ s = v ++ r := by
  unfold readNumber at h
  cases hscan : scanNumber s with
  | error e =>
    rw [hscan] at h
    cases h
  | ok rest =>
    rw [hscan] at h
    obtain ⟨p, hp, -⟩ := scans_number.reads s rest hscan
    simp only [Except.ok.injEq, Prod.mk.injEq] at h
    obtain ⟨hj, rfl⟩ := h
    have htake : s.take (s.length - rest.length) = p := by
      rw [hp, List.length_append, Nat.add_sub_cancel, List.take_left]
    refine ⟨rfl, p, ?_, ?_, hp⟩
    · have hcut := cuts_number p [] rest (by rw [List.nil_append, ← hp, hscan])
      rw [List.append_nil] at hcut
      exact hcut
    · rw [← hj, htake]

/-! ## What is read -/

theorem literals_find {s : Bytes} {l : Bytes × Json}
    (h : literals.find? (fun l => l.1.isPrefixOf s) = some l) :
    l ∈ literals ∧ s = l.1 ++ s.drop l.1.length := by
  refine ⟨List.mem_of_find?_eq_some h, ?_⟩
  have hpre := List.find?_some h
  obtain ⟨t, ht⟩ := List.isPrefixOf_iff_prefix.mp hpre
  rw [← ht, List.drop_left]

theorem readArray_eq_ok {element : Bytes → Except ℕ (Json × Bytes)} {s : Bytes}
    {j : Json} {r : Bytes}
    (h : readArray element s = .ok (j, r)) :
    (j = array [] ∧ skipSpace s = ch ']' :: r) ∨
      ∃ items, j = array items ∧
        readItems element ((skipSpace s).length + 1) (skipSpace s) = .ok (items, r) := by
  simp only [readArray] at h
  split at h
  · rename_i hhead
    simp only [Except.ok.injEq, Prod.mk.injEq] at h
    refine Or.inl ⟨h.1.symm, ?_⟩
    rw [← h.2]
    exact (List.cons_head?_tail hhead).symm
  · obtain ⟨⟨items, t⟩, ht, h⟩ := Result.bind_eq_ok.mp h
    simp only [Except.ok.injEq, Prod.mk.injEq] at h
    exact Or.inr ⟨items, h.1.symm, h.2 ▸ ht⟩

theorem readObject_eq_ok {element : Bytes → Except ℕ (Json × Bytes)} {s : Bytes}
    {j : Json} {r : Bytes}
    (h : readObject element s = .ok (j, r)) :
    (j = object [] ∧ skipSpace s = ch '\x7d' :: r) ∨
      ∃ members, j = object members ∧
        readMembers element ((skipSpace s).length + 1) [] (skipSpace s) = .ok (members, r) := by
  simp only [readObject] at h
  split at h
  · rename_i hhead
    simp only [Except.ok.injEq, Prod.mk.injEq] at h
    refine Or.inl ⟨h.1.symm, ?_⟩
    rw [← h.2]
    exact (List.cons_head?_tail hhead).symm
  · obtain ⟨⟨members, t⟩, ht, h⟩ := Result.bind_eq_ok.mp h
    simp only [Except.ok.injEq, Prod.mk.injEq] at h
    exact Or.inr ⟨members, h.1.symm, h.2 ▸ ht⟩

/-- What a parsed value begins with. -/
theorem parse_eq_ok {levels : ℕ} {s : Bytes} {j : Json} {r : Bytes}
    (h : parse (levels + 1) s = .ok (j, r)) :
    ∃ c rest, skipSpace s = c :: rest ∧
      ((c = ch '"' ∧ ∃ value, j = string value ∧ str (c :: rest) = .ok (value, r)) ∨
        (c = ch '\x7b' ∧ readObject (parse levels) rest = .ok (j, r)) ∨
        (c = ch '[' ∧ readArray (parse levels) rest = .ok (j, r)) ∨
        (∃ text, (text, j) ∈ literals ∧ c :: rest = text ++ r) ∨
        (scanNumber (c :: rest) = .ok r ∧
          ∃ value, isNumber value ∧ j = number value ∧ c :: rest = value ++ r)) := by
  simp only [parse] at h
  cases hs : skipSpace s with
  | nil =>
    rw [hs] at h
    cases h
  | cons c rest =>
    refine ⟨c, rest, rfl, ?_⟩
    simp only [hs] at h
    split at h
    · rename_i hc
      obtain ⟨⟨value, t⟩, ht, h⟩ := Result.bind_eq_ok.mp h
      simp only [Except.ok.injEq, Prod.mk.injEq] at h
      exact Or.inl ⟨hc, value, h.1.symm, h.2 ▸ ht⟩
    · split at h
      · rename_i hc
        exact Or.inr (Or.inl ⟨hc, h⟩)
      · split at h
        · rename_i hc
          exact Or.inr (Or.inr (Or.inl ⟨hc, h⟩))
        · cases hfind : literals.find? fun l => l.1.isPrefixOf (c :: rest) with
          | some l =>
            simp only [hfind, Except.ok.injEq, Prod.mk.injEq] at h
            obtain ⟨hmem, hsplit⟩ := literals_find hfind
            refine Or.inr (Or.inr (Or.inr (Or.inl ⟨l.1, ?_, ?_⟩)))
            · rw [← h.1]
              exact hmem
            · rw [← h.2]
              exact hsplit
          | none =>
            simp only [hfind] at h
            exact Or.inr (Or.inr (Or.inr (Or.inr (readNumber_eq_ok h))))

/-! ## Nothing hidden in what is read -/

theorem literals_formed : ∀ l ∈ literals, WellFormed l.2 := by
  intro l hl
  simp only [literals, List.mem_cons, List.not_mem_nil, or_false] at hl
  rcases hl with rfl | rfl | rfl
  · exact wellFormed_mk.mpr ⟨⟨rfl, rfl, rfl⟩, by simp, by simp⟩
  · exact wellFormed_mk.mpr ⟨⟨Or.inl rfl, rfl, rfl⟩, by simp, by simp⟩
  · exact wellFormed_mk.mpr ⟨⟨Or.inr rfl, rfl, rfl⟩, by simp, by simp⟩

theorem readItems_formed {element : Bytes → Except ℕ (Json × Bytes)}
    (helement : ∀ s j r, element s = .ok (j, r) → WellFormed j) (fuel : ℕ) :
    ∀ s items r, readItems element fuel s = .ok (items, r) → ∀ j ∈ items, WellFormed j := by
  induction fuel with
  | zero =>
    intro s items r h
    cases h
  | succ fuel ih =>
    intro s items r h
    obtain ⟨⟨j, t⟩, ht, h⟩ := Result.bind_eq_ok.mp h
    have hj := helement s j t ht
    dsimp only at h
    cases hnext : skipSpace t with
    | nil =>
      rw [hnext] at h
      cases h
    | cons c u =>
      simp only [hnext] at h
      split at h
      · cases h
        simpa using hj
      · split at h
        · obtain ⟨⟨rest, v⟩, hv, h⟩ := Result.bind_eq_ok.mp h
          simp only [Except.ok.injEq, Prod.mk.injEq] at h
          rw [← h.1]
          intro x hx
          rcases List.mem_cons.mp hx with rfl | hx
          · exact hj
          · exact ih u rest v hv x hx
        · cases h

/-- Parsed members are sorted. -/
theorem readMembers_formed {element : Bytes → Except ℕ (Json × Bytes)}
    (helement : ∀ s j r, element s = .ok (j, r) → WellFormed j) (fuel : ℕ) :
    ∀ before s members r, Assoc.Sorted before → (∀ e ∈ before, WellFormed e.2) →
      readMembers element fuel before s = .ok (members, r) →
      Assoc.Sorted members ∧ ∀ e ∈ members, WellFormed e.2 := by
  induction fuel with
  | zero =>
    intro before s members r _ _ h
    cases h
  | succ fuel ih =>
    intro before s members r hsorted hformed h
    obtain ⟨⟨key, t⟩, ht, h⟩ := Result.bind_eq_ok.mp h
    obtain ⟨u, hu, h⟩ := Result.bind_eq_ok.mp h
    obtain ⟨⟨j, v⟩, hv, h⟩ := Result.bind_eq_ok.mp h
    have hj := helement u j v hv
    have hput : ∀ e ∈ Assoc.put key j before, WellFormed e.2 := by
      intro e he
      rcases Assoc.mem_put he with rfl | he
      · exact hj
      · exact hformed e he
    dsimp only at h
    split at h
    · cases h
    · cases hnext : skipSpace v with
      | nil =>
        rw [hnext] at h
        cases h
      | cons c w =>
        simp only [hnext] at h
        split at h
        · cases h
          exact ⟨hsorted.put key j, hput⟩
        · split at h
          · exact ih _ w members r (hsorted.put key j) hput h
          · cases h

theorem parse_formed (levels : ℕ) : ∀ s j r, parse levels s = .ok (j, r) → WellFormed j := by
  induction levels with
  | zero =>
    intro s j r h
    cases h
  | succ levels ih =>
    intro s j r h
    obtain ⟨c, rest, -, hcases⟩ := parse_eq_ok h
    rcases hcases with ⟨-, value, rfl, -⟩ | ⟨-, hobject⟩ | ⟨-, harray⟩ | ⟨text, hmem, -⟩ |
      ⟨-, value, hnumber, rfl, -⟩
    · exact wellFormed_mk.mpr ⟨⟨rfl, rfl⟩, by simp, by simp⟩
    · rcases readObject_eq_ok hobject with ⟨rfl, -⟩ | ⟨members, rfl, hread⟩
      · exact wellFormed_mk.mpr ⟨⟨rfl, rfl, List.Pairwise.nil⟩, by simp, by simp⟩
      · obtain ⟨hsorted, hformed⟩ := readMembers_formed ih _ _ _ members r List.Pairwise.nil
          (by simp) hread
        exact wellFormed_mk.mpr ⟨⟨rfl, rfl, hsorted⟩, by simp, hformed⟩
    · rcases readArray_eq_ok harray with ⟨rfl, -⟩ | ⟨items, rfl, hread⟩
      · exact wellFormed_mk.mpr ⟨⟨rfl, rfl⟩, by simp, by simp⟩
      · exact wellFormed_mk.mpr ⟨⟨rfl, rfl⟩, readItems_formed ih _ _ items r hread, by simp⟩
    · exact literals_formed _ hmem
    · exact wellFormed_mk.mpr ⟨⟨hnumber, rfl, rfl⟩, by simp, by simp⟩

theorem parseJson_eq_ok {s : Bytes} {j : Json} (h : parseJson s = .ok j) :
    ∃ r, parse maxDepth s = .ok (j, r) ∧ skipSpace r = [] := by
  unfold parseJson at h
  split at h
  · cases h
  · cases hparse : parse maxDepth s with
    | error e =>
      rw [hparse] at h
      cases h
    | ok p =>
      obtain ⟨j', r⟩ := p
      simp only [hparse] at h
      split at h
      · rename_i hspace
        cases h
        exact ⟨r, rfl, hspace⟩
      · cases h

theorem parseJson_formed {s : Bytes} {j : Json} (h : parseJson s = .ok j) : WellFormed j := by
  obtain ⟨r, hparse, -⟩ := parseJson_eq_ok h
  exact parse_formed _ _ _ _ hparse

end Json

end PineForge.Runner
