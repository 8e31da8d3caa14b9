import Mathlib
import PineForge.Runner.Grammar

/-!
# Strings are read by the grammar

`str` reads the strings of the grammar and no others, each as the UTF-8 bytes of its characters
(`str_eq_ok`). The decoder of wide characters accepts the encodings of scalar values alone: what it
computes is written back as it was read.
-/

namespace PineForge.Runner

namespace Json

/-! ## Characters -/

/-- The scalar values. -/
def isScalar (point : ℕ) : Prop := point < 0xd800 ∨ 0xdfff < point ∧ point < 0x110000

theorem isScalar_toNat (c : Char) : isScalar c.toNat := by
  rcases c.valid with h | h
  · exact .inl h
  · exact .inr h

theorem exists_char {point : ℕ} (h : isScalar point) : ∃ c : Char, c.toNat = point := by
  have hvalid : point.isValidChar := h
  refine ⟨Char.ofNatAux point hvalid, ?_⟩
  rfl

/-- The bytes of a character by its number. -/
theorem utf8_toNat (c : Char) : utf8 c.toNat = charBytes c := by
  have hscalar := isScalar_toNat c
  unfold isScalar at hscalar
  unfold utf8 charBytes String.utf8EncodeChar
  have hval : c.val.toNat = c.toNat := rfl
  rw [hval]
  generalize c.toNat = v at hscalar
  have hbyte : ∀ n m : ℕ, n % 256 = m % 256 → (Fin.ofNat 256 n : Byte) = (UInt8.ofNat m).toFin := by
    intro n m h
    apply Fin.ext
    exact h
  dsimp only
  by_cases h1 : v ≤ 0x7f
  · rw [if_pos (by omega), if_pos h1]
    rfl
  · rw [if_neg (by omega), if_neg h1]
    by_cases h2 : v ≤ 0x7ff
    · rw [if_pos (by omega), if_pos h2]
      simp only [List.map_cons, List.map_nil, List.cons.injEq, and_true]
      refine ⟨hbyte _ _ ?_, hbyte _ _ ?_⟩
      · omega
      · omega
    · rw [if_neg (by omega), if_neg h2]
      by_cases h3 : v ≤ 0xffff
      · rw [if_pos (by omega), if_pos h3]
        simp only [List.map_cons, List.map_nil, List.cons.injEq, and_true]
        refine ⟨hbyte _ _ ?_, hbyte _ _ ?_, hbyte _ _ ?_⟩
        · omega
        · omega
        · omega
      · rw [if_neg (by omega), if_neg h3]
        simp only [List.map_cons, List.map_nil, List.cons.injEq, and_true]
        refine ⟨hbyte _ _ ?_, hbyte _ _ ?_, hbyte _ _ ?_, hbyte _ _ ?_⟩
        · omega
        · omega
        · omega
        · omega

/-- The value of continuation bytes behind a first value. -/
def tailPoint (point : ℕ) (bs : Bytes) : ℕ := bs.foldl (fun p c => 64 * p + c.val % 64) point

/-- The continuation bytes that are read. -/
theorem tailBytes_eq_ok {k point : ℕ} {s : Bytes} {m : ℕ} {r : Bytes} :
    tailBytes k point s = .ok (m, r) ↔
      ∃ bs, s = bs ++ r ∧ bs.length = k ∧ (∀ b ∈ bs, b.val / 64 = 2) ∧ m = tailPoint point bs := by
  induction k generalizing point s with
  | zero =>
    simp only [tailBytes, Except.ok.injEq, Prod.mk.injEq]
    constructor
    · rintro ⟨rfl, rfl⟩
      exact ⟨[], rfl, rfl, by simp, rfl⟩
    · rintro ⟨bs, rfl, hlength, -, rfl⟩
      rw [List.length_eq_zero_iff.mp hlength]
      exact ⟨rfl, rfl⟩
  | succ k ih =>
    cases s with
    | nil =>
      simp only [tailBytes, reduceCtorEq, false_iff, not_exists]
      rintro bs ⟨hs, hlength, -⟩
      have hnil := (List.append_eq_nil_iff.mp hs.symm).1
      rw [hnil] at hlength
      cases hlength
    | cons c s =>
      simp only [tailBytes]
      constructor
      · intro h
        split at h
        · rename_i hc
          obtain ⟨bs, rfl, hlength, hall, hm⟩ := ih.mp h
          refine ⟨c :: bs, rfl, by rw [List.length_cons, hlength], ?_, hm⟩
          intro b hb
          rcases List.mem_cons.mp hb with rfl | hb
          · exact hc
          · exact hall b hb
        · cases h
      · rintro ⟨bs, hs, hlength, hall, hm⟩
        cases bs with
        | nil => cases hlength
        | cons b bs =>
          obtain ⟨rfl, rfl⟩ := List.cons.inj hs
          rw [if_pos (hall c (by simp))]
          exact ih.mpr ⟨bs, rfl, Nat.succ.inj hlength,
            fun b hb => hall b (List.mem_cons_of_mem _ hb), hm⟩

theorem isSurrogate_iff {point : ℕ} (h : point ≤ 0x10ffff) :
    isSurrogate point = false ↔ isScalar point := by
  unfold isSurrogate isScalar
  simp only [decide_eq_false_iff_not]
  omega

/-- A wide sequence read is a character's. -/
theorem readWide_sound {b : Byte} {s out r : Bytes} (h : readWide b s = .ok (out, r)) :
    ∃ c : Char, 0x80 ≤ c.toNat ∧ out = charBytes c ∧ b :: s = charBytes c ++ r := by
  simp only [readWide] at h
  split at h
  · cases h
  · rename_i hfirst
    rw [not_or] at hfirst
    obtain ⟨⟨point, t⟩, ht, hchecks⟩ := Result.bind_eq_ok.mp h
    obtain ⟨bs, rfl, hlength, hall, hpoint⟩ := tailBytes_eq_ok.mp ht
    dsimp only at hchecks
    split at hchecks
    · cases hchecks
    · rename_i hrange
      obtain ⟨hout, rfl⟩ := Prod.mk.inj (Except.ok.inj hchecks)
      rw [not_or, not_or] at hrange
      obtain ⟨hleast, hmost, hsurrogate⟩ := hrange
      have hbytes := utf8_point hfirst.1 hfirst.2 hlength hall hpoint hleast
      have hscalar := (isSurrogate_iff (not_lt.mp hmost)).mp (Bool.not_eq_true _ ▸ hsurrogate)
      obtain ⟨c, hc⟩ := exists_char hscalar
      rw [← hc, utf8_toNat] at hbytes
      refine ⟨c, ?_, ?_, ?_⟩
      · have hpos : 0x80 ≤ leastPoint (tailCount b) := by
          unfold leastPoint
          split
          · exact le_rfl
          · split
            · decide
            · decide
        rw [hc]
        omega
      · rw [← hout, ← hc, utf8_toNat]
      · rw [hbytes, List.cons_append]

theorem ofNat_val {n : ℕ} (h : n < 256) : (Fin.ofNat 256 n : Byte).val = n := Nat.mod_eq_of_lt h

theorem tailCount_eq (b : Byte) :
    tailCount b = if 0xf0 ≤ b.val then 3 else if 0xe0 ≤ b.val then 2 else if 0xc2 ≤ b.val then 1
      else 0 := rfl

theorem readWide_of {point n : ℕ} {b : Byte} {bs : Bytes} (hscalar : isScalar point)
    (hcount : tailCount b = n)
    (hn : n ≠ 0) (hb : b.val ≤ 0xf4) (hlength : bs.length = n) (hall : ∀ c ∈ bs, c.val / 64 = 2)
    (hpoint : tailPoint (b.val % 2 ^ (6 - n)) bs = point) (hleast : leastPoint n ≤ point)
    (r : Bytes) :
    readWide b (bs ++ r) = .ok (utf8 point, r) := by
  have hmost : point ≤ 0x10ffff := by
    unfold isScalar at hscalar
    omega
  have hsurrogate := (isSurrogate_iff hmost).mpr hscalar
  have ht : tailBytes n (b.val % 2 ^ (6 - n)) (bs ++ r) = .ok (point, r) :=
    tailBytes_eq_ok.mpr ⟨bs, rfl, hlength, hall, hpoint.symm⟩
  have hb4 : ¬ 0xf4 < b := by
    rw [Fin.lt_def]
    exact not_lt.mpr hb
  simp only [readWide, hcount]
  rw [if_neg (by simp [hn, hb4]), ht, Result.ok_bind]
  dsimp only
  rw [if_neg]
  rw [hsurrogate]
  simp only [Bool.false_eq_true, or_false, not_or, not_lt]
  exact ⟨hleast, hmost⟩

/-- Every wide character is read back. -/
theorem readWide_complete {point : ℕ} (hscalar : isScalar point) (hwide : 0x80 ≤ point)
    (r : Bytes) :
    ∃ b bs, utf8 point = b :: bs ∧ 128 ≤ b.val ∧ readWide b (bs ++ r) = .ok (utf8 point, r) := by
  have hbounds := hscalar
  unfold isScalar at hbounds
  have htail : ∀ n : ℕ, (Fin.ofNat 256 (0x80 + n % 64) : Byte).val = 0x80 + n % 64 :=
    fun n => ofNat_val (by omega)
  by_cases h2 : point < 0x800
  · have hfirst : (Fin.ofNat 256 (0xc0 + point / 64) : Byte).val = 0xc0 + point / 64 :=
      ofNat_val (by omega)
    refine ⟨Fin.ofNat 256 (0xc0 + point / 64), [Fin.ofNat 256 (0x80 + point % 64)], ?_, ?_, ?_⟩
    · unfold utf8
      rw [if_neg (by omega), if_pos h2]
    · omega
    · refine readWide_of (n := 1) hscalar ?_ (by decide) ?_ rfl ?_ ?_ ?_ r
      · rw [tailCount_eq, hfirst, if_neg (by omega), if_neg (by omega), if_pos (by omega)]
      · omega
      · simp only [List.mem_singleton, forall_eq, htail]
        omega
      · simp only [tailPoint, List.foldl_cons, List.foldl_nil, hfirst, htail]
        omega
      · exact hwide
  · by_cases h3 : point < 0x10000
    · have hfirst : (Fin.ofNat 256 (0xe0 + point / 4096) : Byte).val = 0xe0 + point / 4096 :=
        ofNat_val (by omega)
      refine ⟨Fin.ofNat 256 (0xe0 + point / 4096),
        [Fin.ofNat 256 (0x80 + point / 64 % 64), Fin.ofNat 256 (0x80 + point % 64)], ?_, ?_, ?_⟩
      · unfold utf8
        rw [if_neg (by omega), if_neg h2, if_pos h3]
      · omega
      · refine readWide_of (n := 2) hscalar ?_ (by decide) ?_ rfl ?_ ?_ ?_ r
        · rw [tailCount_eq, hfirst, if_neg (by omega), if_pos (by omega)]
        · omega
        · simp only [List.mem_cons, List.not_mem_nil, or_false, forall_eq_or_imp, forall_eq, htail]
          omega
        · simp only [tailPoint, List.foldl_cons, List.foldl_nil, hfirst, htail]
          omega
        · exact not_lt.mp h2
    · have hfirst : (Fin.ofNat 256 (0xf0 + point / 262144) : Byte).val = 0xf0 + point / 262144 :=
        ofNat_val (by omega)
      refine ⟨Fin.ofNat 256 (0xf0 + point / 262144),
        [Fin.ofNat 256 (0x80 + point / 4096 % 64), Fin.ofNat 256 (0x80 + point / 64 % 64),
          Fin.ofNat 256 (0x80 + point % 64)], ?_, ?_, ?_⟩
      · unfold utf8
        rw [if_neg (by omega), if_neg h2, if_neg h3]
      · omega
      · refine readWide_of (n := 3) hscalar ?_ (by decide) ?_ rfl ?_ ?_ ?_ r
        · rw [tailCount_eq, hfirst, if_pos (by omega)]
        · omega
        · simp only [List.mem_cons, List.not_mem_nil, or_false, forall_eq_or_imp, forall_eq, htail]
          omega
        · simp only [tailPoint, List.foldl_cons, List.foldl_nil, hfirst, htail]
          omega
        · exact not_lt.mp h3

/-! ## Escapes -/

theorem hexValue_eq_some {b : Byte} {n : ℕ} : hexValue b = some n ↔ HexDigit b n := by
  unfold hexValue
  constructor
  · intro h
    split at h
    · rename_i hb
      cases h
      exact .digit hb.1 hb.2
    · split at h
      · rename_i hb
        cases h
        exact .lower hb.1 hb.2
      · split at h
        · rename_i hb
          cases h
          exact .upper hb.1 hb.2
        · cases h
  · intro h
    cases h with
    | digit low high => rw [if_pos ⟨low, high⟩]
    | lower low high =>
      rw [if_neg, if_pos ⟨low, high⟩]
      exact fun h => absurd (low.trans h.2) (by decide)
    | upper low high =>
      rw [if_neg, if_neg, if_pos ⟨low, high⟩]
      · exact fun h => absurd (h.1.trans high) (by decide)
      · exact fun h => absurd (low.trans h.2) (by decide)

theorem hexDigits_succ_eq_ok {k n : ℕ} {s : Bytes} {m : ℕ} {r : Bytes} :
    hexDigits (k + 1) n s = .ok (m, r) ↔
      ∃ c d t, HexDigit c d ∧ s = c :: t ∧ hexDigits k (16 * n + d) t = .ok (m, r) := by
  cases s with
  | nil => simp [hexDigits]
  | cons c s =>
    simp only [hexDigits]
    constructor
    · intro h
      split at h
      · rename_i d hd
        exact ⟨c, d, s, hexValue_eq_some.mp hd, rfl, h⟩
      · cases h
    · rintro ⟨c', d, t, hd, hs, h⟩
      obtain ⟨rfl, rfl⟩ := List.cons.inj hs
      rw [hexValue_eq_some.mpr hd]
      exact h

theorem hex4_eq_ok {s : Bytes} {n : ℕ} {r : Bytes} : hex4 s = .ok (n, r) ↔ ∃ digits, Hex4 digits n ∧
    s = digits ++ r := by
  unfold hex4
  constructor
  · intro h
    obtain ⟨a, i, s1, ha, hs, h1⟩ := hexDigits_succ_eq_ok.mp h
    obtain ⟨b, j, s2, hb, hs1, h2⟩ := hexDigits_succ_eq_ok.mp h1
    obtain ⟨c, k, s3, hc, hs2, h3⟩ := hexDigits_succ_eq_ok.mp h2
    obtain ⟨d, l, s4, hd, hs3, h4⟩ := hexDigits_succ_eq_ok.mp h3
    obtain ⟨hn, hr⟩ := Prod.mk.inj (Except.ok.inj h4)
    refine ⟨[a, b, c, d], ?_, by rw [hs, hs1, hs2, hs3, hr]; rfl⟩
    have hvalue : n = ((i * 16 + j) * 16 + k) * 16 + l := by omega
    rw [hvalue]
    exact ⟨ha, hb, hc, hd⟩
  · rintro ⟨digits, ⟨ha, hb, hc, hd⟩, rfl⟩
    refine hexDigits_succ_eq_ok.mpr ⟨_, _, _, ha, rfl, hexDigits_succ_eq_ok.mpr ⟨_, _, _, hb, rfl,
      hexDigits_succ_eq_ok.mpr ⟨_, _, _, hc, rfl, hexDigits_succ_eq_ok.mpr ⟨_, _, _, hd, rfl, ?_⟩⟩⟩⟩
    rw [hexDigits, Except.ok.injEq, Prod.mk.injEq]
    refine ⟨?_, rfl⟩
    omega

theorem Hex4.lt {digits : Bytes} {n : ℕ} (h : Hex4 digits n) : n < 0x10000 := by
  obtain ⟨ha, hb, hc, hd⟩ := h
  have hlt : ∀ {b : Byte} {n : ℕ}, HexDigit b n → n < 16 := by
    intro b n h
    cases h with
    | digit low high =>
      rw [Fin.le_def] at high
      have : b.val ≤ 57 := high
      omega
    | lower low high =>
      rw [Fin.le_def] at high
      have : b.val ≤ 102 := high
      omega
    | upper low high =>
      rw [Fin.le_def] at high
      have : b.val ≤ 70 := high
      omega
  have := hlt ha
  have := hlt hb
  have := hlt hc
  have := hlt hd
  omega

theorem isScalar_of_hex4 {digits : Bytes} {n : ℕ} (h : Hex4 digits n)
    (hlow : ¬(0xd800 ≤ n ∧ n ≤ 0xdbff))
    (hhigh : ¬(0xdc00 ≤ n ∧ n ≤ 0xdfff)) : isScalar n := by
  have := h.lt
  unfold isScalar
  omega

/-- The code point of an escape is a scalar value, in one or two groups of digits. -/
theorem readPoint_sound {s : Bytes} {point : ℕ} {r : Bytes} (h : readPoint s = .ok (point, r)) :
    ∃ (c : Char) (t : Bytes), c.toNat = point ∧ CharText c (ch '\\' :: ch 'u' :: t) ∧
      s = t ++ r := by
  obtain ⟨⟨high, t⟩, ht, hrest⟩ := Result.bind_eq_ok.mp h
  obtain ⟨digits, hdigits, rfl⟩ := hex4_eq_ok.mp ht
  dsimp only at hrest
  split at hrest
  · rename_i hhigh
    obtain ⟨t1, h1, hrest⟩ := Result.bind_eq_ok.mp hrest
    obtain ⟨t2, h2, hrest⟩ := Result.bind_eq_ok.mp hrest
    obtain ⟨⟨low, t3⟩, h3, hlast⟩ := Result.bind_eq_ok.mp hrest
    rw [expect_eq_ok] at h1 h2
    obtain ⟨second, hsecond, hsplit⟩ := hex4_eq_ok.mp h3
    dsimp only at hlast
    split at hlast
    · cases hlast
    · rename_i hlow
      obtain ⟨hpoint, rfl⟩ := Prod.mk.inj (Except.ok.inj hlast)
      have hscalar : isScalar point := by
        unfold isScalar
        omega
      obtain ⟨c, hc⟩ := exists_char hscalar
      refine ⟨c, digits ++ ch '\\' :: ch 'u' :: second, hc, ?_, ?_⟩
      · exact .pair hdigits hsecond hhigh (by omega) (by omega)
      · rw [h1, h2, hsplit]
        simp
  · rename_i hhigh
    split at hrest
    · cases hrest
    · rename_i hlow
      obtain ⟨rfl, rfl⟩ := Prod.mk.inj (Except.ok.inj hrest)
      obtain ⟨c, hc⟩ := exists_char (isScalar_of_hex4 hdigits hhigh hlow)
      refine ⟨c, digits, hc, ?_, rfl⟩
      rw [← hc] at hdigits
      exact .unicode hdigits

theorem readPoint_unicode {c : Char} {digits : Bytes} (h : Hex4 digits c.toNat) (r : Bytes) :
    readPoint (digits ++ r) = .ok (c.toNat, r) := by
  have hscalar := isScalar_toNat c
  unfold isScalar at hscalar
  unfold readPoint
  rw [hex4_eq_ok.mpr ⟨digits, h, rfl⟩, Result.ok_bind]
  dsimp only
  rw [if_neg (by omega), if_neg (by omega)]

theorem readPoint_pair {c : Char} {high low : ℕ} {first second : Bytes} (hfirst : Hex4 first high)
    (hsecond : Hex4 second low) (hhigh : 0xd800 ≤ high ∧ high ≤ 0xdbff)
    (hlow : 0xdc00 ≤ low ∧ low ≤ 0xdfff)
    (hc : c.toNat = 0x10000 + (high - 0xd800) * 0x400 + (low - 0xdc00)) (r : Bytes) :
    readPoint (first ++ ch '\\' :: ch 'u' :: (second ++ r)) = .ok (c.toNat, r) := by
  unfold readPoint
  rw [hex4_eq_ok.mpr ⟨first, hfirst, rfl⟩, Result.ok_bind]
  dsimp only
  rw [if_pos hhigh, expect_eq_ok.mpr rfl, Result.ok_bind, expect_eq_ok.mpr rfl, Result.ok_bind,
    hex4_eq_ok.mpr ⟨second, hsecond, rfl⟩, Result.ok_bind]
  dsimp only
  rw [if_neg (by omega), hc]

theorem readEscape_short : ∀ e ∈ shortEscapes, ∀ r, readEscape (e.1 :: r)
    = .ok (charBytes e.2, r) := by
  intro e he r
  simp only [shortEscapes, List.mem_cons, List.not_mem_nil, or_false] at he
  rcases he with rfl | rfl | rfl | rfl | rfl | rfl | rfl | rfl
  · rfl
  · rfl
  · rfl
  · rfl
  · rfl
  · rfl
  · rfl
  · rfl

theorem readEscape_u (s : Bytes) :
    readEscape (ch 'u' :: s) = readPoint s >>= fun p => .ok (utf8 p.1, p.2) := rfl

theorem readEscape_sound {s out r : Bytes} (h : readEscape s = .ok (out, r)) :
    ∃ (c : Char) (t : Bytes), CharText c (ch '\\' :: t) ∧ s = t ++ r ∧ out = charBytes c := by
  cases s with
  | nil => cases h
  | cons e s =>
    by_cases hshort : ∃ c, (e, c) ∈ shortEscapes
    · obtain ⟨c, hc⟩ := hshort
      have hread := readEscape_short (e, c) hc s
      obtain ⟨rfl, rfl⟩ := Prod.mk.inj (Except.ok.inj (hread.symm.trans h))
      exact ⟨c, [e], .short hc, rfl, rfl⟩
    · by_cases hu : e = ch 'u'
      · rw [hu, readEscape_u] at h
        obtain ⟨⟨point, t⟩, ht, hrest⟩ := Result.bind_eq_ok.mp h
        obtain ⟨rfl, rfl⟩ := Prod.mk.inj (Except.ok.inj hrest)
        obtain ⟨c, text, rfl, hc, rfl⟩ := readPoint_sound ht
        exact ⟨c, ch 'u' :: text, hc, by rw [hu]; rfl, utf8_toNat c⟩
      · -- no other byte may follow a backslash
        have hnone : ∀ b ∈ shortEscapes.map Prod.fst, e ≠ b := by
          intro b hb heq
          obtain ⟨⟨b', c⟩, hmem, rfl⟩ := List.mem_map.mp hb
          exact hshort ⟨c, heq ▸ hmem⟩
        simp only [shortEscapes, List.map_cons, List.map_nil, List.mem_cons,
          List.not_mem_nil, or_false,
          forall_eq_or_imp, forall_eq] at hnone
        obtain ⟨hquote, hback, hslash, hb, hf, hn, hr, ht⟩ := hnone
        simp only [readEscape, hquote, hback, hslash, hb, hf, hn, hr, ht, hu, if_false, or_self,
          reduceCtorEq] at h

/-! ## Characters in a string -/

theorem charBytes_narrow {c : Char} (h : c.toNat < 0x80) :
    charBytes c = [Fin.ofNat 256 c.toNat] := by
  rw [← utf8_toNat, utf8, if_pos h]

theorem readChar_narrow {b : Byte} (hlow : ¬ b < 32) (hquote : b ≠ ch '"') (hback : b ≠ ch '\\')
    (hhigh : b < 128)
    (s : Bytes) : readChar (b :: s) = .ok (some [b], s) := by
  simp only [readChar]
  rw [if_neg hquote, if_neg hlow, if_neg hback, if_pos hhigh]

theorem readChar_wide {b : Byte} (hhigh : 128 ≤ b.val) (s : Bytes) :
    readChar (b :: s) = readWide b s >>= fun p => .ok (some p.1, p.2) := by
  have hle : (128 : Byte) ≤ b := hhigh
  simp only [readChar]
  rw [if_neg, if_neg, if_neg, if_neg (not_lt.mpr hle)]
  · intro h
    rw [h] at hle
    exact absurd hle (by decide)
  · exact fun h => absurd (lt_of_le_of_lt hle h) (by decide)
  · intro h
    rw [h] at hle
    exact absurd hle (by decide)

theorem readChar_back (s : Bytes) :
    readChar (ch '\\' :: s) = readEscape s >>= fun p => .ok (some p.1, p.2) := rfl

/-- A string item read spells a character. -/
theorem readChar_sound {s out r : Bytes} (h : readChar s = .ok (some out, r)) :
    ∃ (c : Char) (t : Bytes), CharText c t ∧ s = t ++ r ∧ out = charBytes c := by
  cases s with
  | nil => cases h
  | cons b s =>
    by_cases hquote : b = ch '"'
    · simp only [readChar, hquote, if_true] at h
      cases h
    by_cases hlow : b < 32
    · simp only [readChar, hquote, hlow, if_true, if_false] at h
      cases h
    by_cases hback : b = ch '\\'
    · rw [hback, readChar_back] at h
      obtain ⟨⟨b', t⟩, ht, hrest⟩ := Result.bind_eq_ok.mp h
      obtain ⟨hout, rfl⟩ := Prod.mk.inj (Except.ok.inj hrest)
      obtain ⟨c, text, hc, rfl, hbytes⟩ := readEscape_sound ht
      refine ⟨c, ch '\\' :: text, hc, by rw [hback]; rfl, ?_⟩
      rw [← Option.some.inj hout]
      exact hbytes
    by_cases hhigh : b < 128
    · rw [readChar_narrow hlow hquote hback hhigh] at h
      obtain ⟨hout, rfl⟩ := Prod.mk.inj (Except.ok.inj h)
      have hval : b.val < 128 := hhigh
      have hlow' : 32 ≤ b.val := not_lt.mp hlow
      have hscalar : isScalar b.val := .inl (by omega)
      obtain ⟨c, hc⟩ := exists_char hscalar
      have hbytes : charBytes c = [b] := by
        rw [charBytes_narrow (by omega), hc, ofNat_eq rfl]
      refine ⟨c, charBytes c, .unescaped (by omega) ?_ ?_, by rw [hbytes]; rfl, ?_⟩
      · rintro rfl
        exact hquote (Fin.ext hc.symm)
      · rintro rfl
        exact hback (Fin.ext hc.symm)
      · rw [hbytes, Option.some.inj hout]
    · rw [readChar_wide (not_lt.mp hhigh)] at h
      obtain ⟨⟨b', t⟩, ht, hrest⟩ := Result.bind_eq_ok.mp h
      obtain ⟨hout, rfl⟩ := Prod.mk.inj (Except.ok.inj hrest)
      obtain ⟨c, hwide, hbytes, hs⟩ := readWide_sound ht
      refine ⟨c, charBytes c, .unescaped (by omega) ?_ ?_, hs, ?_⟩
      · rintro rfl
        exact absurd hwide (by decide)
      · rintro rfl
        exact absurd hwide (by decide)
      · rw [← Option.some.inj hout]
        exact hbytes

/-- Every spelling of a character is read. -/
theorem readChar_complete {c : Char} {t : Bytes} (h : CharText c t) (r : Bytes) :
    readChar (t ++ r) = .ok (some (charBytes c), r) := by
  cases h with
  | unescaped control quotation backslash =>
    by_cases hwide : 0x80 ≤ c.toNat
    · obtain ⟨b, bs, hbytes, hb, hread⟩ := readWide_complete (isScalar_toNat c) hwide r
      rw [utf8_toNat] at hbytes hread
      rw [hbytes] at hread ⊢
      rw [List.cons_append, readChar_wide hb, hread]
      rfl
    · have hval : (Fin.ofNat 256 c.toNat : Byte).val = c.toNat := ofNat_val (by omega)
      have hne : ∀ d : Char, d.toNat < 256 → c ≠ d → (Fin.ofNat 256 c.toNat : Byte) ≠ ch d := by
        intro d hd hcd heq
        have hvals := congrArg Fin.val heq
        rw [hval, show (ch d).val = d.toNat from ofNat_val hd] at hvals
        exact hcd (Char.ext (UInt32.toNat_inj.mp hvals))
      rw [charBytes_narrow (not_le.mp hwide), List.singleton_append]
      refine readChar_narrow ?_ (hne '"' (by decide) quotation)
        (hne '\\' (by decide) backslash) ?_ r
      · rw [Fin.lt_def, hval]
        exact not_lt.mpr control
      · rw [Fin.lt_def, hval]
        exact not_le.mp hwide
  | short hmem =>
    rw [List.cons_append, readChar_back, List.singleton_append, readEscape_short _ hmem]
    rfl
  | unicode hdigits =>
    rw [List.cons_append, readChar_back, List.cons_append, readEscape_u, readPoint_unicode hdigits]
    dsimp only [Result.ok_bind]
    rw [utf8_toNat]
  | pair hfirst hsecond hhigh hlow hc =>
    rw [List.append_assoc, List.cons_append, readChar_back, List.cons_append, readEscape_u,
      List.cons_append,
      List.cons_append, readPoint_pair hfirst hsecond hhigh hlow hc]
    dsimp only [Result.ok_bind]
    rw [utf8_toNat]

/-! ## Strings -/

theorem readChar_end {s r : Bytes} : readChar s = .ok (none, r) ↔ s = ch '"' :: r := by
  cases s with
  | nil => simp [readChar]
  | cons b s =>
    constructor
    · intro h
      by_cases hquote : b = ch '"'
      · simp only [readChar, hquote, if_true, Except.ok.injEq, Prod.mk.injEq, true_and] at h
        rw [hquote, h]
      · by_cases hlow : b < 32
        · simp only [readChar, hquote, hlow, if_true, if_false] at h
          cases h
        · simp only [readChar, hquote, hlow, if_false] at h
          split at h
          · obtain ⟨⟨b', t⟩, -, hrest⟩ := Result.bind_eq_ok.mp h
            cases hrest
          · split at h
            · cases h
            · obtain ⟨⟨b', t⟩, -, hrest⟩ := Result.bind_eq_ok.mp h
              cases hrest
    · intro h
      obtain ⟨rfl, rfl⟩ := List.cons.inj h
      rfl

theorem readChars_sound {fuel : ℕ} {s out r : Bytes} (h : readChars fuel s = .ok (out, r)) :
    ∃ (cs : List Char) (t : Bytes), CharsText cs t ∧ s = t ++ ch '"' :: r ∧
      out = charsBytes cs := by
  induction fuel generalizing s out with
  | zero => cases h
  | succ fuel ih =>
    obtain ⟨⟨b, s1⟩, hread, hrest⟩ := Result.bind_eq_ok.mp h
    cases b with
    | none =>
      obtain ⟨rfl, rfl⟩ := Prod.mk.inj (Except.ok.inj hrest)
      exact ⟨[], [], .nil, readChar_end.mp hread, rfl⟩
    | some b =>
      obtain ⟨⟨more, s2⟩, hmore, hlast⟩ := Result.bind_eq_ok.mp hrest
      obtain ⟨hout, rfl⟩ := Prod.mk.inj (Except.ok.inj hlast)
      obtain ⟨cs, t, hcs, rfl, hbytes⟩ := ih hmore
      obtain ⟨c, t', hc, rfl, hb⟩ := readChar_sound hread
      refine ⟨c :: cs, t' ++ t, .cons hc hcs, (List.append_assoc ..).symm, ?_⟩
      rw [← hout, hb, hbytes]
      rfl

theorem CharText.ne_nil {c : Char} {t : Bytes} (h : CharText c t) : t ≠ [] := by
  intro hnil
  have hread := readChar_complete h []
  rw [hnil] at hread
  cases hread

theorem readChars_complete {cs : List Char} {t : Bytes} (h : CharsText cs t) {fuel : ℕ}
    (hfuel : t.length < fuel)
    (r : Bytes) : readChars fuel (t ++ ch '"' :: r) = .ok (charsBytes cs, r) := by
  induction h generalizing fuel with
  | nil =>
    cases fuel with
    | zero => cases hfuel
    | succ fuel => rfl
  | @cons c cs s t hc hcs ih =>
    cases fuel with
    | zero => cases hfuel
    | succ fuel =>
      have hpos := List.length_pos_iff.mpr hc.ne_nil
      rw [List.length_append] at hfuel
      have hrest := @ih fuel (by omega)
      simp only [readChars]
      rw [List.append_assoc, readChar_complete hc, Result.ok_bind]
      dsimp only
      rw [hrest, Result.ok_bind]
      rfl

/-- A string is read where the grammar has one, as the bytes of its characters. -/
theorem str_eq_ok {s out r : Bytes} :
    str s = .ok (out, r) ↔ ∃ (cs : List Char) (t : Bytes), StringText cs t ∧ s = t ++ r ∧
      out = charsBytes cs := by
  unfold str
  constructor
  · intro h
    obtain ⟨s1, hexpect, hread⟩ := Result.bind_eq_ok.mp h
    obtain ⟨cs, t, hcs, hs1, hout⟩ := readChars_sound hread
    refine ⟨cs, _, ⟨hcs⟩, ?_, hout⟩
    rw [expect_eq_ok.mp hexpect, hs1]
    simp
  · rintro ⟨cs, t, ⟨hcs⟩, rfl, rfl⟩
    rw [List.cons_append, List.cons_append, expect_eq_ok.mpr rfl, Result.ok_bind, List.append_assoc,
      List.singleton_append]
    refine readChars_complete hcs ?_ r
    rw [List.length_append]
    omega

end Json

end PineForge.Runner
