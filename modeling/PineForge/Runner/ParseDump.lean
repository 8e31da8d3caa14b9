import PineForge.Runner.JsonParser

/-!
# Reading what was printed

Of a value with nothing hidden, the reader reads that value from its printed text, or fails: at a
text over the frame limit, at a value nested too deep, or at a string that is no UTF-8.
-/

namespace PineForge.Runner

namespace Json

/-! ## Strings -/

theorem hexValue_hexDigit : ∀ n < 16, hexValue (hexDigit n) = some n := by decide

/-- What follows a string's text inside its quotes. -/
def quotedRest (v rest : Bytes) : Bytes := v.flatMap quoteByte ++ ch '"' :: rest

theorem quotedRest_cons (b : Byte) (v rest : Bytes) :
    quotedRest (b :: v) rest = quoteByte b ++ quotedRest v rest := by
  simp [quotedRest]

/-- A byte that prints as itself, or one whose text starts with a backslash. -/
theorem quoteByte_cases (b : Byte) :
    (quoteByte b = [b] ∧ b ≠ ch '"' ∧ b ≠ ch '\\' ∧ ¬b < 32) ∨ ∃ r, quoteByte b = ch '\\' :: r := by
  unfold quoteByte
  split
  · exact Or.inr ⟨_, rfl⟩
  · rename_i hb
    split
    · exact Or.inr ⟨_, rfl⟩
    · rename_i hlt
      exact Or.inl ⟨rfl, fun h => hb (Or.inl h), fun h => hb (Or.inr h), hlt⟩

/-- Continuation bytes read from a printed string are bytes of the string. -/
theorem tailBytes_quoted {k : ℕ} : ∀ {point : ℕ} {v rest : Bytes} {m : ℕ} {t : Bytes},
    tailBytes k point (quotedRest v rest) = .ok (m, t) →
    ∃ bs w, v = bs ++ w ∧ bs.length = k ∧ (∀ c ∈ bs, c.val / 64 = 2) ∧ t = quotedRest w rest ∧
      m = bs.foldl (fun p c => 64 * p + c.val % 64) point := by
  induction k with
  | zero =>
    intro point v rest m t h
    simp only [tailBytes, Except.ok.injEq, Prod.mk.injEq] at h
    exact ⟨[], v, rfl, rfl, by simp, h.2.symm, h.1.symm⟩
  | succ k ih =>
    intro point v rest m t h
    cases v with
    | nil =>
      simp only [quotedRest, List.flatMap_nil, List.nil_append, tailBytes] at h
      rw [if_neg (by decide)] at h
      cases h
    | cons b v =>
      rw [quotedRest_cons] at h
      rcases quoteByte_cases b with ⟨hb, -⟩ | ⟨r, hb⟩
      · rw [hb, List.cons_append, List.nil_append, tailBytes] at h
        split at h
        · rename_i htail
          obtain ⟨bs, w, rfl, hlength, hall, ht, hm⟩ := ih h
          refine ⟨b :: bs, w, rfl, by rw [List.length_cons, hlength], ?_, ht, hm⟩
          intro c hc
          rcases List.mem_cons.mp hc with rfl | hc
          · exact htail
          · exact hall c hc
        · cases h
      · rw [hb, List.cons_append, tailBytes, if_neg (by decide)] at h
        cases h

theorem ofNat_eq {b : Byte} {n : ℕ} (h : n = b.val) : Fin.ofNat 256 n = b := by
  apply Fin.ext
  simp only [Fin.ofNat, h]
  exact Nat.mod_eq_of_lt b.isLt

/-- A well-formed sequence is its point's. -/
theorem utf8_point {c : Byte} {bs : Bytes} (hcount : tailCount c ≠ 0) (hc : ¬0xf4 < c)
    (hlength : bs.length = tailCount c) (hall : ∀ b ∈ bs, b.val / 64 = 2) {point : ℕ}
    (hpoint : point = bs.foldl (fun p c => 64 * p + c.val % 64) (c.val % 2 ^ (6 - tailCount c)))
    (hleast : ¬point < leastPoint (tailCount c)) : utf8 point = c :: bs := by
  have hlt := c.isLt
  have hc4 : c.val ≤ 0xf4 := by
    have := Fin.not_lt.mp hc
    exact this
  unfold tailCount at *
  split at hlength
  · rename_i h3
    have hge : 0xf0 ≤ c.val := h3
    simp only [h3, if_true, leastPoint] at hpoint hleast
    obtain ⟨b1, b2, b3, rfl⟩ := List.length_eq_three.mp hlength
    simp only [List.mem_cons, List.not_mem_nil, or_false, forall_eq_or_imp, forall_eq] at hall
    simp only [List.foldl_cons, List.foldl_nil] at hpoint
    norm_num at hpoint hleast
    have h1 := hall.1
    have h2 := hall.2.1
    have h3 := hall.2.2
    unfold utf8
    rw [if_neg (by omega), if_neg (by omega), if_neg (by omega)]
    rw [ofNat_eq (b := c) (by omega), ofNat_eq (b := b1) (by omega), ofNat_eq (b := b2) (by omega),
      ofNat_eq (b := b3) (by omega)]
  · rename_i h3
    split at hlength
    · rename_i h2
      have hge : 0xe0 ≤ c.val := h2
      have hle : c.val < 0xf0 := Fin.not_le.mp h3
      simp only [h3, h2, if_true, if_false, leastPoint] at hpoint hleast
      obtain ⟨b1, b2, rfl⟩ := List.length_eq_two.mp hlength
      simp only [List.mem_cons, List.not_mem_nil, or_false, forall_eq_or_imp, forall_eq] at hall
      simp only [List.foldl_cons, List.foldl_nil] at hpoint
      norm_num at hpoint hleast
      have h1 := hall.1
      have h2 := hall.2
      unfold utf8
      rw [if_neg (by omega), if_neg (by omega), if_pos (by omega)]
      rw [ofNat_eq (b := c) (by omega), ofNat_eq (b := b1) (by omega),
        ofNat_eq (b := b2) (by omega)]
    · rename_i h2
      split at hlength
      · rename_i h1
        have hge : 0xc2 ≤ c.val := h1
        have hle : c.val < 0xe0 := Fin.not_le.mp h2
        simp only [h3, h2, h1, if_true, if_false, leastPoint] at hpoint hleast
        obtain ⟨b1, rfl⟩ := List.length_eq_one_iff.mp hlength
        simp only [List.mem_singleton, forall_eq] at hall
        simp only [List.foldl_cons, List.foldl_nil] at hpoint
        norm_num at hpoint hleast
        unfold utf8
        rw [if_neg (by omega), if_pos (by omega)]
        rw [ofNat_eq (b := c) (by omega), ofNat_eq (b := b1) (by omega)]
      · rename_i h1
        simp [h3, h2, h1] at hcount

/-- A quoted byte is read back. -/
theorem readChar_quoted {b : Byte} {v rest : Bytes} {out : Option Bytes} {t : Bytes}
    (h : readChar (quotedRest (b :: v) rest) = .ok (out, t)) :
    ∃ bs w, b :: v = bs ++ w ∧ out = some bs ∧ t = quotedRest w rest ∧ w.length ≤ v.length := by
  rw [quotedRest_cons] at h
  by_cases hspecial : b = ch '"' ∨ b = ch '\\'
  · have hquote : quoteByte b = [ch '\\', b] := by rw [quoteByte, if_pos hspecial]
    have hescape : readEscape (b :: quotedRest v rest) = .ok ([b], quotedRest v rest) := by
      simp only [readEscape]
      rw [if_pos]
      rcases hspecial with hb | hb
      · exact Or.inl hb
      · exact Or.inr (Or.inl hb)
    rw [hquote, List.cons_append, List.cons_append, List.nil_append, readChar, if_neg (by decide),
      if_neg (by decide), if_pos rfl, hescape, Result.ok_bind] at h
    simp only [Except.ok.injEq, Prod.mk.injEq] at h
    exact ⟨[b], v, rfl, h.1.symm, h.2.symm, le_refl _⟩
  · by_cases hlow : b < 32
    · have hval : b.val < 32 := hlow
      have hquote : quoteByte b = [ch '\\', ch 'u', ch '0', ch '0', hexDigit (b.val / 16),
          hexDigit (b.val % 16)] := by rw [quoteByte, if_neg hspecial, if_pos hlow]
      have hhex : hex4 ([ch '0', ch '0', hexDigit (b.val / 16), hexDigit (b.val % 16)]
          ++ quotedRest v rest) = .ok (b.val, quotedRest v rest) := by
        have hzero : hexValue (ch '0') = some 0 := by decide
        simp only [hex4, List.cons_append, List.nil_append, hexDigits, hzero,
          hexValue_hexDigit _ (show b.val / 16 < 16 by omega),
          hexValue_hexDigit _ (show b.val % 16 < 16 by omega)]
        congr 2
        omega
      have hpoint : readPoint ([ch '0', ch '0', hexDigit (b.val / 16), hexDigit (b.val % 16)]
          ++ quotedRest v rest) = .ok (b.val, quotedRest v rest) := by
        unfold readPoint
        rw [hhex, Result.ok_bind]
        dsimp only
        rw [if_neg (by omega), if_neg (by omega)]
      have hutf : utf8 b.val = [b] := by
        rw [utf8, if_pos (by omega), ofNat_eq rfl]
      have hescape : readEscape (ch 'u' :: ([ch '0', ch '0', hexDigit (b.val / 16),
          hexDigit (b.val % 16)] ++ quotedRest v rest)) = .ok ([b], quotedRest v rest) := by
        rw [readEscape, if_neg (by decide), if_neg (by decide), if_neg (by decide),
          if_neg (by decide), if_neg (by decide), if_neg (by decide), if_pos rfl, hpoint,
          Result.ok_bind]
        dsimp only
        rw [hutf]
      rw [hquote, List.cons_append, readChar, if_neg (by decide), if_neg (by decide), if_pos rfl,
        List.cons_append, hescape, Result.ok_bind] at h
      simp only [Except.ok.injEq, Prod.mk.injEq] at h
      exact ⟨[b], v, rfl, h.1.symm, h.2.symm, le_refl _⟩
    · have hquote : quoteByte b = [b] := by rw [quoteByte, if_neg hspecial, if_neg hlow]
      have hne : ¬b = ch '"' := fun hb => hspecial (Or.inl hb)
      have hne' : ¬b = ch '\\' := fun hb => hspecial (Or.inr hb)
      rw [hquote, List.cons_append, List.nil_append, readChar, if_neg hne, if_neg hlow,
        if_neg hne'] at h
      split at h
      · simp only [Except.ok.injEq, Prod.mk.injEq] at h
        exact ⟨[b], v, rfl, h.1.symm, h.2.symm, le_refl _⟩
      · obtain ⟨⟨wide, u⟩, hwide, h⟩ := Result.bind_eq_ok.mp h
        simp only [Except.ok.injEq, Prod.mk.injEq] at h
        obtain ⟨rfl, rfl⟩ := h
        simp only [readWide] at hwide
        split at hwide
        · cases hwide
        · rename_i hcount
          obtain ⟨⟨point, u'⟩, htail, hchecks⟩ := Result.bind_eq_ok.mp hwide
          dsimp only at hchecks
          split at hchecks
          · cases hchecks
          · rename_i hpoint
            simp only [Except.ok.injEq, Prod.mk.injEq] at hchecks
            obtain ⟨bs, w, rfl, hlength, hall, ht, hm⟩ := tailBytes_quoted htail
            have hchar := utf8_point (fun h => hcount (Or.inl h)) (fun h => hcount (Or.inr h))
              hlength hall hm (fun h => hpoint (Or.inl h))
            refine ⟨b :: bs, w, rfl, ?_, ?_, by simp⟩
            · rw [← hchecks.1, hchar]
            · rw [← hchecks.2, ht]

theorem readChars_quoted {fuel : ℕ} : ∀ {v rest x r : Bytes},
    readChars fuel (quotedRest v rest) = .ok (x, r) → x = v ∧ r = rest := by
  induction fuel with
  | zero =>
    intro v rest x r h
    cases h
  | succ fuel ih =>
    intro v rest x r h
    obtain ⟨⟨out, t⟩, ht, hloop⟩ := Result.bind_eq_ok.mp h
    cases v with
    | nil =>
      rw [quotedRest, List.flatMap_nil, List.nil_append, readChar, if_pos rfl] at ht
      cases ht
      cases hloop
      exact ⟨rfl, rfl⟩
    | cons b v =>
      obtain ⟨bs, w, hsplit, hout, ht', -⟩ := readChar_quoted ht
      rw [hout, ht'] at hloop
      obtain ⟨⟨more, u⟩, hu, hend⟩ := Result.bind_eq_ok.mp hloop
      simp only [Except.ok.injEq, Prod.mk.injEq] at hend
      obtain ⟨hmore, hrest⟩ := ih hu
      exact ⟨by rw [hsplit, ← hend.1, hmore], by rw [← hend.2, hrest]⟩

theorem str_quote {v rest x r : Bytes} (h : str (quote v ++ rest) = .ok (x, r)) :
    x = v ∧ r = rest := by
  have htext : quote v ++ rest = ch '"' :: quotedRest v rest := by simp [quote, quotedRest]
  obtain ⟨t, ht, h⟩ := Result.bind_eq_ok.mp h
  rw [htext, expect_eq_ok] at ht
  rw [← (List.cons.inj ht).2] at h
  exact readChars_quoted h

/-! ## Values -/

/-- A scan that reads a printed value, if it reads one. -/
def ReadsBack (element : Bytes → Except ℕ (Json × Bytes)) (j : Json) : Prop :=
  ∀ rest x r, Delimited rest → element (dump j ++ rest) = .ok (x, r) → x = j ∧ r = rest

theorem skipSpace_eq {s : Bytes} (h : ∀ c ∈ s.head?, isSpace c = false) : skipSpace s = s := by
  cases s with
  | nil => rfl
  | cons c s => exact List.dropWhile_cons_of_neg (by simp [h c rfl])

theorem skipSpace_cons {c : Byte} {s : Bytes} (h : isSpace c = false) :
    skipSpace (c :: s) = c :: s := skipSpace_eq fun x hx => by rwa [← Option.some.inj hx]

theorem isSpace_startsValue {c : Byte} (h : startsValue c = true) : isSpace c = false := by
  cases hs : isSpace c with
  | false => rfl
  | true =>
    simp only [isSpace, decide_eq_true_eq] at hs
    rcases hs with rfl | rfl | rfl | rfl <;> exact absurd h (by decide)

/-- What follows one part of a sequence: a closing bracket, or a comma and the next part. -/
def nextPart (close : Byte) (parts : List Bytes) (rest : Bytes) : Bytes :=
  if parts = [] then close :: rest else ch ',' :: (separated parts ++ close :: rest)

theorem nextPart_delimited {close : Byte} (hclose : close = ch ']' ∨ close = ch '\x7d')
    (parts : List Bytes) (rest : Bytes) : Delimited (nextPart close parts rest) := by
  intro c hc
  unfold nextPart at hc
  split at hc <;> simp only [List.head?_cons, Option.mem_some_iff] at hc
  · exact Or.inr (hc ▸ hclose)
  · exact Or.inl hc.symm

theorem nextPart_space {close : Byte} (hclose : close = ch ']' ∨ close = ch '\x7d')
    (parts : List Bytes) (rest : Bytes) :
    skipSpace (nextPart close parts rest) = nextPart close parts rest := by
  refine skipSpace_eq fun c hc => ?_
  rcases nextPart_delimited hclose parts rest c hc with rfl | rfl | rfl <;> decide

section

variable {element : Bytes → Except ℕ (Json × Bytes)}

theorem readItems_dump {fuel : ℕ} : ∀ {j : Json} {items : List Json} {rest : Bytes}
    {xs : List Json} {r : Bytes}, (∀ i ∈ j :: items, ReadsBack element i) →
    readItems element fuel (separated ((j :: items).map dump) ++ ch ']' :: rest) = .ok (xs, r) →
    xs = j :: items ∧ r = rest := by
  induction fuel with
  | zero =>
    intro j items rest xs r _ h
    cases h
  | succ fuel ih =>
    intro j items rest xs r hback h
    obtain ⟨⟨x, t⟩, ht, hloop⟩ := Result.bind_eq_ok.mp h
    rw [List.map_cons, separated_then] at ht
    obtain ⟨hx, htail⟩ := hback j (by simp) _ x t (nextPart_delimited (Or.inl rfl) _ _) ht
    dsimp only at hloop
    rw [htail, nextPart_space (Or.inl rfl)] at hloop
    cases items with
    | nil =>
      simp only [nextPart, List.map_nil, if_true] at hloop
      simp only [Except.ok.injEq, Prod.mk.injEq] at hloop
      exact ⟨by rw [← hloop.1, hx], hloop.2.symm⟩
    | cons next items =>
      have hne : ¬(next :: items).map dump = [] := by simp
      have hcomma : ¬ch ',' = ch ']' := by decide
      simp only [nextPart, if_neg hne, if_neg hcomma, if_true] at hloop
      obtain ⟨⟨more, u⟩, hu, hend⟩ := Result.bind_eq_ok.mp hloop
      obtain ⟨hmore, hrest⟩ := ih (fun i hi => hback i (List.mem_cons_of_mem _ hi)) hu
      simp only [Except.ok.injEq, Prod.mk.injEq] at hend
      exact ⟨by rw [← hend.1, hx, hmore], by rw [← hend.2, hrest]⟩

theorem sorted_append_put {before after : List (Bytes × Json)} {e : Bytes × Json}
    (h : Assoc.Sorted (before ++ e :: after)) :
    Assoc.put e.1 e.2 before = before ++ [e] ∧ Assoc.find e.1 before = none := by
  have hbefore : Assoc.Sorted (before ++ [e]) := by
    refine h.sublist ?_
    exact List.Sublist.append_left (List.singleton_sublist.mpr (by simp)) before
  obtain ⟨hsorted, -, hlt⟩ := List.pairwise_append.mp hbefore
  have hnone : Assoc.find e.1 before = none :=
    Assoc.find_eq_none fun x hx => ne_of_lt (hlt x hx e (by simp))
  refine ⟨(Assoc.Sorted.put hsorted _ _).ext hbefore fun k => ?_, hnone⟩
  rw [Assoc.find_put, Assoc.find_append]
  split
  · rename_i hk
    have hself : Assoc.find e.1 [e] = some e.2 := by
      obtain ⟨key, value⟩ := e
      rw [Assoc.find_cons, if_pos rfl]
    rw [hk, hnone, hself, Option.none_or]
  · rename_i hk
    have hskip : Assoc.find k [e] = none := by
      obtain ⟨key, value⟩ := e
      simp only [Assoc.find_cons, Assoc.find_nil]
      exact if_neg hk
    rw [hskip]
    cases Assoc.find k before <;> rfl

/-- Printed members are read back. -/
theorem readMembers_dump {fuel : ℕ} : ∀ {e : Bytes × Json} {members before : List (Bytes × Json)}
    {rest : Bytes} {xs : List (Bytes × Json)} {r : Bytes},
    (∀ e' ∈ e :: members, ReadsBack element e'.2) → Assoc.Sorted (before ++ e :: members) →
    readMembers element fuel before
      (separated ((e :: members).map dumpMember) ++ ch '\x7d' :: rest) = .ok (xs, r) →
    xs = before ++ e :: members ∧ r = rest := by
  induction fuel with
  | zero =>
    intro e members before rest xs r _ _ h
    cases h
  | succ fuel ih =>
    intro e members before rest xs r hback hsorted h
    obtain ⟨⟨key, t⟩, hkey, hloop⟩ := Result.bind_eq_ok.mp h
    have hquote : ∃ q, quote e.1 = ch '"' :: q := ⟨_, rfl⟩
    obtain ⟨q, hq⟩ := hquote
    have htext : separated ((e :: members).map dumpMember) ++ ch '\x7d' :: rest
        = quote e.1 ++ (ch ':' :: (dump e.2 ++
          nextPart (ch '\x7d') (members.map dumpMember) rest)) := by
      rw [List.map_cons, separated_then]
      simp only [dumpMember, List.append_assoc, List.cons_append, nextPart]
    have hskip : skipSpace (separated ((e :: members).map dumpMember) ++ ch '\x7d' :: rest)
        = separated ((e :: members).map dumpMember) ++ ch '\x7d' :: rest := by
      rw [htext, hq]
      exact skipSpace_cons (by decide)
    rw [hskip, htext] at hkey
    obtain ⟨hk, ht⟩ := str_quote hkey
    obtain ⟨u, hcolon, hloop⟩ := Result.bind_eq_ok.mp hloop
    rw [ht, skipSpace_cons (by decide), expect_eq_ok] at hcolon
    obtain ⟨⟨x, v⟩, hvalue, hloop⟩ := Result.bind_eq_ok.mp hloop
    rw [← (List.cons.inj hcolon).2] at hvalue
    obtain ⟨hx, hv⟩ := hback e (by simp) _ x v (nextPart_delimited (Or.inr rfl) _ _) hvalue
    obtain ⟨hput, hnone⟩ := sorted_append_put hsorted
    dsimp only at hloop
    rw [hk, hx, hnone, hput, hv, nextPart_space (Or.inr rfl)] at hloop
    simp only [Option.isSome_none, Bool.false_eq_true, if_false] at hloop
    cases members with
    | nil =>
      simp only [nextPart, List.map_nil, if_true] at hloop
      simp only [Except.ok.injEq, Prod.mk.injEq] at hloop
      exact ⟨hloop.1.symm, hloop.2.symm⟩
    | cons next members =>
      have hne : ¬(next :: members).map dumpMember = [] := by simp
      have hcomma : ¬ch ',' = ch '\x7d' := by decide
      simp only [nextPart, if_neg hne, if_neg hcomma, if_true] at hloop
      have hsorted' : Assoc.Sorted ((before ++ [e]) ++ next :: members) := by
        rwa [List.append_assoc]
      obtain ⟨hxs, hrest⟩ := ih (fun e' he' => hback e' (List.mem_cons_of_mem _ he')) hsorted' hloop
      exact ⟨by rw [hxs, List.append_assoc]; rfl, hrest⟩

end

/-- A literal is read back. -/
theorem literal_dump {j x : Json} {text rest r : Bytes} (hformed : WellFormed j)
    (hmem : (text, x) ∈ literals) (h : dump j ++ rest = text ++ r) : x = j ∧ r = rest := by
  obtain ⟨c, t, hdump, hkind, -⟩ := dump_head hformed
  obtain ⟨kind, value, items, members⟩ := j
  obtain ⟨hnode, -, -⟩ := wellFormed_mk.mp hformed
  rw [mk_kind] at hkind
  have hhead : some c = (text ++ r).head? := by
    rw [← h, hdump]
    rfl
  have hbool : ∀ v : Bool, kind = .bool → text = (if v then ascii "true" else ascii "false") →
      x = boolean v → x = mk kind value items members ∧ r = rest := by
    rintro v rfl htext rfl
    obtain ⟨hvalue, rfl, rfl⟩ := hnode
    rw [dump] at h
    have hsame : value = text := by
      rw [htext] at h ⊢
      rcases hvalue with rfl | rfl <;> cases v
      · exact absurd (List.cons.inj h).1 (by decide)
      · rfl
      · rfl
      · exact absurd (List.cons.inj h).1 (by decide)
    rw [hsame] at h
    refine ⟨?_, (List.append_cancel_left h).symm⟩
    rw [hsame, htext]
    rfl
  simp only [literals, List.mem_cons, Prod.mk.injEq, List.not_mem_nil, or_false] at hmem
  rcases hmem with ⟨rfl, rfl⟩ | ⟨rfl, rfl⟩ | ⟨rfl, rfl⟩
  · have hc : c = ch 'n' := Option.some.inj hhead
    rw [hc] at hkind
    have hnull : kind = .null := hkind.symm
    subst hnull
    obtain ⟨rfl, rfl, rfl⟩ := hnode
    rw [dump] at h
    exact ⟨rfl, (List.append_cancel_left h).symm⟩
  · have hc : c = ch 't' := Option.some.inj hhead
    rw [hc] at hkind
    exact hbool true hkind.symm rfl rfl
  · have hc : c = ch 'f' := Option.some.inj hhead
    rw [hc] at hkind
    exact hbool false hkind.symm rfl rfl

/-- A printed value is read back. -/
theorem parse_dump (j : Json) : WellFormed j → ∀ levels, ReadsBack (parse levels) j := by
  induction j using Json.induct with
  | h kind value items members hitems hmembers =>
    intro hformed levels rest x r hrest h
    cases levels with
    | zero => cases h
    | succ levels =>
      obtain ⟨hnode, hitemsFormed, hmembersFormed⟩ := wellFormed_mk.mp hformed
      obtain ⟨c, t, hdump, hkind, hstarts⟩ := dump_head hformed
      obtain ⟨c', t', hskip, hcases⟩ := parse_eq_ok h
      rw [hdump, List.cons_append, skipSpace_cons (isSpace_startsValue hstarts)] at hskip
      obtain ⟨rfl, rfl⟩ := List.cons.inj hskip
      have htext : c :: (t ++ rest) = dump (mk kind value items members) ++ rest := by
        rw [hdump, List.cons_append]
      rw [mk_kind] at hkind
      rw [htext] at hcases
      -- the byte that starts the text says how it is read
      rcases hcases with ⟨rfl, v, rfl, hstr⟩ | ⟨rfl, hobject⟩ | ⟨rfl, harray⟩ | ⟨text, hmem, hlit⟩ |
        ⟨hscan, v, hnumber, rfl, hv⟩
      · have hstring : kind = .string := hkind.symm
        subst hstring
        obtain ⟨rfl, rfl⟩ := hnode
        rw [dump] at hstr
        obtain ⟨rfl, rfl⟩ := str_quote hstr
        exact ⟨rfl, rfl⟩
      · have hobj : kind = .object := hkind.symm
        subst hobj
        obtain ⟨rfl, rfl, hsorted⟩ := hnode
        rw [dump, dumpMembers_eq, List.cons_append, List.cons_append, List.append_assoc] at htext
        rw [(List.cons.inj htext).2] at hobject
        cases members with
        | nil =>
          have hempty : readObject (parse levels) (ch '\x7d' :: rest) = .ok (object [], rest) := by
            rw [readObject, skipSpace_cons (by decide), List.head?_cons, if_pos rfl, List.tail_cons]
          cases hempty.symm.trans hobject
          exact ⟨rfl, rfl⟩
        | cons e members =>
          have hspace : skipSpace (separated ((e :: members).map dumpMember) ++ ch '\x7d' :: rest)
              = separated ((e :: members).map dumpMember) ++ ch '\x7d' :: rest := by
            rw [List.map_cons, separated_then]
            exact skipSpace_cons (by decide)
          rcases readObject_eq_ok hobject with ⟨-, hclose⟩ | ⟨xs, rfl, hread⟩
          · rw [List.singleton_append, hspace, List.map_cons, separated_then] at hclose
            exact absurd (List.cons.inj hclose).1 (by decide)
          · rw [List.singleton_append, hspace] at hread
            obtain ⟨hxs, hr⟩ := readMembers_dump
              (fun e' he' => hmembers e' he' (hmembersFormed e' he') levels)
              (by rwa [List.nil_append]) hread
            exact ⟨by rw [hxs]; rfl, hr⟩
      · have harr : kind = .array := hkind.symm
        subst harr
        obtain ⟨rfl, rfl⟩ := hnode
        rw [dump, dumpItems_eq, List.cons_append, List.cons_append, List.append_assoc] at htext
        rw [(List.cons.inj htext).2] at harray
        cases items with
        | nil =>
          have hempty : readArray (parse levels) (ch ']' :: rest) = .ok (array [], rest) := by
            rw [readArray, skipSpace_cons (by decide), List.head?_cons, if_pos rfl, List.tail_cons]
          cases hempty.symm.trans harray
          exact ⟨rfl, rfl⟩
        | cons i items =>
          obtain ⟨d, u, hd, hdkind, hdstarts⟩ := dump_head (hitemsFormed i (by simp))
          have hspace : skipSpace (separated ((i :: items).map dump) ++ ch ']' :: rest)
              = separated ((i :: items).map dump) ++ ch ']' :: rest := by
            rw [List.map_cons, separated_then, hd, List.cons_append]
            exact skipSpace_cons (isSpace_startsValue hdstarts)
          rcases readArray_eq_ok harray with ⟨-, hclose⟩ | ⟨xs, rfl, hread⟩
          · rw [List.singleton_append, hspace, List.map_cons, separated_then, hd,
              List.cons_append] at hclose
            rw [(List.cons.inj hclose).1] at hdstarts
            exact absurd hdstarts (by decide)
          · rw [List.singleton_append, hspace] at hread
            obtain ⟨hxs, hr⟩ := readItems_dump
              (fun i' hi' => hitems i' hi' (hitemsFormed i' hi') levels) hread
            exact ⟨by rw [hxs]; rfl, hr⟩
      · exact literal_dump hformed hmem hlit
      · have hfirst : isNumberByte c = true := by
          have hall := hnumber.all
          cases v with
          | nil => exact absurd rfl hnumber.ne_nil
          | cons b v =>
            rw [hdump] at hv
            rw [(List.cons.inj hv).1]
            simp only [List.all_cons, Bool.and_eq_true] at hall
            exact hall.1
        have hnum : kind = .number := by rw [← hkind, headKind_number hfirst]
        subst hnum
        obtain ⟨htoken, rfl, rfl⟩ := hnode
        rw [dump] at hscan hv
        have hstops := scans_number.stops value [] rest hrest.not_numberByte htoken
        have hr : r = rest := by
          have := Except.ok.inj (hscan.symm.trans hstops)
          rwa [List.nil_append] at this
        subst hr
        rw [List.append_cancel_right hv]
        exact ⟨rfl, rfl⟩

theorem parseJson_dump {j x : Json} (hformed : WellFormed j) (h : parseJson (dump j) = .ok x) :
    x = j := by
  obtain ⟨r, hparse, -⟩ := parseJson_eq_ok h
  rw [← List.append_nil (dump j)] at hparse
  exact (parse_dump j hformed _ [] x r (by intro c hc; cases hc) hparse).1

end Json

end PineForge.Runner
