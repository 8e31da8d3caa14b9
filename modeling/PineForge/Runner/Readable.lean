import Mathlib
import PineForge.Runner.ValueText

/-!
# The grammar is read

Every value of the grammar with distinct names and few enough levels is read as the value of its
tree, and what follows it is left (`parse_complete`).
-/

namespace PineForge.Runner

namespace Json

/-- No byte of a number comes first. -/
def Stops (s : Bytes) : Prop := ∀ c ∈ s.head?, isNumberByte c = false

theorem isSpace_not_number {c : Byte} (h : isSpace c = true) : isNumberByte c = false := by
  simp only [isSpace, decide_eq_true_eq] at h
  rcases h with rfl | rfl | rfl | rfl
  · decide
  · decide
  · decide
  · decide

theorem stops_space {w : Bytes} (hw : Space w) {s : Bytes} (hs : Stops s) : Stops (w ++ s) := by
  cases w with
  | nil => exact hs
  | cons c w =>
    intro b hb
    rw [← Option.some.inj hb]
    unfold Space at hw
    rw [List.all_cons, Bool.and_eq_true] at hw
    exact isSpace_not_number hw.1

theorem stops_cons {c : Byte} (hc : isNumberByte c = false) (s : Bytes) : Stops (c :: s) := by
  intro b hb
  rw [← Option.some.inj hb]
  exact hc

theorem NumberText.head {s : Bytes} (h : NumberText s) :
    ∃ c u, s = c :: u ∧ isNumberByte c = true := by
  have hall := h.isNumber.all
  cases s with
  | nil => exact absurd rfl h.isNumber.ne_nil
  | cons c u =>
    rw [List.all_cons, Bool.and_eq_true] at hall
    exact ⟨c, u, rfl, hall.1⟩

theorem ValueText.head {t : Tree} {s : Bytes} (h : ValueText t s) :
    ∃ c u, s = c :: u ∧ startsValue c = true := by
  cases h with
  | null => exact ⟨_, _, rfl, by decide⟩
  | yes => exact ⟨_, _, rfl, by decide⟩
  | no => exact ⟨_, _, rfl, by decide⟩
  | number hnumber =>
    obtain ⟨c, u, rfl, hc⟩ := hnumber.head
    exact ⟨c, u, rfl, by simp [startsValue, hc]⟩
  | string hstring =>
    obtain ⟨hcs⟩ := hstring
    exact ⟨_, _, rfl, by decide⟩
  | emptyArray _ => exact ⟨_, _, rfl, by decide⟩
  | array _ _ _ => exact ⟨_, _, rfl, by decide⟩
  | emptyObject _ => exact ⟨_, _, rfl, by decide⟩
  | object _ _ _ _ => exact ⟨_, _, rfl, by decide⟩

/-! ## Arrays -/

/-- A value with the space before it is read, and what follows is left. -/
def ReadsItem (element : Bytes → Except ℕ (Json × Bytes)) (i : Item) : Prop :=
  ∀ rest, Stops rest → element (i.before ++ i.text ++ rest) = .ok (i.tree.value, rest)

section

variable {element : Bytes → Except ℕ (Json × Bytes)}

/-- Items of the grammar are read. -/
theorem readItems_complete {items : List Item} (hne : items ≠ []) (hspaced : ∀ i ∈ items, i.Spaced)
    (hread : ∀ i ∈ items, ReadsItem element i) {fuel : ℕ} (hfuel : items.length ≤ fuel)
    (rest : Bytes) :
    readItems element fuel (separated (items.map Item.bytes) ++ ch ']' :: rest)
      = .ok (items.map (·.tree.value), rest) := by
  induction items generalizing fuel with
  | nil => exact absurd rfl hne
  | cons i items ih =>
    obtain ⟨hspace, hspaced⟩ := List.forall_mem_cons.mp hspaced
    obtain ⟨hi, hread⟩ := List.forall_mem_cons.mp hread
    cases fuel with
    | zero => cases hfuel
    | succ fuel =>
      rw [List.map_cons, separated_then]
      simp only [readItems]
      by_cases hlast : items = []
      · subst hlast
        have hstops := stops_space hspace.after
          (stops_cons (by decide : isNumberByte (ch ']') = false) rest)
        rw [List.map_nil, if_pos rfl, Item.bytes, List.append_assoc _ i.after, hi _ hstops,
          Result.ok_bind]
        dsimp only
        rw [skipSpace_to hspace.after (by decide)]
        rfl
      · have hparts : items.map Item.bytes ≠ [] := by simpa using hlast
        have hstops := stops_space hspace.after
          (stops_cons (by decide : isNumberByte (ch ',') = false)
          (separated (items.map Item.bytes) ++ ch ']' :: rest))
        have hmore := @ih hlast hspaced hread fuel (by rw [List.length_cons] at hfuel; omega)
        rw [if_neg hparts, Item.bytes, List.append_assoc _ i.after, hi _ hstops, Result.ok_bind]
        dsimp only
        rw [skipSpace_to hspace.after (by decide)]
        dsimp only
        rw [if_neg (by decide), if_pos rfl, hmore]
        rfl

/-! ## Objects -/

theorem StringText.head {cs : List Char} {s : Bytes} (h : StringText cs s) :
    ∃ u, s = ch '"' :: u := by
  obtain ⟨hcs⟩ := h
  exact ⟨_, rfl⟩

theorem readMembers_member {m : Member} (hspace : m.Spaced) (hname : StringText m.chars m.name)
    (hread : ReadsItem element m.item) {acc : List (Bytes × Json)}
    (hnew : Assoc.find (charsBytes m.chars) acc = none) (fuel : ℕ) {c : Byte}
    (hc : isNumberByte c = false)
    (hspaceless : isSpace c = false) (s : Bytes) :
    readMembers element (fuel + 1) acc (m.bytes ++ c :: s)
      = if c = ch '\x7d' then .ok (Assoc.put (charsBytes m.chars) m.item.tree.value acc, s)
        else if c = ch ',' then
          readMembers element fuel (Assoc.put (charsBytes m.chars) m.item.tree.value acc) s
        else .error (s.length + 1) := by
  have hsplit : m.bytes ++ c :: s
      = m.before ++ (m.name ++ (m.between ++
        ch ':' :: (m.item.before ++ m.item.text ++ (m.item.after ++ c :: s)))) := by
    simp [Member.bytes, Item.bytes]
  have hskip : ∀ tail, skipSpace (m.before ++ (m.name ++ tail)) = m.name ++ tail := by
    intro tail
    obtain ⟨u, hu⟩ := hname.head
    rw [hu, List.cons_append]
    exact skipSpace_to hspace.before (by decide) _
  have hstops : Stops (m.item.after ++ c :: s) := stops_space hspace.item.after (stops_cons hc s)
  simp only [readMembers]
  rw [hsplit, hskip, str_eq_ok.mpr ⟨m.chars, m.name, hname, rfl, rfl⟩, Result.ok_bind]
  dsimp only
  rw [skipSpace_to hspace.between (by decide), expect_eq_ok.mpr rfl, Result.ok_bind, hread _ hstops,
    Result.ok_bind]
  dsimp only
  rw [hnew, skipSpace_to hspace.item.after hspaceless]
  rfl

/-- Members of the grammar are read. -/
theorem readMembers_complete {members : List Member} (hne : members ≠ [])
    (hspaced : ∀ m ∈ members, m.Spaced)
    (hname : ∀ m ∈ members, StringText m.chars m.name)
    (hread : ∀ m ∈ members, ReadsItem element m.item)
    {acc : List (Bytes × Json)} (hfresh : Fresh acc (members.map fun m => charsBytes m.chars))
    {fuel : ℕ}
    (hfuel : members.length ≤ fuel) (rest : Bytes) :
    readMembers element fuel acc (separated (members.map Member.bytes) ++ ch '\x7d' :: rest)
      = .ok ((members.map Member.field).foldl (fun acc f => Assoc.put f.1 f.2 acc) acc, rest) := by
  induction members generalizing fuel acc with
  | nil => exact absurd rfl hne
  | cons m members ih =>
    obtain ⟨hspace, hspaced⟩ := List.forall_mem_cons.mp hspaced
    obtain ⟨hn, hname⟩ := List.forall_mem_cons.mp hname
    obtain ⟨hi, hread⟩ := List.forall_mem_cons.mp hread
    rw [List.map_cons, fresh_cons (j := m.item.tree.value)] at hfresh
    obtain ⟨hnew, hfresh⟩ := hfresh
    cases fuel with
    | zero => cases hfuel
    | succ fuel =>
      rw [List.map_cons, separated_then]
      by_cases hlast : members = []
      · subst hlast
        rw [List.map_nil, if_pos rfl, readMembers_member hspace hn hi hnew fuel (by decide)
          (by decide), if_pos rfl]
        rfl
      · have hparts : members.map Member.bytes ≠ [] := by simpa using hlast
        rw [if_neg hparts, readMembers_member hspace hn hi hnew fuel (by decide) (by decide),
          if_neg (by decide),
          if_pos rfl, ih hlast hspaced hname hread hfresh
            (by rw [List.length_cons] at hfuel; omega)]
        rfl

end

/-! ## Values -/

theorem length_separated {parts : List Bytes} (h : ∀ p ∈ parts, p ≠ []) :
    parts.length ≤ (separated parts).length := by
  induction parts with
  | nil => exact Nat.zero_le _
  | cons p parts ih =>
    obtain ⟨hp, hparts⟩ := List.forall_mem_cons.mp h
    have hpos := List.length_pos_iff.mpr hp
    have hle := ih hparts
    cases parts with
    | nil => exact hpos
    | cons q parts =>
      simp only [separated, List.length_append, List.length_cons] at hle ⊢
      omega

theorem Item.bytes_ne {i : Item} (h : ValueText i.tree i.text) : i.bytes ≠ [] := by
  obtain ⟨c, u, hu, -⟩ := h.head
  simp [Item.bytes, hu]

theorem Member.bytes_ne (m : Member) : m.bytes ≠ [] := by simp [Member.bytes]

theorem skipSpace_items {i : Item} (hspace : i.Spaced) (htext : ValueText i.tree i.text)
    (items : List Item)
    (tail : Bytes) : skipSpace (separated ((i :: items).map Item.bytes) ++ tail)
      = separated (({ i with before := [] } :: items).map Item.bytes) ++ tail := by
  have hbytes : i.bytes = i.before ++ Item.bytes { i with before := [] } := by simp [Item.bytes]
  obtain ⟨c, u, hu, hc⟩ := htext.head
  rw [List.map_cons, hbytes, separated_cons_append, List.append_assoc,
    skipSpace_append hspace.before]
  rw [List.map_cons]
  apply skipSpace_eq
  intro b hb
  have hhead : (separated (Item.bytes { i with before := [] } :: items.map Item.bytes) ++
      tail).head? = some c := by
    cases items with
    | nil => simp [separated, Item.bytes, hu]
    | cons next items => simp [separated, Item.bytes, hu]
  rw [hhead] at hb
  rw [← Option.some.inj hb]
  exact isSpace_startsValue hc

theorem skipSpace_members {m : Member} (hspace : m.Spaced) (hname : StringText m.chars m.name)
    (members : List Member)
    (tail : Bytes) : skipSpace (separated ((m :: members).map Member.bytes) ++ tail)
      = separated (({ m with before := [] } :: members).map Member.bytes) ++ tail := by
  have hbytes : m.bytes = m.before ++ Member.bytes { m with before := [] } := by simp [Member.bytes]
  obtain ⟨u, hu⟩ := hname.head
  rw [List.map_cons, hbytes, separated_cons_append, List.append_assoc,
    skipSpace_append hspace.before]
  rw [List.map_cons]
  apply skipSpace_eq
  intro b hb
  have hhead : (separated (Member.bytes { m with before := [] } :: members.map Member.bytes) ++
    tail).head?
      = some (ch '"') := by
    cases members with
    | nil => simp [separated, Member.bytes, hu]
    | cons next members => simp [separated, Member.bytes, hu]
  rw [hhead] at hb
  rw [← Option.some.inj hb]
  decide

theorem parse_cons {levels : ℕ} {before : Bytes} (hbefore : Space before) {c : Byte}
    (hc : startsValue c = true)
    (s : Bytes) : parse (levels + 1) (before ++ c :: s)
      = if c = ch '"' then str (c :: s) >>= fun p => .ok (string p.1, p.2)
        else if c = ch '\x7b' then readObject (parse levels) s
        else if c = ch '[' then readArray (parse levels) s
        else (literals.find? fun l => l.1.isPrefixOf (c :: s)).elim (readNumber (c :: s))
          fun l => .ok (l.2, (c :: s).drop l.1.length) := by
  simp only [parse]
  rw [skipSpace_to hbefore (isSpace_startsValue hc)]
  dsimp only
  cases literals.find? fun l => l.1.isPrefixOf (c :: s) with
  | none => rfl
  | some l => rfl

theorem parse_literal {levels : ℕ} {before : Bytes} (hbefore : Space before) {l : Bytes × Json}
    (hl : l ∈ literals)
    (rest : Bytes) : parse (levels + 1) (before ++ l.1 ++ rest) = .ok (l.2, rest) := by
  rw [List.append_assoc]
  simp only [literals, List.mem_cons, List.not_mem_nil, or_false] at hl
  rcases hl with rfl | rfl | rfl
  · exact parse_cons hbefore (by decide) _
  · exact parse_cons hbefore (by decide) _
  · exact parse_cons hbefore (by decide) _

theorem parse_number {levels : ℕ} {before : Bytes} (hbefore : Space before) {v : Bytes}
    (hv : NumberText v)
    {rest : Bytes} (hrest : Stops rest) :
    parse (levels + 1) (before ++ v ++ rest) = .ok (number v, rest) := by
  have hscan : scanNumber (v ++ rest) = .ok rest := scans_number.stops v [] rest hrest hv.isNumber
  have hread : readNumber (v ++ rest) = .ok (number v, rest) := by
    unfold readNumber
    rw [hscan]
    dsimp only
    rw [List.length_append, Nat.add_sub_cancel, List.take_left]
  obtain ⟨c, u, rfl, hc⟩ := hv.head
  have hne : ∀ b : Byte, isNumberByte b = false → c ≠ b := by
    rintro b hb rfl
    rw [hc] at hb
    cases hb
  have hfind : literals.find? (fun l => l.1.isPrefixOf (c :: (u ++ rest))) = none := by
    rw [List.find?_eq_none]
    intro l hl hpre
    simp only [literals, List.mem_cons, List.not_mem_nil, or_false] at hl
    rcases hl with rfl | rfl | rfl
    · exact hne (ch 'n') (by decide)
        (List.cons_prefix_cons.mp (List.isPrefixOf_iff_prefix.mp hpre)).1.symm
    · exact hne (ch 't') (by decide)
        (List.cons_prefix_cons.mp (List.isPrefixOf_iff_prefix.mp hpre)).1.symm
    · exact hne (ch 'f') (by decide)
        (List.cons_prefix_cons.mp (List.isPrefixOf_iff_prefix.mp hpre)).1.symm
  rw [List.append_assoc, List.cons_append, parse_cons hbefore (by simp [startsValue, hc]),
    if_neg (hne _ (by decide)),
    if_neg (hne _ (by decide)), if_neg (hne _ (by decide)), hfind]
  exact hread

/-- An array of the grammar is read. -/
theorem readArray_complete {element : Bytes → Except ℕ (Json × Bytes)} {items : List Item}
    (hne : items ≠ [])
    (hspaced : ∀ i ∈ items, i.Spaced) (htext : ∀ i ∈ items, ValueText i.tree i.text)
    (hread : ∀ i ∈ items, ∀ before, Space before → ReadsItem element { i with before := before })
    (rest : Bytes) :
    readArray element (separated (items.map Item.bytes) ++ ch ']' :: rest)
      = .ok (array (items.map (·.tree.value)), rest) := by
  cases items with
  | nil => exact absurd rfl hne
  | cons i items =>
    obtain ⟨hspace, hspaced⟩ := List.forall_mem_cons.mp hspaced
    obtain ⟨hitext, htext⟩ := List.forall_mem_cons.mp htext
    obtain ⟨hi, hread⟩ := List.forall_mem_cons.mp hread
    have hnil : Space [] := rfl
    have hfuel : (i :: items).length
        ≤ (separated (({ i with before := [] } :: items).map Item.bytes) ++ ch ']' :: rest).length
          + 1 := by
      have hparts : ∀ p ∈ ({ i with before := [] } :: items).map Item.bytes, p ≠ [] := by
        rw [List.forall_mem_map, List.forall_mem_cons]
        exact ⟨Item.bytes_ne hitext, fun j hj => Item.bytes_ne (htext j hj)⟩
      have hle := length_separated hparts
      rw [List.length_map] at hle
      rw [List.length_append]
      exact hle.trans (by omega)
    have hitems := @readItems_complete element ({ i with before := [] } :: items) (by simp)
      (List.forall_mem_cons.mpr ⟨⟨hnil, hspace.after⟩, hspaced⟩)
      (List.forall_mem_cons.mpr ⟨hi [] hnil, fun j hj => hread j hj j.before (hspaced j hj).before⟩)
        _ hfuel rest
    have hhead : (separated (({ i with before := [] } :: items).map Item.bytes) ++
      ch ']' :: rest).head?
        ≠ some (ch ']') := by
      obtain ⟨c, u, hu, hc⟩ := hitext.head
      have hc' : c ≠ ch ']' := by
        rintro rfl
        exact absurd hc (by decide)
      cases items with
      | nil => simpa [separated, Item.bytes, hu] using hc'
      | cons next items => simpa [separated, Item.bytes, hu] using hc'
    unfold readArray
    dsimp only
    rw [skipSpace_items hspace hitext, if_neg hhead, hitems]
    rfl

/-- An object of the grammar is read. -/
theorem readObject_complete {element : Bytes → Except ℕ (Json × Bytes)} {members : List Member}
    (hne : members ≠ [])
    (hspaced : ∀ m ∈ members, m.Spaced) (hname : ∀ m ∈ members, StringText m.chars m.name)
    (hread : ∀ m ∈ members, ReadsItem element m.item)
    (hfresh : Fresh [] (members.map fun m => charsBytes m.chars)) (rest : Bytes) :
    readObject element (separated (members.map Member.bytes) ++ ch '\x7d' :: rest)
      = .ok (object (Assoc.ofFields (members.map Member.field)), rest) := by
  cases members with
  | nil => exact absurd rfl hne
  | cons m members =>
    obtain ⟨hspace, hspaced⟩ := List.forall_mem_cons.mp hspaced
    obtain ⟨hn, hname⟩ := List.forall_mem_cons.mp hname
    obtain ⟨hi, hread⟩ := List.forall_mem_cons.mp hread
    have hnil : Space [] := rfl
    have hfuel : (m :: members).length
        ≤ (separated (({ m with before := [] } :: members).map Member.bytes) ++
          ch '\x7d' :: rest).length + 1 := by
      have hparts : ∀ p ∈ ({ m with before := [] } :: members).map Member.bytes, p ≠ [] := by
        rw [List.forall_mem_map]
        exact fun m _ => m.bytes_ne
      have hle := length_separated hparts
      rw [List.length_map] at hle
      rw [List.length_append]
      exact hle.trans (by omega)
    have hmembers := @readMembers_complete element ({ m with before := [] } :: members) (by simp)
      (List.forall_mem_cons.mpr ⟨⟨hnil, hspace.between, hspace.item⟩, hspaced⟩)
      (List.forall_mem_cons.mpr ⟨hn, hname⟩) (List.forall_mem_cons.mpr ⟨hi, hread⟩) []
        hfresh _ hfuel rest
    have hhead : (separated (({ m with before := [] } :: members).map Member.bytes) ++
      ch '\x7d' :: rest).head?
        ≠ some (ch '\x7d') := by
      obtain ⟨u, hu⟩ := hn.head
      cases members with
      | nil => simp [separated, Member.bytes, hu]; decide
      | cons next members => simp [separated, Member.bytes, hu]; decide
    unfold readObject
    dsimp only
    rw [skipSpace_members hspace hn, if_neg hhead, hmembers]
    rfl

/-- A value of the grammar is read. -/
theorem parse_complete {t : Tree} {text : Bytes} (h : ValueText t text) {levels : ℕ}
    (hdepth : t.depth ≤ levels)
    (hdistinct : t.Distinct) {before : Bytes} (hbefore : Space before) {rest : Bytes}
    (hrest : Stops rest) :
    parse levels (before ++ text ++ rest) = .ok (t.value, rest) := by
  induction h generalizing levels before rest with
  | null =>
    obtain ⟨levels, rfl⟩ : ∃ n, levels = n + 1 := Nat.exists_eq_add_of_le' hdepth
    rw [Tree.value]
    exact parse_literal hbefore (l := (ascii "null", null)) (by simp [literals]) rest
  | yes =>
    obtain ⟨levels, rfl⟩ : ∃ n, levels = n + 1 := Nat.exists_eq_add_of_le' hdepth
    rw [Tree.value]
    exact parse_literal hbefore (l := (ascii "true", boolean true)) (by simp [literals]) rest
  | no =>
    obtain ⟨levels, rfl⟩ : ∃ n, levels = n + 1 := Nat.exists_eq_add_of_le' hdepth
    rw [Tree.value]
    exact parse_literal hbefore (l := (ascii "false", boolean false)) (by simp [literals]) rest
  | number hnumber =>
    obtain ⟨levels, rfl⟩ : ∃ n, levels = n + 1 := Nat.exists_eq_add_of_le' hdepth
    rw [Tree.value]
    exact parse_number hbefore hnumber hrest
  | @string cs s hstring =>
    obtain ⟨levels, rfl⟩ : ∃ n, levels = n + 1 := Nat.exists_eq_add_of_le' hdepth
    have hread : str (s ++ rest) = .ok (charsBytes cs, rest) :=
      str_eq_ok.mpr ⟨cs, s, hstring, rfl, rfl⟩
    obtain ⟨u, hu⟩ := hstring.head
    rw [hu] at hread ⊢
    rw [Tree.value, List.append_assoc, List.cons_append, parse_cons hbefore (by decide), if_pos rfl]
    rw [List.cons_append] at hread
    rw [hread]
    rfl
  | emptyArray hspace =>
    obtain ⟨levels, rfl⟩ : ∃ n, levels = n + 1 := Nat.exists_eq_add_of_le' hdepth
    rw [List.append_assoc, List.cons_append, List.cons_append, parse_cons hbefore (by decide),
      if_neg (by decide),
      if_neg (by decide), if_pos rfl, List.append_assoc, List.singleton_append, readArray,
      skipSpace_to hspace (by decide), List.head?_cons, if_pos rfl, List.tail_cons, Tree.value,
        Tree.valueItems]
  | emptyObject hspace =>
    obtain ⟨levels, rfl⟩ : ∃ n, levels = n + 1 := Nat.exists_eq_add_of_le' hdepth
    rw [List.append_assoc, List.cons_append, List.cons_append, parse_cons hbefore (by decide),
      if_neg (by decide),
      if_pos rfl, List.append_assoc, List.singleton_append, readObject,
        skipSpace_to hspace (by decide),
      List.head?_cons, if_pos rfl, List.tail_cons, Tree.value, Tree.valueMembers]
    rfl
  | @array items hne hspaced htext ih =>
    obtain ⟨levels, rfl⟩ : ∃ n, levels = n + 1 :=
      Nat.exists_eq_add_of_le' (by rw [Tree.depth] at hdepth; omega)
    rw [Tree.depth, Nat.add_le_add_iff_right, Tree.depthItems_le, List.forall_mem_map] at hdepth
    rw [Tree.Distinct, Tree.distinctItems_iff, List.forall_mem_map] at hdistinct
    have hread : ∀ i ∈ items, ∀ before, Space before →
        ReadsItem (parse levels) { i with before := before } :=
      fun i hi before hbefore rest hrest => ih i hi (hdepth i hi) (hdistinct i hi) hbefore hrest
    rw [List.append_assoc, List.cons_append, List.cons_append, parse_cons hbefore (by decide),
      if_neg (by decide),
      if_neg (by decide), if_pos rfl, List.append_assoc, List.singleton_append,
      readArray_complete hne hspaced htext hread, Tree.value, Tree.valueItems_eq, List.map_map]
    rfl
  | @object members hne hspaced hname htext ih =>
    obtain ⟨levels, rfl⟩ : ∃ n, levels = n + 1 :=
      Nat.exists_eq_add_of_le' (by rw [Tree.depth] at hdepth; omega)
    rw [Tree.depth, Nat.add_le_add_iff_right, Tree.depthMembers_le, List.forall_mem_map] at hdepth
    rw [Tree.Distinct, Tree.distinctMembers_iff, List.forall_mem_map, List.map_map] at hdistinct
    obtain ⟨hnodup, hdistinct⟩ := hdistinct
    have hread : ∀ m ∈ members, ReadsItem (parse levels) m.item :=
      fun m hm rest hrest => ih m hm (hdepth m hm) (hdistinct m hm) (hspaced m hm).item.before hrest
    have hfresh : Fresh [] (members.map fun m => charsBytes m.chars) := by
      refine ⟨?_, fun _ _ => rfl⟩
      have hmap := hnodup.map charsBytes_injective
      rwa [List.map_map] at hmap
    rw [List.append_assoc, List.cons_append, List.cons_append, parse_cons hbefore (by decide),
      if_neg (by decide),
      if_pos rfl, List.append_assoc, List.singleton_append,
        readObject_complete hne hspaced hname hread hfresh,
      Tree.value, Tree.valueMembers_eq, List.map_map]
    rfl

end Json

end PineForge.Runner
