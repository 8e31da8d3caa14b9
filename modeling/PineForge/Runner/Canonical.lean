import Mathlib
import PineForge.Runner.Readable

/-!
# Canonical JSON

`parseJson` reads the texts of the grammar within its bounds and no others (`parseJson_iff`). A
printed value is one of them and reads back (`parseJson_dump_eq`), and two texts print alike exactly
when they denote one value: an array its items in order, an object a finite map, a number its token.
-/

namespace PineForge.Runner

namespace Json

/-! ## Texts -/

theorem Space.stops {w : Bytes} (hw : Space w) : Stops w := by
  have hnil : Stops [] := by
    intro c hc
    cases hc
  have hstops := stops_space hw hnil
  rwa [List.append_nil] at hstops

/-- A text is read where the grammar has one within the bounds, as the value of its tree. -/
theorem parseJson_iff {s : Bytes} {j : Json} : parseJson s = .ok j ↔
    s.length ≤ maxFrame ∧ ∃ t, JsonText t s ∧ t.depth ≤ maxDepth ∧ t.Distinct ∧ t.value = j := by
  constructor
  · intro h
    have hsize : s.length ≤ maxFrame := by
      by_contra hlong
      rw [parseJson, if_pos (not_le.mp hlong)] at h
      cases h
    obtain ⟨r, hparse, hspace⟩ := parseJson_eq_ok h
    obtain ⟨t, before, text, hbefore, htext, rfl, hdepth, hdistinct, hvalue⟩ :=
      parse_sound _ _ _ _ hparse
    obtain ⟨after, hafter, hr⟩ := skipSpace_split r
    rw [hspace, List.append_nil] at hr
    subst hr
    exact ⟨hsize, t, ⟨hbefore, htext, hafter⟩, hdepth, hdistinct, hvalue⟩
  · rintro ⟨hsize, t, ⟨hbefore, htext, hafter⟩, hdepth, hdistinct, rfl⟩
    have hspace := skipSpace_append hafter []
    rw [List.append_nil] at hspace
    rw [parseJson, if_neg (not_lt.mpr hsize),
      parse_complete htext hdepth hdistinct hbefore hafter.stops]
    dsimp only
    rw [hspace]
    rfl

/-- Whatever its levels, a tree with distinct names of a text that is read has the value read. -/
theorem value_unique {s : Bytes} {j : Json} (h : parseJson s = .ok j) {t : Tree} (ht : JsonText t s)
    (hdistinct : t.Distinct) : t.value = j := by
  obtain ⟨-, u, hu, -, hudistinct, rfl⟩ := parseJson_iff.mp h
  have hparse : ∀ {t : Tree}, JsonText t s → t.Distinct → ∀ levels, t.depth ≤ levels →
      (parse levels s).map Prod.fst = .ok t.value := by
    rintro t ⟨hbefore, htext, hafter⟩ hdistinct levels hdepth
    rw [parse_complete htext hdepth hdistinct hbefore hafter.stops]
    rfl
  have htvalue := hparse ht hdistinct (max t.depth u.depth) (le_max_left ..)
  have huvalue := hparse hu hudistinct (max t.depth u.depth) (le_max_right ..)
  exact Except.ok.inj (htvalue.symm.trans huvalue)

/-! ## What a text denotes -/

/-- Values as such: an object is a map, a number its token. -/
inductive Denotation
  | null
  | bool (b : Bool)
  | number (token : Bytes)
  | string (chars : List Char)
  | array (items : List Denotation)
  | object (members : List Char → Option Denotation)

mutual

/-- What a tree denotes: members are a map. -/
def Tree.denotation : Tree → Denotation
  | .null => .null
  | .bool b => .bool b
  | .number v => .number v
  | .string cs => .string cs
  | .array items => .array (denotationItems items)
  | .object members => .object (denotationMembers members)

/-- What items denote. -/
def Tree.denotationItems : List Tree → List Denotation
  | [] => []
  | t :: items => t.denotation :: denotationItems items

/-- What a member of a name denotes. -/
def Tree.denotationMembers : List (List Char × Tree) → List Char → Option Denotation
  | [], _ => none
  | (name, t) :: members, key => if key = name then some t.denotation
    else denotationMembers members key

end

namespace Tree

theorem denotationItems_eq (items : List Tree) : denotationItems items = items.map denotation := by
  induction items with
  | nil => rfl
  | cons t items ih => rw [denotationItems, ih, List.map_cons]

theorem denotationMembers_eq (members : List (List Char × Tree)) (key : List Char) :
    denotationMembers members key = (Assoc.find key members).map denotation := by
  induction members with
  | nil => rw [denotationMembers]; rfl
  | cons m members ih =>
    obtain ⟨name, t⟩ := m
    rw [denotationMembers, Assoc.find_cons]
    split
    · rfl
    · exact ih

theorem find_valueMembers (members : List (List Char × Tree)) (key : List Char) :
    Assoc.find (charsBytes key) (valueMembers members) = (Assoc.find key members).map value := by
  induction members with
  | nil =>
    rw [valueMembers]
    rfl
  | cons m members ih =>
    obtain ⟨name, t⟩ := m
    rw [valueMembers, Assoc.find_cons, Assoc.find_cons]
    by_cases hname : key = name
    · rw [if_pos hname, if_pos (congrArg charsBytes hname)]
      rfl
    · rw [if_neg hname, if_neg fun h => hname (charsBytes_injective h)]
      exact ih

theorem find_valueMembers_none (members : List (List Char × Tree)) {key : Bytes}
    (h : ∀ cs, charsBytes cs ≠ key) :
    Assoc.find key (valueMembers members) = none := by
  rw [valueMembers_eq]
  apply Assoc.find_eq_none
  rw [List.forall_mem_map]
  exact fun m _ => h m.1

theorem nodup_valueMembers {members : List (List Char × Tree)} (h : (members.map Prod.fst).Nodup) :
    ((valueMembers members).map Prod.fst).Nodup := by
  rw [valueMembers_eq, List.map_map]
  have hmap := h.map charsBytes_injective
  rwa [List.map_map] at hmap

theorem ofFields_eq_iff {members members' : List (List Char × Tree)}
    (h : (members.map Prod.fst).Nodup)
    (h' : (members'.map Prod.fst).Nodup) :
    Assoc.ofFields (valueMembers members) = Assoc.ofFields (valueMembers members') ↔
      ∀ key, (Assoc.find key members).map value = (Assoc.find key members').map value := by
  constructor
  · intro heq key
    rw [← find_valueMembers, ← find_valueMembers, ← Assoc.find_ofFields (nodup_valueMembers h), heq,
      Assoc.find_ofFields (nodup_valueMembers h')]
  · intro hall
    apply (Assoc.sorted_ofFields _).ext (Assoc.sorted_ofFields _)
    intro key
    rw [Assoc.find_ofFields (nodup_valueMembers h), Assoc.find_ofFields (nodup_valueMembers h')]
    by_cases hkey : ∃ cs, charsBytes cs = key
    · obtain ⟨cs, rfl⟩ := hkey
      rw [find_valueMembers, find_valueMembers, hall]
    · rw [not_exists] at hkey
      rw [find_valueMembers_none members hkey, find_valueMembers_none members' hkey]

theorem map_eq_map_iff {α β γ : Type} {f : α → β} {g : α → γ} {xs ys : List α}
    (h : ∀ x ∈ xs, ∀ y ∈ ys, f x = f y ↔ g x = g y) :
    xs.map f = ys.map f ↔ xs.map g = ys.map g := by
  induction xs generalizing ys with
  | nil => simp
  | cons x xs ih =>
    cases ys with
    | nil => simp
    | cons y ys =>
      rw [List.map_cons, List.map_cons, List.map_cons, List.map_cons, List.cons.injEq,
        List.cons.injEq,
        h x (by simp) y (by simp), ih fun x hx y hy => h x (List.mem_cons_of_mem _ hx) y
          (List.mem_cons_of_mem _ hy)]

theorem boolean_injective {a b : Bool} (h : boolean a = boolean b) : a = b := by
  have hvalue := congrArg Json.value h
  cases a with
  | false =>
    cases b with
    | false => rfl
    | true => exact absurd hvalue (by decide)
  | true =>
    cases b with
    | false => exact absurd hvalue (by decide)
    | true => rfl

/-- Values agree where denotations do. -/
theorem value_eq_iff (t : Tree) :
    ∀ u : Tree, t.Distinct → u.Distinct → (t.value = u.value ↔ t.denotation = u.denotation) := by
  induction t using Tree.induct with
  | hnull =>
    intro u _ _
    cases u <;> simp [value, denotation, Json.null, Json.boolean, Json.number, Json.string,
      Json.array, Json.object]
  | hbool b =>
    intro u _ _
    cases u with
    | bool b' =>
      rw [value, value, denotation, denotation, Denotation.bool.injEq]
      exact ⟨boolean_injective, congrArg boolean⟩
    | null => simp [value, denotation, Json.null, Json.boolean]
    | number v => simp [value, denotation, Json.number, Json.boolean]
    | string cs => simp [value, denotation, Json.string, Json.boolean]
    | array items => simp [value, denotation, Json.array, Json.boolean]
    | object members => simp [value, denotation, Json.object, Json.boolean]
  | hnumber v =>
    intro u _ _
    cases u <;> simp [value, denotation, Json.null, Json.boolean, Json.number, Json.string,
      Json.array, Json.object]
  | hstring cs =>
    intro u _ _
    cases u <;> simp [value, denotation, Json.null, Json.boolean, Json.number, Json.string,
      Json.array, Json.object,
      charsBytes_injective.eq_iff]
  | harray items ih =>
    intro u ht hu
    cases u with
    | array items' =>
      rw [Distinct, distinctItems_iff] at ht hu
      rw [value, value, denotation, denotation, valueItems_eq, valueItems_eq, denotationItems_eq,
        denotationItems_eq]
      simp only [Json.array, Json.mk.injEq, true_and, and_true, Denotation.array.injEq]
      exact map_eq_map_iff fun x hx y hy => ih x hx y (ht x hx) (hu y hy)
    | null => simp [value, denotation, Json.null, Json.array]
    | bool b => simp [value, denotation, Json.boolean, Json.array]
    | number v => simp [value, denotation, Json.number, Json.array]
    | string cs => simp [value, denotation, Json.string, Json.array]
    | object members => simp [value, denotation, Json.object, Json.array]
  | hobject members ih =>
    intro u ht hu
    cases u with
    | object members' =>
      rw [Distinct, distinctMembers_iff] at ht hu
      rw [value, value, denotation, denotation]
      simp only [Json.object, Json.mk.injEq, true_and, Denotation.object.injEq]
      rw [ofFields_eq_iff ht.1 hu.1, funext_iff]
      refine forall_congr' fun key => ?_
      rw [denotationMembers_eq, denotationMembers_eq]
      cases hfind : Assoc.find key members with
      | none => cases Assoc.find key members' <;> simp
      | some x =>
        cases hfind' : Assoc.find key members' with
        | none => simp
        | some y =>
          have hx := Assoc.mem_of_find hfind
          have hy := Assoc.mem_of_find hfind'
          rw [Option.map_some, Option.map_some, Option.map_some, Option.map_some, Option.some.injEq,
            Option.some.injEq]
          exact ih _ hx y (ht.2 _ hx) (hu.2 _ hy)
    | null => simp [value, denotation, Json.null, Json.object]
    | bool b => simp [value, denotation, Json.boolean, Json.object]
    | number v => simp [value, denotation, Json.number, Json.object]
    | string cs => simp [value, denotation, Json.string, Json.object]
    | array items => simp [value, denotation, Json.array, Json.object]

end Tree

/-! ## Printed values -/

mutual

/-- The levels of a value. -/
def levels : Json → ℕ
  | mk _ _ items members => max (levelsItems items) (levelsMembers members) + 1

/-- The levels of items. -/
def levelsItems : List Json → ℕ
  | [] => 0
  | j :: items => max (levels j) (levelsItems items)

/-- The levels of members. -/
def levelsMembers : List (Bytes × Json) → ℕ
  | [] => 0
  | (_, j) :: members => max (levels j) (levelsMembers members)

end

/-- Well-formed UTF-8. -/
def IsUtf8 (s : Bytes) : Prop := ∃ cs, s = charsBytes cs

mutual

/-- The strings and the names of a value are well-formed UTF-8. -/
def Utf8Formed : Json → Prop
  | mk kind value items members =>
    (kind = .string → IsUtf8 value) ∧ Utf8FormedItems items ∧ Utf8FormedMembers members

/-- The strings of items are UTF-8. -/
def Utf8FormedItems : List Json → Prop
  | [] => True
  | j :: items => Utf8Formed j ∧ Utf8FormedItems items

/-- The strings of members are UTF-8. -/
def Utf8FormedMembers : List (Bytes × Json) → Prop
  | [] => True
  | (name, j) :: members => IsUtf8 name ∧ Utf8Formed j ∧ Utf8FormedMembers members

end

theorem hexDigit_grammar : ∀ n < 16, HexDigit (hexDigit n) n := by
  intro n hn
  exact hexValue_eq_some.mp (hexValue_hexDigit n hn)

theorem quoteByte_wide {b : Byte} (h : 128 ≤ b.val) : quoteByte b = [b] := by
  have hne : ∀ c : Byte, c.val < 128 → b ≠ c := by
    rintro c hc rfl
    omega
  unfold quoteByte
  rw [if_neg, if_neg]
  · rw [Fin.lt_def]
    exact not_lt.mpr (h.trans' (by decide))
  · rintro (hb | hb)
    · exact hne _ (by decide) hb
    · exact hne _ (by decide) hb

theorem utf8_high {point : ℕ} (hscalar : isScalar point) (hwide : 0x80 ≤ point) :
    ∀ b ∈ utf8 point, 128 ≤ b.val := by
  unfold isScalar at hscalar
  have hval : ∀ n : ℕ, 0x80 ≤ n → n < 256 → 128 ≤ (Fin.ofNat 256 n : Byte).val := by
    intro n hlow hhigh
    rw [ofNat_val hhigh]
    exact hlow
  unfold utf8
  rw [if_neg (by omega)]
  split
  · rw [List.forall_mem_cons, List.forall_mem_singleton]
    exact ⟨hval _ (by omega) (by omega), hval _ (by omega) (by omega)⟩
  · split
    · rw [List.forall_mem_cons, List.forall_mem_cons, List.forall_mem_singleton]
      exact ⟨hval _ (by omega) (by omega), hval _ (by omega) (by omega),
        hval _ (by omega) (by omega)⟩
    · rw [List.forall_mem_cons, List.forall_mem_cons, List.forall_mem_cons,
        List.forall_mem_singleton]
      exact ⟨hval _ (by omega) (by omega), hval _ (by omega) (by omega),
        hval _ (by omega) (by omega),
        hval _ (by omega) (by omega)⟩

/-- A quoted character is one of the grammar. -/
theorem charText_quoted (c : Char) : CharText c ((charBytes c).flatMap quoteByte) := by
  by_cases hwide : 0x80 ≤ c.toNat
  · have hhigh := utf8_high (isScalar_toNat c) hwide
    rw [utf8_toNat] at hhigh
    have hbytes : (charBytes c).flatMap quoteByte = charBytes c := by
      have hmap : ∀ bs : Bytes, (∀ b ∈ bs, 128 ≤ b.val) → bs.flatMap quoteByte = bs := by
        intro bs
        induction bs with
        | nil => exact fun _ => rfl
        | cons b bs ih =>
          intro hbs
          obtain ⟨hb, hbs⟩ := List.forall_mem_cons.mp hbs
          rw [List.flatMap_cons, quoteByte_wide hb, ih hbs]
          rfl
      exact hmap _ hhigh
    rw [hbytes]
    refine .unescaped (by omega) ?_ ?_
    · rintro rfl
      exact absurd hwide (by decide)
    · rintro rfl
      exact absurd hwide (by decide)
  · have hnarrow := charBytes_narrow (not_le.mp hwide)
    have hval : (Fin.ofNat 256 c.toNat : Byte).val = c.toNat := ofNat_val (by omega)
    by_cases hquote : c = '"'
    · subst hquote
      exact .short (e := ch '"') (by simp [shortEscapes])
    by_cases hback : c = '\\'
    · subst hback
      exact .short (e := ch '\\') (by simp [shortEscapes])
    have hne : ∀ d : Char, d.toNat < 256 → c ≠ d → (Fin.ofNat 256 c.toNat : Byte) ≠ ch d := by
      intro d hd hcd heq
      have hvals := congrArg Fin.val heq
      rw [hval, show (ch d).val = d.toNat from ofNat_val hd] at hvals
      exact hcd (Char.ext (UInt32.toNat_inj.mp hvals))
    have hplain : ¬((Fin.ofNat 256 c.toNat : Byte) = ch '"' ∨ (Fin.ofNat 256 c.toNat : Byte)
        = ch '\\') := by
      rintro (heq | heq)
      · exact hne '"' (by decide) hquote heq
      · exact hne '\\' (by decide) hback heq
    rw [hnarrow, List.flatMap_cons, List.flatMap_nil, List.append_nil, quoteByte, if_neg hplain]
    by_cases hcontrol : c.toNat < 32
    · have hlt : (Fin.ofNat 256 c.toNat : Byte) < 32 := by
        rw [Fin.lt_def, hval]
        exact hcontrol
      rw [if_pos hlt, hval]
      apply CharText.unicode
      have hzero : HexDigit (ch '0') 0 := hexDigit_grammar 0 (by decide)
      have hdigits := Hex4.mk hzero hzero (hexDigit_grammar (c.toNat / 16) (by omega))
        (hexDigit_grammar (c.toNat % 16) (by omega))
      have hvalue : ((0 * 16 + 0) * 16 + c.toNat / 16) * 16 + c.toNat % 16 = c.toNat := by omega
      rw [hvalue] at hdigits
      exact hdigits
    · have hlt : ¬(Fin.ofNat 256 c.toNat : Byte) < 32 := by
        rw [Fin.lt_def, hval]
        exact hcontrol
      rw [if_neg hlt, ← hnarrow]
      exact .unescaped (not_lt.mp hcontrol) hquote hback

theorem stringText_quote (cs : List Char) : StringText cs (quote (charsBytes cs)) := by
  have hchars : CharsText cs ((charsBytes cs).flatMap quoteByte) := by
    induction cs with
    | nil => exact .nil
    | cons c cs ih =>
      rw [charsBytes, List.flatMap_cons, List.flatMap_append]
      exact .cons (charText_quoted c) ih
  exact .mk hchars

/-- A printed value in the grammar. -/
def Printed (j : Json) (t : Tree) : Prop :=
  ValueText t (dump j) ∧ t.value = j ∧ t.Distinct ∧ t.depth = j.levels

theorem exists_items {items : List Json} (h : ∀ j ∈ items, ∃ t, Printed j t) :
    ∃ is : List Item, is.map Item.bytes = items.map dump ∧ is.map (·.tree.value) = items ∧
      (∀ i ∈ is, i.Spaced) ∧ (∀ i ∈ is, ValueText i.tree i.text) ∧ (∀ i ∈ is, i.tree.Distinct) ∧
      Tree.depthItems (is.map Item.tree) = levelsItems items := by
  induction items with
  | nil => exact ⟨[], rfl, rfl, by simp, by simp, by simp, by simp [Tree.depthItems, levelsItems]⟩
  | cons j items ih =>
    obtain ⟨⟨t, htext, hvalue, hdistinct, hdepth⟩, hitems⟩ := List.forall_mem_cons.mp h
    obtain ⟨is, hbytes, hvalues, hspaced, htexts, hdistincts, hdepths⟩ := ih hitems
    refine ⟨⟨[], dump j, [], t⟩ :: is, ?_, ?_, ?_, ?_, ?_, ?_⟩
    · rw [List.map_cons, List.map_cons, hbytes]
      simp [Item.bytes]
    · rw [List.map_cons, hvalues, hvalue]
    · exact List.forall_mem_cons.mpr ⟨⟨rfl, rfl⟩, hspaced⟩
    · exact List.forall_mem_cons.mpr ⟨htext, htexts⟩
    · exact List.forall_mem_cons.mpr ⟨hdistinct, hdistincts⟩
    · rw [List.map_cons, Tree.depthItems, levelsItems, hdepths, hdepth]

theorem exists_members {members : List (Bytes × Json)}
    (h : ∀ e ∈ members, IsUtf8 e.1 ∧ ∃ t, Printed e.2 t) :
    ∃ ms : List Member, ms.map Member.bytes = members.map dumpMember ∧
      ms.map Member.field = members ∧
      (∀ m ∈ ms, m.Spaced) ∧ (∀ m ∈ ms, StringText m.chars m.name) ∧
        (∀ m ∈ ms, ValueText m.item.tree m.item.text) ∧
      (∀ m ∈ ms, m.item.tree.Distinct) ∧
      Tree.depthMembers (ms.map fun m => (m.chars, m.item.tree)) = levelsMembers members := by
  induction members with
  | nil => exact ⟨[], rfl, rfl, by simp, by simp, by simp, by simp,
    by simp [Tree.depthMembers, levelsMembers]⟩
  | cons e members ih =>
    obtain ⟨⟨⟨cs, hcs⟩, t, htext, hvalue, hdistinct, hdepth⟩, hmembers⟩ := List.forall_mem_cons.mp h
    obtain ⟨ms, hbytes, hfields, hspaced, hnames, htexts, hdistincts, hdepths⟩ := ih hmembers
    obtain ⟨name, j⟩ := e
    dsimp only at hcs htext hvalue hdepth
    refine ⟨⟨[], quote name, [], cs, ⟨[], dump j, [], t⟩⟩ :: ms, ?_, ?_, ?_, ?_, ?_, ?_, ?_⟩
    · rw [List.map_cons, List.map_cons, hbytes]
      simp [Member.bytes, Item.bytes, dumpMember]
    · rw [List.map_cons, hfields, Member.field]
      dsimp only
      rw [hvalue, hcs]
    · exact List.forall_mem_cons.mpr ⟨⟨rfl, rfl, rfl, rfl⟩, hspaced⟩
    · rw [hcs]
      exact List.forall_mem_cons.mpr ⟨stringText_quote cs, hnames⟩
    · exact List.forall_mem_cons.mpr ⟨htext, htexts⟩
    · exact List.forall_mem_cons.mpr ⟨hdistinct, hdistincts⟩
    · rw [List.map_cons, Tree.depthMembers, levelsMembers, hdepths, hdepth]

theorem utf8FormedItems_iff {items : List Json} :
    Utf8FormedItems items ↔ ∀ j ∈ items, Utf8Formed j := by
  induction items with
  | nil => simp [Utf8FormedItems]
  | cons j items ih => simp [Utf8FormedItems, ih]

theorem utf8FormedMembers_iff {members : List (Bytes × Json)} :
    Utf8FormedMembers members ↔ ∀ e ∈ members, IsUtf8 e.1 ∧ Utf8Formed e.2 := by
  induction members with
  | nil => simp [Utf8FormedMembers]
  | cons e members ih =>
    obtain ⟨name, j⟩ := e
    simp [Utf8FormedMembers, ih, and_assoc]

/-- Every value with nothing hidden and well-formed strings prints as a value of the grammar. -/
theorem exists_printed (j : Json) : WellFormed j → Utf8Formed j → ∃ t, Printed j t := by
  induction j using Json.induct with
  | h kind value items members hitems hmembers =>
    intro hformed hutf8
    obtain ⟨hnode, hitemsFormed, hmembersFormed⟩ := wellFormed_mk.mp hformed
    rw [Utf8Formed, utf8FormedItems_iff, utf8FormedMembers_iff] at hutf8
    obtain ⟨hstring, hitemsUtf8, hmembersUtf8⟩ := hutf8
    cases kind with
    | null =>
      obtain ⟨rfl, rfl, rfl⟩ := hnode
      refine ⟨.null, ?_, by rw [Tree.value]; rfl, by simp [Tree.Distinct], ?_⟩
      · rw [dump]
        exact .null
      · simp [Tree.depth, levels, levelsItems, levelsMembers]
    | bool =>
      obtain ⟨hvalue, rfl, rfl⟩ := hnode
      rcases hvalue with rfl | rfl
      · refine ⟨.bool true, ?_, by rw [Tree.value]; rfl, by simp [Tree.Distinct], ?_⟩
        · rw [dump]
          exact .yes
        · simp [Tree.depth, levels, levelsItems, levelsMembers]
      · refine ⟨.bool false, ?_, by rw [Tree.value]; rfl, by simp [Tree.Distinct], ?_⟩
        · rw [dump]
          exact .no
        · simp [Tree.depth, levels, levelsItems, levelsMembers]
    | number =>
      obtain ⟨hnumber, rfl, rfl⟩ := hnode
      refine ⟨.number value, ?_, by rw [Tree.value]; rfl, by simp [Tree.Distinct], ?_⟩
      · rw [dump]
        exact .number hnumber.numberText
      · simp [Tree.depth, levels, levelsItems, levelsMembers]
    | string =>
      obtain ⟨rfl, rfl⟩ := hnode
      obtain ⟨cs, rfl⟩ := hstring rfl
      refine ⟨.string cs, ?_, by rw [Tree.value]; rfl, by simp [Tree.Distinct], ?_⟩
      · rw [dump]
        exact .string (stringText_quote cs)
      · simp [Tree.depth, levels, levelsItems, levelsMembers]
    | array =>
      obtain ⟨rfl, rfl⟩ := hnode
      obtain ⟨is, hbytes, hvalues, hspaced, htexts, hdistincts, hdepths⟩ :=
        exists_items fun j hj => hitems j hj (hitemsFormed j hj) (hitemsUtf8 j hj)
      refine ⟨.array (is.map Item.tree), ?_, ?_, ?_, ?_⟩
      · rw [dump, dumpItems_eq, ← hbytes]
        cases is with
        | nil => exact .emptyArray rfl
        | cons i is => exact .array (by simp) hspaced htexts
      · rw [Tree.value, Tree.valueItems_eq, List.map_map]
        exact congrArg array hvalues
      · rw [Tree.Distinct, Tree.distinctItems_iff, List.forall_mem_map]
        exact hdistincts
      · rw [Tree.depth, hdepths, levels, levelsMembers, Nat.max_zero]
    | object =>
      obtain ⟨rfl, rfl, hsorted⟩ := hnode
      obtain ⟨ms, hbytes, hfields, hspaced, hnames, htexts, hdistincts, hdepths⟩ :=
        exists_members fun e he =>
        ⟨(hmembersUtf8 e he).1, hmembers e he (hmembersFormed e he) (hmembersUtf8 e he).2⟩
      refine ⟨.object (ms.map fun m => (m.chars, m.item.tree)), ?_, ?_, ?_, ?_⟩
      · rw [dump, dumpMembers_eq, ← hbytes]
        cases ms with
        | nil => exact .emptyObject rfl
        | cons m ms => exact .object (by simp) hspaced hnames htexts
      · have hvalues : (ms.map fun m => (m.chars, m.item.tree)).map
            (fun m => (charsBytes m.1, m.2.value)) = members := by
          rw [List.map_map]
          exact hfields
        rw [Tree.value, Tree.valueMembers_eq, hvalues, Assoc.ofFields_eq hsorted]
        rfl
      · rw [Tree.Distinct, Tree.distinctMembers_iff, List.forall_mem_map, List.map_map]
        refine ⟨?_, hdistincts⟩
        -- sorted names differ, and names that differ have different characters
        have hnodup := hsorted.nodup
        rw [← hfields, List.map_map] at hnodup
        have hcomp : (Prod.fst ∘ Member.field) = charsBytes ∘ Member.chars := rfl
        rw [hcomp, ← List.map_map] at hnodup
        exact hnodup.of_map _
      · rw [Tree.depth, hdepths, levels, levelsItems, Nat.zero_max]

theorem parseJson_dump_eq {j : Json} (hformed : WellFormed j) (hutf8 : Utf8Formed j)
    (hlevels : j.levels ≤ maxDepth)
    (hsize : (dump j).length ≤ maxFrame) : parseJson (dump j) = .ok j := by
  obtain ⟨t, htext, hvalue, hdistinct, hdepth⟩ := exists_printed j hformed hutf8
  refine parseJson_iff.mpr ⟨hsize, t, ?_, by rw [hdepth]; exact hlevels, hdistinct, hvalue⟩
  have hnil : Space [] := rfl
  have hjson := JsonText.mk hnil htext hnil
  rwa [List.nil_append, List.append_nil] at hjson

/-- The reader is exact and what is printed is canonical. -/
theorem json_canonical :
    (∀ s j, parseJson s = .ok j ↔
      s.length ≤ 1024 * 1024 ∧ ∃ t, JsonText t s ∧ t.depth ≤ 32 ∧ t.Distinct ∧ t.value = j) ∧
    (∀ j, WellFormed j → Utf8Formed j → j.levels ≤ 32 → (dump j).length ≤ 1024 * 1024 →
      parseJson (dump j) = .ok j) ∧
    (∀ a b ja jb, parseJson a = .ok ja → parseJson b = .ok jb → ∀ ta tb, JsonText ta a →
      JsonText tb b →
      ta.Distinct → tb.Distinct → (dump ja = dump jb ↔ ta.denotation = tb.denotation)) := by
  refine ⟨fun s j => parseJson_iff, fun j => parseJson_dump_eq, ?_⟩
  intro a b ja jb ha hb ta tb hta htb hda hdb
  rw [← Tree.value_eq_iff ta tb hda hdb, value_unique ha hta hda, value_unique hb htb hdb]
  exact ⟨dump_injective (parseJson_formed ha) (parseJson_formed hb), congrArg dump⟩

/-- An object with one member. -/
def oneMember : Json := object [(ascii "a", number (ascii "-1.5e3"))]

theorem json_canonical_oneMember :
    WellFormed oneMember ∧ Utf8Formed oneMember ∧ parseJson (dump oneMember) = .ok oneMember := by
  have hformed : WellFormed oneMember := by
    refine wellFormed_mk.mpr ⟨⟨rfl, rfl, by simp [Assoc.Sorted]⟩, by simp, ?_⟩
    rw [List.forall_mem_singleton]
    exact wellFormed_mk.mpr ⟨⟨by decide, rfl, rfl⟩, by simp, by simp⟩
  have hutf8 : Utf8Formed oneMember := by
    simp only [oneMember, object, number, Utf8Formed, Utf8FormedItems, Utf8FormedMembers,
      reduceCtorEq,
      false_implies, true_and, and_true]
    exact ⟨['a'], rfl⟩
  have hlevels : oneMember.levels ≤ 32 := by
    simp [oneMember, object, number, levels, levelsItems, levelsMembers]
  exact ⟨hformed, hutf8, json_canonical.2.1 oneMember hformed hutf8 hlevels (by decide +kernel)⟩

end Json

end PineForge.Runner
