import Mathlib.Logic.Function.Basic
import PineForge.Runner.ReportDelta

/-!
# Documents of fields

A document that is printed is an object of fields, and it is known by them: objects of the same
names are the same object only if their fields are.
-/

namespace PineForge.Runner

open Json

/-- The members of an object. -/
abbrev Fields := List (Bytes × Json)

/-- The names of members. -/
def Fields.names (fields : Fields) : List Bytes := fields.map Prod.fst

/-- A JSON object of fields. -/
def objectOf (fields : Fields) : Json := object (Assoc.ofFields fields)

@[simp] theorem objectOf_kind (fields : Fields) : (objectOf fields).kind = .object := rfl

@[simp] theorem objectOf_members (fields : Fields) :
    (objectOf fields).members = Assoc.ofFields fields := rfl

theorem find_objectOf {fields : Fields} (h : fields.names.Nodup) (k : Bytes) :
    Assoc.find k (objectOf fields).members = Assoc.find k fields :=
  Assoc.find_ofFields h k

theorem fields_of_objectOf {a b : Fields} (hnames : a.names = b.names) (hnodup : a.names.Nodup)
    (h : objectOf a = objectOf b) : a = b := by
  have hfind : ∀ k, Assoc.find k a = Assoc.find k b := by
    intro k
    rw [← find_objectOf hnodup, h, find_objectOf (hnames ▸ hnodup)]
  clear h
  induction a generalizing b with
  | nil => exact (List.map_eq_nil_iff.mp hnames.symm).symm
  | cons e a ih =>
    cases b with
    | nil => cases hnames
    | cons e' b =>
      obtain ⟨key, value⟩ := e
      obtain ⟨key', value'⟩ := e'
      obtain ⟨hkey, hrest⟩ := List.cons.inj hnames
      simp only at hkey
      subst hkey
      have hvalue := hfind key
      rw [Assoc.find_cons, Assoc.find_cons, if_pos rfl, if_pos rfl] at hvalue
      obtain ⟨hfresh, hnodup⟩ := List.nodup_cons.mp hnodup
      rw [Option.some.inj hvalue, ih hrest hnodup]
      intro k
      by_cases hk : k = key
      · subst hk
        rw [Assoc.find_eq_none_iff.mpr hfresh, Assoc.find_eq_none_iff.mpr]
        exact hrest ▸ hfresh
      · have htail := hfind k
        rwa [Assoc.find_cons, Assoc.find_cons, if_neg hk, if_neg hk] at htail

theorem wellFormed_objectOf {fields : Fields} (hnames : fields.names.Nodup)
    (h : ∀ e ∈ fields, WellFormed e.2) : WellFormed (objectOf fields) := by
  refine wellFormed_mk.mpr ⟨⟨rfl, rfl, Assoc.sorted_ofFields fields⟩, by simp, ?_⟩
  intro e he
  have hfind := Assoc.find_of_mem (Assoc.sorted_ofFields fields).nodup he
  rw [Assoc.find_ofFields hnames] at hfind
  exact h _ (Assoc.mem_of_find hfind)

/-! ## Well-formed values -/

theorem wellFormed_string (v : Bytes) : WellFormed (string v) :=
  wellFormed_mk.mpr ⟨⟨rfl, rfl⟩, by simp, by simp⟩

theorem wellFormed_number {v : Bytes} (h : isNumber v) : WellFormed (number v) :=
  wellFormed_mk.mpr ⟨⟨h, rfl, rfl⟩, by simp, by simp⟩

theorem wellFormed_array {items : List Json} (h : ∀ j ∈ items, WellFormed j) :
    WellFormed (array items) :=
  wellFormed_mk.mpr ⟨⟨rfl, rfl⟩, h, by simp⟩

theorem wellFormed_null : WellFormed null := wellFormed_mk.mpr ⟨⟨rfl, rfl, rfl⟩, by simp, by simp⟩

end PineForge.Runner
