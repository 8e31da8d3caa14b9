import Mathlib

/-!
# Ordered maps

An ordered map is the list of its entries, by strictly increasing keys. Two such lists that answer
every lookup alike are equal, so a map is known by its lookups.
-/

namespace PineForge.Assoc

variable {κ β γ : Type} [LinearOrder κ]

/-- The value of a key. -/
def find (k : κ) : List (κ × β) → Option β
  | [] => none
  | (k', v) :: m => if k = k' then some v else find k m

/-- The entry of a key, new or replaced. -/
def put (k : κ) (v : β) : List (κ × β) → List (κ × β)
  | [] => [(k, v)]
  | (k', v') :: m =>
    if k < k' then (k, v) :: (k', v') :: m
    else if k = k' then (k, v) :: m
    else (k', v') :: put k v m

/-- The entries without a key. -/
def erase (k : κ) (m : List (κ × β)) : List (κ × β) := m.filter fun e => e.1 ≠ k

/-- Entries in the order of keys. -/
def Sorted (m : List (κ × β)) : Prop := m.Pairwise fun a b => a.1 < b.1

/-- The same keys with other values. -/
def mapValues (f : β → γ) (m : List (κ × β)) : List (κ × γ) := m.map fun e => (e.1, f e.2)

/-- A map from its fields. -/
def ofFields (fields : List (κ × β)) : List (κ × β) := fields.foldl (fun m f => put f.1 f.2 m) []

/-! ## Lookups -/

@[simp] theorem find_nil (k : κ) : find k ([] : List (κ × β)) = none := rfl

theorem find_cons (k k' : κ) (v : β) (m : List (κ × β)) :
    find k ((k', v) :: m) = if k = k' then some v else find k m := rfl

theorem find_put (k k' : κ) (v : β) (m : List (κ × β)) :
    find k' (put k v m) = if k' = k then some v else find k' m := by
  induction m with
  | nil => simp [put, find_cons]
  | cons e m ih =>
    obtain ⟨key, value⟩ := e
    unfold put
    split
    · rw [find_cons]
    · rename_i hlt
      split
      · rename_i heq
        subst heq
        simp only [find_cons]
        split <;> rfl
      · rename_i hne
        simp only [find_cons, ih]
        by_cases hk : k' = key
        · rw [if_pos hk, if_neg (fun h => hne (h.symm.trans hk)), if_pos hk]
        · rw [if_neg hk, if_neg hk]

@[simp] theorem find_put_self (k : κ) (v : β) (m : List (κ × β)) : find k (put k v m) = some v := by
  rw [find_put, if_pos rfl]

theorem find_put_ne {k k' : κ} (h : k' ≠ k) (v : β) (m : List (κ × β)) :
    find k' (put k v m) = find k' m := by
  rw [find_put, if_neg h]

theorem find_erase (k k' : κ) (m : List (κ × β)) :
    find k' (erase k m) = if k' = k then none else find k' m := by
  induction m with
  | nil => simp [erase]
  | cons e m ih =>
    obtain ⟨key, value⟩ := e
    unfold erase at ih ⊢
    by_cases hkey : key = k
    · rw [List.filter_cons_of_neg (by simp [hkey]), ih, find_cons, hkey]
      split <;> rfl
    · rw [List.filter_cons_of_pos (by simp [hkey]), find_cons, find_cons, ih]
      by_cases hk : k' = key
      · rw [if_pos hk, if_pos hk, if_neg (fun h => hkey (hk.symm.trans h))]
      · rw [if_neg hk, if_neg hk]

theorem find_eq_none {k : κ} {m : List (κ × β)} (h : ∀ e ∈ m, e.1 ≠ k) : find k m = none := by
  induction m with
  | nil => rfl
  | cons e m ih =>
    obtain ⟨key, value⟩ := e
    rw [find_cons, if_neg (fun hk => h (key, value) (by simp) hk.symm)]
    exact ih fun e he => h e (List.mem_cons_of_mem _ he)

theorem mem_of_find {k : κ} {v : β} {m : List (κ × β)} (h : find k m = some v) : (k, v) ∈ m := by
  induction m with
  | nil => simp at h
  | cons e m ih =>
    obtain ⟨key, value⟩ := e
    rw [find_cons] at h
    split at h
    · rename_i hk
      rw [hk, Option.some.inj h]
      exact List.mem_cons_self
    · exact List.mem_cons_of_mem _ (ih h)

theorem find_isSome_of_mem {e : κ × β} {m : List (κ × β)} (h : e ∈ m) : (find e.1 m).isSome := by
  induction m with
  | nil => simp at h
  | cons e' m ih =>
    obtain ⟨key, value⟩ := e'
    rw [find_cons]
    split
    · rfl
    · rename_i hne
      rcases List.mem_cons.mp h with h | h
      · exact absurd (congrArg Prod.fst h) hne
      · exact ih h

theorem find_append (k : κ) (m n : List (κ × β)) :
    find k (m ++ n) = (find k m).or (find k n) := by
  induction m with
  | nil => rfl
  | cons e m ih =>
    obtain ⟨key, value⟩ := e
    rw [List.cons_append, find_cons, find_cons]
    split
    · rfl
    · exact ih

theorem find_eq_none_iff {k : κ} {m : List (κ × β)} : find k m = none ↔ k ∉ m.map Prod.fst := by
  constructor
  · intro h hk
    obtain ⟨e, he, rfl⟩ := List.mem_map.mp hk
    have hsome := find_isSome_of_mem he
    rw [h] at hsome
    exact absurd hsome (by simp)
  · intro h
    exact find_eq_none fun e he heq => h (heq ▸ List.mem_map_of_mem he)

theorem find_of_mem {m : List (κ × β)} (h : (m.map Prod.fst).Nodup) {e : κ × β} (he : e ∈ m) :
    find e.1 m = some e.2 := by
  induction m with
  | nil => simp at he
  | cons e' m ih =>
    obtain ⟨key, value⟩ := e'
    simp only [List.map_cons, List.nodup_cons] at h
    rcases List.mem_cons.mp he with he | he
    · subst he
      rw [find_cons, if_pos rfl]
    · have hne : e.1 ≠ key := fun heq => h.1 (heq ▸ List.mem_map_of_mem he)
      rw [find_cons, if_neg hne]
      exact ih h.2 he

/-! ## Sorted entries -/

theorem Sorted.tail {e : κ × β} {m : List (κ × β)} (h : Sorted (e :: m)) : Sorted m :=
  (List.pairwise_cons.mp h).2

theorem Sorted.nodup {m : List (κ × β)} (h : Sorted m) : (m.map Prod.fst).Nodup :=
  List.pairwise_map.mpr (h.imp fun h => ne_of_lt h)

theorem mem_put {k : κ} {v : β} {m : List (κ × β)} {e : κ × β} (h : e ∈ put k v m) :
    e = (k, v) ∨ e ∈ m := by
  induction m with
  | nil => exact Or.inl (List.mem_singleton.mp h)
  | cons e' m ih =>
    obtain ⟨key, value⟩ := e'
    unfold put at h
    split at h
    · exact List.mem_cons.mp h
    · split at h
      · rcases List.mem_cons.mp h with h | h
        · exact Or.inl h
        · exact Or.inr (List.mem_cons_of_mem _ h)
      · rcases List.mem_cons.mp h with h | h
        · exact Or.inr (h ▸ List.mem_cons_self)
        · rcases ih h with h | h
          · exact Or.inl h
          · exact Or.inr (List.mem_cons_of_mem _ h)

theorem Sorted.put {m : List (κ × β)} (h : Sorted m) (k : κ) (v : β) :
    Sorted (Assoc.put k v m) := by
  induction m with
  | nil => exact List.pairwise_singleton _ _
  | cons e m ih =>
    obtain ⟨key, value⟩ := e
    have hlt := (List.pairwise_cons.mp h).1
    unfold Assoc.put
    split
    · rename_i hk
      refine List.pairwise_cons.mpr ⟨fun e he => ?_, h⟩
      rcases List.mem_cons.mp he with he | he
      · rw [he]
        exact hk
      · exact hk.trans (hlt e he)
    · split
      · rename_i hk
        refine List.pairwise_cons.mpr ⟨fun e he => ?_, h.tail⟩
        rw [hk]
        exact hlt e he
      · rename_i hnlt hne
        refine List.pairwise_cons.mpr ⟨fun e he => ?_, ih h.tail⟩
        rcases mem_put he with he | he
        · rw [he]
          exact lt_of_le_of_ne (not_lt.mp hnlt) (fun heq => hne heq.symm)
        · exact hlt e he

theorem Sorted.erase {m : List (κ × β)} (h : Sorted m) (k : κ) : Sorted (Assoc.erase k m) :=
  h.filter _

/-- Sorted entries are known by what they find. -/
theorem Sorted.ext {m m' : List (κ × β)} (h : Sorted m) (h' : Sorted m')
    (hfind : ∀ k, find k m = find k m') : m = m' := by
  induction m generalizing m' with
  | nil =>
    cases m' with
    | nil => rfl
    | cons e m' =>
      have hnone := hfind e.1
      rw [find_cons, if_pos rfl] at hnone
      exact absurd hnone (by simp)
  | cons e m ih =>
    obtain ⟨key, value⟩ := e
    cases m' with
    | nil =>
      have hnone := hfind key
      rw [find_cons, if_pos rfl] at hnone
      exact absurd hnone (by simp)
    | cons e' m' =>
      obtain ⟨key', value'⟩ := e'
      have hlt := (List.pairwise_cons.mp h).1
      have hlt' := (List.pairwise_cons.mp h').1
      -- the least key of one map is found in the other, so the least keys agree
      have hkey : key = key' := by
        have hmem := hfind key
        have hmem' := hfind key'
        rw [find_cons, if_pos rfl] at hmem
        rw [find_cons, find_cons, if_pos rfl] at hmem'
        by_contra hne
        rw [find_cons, if_neg hne] at hmem
        rw [if_neg (Ne.symm hne)] at hmem'
        exact absurd ((hlt' _ (mem_of_find hmem.symm)).trans (hlt _ (mem_of_find hmem')))
          (lt_irrefl _)
      subst hkey
      have hvalue : value = value' := by
        have hhead := hfind key
        rw [find_cons, find_cons, if_pos rfl, if_pos rfl] at hhead
        exact Option.some.inj hhead
      subst hvalue
      rw [ih h.tail h'.tail fun k => ?_]
      have hk := hfind k
      rw [find_cons, find_cons] at hk
      by_cases hkey : k = key
      · have hnone : ∀ (n : List (κ × β)), (∀ e ∈ n, key < e.1) → find k n = none :=
          fun n hn => find_eq_none fun e he heq => absurd (hn e he) (by rw [heq, hkey]; simp)
        rw [hnone m hlt, hnone m' hlt']
      · rwa [if_neg hkey, if_neg hkey] at hk

/-! ## Fields -/

theorem sorted_fold_put (fields : List (κ × β)) {m : List (κ × β)} (h : Sorted m) :
    Sorted (fields.foldl (fun m f => put f.1 f.2 m) m) := by
  induction fields generalizing m with
  | nil => exact h
  | cons f fields ih => exact ih (h.put f.1 f.2)

theorem sorted_ofFields (fields : List (κ × β)) : Sorted (ofFields fields) :=
  sorted_fold_put fields List.Pairwise.nil

theorem find_fold_put (fields : List (κ × β)) (hnodup : (fields.map Prod.fst).Nodup)
    (m : List (κ × β)) (k : κ) :
    find k (fields.foldl (fun m f => put f.1 f.2 m) m) = (find k fields).or (find k m) := by
  induction fields generalizing m with
  | nil => rfl
  | cons f fields ih =>
    obtain ⟨key, value⟩ := f
    simp only [List.map_cons, List.nodup_cons] at hnodup
    rw [List.foldl_cons, ih hnodup.2, find_put, find_cons]
    by_cases hk : k = key
    · have hnone : find k fields = none := by
        refine find_eq_none fun e he heq => hnodup.1 ?_
        rw [← hk, ← heq]
        exact List.mem_map_of_mem he
      rw [if_pos hk, if_pos hk, hnone]
      rfl
    · rw [if_neg hk, if_neg hk]

theorem find_ofFields {fields : List (κ × β)} (hnodup : (fields.map Prod.fst).Nodup) (k : κ) :
    find k (ofFields fields) = find k fields := by
  unfold ofFields
  rw [find_fold_put fields hnodup, find_nil, Option.or_none]

theorem ofFields_eq {fields : List (κ × β)} (h : Sorted fields) : ofFields fields = fields :=
  (sorted_ofFields fields).ext h (find_ofFields h.nodup)

/-! ## Other values -/

theorem put_last {k : κ} {v : β} {m : List (κ × β)} (h : ∀ e ∈ m, e.1 < k) :
    put k v m = m ++ [(k, v)] := by
  induction m with
  | nil => rfl
  | cons e m ih =>
    have hlt := h e List.mem_cons_self
    rw [put, if_neg (not_lt.mpr hlt.le), if_neg hlt.ne',
      ih fun e he => h e (List.mem_cons_of_mem _ he), List.cons_append]

theorem find_mapValues (f : β → γ) (m : List (κ × β)) (k : κ) :
    find k (mapValues f m) = (find k m).map f := by
  induction m with
  | nil => rfl
  | cons e m ih =>
    obtain ⟨key, value⟩ := e
    simp only [mapValues, List.map_cons, find_cons]
    split
    · rfl
    · exact ih

theorem put_mapValues (f : β → γ) (m : List (κ × β)) (k : κ) (v : β) :
    mapValues f (put k v m) = put k (f v) (mapValues f m) := by
  induction m with
  | nil => rfl
  | cons e m ih =>
    obtain ⟨key, value⟩ := e
    simp only [mapValues, List.map_cons, put] at ih ⊢
    split
    · rfl
    · split
      · rfl
      · rw [List.map_cons, ih]

theorem sorted_mapValues (f : β → γ) (m : List (κ × β)) : Sorted (mapValues f m) ↔ Sorted m := by
  unfold Sorted mapValues
  rw [List.pairwise_map]

end PineForge.Assoc
