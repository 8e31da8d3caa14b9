import PineForge.Runner.ParseDump
import PineForge.Runner.ReportDelta

/-!
# Stale parts

A value whose kind was set keeps the text, items and members it had before. A stale text is never
read again; stale items and members come back when the kind does. `bare` is a value without its
stale texts: two values with the same bare value print alike, and take every delta alike. A value is
tidy when nothing else in it is stale.
-/

namespace PineForge.Runner

open Json

namespace Json

/-- The text of a kind that prints it. -/
def shownValue : Kind → Bytes → Bytes
  | .bool, value => value
  | .number, value => value
  | .string, value => value
  | _, _ => []

mutual

/-- A value with the fields its text shows. -/
def bare : Json → Json
  | mk kind value items members =>
    mk kind (shownValue kind value) (bareItems items) (bareMembers members)

/-- Such items. -/
def bareItems : List Json → List Json
  | [] => []
  | j :: items => bare j :: bareItems items

/-- Such members. -/
def bareMembers : List (Bytes × Json) → List (Bytes × Json)
  | [] => []
  | (name, j) :: members => (name, bare j) :: bareMembers members

end

theorem bareItems_eq (items : List Json) : bareItems items = items.map bare := by
  induction items with
  | nil => rfl
  | cons j items ih => rw [bareItems, ih, List.map_cons]

theorem bareMembers_eq (members : List (Bytes × Json)) :
    bareMembers members = Assoc.mapValues bare members := by
  induction members with
  | nil => rfl
  | cons e members ih =>
    obtain ⟨name, j⟩ := e
    rw [bareMembers, ih]
    rfl

theorem bare_mk (kind : Kind) (value : Bytes) (items : List Json) (members : List (Bytes × Json)) :
    bare (mk kind value items members)
      = mk kind (shownValue kind value) (items.map bare) (Assoc.mapValues bare members) := by
  rw [bare, bareItems_eq, bareMembers_eq]

@[simp] theorem bare_kind (j : Json) : (bare j).kind = j.kind := by
  obtain ⟨kind, value, items, members⟩ := j
  rw [bare_mk]
  rfl

@[simp] theorem bare_value (j : Json) : (bare j).value = shownValue j.kind j.value := by
  obtain ⟨kind, value, items, members⟩ := j
  rw [bare_mk]
  rfl

@[simp] theorem bare_items (j : Json) : (bare j).items = j.items.map bare := by
  obtain ⟨kind, value, items, members⟩ := j
  rw [bare_mk]
  rfl

@[simp] theorem bare_members (j : Json) : (bare j).members = Assoc.mapValues bare j.members := by
  obtain ⟨kind, value, items, members⟩ := j
  rw [bare_mk]
  rfl

theorem shownValue_idem (kind : Kind) (value : Bytes) :
    shownValue kind (shownValue kind value) = shownValue kind value := by
  cases kind <;> rfl

theorem bare_bare (j : Json) : bare (bare j) = bare j := by
  induction j using Json.induct with
  | h kind value items members hitems hmembers =>
    rw [bare_mk, bare_mk, shownValue_idem]
    congr 1
    · rw [List.map_map]
      exact List.map_congr_left hitems
    · simp only [Assoc.mapValues, List.map_map]
      refine List.map_congr_left fun e he => ?_
      simp only [Function.comp, hmembers e he]

theorem dump_bare (j : Json) : dump (bare j) = dump j := by
  induction j using Json.induct with
  | h kind value items members hitems hmembers =>
    rw [bare_mk]
    cases kind with
    | null => rw [dump, dump]
    | bool => rw [dump, dump, shownValue]
    | number => rw [dump, dump, shownValue]
    | string => rw [dump, dump, shownValue]
    | array =>
      have hmap : items.map (dump ∘ bare) = items.map dump := List.map_congr_left hitems
      rw [dump, dump, dumpItems_eq, dumpItems_eq, List.map_map, hmap]
    | object =>
      have hmap : (Assoc.mapValues bare members).map dumpMember = members.map dumpMember := by
        unfold Assoc.mapValues
        rw [List.map_map]
        refine List.map_congr_left fun e he => ?_
        simp only [Function.comp, dumpMember, hmembers e he]
      rw [dump, dump, dumpMembers_eq, dumpMembers_eq, hmap]

theorem bare_formed (j : Json) (h : WellFormed j) : bare j = j := by
  induction j using Json.induct with
  | h kind value items members hitems hmembers =>
    obtain ⟨hnode, hformed, hformed'⟩ := wellFormed_mk.mp h
    have hvalue : shownValue kind value = value := by
      cases kind with
      | null => exact hnode.1.symm
      | array => exact hnode.1.symm
      | object => exact hnode.1.symm
      | _ => rfl
    rw [bare_mk, hvalue]
    congr 1
    · exact (List.map_congr_left fun i hi => hitems i hi (hformed i hi)).trans (List.map_id _)
    · refine (List.map_congr_left fun e he => ?_).trans (List.map_id _)
      rw [hmembers e he (hformed' e he)]
      rfl

/-! ## Alike values -/

/-- Values that differ in stale texts alone. -/
def Alike (a b : Json) : Prop := bare a = bare b

section

variable {a b : Json}

theorem Alike.kind (h : Alike a b) : a.kind = b.kind := by
  rw [← bare_kind a, h, bare_kind]

theorem Alike.items (h : Alike a b) : a.items.map bare = b.items.map bare := by
  rw [← bare_items, h, bare_items]

theorem Alike.members (h : Alike a b) :
    Assoc.mapValues bare a.members = Assoc.mapValues bare b.members := by
  rw [← bare_members, h, bare_members]

theorem Alike.find (h : Alike a b) (k : Bytes) :
    (Assoc.find k a.members).map bare = (Assoc.find k b.members).map bare := by
  rw [← Assoc.find_mapValues, h.members, Assoc.find_mapValues]

theorem Alike.getD (h : Alike a b) (k : Bytes) :
    Alike ((Assoc.find k a.members).getD null) ((Assoc.find k b.members).getD null) := by
  have hfind := h.find k
  cases ha : Assoc.find k a.members with
  | none =>
    cases hb : Assoc.find k b.members with
    | none => rfl
    | some v =>
      rw [ha, hb] at hfind
      cases hfind
  | some v =>
    cases hb : Assoc.find k b.members with
    | none =>
      rw [ha, hb] at hfind
      cases hfind
    | some w =>
      rw [ha, hb] at hfind
      exact Option.some.inj hfind

theorem Alike.dump (h : Alike a b) : a.dump = b.dump := by
  rw [← dump_bare a, h, dump_bare]

theorem Alike.text (h : Alike a b) : a.text = b.text := by
  unfold Json.text
  rw [h.kind]
  split
  · rename_i hkind
    have hvalue := congrArg Json.value h
    rw [bare_value, bare_value, h.kind, hkind] at hvalue
    rw [show a.value = b.value from hvalue]
  · rfl

theorem Alike.integer (h : Alike a b) : a.integer = b.integer := by
  unfold Json.integer
  rw [h.kind]
  split
  · rename_i hkind
    have hvalue := congrArg Json.value h
    rw [bare_value, bare_value, h.kind, hkind] at hvalue
    rw [show a.value = b.value from hvalue]
  · rfl

theorem alike_mk {kind : Kind} {value value' : Bytes} {items items' : List Json}
    {members members' : List (Bytes × Json)}
    (hvalue : shownValue kind value = shownValue kind value')
    (hitems : items.map bare = items'.map bare)
    (hmembers : Assoc.mapValues bare members = Assoc.mapValues bare members') :
    Alike (mk kind value items members) (mk kind value' items' members') := by
  unfold Alike
  rw [bare_mk, bare_mk, hvalue, hitems, hmembers]

theorem alike_put {m m' : List (Bytes × Json)} {name : Bytes} {v w : Json}
    (hm : Assoc.mapValues bare m = Assoc.mapValues bare m') (hv : Alike v w) :
    Assoc.mapValues bare (Assoc.put name v m) = Assoc.mapValues bare (Assoc.put name w m') := by
  rw [Assoc.put_mapValues, Assoc.put_mapValues, hm, hv]

end

end Json

/-! ## Results that differ in stale texts -/

/-- Two results with the same error, or with values that are alike. -/
def Same (x y : Except Error Json) : Prop := x.map bare = y.map bare

theorem same_ok {a b : Json} (h : Alike a b) : Same (.ok a) (.ok b) := congrArg Except.ok h

theorem Same.cases {x y : Except Error Json} (h : Same x y) :
    (∃ e, x = .error e ∧ y = .error e) ∨ ∃ a b, x = .ok a ∧ y = .ok b ∧ Alike a b := by
  cases x with
  | error e =>
    cases y with
    | error e' => exact Or.inl ⟨e, rfl, by rw [Except.error.inj h]⟩
    | ok b => cases h
  | ok a =>
    cases y with
    | error e => cases h
    | ok b => exact Or.inr ⟨a, b, rfl, rfl, Except.ok.inj h⟩

theorem Same.bind_eq {β : Type} {x y : Except Error Json} {f g : Json → Except Error β}
    (h : Same x y) (hf : ∀ a b, Alike a b → f a = g b) : x >>= f = y >>= g := by
  rcases h.cases with ⟨e, rfl, rfl⟩ | ⟨a, b, rfl, rfl, hab⟩
  · rfl
  · exact hf a b hab

theorem Same.bind {x y : Except Error Json} {f g : Json → Except Error Json}
    (h : Same x y) (hf : ∀ a b, Alike a b → Same (f a) (g b)) : Same (x >>= f) (y >>= g) := by
  rcases h.cases with ⟨e, rfl, rfl⟩ | ⟨a, b, rfl, rfl, hab⟩
  · rfl
  · exact hf a b hab

theorem same_bind {β : Type} (x : Except Error β) {f g : β → Except Error Json}
    (h : ∀ v, Same (f v) (g v)) : Same (x >>= f) (x >>= g) := by
  cases x with
  | error e => rfl
  | ok v => exact h v

section

variable {a b : Json}

theorem Json.Alike.atKey (h : Alike a b) (k : Bytes) : Same (a.atKey k) (b.atKey k) := by
  have hfind := h.find k
  unfold Json.atKey
  rw [h.kind]
  cases ha : Assoc.find k a.members with
  | none =>
    cases hb : Assoc.find k b.members with
    | none => rfl
    | some w =>
      rw [ha, hb] at hfind
      cases hfind
  | some v =>
    cases hb : Assoc.find k b.members with
    | none =>
      rw [ha, hb] at hfind
      cases hfind
    | some w =>
      rw [ha, hb] at hfind
      cases b.kind with
      | object => exact same_ok (Option.some.inj hfind)
      | _ => rfl

/-! ## Deltas take like documents alike -/

theorem merge_alike (changes : Json) : ∀ {a b : Json}, Alike a b →
    Alike (mergeReportFields a changes) (mergeReportFields b changes) := by
  induction changes using Json.induct with
  | h kind value items members hitems hmembers =>
    intro a b h
    rw [mergeReportFields, mergeReportFields]
    split
    · refine alike_mk rfl h.items ?_
      -- the members are merged one after the other
      have hmerge : ∀ (ms : List (Bytes × Json)), (∀ e ∈ ms, e ∈ members) →
          ∀ {d d' : List (Bytes × Json)},
            Assoc.mapValues bare d = Assoc.mapValues bare d' →
            Assoc.mapValues bare (mergeMembers d ms)
              = Assoc.mapValues bare (mergeMembers d' ms) := by
        intro ms
        induction ms with
        | nil =>
          intro _ d d' hd
          simpa only [mergeMembers] using hd
        | cons e ms ih =>
          intro hsub d d' hd
          obtain ⟨name, v⟩ := e
          have hdd : Alike (object d) (object d') := alike_mk rfl rfl hd
          rw [mergeMembers, mergeMembers]
          refine ih (fun e he => hsub e (List.mem_cons_of_mem _ he)) (alike_put hd ?_)
          exact hmembers (name, v) (hsub (name, v) (by simp)) (hdd.getD name)
      exact hmerge members (fun _ he => he) h.members
    · rfl

theorem patchRows_alike (h : Alike a b) (patch : Json) :
    Same (patchRows a patch) (patchRows b patch) := by
  have hlength : a.items.length = b.items.length := by
    have := congrArg List.length h.items
    simpa only [List.length_map] using this
  unfold patchRows
  rw [hlength]
  refine same_bind _ fun offset => same_bind _ fun offset => same_bind _ fun _ =>
    same_bind _ fun items => same_bind _ fun _ => same_ok ?_
  refine alike_mk rfl ?_ h.members
  rw [List.map_append, List.map_append, List.map_take, List.map_take, h.items]

/-- A patch acts alike on like documents. -/
theorem applyArrayPatch_alike (h : Alike a b) (v2 : Bool) (entry : Bytes × Json) :
    Same (applyArrayPatch v2 a entry) (applyArrayPatch v2 b entry) := by
  obtain ⟨name, patch⟩ := entry
  have howner := h.getD (ascii "report")
  have hclosed : Same (patchRows ((Assoc.find name a.members).getD null) patch >>= fun values =>
        .ok (mk .object a.value a.items (Assoc.put name values a.members)))
      (patchRows ((Assoc.find name b.members).getD null) patch >>= fun values =>
        .ok (mk .object b.value b.items (Assoc.put name values b.members))) := by
    refine (patchRows_alike (h.getD name) patch).bind fun v w hvw => same_ok ?_
    exact alike_mk rfl h.items (alike_put h.members hvw)
  have hreport : ∀ oa ob, Alike oa ob →
      Same (patchRows ((Assoc.find name oa.members).getD null) patch >>= fun values =>
        .ok (a.setMember (ascii "report")
          (mk .object oa.value oa.items (Assoc.put name values oa.members))))
      (patchRows ((Assoc.find name ob.members).getD null) patch >>= fun values =>
        .ok (b.setMember (ascii "report")
          (mk .object ob.value ob.items (Assoc.put name values ob.members)))) := by
    intro oa ob hoo
    refine (patchRows_alike (hoo.getD name) patch).bind fun v w hvw => same_ok ?_
    have hvalue := congrArg Json.value h
    rw [bare_value, bare_value, ← h.kind] at hvalue
    unfold Json.setMember
    rw [← h.kind]
    exact alike_mk hvalue h.items (alike_put h.members
      (alike_mk rfl hoo.items (alike_put hoo.members hvw)))
  unfold applyArrayPatch
  refine same_bind _ fun _ => ?_
  cases v2 with
  | true =>
    refine same_bind _ fun _ => ?_
    split
    · exact hclosed
    · exact hreport _ _ howner
  | false =>
    refine same_bind _ fun _ => ?_
    split
    · exact hclosed
    · exact hreport _ _ howner

theorem checkRatios_alike (h : Alike a b) (delta : Json) :
    checkRatios a delta = checkRatios b delta := by
  unfold checkRatios
  exact (h.atKey _).bind_eq fun v w hvw => by rw [hvw.integer]

theorem checkClock_alike (h : Alike a b) (zone : Bytes) :
    checkClock a zone = checkClock b zone := by
  unfold checkClock Json.find
  rw [h.kind]
  split
  · rw [Result.ok_bind, Result.ok_bind]
    have hfind := h.find (ascii "ratio_context")
    cases ha : Assoc.find (ascii "ratio_context") a.members with
    | none =>
      cases hb : Assoc.find (ascii "ratio_context") b.members with
      | none => rfl
      | some w =>
        rw [ha, hb] at hfind
        cases hfind
    | some v =>
      cases hb : Assoc.find (ascii "ratio_context") b.members with
      | none =>
        rw [ha, hb] at hfind
        cases hfind
      | some w =>
        rw [ha, hb] at hfind
        have hvw : Alike v w := Option.some.inj hfind
        exact (hvw.atKey _).bind_eq fun v w hvw => by rw [hvw.text]
  · rfl

theorem setMember_alike (h : Alike a b) (name : Bytes) {v w : Json} (hvw : Alike v w) :
    Alike (a.setMember name v) (b.setMember name w) := by
  have hvalue := congrArg Json.value h
  rw [bare_value, bare_value, ← h.kind] at hvalue
  unfold Json.setMember
  rw [← h.kind]
  exact alike_mk hvalue h.items (alike_put h.members hvw)

theorem moveRatios_alike (h : Alike a b) (delta : Json) :
    Same (moveRatios a delta) (moveRatios b delta) := by
  unfold moveRatios
  refine same_bind _ fun asOf => ?_
  cases asOf with
  | none => exact same_ok h
  | some asOf =>
    refine same_bind _ fun asOfInput => ?_
    refine (h.atKey _).bind fun v w hvw => ?_
    rw [hvw.integer]
    refine same_bind _ fun cursor => same_bind _ fun _ => same_bind _ fun context =>
      same_bind _ fun clock => same_bind _ fun zone => ?_
    rw [checkClock_alike h]
    refine same_bind _ fun _ => same_ok ?_
    exact setMember_alike (setMember_alike h _ rfl) _ rfl

theorem foldlM_alike (v2 : Bool) (patches : List (Bytes × Json)) : ∀ {a b : Json}, Alike a b →
    Same (patches.foldlM (applyArrayPatch v2) a) (patches.foldlM (applyArrayPatch v2) b) := by
  induction patches with
  | nil =>
    intro a b h
    exact same_ok h
  | cons e patches ih =>
    intro a b h
    rw [List.foldlM_cons, List.foldlM_cons]
    exact (applyArrayPatch_alike h v2 e).bind fun v w hvw => ih hvw

theorem applyReportDelta_alike (h : Alike a b) (delta : Json) :
    Same (applyReportDelta a delta) (applyReportDelta b delta) := by
  unfold applyReportDelta
  refine same_bind _ fun schemaValue => same_bind _ fun schema => same_bind _ fun _ =>
    same_bind _ fun fields => ?_
  have hmerge := merge_alike fields h
  dsimp only
  split
  · rw [checkRatios_alike hmerge]
    refine same_bind _ fun _ => ?_
    rw [Result.ok_bind, Result.ok_bind]
    refine same_bind _ fun arrays => ?_
    exact foldlM_alike _ _ hmerge
  · refine (moveRatios_alike hmerge delta).bind fun v w hvw => ?_
    refine same_bind _ fun arrays => ?_
    exact foldlM_alike _ _ hvw

end

/-! ## Deltas that leave nothing stale -/

/-- A value of which nothing but texts is stale. -/
def Tidy (j : Json) : Prop := WellFormed (bare j)

mutual

/-- Whether a merge puts an object over an array that has items. -/
def mergeClash (destination : Json) : Json → Bool
  | .mk kind _ _ members =>
    kind = .object && (!destination.items.isEmpty || membersClash destination.members members)

/-- Whether merging members leaves stale fields. -/
def membersClash (destination : List (Bytes × Json)) : List (Bytes × Json) → Bool
  | [] => false
  | (name, value) :: rest =>
    mergeClash ((Assoc.find name destination).getD null) value || membersClash destination rest

end

/-- Whether rows are put over an object that has members, or in an owner that is an array with
items; or in the report of a document that is no object. -/
def patchClash (document : Json) (name : Bytes) : Bool :=
  if name = ArrayName.closedTrades.text then
    !document.items.isEmpty ||
      !((Assoc.find name document.members).getD null).members.isEmpty
  else
    let owner := (Assoc.find (ascii "report") document.members).getD null
    document.kind ≠ .object || !owner.items.isEmpty ||
      !((Assoc.find name owner.members).getD null).members.isEmpty

/-- The same along the patches of a delta. -/
def patchesClash (v2 : Bool) (document : Json) : List (Bytes × Json) → Bool
  | [] => false
  | entry :: patches =>
    patchClash document entry.1 ||
      match applyArrayPatch v2 document entry with
      | .ok document => patchesClash v2 document patches
      | .error _ => false

/-- Whether a delta would leave items or members stale in a document. -/
def deltaClash (document delta : Json) : Bool :=
  match Assoc.find (ascii "fields") delta.members, Assoc.find (ascii "arrays") delta.members with
  | some fields, some arrays =>
    let merged := mergeReportFields document fields
    let v2 : Bool :=
      (Assoc.find (ascii "schema_version") delta.members).map Json.text = some (.ok schemaV2)
    mergeClash document fields ||
      match if v2 then .ok merged else moveRatios merged delta with
      | .ok document => patchesClash v2 document arrays.members
      | .error _ => false
  | _, _ => false

theorem tidy_mk {kind : Kind} {value : Bytes} {items : List Json} {members : List (Bytes × Json)} :
    Tidy (mk kind value items members) ↔ NodeFormed kind (shownValue kind value) (items.map bare)
      (Assoc.mapValues bare members) ∧ (∀ j ∈ items, Tidy j) ∧ ∀ e ∈ members, Tidy e.2 := by
  unfold Tidy
  rw [bare_mk, wellFormed_mk]
  simp only [Assoc.mapValues, List.mem_map, forall_exists_index, and_imp, forall_apply_eq_imp_iff₂]

theorem Json.WellFormed.tidy {j : Json} (h : WellFormed j) : Tidy j := by
  unfold Tidy
  rw [bare_formed j h]
  exact h

theorem tidy_null : Tidy null :=
  WellFormed.tidy (wellFormed_mk.mpr ⟨⟨rfl, rfl, rfl⟩, by simp, by simp⟩)

/-- Members are sorted, and all of them tidy. -/
def TidyMembers (members : List (Bytes × Json)) : Prop :=
  Assoc.Sorted members ∧ ∀ e ∈ members, Tidy e.2

theorem Tidy.members {j : Json} (h : Tidy j) : TidyMembers j.members := by
  obtain ⟨kind, value, items, members⟩ := j
  obtain ⟨hnode, -, hall⟩ := tidy_mk.mp h
  refine ⟨?_, hall⟩
  have hnil : Assoc.mapValues bare members = [] → Assoc.Sorted members := by
    intro hempty
    rw [List.map_eq_nil_iff.mp hempty]
    exact List.Pairwise.nil
  cases kind with
  | null => exact hnil hnode.2.2
  | bool => exact hnil hnode.2.2
  | number => exact hnil hnode.2.2
  | string => exact hnil hnode.2
  | array => exact hnil hnode.2
  | object => exact (Assoc.sorted_mapValues bare members).mp hnode.2.2

theorem Tidy.items {j : Json} (h : Tidy j) : ∀ i ∈ j.items, Tidy i := by
  obtain ⟨kind, value, items, members⟩ := j
  exact (tidy_mk.mp h).2.1

theorem Tidy.object {value : Bytes} {items : List Json} {members : List (Bytes × Json)}
    (hitems : items = []) (h : TidyMembers members) : Tidy (mk .object value items members) := by
  subst hitems
  exact tidy_mk.mpr ⟨⟨rfl, rfl, (Assoc.sorted_mapValues bare members).mpr h.1⟩, by simp, h.2⟩

theorem Tidy.array {value : Bytes} {items : List Json} {members : List (Bytes × Json)}
    (hitems : ∀ i ∈ items, Tidy i) (hmembers : members = []) :
    Tidy (mk .array value items members) := by
  subst hmembers
  exact tidy_mk.mpr ⟨⟨rfl, rfl⟩, hitems, by simp⟩

theorem TidyMembers.put {members : List (Bytes × Json)} (h : TidyMembers members) (name : Bytes)
    {v : Json} (hv : Tidy v) : TidyMembers (Assoc.put name v members) := by
  refine ⟨Assoc.Sorted.put h.1 name v, fun e he => ?_⟩
  rcases Assoc.mem_put he with rfl | he
  · exact hv
  · exact h.2 e he

theorem TidyMembers.getD {members : List (Bytes × Json)} (h : TidyMembers members) (name : Bytes) :
    Tidy ((Assoc.find name members).getD null) := by
  cases hfind : Assoc.find name members with
  | none => exact tidy_null
  | some v => exact h.2 _ (Assoc.mem_of_find hfind)

/-- A merge without a clash stays tidy. -/
theorem Tidy.merge (changes : Json) : ∀ {d : Json}, Tidy d → WellFormed changes →
    mergeClash d changes = false → Tidy (mergeReportFields d changes) := by
  induction changes using Json.induct with
  | h kind value items members hitems hmembers =>
    intro d hd hchanges hclash
    by_cases hkind : kind = .object
    · subst hkind
      obtain ⟨hnode, -, hformed⟩ := wellFormed_mk.mp hchanges
      simp only [mergeClash, decide_true, Bool.true_and, Bool.or_eq_false_iff,
        Bool.not_eq_false'] at hclash
      rw [mergeReportFields, if_pos rfl]
      refine Tidy.object (List.isEmpty_iff.mp hclash.1) ?_
      -- each change is merged into what the document has before the merge
      have hmerge : ∀ (ms dm : List (Bytes × Json)), (∀ e ∈ ms, e ∈ members) →
          (ms.map Prod.fst).Nodup → TidyMembers dm →
          (∀ e ∈ ms, Assoc.find e.1 dm = Assoc.find e.1 d.members) →
          membersClash d.members ms = false → TidyMembers (mergeMembers dm ms) := by
        intro ms
        induction ms with
        | nil =>
          intro dm _ _ hdm _ _
          simpa only [mergeMembers] using hdm
        | cons e ms ih =>
          intro dm hsub hnodup hdm hsame hms
          obtain ⟨name, v⟩ := e
          simp only [membersClash, Bool.or_eq_false_iff] at hms
          simp only [List.map_cons, List.nodup_cons] at hnodup
          have hmem := hsub (name, v) (by simp)
          have hold : Assoc.find name dm = Assoc.find name d.members := hsame (name, v) (by simp)
          have hv : Tidy (mergeReportFields ((Assoc.find name dm).getD null) v) := by
            rw [hold]
            exact hmembers (name, v) hmem (hd.members.getD name) (hformed (name, v) hmem) hms.1
          rw [mergeMembers]
          refine ih _ (fun e he => hsub e (List.mem_cons_of_mem _ he)) hnodup.2 (hdm.put name hv)
            (fun e he => ?_) hms.2
          have hne : e.1 ≠ name := fun heq => hnodup.1 (heq ▸ List.mem_map_of_mem he)
          rw [Assoc.find_put_ne hne]
          exact hsame e (List.mem_cons_of_mem _ he)
      exact hmerge members d.members (fun _ he => he) hnode.2.2.nodup hd.members (fun _ _ => rfl)
        hclash.2
    · rw [mergeReportFields, if_neg hkind]
      exact hchanges.tidy

theorem Json.WellFormed.atKey {j v : Json} (h : WellFormed j) {k : Bytes} (hv : j.atKey k = .ok v) :
    WellFormed v ∧ Assoc.find k j.members = some v := by
  unfold Json.atKey at hv
  split at hv
  · rename_i hfind
    cases hv
    exact ⟨h.member hfind, hfind⟩
  · cases hv

theorem Json.WellFormed.items {j : Json} (h : WellFormed j) : ∀ i ∈ j.items, WellFormed i := by
  obtain ⟨kind, value, items, members⟩ := j
  exact (wellFormed_mk.mp h).2.1

theorem Tidy.patchRows {values patch rows : Json} (h : Tidy values) (hpatch : WellFormed patch)
    (hclash : values.members = []) (hrows : patchRows values patch = .ok rows) : Tidy rows := by
  obtain ⟨offsetValue, -, hrows⟩ := Result.bind_eq_ok.mp hrows
  obtain ⟨offset, -, hrows⟩ := Result.bind_eq_ok.mp hrows
  obtain ⟨-, -, hrows⟩ := Result.bind_eq_ok.mp hrows
  obtain ⟨items, hitems, hrows⟩ := Result.bind_eq_ok.mp hrows
  obtain ⟨-, -, hrows⟩ := Result.bind_eq_ok.mp hrows
  rw [← Except.ok.inj hrows]
  refine Tidy.array (fun i hi => ?_) hclash
  rcases List.mem_append.mp hi with hi | hi
  · exact h.items i (List.mem_of_mem_take hi)
  · exact ((hpatch.atKey hitems).1.items i hi).tidy

/-- What an applied array patch did. -/
theorem applyArrayPatch_eq_ok {v2 : Bool} {document result : Json} {entry : Bytes × Json}
    (h : applyArrayPatch v2 document entry = .ok result) :
    (entry.1 = ArrayName.closedTrades.text ∧
      ∃ rows, patchRows ((Assoc.find entry.1 document.members).getD null) entry.2 = .ok rows ∧
        result = .mk .object document.value document.items
          (Assoc.put entry.1 rows document.members)) ∨
    (entry.1 ≠ ArrayName.closedTrades.text ∧ ∃ owner rows,
      owner = (Assoc.find (ascii "report") document.members).getD null ∧
      patchRows ((Assoc.find entry.1 owner.members).getD null) entry.2 = .ok rows ∧
      result = document.setMember (ascii "report")
        (.mk .object owner.value owner.items (Assoc.put entry.1 rows owner.members))) := by
  obtain ⟨name, patch⟩ := entry
  obtain ⟨-, -, h⟩ := Result.bind_eq_ok.mp h
  have hrest : ∀ {x : Except Error Unit} {f : Unit → Except Error Json},
      (x >>= f) = .ok result → f () = .ok result := by
    intro x f hx
    obtain ⟨⟨⟩, -, hx⟩ := Result.bind_eq_ok.mp hx
    exact hx
  have htail : (if name = ArrayName.closedTrades.text then do
        let values ← patchRows ((Assoc.find name document.members).getD null) patch
        .ok (.mk .object document.value document.items (Assoc.put name values document.members))
      else do
        let owner := (Assoc.find (ascii "report") document.members).getD null
        let values ← patchRows ((Assoc.find name owner.members).getD null) patch
        .ok (document.setMember (ascii "report")
          (.mk .object owner.value owner.items (Assoc.put name values owner.members))))
      = .ok result := by
    cases v2 with
    | true => exact hrest h
    | false => exact hrest h
  split at htail
  · rename_i hname
    obtain ⟨rows, hrows, hresult⟩ := Result.bind_eq_ok.mp htail
    exact Or.inl ⟨hname, rows, hrows, (Except.ok.inj hresult).symm⟩
  · rename_i hname
    obtain ⟨rows, hrows, hresult⟩ := Result.bind_eq_ok.mp htail
    exact Or.inr ⟨hname, _, rows, rfl, hrows, (Except.ok.inj hresult).symm⟩

theorem Tidy.object_items {j : Json} (h : Tidy j) (hkind : j.kind = .object) : j.items = [] := by
  obtain ⟨kind, value, items, members⟩ := j
  rw [mk_kind] at hkind
  subst hkind
  exact List.map_eq_nil_iff.mp (tidy_mk.mp h).1.2.1

theorem Tidy.setMember {j v : Json} (h : Tidy j) (hkind : j.kind = .object) (name : Bytes)
    (hv : Tidy v) : Tidy (j.setMember name v) := by
  unfold Json.setMember
  rw [hkind]
  exact Tidy.object (h.object_items hkind) (h.members.put name hv)

theorem Tidy.applyArrayPatch {v2 : Bool} {document result : Json} {entry : Bytes × Json}
    (h : Tidy document) (hpatch : WellFormed entry.2) (hclash : patchClash document entry.1 = false)
    (hresult : applyArrayPatch v2 document entry = .ok result) : Tidy result := by
  unfold patchClash at hclash
  rcases applyArrayPatch_eq_ok hresult with ⟨hname, rows, hrows, rfl⟩ |
    ⟨hname, owner, rows, rfl, hrows, rfl⟩
  · rw [if_pos hname] at hclash
    simp only [Bool.or_eq_false_iff, Bool.not_eq_false', List.isEmpty_iff] at hclash
    exact Tidy.object hclash.1
      (h.members.put _ ((h.members.getD _).patchRows hpatch hclash.2 hrows))
  · rw [if_neg hname] at hclash
    simp only [Bool.or_eq_false_iff, Bool.not_eq_false', List.isEmpty_iff, ne_eq, decide_not,
      decide_eq_true_eq] at hclash
    have howner := h.members.getD (ascii "report")
    refine h.setMember hclash.1.1 _ (Tidy.object hclash.1.2 ?_)
    exact howner.members.put _ ((howner.members.getD _).patchRows hpatch hclash.2 hrows)

theorem Tidy.patches {v2 : Bool} (patches : List (Bytes × Json)) : ∀ {document result : Json},
    Tidy document → (∀ e ∈ patches, WellFormed e.2) → patchesClash v2 document patches = false →
    patches.foldlM (Runner.applyArrayPatch v2) document = .ok result → Tidy result := by
  induction patches with
  | nil =>
    intro document result h _ _ hresult
    cases hresult
    exact h
  | cons e patches ih =>
    intro document result h hformed hclash hresult
    rw [List.foldlM_cons] at hresult
    obtain ⟨next, hnext, hresult⟩ := Result.bind_eq_ok.mp hresult
    simp only [patchesClash, hnext, Bool.or_eq_false_iff] at hclash
    exact ih (h.applyArrayPatch (hformed e (by simp)) hclash.1 hnext)
      (fun e' he' => hformed e' (List.mem_cons_of_mem _ he')) hclash.2 hresult

theorem Tidy.moveRatios {document delta result : Json} (h : Tidy document)
    (hdelta : WellFormed delta)
    (hresult : moveRatios document delta = .ok result) : Tidy result := by
  obtain ⟨asOf, hasOf, hresult⟩ := Result.bind_eq_ok.mp hresult
  cases asOf with
  | none =>
    cases hresult
    exact h
  | some asOf =>
    have hfind : Assoc.find (ascii "ratios_as_of_input") delta.members = some asOf := by
      unfold Json.find at hasOf
      split at hasOf
      · exact Except.ok.inj hasOf
      · cases hasOf
    obtain ⟨asOfInput, -, hresult⟩ := Result.bind_eq_ok.mp hresult
    obtain ⟨cursorValue, hcursor, hresult⟩ := Result.bind_eq_ok.mp hresult
    obtain ⟨cursor, -, hresult⟩ := Result.bind_eq_ok.mp hresult
    obtain ⟨-, -, hresult⟩ := Result.bind_eq_ok.mp hresult
    obtain ⟨context, hcontext, hresult⟩ := Result.bind_eq_ok.mp hresult
    obtain ⟨clock, -, hresult⟩ := Result.bind_eq_ok.mp hresult
    obtain ⟨zone, -, hresult⟩ := Result.bind_eq_ok.mp hresult
    obtain ⟨-, -, hresult⟩ := Result.bind_eq_ok.mp hresult
    have hkind : document.kind = .object := by
      unfold Json.atKey at hcursor
      split at hcursor
      · assumption
      · cases hcursor
    rw [← Except.ok.inj hresult]
    refine Tidy.setMember (h.setMember hkind _ (hdelta.member hfind).tidy) hkind _ ?_
    exact (hdelta.atKey hcontext).1.tidy

/-- A delta without a clash stays tidy. -/
theorem Tidy.apply {document delta result : Json} (h : Tidy document) (hdelta : WellFormed delta)
    (hclash : deltaClash document delta = false)
    (hresult : applyReportDelta document delta = .ok result) : Tidy result := by
  obtain ⟨schemaValue, hschemaValue, hresult⟩ := Result.bind_eq_ok.mp hresult
  obtain ⟨schema, hschema, hresult⟩ := Result.bind_eq_ok.mp hresult
  obtain ⟨-, -, hresult⟩ := Result.bind_eq_ok.mp hresult
  obtain ⟨fields, hfields, hresult⟩ := Result.bind_eq_ok.mp hresult
  obtain ⟨hfieldsFormed, hfindFields⟩ := hdelta.atKey hfields
  obtain ⟨-, hfindSchema⟩ := hdelta.atKey hschemaValue
  have hv2 : decide ((Assoc.find (ascii "schema_version") delta.members).map Json.text
      = some (.ok schemaV2)) = decide (schema = schemaV2) := by
    rw [hfindSchema, Option.map_some, hschema]
    simp only [Option.some.injEq, Except.ok.injEq]
  have hkeeps : ∀ {merged : Json}, (if decide (schema = schemaV2) = true
        then .ok (mergeReportFields document fields)
        else Runner.moveRatios (mergeReportFields document fields) delta) = .ok merged →
      (Tidy (mergeReportFields document fields) → Tidy merged) →
      (delta.atKey (ascii "arrays") >>= fun arrays =>
        arrays.members.foldlM (Runner.applyArrayPatch (decide (schema = schemaV2))) merged)
          = .ok result → Tidy result := by
    intro merged hmerged htidy hfold
    obtain ⟨arrays, harrays, hfold⟩ := Result.bind_eq_ok.mp hfold
    obtain ⟨harraysFormed, hfindArrays⟩ := hdelta.atKey harrays
    simp only [deltaClash, hfindFields, hfindArrays, hv2, Bool.or_eq_false_iff] at hclash
    obtain ⟨hmergeClash, hpatchClash⟩ := hclash
    rw [hmerged] at hpatchClash
    refine Tidy.patches _ (htidy (Tidy.merge fields h hfieldsFormed hmergeClash)) (fun e he => ?_)
      hpatchClash hfold
    obtain ⟨kind, value, items, members⟩ := arrays
    exact (wellFormed_mk.mp harraysFormed).2.2 e he
  dsimp only at hresult
  split at hresult
  · rename_i hschema2
    obtain ⟨⟨⟩, -, hresult⟩ := Result.bind_eq_ok.mp hresult
    rw [Result.ok_bind] at hresult
    exact hkeeps (if_pos hschema2) id hresult
  · rename_i hschema1
    obtain ⟨merged, hmerged, hresult⟩ := Result.bind_eq_ok.mp hresult
    exact hkeeps ((if_neg hschema1).trans hmerged) (fun htidy => htidy.moveRatios hdelta hmerged)
      hresult

end PineForge.Runner
