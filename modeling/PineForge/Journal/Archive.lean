import Mathlib
import PineForge.Machine.Endian

/-!
# The archive of events and rows

One field list per type serves both directions of the archive. A trivially copyable value is copied
as it is in memory; what owns a string, a vector, an optional, a variant or a definition is walked.
`Ty` is the part of the C++ types that the walk sees, and `Val` the values of a type. What a copied
value holds is its bytes, as many as the compiler lays out.

The external openings of a bound close are written as their count and their handles. Read back they
are frozen again, or, in a request that the core refused, kept as they were written. A count of zero
reads back as no list at all.
-/

namespace PineForge.Journal

open BigEndian (Bytes bytes word)

/-- The trivially copyable types of the archive. -/
inductive Plain
  | word | integer | real | flag
  | handle | eventId | birth | cursor | position | cohort
  | flatten | reduce | transact | reverseTo | hostSized | sized
  | market | limit | stop | stopLimit | trail
  | immediateRemaining | pointBudget
  | independent | waitForApplied | bindOpening
  | noGroup | member
  | absolute | fromOwnerFill
  | origin | side | surface | groupEffect
  | rejectReason | cancelReason | matchRejectReason | terminalReason | activationKind
  | remainingUnbound | remainingFlatten | remainingUnits | remainingDeferred | remainingNoTarget
  | bookTransaction | wait | armedTransaction | unboundBookClose | bookClose | openingClose
  | fromCommand | fromApplied
  | marketReady | limitReady | stopIdle | stopActive | stopLimitPending | stopLimitLive
  | trailWaitArm | trailTrack | trailActive
  | allowanceUnset | allowanceUnits | allowanceAllScope | allowanceDeferred
  | pendingNone | pendingDeferred
  | executionTerms | termsResolvedInput
  | scopeBook | scopeOpening
  | riskEvent
deriving DecidableEq, Repr

mutual

/-- The types of the archive. -/
inductive Ty
  | raw (plain : Plain)
  | string
  | vector (item : Plain)
  | optional (t : Ty)
  | variant (ts : Tys)
  | fields (ts : Tys)
  | external
  | refused (t : Ty)

/-- A list of such types. -/
inductive Tys
  | nil
  | cons (t : Ty) (ts : Tys)

end

/-- A handle as its bytes: the interned session key and the run number, then the incarnation. -/
structure RequestHandle where
  run : { bs : Bytes // bs.length = 16 }
  incarnation : Fin (2 ^ 64)
deriving DecidableEq

section

variable (sizeOf : Plain → ℕ+)

/-- The bytes of a trivially copyable value. -/
abbrev Image (plain : Plain) : Type := { bs : Bytes // bs.length = sizeOf plain }

mutual

/-- The values of a type. -/
def Val : Ty → Type
  | .raw plain => Image sizeOf plain
  | .string => { bs : Bytes // bs.length < 2 ^ 64 }
  | .vector item => { items : List (Image sizeOf item) // items.length < 2 ^ 64 }
  | .optional t => Option (Val t)
  | .variant ts => Alternative ts
  | .fields ts => Fields ts
  | .external => Option { hs : List RequestHandle // hs.length < 2 ^ 64 }
  | .refused t => Val t

/-- A value of each type. -/
def Fields : Tys → Type
  | .nil => Unit
  | .cons t ts => Val t × Fields ts

/-- A value of one of the types. -/
def Alternative : Tys → Type
  | .nil => Empty
  | .cons t ts => Val t ⊕ Alternative ts

end

/-! ## Saving -/

/-- An unsigned integer of some bytes, the lowest first. -/
def wordBytes (size n : ℕ) : Bytes := (bytes size n).reverse

/-- The bytes of a handle. -/
def handleBytes (h : RequestHandle) : Bytes := h.run.val ++ wordBytes 8 h.incarnation.val

mutual

/-- Save a value. -/
def save : (t : Ty) → Val sizeOf t → Bytes
  | .raw _, v => v.val
  | .string, v => wordBytes 8 v.val.length ++ v.val
  | .vector _, v => wordBytes 8 v.val.length ++ v.val.flatMap Subtype.val
  | .optional _, none => [0]
  | .optional t, some v => 1 :: save t v
  | .variant ts, v => saveAlternative ts 0 v
  | .fields ts, v => saveFields ts v
  | .external, none => wordBytes 8 0
  | .external, some hs => wordBytes 8 hs.val.length ++ hs.val.flatMap handleBytes
  | .refused t, v => save t v

/-- Save fields in order. -/
def saveFields : (ts : Tys) → Fields sizeOf ts → Bytes
  | .nil, _ => []
  | .cons t ts, v => save t v.1 ++ saveFields ts v.2

/-- Save an index and its value. -/
def saveAlternative : (ts : Tys) → ℕ → Alternative sizeOf ts → Bytes
  | .cons t _, index, .inl v => wordBytes 4 index ++ save t v
  | .cons _ ts, index, .inr v => saveAlternative ts (index + 1) v

end

/-! ## Loading -/

/-- `raw`: the next bytes, if there are so many. -/
def readRaw (size : ℕ) (bs : Bytes) : Option ({ bs : Bytes // bs.length = size } × Bytes) :=
  if h : size ≤ bs.length then some (⟨bs.take size, List.length_take_of_le h⟩, bs.drop size)
    else none

/-- Read a little-endian number. -/
def readWord (size : ℕ) (bs : Bytes) : Option (ℕ × Bytes) :=
  (readRaw size bs).map fun (v, rest) => (word v.val.reverse, rest)

/-- Read items of one size. -/
def readItems (size : ℕ) : ℕ → Bytes → Option (List { bs : Bytes // bs.length = size } × Bytes)
  | 0, bs => some ([], bs)
  | n + 1, bs => (readRaw size bs).bind fun (item, bs) =>
    (readItems size n bs).map fun (items, bs) => (item :: items, bs)

/-- Read handles. -/
def readHandles : ℕ → Bytes → Option (List RequestHandle × Bytes)
  | 0, bs => some ([], bs)
  | n + 1, bs => (readRaw 16 bs).bind fun (run, bs) =>
    (readWord 8 bs).bind fun (incarnation, bs) =>
      (readHandles n bs).map fun (hs, bs) => (⟨run, Fin.ofNat (2 ^ 64) incarnation⟩ :: hs, bs)

/-- `freeze_openings`: the handles of one run, none of them zero or named twice, in order. -/
def freeze (hs : List RequestHandle) : Option (List RequestHandle) :=
  match hs with
  | [] => none
  | first :: _ =>
    if hs.all fun h => h.incarnation ≠ 0 ∧ h.run = first.run then
      let sorted := hs.mergeSort fun g h => decide (g.incarnation ≤ h.incarnation)
      if (sorted.map RequestHandle.incarnation).Nodup then some sorted else none
    else none

/-- A list that is short enough to be counted. -/
def counted {α : Type} (xs : List α) : Option { xs : List α // xs.length < 2 ^ 64 } :=
  if h : xs.length < 2 ^ 64 then some ⟨xs, h⟩ else none

/-- `archive_external_openings`. -/
def readExternal (stored : Bool) (bs : Bytes) :
    Option (Option { hs : List RequestHandle // hs.length < 2 ^ 64 } × Bytes) :=
  (readWord 8 bs).bind fun (count, bs) =>
    if count = 0 then some (none, bs)
    else if count > bs.length then none
    else (readHandles count bs).bind fun (hs, bs) =>
      ((if stored then some hs else freeze hs).bind counted).map fun hs => (some hs, bs)

/-- Read a string with its length. -/
def readString (bs : Bytes) : Option ({ bs : Bytes // bs.length < 2 ^ 64 } × Bytes) :=
  (readWord 8 bs).bind fun (length, bs) =>
    if length > bs.length then none
    else (counted (bs.take length)).map fun text => (text, bs.drop length)

/-- Read a vector with its length. -/
def readVector (size : ℕ) (bs : Bytes) :
    Option ({ items : List { bs : Bytes // bs.length = size } // items.length < 2 ^ 64 } × Bytes) :=
  (readWord 8 bs).bind fun (count, bs) =>
    if count > bs.length then none
    else (readItems size count bs).bind fun (items, bs) =>
      (counted items).map fun items => (items, bs)

mutual

/-- Load a value. -/
def load (stored : Bool) : (t : Ty) → Bytes → Option (Val sizeOf t × Bytes)
  | .raw plain, bs => readRaw (sizeOf plain) bs
  | .string, bs => readString bs
  | .vector item, bs => readVector (sizeOf item) bs
  | .optional t, bs => (readWord 1 bs).bind fun (present, bs) =>
    if present = 0 then some (none, bs) else (load stored t bs).map fun (v, bs) => (some v, bs)
  | .variant ts, bs => (readWord 4 bs).bind fun (index, bs) => loadAlternative stored ts index bs
  | .fields ts, bs => loadFields stored ts bs
  | .external, bs => readExternal stored bs
  | .refused t, bs => load true t bs

/-- Load fields in order. -/
def loadFields (stored : Bool) : (ts : Tys) → Bytes → Option (Fields sizeOf ts × Bytes)
  | .nil, bs => some ((), bs)
  | .cons t ts, bs => (load stored t bs).bind fun (v, bs) =>
    (loadFields stored ts bs).map fun (vs, bs) => ((v, vs), bs)

/-- Load the value of an index. -/
def loadAlternative (stored : Bool) :
    (ts : Tys) → ℕ → Bytes → Option (Alternative sizeOf ts × Bytes)
  | .nil, _, _ => none
  | .cons t _, 0, bs => (load stored t bs).map fun (v, bs) => (.inl v, bs)
  | .cons _ ts, index + 1, bs =>
    (loadAlternative stored ts index bs).map fun (v, bs) => (.inr v, bs)

end

end

/-! ## What comes back -/

section

variable {sizeOf : Plain → ℕ+}

mutual

/-- What a saved value is when it is loaded; `none` where the load fails. -/
def reload (stored : Bool) : (t : Ty) → Val sizeOf t → Option (Val sizeOf t)
  | .raw _, v => some v
  | .string, v => some v
  | .vector _, v => some v
  | .optional _, none => some none
  | .optional t, some v => (reload stored t v).map some
  | .variant ts, v => reloadAlternative stored ts v
  | .fields ts, v => reloadFields stored ts v
  | .external, none => some none
  | .external, some hs =>
    if hs.val = [] then some none
    else ((if stored then some hs.val else freeze hs.val).bind counted).map some
  | .refused t, v => reload true t v

/-- The fields that saving and loading give. -/
def reloadFields (stored : Bool) : (ts : Tys) → Fields sizeOf ts → Option (Fields sizeOf ts)
  | .nil, _ => some ()
  | .cons t ts, v =>
    (reload stored t v.1).bind fun x => (reloadFields stored ts v.2).map fun xs => (x, xs)

/-- The alternative that saving and loading give. -/
def reloadAlternative (stored : Bool) : (ts : Tys) → Alternative sizeOf ts →
    Option (Alternative sizeOf ts)
  | .cons t _, .inl v => (reload stored t v).map .inl
  | .cons _ ts, .inr v => (reloadAlternative stored ts v).map .inr

end

mutual

/-- A variant has no more alternatives than its index counts. -/
def Ty.small : Ty → Bool
  | .raw _ => true
  | .string => true
  | .vector _ => true
  | .optional t => t.small
  | .variant ts => decide (ts.length ≤ 2 ^ 32) && ts.small
  | .fields ts => ts.small
  | .external => true
  | .refused t => t.small

/-- Every type of a list is small. -/
def Tys.small : Tys → Bool
  | .nil => true
  | .cons t ts => t.small && ts.small

/-- The number of types. -/
def Tys.length : Tys → ℕ
  | .nil => 0
  | .cons _ ts => ts.length + 1

end

theorem readRaw_append {size : ℕ} (v : { bs : Bytes // bs.length = size }) (rest : Bytes) :
    readRaw size (v.val ++ rest) = some (v, rest) := by
  obtain ⟨bs, rfl⟩ := v
  unfold readRaw
  rw [dif_pos (by rw [List.length_append]; exact Nat.le_add_right ..)]
  simp only [List.take_left, List.drop_left]

theorem readWord_append {size n : ℕ} (hn : n < 256 ^ size) (rest : Bytes) :
    readWord size (wordBytes size n ++ rest) = some (n, rest) := by
  have hlength : (wordBytes size n).length = size := by
    unfold wordBytes
    rw [List.length_reverse, BigEndian.length_bytes]
  unfold readWord
  rw [readRaw_append ⟨wordBytes size n, hlength⟩ rest]
  simp only [Option.map_some, wordBytes, List.reverse_reverse, BigEndian.word_bytes hn]

theorem readCount_append {n : ℕ} (hn : n < 2 ^ 64) (rest : Bytes) :
    readWord 8 (wordBytes 8 n ++ rest) = some (n, rest) :=
  readWord_append (hn.trans_eq (by norm_num)) rest

theorem counted_eq {α : Type} (xs : { xs : List α // xs.length < 2 ^ 64 }) :
    counted xs.val = some xs := dif_pos xs.property

theorem readItems_append {size : ℕ} (items : List { bs : Bytes // bs.length = size })
    (rest : Bytes) :
    readItems size items.length (items.flatMap Subtype.val ++ rest) = some (items, rest) := by
  induction items with
  | nil => rfl
  | cons item items ih =>
    rw [List.flatMap_cons, List.append_assoc, List.length_cons]
    unfold readItems
    rw [readRaw_append]
    simp only [Option.bind_some, ih, Option.map_some]

theorem readHandles_append (hs : List RequestHandle) (rest : Bytes) :
    readHandles hs.length (hs.flatMap handleBytes ++ rest) = some (hs, rest) := by
  induction hs with
  | nil => rfl
  | cons h hs ih =>
    have hbytes : handleBytes h ++ (hs.flatMap handleBytes ++ rest)
        = h.run.val ++ (wordBytes 8 h.incarnation.val ++ (hs.flatMap handleBytes ++ rest)) :=
      List.append_assoc ..
    have hword : (Fin.ofNat (2 ^ 64) h.incarnation.val : Fin (2 ^ 64)) = h.incarnation :=
      Fin.ext (Nat.mod_eq_of_lt h.incarnation.isLt)
    rw [List.flatMap_cons, List.append_assoc, List.length_cons, hbytes]
    unfold readHandles
    rw [readRaw_append]
    simp only [Option.bind_some, readCount_append h.incarnation.isLt, ih, Option.map_some, hword]

theorem length_le_flatMap {α : Type} {f : α → Bytes} (hf : ∀ a, 0 < (f a).length) (xs : List α) :
    xs.length ≤ (xs.flatMap f).length := by
  induction xs with
  | nil => exact Nat.le_refl 0
  | cons x xs ih =>
    rw [List.flatMap_cons, List.length_append, List.length_cons]
    have := hf x
    omega

theorem handleBytes_length (h : RequestHandle) : 0 < (handleBytes h).length := by
  unfold handleBytes
  rw [List.length_append, h.run.property]
  omega

theorem readExternal_append (stored : Bool)
    (v : Option { hs : List RequestHandle // hs.length < 2 ^ 64 }) (rest : Bytes) :
    readExternal stored (save sizeOf .external v ++ rest)
      = (@reload sizeOf stored .external v).map (·, rest) := by
  unfold readExternal
  cases v with
  | none =>
    simp only [save, reload]
    rw [readCount_append (by norm_num)]
    rfl
  | some hs =>
    have hlength := length_le_flatMap handleBytes_length hs.val
    simp only [save, reload]
    rw [List.append_assoc, readCount_append hs.property, Option.bind_some]
    by_cases hempty : hs.val = []
    · rw [if_pos hempty, hempty]
      rfl
    · have hpos : hs.val.length ≠ 0 := fun h => hempty (List.length_eq_zero_iff.mp h)
      have hroom : ¬hs.val.length > (hs.val.flatMap handleBytes ++ rest).length := by
        rw [List.length_append]
        omega
      dsimp only
      rw [if_neg hpos, if_neg hroom, if_neg hempty, readHandles_append, Option.bind_some]
      cases ((if stored then some hs.val else freeze hs.val).bind counted) with
      | none => rfl
      | some x => rfl

theorem readString_append (v : { bs : Bytes // bs.length < 2 ^ 64 }) (rest : Bytes) :
    readString (wordBytes 8 v.val.length ++ v.val ++ rest) = some (v, rest) := by
  unfold readString
  rw [List.append_assoc, readCount_append v.property, Option.bind_some]
  dsimp only
  rw [if_neg (by rw [List.length_append]; omega), List.take_left, List.drop_left, counted_eq]
  rfl

theorem readVector_append {size : ℕ} (hsize : 0 < size)
    (v : { items : List { bs : Bytes // bs.length = size } // items.length < 2 ^ 64 })
    (rest : Bytes) :
    readVector size (wordBytes 8 v.val.length ++ v.val.flatMap Subtype.val ++ rest)
      = some (v, rest) := by
  have hlength : v.val.length ≤ (v.val.flatMap Subtype.val).length :=
    length_le_flatMap (fun item => by rw [item.property]; exact hsize) v.val
  unfold readVector
  rw [List.append_assoc, readCount_append v.property, Option.bind_some]
  dsimp only
  rw [if_neg (by rw [List.length_append]; omega), readItems_append, Option.bind_some, counted_eq]
  rfl

mutual

/-- A value is loaded from where it was saved, and nothing behind it is read. -/
theorem load_save (stored : Bool) : (t : Ty) → t.small = true → (v : Val sizeOf t) →
    (rest : Bytes) →
    load sizeOf stored t (save sizeOf t v ++ rest) = (reload stored t v).map (·, rest)
  | .raw plain, _, v, rest => by
    simp only [load, save, reload]
    exact readRaw_append v rest
  | .string, _, v, rest => by
    simp only [load, save, reload]
    exact readString_append v rest
  | .vector item, _, v, rest => by
    simp only [load, save, reload]
    exact readVector_append (sizeOf item).pos v rest
  | .optional t, _, none, rest => by
    simp only [load, save, reload]
    rfl
  | .optional t, hsmall, some v, rest => by
    have hload := load_save stored t hsmall v rest
    simp only [load, save, reload]
    have hflag : readWord 1 (1 :: save sizeOf t v ++ rest) = some (1, save sizeOf t v ++ rest) :=
      @readWord_append 1 1 (by norm_num) (save sizeOf t v ++ rest)
    rw [hflag, Option.bind_some]
    dsimp only
    rw [if_neg (by norm_num), hload]
    cases reload stored t v with
    | none => rfl
    | some x => rfl
  | .variant ts, hsmall, v, rest => by
    simp only [load, save, reload]
    rw [Ty.small, Bool.and_eq_true, decide_eq_true_eq] at hsmall
    obtain ⟨index, hindex, body, hsave, hload⟩ := loadAlternative_save stored ts hsmall.2 v
    have hword : index < 256 ^ 4 := by
      norm_num at hsmall ⊢
      omega
    rw [hsave 0, Nat.zero_add, List.append_assoc, readWord_append hword]
    exact hload rest
  | .fields ts, hsmall, v, rest => by
    simp only [load, save, reload]
    exact loadFields_save stored ts hsmall v rest
  | .external, _, v, rest => by
    simp only [load]
    exact readExternal_append stored v rest
  | .refused t, hsmall, v, rest => by
    simp only [load, save, reload]
    exact load_save true t hsmall v rest

theorem loadFields_save (stored : Bool) : (ts : Tys) → ts.small = true → (v : Fields sizeOf ts) →
    (rest : Bytes) → loadFields sizeOf stored ts (saveFields sizeOf ts v ++ rest)
      = (reloadFields stored ts v).map (·, rest)
  | .nil, _, v, rest => rfl
  | .cons t ts, hsmall, v, rest => by
    rw [Tys.small, Bool.and_eq_true] at hsmall
    have hload := load_save stored t hsmall.1 v.1 (saveFields sizeOf ts v.2 ++ rest)
    have hrest := loadFields_save stored ts hsmall.2 v.2 rest
    simp only [loadFields, saveFields, reloadFields]
    rw [List.append_assoc, hload]
    cases reload stored t v.1 with
    | none => rfl
    | some x =>
      simp only [Option.map_some, Option.bind_some]
      rw [hrest]
      cases reloadFields stored ts v.2 with
      | none => rfl
      | some xs => rfl

theorem loadAlternative_save (stored : Bool) : (ts : Tys) → ts.small = true →
    (v : Alternative sizeOf ts) → ∃ index < ts.length, ∃ body,
      (∀ base, saveAlternative sizeOf ts base v = wordBytes 4 (base + index) ++ body) ∧
      ∀ rest, loadAlternative sizeOf stored ts index (body ++ rest)
        = (reloadAlternative stored ts v).map (·, rest)
  | .cons t ts, hsmall, .inl v => by
    rw [Tys.small, Bool.and_eq_true] at hsmall
    refine ⟨0, Nat.succ_pos _, save sizeOf t v, fun base => ?_, fun rest => ?_⟩
    · simp only [saveAlternative, Nat.add_zero]
    · simp only [loadAlternative, reloadAlternative]
      rw [load_save stored t hsmall.1 v rest]
      cases reload stored t v with
      | none => rfl
      | some x => rfl
  | .cons t ts, hsmall, .inr v => by
    rw [Tys.small, Bool.and_eq_true] at hsmall
    obtain ⟨index, hindex, body, hsave, hload⟩ := loadAlternative_save stored ts hsmall.2 v
    refine ⟨index + 1, Nat.succ_lt_succ hindex, body, fun base => ?_, fun rest => ?_⟩
    · simp only [saveAlternative]
      rw [hsave, Nat.add_right_comm, Nat.add_assoc]
    · simp only [loadAlternative, reloadAlternative]
      rw [hload]
      cases reloadAlternative stored ts v with
      | none => rfl
      | some x => rfl

end

/-! ## Which values come back -/

mutual

/-- The external lists of a value, and whether each is in a request that was refused. -/
def externals (stored : Bool) : (t : Ty) → Val sizeOf t → List (Bool × List RequestHandle)
  | .raw _, _ => []
  | .string, _ => []
  | .vector _, _ => []
  | .optional _, none => []
  | .optional t, some v => externals stored t v
  | .variant ts, v => externalsAlternative stored ts v
  | .fields ts, v => externalsFields stored ts v
  | .external, none => []
  | .external, some hs => [(stored, hs.val)]
  | .refused t, v => externals true t v

/-- The external lists of fields. -/
def externalsFields (stored : Bool) :
    (ts : Tys) → Fields sizeOf ts → List (Bool × List RequestHandle)
  | .nil, _ => []
  | .cons t ts, v => externals stored t v.1 ++ externalsFields stored ts v.2

/-- The external lists of an alternative. -/
def externalsAlternative (stored : Bool) : (ts : Tys) → Alternative sizeOf ts →
    List (Bool × List RequestHandle)
  | .cons t _, .inl v => externals stored t v
  | .cons _ ts, .inr v => externalsAlternative stored ts v

end

/-- A list comes back as it was: in a refused request when it is not empty, elsewhere when freezing
it changes nothing. -/
def ComesBack (list : Bool × List RequestHandle) : Prop :=
  list.2 ≠ [] ∧ (list.1 = false → freeze list.2 = some list.2)

theorem map_eq_some {α β : Type} {f : α → β} (hf : Function.Injective f) {x : Option α} {a : α} :
    x.map f = some (f a) ↔ x = some a :=
  (Option.map_injective hf).eq_iff (b := some a)

theorem counted_eq_some {α : Type} {xs : List α} {ys : { xs : List α // xs.length < 2 ^ 64 }} :
    counted xs = some ys ↔ xs = ys.val := by
  constructor
  · intro h
    unfold counted at h
    split at h
    · exact congrArg Subtype.val (Option.some.inj h)
    · cases h
  · rintro rfl
    exact counted_eq ys

theorem reload_external (stored : Bool) (v : Val sizeOf .external) :
    reload stored .external v = some v ↔ ∀ list ∈ externals stored .external v, ComesBack list := by
  cases v with
  | none => simp [reload, externals]
  | some hs =>
    simp only [reload, externals, List.mem_singleton, forall_eq]
    unfold ComesBack
    by_cases hempty : hs.val = []
    · rw [if_pos hempty]
      constructor
      · intro h
        cases h
      · intro h
        exact absurd hempty h.1
    · rw [if_neg hempty]
      refine (map_eq_some (Option.some_injective _)).trans ?_
      cases stored with
      | true =>
        rw [if_pos rfl, Option.bind_some, counted_eq]
        exact ⟨fun _ => ⟨hempty, fun h => absurd h Bool.noConfusion⟩, fun _ => rfl⟩
      | false =>
        rw [if_neg Bool.false_ne_true, Option.bind_eq_some_iff]
        constructor
        · rintro ⟨xs, hfreeze, hcounted⟩
          rw [counted_eq_some] at hcounted
          exact ⟨hempty, fun _ => hfreeze.trans (congrArg some hcounted)⟩
        · rintro ⟨-, hfreeze⟩
          exact ⟨hs.val, hfreeze rfl, counted_eq hs⟩

mutual

theorem reload_eq (stored : Bool) : (t : Ty) → (v : Val sizeOf t) →
    (reload stored t v = some v ↔ ∀ list ∈ externals stored t v, ComesBack list)
  | .raw _, v => by simp [reload, externals]
  | .string, v => by simp [reload, externals]
  | .vector _, v => by simp [reload, externals]
  | .optional _, none => by simp [reload, externals]
  | .optional t, some v => by
    have hv := reload_eq stored t v
    simp only [reload, externals]
    rw [← hv]
    exact map_eq_some (Option.some_injective _)
  | .variant ts, v => by
    simp only [reload, externals]
    exact reloadAlternative_eq stored ts v
  | .fields ts, v => by
    simp only [reload, externals]
    exact reloadFields_eq stored ts v
  | .external, v => reload_external stored v
  | .refused t, v => by
    simp only [reload, externals]
    exact reload_eq true t v

theorem reloadFields_eq (stored : Bool) : (ts : Tys) → (v : Fields sizeOf ts) →
    (reloadFields stored ts v = some v ↔ ∀ list ∈ externalsFields stored ts v, ComesBack list)
  | .nil, v => by
    simp only [reloadFields, externalsFields]
    exact ⟨fun _ list hlist => absurd hlist List.not_mem_nil, fun _ => rfl⟩
  | .cons t ts, v => by
    have hv := reload_eq stored t v.1
    have hvs := reloadFields_eq stored ts v.2
    simp only [reloadFields, externalsFields, List.mem_append, or_imp, forall_and]
    rw [← hv, ← hvs, Option.bind_eq_some_iff]
    constructor
    · rintro ⟨x, hx, hmap⟩
      obtain ⟨xs, hxs, heq⟩ := Option.map_eq_some_iff.mp hmap
      subst heq
      exact ⟨hx, hxs⟩
    · rintro ⟨hx, hxs⟩
      exact ⟨v.1, hx, Option.map_eq_some_iff.mpr ⟨v.2, hxs, rfl⟩⟩

theorem reloadAlternative_eq (stored : Bool) : (ts : Tys) → (v : Alternative sizeOf ts) →
    (reloadAlternative stored ts v = some v ↔
      ∀ list ∈ externalsAlternative stored ts v, ComesBack list)
  | .cons t ts, .inl v => by
    have hv := reload_eq stored t v
    simp only [reloadAlternative, externalsAlternative]
    rw [← hv]
    exact map_eq_some Sum.inl_injective
  | .cons t ts, .inr v => by
    have hv := reloadAlternative_eq stored ts v
    simp only [reloadAlternative, externalsAlternative]
    rw [← hv]
    exact map_eq_some Sum.inr_injective

end

/-! ## Frozen lists -/

theorem freeze_eq_some {hs sorted : List RequestHandle} (h : freeze hs = some sorted) :
    sorted = hs.mergeSort (fun g h => decide (g.incarnation ≤ h.incarnation)) ∧ sorted ≠ [] ∧
      (sorted.map RequestHandle.incarnation).Nodup ∧
      ∃ run, ∀ g ∈ sorted, g.incarnation ≠ 0 ∧ g.run = run := by
  unfold freeze at h
  cases hs with
  | nil => cases h
  | cons first rest =>
    dsimp only at h
    split at h
    next hall =>
      split at h
      next hnodup =>
        cases h
        have hperm := List.mergeSort_perm (first :: rest)
          (fun g h => decide (g.incarnation ≤ h.incarnation))
        refine ⟨rfl, fun hnil => ?_, hnodup, first.run, fun g hg => ?_⟩
        · rw [hnil] at hperm
          cases hperm.symm.eq_nil
        · exact of_decide_eq_true (List.all_eq_true.mp hall g (hperm.mem_iff.mp hg))
      next => cases h
    next => cases h

theorem freeze_freeze {hs sorted : List RequestHandle} (h : freeze hs = some sorted) :
    freeze sorted = some sorted := by
  obtain ⟨hsort, hne, hnodup, run, hrun⟩ := freeze_eq_some h
  have hpairwise : sorted.Pairwise fun g h => decide (g.incarnation ≤ h.incarnation) = true := by
    rw [hsort]
    apply List.pairwise_mergeSort
    · intro a b c hab hbc
      exact decide_eq_true ((of_decide_eq_true hab).trans (of_decide_eq_true hbc))
    · intro a b
      rw [Bool.or_eq_true, decide_eq_true_eq, decide_eq_true_eq]
      exact le_total a.incarnation b.incarnation
  have hagain := List.mergeSort_of_pairwise hpairwise
  cases sorted with
  | nil => exact absurd rfl hne
  | cons first rest =>
    have hall : ((first :: rest).all fun h => h.incarnation ≠ 0 ∧ h.run = first.run) = true := by
      apply List.all_eq_true.mpr
      intro g hg
      have hfirst := (hrun first List.mem_cons_self).2
      exact decide_eq_true ⟨(hrun g hg).1, (hrun g hg).2.trans hfirst.symm⟩
    unfold freeze
    dsimp only
    rw [if_pos hall, hagain, if_pos hnodup]

/-- What the core accepts it has frozen, so that only a refused request holds a list as it was
given. -/
def FrozenWhereAccepted (t : Ty) (v : Val sizeOf t) : Prop :=
  ∀ hs, (false, hs) ∈ externals false t v → ∃ given, freeze given = some hs

theorem comesBack_iff {t : Ty} {v : Val sizeOf t} (hfrozen : FrozenWhereAccepted t v) :
    (∀ list ∈ externals false t v, ComesBack list) ↔ (true, []) ∉ externals false t v := by
  constructor
  · intro hback hmem
    exact (hback _ hmem).1 rfl
  · rintro hmem ⟨stored, hs⟩ hlist
    cases stored with
    | true => exact ⟨fun hnil => hmem (hnil ▸ hlist), fun h => absurd h Bool.noConfusion⟩
    | false =>
      obtain ⟨given, hgiven⟩ := hfrozen hs hlist
      exact ⟨(freeze_eq_some hgiven).2.1, fun _ => freeze_freeze hgiven⟩

theorem load_save_eq_iff {t : Ty} (hsmall : t.small = true) {v : Val sizeOf t}
    (hfrozen : FrozenWhereAccepted t v) (rest : Bytes) :
    load sizeOf false t (save sizeOf t v ++ rest) = some (v, rest)
      ↔ (true, []) ∉ externals false t v := by
  rw [load_save false t hsmall v rest, ← comesBack_iff hfrozen, ← reload_eq false t v]
  exact @map_eq_some _ _ (fun x => (x, rest)) (fun _ _ h => (Prod.mk.inj h).1) (reload false t v) v

end

end PineForge.Journal
