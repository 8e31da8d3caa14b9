import Mathlib
import PineForge.Machine.Runs
import PineForge.Series.Rings

/-!
# Runs of windows and rings

A program's windows and rings, with the operations on them. What an object is after a run is said by
`contents`, which knows of values only: neither pages, nor files, nor caches. Every object of every
run reads as it says.
-/

namespace PineForge.Series

variable {T : Type}

/-- What an object is: a cell of a window is unknown once its page is retired. -/
inductive Shape (T : Type) where
  | window (size : ℕ) (cells : ℕ → Option T)
  | ring (capacity : ℕ) (pushes : List T)
  /-- A ring with values whose window was moved away. -/
  | spent (capacity : ℕ)

/-- The windows, and for those in a ring what the ring has besides. -/
structure Scope (T : Type) where
  world : World T
  rings : ℕ → Option Ring

/-- The calls on owners. -/
inductive Event (T : Type) where
  | construct (capacity size : ℕ) (initial : T)
  | ring (capacity cachePages : ℕ)
  | copy (o : ℕ)
  | assign (o p : ℕ)
  | move (p : ℕ)
  | moveAssign (o p : ℕ)
  | destroy (o : ℕ)
  | reset (o size : ℕ) (initial : T)
  | write (o index : ℕ) (x : T)
  | read (o index : ℕ)
  | retire (o page : ℕ)
  | push (o : ℕ) (x : T)
  | update (o : ℕ) (x : T)
  | get (o offset : ℕ)
  | clear (o : ℕ)
  | resize (o capacity : ℕ)

/-- A ring that was moved from is not used before it is assigned or cleared. -/
def Ring.Usable (w : World T) (o : ℕ) (r : Ring) : Prop := r.size = 0 ∨ (w.owners o).size ≠ 0

/-- An operation that returns. Only a size that is not representable is refused. -/
inductive Step [Inhabited T] : Scope T → Event T → Scope T → Prop
  | construct {w w' : World T} {rings capacity size initial} :
    (w.construct capacity).reset w.count size initial = some w' →
    Step ⟨w, rings⟩ (.construct capacity size initial) ⟨w', Function.update rings w.count none⟩
  | ring {w : World T} {rings capacity cachePages} :
    Step ⟨w, rings⟩ (.ring capacity cachePages)
      ⟨w.construct cachePages, Function.update rings w.count (some { capacity := capacity })⟩
  | copy {w : World T} {rings o} : o < w.count →
    Step ⟨w, rings⟩ (.copy o) ⟨w.copy o, Function.update rings w.count (rings o)⟩
  | assign {w : World T} {rings o p} : o < w.count → p < w.count → (rings o).isSome
    = (rings p).isSome →
    Step ⟨w, rings⟩ (.assign o p) ⟨w.assign o p, Function.update rings o (rings p)⟩
  | move {w : World T} {rings p} : p < w.count →
    Step ⟨w, rings⟩ (.move p) ⟨w.move p, Function.update rings w.count (rings p)⟩
  | moveAssign {w : World T} {rings o p} : o < w.count → p < w.count → (rings o).isSome
    = (rings p).isSome →
    Step ⟨w, rings⟩ (.moveAssign o p) ⟨w.moveAssign o p, Function.update rings o (rings p)⟩
  | destroy {w : World T} {rings o} : o < w.count →
    Step ⟨w, rings⟩ (.destroy o) ⟨w.destroy o, rings⟩
  | reset {w w' : World T} {rings o size initial} : o < w.count → rings o = none →
    w.reset o size initial = some w' →
    Step ⟨w, rings⟩ (.reset o size initial) ⟨w', rings⟩
  | write {w w' : World T} {rings o index x} : o < w.count → rings o = none →
    index < (w.owners o).size →
    w.write o index x = some w' → Step ⟨w, rings⟩ (.write o index x) ⟨w', rings⟩
  | read {w w' : World T} {rings o index allocates x} : o < w.count → rings o = none →
    index < (w.owners o).size →
    w.read allocates o index = some (x, w') → Step ⟨w, rings⟩ (.read o index) ⟨w', rings⟩
  | retire {w w' : World T} {rings o page} : o < w.count → rings o = none →
    page < (w.owners o).pageCount →
    w.retirePage o page = some w' → Step ⟨w, rings⟩ (.retire o page) ⟨w', rings⟩
  | push {w w' : World T} {rings o x r r'} : o < w.count → rings o = some r → r.Usable w o →
    r.pushFront o x w = some (r', w') →
      Step ⟨w, rings⟩ (.push o x) ⟨w', Function.update rings o (some r')⟩
  | update {w w' : World T} {rings o x r r'} : o < w.count → rings o = some r → r.Usable w o →
    r.updateFront o x w = some (r', w') →
      Step ⟨w, rings⟩ (.update o x) ⟨w', Function.update rings o (some r')⟩
  | get {w w' : World T} {rings o offset allocates x r} : o < w.count → rings o = some r →
    r.Usable w o →
    r.at_ allocates o offset w = some (x, w') → Step ⟨w, rings⟩ (.get o offset) ⟨w', rings⟩
  | clear {w w' : World T} {rings o r r'} : o < w.count → rings o = some r →
    r.clear o w = some (r', w') → Step ⟨w, rings⟩ (.clear o) ⟨w', Function.update rings o (some r')⟩
  | resize {w w' : World T} {rings o capacity allocates r r'} : o < w.count → rings o = some r →
    r.Usable w o →
    r.resize allocates o capacity w = some (r', w') →
    Step ⟨w, rings⟩ (.resize o capacity) ⟨w', Function.update rings o (some r')⟩

/-! ## Values only -/

namespace Shape

/-- What a move leaves. -/
def moved : Shape T → Shape T
  | window _ _ => window 0 fun _ => none
  | ring capacity [] => ring capacity []
  | ring capacity (_ :: _) => spent capacity
  | spent capacity => spent capacity

/-- A cell is written. -/
def written (index : ℕ) (x : T) : Shape T → Shape T
  | window size cells => window size (Function.update cells index (some x))
  | other => other

/-- A page's cells are unspecified. -/
def retired (page : ℕ) : Shape T → Shape T
  | window size cells => window size fun i => if i / chunk = page then none else cells i
  | other => other

/-- A value is pushed. -/
def pushed (x : T) : Shape T → Shape T
  | ring capacity pushes => ring capacity ((x :: pushes).take capacity)
  | other => other

/-- The front value is replaced. -/
def updated (x : T) : Shape T → Shape T
  | ring capacity pushes => ring capacity (Ring.updated capacity x pushes)
  | other => other

/-- The pushes are forgotten. -/
def cleared : Shape T → Shape T
  | window size cells => window size cells
  | ring capacity _ => ring capacity []
  | spent capacity => ring capacity []

/-- The capacity changes. -/
def resized (capacity : ℕ) : Shape T → Shape T
  | ring _ pushes => ring capacity (pushes.take capacity)
  | other => other

end Shape

/-- The objects as values. -/
structure Plain (T : Type) where
  count : ℕ := 0
  shapes : ℕ → Shape T := fun _ => .window 0 fun _ => none

namespace Plain

/-- One more owner. -/
def add (shape : Shape T) (p : Plain T) : Plain T where
  count := p.count + 1
  shapes := Function.update p.shapes p.count shape

/-- An owner with another shape. -/
def set (o : ℕ) (shape : Shape T) (p : Plain T) : Plain T :=
  { p with shapes := Function.update p.shapes o shape }

/-- What a call does to the values. -/
def apply (p : Plain T) : Event T → Plain T
  | .construct _ size initial => p.add (.window size fun _ => some initial)
  | .ring capacity _ => p.add (.ring capacity [])
  | .copy o => p.add (p.shapes o)
  | .assign o q => p.set o (p.shapes q)
  | .move q => (p.add (p.shapes q)).set q (p.shapes q).moved
  | .moveAssign o q => if o = q then p else (p.set o (p.shapes q)).set q (p.shapes q).moved
  | .destroy o => p.set o (p.shapes o).moved
  | .reset o size initial => p.set o (.window size fun _ => some initial)
  | .write o index x => p.set o ((p.shapes o).written index x)
  | .read _ _ => p
  | .retire o page => p.set o ((p.shapes o).retired page)
  | .push o x => p.set o ((p.shapes o).pushed x)
  | .update o x => p.set o ((p.shapes o).updated x)
  | .get _ _ => p
  | .clear o => p.set o (p.shapes o).cleared
  | .resize o capacity => p.set o ((p.shapes o).resized capacity)

end Plain

/-- The values after calls. -/
def contents (events : List (Event T)) : Plain T := events.foldl Plain.apply {}

theorem contents_concat (events : List (Event T)) (e : Event T) :
    contents (events ++ [e]) = (contents events).apply e := by
  rw [contents, List.foldl_append]
  rfl

/-! ## Objects show what they are -/

/-- The window and the ring of an object, against what it is. -/
def Shown (w : World T) (ring : Option Ring) (o : ℕ) : Shape T → Prop
  | .window size cells => ring = none ∧ (w.owners o).size = size ∧
    ∀ i x, i < size → cells i = some x → w.value o i = x
  | .ring capacity pushes => ∃ r, ring = some r ∧ r.capacity = capacity ∧ r.Shows w o pushes
  | .spent capacity => ∃ r, ring = some r ∧ r.capacity = capacity ∧ r.size ≠ 0 ∧
    (w.owners o).size = 0

/-- Every owner reads its values. -/
structure Stands (s : Scope T) (p : Plain T) : Prop where
  sound : s.world.Sound
  count : s.world.count = p.count
  shown : ∀ o, o < p.count → Shown s.world (s.rings o) o (p.shapes o)

variable {w w' : World T} {rings : ℕ → Option Ring} {p : Plain T} {o q : ℕ} {ring : Option Ring}
    {shape : Shape T}

theorem Shown.congr (h : Shown w ring o shape) (hsize : (w'.owners q).size = (w.owners o).size)
    (hvalue : w'.value q = w.value o) : Shown w' ring q shape := by
  cases shape with
  | window size cells =>
    obtain ⟨hring, hold, hcells⟩ := h
    refine ⟨hring, hsize.trans hold, ?_⟩
    rw [hvalue]
    exact hcells
  | ring capacity pushes =>
    obtain ⟨r, hring, hcapacity, hr⟩ := h
    refine ⟨r, hring, hcapacity, hr.size, hr.le, ?_, hr.head, ?_⟩
    · rw [hsize]
      exact hr.window
    · rw [hvalue]
      exact hr.values
  | spent capacity =>
    obtain ⟨r, hring, hcapacity, hr, hempty⟩ := h
    exact ⟨r, hring, hcapacity, hr, hsize.trans hempty⟩

theorem Stands.at_ (h : Stands ⟨w, rings⟩ p) (ho : o < w.count) (hring : rings o = ring) :
    Shown w ring o (p.shapes o) := by
  rw [← hring]
  exact h.shown o (h.count ▸ ho)

theorem Shown.moved (h : Shown w ring o shape) (hempty : (w'.owners q).size = 0) :
    Shown w' ring q shape.moved := by
  cases shape with
  | window size cells => exact ⟨h.1, hempty, fun i x hi => absurd hi (Nat.not_lt_zero i)⟩
  | ring capacity pushes =>
    obtain ⟨r, hring, hcapacity, hr⟩ := h
    cases pushes with
    | nil => exact ⟨r, hring, hcapacity, hr.size, hr.le, Or.inr ⟨rfl, hempty⟩, hr.head,
      fun k x hx => nomatch hx⟩
    | cons x rest => exact ⟨r, hring, hcapacity, by rw [hr.size]; exact Nat.succ_ne_zero _, hempty⟩
  | spent capacity =>
    obtain ⟨r, hring, hcapacity, hr, -⟩ := h
    exact ⟨r, hring, hcapacity, hr, hempty⟩

theorem Stands.touch (h : Stands ⟨w, rings⟩ p) (htouches : Touches w w' o)
    (hself : o < p.count → Shown w' ring o shape) :
    Stands ⟨w', Function.update rings o ring⟩ (p.set o shape) := by
  have hcount := h.count
  refine ⟨htouches.sound, htouches.count.trans hcount, fun q hq => ?_⟩
  dsimp only [Plain.set]
  by_cases hqo : q = o
  · subst hqo
    rw [Function.update_self, Function.update_self]
    exact hself hq
  · have hqw : q < w.count := hcount ▸ hq
    rw [Function.update_of_ne hqo, Function.update_of_ne hqo]
    exact (h.shown q hq).congr (by rw [htouches.owner q hqw hqo]) (htouches.value q hqw hqo)

theorem Stands.touch_window (h : Stands ⟨w, rings⟩ p) (htouches : Touches w w' o)
    (hself : o < p.count → Shown w' (rings o) o shape) : Stands ⟨w', rings⟩ (p.set o shape) := by
  have := h.touch htouches hself
  rwa [Function.update_eq_self] at this

theorem Stands.look (h : Stands ⟨w, rings⟩ p) (htouches : Touches w w' o)
    (hsize : (w'.owners o).size = (w.owners o).size) (hvalue : w'.value o = w.value o) :
    Stands ⟨w', rings⟩ p := by
  have := h.touch_window htouches fun ho => (h.shown o ho).congr hsize hvalue
  rwa [Plain.set, Function.update_eq_self] at this

theorem Stands.add (h : Stands ⟨w, rings⟩ p) (hsound : w'.Sound) (hcount : w'.count = w.count + 1)
    (hsize : ∀ q, q < w.count → (w'.owners q).size = (w.owners q).size)
    (hvalue : ∀ q, q < w.count → w'.value q = w.value q)
    (hself : Shown w' ring w.count shape) :
    Stands ⟨w', Function.update rings w.count ring⟩ (p.add shape) := by
  have hold := h.count
  refine ⟨hsound, by rw [hcount, Plain.add]; exact congrArg (· + 1) hold, fun q hq => ?_⟩
  dsimp only [Plain.add] at hq ⊢
  have hlast : p.count = w.count := hold.symm
  by_cases hqo : q = w.count
  · rw [hqo, hlast, Function.update_self, Function.update_self]
    exact hself
  · have hqw : q < w.count := by omega
    rw [hlast, Function.update_of_ne hqo, Function.update_of_ne hqo]
    exact (h.shown q (hlast ▸ hqw)).congr (hsize q hqw) (hvalue q hqw)

theorem Stands.destroy (h : Stands ⟨w, rings⟩ p) (o : ℕ) :
    Stands ⟨w.destroy o, rings⟩ (p.set o (p.shapes o).moved) := by
  obtain ⟨htouches, hempty⟩ := destroy_spec h.sound o
  exact h.touch_window htouches fun ho => (h.shown o ho).moved hempty

theorem Stands.assign (h : Stands ⟨w, rings⟩ p) (o : ℕ) (hq : q < w.count) :
    Stands ⟨w.assign o q, Function.update rings o (rings q)⟩ (p.set o (p.shapes q)) := by
  obtain ⟨htouches, hsize, hvalue⟩ := assign_spec h.sound hq
  exact h.touch htouches fun _ => (h.shown q (h.count ▸ hq)).congr hsize hvalue

theorem Stands.copy (h : Stands ⟨w, rings⟩ p) (ho : o < w.count) :
    Stands ⟨w.copy o, Function.update rings w.count (rings o)⟩ (p.add (p.shapes o)) := by
  obtain ⟨hadded, hsize, hvalue⟩ := copy_spec h.sound ho
  exact h.add hadded.sound hadded.count (fun q hq => by rw [hadded.owner q hq]) hadded.value
    ((h.shown o (h.count ▸ ho)).congr hsize hvalue)

theorem Stands.moveAssign (h : Stands ⟨w, rings⟩ p) (o : ℕ) (hq : q < w.count) (hne : o ≠ q) :
    Stands ⟨w.moveTo o q, Function.update rings o (rings q)⟩
      ((p.set o (p.shapes q)).set q (p.shapes q).moved) := by
  have hshape : (p.set o (p.shapes q)).shapes q = p.shapes q := Function.update_of_ne hne.symm ..
  have hdone := (h.assign o hq).destroy q
  rw [hshape] at hdone
  rw [moveTo_eq hne]
  exact hdone

theorem Stands.move (h : Stands ⟨w, rings⟩ p) (hq : q < w.count) :
    Stands ⟨w.move q, Function.update rings w.count (rings q)⟩
      ((p.add (p.shapes q)).set q (p.shapes q).moved) := by
  have hshape : (p.add (p.shapes q)).shapes q = p.shapes q := by
    refine Function.update_of_ne ?_ ..
    rw [← h.count]
    exact hq.ne
  have hdone := (h.copy hq).destroy q
  rw [hshape] at hdone
  rw [move_eq hq]
  exact hdone

theorem Stands.reset (h : Stands ⟨w, rings⟩ p) {size : ℕ} {initial : T} (hring : rings o = none)
    (hreset : w.reset o size initial = some w') :
    Stands ⟨w', rings⟩ (p.set o (.window size fun _ => some initial)) := by
  obtain ⟨htouches, hsize, -, hvalue⟩ := reset_spec h.sound hreset
  refine h.touch_window htouches fun _ => ⟨hring, hsize, fun i x _ hx => ?_⟩
  rw [hvalue, Option.some.inj hx]

/-! ## What the kinds of objects are -/

theorem Shown.window (h : Shown w none o shape) : ∃ cells, shape = .window (w.owners o).size cells ∧
    ∀ i x, i < (w.owners o).size → cells i = some x → w.value o i = x := by
  cases shape with
  | window size cells =>
    obtain ⟨-, rfl, hcells⟩ := h
    exact ⟨cells, rfl, hcells⟩
  | ring capacity pushes =>
    obtain ⟨r, hring, -⟩ := h
    exact nomatch hring
  | spent capacity =>
    obtain ⟨r, hring, -⟩ := h
    exact nomatch hring

theorem Shown.usable {r : Ring} (h : Shown w (some r) o shape) (husable : r.Usable w o) :
    ∃ pushes, shape = .ring r.capacity pushes ∧ r.Shows w o pushes := by
  cases shape with
  | window size cells => exact nomatch h.1
  | ring capacity pushes =>
    obtain ⟨s, hring, rfl, hs⟩ := h
    obtain rfl := Option.some.inj hring
    exact ⟨pushes, rfl, hs⟩
  | spent capacity =>
    obtain ⟨s, hring, -, hs, hempty⟩ := h
    obtain rfl := Option.some.inj hring
    exact absurd husable (not_or.mpr ⟨hs, not_not.mpr hempty⟩)

theorem Shown.cleared {r r' : Ring} (h : Shown w (some r) o shape)
    (hcapacity : r'.capacity = r.capacity)
    (hr : r'.Shows w' o ([] : List T)) : Shown w' (some r') o shape.cleared := by
  cases shape with
  | window size cells => exact nomatch h.1
  | ring capacity pushes =>
    obtain ⟨s, hring, rfl, -⟩ := h
    obtain rfl := Option.some.inj hring
    exact ⟨r', rfl, hcapacity, hr⟩
  | spent capacity =>
    obtain ⟨s, hring, rfl, -⟩ := h
    obtain rfl := Option.some.inj hring
    exact ⟨r', rfl, hcapacity, hr⟩

/-- A step keeps what the values stand for. -/
theorem step_stands [Inhabited T] {s t : Scope T} {e : Event T} (hstep : Step s e t)
    (h : Stands s p) :
    Stands t (p.apply e) := by
  cases hstep with
  | @construct w w' rings capacity size initial hreset =>
    obtain ⟨hadded, hempty⟩ := construct_spec h.sound capacity
    obtain ⟨htouches, hsize, -, hvalue⟩ := reset_spec hadded.sound hreset
    have hlt : ∀ q, q < w.count → q < (w.construct capacity).count := fun q hq => by
      rw [hadded.count]
      exact Nat.lt_succ_of_lt hq
    refine h.add htouches.sound (htouches.count.trans hadded.count) (fun q hq => ?_)
      (fun q hq => ?_)
      ⟨rfl, hsize, fun i x _ hx => ?_⟩
    · rw [htouches.owner q (hlt q hq) hq.ne, hadded.owner q hq]
    · rw [htouches.value q (hlt q hq) hq.ne, hadded.value q hq]
    · rw [hvalue, Option.some.inj hx]
  | @ring w rings capacity cachePages =>
    obtain ⟨hadded, hempty⟩ := construct_spec h.sound cachePages
    refine h.add hadded.sound hadded.count (fun q hq => by rw [hadded.owner q hq]) hadded.value
      ⟨_, rfl, rfl, rfl, Nat.zero_le _, Or.inr ⟨rfl, hempty⟩, fun habsurd => absurd rfl habsurd,
        fun k x hx => nomatch hx⟩
  | copy ho => exact h.copy ho
  | assign ho hq _ => exact h.assign _ hq
  | move hq => exact h.move hq
  | @moveAssign w rings o q ho hq _ =>
    by_cases hsame : o = q
    · subst hsame
      simp only [World.moveAssign, Plain.apply, if_true, Function.update_eq_self]
      exact h
    · simp only [World.moveAssign, Plain.apply, if_neg hsame]
      exact h.moveAssign o hq hsame
  | destroy ho => exact h.destroy _
  | reset ho hring hreset => exact h.reset hring hreset
  | @write w w' rings o index x ho hring hindex hwrite =>
    obtain ⟨cells, hshape, hcells⟩ := Shown.window (h.at_ ho hring)
    obtain ⟨done, hreturns, hwrote⟩ := write_spec h.sound ho hindex x
    obtain rfl := Option.some.inj (hwrite.symm.trans hreturns)
    refine h.touch_window hwrote.touches fun _ => ?_
    rw [hshape, hring]
    refine ⟨rfl, hwrote.size, fun i y hi hy => ?_⟩
    by_cases hsame : i = index
    · rw [hsame, Function.update_self] at hy
      rw [hsame, ← Option.some.inj hy]
      exact hwrote.self
    · rw [Function.update_of_ne hsame] at hy
      rw [hwrote.rest i hi hsame]
      exact hcells i y hi hy
  | @read w w' rings o index allocates x ho hring hindex hread =>
    obtain ⟨done, hreturns, htouches, hsize, -, hvalue⟩ := read_spec h.sound ho hindex allocates
    obtain ⟨-, rfl⟩ := Prod.mk.inj (Option.some.inj (hread.symm.trans hreturns))
    exact h.look htouches hsize hvalue
  | @retire w w' rings o page ho hring hpage hretire =>
    obtain ⟨cells, hshape, hcells⟩ := Shown.window (h.at_ ho hring)
    obtain ⟨done, hreturns, htouches, hsize, hvalue⟩ := retirePage_spec h.sound ho hpage
    obtain rfl := Option.some.inj (hretire.symm.trans hreturns)
    refine h.touch_window htouches fun _ => ?_
    rw [hshape, hring]
    refine ⟨rfl, hsize, fun i y hi hy => ?_⟩
    dsimp only at hy
    split_ifs at hy with hpaged
    rw [hvalue i hpaged]
    exact hcells i y hi hy
  | @push w w' rings o x r r' ho hring husable hpush =>
    obtain ⟨pushes, hshape, hr⟩ := Shown.usable (h.at_ ho hring) husable
    obtain ⟨htouches, hcapacity, hshows⟩ := Ring.pushFront_spec h.sound ho hr hpush
    refine h.touch htouches fun _ => ?_
    rw [hshape]
    exact ⟨r', rfl, hcapacity, hshows⟩
  | @update w w' rings o x r r' ho hring husable hupdate =>
    obtain ⟨pushes, hshape, hr⟩ := Shown.usable (h.at_ ho hring) husable
    obtain ⟨htouches, hcapacity, hshows⟩ := Ring.updateFront_spec h.sound ho hr hupdate
    refine h.touch htouches fun _ => ?_
    rw [hshape]
    exact ⟨r', rfl, hcapacity, hshows⟩
  | @get w w' rings o offset allocates x r ho hring husable hget =>
    obtain ⟨pushes, -, hr⟩ := Shown.usable (h.at_ ho hring) husable
    obtain ⟨done, hreturns, htouches, hsize, -, hvalue⟩ :=
      Ring.at_spec h.sound ho hr allocates offset
    obtain ⟨-, rfl⟩ := Prod.mk.inj (Option.some.inj (hget.symm.trans hreturns))
    exact h.look htouches hsize hvalue
  | @clear w w' rings o r r' ho hring hclear =>
    obtain ⟨htouches, hcapacity, hshows⟩ := Ring.clear_spec h.sound hclear
    exact h.touch htouches fun ho => Shown.cleared (h.at_ (h.count ▸ ho) hring) hcapacity hshows
  | @resize w w' rings o capacity allocates r r' ho hring husable hresize =>
    obtain ⟨pushes, hshape, hr⟩ := Shown.usable (h.at_ ho hring) husable
    obtain ⟨htouches, hcapacity, hshows⟩ := Ring.resize_spec h.sound ho hr hresize
    refine h.touch htouches fun _ => ?_
    rw [hshape]
    exact ⟨r', rfl, hcapacity, hshows⟩

section

variable [Inhabited T]

theorem runs_stand {start s : Scope T} {events : List (Event T)} (hstart : start.world.count = 0)
    (h : Runs Step start events s) : Stands s (contents events) := by
  induction h with
  | nil =>
    refine ⟨fun o ho => ?_, hstart, fun o ho => absurd ho (Nat.not_lt_zero o)⟩
    rw [hstart] at ho
    exact absurd ho (Nat.not_lt_zero o)
  | snoc _ hstep ih =>
    rw [contents_concat]
    exact step_stands hstep ih

/-- What reading an object gives, whatever the allocator answers. -/
def Shape.Reads (s : Scope T) (o : ℕ) : Shape T → Prop
  | .window size cells => s.rings o = none ∧ (s.world.owners o).size = size ∧
    ∀ index, index < size → ∀ allocates,
    ∃ x w', s.world.read allocates o index = some (x, w') ∧ ∀ y, cells index = some y → x = y
  | .ring capacity pushes => ∃ r, s.rings o = some r ∧ r.capacity = capacity ∧
    r.size = pushes.length ∧
    ∀ offset allocates, ∃ w', r.at_ allocates o offset s.world
      = some ((pushes[offset]?).getD na, w')
  | .spent _ => True

theorem Shown.reads {s : Scope T} (h : Shown s.world (s.rings o) o shape) (hsound : s.world.Sound)
    (ho : o < s.world.count) : shape.Reads s o := by
  cases shape with
  | window size cells =>
    obtain ⟨hring, rfl, hcells⟩ := h
    refine ⟨hring, rfl, fun index hindex allocates => ?_⟩
    obtain ⟨w', hread, -⟩ := read_spec hsound ho hindex allocates
    exact ⟨_, w', hread, fun y hy => hcells index y hindex hy⟩
  | ring capacity pushes =>
    obtain ⟨r, hring, hcapacity, hr⟩ := h
    refine ⟨r, hring, hcapacity, hr.size, fun offset allocates => ?_⟩
    obtain ⟨w', hread, -⟩ := Ring.at_spec hsound ho hr allocates offset
    exact ⟨w', hread⟩
  | spent capacity => exact trivial

/-- Whatever is resident, spilled, cached or shared, each window reads at each index the last value
written through it or inherited at its copy, and each ring has its newest pushes, the newest first,
and `na` behind them. -/
theorem values_independent {start s : Scope T} {events : List (Event T)}
    (hstart : start.world.count = 0)
    (h : Runs Step start events s) : s.world.count = (contents events).count ∧
      ∀ o, o < s.world.count → ((contents events).shapes o).Reads s o := by
  have hstands := runs_stand hstart h
  exact ⟨hstands.count, fun o ho => (hstands.shown o (hstands.count ▸ ho)).reads hstands.sound ho⟩

end

/-! A ring whose window is spilled and not cached is copied, and pushed on after that. -/

/-- No owners. -/
def emptyScope : Scope ℕ where
  world := { arithmetic := true, valueBytes := 8,
             owners := fun _ => { capacity := 0, initial := 0 }, count := 0
             pages := fun _ _ => 0, nextPage := 0, files := fun _ _ => 0, nextFile := 0 }
  rings := fun _ => none

/-- One owner. -/
def started : World ℕ := emptyScope.world.construct 0

/-- After one push. -/
def pushedOnce : Ring × World ℕ :=
  (Ring.pushFront 0 5 { capacity := 2 } started).getD ({ capacity := 0 }, started)

/-- After a copy and a push. -/
def pushedTwice : Ring × World ℕ :=
  (pushedOnce.1.pushFront 0 6 (pushedOnce.2.copy 0)).getD ({ capacity := 0 }, started)

/-- The rings at first. -/
def ringsAtFirst : ℕ → Option Ring := Function.update emptyScope.rings 0 (some { capacity := 2 })

/-- After the push. -/
def ringsOnce : ℕ → Option Ring := Function.update ringsAtFirst 0 (some pushedOnce.1)

/-- After the copy. -/
def ringsCopied : ℕ → Option Ring := Function.update ringsOnce pushedOnce.2.count (ringsOnce 0)

theorem eq_some_getD {α : Type} {x : Option α} (h : x.isSome = true) (d : α) :
    x = some (x.getD d) := by
  obtain ⟨y, rfl⟩ := Option.isSome_iff_exists.mp h
  rfl

theorem values_independent_copied : ∃ s : Scope ℕ,
    Runs Step emptyScope ([] ++ [.ring 2 0] ++ [.push 0 5] ++ [.copy 0] ++ [.push 0 6]) s ∧
      (Shape.ring 2 [6, 5]).Reads s 0 ∧ (Shape.ring 2 [5]).Reads s 1 := by
  have hfirst : Ring.pushFront 0 5 { capacity := 2 } started = some pushedOnce :=
    eq_some_getD (by decide +kernel) _
  have hsecond : pushedOnce.1.pushFront 0 6 (pushedOnce.2.copy 0) = some pushedTwice :=
    eq_some_getD (by decide +kernel) _
  have hone : pushedOnce.2.count = 1 := by decide +kernel
  have htwo : pushedTwice.2.count = 2 := by decide +kernel
  have hsize : ((pushedOnce.2.copy 0).owners 0).size ≠ 0 := by decide +kernel
  have hcopied : ringsCopied 0 = some pushedOnce.1 := by
    rw [ringsCopied, hone, Function.update_of_ne (by decide), ringsOnce, Function.update_self]
  have hring : Step emptyScope (.ring 2 0) ⟨started, ringsAtFirst⟩ := .ring
  have hpush : Step ⟨started, ringsAtFirst⟩ (.push 0 5) ⟨pushedOnce.2, ringsOnce⟩ :=
    .push Nat.one_pos (Function.update_self ..) (Or.inl rfl) hfirst
  have hcopy : Step ⟨pushedOnce.2, ringsOnce⟩ (.copy 0) ⟨pushedOnce.2.copy 0, ringsCopied⟩ :=
    .copy (by rw [hone]; exact Nat.one_pos)
  have hagain : Step ⟨pushedOnce.2.copy 0, ringsCopied⟩ (.push 0 6)
      ⟨pushedTwice.2, Function.update ringsCopied 0 (some pushedTwice.1)⟩ :=
    .push (Nat.succ_pos _) hcopied (Or.inr hsize) hsecond
  have hrun := Runs.snoc (.snoc (.snoc (.snoc .nil hring) hpush) hcopy) hagain
  have hreads := (values_independent rfl hrun).2
  exact ⟨_, hrun, hreads 0 (by rw [htwo]; decide), hreads 1 (by rw [htwo]; decide)⟩

end PineForge.Series
