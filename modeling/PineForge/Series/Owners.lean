import Mathlib
import PineForge.Series.Values

/-!
# Windows are values

What a window shows is in its own pages or file, or in those it shares: a write goes to a page or a
file that no other window points at. The lines of its cache are of its file. `Touches w w' o`: an
operation on one window changed what the others show in nothing.
-/

namespace PineForge.Series

open Window (put window)

variable {T : Type} {w w' : World T} {o : ℕ}

/-! ## Caches that only read -/

/-- Every call completes, and no line is dirty. -/
structure Quiet (c : PageCache.Cache T) : Prop where
  replies : c.replies = []
  clean : ∀ i, (c.slots i).dirty = false

namespace Quiet

open PageCache

variable {policy : Policy} {c : Cache T}

theorem withSlot (h : Quiet c) (i : ℕ) {slot : Slot} (hslot : slot.dirty = false) :
    Quiet (c.withSlot i slot) := by
  refine ⟨h.replies, fun j => ?_⟩
  change (Function.update c.slots i slot j).dirty = false
  by_cases hj : j = i
  · rw [hj, Function.update_self, hslot]
  · rw [Function.update_of_ne hj, h.clean]

theorem allocateSlots (h : Quiet c) : Quiet (allocateSlots c) := by
  unfold PageCache.allocateSlots
  split_ifs
  · exact h
  · exact ⟨h.replies, fun _ => rfl⟩
  · exact ⟨h.replies, h.clean⟩

theorem touch (hdirect : policy.replacement = .directMapped) (h : Quiet c) (i : ℕ) :
    Quiet (touch policy i c) := by
  unfold PageCache.touch
  rw [if_neg (by rw [hdirect]; decide)]
  exact h.withSlot i (h.clean i)

theorem dropClean (h : Quiet c) (slot : Option ℕ) : Quiet (dropClean slot c) := by
  unfold PageCache.dropClean
  split_ifs
  · exact h
  · cases slot with
    | none => exact h
    | some i => exact h.withSlot i rfl

theorem isDirty (h : Quiet c) (slot : Option ℕ) : isDirty c slot = false := by
  cases slot with
  | none => rfl
  | some i => exact h.clean i

theorem target (hdirect : policy.replacement = .directMapped) (key : Key) (old : Option ℕ)
    (c : Cache T) :
    (target policy key old c).2 = c := by
  have hchoose : (choose policy key c).2 = c := by
    unfold choose
    rw [if_pos hdirect]
    split_ifs <;> rfl
  cases old with
  | none => exact hchoose
  | some i =>
    unfold PageCache.target
    dsimp only
    split_ifs
    · rfl
    · exact hchoose

theorem backingRead (h : Quiet c) (key : Key) (size : ℕ) :
    (backingRead key size c).1.1 = .ok ∧ (backingRead key size c).2 = c := by
  have hreply : nextReply size key c = (.complete size (c.pages key), c) := by
    unfold nextReply
    rw [h.replies]
  unfold PageCache.backingRead
  rw [hreply]
  have hnormal : PageCache.normalize (Reply.complete size (c.pages key)) size = (.ok, false) := by
    simp only [PageCache.normalize, Reply.complete, gt_iff_lt, lt_irrefl, if_false, ne_eq,
      not_true_eq_false, and_false]
  exact ⟨congrArg Prod.fst hnormal, rfl⟩

theorem install (hdirect : policy.replacement = .directMapped) (h : Quiet c) (i : ℕ) (key : Key)
    (bytes : List T) :
    Quiet (install policy i key bytes false c) := by
  have hpayload : Quiet
      { c with payload := Function.update c.payload i (put (c.payload i) 0 bytes) } :=
    ⟨h.replies, h.clean⟩
  exact (hpayload.withSlot i rfl).touch hdirect i

theorem fill (hdirect : policy.replacement = .directMapped) (h : Quiet c) (key : Key)
    (old : Option ℕ) (bytes : List T)
    (i : ℕ) : (fill policy key old bytes i c).1.status = .ok ∧
    Quiet (fill policy key old bytes i c).2 := by
  have hfree : freeTarget old (some i) c = (.ok, c) := by
    have hflush : flushSlot i c = (.ok, c) := by
      unfold flushSlot
      rw [h.clean i, Bool.and_false, if_neg Bool.false_ne_true]
    unfold freeTarget
    dsimp only
    split_ifs
    · exact hflush
    · rfl
  unfold PageCache.fill
  rw [hfree]
  dsimp only
  rw [if_pos rfl]
  refine ⟨rfl, ?_⟩
  rw [h.isDirty]
  have hold : Quiet (invalidateOption old c) := by
    cases old with
    | none => exact h
    | some j => exact h.withSlot j rfl
  have hline : Quiet (invalidateSlot i (invalidateOption old c)) := hold.withSlot i rfl
  exact install hdirect hline i key bytes

theorem missed (hdirect : policy.replacement = .directMapped) (h : Quiet c) (key : Key) (size : ℕ)
    (old : Option ℕ) :
    (missed policy key size old c).1.status = .ok ∧ Quiet (missed policy key size old c).2 := by
  unfold PageCache.missed
  dsimp only
  rw [target hdirect]
  generalize (PageCache.target policy key old c).1 = chosen
  have hdropped : Quiet (PageCache.dropClean old (PageCache.dropClean chosen c)) :=
    (h.dropClean chosen).dropClean old
  obtain ⟨hok, hsame⟩ := hdropped.backingRead key size
  rw [if_pos hok, hsame]
  cases chosen with
  | none => exact ⟨rfl, hdropped⟩
  | some i => exact fill hdirect hdropped key old _ i

theorem get (hdirect : policy.replacement = .directMapped) (h : Quiet c) (key : Key) {size : ℕ}
    (hspan : policy.validSpan size = true) :
    (PageCache.get policy key size c).1.1 = .ok ∧ Quiet (PageCache.get policy key size c).2 := by
  unfold PageCache.get
  rw [if_pos hspan]
  unfold load
  dsimp only
  have hallocated := h.allocateSlots
  cases find policy key (PageCache.allocateSlots c) with
  | none => exact missed hdirect hallocated key size none
  | some i =>
    dsimp only
    split_ifs
    · exact ⟨rfl, hallocated.touch hdirect i⟩
    · exact missed hdirect hallocated key size (some i)

theorem invalidate (hformed : policy.wellFormed = true) (h : Quiet c) (key : Key) :
    (PageCache.invalidate policy key c).1 = .ok ∧ Quiet (PageCache.invalidate policy key c).2 := by
  unfold PageCache.invalidate invalidateIf
  rw [if_pos hformed]
  split_ifs with hmemory hany
  · rw [List.any_eq_true] at hany
    obtain ⟨i, -, hi⟩ := hany
    rw [h.clean i, Bool.and_false, Bool.false_and] at hi
    exact absurd hi Bool.false_ne_true
  · refine ⟨rfl, h.replies, fun i => ?_⟩
    dsimp only
    split_ifs
    · rfl
    · exact h.clean i
  · exact ⟨rfl, h⟩

end Quiet

/-! ## What a window shows -/

namespace World

/-- The value an owner reads. -/
def value (w : World T) (o i : ℕ) : T :=
  if (w.owners o).spilled then (w.owners o).backing.elim (w.owners o).initial fun file =>
    w.files file i
  else ((w.owners o).page (i / chunk)).elim (w.owners o).initial fun id => w.pages id (i % chunk)

theorem value_spilled (h : (w.owners o).spilled = true) (i : ℕ) :
    w.value o i = (w.owners o).backing.elim (w.owners o).initial fun file => w.files file i :=
      if_pos h

theorem value_resident (h : (w.owners o).spilled = false) (i : ℕ) :
    w.value o i = ((w.owners o).page (i / chunk)).elim (w.owners o).initial fun id =>
      w.pages id (i % chunk) :=
  if_neg (by rw [h]; exact Bool.false_ne_true)

end World

/-- The pointers are to what there is, and the lines of the cache are of the file. -/
structure Values.Sound (w : World T) (v : Values T) : Prop where
  pages : ∀ p id, v.page p = some id → id < w.nextPage
  file : ∀ file, v.backing = some file → file < w.nextFile
  length : v.spilled = false → v.pages.length = v.pageCount
  cached : ∀ c, v.cache = some c → Quiet c ∧ v.spilled = true ∧ ∃ file, v.backing = some file ∧
    PageCache.Sound (v.readCachePolicy w.valueBytes) { c with pages := pagesOf v (w.files file) }
      (pagesOf v (w.files file))

/-- Every owner's pages are there. -/
def World.Sound (w : World T) : Prop := ∀ o, o < w.count → (w.owners o).Sound w

/-- An operation on one window, as the others see it. -/
structure Touches (w w' : World T) (o : ℕ) : Prop where
  sound : w'.Sound
  count : w'.count = w.count
  arithmetic : w'.arithmetic = w.arithmetic
  valueBytes : w'.valueBytes = w.valueBytes
  owner : ∀ p, p < w.count → p ≠ o → w'.owners p = w.owners p
  value : ∀ p, p < w.count → p ≠ o → w'.value p = w.value p

theorem Touches.refl (h : w.Sound) (o : ℕ) : Touches w w o :=
  ⟨h, rfl, rfl, rfl, fun _ _ _ => rfl, fun _ _ _ => rfl⟩

theorem Touches.trans {w'' : World T} (h : Touches w w' o) (h' : Touches w' w'' o) :
    Touches w w'' o where
  sound := h'.sound
  count := h'.count.trans h.count
  arithmetic := h'.arithmetic.trans h.arithmetic
  valueBytes := h'.valueBytes.trans h.valueBytes
  owner p hp hne := (h'.owner p (h.count ▸ hp) hne).trans (h.owner p hp hne)
  value p hp hne := (h'.value p (h.count ▸ hp) hne).trans (h.value p hp hne)

theorem value_congr {p : ℕ} (howner : w'.owners p = w.owners p)
    (hpages : ∀ i id, (w.owners p).page i = some id → w'.pages id = w.pages id)
    (hfiles : ∀ file, (w.owners p).backing = some file → w'.files file = w.files file) :
    w'.value p = w.value p := by
  funext i
  unfold World.value
  rw [howner]
  split_ifs
  · cases hbacking : (w.owners p).backing with
    | none => rfl
    | some file => rw [Option.elim_some, Option.elim_some, hfiles file hbacking]
  · cases hpage : (w.owners p).page (i / chunk) with
    | none => rfl
    | some id => rw [Option.elim_some, Option.elim_some, hpages _ id hpage]

theorem Values.Sound.frame {v : Values T} (h : v.Sound w) (hpage : w.nextPage ≤ w'.nextPage)
    (hfile : w.nextFile ≤ w'.nextFile) (hbytes : w'.valueBytes = w.valueBytes)
    (hfiles : ∀ file, v.backing = some file → w'.files file = w.files file) : v.Sound w' where
  pages p id hid := lt_of_lt_of_le (h.pages p id hid) hpage
  file file hbacking := lt_of_lt_of_le (h.file file hbacking) hfile
  length := h.length
  cached c hc := by
    obtain ⟨hquiet, hspilled, file, hbacking, hsound⟩ := h.cached c hc
    refine ⟨hquiet, hspilled, file, hbacking, ?_⟩
    rw [hbytes, hfiles file hbacking]
    exact hsound

/-- An operation changes one window, and in pages and files only what the others do not point at. -/
theorem Touches.of_frame (h : w.Sound) (hcount : w'.count = w.count)
    (harithmetic : w'.arithmetic = w.arithmetic)
    (hbytes : w'.valueBytes = w.valueBytes) (hpage : w.nextPage ≤ w'.nextPage)
    (hfile : w.nextFile ≤ w'.nextFile)
    (howner : ∀ p, p ≠ o → w'.owners p = w.owners p)
    (hpages : ∀ p, p < w.count → p ≠ o → ∀ i id, (w.owners p).page i = some id → w'.pages id
      = w.pages id)
    (hfiles : ∀ p, p < w.count → p ≠ o → ∀ file, (w.owners p).backing = some file → w'.files file
      = w.files file)
    (hself : o < w.count → (w'.owners o).Sound w') : Touches w w' o := by
  refine ⟨fun p hp => ?_, hcount, harithmetic, hbytes, fun p _ => howner p, fun p hp hne =>
    value_congr (howner p hne) (hpages p hp hne) (hfiles p hp hne)⟩
  rw [hcount] at hp
  by_cases hne : p = o
  · rw [hne] at hp ⊢
    exact hself hp
  · rw [howner p hne]
    exact (h p hp).frame hpage hfile hbytes (hfiles p hp hne)

/-! ## Pointers -/

theorem page_lt {v : Values T} {p id : ℕ} (h : v.page p = some id) : p < v.pages.length := by
  by_contra hp
  unfold Values.page at h
  rw [List.getElem?_eq_none (by omega)] at h
  exact Option.some_ne_none id h.symm

theorem mem_holders {id p : ℕ} : (o, p) ∈ w.holders id ↔ o < w.count ∧ (w.owners o).page p
    = some id := by
  unfold World.holders
  rw [List.mem_flatMap]
  constructor
  · rintro ⟨q, hq, hmem⟩
    obtain ⟨i, hi, hpair⟩ := List.mem_map.mp hmem
    obtain ⟨rfl, rfl⟩ := Prod.mk.inj hpair
    exact ⟨List.mem_range.mp hq, of_decide_eq_true (List.mem_filter.mp hi).2⟩
  · rintro ⟨ho, hp⟩
    refine ⟨o, List.mem_range.mpr ho,
      List.mem_map.mpr ⟨p, List.mem_filter.mpr ⟨?_, decide_eq_true hp⟩, rfl⟩⟩
    exact List.mem_range.mpr (page_lt hp)

theorem uniquePage_only {id p q i : ℕ} (h : w.uniquePage id = true) (ho : o < w.count)
    (hp : (w.owners o).page p = some id)
    (hq : q < w.count) (hi : (w.owners q).page i = some id) : q = o ∧ i = p := by
  obtain ⟨only, honly⟩ := List.length_eq_one_iff.mp (of_decide_eq_true h)
  have hfirst : (o, p) ∈ w.holders id := mem_holders.mpr ⟨ho, hp⟩
  have hother : (q, i) ∈ w.holders id := mem_holders.mpr ⟨hq, hi⟩
  rw [honly, List.mem_singleton] at hfirst hother
  exact Prod.mk.inj (hother.trans hfirst.symm)

theorem uniqueFile_only {file q : ℕ} (h : w.uniqueFile file = true) (ho : o < w.count)
    (hp : (w.owners o).backing = some file) (hq : q < w.count)
    (hi : (w.owners q).backing = some file) : q = o := by
  obtain ⟨only, honly⟩ := List.length_eq_one_iff.mp (of_decide_eq_true h)
  have hmem : ∀ p, p < w.count → (w.owners p).backing = some file → p = only := by
    intro p hp hbacking
    have : p ∈ (List.range w.count).filter fun o => (w.owners o).backing = some file :=
      List.mem_filter.mpr ⟨List.mem_range.mpr hp, decide_eq_true hbacking⟩
    rw [honly, List.mem_singleton] at this
    exact this
  rw [hmem q hq hi, hmem o ho hp]

/-! ## Reads -/

@[simp] theorem withOwner_self (w : World T) (o : ℕ) (v : Values T) :
    (w.withOwner o v).owners o = v :=
  Function.update_self ..

theorem withOwner_other (w : World T) {o p : ℕ} (v : Values T) (h : p ≠ o) :
    (w.withOwner o v).owners p = w.owners p :=
  Function.update_of_ne h ..

theorem readCachePolicy_wellFormed (v : Values T) (valueBytes : ℕ) :
    (v.readCachePolicy valueBytes).wellFormed = true := by
  have hline : PageCache.lineBytes chunk = PageCache.slotBytes + chunk := by
    unfold PageCache.lineBytes
    rw [if_pos ⟨by decide, by decide⟩]
  change (decide (PageCache.lineBytes chunk ≠ 0) && _) = true
  rw [hline]
  rfl

theorem lt_pageSize {v : Values T} {index : ℕ} (h : index < v.size) :
    index % chunk < v.pageSize (index / chunk) := by
  have hmod := Nat.mod_lt index (show 0 < chunk by decide)
  have hdiv := Nat.div_add_mod' index chunk
  unfold Values.pageSize
  omega

theorem validSpan_pageSize {v : Values T} {index : ℕ} (h : index < v.size) (valueBytes : ℕ) :
    (v.readCachePolicy valueBytes).validSpan (v.pageSize (index / chunk)) = true := by
  have hpos := lt_pageSize h
  have hle : v.pageSize (index / chunk) ≤ chunk := Nat.min_le_left ..
  unfold PageCache.Policy.validSpan
  rw [readCachePolicy_wellFormed, Bool.true_and,
    decide_eq_true (show v.pageSize (index / chunk) ≠ 0 by omega),
    Bool.true_and]
  exact decide_eq_true hle

theorem pagesOf_index {v : Values T} (file : ℕ → T) {index : ℕ} (h : index < v.size) :
    pagesOf v file (cacheKey (index / chunk)) (index % chunk) = file index := by
  have hindex : index / chunk * chunk + index % chunk = index := Nat.div_add_mod' index chunk
  unfold pagesOf
  rw [show (cacheKey (index / chunk)).pageNumber = index / chunk from rfl, hindex,
    if_pos ⟨rfl, lt_pageSize h⟩]

theorem reread {policy : PageCache.Policy} {c : PageCache.Cache T} {content : PageCache.Key → ℕ → T}
    (h : PageCache.Sound policy c content) :
    PageCache.Sound policy { c with pages := content } content :=
  h.repage (fun _ _ _ _ _ => rfl) fun _ _ _ => rfl

/-- The cache serves the backing's values. -/
theorem cacheGet_spec {v : Values T} (h : v.Sound w) {file index : ℕ} (hspilled : v.spilled = true)
    (hfile : v.backing = some file) (hindex : index < v.size) (allocates : Bool) :
    (w.cacheGet allocates v file (index / chunk)).1.1 = .ok ∧
      (w.cacheGet allocates v file (index / chunk)).1.2[index % chunk]?
        = some (w.files file index) ∧
      (v.withCache (some (w.cacheGet allocates v file (index / chunk)).2)).Sound w := by
  obtain ⟨hquiet, hsound⟩ :
    Quiet (v.cache.getD (PageCache.create (v.readCachePolicy w.valueBytes) (fun _ _ => v.initial)
      (pagesOf v (w.files file)) false [] allocates)) ∧
      PageCache.Sound (v.readCachePolicy w.valueBytes)
        { v.cache.getD (PageCache.create (v.readCachePolicy w.valueBytes)
        (fun _ _ => v.initial) (pagesOf v (w.files file)) false [] allocates) with
          pages := pagesOf v (w.files file) } (pagesOf v (w.files file)) := by
    cases hcache : v.cache with
    | none => exact ⟨⟨rfl, fun _ => rfl⟩, reread (PageCache.sound_create ..)⟩
    | some c =>
      obtain ⟨hquiet, -, other, hother, hsound⟩ := h.cached c hcache
      obtain rfl : file = other := Option.some.inj (hfile.symm.trans hother)
      exact ⟨hquiet, hsound⟩
  have hquietBacked : Quiet
    { v.cache.getD (PageCache.create (v.readCachePolicy w.valueBytes) (fun _ _ => v.initial)
      (pagesOf v (w.files file)) false [] allocates) with pages := pagesOf v (w.files file) } :=
    ⟨hquiet.replies, hquiet.clean⟩
  have hspan := validSpan_pageSize hindex w.valueBytes
  obtain ⟨hok, hquietAfter⟩ := hquietBacked.get rfl (cacheKey (index / chunk)) hspan
  have hserved := PageCache.load_spec hsound (cacheKey (index / chunk)) (v.pageSize (index / chunk))
  have hload : PageCache.get (v.readCachePolicy w.valueBytes) (cacheKey (index / chunk))
    (v.pageSize (index / chunk))
      { v.cache.getD (PageCache.create (v.readCachePolicy w.valueBytes) (fun _ _ => v.initial)
        (pagesOf v (w.files file)) false [] allocates) with pages := pagesOf v (w.files file) }
          = _ := if_pos hspan
  rw [hload] at hok hquietAfter
  unfold World.cacheGet
  dsimp only
  rw [hload]
  refine ⟨hok, ?_, ?_⟩
  · dsimp only at hok ⊢
    rw [hserved.bytes hok, Window.getElem?_window _ _ (lt_pageSize hindex), Nat.zero_add,
      pagesOf_index _ hindex]
  · refine ⟨h.pages, h.file, h.length, fun c hc => ?_⟩
    obtain rfl := Option.some.inj hc
    exact ⟨hquietAfter, hspilled, file, hfile, reread hserved.sound⟩

theorem value_withCache (w : World T) (o : ℕ) (cache : Option (PageCache.Cache T)) :
    (w.withOwner o ((w.owners o).withCache cache)).value o = w.value o := by
  funext i
  unfold World.value
  rw [withOwner_self]
  rfl

theorem Touches.withCache (h : w.Sound) {cache : Option (PageCache.Cache T)}
    (hself : ((w.owners o).withCache cache).Sound w) :
    Touches w (w.withOwner o ((w.owners o).withCache cache)) o := by
  refine .of_frame h rfl rfl rfl le_rfl le_rfl (fun p hp => withOwner_other w _ hp)
    (fun _ _ _ _ _ _ => rfl)
    (fun _ _ _ _ _ => rfl) fun _ => ?_
  rw [withOwner_self]
  exact hself.frame le_rfl le_rfl rfl fun _ _ => rfl

theorem read_spec (h : w.Sound) (ho : o < w.count) {index : ℕ} (hindex : index < (w.owners o).size)
    (allocates : Bool) :
    ∃ w', w.read allocates o index = some (w.value o index, w') ∧ Touches w w' o ∧
      (w'.owners o).size = (w.owners o).size ∧ (w'.owners o).capacity = (w.owners o).capacity ∧
        w'.value o = w.value o := by
  by_cases hspilled : (w.owners o).spilled = true
  · cases hfile : (w.owners o).backing with
    | none =>
      refine ⟨w, ?_, .refl h o, rfl, rfl, rfl⟩
      simp only [World.read, World.value, hspilled, hfile, if_true, Option.elim_none]
    | some file =>
      obtain ⟨hok, hvalue, hsound⟩ := cacheGet_spec (h o ho) hspilled hfile hindex allocates
      refine ⟨_, ?_, .withCache h hsound, ?_, ?_, value_withCache w o _⟩
      · simp only [World.read, World.value, hspilled, hfile, if_true, hok, hvalue, Option.getD_some,
          Option.elim_some]
      · rw [withOwner_self]
        rfl
      · rw [withOwner_self]
        rfl
  · refine ⟨w, ?_, .refl h o, rfl, rfl, rfl⟩
    simp only [World.read, World.value, hspilled, Bool.false_eq_true, if_false]

/-! ## Writes to pages -/

/-- The window has its value changed at one place; the others stay. -/
structure Wrote (w w' : World T) (o index : ℕ) (x : T) : Prop where
  touches : Touches w w' o
  size : (w'.owners o).size = (w.owners o).size
  capacity : (w'.owners o).capacity = (w.owners o).capacity
  self : w'.value o index = x
  rest : ∀ i, i < (w.owners o).size → i ≠ index → w'.value o i = w.value o i

theorem index_eq {i index : ℕ} (hdiv : i / chunk = index / chunk)
    (hmod : i % chunk = index % chunk) : i = index := by
  rw [← Nat.div_add_mod' i chunk, hdiv, hmod, Nat.div_add_mod']

theorem lt_pageCount {v : Values T} {index : ℕ} (h : index < v.size) :
    index / chunk < v.pageCount := by
  unfold Values.pageCount
  split_ifs with hrest
  · exact Nat.lt_succ_of_le (Nat.div_le_div_right h.le)
  · rw [not_not] at hrest
    refine Nat.div_lt_of_lt_mul ?_
    have := Nat.div_add_mod' v.size chunk
    rw [Nat.add_zero, Nat.mul_comm]
    omega

theorem page_withPage (v : Values T) (page p : ℕ) (pointer : Option ℕ)
    (hpage : page < v.pages.length) :
    (v.withPage page pointer).page p = if p = page then pointer else v.page p := by
  unfold Values.page Values.withPage
  dsimp only
  rw [List.getElem?_set]
  by_cases hp : p = page
  · rw [if_pos hp.symm, if_pos (hp ▸ hpage), if_pos hp]
    rfl
  · rw [if_neg (Ne.symm hp), if_neg hp]

/-- A fresh page holds the written value. -/
theorem freshPage_wrote (h : w.Sound) (ho : o < w.count) (hspilled : (w.owners o).spilled = false)
    {index : ℕ}
    (hindex : index < (w.owners o).size) {x : T} {old : ℕ → T}
    (hold : ∀ i, i / chunk = index / chunk → old (i % chunk) = w.value o i) :
    Wrote w (w.freshPage o (index / chunk) (Function.update old (index % chunk) x)) o index x := by
  have hpage : index / chunk < (w.owners o).pages.length := by
    rw [(h o ho).length hspilled]
    exact lt_pageCount hindex
  have howner : (w.freshPage o (index / chunk) (Function.update old (index % chunk) x)).owners o =
      (w.owners o).withPage (index / chunk) (some w.nextPage) := Function.update_self ..
  have hresident : ((w.freshPage o (index / chunk) (Function.update old (index % chunk) x)).owners
      o).spilled = false := by
    rw [howner]
    exact hspilled
  have hfresh : ∀ p, p < w.count → ∀ i id, (w.owners p).page i = some id →
      (w.freshPage o (index / chunk) (Function.update old (index % chunk) x)).pages id
        = w.pages id := by
    intro p hp i id hid
    exact Function.update_of_ne ((h p hp).pages i id hid).ne ..
  have hvalue : ∀ i, (w.freshPage o (index / chunk) (Function.update old (index % chunk) x)).value o
    i =
      if i / chunk = index / chunk then Function.update old (index % chunk) x (i % chunk)
        else w.value o i := by
    intro i
    rw [World.value_resident hresident, World.value_resident hspilled, howner,
      page_withPage _ _ _ _ hpage]
    split_ifs
    · rw [Option.elim_some]
      change Function.update w.pages w.nextPage _ w.nextPage (i % chunk) = _
      rw [Function.update_self]
    · cases hid : (w.owners o).page (i / chunk) with
      | none => rfl
      | some id => rw [Option.elim_some, Option.elim_some, hfresh o ho _ id hid]
  refine ⟨?_, by rw [howner]; rfl, by rw [howner]; rfl, ?_, fun i hi hne => ?_⟩
  · refine .of_frame h rfl rfl rfl (Nat.le_succ _) le_rfl (fun p hp => Function.update_of_ne hp ..)
      (fun p hp _ => hfresh p hp) (fun _ _ _ _ _ => rfl) fun _ => ?_
    rw [howner]
    refine ⟨fun p id hid => ?_, (h o ho).file, fun hfalse => ?_, (h o ho).cached⟩
    · rw [page_withPage _ _ _ _ hpage] at hid
      split_ifs at hid
      · exact Option.some.inj hid ▸ Nat.lt_succ_self _
      · exact Nat.lt_succ_of_lt ((h o ho).pages p id hid)
    · exact (List.length_set ..).trans ((h o ho).length hfalse)
  · rw [hvalue, if_pos rfl, Function.update_self]
  · rw [hvalue]
    split_ifs with hsame
    · rw [Function.update_of_ne (fun hmod => hne (index_eq hsame hmod)), hold i hsame]
    · rfl

/-- A page held once is written in place. -/
theorem uniquePage_wrote (h : w.Sound) (ho : o < w.count) (hspilled : (w.owners o).spilled = false)
    {index id : ℕ}
    (hid : (w.owners o).page (index / chunk) = some id) (hunique : w.uniquePage id = true) (x : T) :
    Wrote w (w.storePage id (Function.update (w.pages id) (index % chunk) x)) o index x := by
  have hresident : ((w.storePage id (Function.update (w.pages id) (index % chunk) x)).owners
      o).spilled = false := hspilled
  have hvalue : ∀ i, (w.storePage id (Function.update (w.pages id) (index % chunk) x)).value o i =
      if i / chunk = index / chunk then Function.update (w.pages id) (index % chunk) x (i % chunk)
        else w.value o i := by
    intro i
    rw [World.value_resident hspilled, World.value_resident hresident]
    change ((w.owners o).page (i / chunk)).elim _
      (fun other => Function.update w.pages id _ other (i % chunk)) = _
    split_ifs with hsame
    · rw [hsame, hid, Option.elim_some, Function.update_self]
    · cases hother : (w.owners o).page (i / chunk) with
      | none => rfl
      | some other =>
        have hne : other ≠ id := by
          rintro rfl
          exact hsame (uniquePage_only hunique ho hid ho hother).2
        rw [Option.elim_some, Option.elim_some, Function.update_of_ne hne]
  refine ⟨?_, rfl, rfl, ?_, fun i hi hne => ?_⟩
  · refine .of_frame h rfl rfl rfl le_rfl le_rfl (fun _ _ => rfl)
      (fun p hp hpo i other hother => ?_)
      (fun _ _ _ _ _ => rfl) fun ho => (h o ho).frame le_rfl le_rfl rfl fun _ _ => rfl
    refine Function.update_of_ne ?_ ..
    rintro rfl
    exact hpo (uniquePage_only hunique ho hid hp hother).1
  · rw [hvalue, if_pos rfl, Function.update_self]
  · rw [hvalue]
    split_ifs with hsame
    · rw [Function.update_of_ne fun hmod => hne (index_eq hsame hmod)]
      rw [World.value_resident hspilled, hsame, hid, Option.elim_some]
    · rfl

/-! ## Writes to files -/

theorem invalidateIf_pages {policy : PageCache.Policy} (selects : PageCache.Slot → Bool)
    (c : PageCache.Cache T)
    (pages : PageCache.Key → ℕ → T) :
    (PageCache.invalidateIf policy selects { c with pages := pages }).2 =
      { (PageCache.invalidateIf policy selects c).2 with pages := pages } := by
  unfold PageCache.invalidateIf
  dsimp only
  split_ifs <;> rfl

theorem key_invalidateIf {policy : PageCache.Policy} (selects : PageCache.Slot → Bool)
    (c : PageCache.Cache T) (i : ℕ) :
    ((PageCache.invalidateIf policy selects c).2.slots i).key = (c.slots i).key := by
  unfold PageCache.invalidateIf
  split_ifs
  · rfl
  · dsimp only
    split_ifs <;> rfl
  · rfl
  · rfl

/-- Invalidation leaves no copy of the page. -/
theorem invalidatePage_spec (h : w.Sound) (ho : o < w.count) (page : ℕ) : ∃ cache,
    w.invalidatePage o page = some (w.withOwner o ((w.owners o).withCache cache)) ∧
      ((w.owners o).withCache cache).Sound w ∧
      ∀ c, cache = some c → ∀ i, i < c.count → (c.slots i).valid = true →
        (c.slots i).key ≠ cacheKey page := by
  cases hcache : (w.owners o).cache with
  | none =>
    have hsame : (w.owners o).withCache none = w.owners o := by rw [← hcache]; rfl
    have hworld : w.withOwner o (w.owners o) = w := by
      unfold World.withOwner
      rw [Function.update_eq_self]
    refine ⟨none, ?_, ?_, fun c hc => nomatch hc⟩
    · simp only [World.invalidatePage, hcache, hsame, hworld]
    · rw [hsame]
      exact h o ho
  | some c =>
    obtain ⟨hquiet, hspilled, file, hfile, hsound⟩ := (h o ho).cached c hcache
    obtain ⟨hok, hquietAfter⟩ :=
      hquiet.invalidate (readCachePolicy_wellFormed (w.owners o) w.valueBytes) (cacheKey page)
    refine ⟨some (PageCache.invalidate ((w.owners o).readCachePolicy w.valueBytes)
      (cacheKey page) c).2, ?_,
      ⟨(h o ho).pages, (h o ho).file, (h o ho).length, fun d hd => ?_⟩,
        fun d hd i hi hvalid hkey => ?_⟩
    · simp only [World.invalidatePage, hcache, hok, if_true]
    · obtain rfl := Option.some.inj hd
      refine ⟨hquietAfter, hspilled, file, hfile, ?_⟩
      have hkept := (PageCache.invalidateIf_spec hsound fun line => line.key = cacheKey page).1
      rw [invalidateIf_pages] at hkept
      exact hkept
    · obtain rfl := Option.some.inj hd
      unfold PageCache.invalidate at hi hvalid hkey hok
      rw [PageCache.count_invalidateIf] at hi
      rw [key_invalidateIf] at hkey
      have hbacked : Quiet { c with pages := pagesOf (w.owners o) (w.files file) } :=
        ⟨hquiet.replies, hquiet.clean⟩
      have hclears := PageCache.invalidateIf_clears hsound
        (hbacked.invalidate (readCachePolicy_wellFormed _ _)
        (cacheKey page)).1 hi (decide_eq_true hkey)
      rw [invalidateIf_pages] at hclears
      exact Bool.false_ne_true (hclears.symm.trans hvalid)

theorem cloned_eq (v : Values T) (source blank : ℕ → T) {i : ℕ} (hi : i < v.size) :
    World.cloned v source blank i = source i := by
  have hpages : ∀ n, ∀ i, i < n * chunk → i < v.size → (List.range n).foldl (fun file page =>
      put file (page * chunk) (window source (page * chunk) (v.pageSize page))) blank i
        = source i := by
    intro n
    induction n with
    | zero =>
      intro i hi
      rw [Nat.zero_mul] at hi
      exact absurd hi (Nat.not_lt_zero i)
    | succ n ih =>
      intro i hi hsize
      rw [List.range_succ, List.foldl_append, List.foldl_cons, List.foldl_nil]
      by_cases hbefore : i < n * chunk
      · rw [Window.put_outside _ (Or.inl hbefore), ih i hbefore hsize]
      · obtain ⟨k, rfl⟩ := Nat.exists_eq_add_of_le (Nat.le_of_not_lt hbefore)
        rw [Nat.succ_mul] at hi
        have hk : k < v.pageSize n := by
          unfold Values.pageSize
          omega
        exact Window.put_inside _ (Window.getElem?_window source (n * chunk) hk)
  refine hpages v.pageCount i ?_ hi
  have := Nat.div_add_mod' i chunk
  have := Nat.mod_lt i (show 0 < chunk by decide)
  have := Nat.mul_le_mul_right chunk (lt_pageCount hi)
  rw [Nat.succ_mul] at this
  omega

theorem pagesOf_congr (v : Values T) {file file' : ℕ → T} (h : ∀ i, i < v.size → file' i = file i) :
    pagesOf v file' = pagesOf v file := by
  funext key n
  unfold pagesOf
  split_ifs with hinside
  · refine h _ ?_
    have hn := hinside.2
    unfold Values.pageSize at hn
    omega
  · rfl

theorem Values.Sound.withBacking {v : Values T} (h : v.Sound w) {file : ℕ}
    (hfile : file < w'.nextFile)
    (hpage : w.nextPage ≤ w'.nextPage) (hbytes : w'.valueBytes = w.valueBytes)
    (hvalues : ∀ old, v.backing = some old → ∀ i, i < v.size → w'.files file i = w.files old i) :
    (v.withBacking file).Sound w' where
  pages p id hid := lt_of_lt_of_le (h.pages p id hid) hpage
  file other hother := Option.some.inj hother ▸ hfile
  length := h.length
  cached c hc := by
    obtain ⟨hquiet, hspilled, old, hold, hsound⟩ := h.cached c hc
    refine ⟨hquiet, hspilled, file, rfl, ?_⟩
    have hpages : pagesOf (v.withBacking file) (w'.files file) = pagesOf v (w.files old) :=
      pagesOf_congr v (hvalues old hold)
    rw [hpages, hbytes]
    exact hsound

/-- The window has a file that no other points at, with the values it showed. -/
structure Writable (w w' : World T) (o file : ℕ) : Prop where
  touches : Touches w w' o
  owner : w'.owners o = (w.owners o).withBacking file
  alone : ∀ p, p < w.count → p ≠ o → (w.owners p).backing ≠ some file
  values : ∀ i, i < (w.owners o).size → w'.files file i = w.value o i

theorem freshFile_writable [Inhabited T] (h : w.Sound) (ho : o < w.count) {source : ℕ → T}
    (hsource : ∀ i, source i = w.value o i)
    (hold : ∀ old, (w.owners o).backing = some old → source = w.files old) :
    Writable w (w.freshFile o source) o w.nextFile := by
  have hne : ∀ p, p < w.count → ∀ file, (w.owners p).backing = some file → file ≠ w.nextFile :=
    fun p hp file hfile => ((h p hp).file file hfile).ne
  have howner : (w.freshFile o source).owners o = (w.owners o).withBacking w.nextFile :=
    Function.update_self ..
  have hclone : ∀ i, i < (w.owners o).size → (w.freshFile o source).files w.nextFile i
      = source i := by
    intro i hi
    change Function.update w.files w.nextFile _ w.nextFile i = _
    rw [Function.update_self, cloned_eq _ _ _ hi]
  refine ⟨?_, howner, fun p hp _ hfile => hne p hp _ hfile rfl,
    fun i hi => (hclone i hi).trans (hsource i)⟩
  refine .of_frame h rfl rfl rfl le_rfl (Nat.le_succ _) (fun p hp => Function.update_of_ne hp ..)
    (fun _ _ _ _ _ _ => rfl)
    (fun p hp _ file hfile => Function.update_of_ne (hne p hp file hfile) ..) fun _ => ?_
  rw [howner]
  refine (h o ho).withBacking (Nat.lt_succ_self _) le_rfl rfl fun old hbacking i hi => ?_
  rw [hclone i hi, hold old hbacking]

theorem makeWritableBacking_writable [Inhabited T] (h : w.Sound) (ho : o < w.count)
    (hspilled : (w.owners o).spilled = true) :
    ∃ file, Writable w (w.makeWritableBacking o) o file := by
  unfold World.makeWritableBacking
  cases hbacking : (w.owners o).backing with
  | none =>
    refine ⟨_, freshFile_writable h ho (fun i => ?_) fun old hold =>
      nomatch hbacking.symm.trans hold⟩
    rw [World.value_spilled hspilled, hbacking, Option.elim_none]
  | some file =>
    dsimp only
    split_ifs with hunique
    · have hsame : (w.owners o).withBacking file = w.owners o := by
        unfold Values.withBacking
        rw [← hbacking]
      refine ⟨file, .refl h o, hsame.symm, fun p hp hne hfile => ?_, fun i _ => ?_⟩
      · exact hne (uniqueFile_only hunique ho hbacking hp hfile)
      · rw [World.value_spilled hspilled, hbacking, Option.elim_some]
    · refine ⟨_, freshFile_writable h ho (fun i => ?_) fun old hold => ?_⟩
      · rw [World.value_spilled hspilled, hbacking, Option.elim_some]
      · rw [Option.some.inj (hbacking.symm.trans hold)]

theorem pagesOf_update (v : Values T) (file : ℕ → T) (index : ℕ) (x : T) {key : PageCache.Key}
    (hkey : key ≠ cacheKey (index / chunk)) (n : ℕ) : pagesOf v (Function.update file index x) key n
    = pagesOf v file key n := by
  unfold pagesOf
  split_ifs with hinside
  · refine Function.update_of_ne (fun hindex => hkey ?_) ..
    have hn := hinside.2
    unfold Values.pageSize at hn
    have hdiv : index / chunk = key.pageNumber := by
      rw [← hindex, Nat.mul_comm, Nat.mul_add_div (by decide), Nat.div_eq_of_lt (by omega),
        Nat.add_zero]
    rw [hdiv]
    exact hinside.1
  · rfl

/-- A write to the backing is a write. -/
theorem writeBacking_wrote (h : w.Sound) (ho : o < w.count) (hspilled : (w.owners o).spilled = true)
    {file index : ℕ}
    (hfile : (w.owners o).backing = some file)
    (halone : ∀ p, p < w.count → p ≠ o → (w.owners p).backing ≠ some file)
    (hnone : ∀ c, (w.owners o).cache = some c → ∀ i, i < c.count → (c.slots i).valid = true →
      (c.slots i).key ≠ cacheKey (index / chunk)) (x : T) : Wrote w (w.writeBacking o index x) o
        index x := by
  have hwrite : w.writeBacking o index x
      = w.storeFile file (Function.update (w.files file) index x) := by
    simp only [World.writeBacking, hfile]
  have hstored : (w.storeFile file (Function.update (w.files file) index x)).files file =
      Function.update (w.files file) index x := Function.update_self ..
  have hvalue : ∀ i, (w.storeFile file (Function.update (w.files file) index x)).value o i =
      Function.update (w.files file) index x i := by
    intro i
    rw [World.value_spilled (show ((w.storeFile _ _).owners o).spilled = true from hspilled),
      show ((w.storeFile file _).owners o).backing = some file from hfile,
        Option.elim_some, hstored]
  rw [hwrite]
  refine ⟨?_, rfl, rfl, by rw [hvalue, Function.update_self], fun i _ hne => ?_⟩
  · refine .of_frame h rfl rfl rfl le_rfl le_rfl (fun _ _ => rfl) (fun _ _ _ _ _ _ => rfl)
      (fun p hp hne other hother => Function.update_of_ne ?_ ..) fun _ => ?_
    · rintro rfl
      exact halone p hp hne hother
    refine ⟨(h o ho).pages, (h o ho).file, (h o ho).length, fun c hc => ?_⟩
    obtain ⟨hquiet, -, old, hold, hsound⟩ := (h o ho).cached c hc
    obtain rfl : file = old := Option.some.inj (hfile.symm.trans hold)
    refine ⟨hquiet, hspilled, file, hfile, ?_⟩
    rw [hstored]
    refine hsound.repage (fun i hi hvalid n _ => ?_) fun _ _ _ => rfl
    exact (pagesOf_update _ _ index x (hnone c hc i hi hvalid) n).symm
  · rw [hvalue, Function.update_of_ne hne, World.value_spilled hspilled, hfile, Option.elim_some]

/-- A write sets one value of one owner. -/
theorem write_spec [Inhabited T] (h : w.Sound) (ho : o < w.count) {index : ℕ}
    (hindex : index < (w.owners o).size) (x : T) :
    ∃ w', w.write o index x = some w' ∧ Wrote w w' o index x := by
  by_cases hspilled : (w.owners o).spilled = true
  · obtain ⟨cache, hinvalidate, hsound, hnone⟩ := invalidatePage_spec h ho (index / chunk)
    have htouches := Touches.withCache h hsound
    have hvalue := value_withCache w o cache
    simp only [World.write, hspilled, if_true, hinvalidate, Option.map_some]
    have howner : (w.withOwner o ((w.owners o).withCache cache)).owners o
        = (w.owners o).withCache cache := withOwner_self ..
    generalize w.withOwner o ((w.owners o).withCache cache) = opened at htouches hvalue howner ⊢
    have hopenedCount : o < opened.count := htouches.count ▸ ho
    obtain ⟨file, hwritable⟩ := makeWritableBacking_writable htouches.sound hopenedCount
      (show (opened.owners o).spilled = true by rw [howner]; exact hspilled)
    generalize opened.makeWritableBacking o = writable at hwritable ⊢
    have hwritableOwner : writable.owners o = ((w.owners o).withCache cache).withBacking file := by
      rw [hwritable.owner, howner]
    have hthrough := htouches.trans hwritable.touches
    have hbacking : (writable.owners o).backing = some file := by
      rw [hwritableOwner]
      rfl
    have hwrote : Wrote writable (writable.writeBacking o index x) o index x := by
      refine writeBacking_wrote hthrough.sound (hthrough.count ▸ ho) ?_ hbacking
        (fun p hp hne => ?_) (fun c hc => ?_) x
      · rw [hwritableOwner]
        exact hspilled
      · rw [hwritable.touches.count] at hp
        rw [hwritable.touches.owner p hp hne]
        exact hwritable.alone p hp hne
      · rw [hwritableOwner] at hc
        exact hnone c hc
    have hsize : (writable.owners o).size = (w.owners o).size := by
      rw [hwritableOwner]
      rfl
    refine ⟨_, rfl, hthrough.trans hwrote.touches, hwrote.size.trans hsize, ?_, hwrote.self,
      fun i hi hne => ?_⟩
    · rw [hwrote.capacity, hwritableOwner]
      rfl
    · rw [hwrote.rest i (hsize ▸ hi) hne, ← hvalue, ← hwritable.values i (by rw [howner]; exact hi),
        World.value_spilled (by rw [hwritableOwner]; exact hspilled), hwritableOwner]
      rfl
  · rw [Bool.not_eq_true] at hspilled
    cases hpage : (w.owners o).page (index / chunk) with
    | none =>
      simp only [World.write, hspilled, Bool.false_eq_true, if_false, hpage]
      refine ⟨_, rfl, freshPage_wrote h ho hspilled hindex fun i hi => ?_⟩
      rw [World.value_resident hspilled, hi, hpage, Option.elim_none]
    | some id =>
      simp only [World.write, hspilled, Bool.false_eq_true, if_false, hpage]
      split_ifs with hunique
      · exact ⟨_, rfl, uniquePage_wrote h ho hspilled hpage hunique x⟩
      · refine ⟨_, rfl, freshPage_wrote h ho hspilled hindex fun i hi => ?_⟩
        rw [World.value_resident hspilled, hi, hpage, Option.elim_some]

end PineForge.Series
