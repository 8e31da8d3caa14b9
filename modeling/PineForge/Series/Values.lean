import Mathlib
import PineForge.PageCache.Runs

/-!
# Numeric windows

`WindowValues` and `DynamicRingBuffer` of `series.hpp`. A window keeps its values in pages that its
copies share, or, where the cache capacity of an arithmetic type is below its number of pages, in a
scratch file that they share, with a read cache of its own. The first write to what is shared clones
it: `unique` is asked of all the pointers that there are.

The cache moves the native bytes of values; here its bytes are the values. Files do not fail.
-/

namespace PineForge.Series

open Window (put window)

variable {T : Type}

/-- The values of a page. -/
def chunk : ℕ := 1024

/-- The largest `size_t`. -/
def sizeMax : ℕ := 2 ^ 64 - 1

/-- `na<T>()`. -/
def na [Inhabited T] : T := default

/-- `WindowValues`; pages and backing are shared pointers. -/
structure Values (T : Type) where
  /-- Pages of the cache. -/
  capacity : ℕ
  initial : T
  size : ℕ := 0
  spilled : Bool := false
  pages : List (Option ℕ) := []
  backing : Option ℕ := none
  cache : Option (PageCache.Cache T) := none

/-- The windows of a program, with the pages and the files that they point at. -/
structure World (T : Type) where
  /-- `std::is_arithmetic_v<T>`. -/
  arithmetic : Bool
  /-- `sizeof(T)`. -/
  valueBytes : ℕ
  owners : ℕ → Values T
  count : ℕ
  pages : ℕ → ℕ → T
  nextPage : ℕ
  files : ℕ → ℕ → T
  nextFile : ℕ

namespace Values

/-- The pages of an owner. -/
def pageCount (v : Values T) : ℕ := v.size / chunk + if v.size % chunk ≠ 0 then 1 else 0

/-- The values of a page. -/
def pageSize (v : Values T) (page : ℕ) : ℕ := min chunk (v.size - page * chunk)

/-- The lines of the read cache. -/
def cacheSlots (v : Values T) (valueBytes : ℕ) : ℕ :=
  let line := PageCache.lineBytes (valueBytes * chunk)
  let requested := if v.spilled then min v.capacity v.pageCount else 0
  if line ≠ 0 then min requested (sizeMax / line) else 0

/-- The policy of the read cache. -/
def readCachePolicy (v : Values T) (valueBytes : ℕ) : PageCache.Policy where
  capacityBytes := v.cacheSlots valueBytes * PageCache.lineBytes chunk
  pageSize := chunk
  replacement := .directMapped
  writePolicy := .writeThrough

/-- The pointer to a page. -/
def page (v : Values T) (page : ℕ) : Option ℕ := v.pages[page]?.join

/-- `clear_moved_from`, with the pointers that the move took. -/
def movedFrom (v : Values T) : Values T :=
  { v with size := 0, spilled := false, pages := [], backing := none, cache := none }

/-- The owner with another cache. -/
def withCache (v : Values T) (cache : Option (PageCache.Cache T)) : Values T :=
  { v with cache := cache }

/-- The owner with another page. -/
def withPage (v : Values T) (page : ℕ) (pointer : Option ℕ) : Values T :=
  { v with pages := v.pages.set page pointer }

/-- The owner with a file. -/
def withBacking (v : Values T) (file : ℕ) : Values T := { v with backing := some file }

/-- A copy shares the pointers, not the cache. -/
def copied (v : Values T) : Values T := v.withCache none

end Values

/-- The cache's key of a page. -/
def cacheKey (page : ℕ) : PageCache.Key := ⟨1, 0, page⟩

/-- A file by its pages; `cache_read` refuses other keys and what is behind the page. -/
def pagesOf (v : Values T) (file : ℕ → T) (key : PageCache.Key) (n : ℕ) : T :=
  if key = cacheKey key.pageNumber ∧ n < v.pageSize key.pageNumber then
    file (key.pageNumber * chunk + n) else v.initial

namespace World

/-- The world with another owner. -/
def withOwner (w : World T) (o : ℕ) (v : Values T) : World T :=
  { w with owners := Function.update w.owners o v }

/-! ## Pointers -/

/-- The pointers to a page. -/
def holders (w : World T) (id : ℕ) : List (ℕ × ℕ) :=
  (List.range w.count).flatMap fun o =>
    ((List.range (w.owners o).pages.length).filter fun p => (w.owners o).page p
      = some id).map (Prod.mk o)

/-- One owner holds a page. -/
def uniquePage (w : World T) (id : ℕ) : Bool := (w.holders id).length = 1

/-- One owner holds a file. -/
def uniqueFile (w : World T) (file : ℕ) : Bool :=
  ((List.range w.count).filter fun o => (w.owners o).backing = some file).length = 1

/-! ## Values -/

/-- `cache_->get` over the backing; a cache is made at the first read. -/
def cacheGet (w : World T) (allocates : Bool) (v : Values T) (file page : ℕ) :
    (PageCache.Status × List T) × PageCache.Cache T :=
  let policy := v.readCachePolicy w.valueBytes
  let backing := pagesOf v (w.files file)
  let cache := v.cache.getD
    (PageCache.create policy (fun _ _ => v.initial) backing false [] allocates)
  PageCache.get policy (cacheKey page) (v.pageSize page) { cache with pages := backing }

/-- A read; `allocates` is the allocator's answer to a cache that is made. -/
def read (allocates : Bool) (o index : ℕ) (w : World T) : Option (T × World T) :=
  let v := w.owners o
  if v.spilled then
    match v.backing with
    | none => some (v.initial, w)
    | some file =>
      let got := w.cacheGet allocates v file (index / chunk)
      if got.1.1 = .ok then
        some ((got.1.2[index % chunk]?).getD v.initial, w.withOwner o (v.withCache (some got.2)))
      else none
  else some ((v.page (index / chunk)).elim v.initial fun id => w.pages id (index % chunk), w)

/-- Store a page. -/
def storePage (id : ℕ) (values : ℕ → T) (w : World T) : World T :=
  { w with pages := Function.update w.pages id values }

/-- Store a file. -/
def storeFile (file : ℕ) (values : ℕ → T) (w : World T) : World T :=
  { w with files := Function.update w.files file values }

/-- A page of its own for one place of a window. -/
def freshPage (o page : ℕ) (values : ℕ → T) (w : World T) : World T :=
  { w with
    owners := Function.update w.owners o ((w.owners o).withPage page (some w.nextPage))
    pages := Function.update w.pages w.nextPage values
    nextPage := w.nextPage + 1 }

/-- The pages of a file, one after the other. -/
def cloned (v : Values T) (source blank : ℕ → T) : ℕ → T :=
  (List.range v.pageCount).foldl (fun file page =>
    put file (page * chunk) (window source (page * chunk) (v.pageSize page))) blank

/-- A file of its own, with the values of another. -/
def freshFile [Inhabited T] (o : ℕ) (source : ℕ → T) (w : World T) : World T :=
  { w with
    owners := Function.update w.owners o ((w.owners o).withBacking w.nextFile)
    files := Function.update w.files w.nextFile (cloned (w.owners o) source fun _ => default)
    nextFile := w.nextFile + 1 }

/-- The owner gets a file of its own. -/
def makeWritableBacking [Inhabited T] (o : ℕ) (w : World T) : World T :=
  match (w.owners o).backing with
  | none => w.freshFile o fun _ => (w.owners o).initial
  | some file => if w.uniqueFile file then w else w.freshFile o (w.files file)

/-- `cache_->invalidate` where there is a cache. -/
def invalidatePage (o page : ℕ) (w : World T) : Option (World T) :=
  let v := w.owners o
  match v.cache with
  | none => some w
  | some cache =>
    let done := PageCache.invalidate (v.readCachePolicy w.valueBytes) (cacheKey page) cache
    if done.1 = .ok then some (w.withOwner o (v.withCache (some done.2))) else none

/-- Write a value of the file. -/
def writeBacking (o index : ℕ) (value : T) (w : World T) : World T :=
  match (w.owners o).backing with
  | none => w
  | some file => w.storeFile file (Function.update (w.files file) index value)

/-- Write a value. -/
def write [Inhabited T] (o index : ℕ) (value : T) (w : World T) : Option (World T) :=
  let v := w.owners o
  if v.spilled then
    (w.invalidatePage o (index / chunk)).map fun w =>
      (w.makeWritableBacking o).writeBacking o index value
  else
    match v.page (index / chunk) with
    | none => some (w.freshPage o (index / chunk)
      (Function.update (fun _ => v.initial) (index % chunk) value))
    | some id =>
      if w.uniquePage id then
        some (w.storePage id (Function.update (w.pages id) (index % chunk) value))
      else some (w.freshPage o (index / chunk) (Function.update (w.pages id) (index % chunk) value))

/-- Retire a page. -/
def retirePage (o page : ℕ) (w : World T) : Option (World T) :=
  let v := w.owners o
  (if v.spilled then w else w.withOwner o (v.withPage page none)).invalidatePage o page

/-- `reset`, refused where the bytes of the window are not representable. -/
def reset (o size : ℕ) (initial : T) (w : World T) : Option (World T) :=
  if size > sizeMax / w.valueBytes then none
  else
    let v : Values T := { capacity := (w.owners o).capacity, initial := initial, size := size }
    let spilled := w.arithmetic && decide (v.capacity < v.pageCount)
    some (w.withOwner o
      { v with
        spilled := spilled
        pages := if spilled then [] else List.replicate v.pageCount none })

/-! ## Objects -/

/-- A window more; it is the last one. -/
def add (v : Values T) (w : World T) : World T :=
  { w.withOwner w.count v with count := w.count + 1 }

/-- A new owner. -/
def construct [Inhabited T] (capacity : ℕ) (w : World T) : World T :=
  w.add { capacity := capacity, initial := na }

/-- A copy of an owner. -/
def copy (o : ℕ) (w : World T) : World T := w.add (w.owners o).copied

/-- Copy assignment. -/
def assign (o p : ℕ) (w : World T) : World T :=
  if o = p then w else w.withOwner o (w.owners p).copied

/-- The pointers go over; the cache does not. -/
def moveTo (o p : ℕ) (w : World T) : World T :=
  (w.withOwner o (w.owners p).copied).withOwner p (w.owners p).movedFrom

/-- A move into a new owner. -/
def move (p : ℕ) (w : World T) : World T :=
  ({ w with count := w.count + 1 } : World T).moveTo w.count p

/-- Move assignment. -/
def moveAssign (o p : ℕ) (w : World T) : World T := if o = p then w else w.moveTo o p

/-- The pointers of the window are gone. -/
def destroy (o : ℕ) (w : World T) : World T := w.withOwner o (w.owners o).movedFrom

/-- The last window goes out of scope. -/
def dropLast (w : World T) : World T := { w.destroy (w.count - 1) with count := w.count - 1 }

end World

/-! ## Rings -/

/-- `DynamicRingBuffer` but for its window. -/
structure Ring where
  capacity : ℕ
  head : ℕ := 0
  size : ℕ := 0
deriving DecidableEq, Repr

namespace Ring

variable [Inhabited T]

/-- The window of a ring is made at its first push. -/
def materialize (o : ℕ) (r : Ring) (w : World T) : Option (World T) :=
  if (w.owners o).size = 0 then w.reset o r.capacity na else some w

/-- The slot before the head. -/
def next (r : Ring) : ℕ := if r.head = 0 then r.capacity - 1 else r.head - 1

/-- `push_front`. -/
def pushFront (o : ℕ) (value : T) (r : Ring) (w : World T) : Option (Ring × World T) :=
  if r.capacity = 0 then some (r, w)
  else
    (r.materialize o w).bind fun w =>
      if r.size = 0 then (w.write o 0 value).map fun w => ({ r with head := 0, size := 1 }, w)
      else (w.write o r.next value).map fun w =>
        ({ r with head := r.next, size := if r.size < r.capacity then r.size + 1 else r.size }, w)

/-- `update_front`. -/
def updateFront (o : ℕ) (value : T) (r : Ring) (w : World T) : Option (Ring × World T) :=
  if r.size = 0 then r.pushFront o value w else (w.write o r.head value).map fun w => (r, w)

/-- The place of an offset. -/
def place (r : Ring) (offset : ℕ) : ℕ :=
  if r.head + offset ≥ r.capacity then r.head + offset - r.capacity else r.head + offset

/-- `operator[]`. -/
def at_ (allocates : Bool) (o offset : ℕ) (r : Ring) (w : World T) : Option (T × World T) :=
  if offset ≥ r.size ∨ r.capacity = 0 then some (na, w) else w.read allocates o (r.place offset)

/-- `clear`. -/
def clear (o : ℕ) (r : Ring) (w : World T) : Option (Ring × World T) :=
  (w.reset o 0 na).map fun w => ({ r with head := 0, size := 0 }, w)

/-- The values of a ring, one by one, to the places of another window. -/
def transfer (allocates : Bool) (o t : ℕ) (r : Ring) : List ℕ → World T → Option (World T)
  | [], w => some w
  | i :: rest, w =>
    (r.at_ allocates o i w).bind fun got => (got.2.write t i got.1).bind
    (transfer allocates o t r rest)

/-- The new window is the last one while it is filled. -/
def resize (allocates : Bool) (o capacity : ℕ) (r : Ring) (w : World T) : Option (Ring × World T) :=
  if capacity = r.capacity then some (r, w)
  else
    let started := w.construct (w.owners o).capacity
    let size := min r.size capacity
    (if size ≠ 0 then started.reset w.count capacity na else some started).bind fun opened =>
      (r.transfer allocates o w.count (List.range size) opened).map fun filled =>
        (⟨capacity, 0, size⟩, (filled.moveAssign o w.count).dropLast)

end Ring

end PineForge.Series
