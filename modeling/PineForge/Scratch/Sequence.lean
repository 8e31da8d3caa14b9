import Mathlib
import PineForge.Machine.MergeRuns
import PineForge.Machine.Window

/-!
# Scratch sequences

`scratch_sequence.hpp`: rows of one size in a file, with one window of 64 KiB that is written back.
A prefix is dropped by moving the base; a sort merges runs into a second sequence through two page
readers.

The rows are of any type. All transfers begin and end between rows, so the file is a function from
row numbers. Calls that fail to transfer are left out; the refusals of an index, of a range and of
an offset are kept.
-/

namespace PineForge.Scratch

open Window (put window)

/-- The bytes of a window. -/
def windowBytes : ℕ := 64 * 1024

/-- `kValues`. -/
def rowsOf (rowBytes : ℕ) : ℕ := windowBytes / rowBytes

/-- The largest `size_t`. -/
def sizeMax : ℕ := 2 ^ 64 - 1

/-- The largest `off_t`. -/
def offsetMax : ℕ := 2 ^ 63 - 1

/-- What a call throws. -/
inductive Failure where
  | outOfRange
  | offset
  | notPrefix
deriving DecidableEq, Repr

/-- The file and the window over it. -/
structure Sequence (α : Type) where
  file : ℕ → α
  window : ℕ → α
  base : ℕ := 0
  end_ : ℕ := 0
  page : ℕ := 0
  loaded : ℕ := 0
  dirty : Bool := false

variable {α : Type}

namespace Sequence

/-- The number of rows. -/
def size (s : Sequence α) : ℕ := s.end_ - s.base

/-- `clear`. -/
def clear (s : Sequence α) : Sequence α :=
  { s with base := 0, end_ := 0, page := 0, loaded := 0, dirty := false }

/-- Write the window if it is dirty. -/
def flush (s : Sequence α) : Sequence α :=
  if s.dirty then
    { s with file := put s.file s.page (Window.window s.window 0 s.loaded), dirty := false }
  else s

/-- The window over the page of a row. -/
def load (rowBytes global : ℕ) (s : Sequence α) : Sequence α :=
  let next := global - global % rowsOf rowBytes
  if s.loaded ≠ 0 ∧ s.page = next then s
  else
    let flushed := s.flush
    let count := if next < s.end_ then min (rowsOf rowBytes) (s.end_ - next) else 0
    { flushed with
      window := put flushed.window 0 (Window.window flushed.file next count)
      page := next
      loaded := count }

/-- `at`. -/
def at_ (rowBytes index : ℕ) (s : Sequence α) : Except Failure α × Sequence α :=
  if index ≥ s.size then (.error .outOfRange, s)
  else
    let loaded := s.load rowBytes (s.base + index)
    (.ok (loaded.window ((s.base + index) % rowsOf rowBytes)), loaded)

/-- `set`. -/
def set (rowBytes index : ℕ) (value : α) (s : Sequence α) : Except Failure Unit × Sequence α :=
  if index ≥ s.size then (.error .outOfRange, s)
  else
    let loaded := s.load rowBytes (s.base + index)
    (.ok (), { loaded with
      window := Function.update loaded.window ((s.base + index) % rowsOf rowBytes) value
      dirty := true })

/-- `byte_offset` and `check_extent` of a row. -/
def hasOffset (rowBytes index : ℕ) : Bool :=
  index ≠ sizeMax && index ≤ sizeMax / rowBytes && index * rowBytes ≤ offsetMax && rowBytes
    ≤ offsetMax - index * rowBytes

/-- `push_back`. -/
def pushBack (rowBytes : ℕ) (value : α) (s : Sequence α) : Except Failure Unit × Sequence α :=
  if hasOffset rowBytes s.end_ then
    let loaded := s.load rowBytes s.end_
    (.ok (), { loaded with
      window := Function.update loaded.window (s.end_ % rowsOf rowBytes) value
      loaded := max loaded.loaded (s.end_ % rowsOf rowBytes + 1)
      dirty := true
      end_ := s.end_ + 1 })
  else (.error .offset, s)

/-- The pushes of a resize. -/
def pushes (rowBytes : ℕ) (value : α) : ℕ → Sequence α → Except Failure Unit × Sequence α
  | 0, s => (.ok (), s)
  | n + 1, s =>
    let pushed := s.pushBack rowBytes value
    match pushed.1 with
    | .ok _ => pushes rowBytes value n pushed.2
    | .error failure => (.error failure, pushed.2)

/-- `resize`. -/
def resize (rowBytes count : ℕ) (value : α) (s : Sequence α) : Except Failure Unit × Sequence α :=
  let grown := pushes rowBytes value (count - s.size) s
  match grown.1 with
  | .error failure => (.error failure, grown.2)
  | .ok _ =>
    if count = grown.2.size then (.ok (), grown.2)
    else (.ok (), { grown.2.flush with end_ := grown.2.base + count, loaded := 0 })

/-- `erase`; the iterators are of this sequence or not. -/
def erase (owned : Bool) (first last : ℕ) (s : Sequence α) : Except Failure Unit × Sequence α :=
  if owned = false ∨ first ≠ 0 ∨ last > s.size then (.error .notPrefix, s)
  else (.ok (), { s with base := s.base + last })

end Sequence

/-! ## Sorting -/

/-- A reader's own page. -/
structure PageReader (α : Type) where
  values : ℕ → α
  first : ℕ := 0
  count : ℕ := 0

/-- A sort in progress. -/
structure Sorting (α : Type) where
  source : Sequence α
  leftPage : PageReader α
  rightPage : PageReader α
  scratch : Sequence α

/-- `PageReader::at`, which flushes the source before it reads a page. -/
def PageReader.at_ (rowBytes index : ℕ) (reader : PageReader α) (source : Sequence α) :
    α × PageReader α × Sequence α :=
  if index < reader.first ∨ index - reader.first ≥ reader.count then
    let flushed := source.flush
    let first := index - index % rowsOf rowBytes
    let count := min (rowsOf rowBytes) (source.size - first)
    let values := put reader.values 0 (window flushed.file (source.base + first) count)
    (values (index - first), ⟨values, first, count⟩, flushed)
  else (reader.values (index - reader.first), reader, source)

namespace Sorting

/-- Read a row of the left run. -/
def readLeft (rowBytes index : ℕ) (st : Sorting α) : α × Sorting α :=
  let read := st.leftPage.at_ rowBytes index st.source
  (read.1, { st with leftPage := read.2.1, source := read.2.2 })

/-- Read a row of the right run. -/
def readRight (rowBytes index : ℕ) (st : Sorting α) : α × Sorting α :=
  let read := st.rightPage.at_ rowBytes index st.source
  (read.1, { st with rightPage := read.2.1, source := read.2.2 })

/-- Whether the next row comes from the left run. -/
def takesLeft (rowBytes : ℕ) (before : α → α → Bool) (left middle right stop : ℕ) (st : Sorting α) :
    Bool × Sorting α :=
  if right = stop then (true, st)
  else if left < middle then
    let rightRow := st.readRight rowBytes right
    let leftRow := rightRow.2.readLeft rowBytes left
    (!before rightRow.1 leftRow.1, leftRow.2)
  else (false, st)

/-- Append a row to the scratch file. -/
def pushScratch (rowBytes : ℕ) (row : α × Sorting α) : Except Failure Unit × Sorting α :=
  let pushed := row.2.scratch.pushBack rowBytes row.1
  (pushed.1, { row.2 with scratch := pushed.2 })

/-- The merge of two runs; the fuel is the number of their rows. -/
def merge (rowBytes : ℕ) (before : α → α → Bool) (middle stop : ℕ) :
    ℕ → ℕ → ℕ → Sorting α → Except Failure Unit × Sorting α
  | 0, _, _, st => (.ok (), st)
  | fuel + 1, left, right, st =>
    if left < middle ∨ right < stop then
      let choice := st.takesLeft rowBytes before left middle right stop
      let pushed := pushScratch rowBytes
        (if choice.1 then choice.2.readLeft rowBytes left else choice.2.readRight rowBytes right)
      match pushed.1 with
      | .error failure => (.error failure, pushed.2)
      | .ok _ =>
        if choice.1 then merge rowBytes before middle stop fuel (left + 1) right pushed.2
        else merge rowBytes before middle stop fuel left (right + 1) pushed.2
    else (.ok (), st)

/-- One pass, from a start on; the fuel is the number of rows. -/
def pass (rowBytes : ℕ) (before : α → α → Bool) (width size : ℕ) :
    ℕ → ℕ → Sorting α → Except Failure Unit × Sorting α
  | 0, _, st => (.ok (), st)
  | fuel + 1, start, st =>
    if start < size then
      let middle := start + min width (size - start)
      let stop := middle + min width (size - middle)
      let merged := st.merge rowBytes before middle stop (stop - start) start middle
      match merged.1 with
      | .error failure => (.error failure, merged.2)
      | .ok _ => pass rowBytes before width size fuel stop merged.2
    else (.ok (), st)

end Sorting

/-- The passes, with a doubled width each time. -/
def sortFrom (rowBytes : ℕ) (before : α → α → Bool) :
    ℕ → ℕ → Sequence α → Sequence α → Except Failure Unit × Sequence α
  | 0, _, s, _ => (.ok (), s)
  | fuel + 1, width, s, scratch =>
    if width < s.size then
      let passed := Sorting.pass rowBytes before width s.size s.size 0 ⟨s, ⟨s.window, 0, 0⟩,
        ⟨s.window, 0, 0⟩, scratch.clear⟩
      match passed.1 with
      | .error failure => (.error failure, passed.2.source)
      | .ok _ =>
        -- the two sequences are swapped
        if width > s.size / 2 then (.ok (), passed.2.scratch)
        else sortFrom rowBytes before fuel (width * 2) passed.2.scratch passed.2.source
    else (.ok (), s)

/-- `stable_sort`, with a new sequence beside it. -/
def Sequence.stableSort (rowBytes : ℕ) (before : α → α → Bool) (s fresh : Sequence α) :
    Except Failure Unit × Sequence α := sortFrom rowBytes before s.size 1 s fresh

end PineForge.Scratch
