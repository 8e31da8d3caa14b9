import Mathlib

/-!
# Files of bytes

The bytes of a file under positional reads, writes and truncation. A write past the end leaves a
hole of zeros. `AgreesOn` is the frame of the writes that stay off a set of positions, and a file
cut back to its old length reads there as it did (`readAt_truncate`).
-/

namespace PineForge.ByteFile

variable {α : Type} [Zero α]

/-- The bytes after a write. -/
def writeAt (bytes : List α) (offset : ℕ) (data : List α) : List α :=
  if data = [] then bytes
  else bytes.take offset ++ List.replicate (offset - bytes.length) 0 ++ data ++
    bytes.drop (offset + data.length)

/-- The bytes at a length: cut off, or filled up with zeros. -/
def truncateTo (bytes : List α) (size : ℕ) : List α :=
  bytes.take size ++ List.replicate (size - bytes.length) 0

omit [Zero α] in
/-- What a read gives; it does not go past the end. -/
def readAt (bytes : List α) (offset length : ℕ) : Option (List α) :=
  if offset + length ≤ bytes.length then some ((bytes.drop offset).take length) else none

/-- The second file is no shorter and has the bytes of the first at some positions. -/
structure AgreesOn (positions : ℕ → Prop) (old new : List α) : Prop where
  length : old.length ≤ new.length
  bytes : ∀ i, positions i → i < old.length → new[i]? = old[i]?

omit [Zero α] in
theorem AgreesOn.refl (positions : ℕ → Prop) (bytes : List α) : AgreesOn positions bytes bytes :=
  ⟨le_rfl, fun _ _ _ => rfl⟩

omit [Zero α] in
theorem AgreesOn.trans {positions : ℕ → Prop} {a b c : List α} (h : AgreesOn positions a b)
    (h' : AgreesOn positions b c) : AgreesOn positions a c :=
  ⟨h.length.trans h'.length, fun i hi hlt => (h'.bytes i hi (hlt.trans_le h.length)).trans
    (h.bytes i hi hlt)⟩

theorem length_writeAt (bytes : List α) (offset : ℕ) {data : List α} (h : data ≠ []) :
    (writeAt bytes offset data).length = max bytes.length (offset + data.length) := by
  rw [writeAt, if_neg h]
  simp only [List.length_append, List.length_take, List.length_replicate, List.length_drop]
  omega

theorem getElem?_writeAt (bytes : List α) (offset : ℕ) (data : List α) {i : ℕ}
    (hi : i < offset ∨ offset + data.length ≤ i) (hlt : i < bytes.length) :
    (writeAt bytes offset data)[i]? = bytes[i]? := by
  unfold writeAt
  split
  · rfl
  · rcases hi with hi | hi
    · rw [List.append_assoc, List.append_assoc, List.getElem?_append_left]
      · rw [List.getElem?_take_of_lt hi]
      · rw [List.length_take]
        omega
    · rw [List.getElem?_append_right]
      · rw [List.getElem?_drop]
        congr 1
        simp only [List.length_append, List.length_take, List.length_replicate]
        omega
      · simp only [List.length_append, List.length_take, List.length_replicate]
        omega

theorem agreesOn_writeAt {positions : ℕ → Prop} (bytes : List α) {offset : ℕ} {data : List α}
    (h : ∀ i, positions i → i < offset ∨ offset + data.length ≤ i) :
    AgreesOn positions bytes (writeAt bytes offset data) := by
  refine ⟨?_, fun i hi hlt => getElem?_writeAt bytes offset data (h i hi) hlt⟩
  by_cases hdata : data = []
  · rw [writeAt, if_pos hdata]
  · rw [length_writeAt bytes offset hdata]
    exact le_max_left ..

theorem readAt_writeAt (bytes : List α) (offset : ℕ) {data : List α} (h : data ≠ []) :
    readAt (writeAt bytes offset data) offset data.length = some data := by
  rw [readAt, if_pos (by rw [length_writeAt bytes offset h]; exact le_max_right ..),
    writeAt, if_neg h]
  have hlength : (bytes.take offset ++ List.replicate (offset - bytes.length) 0).length
      = offset := by
    simp only [List.length_append, List.length_take, List.length_replicate]
    omega
  rw [List.append_assoc, List.drop_append_of_le_length (by rw [hlength]),
    List.drop_of_length_le (by rw [hlength]),
    List.nil_append, List.take_left]

theorem truncateTo_eq (bytes : List α) {size : ℕ} (h : size ≤ bytes.length) :
    truncateTo bytes size = bytes.take size := by
  rw [truncateTo, Nat.sub_eq_zero_of_le h]
  simp

omit [Zero α] in
theorem readAt_take {bytes : List α} {size offset length : ℕ} (h : offset + length ≤ size)
    (hsize : size ≤ bytes.length) :
    readAt (bytes.take size) offset length = readAt bytes offset length := by
  rw [readAt, readAt, if_pos, if_pos (h.trans hsize)]
  · rw [List.drop_take, List.take_take]
    congr 2
    omega
  · rw [List.length_take]
    omega

omit [Zero α] in
theorem readAt_congr {old new : List α} {offset length : ℕ} (hlength : new.length = old.length)
    (h : ∀ i, offset ≤ i → i < offset + length → new[i]? = old[i]?) :
    readAt new offset length = readAt old offset length := by
  rw [readAt, readAt, hlength]
  split
  · congr 1
    apply List.ext_getElem?
    intro i
    rw [List.getElem?_take, List.getElem?_take]
    split
    · rename_i hi
      rw [List.getElem?_drop, List.getElem?_drop]
      exact h _ (Nat.le_add_right ..) (Nat.add_lt_add_left hi _)
    · rfl
  · rfl

theorem readAt_truncate {positions : ℕ → Prop} {old new : List α} (h : AgreesOn positions old new)
    {offset length : ℕ} (hrange : ∀ i, offset ≤ i → i < offset + length → positions i) :
    readAt (truncateTo new old.length) offset length = readAt old offset length := by
  have hcut : truncateTo new old.length = new.take old.length := truncateTo_eq new h.length
  apply readAt_congr
  · rw [hcut, List.length_take, Nat.min_eq_left h.length]
  · intro i hlow hhigh
    rw [hcut, List.getElem?_take]
    split
    · rename_i hlt
      exact h.bytes i (hrange i hlow hhigh) hlt
    · rename_i hge
      rw [List.getElem?_eq_none (not_lt.mp hge)]

end PineForge.ByteFile
