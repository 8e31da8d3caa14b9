import Mathlib

/-!
# A log with a resident tail

Records of one width, addressed by their absolute index. The newest stay in a tail of so many rows;
when the tail is full its older half is written to the file, at the place that its index has counted
from the file's origin. The journal appends to its log of pages, looks records up and forgets the
log whole; `retire_to`, which only the log of receipts calls, is not modelled.
-/

namespace PineForge.Journal

/-- A log whose tail is in memory. -/
structure TailLog (ρ : Type) where
  rows : ℕ
  /-- The records in memory, oldest first. -/
  tail : List ρ
  /-- The records before the tail: written to the file or retired. -/
  flushed : ℕ
  /-- The first record that is not retired. -/
  base : ℕ
  /-- The index of the file's first record. -/
  origin : ℕ
  /-- The records of the file; `none` where nothing was written. -/
  file : ℕ → Option ρ

namespace TailLog

variable {ρ : Type}

/-- A log without records. -/
def empty (rows : ℕ) : TailLog ρ :=
  { rows := rows, tail := [], flushed := 0, base := 0, origin := 0, file := fun _ => none }

/-- The number of records. -/
def size (log : TailLog ρ) : ℕ := log.flushed + log.tail.length

/-- The records one flush writes. -/
def flushRows (log : TailLog ρ) : ℕ := max 1 (log.rows / 2)

/-- Writes records to the file from a place on. -/
def write (file : ℕ → Option ρ) (place : ℕ) (records : List ρ) : ℕ → Option ρ := fun i =>
  if place ≤ i ∧ i < place + records.length then records[i - place]? else file i

/-- Flush half the tail where it is full. -/
def makeRoom (log : TailLog ρ) : TailLog ρ :=
  if log.tail.length < log.rows then log
  else
    let half := log.flushRows
    { log with
      file := write log.file (log.flushed - log.origin) (log.tail.take half)
      tail := log.tail.drop half
      flushed := log.flushed + half }

/-- Append a record. -/
def push (log : TailLog ρ) (record : ρ) : TailLog ρ := { log with tail := log.tail ++ [record] }

/-- `none` for an index that is not retained. -/
def get (log : TailLog ρ) (index : ℕ) : Option ρ :=
  if index < log.base ∨ log.size ≤ index then none
  else if log.flushed ≤ index then log.tail[index - log.flushed]?
  else log.file (index - log.origin)

/-- Forget all records. -/
def reset (log : TailLog ρ) : TailLog ρ := empty log.rows

/-! ## The log as a list -/

/-- The log holds the records of a list, those before its base no more. -/
structure Holds (log : TailLog ρ) (records : List ρ) : Prop where
  size : log.size = records.length
  base : log.base ≤ log.size
  origin : log.origin ≤ log.base
  flushed : log.base ≤ log.flushed ∨ log.tail = []
  room : log.tail.length ≤ log.rows
  positive : 0 < log.rows
  tail : log.tail = records.drop log.flushed
  file : ∀ i, log.base ≤ i → i < log.flushed → log.file (i - log.origin) = records[i]?

variable {log : TailLog ρ} {records : List ρ}

theorem holds_empty {rows : ℕ} (hrows : 0 < rows) : (empty rows : TailLog ρ).Holds [] where
  size := rfl
  base := Nat.le_refl 0
  origin := Nat.le_refl 0
  flushed := .inl (Nat.le_refl 0)
  room := Nat.zero_le rows
  positive := hrows
  tail := rfl
  file := fun i _ hi => absurd hi (Nat.not_lt_zero i)

theorem Holds.reset (h : log.Holds records) : log.reset.Holds [] := holds_empty h.positive

theorem Holds.get (h : log.Holds records) {i : ℕ} (hi : log.base ≤ i) :
    log.get i = records[i]? := by
  have hsize := h.size
  unfold TailLog.get
  by_cases hout : log.size ≤ i
  · rw [if_pos (.inr hout)]
    exact (List.getElem?_eq_none (by omega)).symm
  · rw [if_neg (by omega)]
    by_cases hflushed : log.flushed ≤ i
    · rw [if_pos hflushed, h.tail, List.getElem?_drop]
      congr 1
      omega
    · rw [if_neg hflushed]
      exact h.file i hi (by omega)

theorem write_of_lt {file : ℕ → Option ρ} {place : ℕ} {written : List ρ} {i : ℕ} (hi : i < place) :
    write file place written i = file i := if_neg (by omega)

theorem write_of_ge {file : ℕ → Option ρ} {place : ℕ} {written : List ρ} {i : ℕ} (hi : place ≤ i)
    (hlt : i < place + written.length) : write file place written i = written[i - place]? :=
  if_pos ⟨hi, hlt⟩

theorem Holds.flush_le (h : log.Holds records) (hfull : log.rows ≤ log.tail.length) :
    log.flushRows ≤ log.tail.length := by
  have := h.positive
  unfold flushRows
  omega

/-- A flush keeps every record. -/
theorem Holds.makeRoom (h : log.Holds records) :
    log.makeRoom.Holds records ∧ log.makeRoom.base = log.base ∧
      log.makeRoom.tail.length < log.makeRoom.rows := by
  unfold TailLog.makeRoom
  by_cases hroom : log.tail.length < log.rows
  · rw [if_pos hroom]
    exact ⟨h, rfl, hroom⟩
  · rw [if_neg hroom]
    have hhalf := h.flush_le (Nat.le_of_not_lt hroom)
    have hpos : 0 < log.flushRows := by
      unfold flushRows
      omega
    have hsize := h.size
    have hbase := h.base
    have horigin := h.origin
    have hroomy := h.room
    have hbelow : log.base ≤ log.flushed := by
      obtain hbelow | hnil := h.flushed
      · exact hbelow
      · rw [hnil, List.length_nil] at hhalf
        omega
    unfold TailLog.size at hsize hbase
    refine ⟨{
      size := ?_, base := ?_, origin := horigin, flushed := ?_, room := ?_, positive := h.positive,
      tail := ?_, file := ?_ }, rfl, ?_⟩
    · unfold TailLog.size
      simp only [List.length_drop]
      omega
    · unfold TailLog.size
      simp only [List.length_drop]
      omega
    · left
      dsimp only
      omega
    · simp only [List.length_drop]
      omega
    · simp only [h.tail, List.drop_drop]
    · intro i hi hlt
      dsimp only at hi hlt ⊢
      by_cases hold : i < log.flushed
      · rw [write_of_lt (by omega)]
        exact h.file i hi hold
      · rw [write_of_ge (by omega) (by rw [List.length_take]; omega),
          List.getElem?_take_of_lt (by omega),
          h.tail, List.getElem?_drop]
        congr 1
        omega
    · simp only [List.length_drop]
      omega

theorem Holds.push (h : log.Holds records) (hroom : log.tail.length < log.rows) (record : ρ) :
    (log.push record).Holds (records ++ [record]) := by
  have hsize := h.size
  have hbase := h.base
  unfold TailLog.size at hsize hbase
  have hflushed : log.flushed ≤ records.length := by omega
  unfold TailLog.push
  refine {
    size := ?_, base := ?_, origin := h.origin, flushed := ?_, room := ?_, positive := h.positive,
    tail := ?_, file := ?_ }
  · unfold TailLog.size
    simp only [List.length_append, List.length_singleton]
    omega
  · unfold TailLog.size
    simp only [List.length_append, List.length_singleton]
    omega
  · left
    dsimp only
    obtain hbelow | hnil := h.flushed
    · exact hbelow
    · rw [hnil, List.length_nil] at hbase
      exact hbase
  · simp only [List.length_append, List.length_singleton]
    omega
  · simp only [h.tail, List.drop_append_of_le_length hflushed]
  · intro i hi hlt
    dsimp only at hi hlt ⊢
    rw [List.getElem?_append_left (by omega)]
    exact h.file i hi hlt

end TailLog

end PineForge.Journal
