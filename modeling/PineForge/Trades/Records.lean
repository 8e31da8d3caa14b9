import Mathlib
import PineForge.Machine.Endian

/-!
# Trades and their descriptors

A closed trade is its figures and four texts. On disk its figures and the places of its texts make a
descriptor of a fixed width, and a descriptor comes back from its bytes (`decode_encode`). Machine
numbers are their bits: the ledger only copies them.
-/

namespace PineForge.Trades

open BigEndian

/-- The numbers of a trade. -/
structure Figures where
  entryTime : UInt64
  exitTime : UInt64
  entryPrice : UInt64
  exitPrice : UInt64
  qty : UInt64
  pnl : UInt64
  pnlPct : UInt64
  entryBarIndex : UInt32
  exitBarIndex : UInt32
  maxRunup : UInt64
  maxDrawdown : UInt64
  commission : UInt64
  entryIncarnation : UInt64
  closeCause : UInt8
  isLong : Bool
  exitFromBracket : Bool
  openAtEnd : Bool
deriving DecidableEq, Inhabited

/-- The four texts of a trade, or their places. -/
structure Texts (α : Type) where
  entryId : α
  entryComment : α
  exitComment : α
  exitId : α
deriving DecidableEq, Inhabited

/-- The texts in order. -/
def Texts.toList {α : Type} (texts : Texts α) : List α :=
  [texts.entryId, texts.entryComment, texts.exitComment, texts.exitId]

/-- A trade. -/
structure Trade where
  figures : Figures
  texts : Texts Bytes
deriving DecidableEq, Inhabited

/-- Where a text is stored. -/
structure StringExtent where
  offset : UInt64
  length : UInt64
deriving DecidableEq, Inhabited

/-- A stored trade. -/
structure Record where
  figures : Figures
  texts : Texts StringExtent
deriving DecidableEq, Inhabited

/-- The width of a descriptor. -/
def recordBytes : ℕ := 168

/-- The words of an extent. -/
def StringExtent.words (text : StringExtent) : List ℕ := [text.offset.toNat, text.length.toNat]

/-- The words of a descriptor in memory order. -/
def Record.words (r : Record) : List ℕ :=
  [r.figures.entryTime.toNat, r.figures.exitTime.toNat, r.figures.entryPrice.toNat,
    r.figures.exitPrice.toNat,
    r.figures.qty.toNat, r.figures.pnl.toNat, r.figures.pnlPct.toNat,
    r.figures.entryBarIndex.toNat + 2 ^ 32 * r.figures.exitBarIndex.toNat] ++
  r.texts.toList.flatMap StringExtent.words ++
  [r.figures.maxRunup.toNat, r.figures.maxDrawdown.toNat, r.figures.commission.toNat,
    r.figures.entryIncarnation.toNat,
    r.figures.closeCause.toNat
      + 2 ^ 8 * (r.figures.isLong.toNat + 2 * (r.figures.exitFromBracket.toNat
      + 2 * r.figures.openAtEnd.toNat))]

/-- The descriptor of some words. -/
def Record.ofWords (words : List ℕ) : Record :=
  let word i := UInt64.ofNat (words.getD i 0)
  let flags := words.getD 20 0
  { figures :=
      { entryTime := word 0, exitTime := word 1, entryPrice := word 2, exitPrice := word 3,
        qty := word 4
        pnl := word 5, pnlPct := word 6, entryBarIndex := UInt32.ofNat (words.getD 7 0)
        exitBarIndex := UInt32.ofNat (words.getD 7 0 / 2 ^ 32), maxRunup :=
          word 16, maxDrawdown := word 17
        commission := word 18, entryIncarnation := word 19, closeCause := UInt8.ofNat flags
        isLong := flags / 2 ^ 8 % 2 == 1, exitFromBracket := flags / 2 ^ 9 % 2 == 1
        openAtEnd := flags / 2 ^ 10 % 2 == 1 }
    texts := ⟨⟨word 8, word 9⟩, ⟨word 10, word 11⟩, ⟨word 12, word 13⟩, ⟨word 14, word 15⟩⟩ }

theorem low_half (a b : UInt32) : UInt32.ofNat (a.toNat + 2 ^ 32 * b.toNat) = a := by
  apply UInt32.toNat_inj.mp
  have := a.toNat_lt
  rw [UInt32.toNat_ofNat']
  omega

theorem high_half (a b : UInt32) : UInt32.ofNat ((a.toNat + 2 ^ 32 * b.toNat) / 2 ^ 32) = b := by
  apply UInt32.toNat_inj.mp
  have := a.toNat_lt
  have := b.toNat_lt
  rw [UInt32.toNat_ofNat']
  omega

theorem low_byte (c : UInt8) (flags : ℕ) : UInt8.ofNat (c.toNat + 2 ^ 8 * flags) = c := by
  apply UInt8.toNat_inj.mp
  have := c.toNat_lt
  rw [UInt8.toNat_ofNat']
  omega

theorem flags_bits (c : UInt8) (a b d : Bool) :
    ((c.toNat + 2 ^ 8 * (a.toNat + 2 * (b.toNat + 2 * d.toNat))) / 2 ^ 8 % 2 == 1) = a ∧
      ((c.toNat + 2 ^ 8 * (a.toNat + 2 * (b.toNat + 2 * d.toNat))) / 2 ^ 9 % 2 == 1) = b ∧
      ((c.toNat + 2 ^ 8 * (a.toNat + 2 * (b.toNat + 2 * d.toNat))) / 2 ^ 10 % 2 == 1) = d := by
  have hc := c.toNat_lt
  generalize c.toNat = n at hc
  have hbit : ∀ (k : ℕ) (x : Bool), k % 2 = x.toNat → (k % 2 == 1) = x := by
    intro k x hk
    rw [hk]
    cases x with
    | false => rfl
    | true => rfl
  have ha := a.toNat_lt
  have hb := b.toNat_lt
  have hd := d.toNat_lt
  refine ⟨hbit _ _ ?_, hbit _ _ ?_, hbit _ _ ?_⟩
  · omega
  · omega
  · omega

theorem Record.ofWords_words (r : Record) : ofWords r.words = r := by
  obtain ⟨figures, texts⟩ := r
  obtain ⟨hlong, hbracket, hopen⟩ :=
    flags_bits figures.closeCause figures.isLong figures.exitFromBracket figures.openAtEnd
  simp only [words, Texts.toList, StringExtent.words, List.flatMap_cons, List.flatMap_nil,
    List.append_nil,
    List.cons_append, List.nil_append, ofWords, List.getD_cons_zero, List.getD_cons_succ,
      UInt64.ofNat_toNat,
    low_half, high_half, low_byte, hlong, hbracket, hopen]

theorem Record.words_lt (r : Record) : ∀ w ∈ r.words, w < 256 ^ 8 := by
  have hword : ∀ w : UInt64, w.toNat < 256 ^ 8 := fun w => w.toNat_lt
  have hbars : r.figures.entryBarIndex.toNat + 2 ^ 32 * r.figures.exitBarIndex.toNat < 256 ^ 8 := by
    have := r.figures.entryBarIndex.toNat_lt
    have := r.figures.exitBarIndex.toNat_lt
    omega
  have hflags : r.figures.closeCause.toNat + 2 ^ 8 * (r.figures.isLong.toNat
      + 2 * (r.figures.exitFromBracket.toNat + 2 * r.figures.openAtEnd.toNat)) < 256 ^ 8 := by
    have := r.figures.closeCause.toNat_lt
    have := r.figures.isLong.toNat_lt
    have := r.figures.exitFromBracket.toNat_lt
    have := r.figures.openAtEnd.toNat_lt
    omega
  simp only [words, Texts.toList, StringExtent.words, List.flatMap_cons, List.flatMap_nil,
    List.append_nil,
    List.cons_append, List.nil_append, List.forall_mem_cons, hword, hbars, hflags, true_and]
  exact nofun

/-- The bytes of some words, and the words of some bytes. -/
def wordBytes (words : List ℕ) : Bytes := words.flatMap (bytes 8)

/-- So many words of bytes. -/
def bytesWords : ℕ → Bytes → List ℕ
  | 0, _ => []
  | n + 1, bs => word (bs.take 8) :: bytesWords n (bs.drop 8)

theorem bytesWords_wordBytes (words : List ℕ) (h : ∀ w ∈ words, w < 256 ^ 8) :
    bytesWords words.length (wordBytes words) = words := by
  induction words with
  | nil => rfl
  | cons w words ih =>
    have hlength : (bytes 8 w).length = 8 := length_bytes 8 w
    rw [List.length_cons, bytesWords, wordBytes, List.flatMap_cons,
      List.take_append_of_le_length hlength.ge,
      List.take_of_length_le hlength.le, word_bytes (h w (List.mem_cons_self ..)),
      List.drop_append_of_le_length hlength.ge, List.drop_of_length_le hlength.le, List.nil_append]
    exact congrArg (w :: ·) (ih fun v hv => h v (List.mem_cons_of_mem _ hv))

/-- The bytes of a record. -/
def encode (r : Record) : Bytes := wordBytes r.words

/-- The record of bytes. -/
def decode (bs : Bytes) : Record := .ofWords (bytesWords 21 bs)

theorem decode_encode (r : Record) : decode (encode r) = r := by
  have h := bytesWords_wordBytes r.words r.words_lt
  unfold decode encode
  exact (congrArg Record.ofWords h).trans r.ofWords_words

theorem length_encode (r : Record) : (encode r).length = recordBytes := by
  rfl

end PineForge.Trades
