import Mathlib

/-!
# The action of a byte string on a hash

`BrokerStateHashSink::bytes` takes each byte into the hash by an exclusive or and a multiplication
modulo `2 ^ 64`. The exclusive or touches the low byte only, so the hash of a string is affine in
the rest of the seed: `F (256 * q + r) = F r + q * (F 256 - F 0)`. `BrokerStateByteFold` keeps `F 0`
to `F 256`, from which `apply` has the hash at every seed and `then` the fold of a concatenation.
-/

namespace PineForge.IdPair

/-- A `uint64_t`. -/
abbrev Word := BitVec 64

/-- A byte. -/
abbrev Byte := BitVec 8

/-- The prime of FNV-1a. -/
def prime : Word := 1099511628211

/-- `BrokerStateHashSink::bytes`: the hash after one more byte. -/
def hashByte (h : Word) (c : Byte) : Word := (h ^^^ c.setWidth 64) * prime

/-- Hash bytes from a seed. -/
def hashBytes (h : Word) (data : List Byte) : Word := data.foldl hashByte h

/-- `basis_[r]` is the hash of the string from the seed `r`. -/
structure ByteFold where
  basis : Vector Word 257
deriving DecidableEq

namespace ByteFold

/-- `reset`. -/
def identity : ByteFold := ⟨Vector.ofFn fun r => BitVec.ofNat 64 r⟩

theorem low_lt (seed : Word) : (seed &&& 255).toNat < 257 := by
  rw [BitVec.toNat_and]
  exact Nat.lt_of_le_of_lt Nat.and_le_right (by decide)

/-- The fold of a seed. -/
def apply (fold : ByteFold) (seed : Word) : Word :=
  fold.basis.get ⟨(seed &&& 255).toNat, low_lt seed⟩ + (seed >>> 8)
    * (fold.basis[256] - fold.basis[0])

/-- The fold with more bytes. -/
def bytes (fold : ByteFold) (data : List Byte) : ByteFold :=
  ⟨fold.basis.map fun seed => hashBytes seed data⟩

/-- `then`: this fold, and the other one after it. -/
def andThen (fold after : ByteFold) : ByteFold := ⟨fold.basis.map after.apply⟩

end ByteFold

/-! ## The low byte and the rest -/

/-- A word of a rest and a low byte. -/
def joined (q : Word) (r : Byte) : Word := 256 * q + r.setWidth 64

theorem shiftLeft_eq (q : Word) : q <<< 8 = 256 * q := by
  rw [BitVec.shiftLeft_eq_mul_twoPow, BitVec.mul_comm]
  rfl

theorem joined_eq_or (q : Word) (r : Byte) : joined q r = q <<< 8 ||| r.setWidth 64 := by
  rw [joined, ← shiftLeft_eq, BitVec.add_eq_or_of_and_eq_zero]
  ext i hi
  simp only [BitVec.getElem_and, BitVec.getElem_shiftLeft, BitVec.getElem_setWidth,
    BitVec.getElem_zero]
  by_cases h : i < 8
  · simp [h]
  · simp [BitVec.getLsbD_of_ge r i (by omega)]

theorem getLsbD_joined (q : Word) (r : Byte) (i : ℕ) :
    (joined q r).getLsbD i = if i < 8 then r.getLsbD i else decide (i < 64) && q.getLsbD
    (i - 8) := by
  rw [joined_eq_or, BitVec.getLsbD_or, BitVec.getLsbD_shiftLeft, BitVec.getLsbD_setWidth]
  by_cases h : i < 8
  · simp [h, show i < 64 by omega]
  · simp [h, BitVec.getLsbD_of_ge r i (by omega)]

theorem joined_split (x : Word) : joined (x >>> 8) (x.setWidth 8) = x := by
  apply BitVec.eq_of_getLsbD_eq
  intro i hi
  rw [getLsbD_joined]
  by_cases h : i < 8
  · simp [h]
  · simp [h, hi, Nat.add_sub_cancel' (show 8 ≤ i by omega)]

theorem joined_xor (q : Word) (r c : Byte) : joined q r ^^^ c.setWidth 64 = joined q (r ^^^ c) := by
  apply BitVec.eq_of_getLsbD_eq
  intro i hi
  rw [BitVec.getLsbD_xor, getLsbD_joined, getLsbD_joined, BitVec.getLsbD_setWidth]
  by_cases h : i < 8
  · simp [h, hi]
  · simp [h, BitVec.getLsbD_of_ge c i (by omega)]

/-! ## The hash of a string is affine in the rest of the seed -/

theorem hashBytes_cons (h : Word) (c : Byte) (data : List Byte) :
    hashBytes h (c :: data) = hashBytes (hashByte h c) data := rfl

/-- `F 256 - F 0`: what one more in the rest of the seed adds. -/
def slope : List Byte → Word
  | [] => 256
  | _ :: data => prime * slope data

theorem hashBytes_joined (data : List Byte) (q : Word) (r : Byte) :
    hashBytes (joined q r) data = hashBytes (joined 0 r) data + q * slope data := by
  -- induction over the string: the carry out of the low byte goes into the rest
  induction data generalizing q r with
  | nil =>
    change 256 * q + r.setWidth 64 = 256 * 0 + r.setWidth 64 + q * 256
    ring
  | cons c data ih =>
    have hstep : ∀ q : Word, hashByte (joined q r) c =
        joined (q * prime + ((r ^^^ c).setWidth 64 * prime) >>> 8)
          (((r ^^^ c).setWidth 64 * prime).setWidth 8) := by
      intro q
      have hsplit := joined_split ((r ^^^ c).setWidth 64 * prime)
      unfold joined at hsplit
      rw [hashByte, joined_xor]
      unfold joined
      calc (256 * q + (r ^^^ c).setWidth 64) * prime
          = 256 * (q * prime) + (r ^^^ c).setWidth 64 * prime := by ring
        _ = _ := by
          rw [BitVec.mul_add, BitVec.add_assoc, hsplit]
    rw [hashBytes_cons, hashBytes_cons, hstep q, hstep 0, ih, ih (0 * prime + _), slope]
    ring

theorem hashBytes_append (h : Word) (data more : List Byte) :
    hashBytes h (data ++ more) = hashBytes (hashBytes h data) more := List.foldl_append

/-! ## The fold of a string -/

namespace ByteFold

/-- The fold that `bytes` builds from the identity. -/
def ofBytes (data : List Byte) : ByteFold := identity.bytes data

theorem ofBytes_basis (data : List Byte) (r : ℕ) (hr : r < 257) :
    (ofBytes data).basis.get ⟨r, hr⟩ = hashBytes (BitVec.ofNat 64 r) data := by
  simp [ofBytes, bytes, identity, Vector.get]
  rfl

theorem ofBytes_slope (data : List Byte) : (ofBytes data).basis[256] - (ofBytes data).basis[0]
    = slope data := by
  have hone : (ofBytes data).basis[256] = hashBytes (joined 1 0) data :=
    ofBytes_basis data 256 (by decide)
  have hzero : (ofBytes data).basis[0] = hashBytes (joined 0 0) data :=
    ofBytes_basis data 0 (by decide)
  rw [hone, hzero, hashBytes_joined data 1 0]
  ring

/-- `apply` is the hash of the string, from every seed. -/
theorem ofBytes_apply (data : List Byte) (seed : Word) :
    (ofBytes data).apply seed = hashBytes seed data := by
  have hlow : BitVec.ofNat 64 (seed &&& 255).toNat = joined 0 (seed.setWidth 8) := by
    have hmask : (255 : Word) = (BitVec.allOnes 8).setWidth 64 := by decide
    apply BitVec.eq_of_getLsbD_eq
    intro i hi
    rw [BitVec.ofNat_toNat, BitVec.setWidth_eq, getLsbD_joined, hmask, BitVec.getLsbD_and,
      BitVec.getLsbD_setWidth,
      BitVec.getLsbD_setWidth, BitVec.getLsbD_allOnes]
    by_cases h : i < 8
    · simp [h, hi]
    · simp [h]
  calc (ofBytes data).apply seed
      = hashBytes (joined 0 (seed.setWidth 8)) data + (seed >>> 8) * slope data := by
        rw [apply, ofBytes_slope, ofBytes_basis, hlow]
    _ = hashBytes (joined (seed >>> 8) (seed.setWidth 8)) data := (hashBytes_joined ..).symm
    _ = hashBytes seed data := by rw [joined_split]

theorem ofBytes_bytes (data more : List Byte) :
    (ofBytes data).bytes more = ofBytes (data ++ more) := by
  unfold ofBytes bytes
  congr 1
  ext r hr
  simp [hashBytes_append]

theorem ofBytes_andThen (data more : List Byte) :
    (ofBytes data).andThen (ofBytes more) = ofBytes (data ++ more) := by
  rw [← ofBytes_bytes, andThen, bytes]
  congr 1
  ext r hr
  simp [ofBytes_apply]

theorem ofBytes_nil : ofBytes [] = identity := by
  have hid : (fun seed => hashBytes seed []) = id := rfl
  rw [ofBytes, bytes, hid, Vector.map_id]

/-- A fold built from a string is the action of the string: at every seed it has the hash, and folds
one after the other are the fold of the concatenation, with the fold of the empty string as the
identity. -/
theorem represents_action :
    (∀ data seed, (identity.bytes data).apply seed = hashBytes seed data) ∧
      (∀ data more, (identity.bytes data).bytes more = identity.bytes (data ++ more)) ∧
      (∀ data more, (identity.bytes data).andThen (identity.bytes more)
        = identity.bytes (data ++ more)) ∧
      (∀ a b c, ((identity.bytes a).andThen (identity.bytes b)).andThen (identity.bytes c) =
        (identity.bytes a).andThen ((identity.bytes b).andThen (identity.bytes c))) ∧
      identity.bytes [] = identity ∧
      ∀ data, identity.andThen (identity.bytes data) = identity.bytes data ∧
        (identity.bytes data).andThen identity = identity.bytes data := by
  refine ⟨ofBytes_apply, ofBytes_bytes, ofBytes_andThen, fun a b c => ?_, ofBytes_nil,
    fun data => ⟨?_, ?_⟩⟩
  · change ((ofBytes a).andThen (ofBytes b)).andThen (ofBytes c)
      = (ofBytes a).andThen ((ofBytes b).andThen (ofBytes c))
    rw [ofBytes_andThen, ofBytes_andThen, ofBytes_andThen, ofBytes_andThen, List.append_assoc]
  · change identity.andThen (ofBytes data) = ofBytes data
    rw [← ofBytes_nil, ofBytes_andThen, List.nil_append]
  · change (ofBytes data).andThen identity = ofBytes data
    rw [← ofBytes_nil, ofBytes_andThen, List.append_nil]

end ByteFold

end PineForge.IdPair
