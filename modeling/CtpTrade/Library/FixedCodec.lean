import Mathlib.Algebra.Order.Ring.Nat
import Mathlib.Data.List.GetD

/-!
# Values as byte strings of a fixed length

A `FixedCodec` writes every value of a type as the same number of bytes and reads
it back from the front of any byte string that starts with them. Codecs are
built from bytes and little-endian words by pairing and by renaming; a file of
records of one codec can be read at any index (`recordAt_flatMap`).
-/

/-- An encoding of values in a fixed number of bytes that can be decoded with any bytes
behind it. The two laws are fields, so a codec that is built from codecs needs no proof
of its own. -/
structure FixedCodec (α : Type*) where
  size : Nat
  encode : α → List UInt8
  /-- Only the first `size` bytes matter. -/
  decode : List UInt8 → α
  length_encode : ∀ x, (encode x).length = size
  decode_encode : ∀ x rest, decode (encode x ++ rest) = x

namespace FixedCodec

universe u v

variable {α : Type u} {β : Type v}

/-- The `width` low bytes of a number, the lowest first. -/
def lowBytes : Nat → Nat → List UInt8
  | 0, _ => []
  | width + 1, n => UInt8.ofNat n :: lowBytes width (n / 256)

/-- The number in the first `width` bytes. -/
def ofLowBytes : Nat → List UInt8 → Nat
  | width + 1, b :: bytes => b.toNat + 256 * ofLowBytes width bytes
  | _, _ => 0

theorem length_lowBytes (width n : Nat) : (lowBytes width n).length = width := by
  induction width generalizing n with
  | zero => rfl
  | succ width ih => rw [lowBytes, List.length_cons, ih]

theorem ofLowBytes_lowBytes (width n : Nat) (rest : List UInt8) :
    ofLowBytes width (lowBytes width n ++ rest) = n % 256 ^ width := by
  induction width generalizing n with
  | zero => simp [ofLowBytes, Nat.mod_one]
  | succ width ih =>
      have split : n % 256 ^ (width + 1) = n % 256 + 256 * (n / 256 % 256 ^ width) := by
        rw [Nat.pow_succ', Nat.mod_mul]
      rw [lowBytes, List.cons_append, ofLowBytes, ih, UInt8.toNat_ofNat', split]

/-- Raw bytes. -/
def bytes (n : Nat) : FixedCodec (Vector UInt8 n) where
  size := n
  encode v := v.toList
  decode bs := Vector.ofFn fun i : Fin n => bs.getD i 0
  length_encode v := by simp
  decode_encode v rest := by
    apply Vector.ext
    intro i hi
    rw [Vector.getElem_ofFn, List.getD_append _ _ _ _ (by simpa using hi),
      List.getD_eq_getElem _ _ (by simpa using hi)]
    simp

/-- A little-endian word of `n` bytes. -/
def word (n : Nat) : FixedCodec (BitVec (8 * n)) where
  size := n
  encode x := lowBytes n x.toNat
  decode bs := BitVec.ofNat (8 * n) (ofLowBytes n bs)
  length_encode x := length_lowBytes n x.toNat
  decode_encode x rest := by
    have range : 256 ^ n = 2 ^ (8 * n) := by rw [Nat.pow_mul]
    rw [ofLowBytes_lowBytes, range, Nat.mod_eq_of_lt x.isLt, BitVec.ofNat_toNat, BitVec.setWidth_eq]

/-- One value behind the other. -/
def pair (a : FixedCodec α) (b : FixedCodec β) : FixedCodec (α × β) where
  size := a.size + b.size
  encode x := a.encode x.1 ++ b.encode x.2
  decode bs := (a.decode bs, b.decode (bs.drop a.size))
  length_encode x := by rw [List.length_append, a.length_encode, b.length_encode]
  decode_encode x rest := by
    rw [List.append_assoc, a.decode_encode, ← a.length_encode x.1, List.drop_left,
      b.decode_encode]

/-- The values of one type as those of another. -/
def rename (a : FixedCodec α) (toFun : α → β) (invFun : β → α)
    (inverse : ∀ y, toFun (invFun y) = y) : FixedCodec β where
  size := a.size
  encode y := a.encode (invFun y)
  decode bs := toFun (a.decode bs)
  length_encode y := a.length_encode (invFun y)
  decode_encode y rest := by rw [a.decode_encode, inverse]

def uint64 : FixedCodec UInt64 :=
  (word 8).rename UInt64.ofBitVec UInt64.toBitVec fun _ => rfl

def int32 : FixedCodec Int32 :=
  (word 4).rename Int32.ofBitVec Int32.toBitVec fun _ => rfl

variable (c : FixedCodec α)

/-- Record number `i` of a byte string of records of the codec's size, wherever the
string ends. -/
def recordAt (file : List UInt8) (i : Nat) : α :=
  c.decode ((file.drop (i * c.size)).take c.size)

theorem drop_flatMap (records : List α) (i : Nat) :
    (records.flatMap c.encode).drop (i * c.size) = (records.drop i).flatMap c.encode := by
  induction records generalizing i with
  | nil => simp
  | cons r records ih =>
      cases i with
      | zero => simp
      | succ i =>
          have shift : (i + 1) * c.size = (c.encode r).length + i * c.size := by
            rw [c.length_encode, Nat.succ_mul, Nat.add_comm]
          rw [List.flatMap_cons, shift, List.drop_length_add_append, ih, List.drop_succ_cons]

/-- Record `i` starts at `i` times the size. -/
theorem recordAt_flatMap {records : List α} {i : Nat} {r : α} (h : records[i]? = some r) :
    c.recordAt (records.flatMap c.encode) i = r := by
  obtain ⟨inside, rfl⟩ := List.getElem?_eq_some_iff.mp h
  rw [recordAt, drop_flatMap, List.drop_eq_getElem_cons inside, List.flatMap_cons,
    List.take_append_of_le_length (c.length_encode _).ge,
    List.take_of_length_le (c.length_encode _).le]
  simpa using c.decode_encode records[i] []

end FixedCodec
