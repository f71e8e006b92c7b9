import ScaleCodec.EncoderStream
import ScaleCodec.DecoderStream

/-!
# Fixed-width integers

The stream operators of `bool` and the builtin integers, and those of Boost's fixed-width types.
The number of bytes of the latter, `FixedWidthIntegerTraits::bytes`, is computed from the limbs a
value-initialised number has in use.
-/

namespace ScaleCodec

/-! ### Builtin types -/

/-- `sizeof` of a builtin integer type. -/
inductive IntSize
  | one
  | two
  | four
  | eight
  deriving DecidableEq, Repr

namespace IntSize

/-- The number of bytes. -/
def bytes : IntSize → ℕ
  | one => 1
  | two => 2
  | four => 4
  | eight => 8

/-- The number of bits. -/
def bits (size : IntSize) : ℕ := 8 * size.bytes

end IntSize

/-- The types `std::is_integral_v` holds for, over the types of their values; an integer is the bit
pattern of its two's complement. -/
inductive Integral : Type → Type 1
  | bool : Integral Bool
  | int (signed : Bool) (size : IntSize) : Integral (BitVec size.bits)

namespace Integral

/-- `operator<=`. -/
def le {β : Type} : Integral β → β → β → Bool
  | bool, x, y => x ≤ y
  | int true _, x, y => x.sle y
  | int false _, x, y => x.ule y

/-- `operator==`. -/
def eq {β : Type} : Integral β → β → β → Bool
  | bool, x, y => x = y
  | int _ _, x, y => x = y

end Integral

/-- `operator<<` of an integral type. -/
def encodeIntegral {β : Type} : Integral β → β → Encoding Unit
  | .bool, v => putByte (if v then 1 else 0)
  | .int _ size, v =>
    -- to avoid infinite recursion
    if size.bytes = 1 then putByte (UInt8.ofNat v.toNat)
    else encodeInteger size.bytes v.toNat

/-- `decodeBool`. -/
def decodeBool : Decoding Bool := do
  let byte ← nextByte
  if byte = 0 then pure false
  else if byte = 1 then pure true
  else raise (.decode .unexpectedValue)

/-- `endian_load` at the current index, which is then moved on. -/
def endianLoad (size : ℕ) : Decoding ℕ := fun s =>
  if (s.remaining.take size).length = size then
    .ok (LittleEndian.value (s.remaining.take size)) (s.advance size)
  else .error .outOfBounds s

/-- `operator>>` of an integral type. -/
def decodeIntegral {β : Type} : Integral β → Decoding β
  | .bool => decodeBool
  | .int _ size =>
    if size.bytes = 1 then do
      let byte ← nextByte
      pure (BitVec.ofNat _ byte.toNat)
    else do
      if ¬ (← hasMore size.bytes) then
        raise (.decode .notEnoughData)
      else do
        let v ← endianLoad size.bytes
        pure (BitVec.ofNat _ v)

/-- The loop of `decodeInteger` over the bytes of its buffer, from byte `i` on. -/
def readBuffer : ℕ → ℕ → List UInt8 → Decoding (List UInt8)
  | 0, _, buf => pure buf
  | n + 1, i, buf => do
    let byte ← decodeIntegral (.int false .one)
    readBuffer n (i + 1) (buf.set i (UInt8.ofNat byte.toNat))

/-- After byte `i` has been overwritten, the first `i + 1` bytes are the `i` before it and the new
one. -/
theorem take_succ_set {α : Type} {items : List α} {i : ℕ} (hi : i < items.length) (item : α) :
    (items.set i item).take (i + 1) = items.take i ++ [item] := by
  have hlen : (items.take i).length = i := List.length_take_of_le hi.le
  rw [List.take_set, List.take_succ_eq_append_getElem hi, List.set_append_right _ _ hlen.le, hlen,
    Nat.sub_self]
  rfl

/-- `decodeInteger` of a builtin type, into a target that holds `value`: what it then holds. -/
def decodeInteger (size : IntSize) (value : BitVec size.bits) : Decoding (BitVec size.bits) := do
  -- assign initial value
  let buf := LittleEndian.bytes size.bytes value.toNat
  let _ ← readBuffer size.bytes 0 buf
  -- nothing is assigned to the target
  pure value

/-! ### Boost's types -/

/-- `BigFixedWidthInteger`. -/
inductive BigFixedWidthInteger
  | uint128
  | uint256
  | uint512
  | uint1024
  deriving DecidableEq, Repr

namespace BigFixedWidthInteger

/-- The declared number of bits. -/
def width : BigFixedWidthInteger → ℕ
  | uint128 => 128
  | uint256 => 256
  | uint512 => 512
  | uint1024 => 1024

/-- `sizeof(backend().limbs()[0])`: `uint128_t` has a single limb of a builtin 128-bit type. -/
def limbBytes : BigFixedWidthInteger → ℕ
  | uint128 => 16
  | uint256 => 8
  | uint512 => 8
  | uint1024 => 8

/-- `backend().size()`: the limbs in use, of which there is always one. -/
def limbsInUse (T : BigFixedWidthInteger) (v : BitVec T.width) : ℕ :=
  max 1 ((bitWidth v.toNat + 8 * T.limbBytes - 1) / (8 * T.limbBytes))

/-- `FixedWidthIntegerTraits<T>::bytes`, computed from the value-initialised `T temp{}`. -/
def bytes (T : BigFixedWidthInteger) : ℕ :=
  T.limbsInUse 0 * T.limbBytes

end BigFixedWidthInteger

/-- The loop `for (size_t i = 0; i < bits; i += 8)` of the encoder, which `n` rounds are left of. -/
def putLowBytes {w : ℕ} : ℕ → ℕ → BitVec w → Encoding Unit
  | 0, _, _ => pure ()
  | n + 1, i, v => do
    putByte (UInt8.ofNat ((v >>> i) &&& 0xff).toNat)
    putLowBytes n (i + 8) v

/-- `operator<<` of `BigFixedWidthInteger`. -/
def encodeBigFixedWidthInteger (T : BigFixedWidthInteger) (v : BitVec T.width) : Encoding Unit :=
  putLowBytes T.bytes 0 v

/-- The loop of the decoder, which accumulates the bytes in `v`. -/
def takeLowBytes {w : ℕ} : ℕ → ℕ → BitVec w → Decoding (BitVec w)
  | 0, _, v => pure v
  | n + 1, i, v => do
    let byte ← nextByte
    takeLowBytes n (i + 8) (v ||| (BitVec.ofNat w byte.toNat <<< i))

/-- `decodeInteger` of `BigFixedWidthInteger`. -/
def decodeBigFixedWidthInteger (T : BigFixedWidthInteger) : Decoding (BitVec T.width) :=
  takeLowBytes T.bytes 0 0

end ScaleCodec
