import ScaleCodec.EncoderStream
import ScaleCodec.DecoderStream

/-!
# Compact integers of the default build

`encodeCompactInteger` and `decodeCompactInteger` of `detail/compact_integer.hpp`, together with
`lengthOfEncodedCompactInteger`.  The two low bits of the first byte are the mode: one, two or
four bytes for the values below `2^6`, `2^14` and `2^30`, and above that a header announcing how
many bytes of the value follow it.

The value of a compact type `T` is a `BitVec T.width`; a value of Boost's `uint1024_t` that is
still being computed is the number itself.
-/

namespace ScaleCodec

/-- min integer encoded by 2 bytes -/
def kMinUint16 : ℕ := 1 <<< 6

/-- min integer encoded by 4 bytes -/
def kMinUint32 : ℕ := 1 <<< 14

/-- min integer encoded as multibyte -/
def kMinBigInteger : ℕ := 1 <<< 30

theorem kMinUint16_eq : kMinUint16 = 2 ^ 6 := rfl

theorem kMinUint32_eq : kMinUint32 = 2 ^ 14 := rfl

theorem kMinBigInteger_eq : kMinBigInteger = 2 ^ 30 := rfl

/-- `lengthOfEncodedCompactInteger`. -/
def lengthOfEncodedCompactInteger {σ : Type} (T : CompactCompatible) (val : BitVec T.width) :
    EStateM Exception σ ℕ :=
  if val.toNat < kMinUint16 then pure 1
  else if val.toNat < kMinUint32 then pure 2
  else if val.toNat < kMinBigInteger then pure 4
  else if T.isIntegral then pure (1 + bitWidth val.toNat)
  else do
    -- number of bytes required to represent value
    let m ← msb val.toNat
    pure (1 + m / 8)

/-! ### Encoding -/

/-- The loop that pushes back the least significant byte until the value is zero.  A type of
`fuel` bytes is zero after `fuel` shifts. -/
def emitBytes : ℕ → ℕ → Encoding Unit
  | 0, _ => pure ()
  | fuel + 1, v =>
    if v = 0 then pure ()
    else do
      putByte (UInt8.ofNat (v &&& 0xff))
      emitBytes fuel (v >>> 8)

/-- `significant_bytes_n`, as computed for a builtin type and for one of Boost's. -/
def significantBytes (T : CompactCompatible) (value : ℕ) : Encoding ℕ :=
  if T.isIntegral then pure (bitWidth value)
  else do
    -- number of bytes required to represent value
    let n := (← msb value) / 8 + 1
    if n > 67 then raise (.encode .compactIntegerTooBig) else pure n

/-- `encodeCompactInteger`. -/
def encodeCompactInteger (T : CompactCompatible) (value : BitVec T.width) : Encoding Unit :=
  let value := value.toNat
  -- cannot encode negative numbers
  if value < 0 then raise (.encode .negativeCompactInteger)
  else if value < kMinUint16 then encodeInteger 1 (((value % 2 ^ 8) <<< 2) ||| 0b00)
  -- only values from kMinUint16 on can be put here
  else if value < kMinUint32 then encodeInteger 2 (((value % 2 ^ 16) <<< 2) ||| 0b01)
  -- only values from kMinUint32 on can be put here
  else if value < kMinBigInteger then encodeInteger 4 (((value % 2 ^ 32) <<< 2) ||| 0b10)
  else do
    let significantBytesN ← significantBytes T value
    -- the upper six bits announce the number of bytes, which starts from four
    putByte (UInt8.ofNat (((significantBytesN - 4) <<< 2) ||| 0b11))
    emitBytes (T.width / 8) value

/-! ### Decoding -/

/-- The loop `value += nextByte() * multiplier; multiplier <<= 8` over `n` bytes, in an unsigned
type of `w` bits. -/
def accumulateBytes (w : ℕ) : ℕ → ℕ → ℕ → Decoding ℕ
  | 0, value, _ => pure value
  | n + 1, value, multiplier => do
    let byte ← nextByte
    accumulateBytes w n ((value + byte.toNat * multiplier) % 2 ^ w) ((multiplier <<< 8) % 2 ^ w)

/-- `decodeCompactInteger`, which returns a `uint1024_t`. -/
def decodeCompactInteger : Decoding ℕ := do
  let firstByte ← nextByte
  let flag := firstByte.toNat &&& 0b11
  if flag = 0b00 then
    pure (firstByte.toNat >>> 2)
  else if flag = 0b01 then do
    let secondByte ← nextByte
    let number := ((firstByte.toNat &&& 0b11111100) + secondByte.toNat * 256) >>> 2
    if number >>> 6 = 0 then raise (.decode .redundantCompactEncoding) else pure number
  else if flag = 0b10 then do
    if ¬ (← hasMore 3) then raise (.decode .notEnoughData)
    else do
      -- there are three more bytes, `nextByte` does not raise in the loop
      let number := (← accumulateBytes 64 3 firstByte.toNat 256) >>> 2
      if number >>> 14 = 0 then raise (.decode .redundantCompactEncoding) else pure number
  else do
    let bytesCount := (firstByte.toNat >>> 2) + 4
    if ¬ (← hasMore bytesCount) then raise (.decode .notEnoughData)
    else do
      let value ← accumulateBytes 1024 bytesCount 0 1
      if value = 0 then raise (.decode .redundantCompactEncoding)
      else do
        let bits := (← msb value) + 1
        if bits ≤ 30 ∨ (bits + 7) / 8 < bytesCount then
          raise (.decode .redundantCompactEncoding)
        else
          pure value

end ScaleCodec
