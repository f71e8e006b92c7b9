import ScaleCodec.EncoderStream
import ScaleCodec.DecoderStream

/-!
# Compact integers of the JAM build

`encodeJamCompactInteger` and `decodeJamCompactInteger` of `detail/jam_compact_integer.hpp`,
together with `lengthOfEncodedJamCompactInteger`.  The leading ones of the first byte count the
bytes that follow it, and its remaining bits are the most significant bits of the value.
-/

namespace ScaleCodec

/-- `lengthOfEncodedJamCompactInteger`.  `std::bit_width` is an `int`, so that the quotient for
zero is `-1 / 7 = 0`; `value - 1` of a multiprecision type wraps. -/
def lengthOfEncodedJamCompactInteger {σ : Type} (T : CompactCompatible) (value : BitVec T.width) :
    EStateM Exception σ ℕ :=
  if T.isIntegral then
    pure (1 + (((bitWidth value.toNat : ℤ) - 1).tdiv 7)).toNat
  else do
    let m ← msb (value - 1).toNat
    pure (1 + m / 7)

/-! ### Encoding -/

/-- The `size_t` an integer is converted to before it is encoded. -/
def jamValue (T : CompactCompatible) (integer : BitVec T.width) : Encoding ℕ :=
  if T.isIntegral then pure (integer.toNat % 2 ^ 64)
  else if integer.toNat < 0 then raise (.encode .negativeCompactInteger)
  else if integer.toNat = 0 then pure 0
  else do
    if (← msb integer.toNat) ≥ 64 then
      raise (.encode .valueTooBigForCompactRepresentation)
    else
      pure (integer.toNat % 2 ^ 64)

/-- The scratch array `bytes` of nine bytes: the first one is the prefix under construction, the
others are filled from the front and counted by `len`. -/
structure JamScratch where
  /-- `bytes[0]` -/
  lead : UInt8
  /-- `bytes[1]`, …, `bytes[len - 1]` -/
  tail : List UInt8

namespace JamScratch

/-- `len`. -/
def len (scratch : JamScratch) : ℕ := 1 + scratch.tail.length

/-- `bytes[len++] = byte`. -/
def push (scratch : JamScratch) (byte : UInt8) : Encoding JamScratch :=
  if scratch.len < 9 then pure { scratch with tail := scratch.tail ++ [byte] }
  else throw .outOfBounds

/-- The first `len` bytes. -/
def bytes (scratch : JamScratch) : List UInt8 := scratch.lead :: scratch.tail

end JamScratch

/-- The loop over the bytes of the value.  A `size_t` is zero after eight shifts. -/
def packJam : ℕ → ℕ → JamScratch → Encoding JamScratch
  | 0, _, scratch => pure scratch
  | fuel + 1, i, scratch =>
    if i = 0 then pure scratch
    else if i ≤ ((~~~scratch.lead) >>> 1).toNat then
      -- minimal value in prefix
      pure { scratch with lead := scratch.lead ||| UInt8.ofNat i }
    else do
      let scratch := { scratch with lead := (scratch.lead >>> 1) ||| 0x80 }
      let scratch ← scratch.push (UInt8.ofNat (i &&& 0xff))
      packJam fuel (i >>> 8) scratch

/-- `encodeJamCompactInteger`. -/
def encodeJamCompactInteger (T : CompactCompatible) (integer : BitVec T.width) :
    Encoding Unit := do
  let value ← jamValue T integer
  if value < 0x80 then putByte (UInt8.ofNat value)
  else do
    let scratch ← packJam 8 value { lead := 0, tail := [] }
    scratch.bytes.forM putByte

/-! ### Decoding -/

/-- What the decoding loop carries from one byte to the next. -/
structure JamState where
  lenBits : UInt8
  valBits : UInt8
  valMask : UInt8
  byte : UInt8
  /-- `value`, a `size_t` -/
  value : ℕ
  deriving DecidableEq

/-- The loop over `i = 8 - fuel, …, 7`, left early when the length bits are used up. -/
def unpackJam : ℕ → ℕ → JamState → Decoding JamState
  | 0, _, st => pure st
  | fuel + 1, i, st =>
    let valMask := st.valMask >>> 1
    let valBits := st.valBits &&& valMask
    if st.lenBits &&& 0x80 = 0 then
      -- no more significant bytes
      pure { st with
        valMask := valMask
        valBits := valBits
        value := st.value ||| (valBits.toNat <<< (8 * i)) % 2 ^ 64 }
    else do
      let byte ← nextByte
      unpackJam fuel (i + 1)
        { lenBits := st.lenBits <<< 1
          valBits := valBits
          valMask := valMask
          byte := byte
          value := st.value ||| (byte.toNat <<< (8 * i)) % 2 ^ 64 }

/-- `decodeJamCompactInteger`, which returns a `uint128_t`. -/
def decodeJamCompactInteger : Decoding ℕ := do
  let byte ← nextByte
  if byte = 0 then pure 0
  else do
    let st ← unpackJam 8 0
      { lenBits := byte, valBits := byte, valMask := 0xff, byte := byte, value := 0 }
    if st.valBits = 0 ∧ st.byte &&& ~~~st.valMask = 0 then
      raise (.decode .redundantCompactEncoding)
    else
      pure st.value

end ScaleCodec
