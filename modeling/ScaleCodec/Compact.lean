import ScaleCodec.CompactInteger
import ScaleCodec.JamCompactInteger

/-!
# Compact integers of a build

The stream operators of `Compact<T>`: the compact form of the build, and after decoding the
conversion to the target type.  The lengths of collections are `Compact<size_t>`.
-/

namespace ScaleCodec

/-- `operator<<` of `Compact<T>`. -/
def encodeCompact (b : Build) (T : CompactCompatible) (v : BitVec T.width) : Encoding Unit :=
  match b with
  | .jam => encodeJamCompactInteger T v
  | .default => encodeCompactInteger T v

/-- The integer that `decodeCompact` goes on to convert. -/
def decodeCompactNumber (b : Build) : Decoding ℕ :=
  match b with
  | .jam => decodeJamCompactInteger
  | .default => decodeCompactInteger

/-- `decodeCompact<T>`.  Only a builtin target is checked for its number of digits;
`static_cast` keeps the low bits. -/
def decodeCompact (b : Build) (T : CompactCompatible) : Decoding (BitVec T.width) := do
  let integer ← decodeCompactNumber b
  if T.isIntegral ∧ integer ≠ 0 then do
    if (← msb integer) ≥ T.width then
      raise (.decode .decodedValueOverflowsTarget)
    else
      pure (BitVec.ofNat T.width integer)
  else
    pure (BitVec.ofNat T.width integer)

/-- `*this << Length(n)`. -/
def encodeLength (b : Build) (n : ℕ) : Encoding Unit :=
  encodeCompact b .size (BitVec.ofNat _ n)

/-- `decodeCompact<size_t>()`. -/
def decodeLength (b : Build) : Decoding ℕ := do
  let n ← decodeCompact b .size
  pure n.toNat

end ScaleCodec
