import ScaleCodec.Lib.Stream
import Mathlib.Algebra.Group.Nat.Defs

/-!
# Errors, builds and the bytes of an object

The vocabulary the two streams share: the error codes, the exceptions that can travel through an
encoder or a decoder, the compile-time choice of the compact form, and the types a compact integer
can have.
-/

namespace ScaleCodec

/-! ### Errors -/

/-- `EncodeError`. -/
inductive EncodeError
  /-- compact integer can't be more than 2**536 -/
  | compactIntegerTooBig
  /-- cannot compact-encode negative integers -/
  | negativeCompactInteger
  /-- dereferencing a null pointer -/
  | derefNullpointer
  /-- value too big for compact representation -/
  | valueTooBigForCompactRepresentation
  deriving DecidableEq, Repr

/-- `DecodeError`. -/
inductive DecodeError
  /-- not enough data to decode value -/
  | notEnoughData
  /-- unexpected value -/
  | unexpectedValue
  /-- too many items, cannot address them in memory -/
  | tooManyItems
  /-- wrong type index, cannot decode variant -/
  | wrongTypeIndex
  /-- enum value which doesn't belong to the enum -/
  | invalidEnumValue
  /-- redundant bytes in compact encoding -/
  | redundantCompactEncoding
  /-- encoded value overflows target type -/
  | decodedValueOverflowsTarget
  deriving DecidableEq, Repr

/-- A `std::error_code` of one of the two categories. -/
inductive ErrorCode
  | encode (e : EncodeError)
  | decode (e : DecodeError)
  deriving DecidableEq, Repr

/-- What can be thrown while a stream is used. -/
inductive Exception
  /-- `std::system_error`: the only class `outcomeCatch` catches -/
  | systemError (code : ErrorCode)
  /-- `std::length_error`: a container was asked for more than its `max_size()` -/
  | lengthError
  /-- `std::bad_alloc` -/
  | badAlloc
  /-- `std::range_error`: `msb` of zero -/
  | rangeError
  /-- not an exception of C++: an access outside of an object, whose behaviour is undefined -/
  | outOfBounds
  deriving DecidableEq, Repr

/-- `raise`: throws `std::system_error`. -/
def raise {σ α : Type} (code : ErrorCode) : EStateM Exception σ α :=
  throw (.systemError code)

theorem raise_apply {σ α : Type} (code : ErrorCode) (s : σ) :
    (raise code : EStateM Exception σ α) s = .error (.systemError code) s := rfl

/-- An exception that becomes a failure carrying a `DecodeError`. -/
def IsDecodeError (e : Exception) : Prop :=
  ∃ c, e = .systemError (.decode c)

/-! ### Builds -/

/-- The choice of `JAM_COMPATIBILITY_ENABLED` a build is made with. -/
inductive Build
  | default
  | jam
  deriving DecidableEq, Repr

/-! ### Compact types -/

/-- The types `CompactCompatible` admits: the builtin unsigned types and Boost's unchecked
fixed-width unsigned ones. -/
inductive CompactCompatible
  | uint8
  | uint16
  | uint32
  | uint64
  | uint128
  | uint256
  | uint512
  | uint1024
  deriving DecidableEq, Repr

namespace CompactCompatible

/-- `std::numeric_limits<T>::digits`. -/
def width : CompactCompatible → ℕ
  | uint8 => 8
  | uint16 => 16
  | uint32 => 32
  | uint64 => 64
  | uint128 => 128
  | uint256 => 256
  | uint512 => 512
  | uint1024 => 1024

/-- `std::is_integral_v<T>`, which for these types is `std::unsigned_integral<T>`. -/
def isIntegral : CompactCompatible → Bool
  | uint8 => true
  | uint16 => true
  | uint32 => true
  | uint64 => true
  | uint128 => false
  | uint256 => false
  | uint512 => false
  | uint1024 => false

/-- `size_t`, the type of every collection's length prefix. -/
abbrev size : CompactCompatible := uint64

theorem width_le_of_isIntegral {T : CompactCompatible} (h : T.isIntegral) : T.width ≤ 64 := by
  cases T <;> simp_all [isIntegral, width]

theorem le_width_of_not_isIntegral {T : CompactCompatible} (h : ¬ T.isIntegral) :
    128 ≤ T.width := by
  cases T <;> simp_all [isIntegral, width]

theorem width_div_mul (T : CompactCompatible) : 8 * (T.width / 8) = T.width := by
  cases T <;> rfl

end CompactCompatible

/-- `std::bit_width`, which a builtin type has. -/
def bitWidth (v : ℕ) : ℕ :=
  if v = 0 then 0 else v.log2 + 1

/-- `boost::multiprecision::msb`, which throws on zero. -/
def msb {σ : Type} (v : ℕ) : EStateM Exception σ ℕ :=
  if v = 0 then throw .rangeError else pure v.log2

theorem msb_of_ne_zero {σ : Type} {v : ℕ} (h : v ≠ 0) :
    (msb v : EStateM Exception σ ℕ) = pure v.log2 := by
  rw [msb, if_neg h]

/-! ### Bytes of an object -/

/-- The bytes of an object in memory: what a `std::vector<uint8_t>` holds or a
`std::span<const uint8_t>` views.  No object is larger than `PTRDIFF_MAX`. -/
structure ByteBlock where
  bytes : List UInt8
  size_lt : bytes.length < 2 ^ 63
  deriving DecidableEq

/-- `std::span<const uint8_t>`. -/
abbrev ConstSpanOfBytes := ByteBlock

/-- `std::vector<uint8_t>`, the source's `ByteArray`. -/
abbrev ByteVector := ByteBlock

namespace ByteBlock

/-- `size()`. -/
def size (b : ByteBlock) : ℕ := b.bytes.length

end ByteBlock

end ScaleCodec
