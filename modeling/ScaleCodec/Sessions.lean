import ScaleCodec.ScaleType
import ScaleCodec.Lib.Session

/-!
# Calls to a stream

What a caller can do with a stream, one call after the other, catching what is thrown: the public
operations of `ScaleDecoderStream`, and `operator<<` of `ScaleEncoderStream` with a value of any
type.
-/

namespace ScaleCodec

/-- The public operations of `ScaleDecoderStream`. -/
inductive DecoderOperation
  | nextByte
  /-- its argument is a `uint64_t` -/
  | hasMore (n : UInt64)
  /-- `operator>>` -/
  | extract {α : Type} (t : ScaleType α)
  | decodeCompact (T : CompactCompatible)

/-- A call of the operation, whose result is dropped. -/
def DecoderOperation.call (b : Build) : DecoderOperation → Decoding Unit
  | nextByte => do
    let _ ← ScaleCodec.nextByte
  | hasMore n => do
    let _ ← ScaleCodec.hasMore n.toNat
  | extract t => do
    let _ ← t.fromStream b
  | decodeCompact T => do
    let _ ← ScaleCodec.decodeCompact b T

/-- The session of a decoder stream over `data`. -/
def decoderSession (b : Build) (data : ConstSpanOfBytes) (operations : List DecoderOperation) :
    List (Option Exception × ScaleDecoderStream) :=
  Session.run (operations.map (DecoderOperation.call b)) (.ofSpan data)

/-- A value to be written with `operator<<`. -/
structure TypedValue where
  {α : Type}
  type : ScaleType α
  value : α

/-- `operator<<` of the value. -/
def TypedValue.call (b : Build) (v : TypedValue) : Encoding Unit :=
  v.type.toStream b v.value

/-- The session of an encoder stream that is built with `drop_data` or without it. -/
def encoderSession (b : Build) (dropData : Bool) (values : List TypedValue) :
    List (Option Exception × ScaleEncoderStream) :=
  Session.run (values.map (TypedValue.call b)) { dropData := dropData }

end ScaleCodec
