import ScaleCodec.Types
import ScaleCodec.Lib.LittleEndian

/-!
# `ScaleEncoderStream`

The stream of the encoder: bytes are appended one at a time by `putByte`, which also counts them;
a stream built with `drop_data` counts only.  `encoderSink` presents it as a `Sink`, so that an
encoder is described by the bytes it puts and whether it then raises.
-/

namespace ScaleCodec

/-- `ScaleEncoderStream`. -/
structure ScaleEncoderStream where
  /-- `drop_data_` -/
  dropData : Bool := false
  /-- `stream_` -/
  stream : List UInt8 := []
  /-- `bytes_written_` -/
  bytesWritten : ℕ := 0
  deriving DecidableEq

/-- A computation that writes to the stream and may throw. -/
abbrev Encoding := EStateM Exception ScaleEncoderStream

namespace ScaleEncoderStream

/-- `size()`. -/
def size (s : ScaleEncoderStream) : ℕ := s.bytesWritten

/-- `to_vector()`. -/
def toVector (s : ScaleEncoderStream) : List UInt8 := s.stream

/-- The stream after some bytes have been put. -/
def putBytes (s : ScaleEncoderStream) (bs : List UInt8) : ScaleEncoderStream :=
  { s with
    stream := if s.dropData then s.stream else s.stream ++ bs
    bytesWritten := s.bytesWritten + bs.length }

theorem putBytes_nil (s : ScaleEncoderStream) : s.putBytes [] = s := by
  simp [putBytes]

theorem putBytes_append (s : ScaleEncoderStream) (as bs : List UInt8) :
    (s.putBytes as).putBytes bs = s.putBytes (as ++ bs) := by
  cases hd : s.dropData <;> simp [putBytes, hd, Nat.add_assoc]

/-- A fresh stream that keeps its data shows exactly what was put. -/
theorem toVector_putBytes (bs : List UInt8) : (putBytes {} bs).toVector = bs := by
  simp [putBytes, toVector]

end ScaleEncoderStream

/-- `putByte`. -/
def putByte (v : UInt8) : Encoding Unit := fun s =>
  .ok () { s with
    bytesWritten := s.bytesWritten + 1
    stream := if s.dropData then s.stream else s.stream ++ [v] }

/-- The encoder stream as a sink of bytes. -/
def encoderSink : Sink ScaleEncoderStream UInt8 where
  put := ScaleEncoderStream.putBytes
  empty := {}
  put_nil := ScaleEncoderStream.putBytes_nil
  put_append := ScaleEncoderStream.putBytes_append
  put_empty_injective as bs h := by
    rw [← ScaleEncoderStream.toVector_putBytes as, h, ScaleEncoderStream.toVector_putBytes]

/-- `e` puts exactly `bs` and returns. -/
abbrev Writes (e : Encoding Unit) (bs : List UInt8) : Prop :=
  encoderSink.Writes e bs

theorem writes_putByte (v : UInt8) : Writes (putByte v) [v] := fun _ => rfl

theorem writes_pure : Writes (pure ()) [] := Sink.emits_pure ()

theorem emits_raise {α : Type} (code : ErrorCode) :
    encoderSink.Emits (raise code : Encoding α) [] (.error (.systemError code)) :=
  Sink.emits_throw _

/-- Putting the bytes of a buffer one after the other. -/
theorem writes_forM_putByte (bs : List UInt8) : Writes (bs.forM putByte) bs := by
  induction bs with
  | nil => exact writes_pure
  | cons b bs ih => exact (writes_putByte b).bind ih

/-- The bytes a computation leaves in a fresh stream, also when it throws. -/
def written (e : Encoding Unit) : List UInt8 :=
  match e {} with
  | .ok _ s => s.toVector
  | .error _ s => s.toVector

theorem written_eq {e : Encoding Unit} {bs : List UInt8} (h : Writes e bs) : written e = bs := by
  rw [written, h {}]
  exact ScaleEncoderStream.toVector_putBytes bs

/-! ### Integers -/

/-- `encodeInteger` of a builtin type of `size` bytes: the little-endian buffer of the value is
written byte by byte. -/
def encodeInteger (size value : ℕ) : Encoding Unit :=
  (LittleEndian.bytes size value).forM putByte

theorem writes_encodeInteger (size value : ℕ) :
    Writes (encodeInteger size value) (LittleEndian.bytes size value) :=
  writes_forM_putByte _

end ScaleCodec
