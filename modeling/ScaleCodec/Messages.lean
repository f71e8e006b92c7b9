import ScaleCodec.Sessions
import ScaleCodec.Targets

/-!
# Messages of several values

`encode(s, args...)` writes its arguments one after the other, without anything between them; they
are read with one `decode` for each.  What an argument leaves in the stream stays there also if a
later one raises.
-/

namespace ScaleCodec

/-- `(s << ... << args)`. -/
def encodeArgs (b : Build) (args : List TypedValue) : Encoding Unit :=
  args.forM (TypedValue.call b)

/-- `encode(s, args...)`: its result, and how it leaves the stream. -/
def encodeInto (b : Build) (s : ScaleEncoderStream) (args : List TypedValue) :
    Except Exception (Except ErrorCode Unit) × ScaleEncoderStream :=
  match encodeArgs b args s with
  | .ok _ s' => (.ok (.ok ()), s')
  | .error (.systemError code) s' => (.ok (.error code), s')
  | .error e s' => (.error e, s')

end ScaleCodec
