import ScaleCodec.Lib.LittleEndian
import ScaleCodec.Lib.Stream
import ScaleCodec.Lib.Locality
import ScaleCodec.Lib.Session
import ScaleCodec.Lib.BitPacking
import ScaleCodec.Lib.WeakOrder
import ScaleCodec.Lib.Reread
import ScaleCodec.Lib.Focus
import ScaleCodec.Lib.Emission
import ScaleCodec.Lib.PrefixCode
import ScaleCodec.Lib.Grammar
import ScaleCodec.Lib.Alike
import ScaleCodec.Types
import ScaleCodec.EncoderStream
import ScaleCodec.DecoderStream
import ScaleCodec.CompactInteger
import ScaleCodec.JamCompactInteger
import ScaleCodec.Compact
import ScaleCodec.FixedWidthInteger
import ScaleCodec.Collections
import ScaleCodec.ScaleType
import ScaleCodec.EncodeAppend
import ScaleCodec.InPlace
import ScaleCodec.DynamicCollections
import ScaleCodec.Variants
import ScaleCodec.Sessions
import ScaleCodec.Targets
import ScaleCodec.Messages
import ScaleCodec.BoostVariant
import ScaleCodec.Configurable
import ScaleCodec.UnorderedCollections
import ScaleCodec.Equiv.CompactForm
import ScaleCodec.Equiv.CompactInteger
import ScaleCodec.Equiv.JamCompactForm
import ScaleCodec.Equiv.JamCompactInteger
import ScaleCodec.Equiv.Compact
import ScaleCodec.Equiv.FixedWidthInteger
import ScaleCodec.Equiv.BitVec
import ScaleCodec.Equiv.RoundTrip
import ScaleCodec.Equiv.Reaches
import ScaleCodec.Equiv.Canonical
import ScaleCodec.Equiv.Errors
import ScaleCodec.Equiv.EncodeAppend
import ScaleCodec.Equiv.Locality
import ScaleCodec.Equiv.InPlace
import ScaleCodec.Equiv.Sessions
import ScaleCodec.Equiv.LengthFormulas
import ScaleCodec.Equiv.AppendCounts
import ScaleCodec.Equiv.ReadBack
import ScaleCodec.Equiv.DynamicCollections
import ScaleCodec.Equiv.Variants
import ScaleCodec.Equiv.Targets
import ScaleCodec.Equiv.PartialTargets
import ScaleCodec.Equiv.Outputs
import ScaleCodec.Equiv.Messages
import ScaleCodec.Equiv.Grammar
import ScaleCodec.Equiv.Widening
import ScaleCodec.Equiv.Collisions
import ScaleCodec.Equiv.Sizes
import ScaleCodec.Equiv.BoostVariant
import ScaleCodec.Equiv.Configurable
import ScaleCodec.Equiv.UnorderedCollections
