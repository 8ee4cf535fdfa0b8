import ScaleCodec.Interaction
import ScaleCodec.LittleEndian
import ScaleCodec.SortedMap
import ScaleCodec.Places
import ScaleCodec.Input
import ScaleCodec.Discipline
import ScaleCodec.DecoderLogic
import ScaleCodec.Traits
import ScaleCodec.Primitives
import ScaleCodec.Compact
import ScaleCodec.CompactExact
import ScaleCodec.Sequences
import ScaleCodec.Chunks
import ScaleCodec.ArrayDrops
import ScaleCodec.Impls
import ScaleCodec.Collections
import ScaleCodec.BitSequences
import ScaleCodec.Types
import ScaleCodec.RoundTrip
import ScaleCodec.Ranges
import ScaleCodec.Canonical
import ScaleCodec.Append
import ScaleCodec.Derive
import ScaleCodec.DeriveRoundTrip
import ScaleCodec.DeriveMaxLen
import ScaleCodec.TypeDiscipline
import ScaleCodec.DecodeInto
import ScaleCodec.TransparentDrops
import ScaleCodec.Locality
import ScaleCodec.ByteInputs
import ScaleCodec.PrefixInput
import ScaleCodec.BytesCursor
import ScaleCodec.EncodeWays
import ScaleCodec.Trackers
import ScaleCodec.Limits
import ScaleCodec.Counted
import ScaleCodec.DepthLimit
import ScaleCodec.DepthBalance
import ScaleCodec.DepthTermination
import ScaleCodec.MemLimit
import ScaleCodec.Solvency
import ScaleCodec.MemoryClaims
import ScaleCodec.HeapTotal
import ScaleCodec.MaxLen
import ScaleCodec.FixedSizes
import ScaleCodec.EncodeLike
import ScaleCodec.BitVectors
import ScaleCodec.Bulk
import ScaleCodec.BTrees
import ScaleCodec.BTreeMemory
import ScaleCodec.DecodeLength
import ScaleCodec.ReferenceDepth
import ScaleCodec.ByteOrder
import ScaleCodec.DepthRestore
import ScaleCodec.Fuel
import ScaleCodec.Declared
import ScaleCodec.DeriveTermination
import ScaleCodec.EncodeTermination
import ScaleCodec.Streams
import ScaleCodec.Sessions
import ScaleCodec.IoStreams
import ScaleCodec.Productive
import ScaleCodec.Upgrades
import ScaleCodec.Attributes
import ScaleCodec.TraitBounds
import ScaleCodec.SizeHints
import ScaleCodec.CompactDerive
import ScaleCodec.Spending
import ScaleCodec.LinearMemory
