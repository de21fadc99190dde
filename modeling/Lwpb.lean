import Lwpb.Core.Decoder
import Lwpb.Core.Encoder
import Lwpb.Core.Encoder2
import Lwpb.Core.Types
import Lwpb.Core.Varint
import Lwpb.Lib.Assoc
import Lwpb.Lib.Base128
import Lwpb.Lib.Chunks
import Lwpb.Lib.Delimited
import Lwpb.Lib.Fibers
import Lwpb.Lib.Ledger
import Lwpb.Lib.Loop
import Lwpb.Lib.Machine
import Lwpb.Lib.Memory
import Lwpb.Lib.Placement
import Lwpb.Lib.Sequence
import Lwpb.Lib.Slice
import Lwpb.Lib.TwosComplement
import Lwpb.Lib.Watch
import Lwpb.Proofs.Decoder.Agreement
import Lwpb.Proofs.Decoder.Boundaries
import Lwpb.Proofs.Decoder.Containers
import Lwpb.Proofs.Decoder.Depth
import Lwpb.Proofs.Decoder.Frames
import Lwpb.Proofs.Decoder.Grammar
import Lwpb.Proofs.Decoder.Inside
import Lwpb.Proofs.Decoder.Moves
import Lwpb.Proofs.Decoder.Packed
import Lwpb.Proofs.Decoder.Readers
import Lwpb.Proofs.Decoder.Trees
import Lwpb.Proofs.Decoder.Unknown
import Lwpb.Proofs.Decoder.Varint
import Lwpb.Proofs.Decoder.Walk
import Lwpb.Proofs.Encoder.Capacity
import Lwpb.Proofs.Encoder.Failures
import Lwpb.Proofs.Encoder.Fields
import Lwpb.Proofs.Encoder.Frames
import Lwpb.Proofs.Encoder.Serialise
import Lwpb.Proofs.Encoder.Trees
import Lwpb.Proofs.Encoder.Values
import Lwpb.Proofs.Encoder.Writers
import Lwpb.Proofs.Encoder2
import Lwpb.Proofs.Memmove
import Lwpb.Proofs.Python.Canonical
import Lwpb.Proofs.Python.Codecs
import Lwpb.Proofs.Python.Compiled
import Lwpb.Proofs.Python.Contents
import Lwpb.Proofs.Python.Descriptor
import Lwpb.Proofs.Python.DictRoundTrip
import Lwpb.Proofs.Python.DictStack
import Lwpb.Proofs.Python.Dicts
import Lwpb.Proofs.Python.EnumDefaults
import Lwpb.Proofs.Python.Errors
import Lwpb.Proofs.Python.Flat
import Lwpb.Proofs.Python.Floats
import Lwpb.Proofs.Python.Index
import Lwpb.Proofs.Python.Lossless
import Lwpb.Proofs.Python.Merge
import Lwpb.Proofs.Python.MessageCodec
import Lwpb.Proofs.Python.MessageIndex
import Lwpb.Proofs.Python.Normal
import Lwpb.Proofs.Python.Occurrences
import Lwpb.Proofs.Python.Paths
import Lwpb.Proofs.Python.Pbio
import Lwpb.Proofs.Python.Pbpart
import Lwpb.Proofs.Python.Pbsplit
import Lwpb.Proofs.Python.Percent
import Lwpb.Proofs.Python.Protodef
import Lwpb.Proofs.Python.Records
import Lwpb.Proofs.Python.SchemaFile
import Lwpb.Proofs.Python.Scripts
import Lwpb.Proofs.Python.Settles
import Lwpb.Proofs.Python.Sizing
import Lwpb.Proofs.Python.Spelling
import Lwpb.Proofs.Python.Stream
import Lwpb.Proofs.Python.Targets
import Lwpb.Proofs.Python.TwoPasses
import Lwpb.Proofs.Python.Unescape
import Lwpb.Proofs.Python.Unflatten
import Lwpb.Proofs.Python.Values
import Lwpb.Proofs.Python.Writing
import Lwpb.Proofs.RoundTrip
import Lwpb.Proofs.Rpc.Client
import Lwpb.Proofs.Rpc.Direct
import Lwpb.Proofs.Rpc.Dispatch
import Lwpb.Proofs.Rpc.Framing
import Lwpb.Proofs.Rpc.Lifecycle
import Lwpb.Proofs.Rpc.Network
import Lwpb.Proofs.Rpc.Parse
import Lwpb.Proofs.Rpc.Replay
import Lwpb.Proofs.Rpc.Select
import Lwpb.Proofs.Rpc.Sending
import Lwpb.Proofs.Rpc.Sessions
import Lwpb.Proofs.Rpc.Survival
import Lwpb.Proofs.Struct.Contained
import Lwpb.Proofs.Struct.Elements
import Lwpb.Proofs.Struct.Layout
import Lwpb.Proofs.Struct.Order
import Lwpb.Proofs.Struct.PackedRuns
import Lwpb.Proofs.Struct.Partial
import Lwpb.Proofs.Struct.Slots
import Lwpb.Proofs.Struct.Walk
import Lwpb.Python.Codecs
import Lwpb.Python.Decoder
import Lwpb.Python.Descriptor
import Lwpb.Python.Encoder
import Lwpb.Python.Flat
import Lwpb.Python.Index
import Lwpb.Python.MessageCodec
import Lwpb.Python.Messages
import Lwpb.Python.Pbio
import Lwpb.Python.Pbpart
import Lwpb.Python.Pbsplit
import Lwpb.Python.Percent
import Lwpb.Python.Primitives
import Lwpb.Python.Protodef
import Lwpb.Python.Runtime
import Lwpb.Python.Stream
import Lwpb.Rpc.Client
import Lwpb.Rpc.Direct
import Lwpb.Rpc.Network
import Lwpb.Rpc.Socket
import Lwpb.Rpc.Transport
import Lwpb.Utils.Memmove
import Lwpb.Utils.StructDecoder
import Lwpb.Wire.Message
import Lwpb.Wire.Tree
