import LabComm.Library.Positional
import LabComm.Library.Int32
import LabComm.Library.RowMajor
import LabComm.Library.Stream
import LabComm.Library.Runs
import LabComm.Format.DataType
import LabComm.Format.Wire
import LabComm.Format.Packet
import LabComm.Format.Grammar
import LabComm.C.Writer
import LabComm.C.Reader
import LabComm.C.Codec
import LabComm.C.RoundTrip
import LabComm.C.Sizeof
import LabComm.C.SignatureArray
import LabComm.C.Signature
import LabComm.C.Encoder
import LabComm.C.EncoderSteps
import LabComm.C.EncodedSize
import LabComm.C.EncoderLog
import LabComm.C.EncoderRuns
import LabComm.C.EncoderStream
import LabComm.Compiler.Specification
import LabComm.Compiler.Signature
import LabComm.Compiler.Expansion
import LabComm.Compiler.Generated
import LabComm.Compiler.GeneratedRuns
import LabComm.Compiler.Compatibility
import LabComm.C.Decoder
import LabComm.C.DecoderRuns
import LabComm.C.DecoderRoom
import LabComm.C.Dispatch
import LabComm.C.SampleRefs
import LabComm.C.SystemTags
import LabComm.Library.TwosComplement
import LabComm.Library.Nesting
import LabComm.Python.Decl
import LabComm.Python.RoundTrip
import LabComm.Python.DeclarationRoundTrip
import LabComm.Compiler.PythonSignature
import LabComm.Library.Interning
import LabComm.C.RenamingRuns
import LabComm.CSharp.Encoder
import LabComm.Compiler.RenamedRegister
import LabComm.Java.EncoderRuns
import LabComm.C.Packed32
import LabComm.C.Headers
import LabComm.Java.DecoderChannel
import LabComm.C.Intentions
import LabComm.C.UserIds
import LabComm.C.SkipFraming
import LabComm.Java.DecoderRegistry
import LabComm.Java.TypeDefParser
import LabComm.C.SchedulerWakeups
import LabComm.C.Truncation
import LabComm.VarintDecoders
import LabComm.Java.Strings
import LabComm.C.SignatureArrayMap
import LabComm.C.ArrayAllocation
import LabComm.C.FlushErrors
import LabComm.C.DynamicBuffer
import LabComm.C.FdWriter
import LabComm.C.RenamingFailures
import LabComm.C.RenamingLocks
import LabComm.C.DecoderMemory
import LabComm.Library.Framing
import LabComm.Java.TypeDefDecode
import LabComm.Java.MetadataPackets
import LabComm.Compiler.IntentionBytes
import LabComm.Compiler.SetOrder
import LabComm.Compiler.ErrorCheck
import LabComm.Compiler.TypeRecursion
import LabComm.Java.ASTbuilder
import LabComm.Python.PacketLoop
import LabComm.C.SigParserBounds
import LabComm.C.SigParserSizes
import LabComm.C.SigParserStack
import LabComm.C.SigParserSamples
import LabComm.C.SignatureDump
import LabComm.Python.Versions
import LabComm.Compiler.PrettyPrint
import LabComm.C.Delivery
import LabComm.Compiler.GeneratedDelivery
import LabComm.CSharp.Decoder
import LabComm.Java.Generated
import LabComm.Java.GeneratedWire
import LabComm.Python.WireFormat
import LabComm.Interoperation
import LabComm.Java.Delivery
