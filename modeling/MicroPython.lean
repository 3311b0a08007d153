import MicroPython.CallPrepareArgs
import MicroPython.VarUint
import MicroPython.SetupCodeState
import MicroPython.FoldConstants
import MicroPython.LexicalScope
import MicroPython.ScopeClasses
import MicroPython.IdTables
import MicroPython.IdOrder
import MicroPython.CodeFragment
import MicroPython.ConditionCode
import MicroPython.IfCond
import MicroPython.ConditionTrace
import MicroPython.IfCondFaithful
import MicroPython.Interning
import MicroPython.OpcodeFormat
import MicroPython.WireReader
import MicroPython.PersistentCode
import MicroPython.RawCodeTree
import MicroPython.CommProtocol
import MicroPython.CommFrames
import MicroPython.CommDelivery
import MicroPython.FtpFlush
import MicroPython.FtpIntegrity
import MicroPython.FtpSplitting
import MicroPython.NeuronsGroups
import MicroPython.NeuronsFrames
import MicroPython.ArrayObject
import MicroPython.ArrayContents
import MicroPython.GcHeap
import MicroPython.GcChunks
import MicroPython.GcMarking
import MicroPython.GcReachable
import MicroPython.GcAlloc
import MicroPython.GcTable
import MicroPython.GcRealloc
import MicroPython.NeuronsCommands
import MicroPython.NeuronsLink
import MicroPython.NeuronsNodes
import MicroPython.NeuronsParser
import MicroPython.MapTable
import MicroPython.HashedMap
import MicroPython.HashedSet
import MicroPython.MapFaithful
import MicroPython.AssociationList
import MicroPython.OrderedMap
import MicroPython.MapGrowth
import MicroPython.DictInvariant
import MicroPython.DictFaithful
import MicroPython.SuperVar
import MicroPython.SuperVarFrames
import MicroPython.SuperVarList
import MicroPython.CommIsolation
import MicroPython.EventMechanism
import MicroPython.EventFaithful
import MicroPython.MpzDigits
import MicroPython.MpzArith
import MicroPython.MpzBitwise
import MicroPython.Scheduler
import MicroPython.Unicode
import MicroPython.UniStr
import MicroPython.Lexer
import MicroPython.LexerStream
import MicroPython.PrintQuoted
import MicroPython.BlockHeap
import MicroPython.Qstr
import MicroPython.QstrTable
import MicroPython.Identifiers
import MicroPython.BinaryHeap
import MicroPython.Utimeq
import MicroPython.Vfs
import MicroPython.Websocket
import MicroPython.JsonText
import MicroPython.Ujson
import MicroPython.UjsonLoad
import MicroPython.UjsonDump
import MicroPython.Indentation
import MicroPython.LexerBlocks
import MicroPython.MpzShift
import MicroPython.LongDivision
import MicroPython.MpzDivision
import MicroPython.MpzDivmod
import MicroPython.Ff55Frames
import MicroPython.PathSplit
import MicroPython.FtpFrames
import MicroPython.NecItems
import MicroPython.RingHistory
import MicroPython.IrBuffer
import MicroPython.LedNumber
import MicroPython.VoiceNotes
import MicroPython.NeuronsCommandTypes
import MicroPython.NeuronsResponds
import MicroPython.FallibleRuns
import MicroPython.ImportModules
import MicroPython.ImportLoaded
import MicroPython.WavHead
import MicroPython.MpzFloat
import MicroPython.IntBytes
import MicroPython.MpzFromStr
import MicroPython.IntFormat
import MicroPython.Progression
import MicroPython.Slices
import MicroPython.Rearrangement
import MicroPython.ListSort
import MicroPython.VarInt
import MicroPython.LineNumbers
import MicroPython.PackedCounts
import MicroPython.ParseInteger
import MicroPython.ParseDecimal
import MicroPython.ObjectAttributes
import MicroPython.ClassOrder
import MicroPython.InlineCache
import MicroPython.SetOperations
import MicroPython.SetAgreement
import MicroPython.IdOrder
import MicroPython.ScopeLayout
import MicroPython.HeapQueue
import MicroPython.Binascii
import MicroPython.PointUpdates
import MicroPython.FrameBuffer
import MicroPython.StreamRw
import MicroPython.StreamRead
import MicroPython.BufferedWriter
import MicroPython.SmallInt
import MicroPython.GcHint
import MicroPython.RingBuffers
import MicroPython.RandRange
import MicroPython.FtpLink
import MicroPython.IntegerText
import MicroPython.LineDrawing
import MicroPython.TimeUtils
