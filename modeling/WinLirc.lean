import WinLirc.Signal.Coalesce
import WinLirc.Signal.Digits
import WinLirc.LircDefines
import WinLirc.Send
import WinLirc.IrRemote
import WinLirc.Receive
import WinLirc.Encoder
import WinLirc.SendBuffer
import WinLirc.InitSend
import WinLirc.Polarity
import WinLirc.FrameCount
import WinLirc.ConstLength
import WinLirc.Listen
import WinLirc.Frame
import WinLirc.Bits
import WinLirc.Transmission
import WinLirc.Decode
import WinLirc.SpaceEnc
import WinLirc.Biphase
import WinLirc.Cursor
import WinLirc.Backtrack
import WinLirc.MultiBit
import WinLirc.Serial
import WinLirc.Fields
import WinLirc.Signal.Border
import WinLirc.Sequence
import WinLirc.Command
import WinLirc.TogglePair
import WinLirc.Repeats
import WinLirc.Moves
import WinLirc.LeadingGap
import WinLirc.SerialField
import WinLirc.Interference
import WinLirc.Signal.Fuel
import WinLirc.LevelEnds
import WinLirc.Termination
import WinLirc.Signal.Lines
import WinLirc.Signal.Numerals
import WinLirc.CString
import WinLirc.Server
import WinLirc.PreData
import WinLirc.Daemon
import WinLirc.Emulation
import WinLirc.Numbers
import WinLirc.ConfigRemote
import WinLirc.ReadConfig
import WinLirc.ConfigRun
import WinLirc.ConfigSafety
import WinLirc.ConfigInvariant
import WinLirc.Arithmetic
import WinLirc.WellFormed
import WinLirc.ToggleBits
import WinLirc.Signal.StableSort
import WinLirc.TextualInclude
import WinLirc.Driver
import WinLirc.Regroup
import WinLirc.Reverse
import WinLirc.SendData
import WinLirc.CodeLiteral
import WinLirc.NormalForm
import WinLirc.Durations
import WinLirc.LogicalLines
import WinLirc.RawDecode
import WinLirc.Signal.Chain
import WinLirc.RemoteList
import WinLirc.Lengths
import WinLirc.LengthClasses
import WinLirc.Signal.Ring
import WinLirc.Fifo
import WinLirc.Message
import WinLirc.Requests
import WinLirc.Iguana
import WinLirc.Signal.Machine
import WinLirc.Streamzap
import WinLirc.Irdroid
import WinLirc.IrdroidSend
import WinLirc.Signal.Framing
import WinLirc.MceXp
import WinLirc.CommandIRSend
import WinLirc.TxOrder
import WinLirc.TxBitmask
import WinLirc.Signal.Access
import WinLirc.ConvertRX
import WinLirc.MySock
import WinLirc.AnalyseAudio
import WinLirc.VoidArray
import WinLirc.GetLengths
import WinLirc.Tally
import WinLirc.LengthsRun
import WinLirc.SignalTape
import WinLirc.LengthsSafety
import WinLirc.CloseTimes
import WinLirc.Recording
import WinLirc.Learning
import WinLirc.Learned
import WinLirc.NoisyFrame
import WinLirc.Understood
import WinLirc.HeldKey
import WinLirc.KeyStrokes
import WinLirc.SentKey
