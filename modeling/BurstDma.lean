import BurstDma.Arbiter.Read
import BurstDma.Arbiter.Write
import BurstDma.Bus.Geometry
import BurstDma.Bus.Signal
import BurstDma.Cli.Filter
import BurstDma.Cli.Grammar
import BurstDma.Cli.Invocation
import BurstDma.Cli.Program
import BurstDma.Cli.Screen
import BurstDma.Config.Basic
import BurstDma.Config.Decode
import BurstDma.Config.Encode
import BurstDma.Config.Layers
import BurstDma.Config.Load
import BurstDma.Decimal.Format
import BurstDma.Decimal.Nearest
import BurstDma.Decimal.Shortest
import BurstDma.Disk.Path
import BurstDma.Disk.Tree
import BurstDma.Engine.Reader
import BurstDma.Engine.Stats
import BurstDma.Engine.Writer
import BurstDma.Fault
import BurstDma.Grant.RoundRobin
import BurstDma.Handshake.Channel
import BurstDma.Journal.Notice
import BurstDma.Journal.Run
import BurstDma.Journal.Trace
import BurstDma.Loopback.Files
import BurstDma.Loopback.Vectors
import BurstDma.Machine.Basic
import BurstDma.Machine.Port
import BurstDma.Main
import BurstDma.Memory.Image
import BurstDma.Memory.Responder
import BurstDma.Memory.Store
import BurstDma.Problem
import BurstDma.Proofs.Access
import BurstDma.Proofs.Bounds
import BurstDma.Proofs.Buffer
import BurstDma.Proofs.BufferAccount
import BurstDma.Proofs.BurstPartition
import BurstDma.Proofs.BurstPlan
import BurstDma.Proofs.BurstWindow
import BurstDma.Proofs.ClockEdge
import BurstDma.Proofs.Configuration
import BurstDma.Proofs.Counters
import BurstDma.Proofs.Delay
import BurstDma.Proofs.Descriptors
import BurstDma.Proofs.Endpoints
import BurstDma.Proofs.ErrorFree
import BurstDma.Proofs.ErrorLatch
import BurstDma.Proofs.Fairness
import BurstDma.Proofs.FileTree
import BurstDma.Proofs.FrameCut
import BurstDma.Proofs.FrameStream
import BurstDma.Proofs.FrameTransfer
import BurstDma.Proofs.Grammar
import BurstDma.Proofs.GrantScan
import BurstDma.Proofs.Handover
import BurstDma.Proofs.HexNumeral
import BurstDma.Proofs.History
import BurstDma.Proofs.JoinedText
import BurstDma.Proofs.Lead
import BurstDma.Proofs.LoopbackData
import BurstDma.Proofs.LoopbackFiles
import BurstDma.Proofs.LoopbackLayout
import BurstDma.Proofs.LoopbackPlay
import BurstDma.Proofs.LoopbackRun
import BurstDma.Proofs.LoopbackTexts
import BurstDma.Proofs.MemoryReads
import BurstDma.Proofs.MemoryWrites
import BurstDma.Proofs.Numeral
import BurstDma.Proofs.OkayAnswers
import BurstDma.Proofs.Overrun
import BurstDma.Proofs.Place
import BurstDma.Proofs.Playback
import BurstDma.Proofs.Quiescence
import BurstDma.Proofs.Range
import BurstDma.Proofs.ReadAccount
import BurstDma.Proofs.ReadArbiter
import BurstDma.Proofs.ReadBack
import BurstDma.Proofs.ReadCredit
import BurstDma.Proofs.ReadEngine
import BurstDma.Proofs.ReadOrder
import BurstDma.Proofs.ReadOwnership
import BurstDma.Proofs.ReadPath
import BurstDma.Proofs.ReadPlan
import BurstDma.Proofs.ReadTraffic
import BurstDma.Proofs.ReadTransfer
import BurstDma.Proofs.Recording
import BurstDma.Proofs.Rest
import BurstDma.Proofs.RestTally
import BurstDma.Proofs.Restart
import BurstDma.Proofs.Result
import BurstDma.Proofs.RoundRobin
import BurstDma.Proofs.RunLedger
import BurstDma.Proofs.Safety
import BurstDma.Proofs.ScriptText
import BurstDma.Proofs.SelfCheck
import BurstDma.Proofs.Shape
import BurstDma.Proofs.SkidQueue
import BurstDma.Proofs.Stall
import BurstDma.Proofs.Standstill
import BurstDma.Proofs.StepMode
import BurstDma.Proofs.StoreContents
import BurstDma.Proofs.StoredWrites
import BurstDma.Proofs.StreamGrammar
import BurstDma.Proofs.Supply
import BurstDma.Proofs.Tally
import BurstDma.Proofs.Termination
import BurstDma.Proofs.Totality
import BurstDma.Proofs.Trace
import BurstDma.Proofs.Work
import BurstDma.Proofs.WriteAccount
import BurstDma.Proofs.WriteCredit
import BurstDma.Proofs.WriteEngine
import BurstDma.Proofs.WriteLedger
import BurstDma.Proofs.WritePath
import BurstDma.Proofs.WritePlan
import BurstDma.Proofs.WriteTrace
import BurstDma.Proofs.WriteTransaction
import BurstDma.Proofs.WriteTransfer
import BurstDma.Queue.Ownership
import BurstDma.Queue.Skid
import BurstDma.Script.Command
import BurstDma.Script.Player
import BurstDma.Script.Writer
import BurstDma.Simulation.Basic
import BurstDma.Simulation.Console
import BurstDma.Simulation.Report
import BurstDma.Simulation.Session
import BurstDma.Stream.Endpoint
import BurstDma.Stream.Fifo
import BurstDma.Stream.Text
import BurstDma.Text.Blank
import BurstDma.Text.Case
import BurstDma.Text.Line
import BurstDma.Text.Numeral
import BurstDma.Text.Quoted
import BurstDma.Toml.Document
import BurstDma.Toml.Layout
import BurstDma.Toml.Printer
import BurstDma.Toml.Quoted
import BurstDma.Toml.Scalar
import BurstDma.Toml.Scanner
import BurstDma.Toml.Table
import BurstDma.Toml.Value
import BurstDma.Transfer.Credit
import BurstDma.Transfer.Plan
import BurstDma.Transfer.Register
import BurstDma.Workplace.Basic
import BurstDma.Workplace.Sandbox
