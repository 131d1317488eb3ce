import NiosHps.Board.AlarmTimes
import NiosHps.Board.Alarms
import NiosHps.Board.ButtonEdges
import NiosHps.Board.ButtonReports
import NiosHps.Board.Decryption
import NiosHps.Board.FromReset
import NiosHps.Board.Handshake
import NiosHps.Board.HandshakeEnds
import NiosHps.Board.HpsSetUp
import NiosHps.Board.InterruptController
import NiosHps.Board.InterruptDispatch
import NiosHps.Board.InterruptLatency
import NiosHps.Board.InterruptTable
import NiosHps.Board.JtagUart
import NiosHps.Board.JtagUartDelivery
import NiosHps.Board.JtagUartReturns
import NiosHps.Board.JtagUartText
import NiosHps.Board.JtagUartWork
import NiosHps.Board.KeyDigits
import NiosHps.Board.KeyEntry
import NiosHps.Board.ModExp
import NiosHps.Board.Nios
import NiosHps.Board.Percentages
import NiosHps.Board.Progress
import NiosHps.Board.SharedLayout
import NiosHps.Board.StartUp
import NiosHps.Board.Ticks
import NiosHps.Filter.Energy
import NiosHps.Filter.Laplacian
import NiosHps.Filter.OutputRange
import NiosHps.Filter.Pixel
import NiosHps.Filter.Ranges
import NiosHps.Filter.StaticPixels
import NiosHps.Filter.Symmetries
import NiosHps.Foundation.BinaryPow
import NiosHps.Foundation.CircularList
import NiosHps.Foundation.Fairness
import NiosHps.Foundation.HexDigits
import NiosHps.Foundation.LittleEndian
import NiosHps.Foundation.NearestEven
import NiosHps.Foundation.Pipeline
import NiosHps.Foundation.PriorityService
import NiosHps.Foundation.RingBuffer
import NiosHps.Foundation.Rsa
import NiosHps.Foundation.Scatter
import NiosHps.Foundation.Schedule
import NiosHps.Foundation.Stdio
import NiosHps.Foundation.System
import NiosHps.Foundation.WeightedLaplacian
import NiosHps.Foundation.Words
import NiosHps.Simulator.AtomicTicks
import NiosHps.Simulator.EndToEnd
import NiosHps.Simulator.IntRange
import NiosHps.Simulator.Lookahead
import NiosHps.Simulator.Memory
import NiosHps.Simulator.Process
import NiosHps.Simulator.Program
import NiosHps.Simulator.Protocol
import NiosHps.Simulator.Sdram
import NiosHps.Simulator.SplitPoint
import NiosHps.Simulator.Termination
import NiosHps.Simulator.Threads
