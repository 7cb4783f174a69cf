import Pauline.Pack.Lz4
import Pauline.Library.DoWhile
import Pauline.Stream.Decode
import Pauline.Dump.TimeAccount
import Pauline.Dump.Capture
import Pauline.Dump.ChunkBlock
import Pauline.Dump.MetadataKeys
import Pauline.Server.InputQueue
import Pauline.Server.ConnectionThread
import Pauline.Server.IndexSafety
import Pauline.Server.DriveIndex
import Pauline.Server.PreviewLock
import Pauline.Server.PreviewReader
import Pauline.Server.Lifecycle
import Pauline.Server.DumpForm
import Pauline.Fpga.PopHeadroom
import Pauline.Fpga.DumpDrain
import Pauline.Fpga.WriteBack
import Pauline.Fpga.BusAccess
import Pauline.Fpga.DataSeparator
import Pauline.Fpga.IndexFlag
import Pauline.Fpga.GlitchFilter
import Pauline.Fpga.IndexTrigger
import Pauline.Fpga.PinStatus
import Pauline.Emulation.TrackWindow
import Pauline.Emulation.MemoryMap
import Pauline.Emulation.Confinement
import Pauline.Emulation.DriveIsolation
import Pauline.Control.TravelLimit
import Pauline.Control.StepPulses
import Pauline.Control.StepTiming
import Pauline.Control.MaxTrack
import Pauline.Control.DumpThreads
import Pauline.Control.HeadThreads
import Pauline.Control.PrepareFolder
import Pauline.Control.WordGrammar
import Pauline.Control.AutoNumbering
import Pauline.Control.DumpPaths
import Pauline.Control.DumpCleanup
import Pauline.Server.DriveConfig
import Pauline.Stream.LoadFailure
import Pauline.Stream.RoundTrip
import Pauline.WebSocket.Commands
import Pauline.WebSocket.Send
