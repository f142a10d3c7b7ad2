import Lingx.Conf.Aligned
import Lingx.Conf.Dispatch
import Lingx.Conf.FileWrite
import Lingx.Conf.Print
import Lingx.Conf.TooLong
import Lingx.Conf.Variable
import Lingx.Conf.Written
import Lingx.Events.Clock
import Lingx.Events.Connections
import Lingx.Events.Expire
import Lingx.Events.PollClosed
import Lingx.Events.PollInit
import Lingx.Events.QueueMiddle
import Lingx.Events.QueueRings
import Lingx.Events.Run
import Lingx.Events.SendRecv
import Lingx.Http.Block
import Lingx.Library.While
import Lingx.Logs.Levels
import Lingx.Logs.Line
import Lingx.Logs.NullFile
import Lingx.Logs.SharedFiles
import Lingx.Main.Clusters
import Lingx.Main.Served
import Lingx.Modules.EventStart
import Lingx.Modules.Meaning
import Lingx.Modules.Recount
import Lingx.Modules.Reports
import Lingx.Paths
import Lingx.Process.StopLife
import Lingx.Times.Coherent
import Lingx.Times.Frame
