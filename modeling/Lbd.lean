import Lbd.ExtentMap
import Lbd.GCTotals
import Lbd.KernelLogFaults
import Lbd.LiveVolume
import Lbd.QCow2.Layers
import Lbd.ScanTrims
import Lbd.Replay
import Lbd.QCow2.ImageSpace
import Lbd.Watcher
import Lbd.Retention
import Lbd.MissHandler
import Lbd.Registry
import Lbd.LogTimer
import Lbd.QCow2.Snapshot
import Lbd.QCow2.ImageFaults
import Lbd.ReplayImage
import Lbd.LiveMapRuns
import Lbd.ExtentData
import Lbd.Control
import Lbd.LogDump
import Lbd.QCow2.Malformed
import Lbd.QCow2.CtlBounds
import Lbd.RetireLiveness
import Lbd.CrcTables
import Lbd.QCow2.Cover
import Lbd.EventDecode
import Lbd.QCow2.ConvertedBase
import Lbd.WriteAhead
