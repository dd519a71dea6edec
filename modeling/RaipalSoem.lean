import RaipalSoem.Lib.Latch
import RaipalSoem.Lib.Sweep
import RaipalSoem.Lib.Progress
import RaipalSoem.Lib.Edges
import RaipalSoem.Lib.Memory
import RaipalSoem.Lib.Tiling
import RaipalSoem.Lib.BitLayout
import RaipalSoem.Lib.OneBit
import RaipalSoem.Lib.Trace
import RaipalSoem.Lib.Record
import RaipalSoem.Lib.Overlay
import RaipalSoem.Lib.Transfer
import RaipalSoem.Lib.Forest
import RaipalSoem.Lib.Linked
import RaipalSoem.Lib.Chain
import RaipalSoem.Conversions
import RaipalSoem.EthercatType
import RaipalSoem.ProcessImage
import RaipalSoem.Actuator
import RaipalSoem.PdoPacking
import RaipalSoem.SdoRead
import RaipalSoem.SdoUpload
import RaipalSoem.SdoReturns
import RaipalSoem.TypedRead
import RaipalSoem.DemoLoop
import RaipalSoem.CommandHistory
import RaipalSoem.EnableSafety
import RaipalSoem.FaultReset
import RaipalSoem.BringUp
import RaipalSoem.ConfigMap
import RaipalSoem.MapSlave
import RaipalSoem.MapLayout
import RaipalSoem.ProcessData
import RaipalSoem.Segmentation
import RaipalSoem.ImageBound
import RaipalSoem.Isolation
import RaipalSoem.BusExchange
import RaipalSoem.WorkCounter
import RaipalSoem.StateCheck
import RaipalSoem.LoadCfg
import RaipalSoem.Master
import RaipalSoem.Demo
import RaipalSoem.Operational
import RaipalSoem.Release
import RaipalSoem.ZeroOutput
import RaipalSoem.Topology
import RaipalSoem.ConfigDc
import RaipalSoem.FrameTimes
import RaipalSoem.DcDelay
import RaipalSoem.Nic
import RaipalSoem.NicDelivery
import RaipalSoem.Redundancy
import RaipalSoem.Frame
import RaipalSoem.Wire
import RaipalSoem.SingleMode
import RaipalSoem.ReadState
import RaipalSoem.SdoWrite
import RaipalSoem.SdoDownload
import RaipalSoem.Eoe
import RaipalSoem.EoeTransfer
import RaipalSoem.EoeSession
