import Mathlib.Data.Nat.Notation

/-!
# Constants of the EtherCAT master library

The limits, state codes and commands of `ethercattype.h` and `ethercatmain.h`
that the process-data path, the start-up of the demo and the SDO reads use.
-/

namespace RaipalSoem

/-- `EC_NOFRAME`: no frame returned. -/
def ecNoFrame : Int := -1

/-- `EC_MAXECATFRAME`: maximum EtherCAT frame length in bytes. -/
def ecMaxEcatFrame : Nat := 1518

/-- `EC_MAXLRWDATA`: frame length less ethernet header, length, datagram header, WKC and FCS. -/
def ecMaxLrwData : Nat := ecMaxEcatFrame - 14 - 2 - 10 - 2 - 4

/-- `EC_FIRSTDCDATAGRAM`: size of the DC datagram used in the first LRW frame. -/
def ecFirstDcDatagram : Nat := 20

/-- `EC_MAXBUF`: number of frame buffers per channel. -/
def ecMaxBuf : Nat := 16

/-- `EC_MAXIOSEGMENTS`: maximum number of IO segments per group. -/
def ecMaxIoSegments : Nat := 64

/-- `EC_MAXSM`: sync managers of a slave. -/
def ecMaxSm : Nat := 8

/-- `EC_MAXFMMU`: FMMUs of a slave. -/
def ecMaxFmmu : Nat := 4

/-- Largest number of process-data bytes that the layout puts in one segment. -/
def segmentLimit : Nat := ecMaxLrwData - ecFirstDcDatagram

@[simp] theorem segmentLimit_eq : segmentLimit = 1466 := rfl

/-- `EC_MAXMBX`: maximum mailbox size. -/
def ecMaxMbx : Nat := 1486

/-- `EC_STATE_INIT`. -/
def ecStateInit : UInt16 := 0x01

/-- `EC_STATE_SAFE_OP`. -/
def ecStateSafeOp : UInt16 := 0x04

/-- `EC_STATE_OPERATIONAL`. -/
def ecStateOperational : UInt16 := 0x08

/-- `ECT_MBXT_COE`: CANopen over EtherCAT mailbox type. -/
def ectMbxtCoe : UInt8 := 0x03

/-- `ECT_COES_SDOREQ`. -/
def ectCoesSdoReq : UInt16 := 0x02

/-- `ECT_COES_SDORES`. -/
def ectCoesSdoRes : UInt16 := 0x03

/-- `ECT_SDO_UP_REQ`. -/
def ectSdoUpReq : UInt8 := 0x40

/-- `ECT_SDO_UP_REQ_CA`. -/
def ectSdoUpReqCa : UInt8 := 0x50

/-- `ECT_SDO_SEG_UP_REQ`. -/
def ectSdoSegUpReq : UInt8 := 0x60

/-- `ECT_SDO_ABORT`. -/
def ectSdoAbort : UInt8 := 0x80

/-- The logical-memory commands of `ec_cmdtype` that carry process data. -/
inductive EcCmd
  | lrd
  | lwr
  | lrw
  deriving DecidableEq, Repr

end RaipalSoem
