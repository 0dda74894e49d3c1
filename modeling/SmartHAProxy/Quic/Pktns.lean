/-
Packet number spaces (xprt_quic-t.h): what has been sent and not been acknowledged yet, the
frames that wait to be sent, and the packet numbers that have been received.

A packet in the tree `tx.pkts` is found under its packet number.
-/
import SmartHAProxy.Quic.AckRanges
import SmartHAProxy.Sched.Timers

namespace SmartHAProxy

namespace Quic

/-- `QUIC_FL_TX_PACKET_ACK_ELICITING` and `QUIC_FL_TX_PACKET_PADDING`. -/
def txPacketAckEliciting : ℕ := 1
def txPacketPadding : ℕ := 2

/-- `struct quic_tx_frm`, for CRYPTO frames. -/
structure QuicTxFrm where
  offset : ℕ
  len : ℕ
  deriving DecidableEq

/-- `struct quic_tx_packet`. -/
structure QuicTxPacket where
  inFlightLen : ℕ
  cdataLen : ℕ
  frms : List QuicTxFrm
  timeSent : UInt32
  flags : ℕ
  deriving DecidableEq

/-- The part `tx` of `struct quic_pktns`. -/
structure QuicPktnsTx where
  frms : List QuicTxFrm
  nextPn : ℤ
  largestAckedPn : ℤ
  pkts : EbUniq ℕ QuicTxPacket
  timeOfLastEliciting : UInt32
  lossTime : UInt32
  ptoProbe : ℕ
  inFlight : ℕ

/-- The part `rx` of `struct quic_pktns`. -/
structure QuicPktnsRx where
  largestPn : ℤ
  nbAckEliciting : ℕ
  arngs : QuicArngs

/-- `struct quic_pktns`, with its two flags. -/
structure QuicPktns where
  tx : QuicPktnsTx
  rx : QuicPktnsRx
  ackRequired : Bool
  ackReceived : Bool

/-- `quic_pktns_init`.  (`pto_probe` is cleared with the connection.) -/
def quicPktnsInit : QuicPktns where
  tx :=
    { frms := []
      nextPn := -1
      largestAckedPn := -1
      pkts := .empty
      timeOfLastEliciting := 0
      lossTime := 0
      ptoProbe := 0
      inFlight := 0 }
  rx :=
    { largestPn := -1
      nbAckEliciting := 0
      arngs := { root := .empty, sz := 0, encSz := 0 } }
  ackRequired := false
  ackReceived := false

/-- The packet number spaces of a connection. -/
inductive QuicTlsPktns
  | initial
  | rtt01
  | handshake
  deriving DecidableEq

/-- The states of the congestion control. -/
inductive QuicCcState
  | slowStart
  | congestionAvoidance
  deriving DecidableEq

/-- `struct nr`: the NewReno algorithm. -/
structure QuicCcNr where
  state : QuicCcState
  cwnd : ℕ
  ssthresh : ℕ
  recoveryStartTime : ℕ
  deriving DecidableEq

/-- `struct quic_loss`. -/
structure QuicLoss where
  latestRtt : UInt32
  srtt : UInt32
  rttVar : UInt32
  rttMin : UInt32
  ptoCount : UInt32
  deriving DecidableEq

/-- `struct quic_path`. -/
structure QuicPath where
  cc : QuicCcNr
  loss : QuicLoss
  mtu : ℕ
  cwnd : ℕ
  minCwnd : ℕ
  prepInFlight : ℕ
  inFlight : ℕ
  ifaePkts : ℕ
  deriving DecidableEq

/-- What is used of `struct quic_conn` here. -/
structure QuicConn where
  pktns : QuicTlsPktns → QuicPktns
  path : QuicPath
  maxAckDelay : UInt32

/-- A change of the part `tx` of a packet number space. -/
def QuicConn.updTx (qc : QuicConn) (i : QuicTlsPktns) (f : QuicPktnsTx → QuicPktnsTx) : QuicConn :=
  { qc with pktns := fun j => if j = i then { qc.pktns i with tx := f (qc.pktns i).tx } else qc.pktns j }

@[simp] theorem QuicConn.updTx_same (qc : QuicConn) (i : QuicTlsPktns)
    (f : QuicPktnsTx → QuicPktnsTx) : ((qc.updTx i f).pktns i).tx = f (qc.pktns i).tx := by
  simp [QuicConn.updTx]

@[simp] theorem QuicConn.updTx_path (qc : QuicConn) (i : QuicTlsPktns)
    (f : QuicPktnsTx → QuicPktnsTx) : (qc.updTx i f).path = qc.path := rfl

end Quic

end SmartHAProxy
