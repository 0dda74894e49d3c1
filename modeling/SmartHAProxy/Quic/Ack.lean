/-
ACK frames that are received (xprt_quic.c, quic_frame.c, quic_cc_newreno.c).

`qcParseAckFrm` takes the packets of the acknowledged ranges out of the tree, range by range,
looks for packets that are lost when it has found any, and tells the congestion control
about both.  A frame that turns out to be malformed on the way is rejected; the packets
taken out by then are freed.
-/
import SmartHAProxy.Quic.Pktns

namespace SmartHAProxy

namespace Quic

/-! ### The frame -/

/-- `struct quic_ack`. -/
structure QuicAck where
  largestAck : ℕ
  ackDelay : ℕ
  ackRangeNum : ℕ
  firstAckRange : ℕ
  deriving DecidableEq

def quicParseAckFrameHeader (buf : List UInt8) : Option (QuicAck × List UInt8) := do
  let (largestAck, buf) ← quicDecInt buf
  let (ackDelay, buf) ← quicDecInt buf
  let (ackRangeNum, buf) ← quicDecInt buf
  let (firstAckRange, buf) ← quicDecInt buf
  some (⟨largestAck, ackDelay, ackRangeNum, firstAckRange⟩, buf)

/-! ### The congestion control -/

def tickAdd (now timeout : UInt32) : UInt32 := if now + timeout = 0 then 1 else now + timeout

def tickRemain (now exp : UInt32) : UInt32 := if tickIsExpired exp now then 0 else exp - now

def quicLossPersistentCongestion (ql : QuicLoss) (period maxAckDelay : UInt32) : Bool :=
  if period = 0 then false
  else
    let congestionPeriod := (ql.srtt >>> 3) + max ql.rttVar 1 + maxAckDelay
    decide (congestionPeriod * 3 ≤ period)

/-- `quic_cc_nr_event` for `QUIC_CC_EVT_ACK`. -/
def quicCcAck (path : QuicPath) (acked : ℕ) (timeSent : UInt32) : QuicPath :=
  let path := { path with inFlight := sub64 path.inFlight acked }
  if timeSent.toNat ≤ path.cc.recoveryStartTime then path
  else
    match path.cc.state with
    | .slowStart =>
      let cwnd := (path.cc.cwnd + acked) % 2 ^ 64
      { path with
        cc := { path.cc with
          cwnd := cwnd
          state := if path.cc.ssthresh < cwnd then .congestionAvoidance else .slowStart }
        cwnd := cwnd }
    | .congestionAvoidance =>
      let cwnd := (path.cc.cwnd + path.mtu * max 1 (acked / path.cc.cwnd)) % 2 ^ 64
      { path with cc := { path.cc with cwnd := cwnd }, cwnd := cwnd }

/-- `quic_cc_nr_event` for `QUIC_CC_EVT_LOSS`, by `qc_cc_loss_event`: the number of bytes is
an `unsigned int` there. -/
def quicCcLoss (path : QuicPath) (nowMs maxAckDelay : UInt32) (lostBytes : ℕ)
    (newestTimeSent period : UInt32) : QuicPath :=
  let path := { path with inFlight := sub64 path.inFlight (lostBytes % 2 ^ 32) }
  match path.cc.state with
  | .slowStart =>
    let cwnd := max (path.cc.cwnd / 2) path.minCwnd
    { path with
      cc := { path.cc with cwnd := cwnd, ssthresh := cwnd, state := .congestionAvoidance }
      cwnd := cwnd }
  | .congestionAvoidance =>
    let cc :=
      if path.cc.recoveryStartTime < newestTimeSent.toNat then
        let cwnd := max (path.cc.cwnd / 2) path.minCwnd
        { path.cc with cwnd := cwnd, ssthresh := cwnd, recoveryStartTime := nowMs.toNat }
      else path.cc
    let cc :=
      if quicLossPersistentCongestion path.loss period maxAckDelay then
        { cc with cwnd := path.minCwnd, state := .slowStart }
      else cc
    { path with cc := cc, cwnd := cc.cwnd }

/-! ### Acknowledged packets -/

/-- The state of the pass over the ranges of a frame: the tree, the flags of the packets
found, and `newly_acked_pkts`. -/
structure AckPass where
  pkts : EbUniq ℕ QuicTxPacket
  pktFlags : ℕ
  newlyAcked : List (ℕ × QuicTxPacket)

/-- `eb64_lookup` of `largest`, and of up to `n` numbers below it until one is found. -/
def lookupDown (pkts : EbUniq ℕ QuicTxPacket) (largest : ℕ) : ℕ → Option (ℕ × QuicTxPacket)
  | 0 => (pkts.lookup largest).map fun pkt => (largest, pkt)
  | n + 1 =>
    match pkts.lookup largest with
    | some pkt => some (largest, pkt)
    | none => lookupDown pkts (largest - 1) n

/-- The loop of `qc_ackrng_pkts` from a node down; the frames of the packets are freed. -/
def ackrngLoop (smallest : ℕ) : ℕ → Option (ℕ × QuicTxPacket) → AckPass → AckPass
  | 0, _, s => s
  | _ + 1, none, s => s
  | fuel + 1, some node, s =>
    if node.1 < smallest then s
    else
      ackrngLoop smallest fuel (s.pkts.prev node.1)
        { pkts := s.pkts.delete node.1
          pktFlags := s.pktFlags ||| node.2.flags
          newlyAcked := (node.1, { node.2 with frms := [] }) :: s.newlyAcked }

/-- The node `qc_ackrng_pkts` begins with. -/
def ackrngFirst (pkts : EbUniq ℕ QuicTxPacket) (largestNode : Option (ℕ × QuicTxPacket))
    (largest smallest : ℕ) : Option (ℕ × QuicTxPacket) :=
  match largestNode with
  | some node => some node
  | none => lookupDown pkts largest (largest - smallest)

def qcAckrngPkts (s : AckPass) (largestNode : Option (ℕ × QuicTxPacket))
    (largest smallest : ℕ) : AckPass :=
  ackrngLoop smallest s.pkts.nodes.length (ackrngFirst s.pkts largestNode largest smallest) s

/-- The loop of `qc_parse_ack_frm` over the ranges: how far it comes, and what follows the
frame if it is well formed. -/
def ackRangesLoop : ℕ → Option (ℕ × QuicTxPacket) → ℕ → ℕ → AckPass → List UInt8 →
    AckPass × Option (List UInt8)
  | 0, largestNode, largest, smallest, s, pos =>
    (qcAckrngPkts s largestNode largest smallest, some pos)
  | ackRangeNum + 1, largestNode, largest, smallest, s, pos =>
    let s := qcAckrngPkts s largestNode largest smallest
    match quicDecInt pos with
    | none => (s, none)
    | some (gap, pos) =>
      -- wrong gap value
      if smallest < gap + 2 then (s, none)
      else
        let largest := smallest - gap - 2
        match quicDecInt pos with
        | none => (s, none)
        | some (ackRange, pos) =>
          -- wrong ack range value
          if largest < ackRange then (s, none)
          else ackRangesLoop ackRangeNum none largest (largest - ackRange) s pos

/-- One packet of `qc_treat_newly_acked_pkts`. -/
def treatNewlyAckedPkt (i : QuicTlsPktns) (qc : QuicConn) (pkt : ℕ × QuicTxPacket) : QuicConn :=
  let qc := qc.updTx i fun tx => { tx with inFlight := sub64 tx.inFlight pkt.2.inFlightLen }
  let path := { qc.path with prepInFlight := sub64 qc.path.prepInFlight pkt.2.inFlightLen }
  let path :=
    if pkt.2.flags &&& txPacketAckEliciting ≠ 0 then
      { path with ifaePkts := sub64 path.ifaePkts 1 }
    else path
  { qc with path := quicCcAck path pkt.2.inFlightLen pkt.2.timeSent }

def qcTreatNewlyAckedPkts (i : QuicTlsPktns) (qc : QuicConn)
    (newlyAcked : List (ℕ × QuicTxPacket)) : QuicConn :=
  newlyAcked.foldl (treatNewlyAckedPkt i) qc

/-! ### Lost packets -/

/-- The loop of `qc_packet_loss_lookup`; the packets are in the order of their numbers. -/
def packetLossLoop (now lossDelay : UInt32) (largestAckedPn : ℤ) :
    List (ℕ × QuicTxPacket) → QuicPktnsTx → List (ℕ × QuicTxPacket) →
      QuicPktnsTx × List (ℕ × QuicTxPacket)
  | [], tx, lost => (tx, lost)
  | node :: nodes, tx, lost =>
    if largestAckedPn < node.1 then (tx, lost)
    else if tickIsLe node.2.timeSent now ∨ (node.1 : ℤ) + 3 ≤ largestAckedPn then
      packetLossLoop now lossDelay largestAckedPn nodes
        { tx with pkts := tx.pkts.delete node.1 } (lost ++ [node])
    else
      packetLossLoop now lossDelay largestAckedPn nodes
        { tx with lossTime := tickFirst tx.lossTime (tickAdd node.2.timeSent lossDelay) } lost

def qcPacketLossLookup (now : UInt32) (ql : QuicLoss) (tx : QuicPktnsTx) :
    QuicPktnsTx × List (ℕ × QuicTxPacket) :=
  let tx := { tx with lossTime := 0 }
  if tx.pkts.nodes = [] then (tx, [])
  else
    let lossDelay := max ql.latestRtt (ql.srtt >>> 3)
    let lossDelay := lossDelay + (lossDelay >>> 3)
    let lossDelay := max lossDelay 1
    packetLossLoop now lossDelay tx.largestAckedPn tx.pkts.nodes tx []

/-- One packet of `qc_release_lost_pkts`: its frames go to the front of the frames to send. -/
def releaseLostPkt (i : QuicTlsPktns) (qc : QuicConn) (pkt : ℕ × QuicTxPacket) : QuicConn :=
  let qc := qc.updTx i fun tx =>
    { tx with
      inFlight := sub64 tx.inFlight pkt.2.inFlightLen
      frms := pkt.2.frms.reverse ++ tx.frms }
  let path := { qc.path with prepInFlight := sub64 qc.path.prepInFlight pkt.2.inFlightLen }
  let path :=
    if pkt.2.flags &&& txPacketAckEliciting ≠ 0 then
      { path with ifaePkts := sub64 path.ifaePkts 1 }
    else path
  { qc with path := path }

def qcReleaseLostPkts (now : UInt32) (i : QuicTlsPktns) (qc : QuicConn)
    (lost : List (ℕ × QuicTxPacket)) : QuicConn :=
  let qc := lost.foldl (releaseLostPkt i) qc
  let lostBytes := (lost.map fun pkt => pkt.2.inFlightLen).sum
  match lost.head?, lost.getLast? with
  | some oldest, some newest =>
    if lostBytes ≠ 0 then
      { qc with
        path := quicCcLoss qc.path now qc.maxAckDelay lostBytes newest.2.timeSent
          (newest.2.timeSent - oldest.2.timeSent) }
    else qc
  | _, _ => qc

/-! ### The whole -/

/-- What `qc_parse_ack_frm` leaves: the connection, the round trip time measured, the packets
it has taken out as acknowledged and as lost, and what follows the frame, unless it is
rejected. -/
structure AckResult where
  qc : QuicConn
  rttSample : UInt32
  acked : List (ℕ × QuicTxPacket)
  lost : List (ℕ × QuicTxPacket)
  pos : Option (List UInt8)

/-- The part of `qc_parse_ack_frm` behind the loop, with the tree it leaves. -/
def ackDone (now : UInt32) (peerValidatedAddr : Bool) (qc : QuicConn) (i : QuicTlsPktns)
    (ack : QuicAck) (timeSent : UInt32) (s : AckPass) (pos : List UInt8) : AckResult :=
  let qc := { qc with
    pktns := fun j => if j = i then { qc.pktns i with ackReceived := true } else qc.pktns j }
  let sampled := timeSent ≠ 0 ∧ s.pktFlags &&& txPacketAckEliciting ≠ 0
  let qc :=
    if sampled then qc.updTx i fun tx => { tx with largestAckedPn := ack.largestAck } else qc
  let rttSample := if sampled then tickRemain timeSent now else 0
  if s.newlyAcked = [] then ⟨qc, rttSample, [], [], some pos⟩
  else
    let found :=
      if (qc.pktns i).tx.pkts.nodes = [] then ((qc.pktns i).tx, [])
      else qcPacketLossLookup now qc.path.loss (qc.pktns i).tx
    let qc := qc.updTx i fun _ => found.1
    let qc := if found.2 = [] then qc else qcReleaseLostPkts now i qc found.2
    let qc := qcTreatNewlyAckedPkts i qc s.newlyAcked
    let qc :=
      if peerValidatedAddr then
        { qc with path := { qc.path with loss := { qc.path.loss with ptoCount := 0 } } }
      else qc
    ⟨qc, rttSample, s.newlyAcked, found.2, some pos⟩

/-- `qc_parse_ack_frm`, behind the header of the frame. -/
def qcParseAckFrm (now : UInt32) (peerValidatedAddr : Bool) (qc : QuicConn) (i : QuicTlsPktns)
    (ack : QuicAck) (pos : List UInt8) : AckResult :=
  let tx := (qc.pktns i).tx
  -- ACK for a packet that has not been sent; `next_pn` is -1 at first
  if tx.nextPn % 2 ^ 64 < (ack.largestAck : ℤ) then ⟨qc, 0, [], [], none⟩
  -- too big first ACK range
  else if ack.largestAck < ack.firstAckRange then ⟨qc, 0, [], [], none⟩
  else
    let isNew := tx.largestAckedPn < (ack.largestAck : ℤ)
    let largestNode := if isNew then tx.pkts.lookup ack.largestAck else none
    if isNew ∧ largestNode = none then ⟨qc, 0, [], [], none⟩
    else
      let timeSent := (largestNode.map QuicTxPacket.timeSent).getD 0
      let pass := ackRangesLoop ack.ackRangeNum (largestNode.map fun pkt => (ack.largestAck, pkt))
        ack.largestAck (ack.largestAck - ack.firstAckRange) ⟨tx.pkts, 0, []⟩ pos
      let qc := qc.updTx i fun tx => { tx with pkts := pass.1.pkts }
      match pass.2 with
      | none => ⟨qc, 0, pass.1.newlyAcked, [], none⟩
      | some pos => ackDone now peerValidatedAddr qc i ack timeSent pass.1 pos

end Quic

end SmartHAProxy
