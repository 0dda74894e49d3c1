/-
The loop over the frames of a QUIC packet (xprt_quic.c).

`qcParsePktFrms` parses frame after frame up to the end of the payload or to the first one
that is refused.  `pktFrmStep_run` says what one turn does to the cursor; with it,
`payloadInRange_iff` says for which payloads the whole loop ends, without an access to what
is not there: all but those in which it comes to a frame of the type `QUIC_FT_MAX`.
-/
import SmartHAProxy.Quic.Frame

namespace SmartHAProxy

variable {pos data : List UInt8} {n : ℕ}

namespace Quic

/-! ### The source -/

/-- `enum quic_handshake_state`. -/
inductive QuicHsState
  | clientInitial | clientHandshake | clientHandshakeFailed
  | serverInitial | serverHandshake | serverHandshakeFailed
  | complete | confirmed
  deriving DecidableEq

def QuicHsState.num : QuicHsState → ℕ
  | .clientInitial => 0
  | .clientHandshake => 1
  | .clientHandshakeFailed => 2
  | .serverInitial => 3
  | .serverHandshake => 4
  | .serverHandshakeFailed => 5
  | .complete => 6
  | .confirmed => 7

/-- What the TLS stack says to the handshake: it is done, it wants more, or it failed. -/
inductive SslStep
  | done | wants | fails

/-- What the TLS stack says to CRYPTO data: whether it takes them, and the handshake. -/
structure SslAnswer where
  provided : Bool
  handshake : SslStep

/-- What the loop uses and does not change.  The results of allocations and of the TLS stack
are those for the frame at a place in the payload. -/
structure PktCtx where
  listener : Bool
  now : UInt32
  ackDelayExponent : ℕ
  pktType : QuicPktType
  pktns : QuicTlsPktns
  alloc : ℕ → Bool
  ssl : ℕ → SslAnswer

/-- What the loop changes: the connection, the state of the handshake, the CRYPTO data, and
whether the packet has to be acknowledged. -/
structure PktState where
  qc : QuicConn
  state : QuicHsState
  cryptoOffset : ℕ
  cryptoFrms : List (ℕ × List UInt8)
  ackEliciting : Bool

def quicLossSrttUpdate (ql : QuicLoss) (rtt ackDelay : UInt32) : QuicLoss :=
  let ql := { ql with latestRtt := rtt }
  if ql.rttMin = 0 then { ql with srtt := rtt <<< 3, rttVar := rtt <<< 1, rttMin := rtt }
  else
    let rttMin := min rtt ql.rttMin
    let rtt := if ackDelay ≠ 0 ∧ rttMin + ackDelay < rtt then rtt - ackDelay else rtt
    let diff := ql.srtt - rtt
    -- the difference is an int
    let diff := if 0x80000000 ≤ diff then 0 - diff else diff
    { ql with
      rttMin := rttMin
      rttVar := ql.rttVar + (diff - (ql.rttVar >>> 2))
      srtt := ql.srtt + (rtt - (ql.srtt >>> 3)) }

/-- `quic_peer_validated_addr`, with an acknowledgement received in one more space. -/
def quicPeerValidatedAddr (ctx : PktCtx) (s : PktState) : Bool :=
  !ctx.listener || ctx.pktns = .handshake || ctx.pktns = .rtt01 ||
    (s.qc.pktns .handshake).ackReceived || (s.qc.pktns .rtt01).ackReceived ||
    s.state.num &&& QuicHsState.complete.num ≠ 0

/-- `qc_provide_cdata`: whether it succeeds. -/
def qcProvideCdata (ctx : PktCtx) (answer : SslAnswer) (s : PktState) (len : ℕ) :
    Bool × PktState :=
  if ¬ answer.provided then (false, s)
  else
    let s := { s with cryptoOffset := s.cryptoOffset + len }
    match answer.handshake with
    | .fails => (false, s)
    | .wants => (true, s)
    | .done =>
      if s.state.num < QuicHsState.complete.num then
        (true, { s with state := if ctx.listener then .confirmed else .complete })
      else (true, s)

/-- The round trip time of an acknowledgement. -/
def updateRtt (ctx : PktCtx) (ack : QuicAck) (r : AckResult) : QuicConn :=
  if r.rttSample = 0 then r.qc
  else
    let ackDelay :=
      if ctx.pktns ≠ .rtt01 then 0
      else min (UInt32.ofNat (ack.ackDelay <<< ctx.ackDelayExponent)) r.qc.maxAckDelay
    { r.qc with path :=
      { r.qc.path with loss := quicLossSrttUpdate r.qc.path.loss r.rttSample ackDelay } }

/-- The switch of `qc_parse_pkt_frms`, for the frame that is found from `beg` to `n`: whether
the loop goes on, the state and the cursor. -/
def pktFrmSwitch (ctx : PktCtx) (data : List UInt8) (beg : ℕ) (s : PktState) (frm : QuicFrame)
    (n : ℕ) : Bool × PktState × ℕ :=
  match frm with
  | .padding _ => (n = data.length, s, n)
  | .ping => (true, s, n)
  | .ack ack =>
    let r := qcParseAckFrm ctx.now (quicPeerValidatedAddr ctx s) s.qc ctx.pktns ack
      (data.drop n)
    match r.pos with
    | none => (false, { s with qc := r.qc }, n)
    | some rest => (true, { s with qc := updateRtt ctx ack r }, data.length - rest.length)
  | .crypto offset bytes =>
    if offset ≠ s.cryptoOffset then
      if ctx.alloc beg then
        (true, { s with cryptoFrms := s.cryptoFrms ++ [(offset, bytes)] }, n)
      else (false, s, n)
    else
      let r := qcProvideCdata ctx (ctx.ssl beg) s bytes.length
      (r.1, r.2, n)
  | .stream id _ _ =>
    -- QUIC_STREAM_FRAME_ID_INITIATOR_BIT
    if ctx.listener then (id &&& 1 = 0, s, n) else (id &&& 1 ≠ 0, s, n)
  | .newConnectionId _ _ _ _ => (true, s, n)
  | .connectionClose _ _ _ => (true, s, n)
  | .connectionCloseApp _ _ => (true, s, n)
  | .handshakeDone =>
    if ctx.listener then (false, s, n) else (true, { s with state := .confirmed }, n)
  | _ => (false, s, n)

/-- One turn of the loop of `qc_parse_pkt_frms`. -/
def pktFrmStep (ctx : PktCtx) (data : List UInt8) (s : PktState) (n : ℕ) :
    Except MemFault (Bool × PktState × ℕ) :=
  match qcParseFrm ctx.pktType data n with
  | .error e => .error e
  | .ok (none, n) => .ok (false, s, n)
  | .ok (some (frm, ackEliciting), m) =>
    .ok (pktFrmSwitch ctx data n { s with ackEliciting := s.ackEliciting || ackEliciting } frm m)

/-- The loop of `qc_parse_pkt_frms`, for some number of turns: no result if it is not done
by then. -/
def qcParsePktFrmsLoop (ctx : PktCtx) (data : List UInt8) : ℕ → PktState → ℕ →
    Option (Except MemFault (Bool × PktState × ℕ))
  | 0, s, n => if n < data.length then none else some (.ok (true, s, n))
  | turns + 1, s, n =>
    if n < data.length then
      match pktFrmStep ctx data s n with
      | .error e => some (.error e)
      | .ok (false, s, n) => some (.ok (false, s, n))
      | .ok (true, s, n) => qcParsePktFrmsLoop ctx data turns s n
    else some (.ok (true, s, n))

/-- The loop of `qc_parse_pkt_frms`, with as many turns as there are bytes. -/
def qcParsePktFrms (ctx : PktCtx) (data : List UInt8) (s : PktState) :
    Option (Except MemFault (Bool × PktState × ℕ)) :=
  qcParsePktFrmsLoop ctx data data.length s 0

/-! ### One turn -/

theorem length_of_ackRangesLoop {num : ℕ} {node : Option (ℕ × QuicTxPacket)} {largest smallest : ℕ}
    {s s' : AckPass} {rest : List UInt8}
    (h : ackRangesLoop num node largest smallest s pos = (s', some rest)) :
    rest.length ≤ pos.length := by
  induction num generalizing node largest smallest s pos with
  | zero =>
    obtain ⟨-, hrest⟩ := Prod.mk.inj h
    rw [Option.some.inj hrest]
  | succ num ih =>
    rw [ackRangesLoop] at h
    dsimp only at h
    rcases hgap : quicDecInt pos with - | ⟨gap, pos₁⟩
    · rw [hgap] at h
      cases h
    · rw [hgap] at h
      dsimp only at h
      split_ifs at h
      · cases h
      · rcases hrange : quicDecInt pos₁ with - | ⟨ackRange, pos₂⟩
        · rw [hrange] at h
          cases h
        · rw [hrange] at h
          dsimp only at h
          split_ifs at h
          · cases h
          · have h1 := length_of_quicDecInt hgap
            have h2 := length_of_quicDecInt hrange
            have h3 := ih h
            omega

theorem pos_ackDone {now : UInt32} {validated : Bool} {qc : QuicConn} {i : QuicTlsPktns}
    {ack : QuicAck} {timeSent : UInt32} {s : AckPass} :
    (ackDone now validated qc i ack timeSent s pos).pos = some pos := by
  rw [ackDone]
  show AckResult.pos (if s.newlyAcked = [] then _ else _) = some pos
  by_cases hnew : s.newlyAcked = []
  · rw [if_pos hnew]
  · rw [if_neg hnew]

theorem length_of_qcParseAckFrm {now : UInt32} {validated : Bool} {qc : QuicConn} {i : QuicTlsPktns}
    {ack : QuicAck} {rest : List UInt8}
    (h : (qcParseAckFrm now validated qc i ack pos).pos = some rest) :
    rest.length ≤ pos.length := by
  rw [qcParseAckFrm] at h
  dsimp only at h
  generalize (if (qc.pktns i).tx.largestAckedPn < (ack.largestAck : ℤ) then
    (qc.pktns i).tx.pkts.lookup ack.largestAck else none) = node at h
  rcases hrun : ackRangesLoop ack.ackRangeNum (node.map fun pkt => (ack.largestAck, pkt))
    ack.largestAck (ack.largestAck - ack.firstAckRange) ⟨(qc.pktns i).tx.pkts, 0, []⟩ pos
    with ⟨s, range⟩
  rw [hrun] at h
  dsimp only at h
  -- the three ways to refuse the frame before its ranges
  by_cases hsent : (qc.pktns i).tx.nextPn % 2 ^ 64 < (ack.largestAck : ℤ)
  · rw [if_pos hsent] at h
    cases h
  rw [if_neg hsent] at h
  by_cases hfirst : ack.largestAck < ack.firstAckRange
  · rw [if_pos hfirst] at h
    cases h
  rw [if_neg hfirst] at h
  by_cases hnode : (qc.pktns i).tx.largestAckedPn < (ack.largestAck : ℤ) ∧ node = none
  · rw [if_pos hnode] at h
    cases h
  rw [if_neg hnode] at h
  cases range with
  | none => cases h
  | some rest' =>
    dsimp only at h
    rw [pos_ackDone] at h
    rw [← Option.some.inj h]
    exact length_of_ackRangesLoop hrun

theorem pktFrmSwitch_pos (ctx : PktCtx) (beg : ℕ) (s : PktState) (frm : QuicFrame)
    (hn : n ≤ data.length) :
    n ≤ (pktFrmSwitch ctx data beg s frm n).2.2 ∧
      (pktFrmSwitch ctx data beg s frm n).2.2 ≤ data.length := by
  cases frm with
  | ack ack =>
    rw [pktFrmSwitch]
    rcases hpos : (qcParseAckFrm ctx.now (quicPeerValidatedAddr ctx s) s.qc ctx.pktns ack
      (data.drop n)).pos with - | rest
    · exact ⟨le_refl n, hn⟩
    · have hlen := length_of_qcParseAckFrm hpos
      rw [List.length_drop] at hlen
      show n ≤ data.length - rest.length ∧ data.length - rest.length ≤ data.length
      omega
  | crypto offset bytes =>
    rw [pktFrmSwitch]
    split_ifs <;> exact ⟨le_refl n, hn⟩
  | stream id offset bytes =>
    rw [pktFrmSwitch]
    split_ifs <;> exact ⟨le_refl n, hn⟩
  | handshakeDone =>
    rw [pktFrmSwitch]
    split_ifs <;> exact ⟨le_refl n, hn⟩
  | _ => exact ⟨le_refl n, hn⟩

/-- **One turn**: the cursor moves on and stays in the payload, unless the type byte is
`QUIC_FT_MAX`. -/
theorem pktFrmStep_run (ctx : PktCtx) (s : PktState) (hn : n < data.length) :
    if data[n] = quicFtMax then pktFrmStep ctx data s n = .error .index
    else ∃ ok s' m, pktFrmStep ctx data s n = .ok (ok, s', m) ∧ n < m ∧ m ≤ data.length := by
  have hfrm := qcParseFrm_run ctx.pktType hn
  rw [pktFrmStep]
  split_ifs at hfrm ⊢ with hmax
  · rw [hfrm]
  · obtain ⟨r, m, hrun, hnm, hm⟩ := hfrm
    rw [hrun]
    rcases r with - | ⟨frm, ackEliciting⟩
    · exact ⟨false, s, m, rfl, hnm, hm⟩
    · have hpos := pktFrmSwitch_pos ctx n
        { s with ackEliciting := s.ackEliciting || ackEliciting } frm hm
      exact ⟨_, _, _, rfl, Nat.lt_of_lt_of_le hnm hpos.1, hpos.2⟩

/-! ### The loop -/

/-- From a state and a cursor, one turn leads to others. -/
def Turn (ctx : PktCtx) (data : List UInt8) (p q : PktState × ℕ) : Prop :=
  p.2 < data.length ∧ pktFrmStep ctx data p.1 p.2 = .ok (true, q.1, q.2)

/-- The loop comes to a frame with a type byte of `QUIC_FT_MAX`. -/
def ComesToMax (ctx : PktCtx) (data : List UInt8) (p : PktState × ℕ) : Prop :=
  ∃ q, Relation.ReflTransGen (Turn ctx data) p q ∧ data[q.2]? = some quicFtMax

/-- The loop ends, with no access to what is not there, and with the cursor in the payload. -/
def PayloadInRange (ctx : PktCtx) (data : List UInt8) (s : PktState) : Prop :=
  ∃ ok s' n, qcParsePktFrms ctx data s = some (.ok (ok, s', n)) ∧ n ≤ data.length

theorem comesToMax_iff_of_turn {ctx : PktCtx} {p q : PktState × ℕ} (hturn : Turn ctx data p q)
    (hp : data[p.2]? ≠ some quicFtMax) : ComesToMax ctx data p ↔ ComesToMax ctx data q := by
  constructor
  · rintro ⟨r, hreach, hr⟩
    rcases hreach.cases_head with rfl | ⟨q', hturn', hrest⟩
    · exact absurd hr hp
    · have heq := hturn.2.symm.trans hturn'.2
      obtain ⟨-, h⟩ := Prod.mk.inj (Except.ok.inj heq)
      obtain rfl : q = q' := h
      exact ⟨r, hrest, hr⟩
  · rintro ⟨r, hreach, hr⟩
    exact ⟨r, .head hturn hreach, hr⟩

theorem not_comesToMax_of_no_turn {ctx : PktCtx} {p : PktState × ℕ}
    (hturn : ∀ q, ¬ Turn ctx data p q) (hp : data[p.2]? ≠ some quicFtMax) :
    ¬ ComesToMax ctx data p := by
  rintro ⟨r, hreach, hr⟩
  rcases hreach.cases_head with rfl | ⟨q, hq, -⟩
  · exact hp hr
  · exact hturn q hq

theorem not_comesToMax_length (ctx : PktCtx) (data : List UInt8) (s : PktState) :
    ¬ ComesToMax ctx data (s, data.length) := by
  apply not_comesToMax_of_no_turn
  · exact fun q hq => absurd hq.1 (lt_irrefl _)
  · show data[data.length]? ≠ _
    rw [List.getElem?_eq_none (le_refl _)]
    exact (Option.some_ne_none _).symm

/-- The loop from any place. -/
theorem qcParsePktFrmsLoop_iff (ctx : PktCtx) {turns : ℕ} (s : PktState) (hn : n ≤ data.length)
    (hturns : data.length - n ≤ turns) :
    (∃ ok s' m, qcParsePktFrmsLoop ctx data turns s n = some (.ok (ok, s', m)) ∧
      m ≤ data.length) ↔ ¬ ComesToMax ctx data (s, n) := by
  induction turns generalizing s n with
  | zero =>
    obtain rfl : n = data.length := by omega
    rw [qcParsePktFrmsLoop, if_neg (lt_irrefl _)]
    exact iff_of_true ⟨true, s, _, rfl, hn⟩ (not_comesToMax_length ctx data s)
  | succ turns ih =>
    rw [qcParsePktFrmsLoop]
    rcases Nat.lt_or_eq_of_le hn with hlt | rfl
    · have hstep := pktFrmStep_run ctx s hlt
      have hget : data[n]? = some data[n] := List.getElem?_eq_getElem hlt
      rw [if_pos hlt]
      split_ifs at hstep with hmax
      · -- the table is accessed behind its end
        rw [hstep]
        refine iff_of_false ?_ (not_not.mpr ⟨(s, n), .refl, ?_⟩)
        · rintro ⟨ok, s', m, h, -⟩
          cases h
        · rw [← hmax]
          exact hget
      · obtain ⟨ok, s', m, hrun, hnm, hm⟩ := hstep
        have hp : data[n]? ≠ some quicFtMax := by
          rw [hget]
          exact fun h => hmax (Option.some.inj h)
        rw [hrun]
        cases ok with
        | false =>
          refine iff_of_true ⟨false, s', m, rfl, hm⟩ (not_comesToMax_of_no_turn ?_ hp)
          intro q hq
          have hok := hrun.symm.trans hq.2
          cases hok
        | true =>
          have hturn : Turn ctx data (s, n) (s', m) := ⟨hlt, hrun⟩
          rw [comesToMax_iff_of_turn hturn hp]
          exact ih s' hm (by omega)
    · rw [if_neg (lt_irrefl _)]
      exact iff_of_true ⟨true, s, _, rfl, hn⟩ (not_comesToMax_length ctx data s)

/-- **Payload parsing stays in range** if and only if the loop does not come to a frame whose
type byte is `QUIC_FT_MAX`. -/
theorem payloadInRange_iff (ctx : PktCtx) (data : List UInt8) (s : PktState) :
    PayloadInRange ctx data s ↔ ¬ ComesToMax ctx data (s, 0) :=
  qcParsePktFrmsLoop_iff ctx s (Nat.zero_le _) (Nat.sub_le _ _)

/-- A connection on which nothing has been sent or received. -/
def newConn : QuicConn where
  pktns _ := quicPktnsInit
  path :=
    { cc := ⟨.slowStart, 12800, 0, 0⟩
      loss := ⟨0, 1600, 200, 0, 0⟩
      mtu := 1252
      cwnd := 12800
      minCwnd := 2504
      prepInFlight := 0
      inFlight := 0
      ifaePkts := 0 }
  maxAckDelay := 25

/-- A listener that receives a short packet. -/
def listenerCtx : PktCtx :=
  ⟨true, 1000, 3, .short, .rtt01, fun _ => true, fun _ => ⟨true, .done⟩⟩

/-- **Payload parsing**: a PING frame and then a frame of the type 0x1f. -/
theorem not_payloadInRange :
    ¬ PayloadInRange listenerCtx [0x01, 0x1f] ⟨newConn, .confirmed, 0, [], false⟩ := by
  rintro ⟨ok, s, n, h, -⟩
  have hfault : qcParsePktFrms listenerCtx [0x01, 0x1f] ⟨newConn, .confirmed, 0, [], false⟩ =
    some (.error .index) := rfl
  rw [hfault] at h
  cases h

end Quic

end SmartHAProxy
