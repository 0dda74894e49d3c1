/-
The parsers of QUIC frames (quic_frame.c, quic_frame-t.h).

A type byte selects a parser from the table, which has 31 entries: the types 0x00 to 0x1e.
`qcParseFrm` refuses the types above `QUIC_FT_MAX`, which is 0x1f, so that one type is left
that has no entry.  All parsers stay in the payload (`quicFrameParsers_safe`), and so does
`qcParseFrm` on all other types (`qcParseFrm_run`).
-/
import SmartHAProxy.Lib.Cursor
import SmartHAProxy.Quic.Ack

namespace SmartHAProxy

namespace Quic

/-! ### Integers -/

/-- `quic_dec_int`. -/
def quicDecIntAt : Cursor ℕ := do
  if (← Cursor.stop) ≤ (← Cursor.pos) then Cursor.fail
  else
    let len := 1 <<< ((← Cursor.peek).toNat >>> 6)
    if (← Cursor.stop) < (← Cursor.pos) + len then Cursor.fail
    else
      let b ← Cursor.byte
      let bs ← Cursor.bytes (len - 1)
      pure (beFold (b &&& 0x3f).toNat bs)

theorem quicDecIntAt_run {data : List UInt8} {n : ℕ} (h : n ≤ data.length) :
    quicDecIntAt data n =
      match quicDecInt (data.drop n) with
      | none => .ok (none, n)
      | some (v, rest) => .ok (some v, data.length - rest.length) := by
  rw [quicDecIntAt]
  show (if data.length ≤ n then Cursor.fail else _ : Cursor ℕ) data n = _
  rcases Nat.lt_or_eq_of_le h with hlt | rfl
  · rw [if_neg (Nat.not_le.mpr hlt), Cursor.bind_run (Cursor.peek_run hlt),
      List.drop_eq_getElem_cons hlt]
    show (if data.length < n + 1 <<< (data[n].toNat >>> 6) then Cursor.fail else _ : Cursor ℕ)
      data n = _
    rw [quicDecInt]
    obtain ⟨len, hlen⟩ : ∃ len, 1 <<< (data[n].toNat >>> 6) = len := ⟨_, rfl⟩
    have hpos : 0 < len := by
      rw [← hlen, Nat.one_shiftLeft]
      exact Nat.two_pow_pos _
    simp only [hlen, List.length_drop]
    by_cases hroom : data.length < n + len
    · rw [if_pos hroom, if_pos (by omega)]
      rfl
    · rw [if_neg hroom, if_neg (by omega), Cursor.bind_run (Cursor.byte_run hlt),
        Cursor.bind_run (Cursor.bytes_run (by omega)), Cursor.pure_run]
      simp only [List.length_drop, List.drop_drop]
      congr 2
      omega
  · rw [if_pos (le_refl _), List.drop_length]
    rfl

theorem length_of_quicDecInt {buf rest : List UInt8} {v : ℕ}
    (h : quicDecInt buf = some (v, rest)) : rest.length < buf.length := by
  rcases buf with - | ⟨b, buf⟩
  · cases h
  · rw [quicDecInt] at h
    split_ifs at h
    · obtain ⟨-, rfl⟩ := Prod.mk.inj (Option.some.inj h)
      rw [List.length_drop, List.length_cons]
      omega

theorem quicDecIntAt_safe : Cursor.Safe quicDecIntAt := by
  intro data n hn
  rw [quicDecIntAt_run hn]
  rcases hdec : quicDecInt (data.drop n) with - | ⟨v, rest⟩
  · exact ⟨none, n, rfl, le_refl n, hn⟩
  · have hlen := length_of_quicDecInt hdec
    rw [List.length_drop] at hlen
    exact ⟨some v, data.length - rest.length, rfl, by omega, by omega⟩

/-! ### Frames -/

/-- `struct quic_frame`, as it is received.  The data are the bytes that the pointers in it
point at. -/
inductive QuicFrame
  | padding (len : ℕ)
  | ping
  | ack (ack : QuicAck)
  | ackEcn (ack : QuicAck)
  | resetStream (id appErrorCode finalSize : ℕ)
  | stopSending (id appErrorCode : ℕ)
  | crypto (offset : ℕ) (data : List UInt8)
  | newToken (data : List UInt8)
  | stream (id offset : ℕ) (data : List UInt8)
  | maxData (maxData : ℕ)
  | maxStreamData (id maxStreamData : ℕ)
  | maxStreamsBidi (maxStreams : ℕ)
  | maxStreamsUni (maxStreams : ℕ)
  | dataBlocked (limit : ℕ)
  | streamDataBlocked (id limit : ℕ)
  | streamsBlockedBidi (limit : ℕ)
  | streamsBlockedUni (limit : ℕ)
  | newConnectionId (seqNum retirePriorTo : ℕ) (cid statelessResetToken : List UInt8)
  | retireConnectionId (seqNum : ℕ)
  | pathChallenge (data : List UInt8)
  | pathResponse (data : List UInt8)
  | connectionClose (errorCode frameType : ℕ) (reasonPhrase : List UInt8)
  | connectionCloseApp (errorCode : ℕ) (reasonPhrase : List UInt8)
  | handshakeDone

/-! ### Parsers -/

def quicParsePaddingFrame : Cursor QuicFrame := do
  let n ← Cursor.room
  let k ← Cursor.zeros n
  pure (.padding (1 + k))

def quicParsePingFrame : Cursor QuicFrame := pure .ping

/-- `quic_parse_ack_frame_header`. -/
def quicParseAckFrameHeaderAt : Cursor QuicFrame := do
  let largestAck ← quicDecIntAt
  let ackDelay ← quicDecIntAt
  let ackRangeNum ← quicDecIntAt
  let firstAckRange ← quicDecIntAt
  pure (.ack ⟨largestAck, ackDelay, ackRangeNum, firstAckRange⟩)

/-- `quic_parse_ack_ecn_frame`: the last two fields are in the other order. -/
def quicParseAckEcnFrame : Cursor QuicFrame := do
  let largestAck ← quicDecIntAt
  let ackDelay ← quicDecIntAt
  let firstAckRange ← quicDecIntAt
  let ackRangeNum ← quicDecIntAt
  pure (.ackEcn ⟨largestAck, ackDelay, ackRangeNum, firstAckRange⟩)

def quicParseResetStreamFrame : Cursor QuicFrame := do
  let id ← quicDecIntAt
  let appErrorCode ← quicDecIntAt
  let finalSize ← quicDecIntAt
  pure (.resetStream id appErrorCode finalSize)

def parseInt (frm : ℕ → QuicFrame) : Cursor QuicFrame := do
  let v ← quicDecIntAt
  pure (frm v)

def parseTwoInts (frm : ℕ → ℕ → QuicFrame) : Cursor QuicFrame := do
  let v ← quicDecIntAt
  let w ← quicDecIntAt
  pure (frm v w)

def quicParseStopSendingFrame : Cursor QuicFrame := parseTwoInts .stopSending

def quicParseCryptoFrame : Cursor QuicFrame := do
  let offset ← quicDecIntAt
  let len ← quicDecIntAt
  let data ← Cursor.take len
  pure (.crypto offset data)

def quicParseNewTokenFrame : Cursor QuicFrame := do
  let len ← quicDecIntAt
  let data ← Cursor.take len
  pure (.newToken data)

/-- The offset of a STREAM frame, with `QUIC_STREAM_FRAME_TYPE_OFF_BIT`. -/
def streamOffset (type : UInt8) : Cursor ℕ := if type &&& 4 = 0 then pure 0 else quicDecIntAt

/-- The data of a STREAM frame, with `QUIC_STREAM_FRAME_TYPE_LEN_BIT`: without a length, all
that is left. -/
def streamData (type : UInt8) : Cursor (List UInt8) :=
  if type &&& 2 = 0 then Cursor.rest else quicDecIntAt >>= Cursor.take

def quicParseStreamFrame (type : UInt8) : Cursor QuicFrame := do
  let id ← quicDecIntAt
  let offset ← streamOffset type
  let data ← streamData type
  pure (.stream id offset data)

def quicParseMaxDataFrame : Cursor QuicFrame := parseInt .maxData

def quicParseMaxStreamDataFrame : Cursor QuicFrame := parseTwoInts .maxStreamData

def quicParseMaxStreamsBidiFrame : Cursor QuicFrame := parseInt .maxStreamsBidi

def quicParseMaxStreamsUniFrame : Cursor QuicFrame := parseInt .maxStreamsUni

def quicParseDataBlockedFrame : Cursor QuicFrame := parseInt .dataBlocked

def quicParseStreamDataBlockedFrame : Cursor QuicFrame := parseTwoInts .streamDataBlocked

def quicParseStreamsBlockedBidiFrame : Cursor QuicFrame := parseInt .streamsBlockedBidi

def quicParseStreamsBlockedUniFrame : Cursor QuicFrame := parseInt .streamsBlockedUni

/-- `quic_parse_new_connection_id_frame`: the identifier and the token of 16 bytes are behind
one check. -/
def quicParseNewConnectionIdFrame : Cursor QuicFrame := do
  let seqNum ← quicDecIntAt
  let retirePriorTo ← quicDecIntAt
  let len ← Cursor.next
  let data ← Cursor.take (len.toNat + 16)
  pure (.newConnectionId seqNum retirePriorTo (data.take len.toNat) (data.drop len.toNat))

def quicParseRetireConnectionIdFrame : Cursor QuicFrame := parseInt .retireConnectionId

def quicParsePathChallengeFrame : Cursor QuicFrame := do
  let data ← Cursor.take 8
  pure (.pathChallenge data)

def quicParsePathResponseFrame : Cursor QuicFrame := do
  let data ← Cursor.take 8
  pure (.pathResponse data)

def quicParseConnectionCloseFrame : Cursor QuicFrame := do
  let errorCode ← quicDecIntAt
  let frameType ← quicDecIntAt
  let len ← quicDecIntAt
  let reasonPhrase ← Cursor.take len
  pure (.connectionClose errorCode frameType reasonPhrase)

def quicParseConnectionCloseAppFrame : Cursor QuicFrame := do
  let errorCode ← quicDecIntAt
  let len ← quicDecIntAt
  let reasonPhrase ← Cursor.take len
  pure (.connectionCloseApp errorCode reasonPhrase)

def quicParseHandshakeDoneFrame : Cursor QuicFrame := pure .handshakeDone

/-! ### The table -/

/-- `enum quic_pkt_type`. -/
inductive QuicPktType
  | initial | zeroRtt | handshake | retry | short
  deriving DecidableEq

/-- The bit of a packet type in the masks. -/
def QuicPktType.bit : QuicPktType → ℕ
  | .initial => 1
  | .zeroRtt => 2
  | .handshake => 4
  | .retry => 8
  | .short => 16

/-- `QUIC_FT_PKT_TYPE_IH01_BITMASK` and its like. -/
def pktTypeIH01 : ℕ := 1 ||| 4 ||| 2 ||| 16
def pktTypeIH1 : ℕ := 1 ||| 4 ||| 16
def pktType01 : ℕ := 2 ||| 16
def pktType1 : ℕ := 16

/-- `struct quic_frame_parser`; the flag is `QUIC_FL_RX_PACKET_ACK_ELICITING`. -/
structure QuicFrameParser where
  func : UInt8 → Cursor QuicFrame
  ackEliciting : Bool
  mask : ℕ

def quicFrameParsers : List QuicFrameParser :=
  [⟨fun _ => quicParsePaddingFrame, false, pktTypeIH01⟩,
    ⟨fun _ => quicParsePingFrame, true, pktTypeIH01⟩,
    ⟨fun _ => quicParseAckFrameHeaderAt, false, pktTypeIH1⟩,
    ⟨fun _ => quicParseAckEcnFrame, false, pktTypeIH1⟩,
    ⟨fun _ => quicParseResetStreamFrame, true, pktType01⟩,
    ⟨fun _ => quicParseStopSendingFrame, true, pktType01⟩,
    ⟨fun _ => quicParseCryptoFrame, true, pktTypeIH1⟩,
    ⟨fun _ => quicParseNewTokenFrame, true, pktType1⟩,
    -- QUIC_FT_STREAM_8 to QUIC_FT_STREAM_F
    ⟨quicParseStreamFrame, true, pktType01⟩,
    ⟨quicParseStreamFrame, true, pktType01⟩,
    ⟨quicParseStreamFrame, true, pktType01⟩,
    ⟨quicParseStreamFrame, true, pktType01⟩,
    ⟨quicParseStreamFrame, true, pktType01⟩,
    ⟨quicParseStreamFrame, true, pktType01⟩,
    ⟨quicParseStreamFrame, true, pktType01⟩,
    ⟨quicParseStreamFrame, true, pktType01⟩,
    ⟨fun _ => quicParseMaxDataFrame, true, pktType01⟩,
    ⟨fun _ => quicParseMaxStreamDataFrame, true, pktType01⟩,
    ⟨fun _ => quicParseMaxStreamsBidiFrame, true, pktType01⟩,
    ⟨fun _ => quicParseMaxStreamsUniFrame, true, pktType01⟩,
    ⟨fun _ => quicParseDataBlockedFrame, true, pktType01⟩,
    ⟨fun _ => quicParseStreamDataBlockedFrame, true, pktType01⟩,
    ⟨fun _ => quicParseStreamsBlockedBidiFrame, true, pktType01⟩,
    ⟨fun _ => quicParseStreamsBlockedUniFrame, true, pktType01⟩,
    ⟨fun _ => quicParseNewConnectionIdFrame, true, pktType01⟩,
    ⟨fun _ => quicParseRetireConnectionIdFrame, true, pktType01⟩,
    ⟨fun _ => quicParsePathChallengeFrame, true, pktType01⟩,
    ⟨fun _ => quicParsePathResponseFrame, true, pktType01⟩,
    ⟨fun _ => quicParseConnectionCloseFrame, false, pktTypeIH01⟩,
    ⟨fun _ => quicParseConnectionCloseAppFrame, false, pktType01⟩,
    ⟨fun _ => quicParseHandshakeDoneFrame, true, pktType1⟩]

/-- `QUIC_FT_MAX`: the number of the types. -/
def quicFtMax : UInt8 := 0x1f

/-- The part of `qc_parse_frm` behind the type byte: the frame, and whether it has to be
acknowledged. -/
def parseTyped (pktType : QuicPktType) (type : UInt8) : Cursor (QuicFrame × Bool) :=
  if quicFtMax < type then Cursor.fail
  else
    match quicFrameParsers[type.toNat]? with
    | none => Cursor.fault .index
    | some parser =>
      if parser.mask &&& pktType.bit = 0 then Cursor.fail
      else do
        let frm ← parser.func type
        pure (frm, parser.ackEliciting)

def qcParseFrm (pktType : QuicPktType) : Cursor (QuicFrame × Bool) := do
  if (← Cursor.stop) ≤ (← Cursor.pos) then Cursor.fail
  else
    let type ← Cursor.byte
    parseTyped pktType type

/-! ### Safety -/

theorem safe_parseInt (frm : ℕ → QuicFrame) : Cursor.Safe (parseInt frm) :=
  quicDecIntAt_safe.bind fun _ => Cursor.safe_pure _

theorem safe_parseTwoInts (frm : ℕ → ℕ → QuicFrame) : Cursor.Safe (parseTwoInts frm) :=
  quicDecIntAt_safe.bind fun _ => quicDecIntAt_safe.bind fun _ => Cursor.safe_pure _

theorem safe_fourInts (frm : ℕ → ℕ → ℕ → ℕ → QuicFrame) : Cursor.Safe (do
    let a ← quicDecIntAt
    let b ← quicDecIntAt
    let d ← quicDecIntAt
    let e ← quicDecIntAt
    pure (frm a b d e)) :=
  quicDecIntAt_safe.bind fun _ => quicDecIntAt_safe.bind fun _ => safe_parseTwoInts _

theorem quicParseStreamFrame_safe (type : UInt8) : Cursor.Safe (quicParseStreamFrame type) := by
  apply quicDecIntAt_safe.bind
  intro id
  apply Cursor.Safe.bind (p := streamOffset type)
  · exact Cursor.Safe.ite (Cursor.safe_pure 0) quicDecIntAt_safe
  · intro offset
    apply Cursor.Safe.bind (p := streamData type)
    · exact Cursor.Safe.ite Cursor.safe_rest (quicDecIntAt_safe.bind Cursor.safe_take)
    · exact fun data => Cursor.safe_pure _

theorem quicParsePaddingFrame_safe : Cursor.Safe quicParsePaddingFrame := by
  intro data n hn
  rw [quicParsePaddingFrame, Cursor.bind_run (Cursor.room_run hn)]
  exact ((Cursor.safe_zeros _).bind fun _ => Cursor.safe_pure _) data n hn

theorem safe_sized (frm : List UInt8 → QuicFrame) : Cursor.Safe (do
    let len ← quicDecIntAt
    let data ← Cursor.take len
    pure (frm data)) :=
  quicDecIntAt_safe.bind fun len => (Cursor.safe_take len).bind fun _ => Cursor.safe_pure _

theorem quicParseNewConnectionIdFrame_safe : Cursor.Safe quicParseNewConnectionIdFrame :=
  quicDecIntAt_safe.bind fun _ => quicDecIntAt_safe.bind fun _ => Cursor.safe_next.bind
    fun len => (Cursor.safe_take (len.toNat + 16)).bind fun _ => Cursor.safe_pure _

/-- **Every parser of the table is safe.** -/
theorem quicFrameParsers_safe :
    ∀ parser ∈ quicFrameParsers, ∀ type, Cursor.Safe (parser.func type) := by
  have hone := safe_parseInt
  have htwo := safe_parseTwoInts
  have hsized := safe_sized
  have htake := fun (k : ℕ) (frm : List UInt8 → QuicFrame) =>
    (Cursor.safe_take k).bind fun data => Cursor.safe_pure (frm data)
  simp only [quicFrameParsers, List.forall_mem_cons]
  refine ⟨fun _ => quicParsePaddingFrame_safe, fun _ => Cursor.safe_pure _,
    fun _ => safe_fourInts _, fun _ => safe_fourInts fun a b d e => .ackEcn ⟨a, b, e, d⟩,
    fun _ => quicDecIntAt_safe.bind fun _ => htwo _, fun _ => htwo _,
    fun _ => quicDecIntAt_safe.bind fun _ => hsized _, fun _ => hsized _,
    quicParseStreamFrame_safe, quicParseStreamFrame_safe, quicParseStreamFrame_safe,
    quicParseStreamFrame_safe, quicParseStreamFrame_safe, quicParseStreamFrame_safe,
    quicParseStreamFrame_safe, quicParseStreamFrame_safe, fun _ => hone _, fun _ => htwo _,
    fun _ => hone _, fun _ => hone _, fun _ => hone _, fun _ => htwo _, fun _ => hone _,
    fun _ => hone _, fun _ => quicParseNewConnectionIdFrame_safe, fun _ => hone _,
    fun _ => htake 8 _, fun _ => htake 8 _,
    fun _ => quicDecIntAt_safe.bind fun _ => quicDecIntAt_safe.bind fun _ => hsized _,
    fun _ => quicDecIntAt_safe.bind fun _ => hsized _, fun _ => Cursor.safe_pure _, ?_⟩
  intro parser h
  exact absurd h List.not_mem_nil

theorem parseTyped_max (pktType : QuicPktType) (data : List UInt8) (n : ℕ) :
    parseTyped pktType quicFtMax data n = .error .index := rfl

theorem parseTyped_safe (pktType : QuicPktType) {type : UInt8} (h : type ≠ quicFtMax) :
    Cursor.Safe (parseTyped pktType type) := by
  rw [parseTyped]
  by_cases hmax : quicFtMax < type
  · rw [if_pos hmax]
    exact Cursor.safe_fail
  · rw [if_neg hmax]
    have hlt : type.toNat < quicFrameParsers.length := by
      have hne : type.toNat ≠ 31 := fun heq => h (UInt8.toNat_inj.mp heq)
      have hle : type.toNat ≤ 31 := UInt8.le_iff_toNat_le.mp (UInt8.not_lt.mp hmax)
      show type.toNat < 31
      omega
    rw [List.getElem?_eq_getElem hlt]
    dsimp only
    apply Cursor.Safe.ite Cursor.safe_fail
    apply (quicFrameParsers_safe _ (List.getElem_mem hlt) type).bind
    exact fun frm => Cursor.safe_pure _

/-- **One frame**: `qc_parse_frm` moves on and stays in the payload, unless the type byte is
`QUIC_FT_MAX`. -/
theorem qcParseFrm_run (pktType : QuicPktType) {data : List UInt8} {n : ℕ}
    (hn : n < data.length) :
    if data[n] = quicFtMax then qcParseFrm pktType data n = .error .index
    else ∃ r m, qcParseFrm pktType data n = .ok (r, m) ∧ n < m ∧ m ≤ data.length := by
  have hstep : qcParseFrm pktType data n = parseTyped pktType data[n] data (n + 1) := by
    show (if data.length ≤ n then Cursor.fail else _ : Cursor _) data n = _
    rw [if_neg (Nat.not_le.mpr hn), Cursor.bind_run (Cursor.byte_run hn)]
  rw [hstep]
  split_ifs with hmax
  · rw [hmax]
    exact parseTyped_max pktType data (n + 1)
  · exact parseTyped_safe pktType hmax data (n + 1) hn

end Quic

end SmartHAProxy
