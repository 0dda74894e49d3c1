/-
Transport parameters of QUIC (xprt_quic.h).

A parameter is its type, the length of its value, and the value.  The encoder leaves out the
numbers that are 0, and those that are the default; the decoder starts from the initial
values of `quic_transport_params_init`, some of which are not 0.

The arrays of the structures are lists.  Connection identifiers are lists of their bytes.
-/
import SmartHAProxy.Quic.Int

namespace SmartHAProxy

namespace Quic

/-! ### Data -/

/-- `struct preferred_address`. -/
structure PreferredAddress where
  ipv4Port : UInt16
  ipv6Port : UInt16
  ipv4Addr : List UInt8
  ipv6Addr : List UInt8
  cid : List UInt8
  statelessResetToken : List UInt8
  deriving DecidableEq, Repr

/-- `struct quic_transport_params`. -/
@[ext]
structure TransportParams where
  idleTimeout : ℕ
  maxPacketSize : ℕ
  initialMaxData : ℕ
  initialMaxStreamDataBidiLocal : ℕ
  initialMaxStreamDataBidiRemote : ℕ
  initialMaxStreamDataUni : ℕ
  initialMaxStreamsBidi : ℕ
  initialMaxStreamsUni : ℕ
  ackDelayExponent : ℕ
  maxAckDelay : ℕ
  activeConnectionIdLimit : ℕ
  disableActiveMigration : Bool
  withStatelessResetToken : Bool
  withPreferredAddress : Bool
  originalDestinationConnectionIdPresent : Bool
  initialSourceConnectionIdPresent : Bool
  statelessResetToken : List UInt8
  originalDestinationConnectionId : List UInt8
  initialSourceConnectionId : List UInt8
  preferredAddress : PreferredAddress
  deriving DecidableEq, Repr

def dfltMaxPacketSize : ℕ := 65527
def dfltAckDelayComponent : ℕ := 3
def dfltMaxAckDelay : ℕ := 25

/-- The size of the array `data` of `struct quic_cid`. -/
def cidDataSize : ℕ := 20 + 2 + 16

/-- `QUIC_STATELESS_RESET_TOKEN_LEN`. -/
def statelessResetTokenLen : ℕ := 16

/-- The types of the parameters, `QUIC_TP_`. -/
def tpOriginalDestinationConnectionId : ℕ := 0
def tpIdleTimeout : ℕ := 1
def tpStatelessResetToken : ℕ := 2
def tpMaxPacketSize : ℕ := 3
def tpInitialMaxData : ℕ := 4
def tpInitialMaxStreamDataBidiLocal : ℕ := 5
def tpInitialMaxStreamDataBidiRemote : ℕ := 6
def tpInitialMaxStreamDataUni : ℕ := 7
def tpInitialMaxStreamsBidi : ℕ := 8
def tpInitialMaxStreamsUni : ℕ := 9
def tpAckDelayExponent : ℕ := 10
def tpMaxAckDelay : ℕ := 11
def tpDisableActiveMigration : ℕ := 12
def tpPreferredAddress : ℕ := 13
def tpActiveConnectionIdLimit : ℕ := 14
def tpInitialSourceConnectionId : ℕ := 15

def tpAckDelayExponentLimit : ℕ := 20
def tpMaxAckDelayLimit : ℕ := 2 ^ 14

/-- Memory as `pool_zalloc` gives it. -/
def TransportParams.zeroed : TransportParams where
  idleTimeout := 0
  maxPacketSize := 0
  initialMaxData := 0
  initialMaxStreamDataBidiLocal := 0
  initialMaxStreamDataBidiRemote := 0
  initialMaxStreamDataUni := 0
  initialMaxStreamsBidi := 0
  initialMaxStreamsUni := 0
  ackDelayExponent := 0
  maxAckDelay := 0
  activeConnectionIdLimit := 0
  disableActiveMigration := false
  withStatelessResetToken := false
  withPreferredAddress := false
  originalDestinationConnectionIdPresent := false
  initialSourceConnectionIdPresent := false
  statelessResetToken := List.replicate 16 0
  originalDestinationConnectionId := []
  initialSourceConnectionId := []
  preferredAddress :=
    ⟨0, 0, List.replicate 4 0, List.replicate 16 0, [], List.replicate 16 0⟩

/-- `quic_transport_params_init`. -/
def transportParamsInit (p : TransportParams) (server : Bool) : TransportParams :=
  { p with
    maxPacketSize := dfltMaxPacketSize
    ackDelayExponent := dfltAckDelayComponent
    maxAckDelay := dfltMaxAckDelay
    idleTimeout := 30000
    initialMaxData := 1 * 1024 * 1024
    initialMaxStreamDataBidiLocal := 256 * 1024
    initialMaxStreamDataBidiRemote := 256 * 1024
    initialMaxStreamDataUni := 256 * 1024
    initialMaxStreamsBidi := 100
    initialMaxStreamsUni := 3
    withStatelessResetToken := if server then true else p.withStatelessResetToken
    activeConnectionIdLimit := 8 }

/-! ### Encoding -/

/-- `quic_transport_param_encode_type_len`. -/
def tpEncodeTypeLen (type len : ℕ) (buf : OutBuf) : Option OutBuf :=
  (quicEncInt buf type).bind fun buf => quicEncInt buf len

/-- `quic_transport_param_enc_mem`. -/
def tpEncMem (type : ℕ) (param : List UInt8) (buf : OutBuf) : Option OutBuf :=
  (tpEncodeTypeLen type param.length buf).bind fun buf =>
    if buf.room < param.length then none else some (buf.put param)

/-- `quic_transport_param_enc_int`. -/
def tpEncInt (type val : ℕ) (buf : OutBuf) : Option OutBuf :=
  if quicIntGetsize val = 0 then none
  else (tpEncodeTypeLen type (quicIntGetsize val) buf).bind fun buf => quicEncInt buf val

/-- `quic_transport_param_enc_pref_addr_val`. -/
def tpEncPrefAddrVal (addr : PreferredAddress) (buf : OutBuf) : OutBuf :=
  let buf := buf.put (beBytes 2 addr.ipv4Port.toNat)
  let buf := buf.put addr.ipv4Addr
  let buf := buf.put (beBytes 2 addr.ipv6Port.toNat)
  let buf := buf.put addr.ipv6Addr
  let buf := buf.put [UInt8.ofNat addr.cid.length]
  let buf := buf.put addr.cid
  buf.put addr.statelessResetToken

/-- `quic_transport_param_enc_pref_addr`. -/
def tpEncPrefAddr (addr : PreferredAddress) (buf : OutBuf) : Option OutBuf :=
  let addrLen := (2 + 4) + (2 + 16) + (1 + addr.cid.length) + statelessResetTokenLen
  (tpEncodeTypeLen tpPreferredAddress addrLen buf).bind fun buf =>
    if buf.room < addrLen then none else some (tpEncPrefAddrVal addr buf)

/-- A parameter that is encoded under a condition. -/
def tpEncIf (cond : Bool) (enc : OutBuf → Option OutBuf) (buf : OutBuf) : Option OutBuf :=
  if cond then enc buf else some buf

/-- The part of `quic_transport_params_encode` for servers. -/
def transportParamsEncodeServer (p : TransportParams) (buf : OutBuf) : Option OutBuf := do
  let buf ← tpEncMem tpOriginalDestinationConnectionId p.originalDestinationConnectionId buf
  let buf ← tpEncIf p.withStatelessResetToken
    (tpEncMem tpStatelessResetToken p.statelessResetToken) buf
  tpEncIf p.withPreferredAddress (tpEncPrefAddr p.preferredAddress) buf

/-- `quic_transport_params_encode`. -/
def transportParamsEncode (p : TransportParams) (server : Bool) (buf : OutBuf) :
    Option OutBuf := do
  let buf ← tpEncIf server (transportParamsEncodeServer p) buf
  let buf ← tpEncMem tpInitialSourceConnectionId p.initialSourceConnectionId buf
  let buf ← tpEncIf (p.idleTimeout ≠ 0) (tpEncInt tpIdleTimeout p.idleTimeout) buf
  let buf ← tpEncIf (p.maxPacketSize ≠ dfltMaxPacketSize)
    (tpEncInt tpMaxPacketSize p.maxPacketSize) buf
  let buf ← tpEncIf (p.initialMaxData ≠ 0) (tpEncInt tpInitialMaxData p.initialMaxData) buf
  let buf ← tpEncIf (p.initialMaxStreamDataBidiLocal ≠ 0)
    (tpEncInt tpInitialMaxStreamDataBidiLocal p.initialMaxStreamDataBidiLocal) buf
  let buf ← tpEncIf (p.initialMaxStreamDataBidiRemote ≠ 0)
    (tpEncInt tpInitialMaxStreamDataBidiRemote p.initialMaxStreamDataBidiRemote) buf
  let buf ← tpEncIf (p.initialMaxStreamDataUni ≠ 0)
    (tpEncInt tpInitialMaxStreamDataUni p.initialMaxStreamDataUni) buf
  let buf ← tpEncIf (p.initialMaxStreamsBidi ≠ 0)
    (tpEncInt tpInitialMaxStreamsBidi p.initialMaxStreamsBidi) buf
  let buf ← tpEncIf (p.initialMaxStreamsUni ≠ 0)
    (tpEncInt tpInitialMaxStreamsUni p.initialMaxStreamsUni) buf
  let buf ← tpEncIf (p.ackDelayExponent ≠ dfltAckDelayComponent)
    (tpEncInt tpAckDelayExponent p.ackDelayExponent) buf
  let buf ← tpEncIf (p.maxAckDelay ≠ dfltMaxAckDelay) (tpEncInt tpMaxAckDelay p.maxAckDelay) buf
  let buf ← tpEncIf p.disableActiveMigration (tpEncodeTypeLen tpDisableActiveMigration 0) buf
  tpEncIf (p.activeConnectionIdLimit ≠ 0)
    (tpEncInt tpActiveConnectionIdLimit p.activeConnectionIdLimit) buf

/-! ### Decoding -/

/-- `quic_transport_param_dec_pref_addr`, on the bytes up to `end`. -/
def tpDecPrefAddr (buf : List UInt8) : Option PreferredAddress :=
  if buf.length < (2 + 4) + (2 + 16) + 1 then none
  else
    let ipv4Port := UInt16.ofNat (beFold 0 (buf.take 2))
    let buf := buf.drop 2
    let ipv4Addr := buf.take 4
    let buf := buf.drop 4
    let ipv6Port := UInt16.ofNat (beFold 0 (buf.take 2))
    let buf := buf.drop 2
    let ipv6Addr := buf.take 16
    let buf := buf.drop 16
    let cidLen := beFold 0 (buf.take 1)
    let buf := buf.drop 1
    if cidLen ≠ 0 ∧ (cidLen < buf.length ∨ cidDataSize < cidLen) then none
    else
      let cid := buf.take cidLen
      let buf := buf.drop cidLen
      if buf.length ≠ statelessResetTokenLen then none
      else some ⟨ipv4Port, ipv6Port, ipv4Addr, ipv6Addr, cid, buf⟩

/-- A parameter that is a number takes all bytes of its value. -/
def tpDecInt (buf : List UInt8) (set : ℕ → Option TransportParams) : Option TransportParams :=
  match quicDecInt buf with
  | some (v, []) => set v
  | _ => none

/-- `quic_transport_param_decode`, on the value of the parameter. -/
def transportParamDecode (p : TransportParams) (server : Bool) (type : ℕ) (buf : List UInt8) :
    Option TransportParams :=
  if type = tpOriginalDestinationConnectionId then
    if server = false ∨ cidDataSize ≤ buf.length then none
    else some { p with originalDestinationConnectionId := buf,
                       originalDestinationConnectionIdPresent := true }
  else if type = tpInitialSourceConnectionId then
    if cidDataSize ≤ buf.length then none
    else some { p with initialSourceConnectionId := buf,
                       initialSourceConnectionIdPresent := true }
  else if type = tpStatelessResetToken then
    if server = false ∨ buf.length ≠ statelessResetTokenLen then none
    else some { p with statelessResetToken := buf, withStatelessResetToken := true }
  else if type = tpPreferredAddress then
    if server = false then none
    else (tpDecPrefAddr buf).map fun addr =>
      { p with preferredAddress := addr, withPreferredAddress := true }
  else if type = tpIdleTimeout then
    tpDecInt buf fun v => some { p with idleTimeout := v }
  else if type = tpMaxPacketSize then
    tpDecInt buf fun v => some { p with maxPacketSize := v }
  else if type = tpInitialMaxData then
    tpDecInt buf fun v => some { p with initialMaxData := v }
  else if type = tpInitialMaxStreamDataBidiLocal then
    tpDecInt buf fun v => some { p with initialMaxStreamDataBidiLocal := v }
  else if type = tpInitialMaxStreamDataBidiRemote then
    tpDecInt buf fun v => some { p with initialMaxStreamDataBidiRemote := v }
  else if type = tpInitialMaxStreamDataUni then
    tpDecInt buf fun v => some { p with initialMaxStreamDataUni := v }
  else if type = tpInitialMaxStreamsBidi then
    tpDecInt buf fun v => some { p with initialMaxStreamsBidi := v }
  else if type = tpInitialMaxStreamsUni then
    tpDecInt buf fun v => some { p with initialMaxStreamsUni := v }
  else if type = tpAckDelayExponent then
    tpDecInt buf fun v =>
      if tpAckDelayExponentLimit < v then none else some { p with ackDelayExponent := v }
  else if type = tpMaxAckDelay then
    tpDecInt buf fun v =>
      if tpMaxAckDelayLimit < v then none else some { p with maxAckDelay := v }
  else if type = tpDisableActiveMigration then
    if buf.length ≠ 0 then none else some { p with disableActiveMigration := true }
  else if type = tpActiveConnectionIdLimit then
    tpDecInt buf fun v => some { p with activeConnectionIdLimit := v }
  else some p

/-- The loop of `quic_transport_params_decode`.  A parameter takes two bytes at least, so that
there are fewer turns than bytes. -/
def transportParamsLoop (server : Bool) : ℕ → TransportParams → List UInt8 →
    Option TransportParams
  | _, p, [] => some p
  | 0, _, _ => none
  | fuel + 1, p, buf =>
    match quicDecInt buf with
    | none => none
    | some (type, buf) =>
      match quicDecInt buf with
      | none => none
      | some (len, buf) =>
        if buf.length < len then none
        else
          match transportParamDecode p server type (buf.take len) with
          | none => none
          | some p => transportParamsLoop server fuel p (buf.drop len)

/-- `quic_transport_params_decode`, into the memory `p`. -/
def transportParamsDecode (p : TransportParams) (server : Bool) (buf : List UInt8) :
    Option TransportParams :=
  match transportParamsLoop server buf.length (transportParamsInit p server) buf with
  | none => none
  | some p =>
    if server = true ∧ p.originalDestinationConnectionIdPresent = false ∨
        p.initialSourceConnectionIdPresent = false then none
    else some p

end Quic

end SmartHAProxy
