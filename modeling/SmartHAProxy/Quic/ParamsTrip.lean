/-
Round trips of transport parameters.

The encoder writes a list of parameters (`TransportParams.params`), and the decoder takes them
one by one, so that what is decoded can be written down (`TransportParams.decoded`).  It is not
always what was encoded:

* a number that is left out because it is 0 is decoded as the initial value of the decoder;
* a server without a stateless reset token is decoded as one with a token of zeros;
* a preferred address with a connection identifier is refused: the decoder checks that not
  more bytes are left than the identifier has, where it should check that not fewer are.

Main results: `builds_transportParamsEncode` and `transportParamsDecode_bytes`, the two
directions, and `transportParams_roundTrip_iff`.
-/
import SmartHAProxy.Quic.Params

namespace SmartHAProxy

variable {addr : PreferredAddress} {type val : ℕ} {cond : Bool} {x : Param} {L : List Param}

namespace Quic

/-! ### The bytes of parameters -/

abbrev Param := ℕ × List UInt8

namespace Param

def bytes (x : Param) : List UInt8 := quicInt x.1 ++ (quicInt x.2.length ++ x.2)

/-- The numbers in front of the value can be encoded. -/
def Small (x : Param) : Prop := x.1 < 2 ^ 62 ∧ x.2.length < 2 ^ 62

/-- A parameter that is there under a condition. -/
def optional (cond : Bool) (x : Param) : List Param := if cond then [x] else []

end Param

def PreferredAddress.bytes (addr : PreferredAddress) : List UInt8 :=
  beBytes 2 addr.ipv4Port.toNat ++ (addr.ipv4Addr ++ (beBytes 2 addr.ipv6Port.toNat ++
    (addr.ipv6Addr ++ ([UInt8.ofNat addr.cid.length] ++ (addr.cid ++ addr.statelessResetToken)))))

/-- The arrays of the address have their sizes. -/
structure PreferredAddress.Sized (addr : PreferredAddress) : Prop where
  ipv4Addr : addr.ipv4Addr.length = 4
  ipv6Addr : addr.ipv6Addr.length = 16
  cid : addr.cid.length ≤ 20
  statelessResetToken : addr.statelessResetToken.length = 16

theorem PreferredAddress.Sized.length_bytes (h : addr.Sized) :
    addr.bytes.length = (2 + 4) + (2 + 16) + (1 + addr.cid.length) + statelessResetTokenLen := by
  simp only [PreferredAddress.bytes, List.length_append, length_beBytes, h.ipv4Addr, h.ipv6Addr,
    h.statelessResetToken, List.length_singleton, statelessResetTokenLen]
  omega

namespace TransportParams

/-- The parameters that only servers send. -/
def serverParams (p : TransportParams) : List Param :=
  [(tpOriginalDestinationConnectionId, p.originalDestinationConnectionId)] ++
    (Param.optional p.withStatelessResetToken (tpStatelessResetToken, p.statelessResetToken) ++
      Param.optional p.withPreferredAddress (tpPreferredAddress, p.preferredAddress.bytes))

/-- A number that is sent under a condition. -/
def number (cond : Bool) (type val : ℕ) : List Param := Param.optional cond (type, quicInt val)

/-- The parameters in the order in which they are sent. -/
def params (p : TransportParams) (server : Bool) : List Param :=
  (if server then p.serverParams else []) ++
  ([(tpInitialSourceConnectionId, p.initialSourceConnectionId)] ++
  (number (p.idleTimeout ≠ 0) tpIdleTimeout p.idleTimeout ++
  (number (p.maxPacketSize ≠ dfltMaxPacketSize) tpMaxPacketSize p.maxPacketSize ++
  (number (p.initialMaxData ≠ 0) tpInitialMaxData p.initialMaxData ++
  (number (p.initialMaxStreamDataBidiLocal ≠ 0) tpInitialMaxStreamDataBidiLocal
    p.initialMaxStreamDataBidiLocal ++
  (number (p.initialMaxStreamDataBidiRemote ≠ 0) tpInitialMaxStreamDataBidiRemote
    p.initialMaxStreamDataBidiRemote ++
  (number (p.initialMaxStreamDataUni ≠ 0) tpInitialMaxStreamDataUni p.initialMaxStreamDataUni ++
  (number (p.initialMaxStreamsBidi ≠ 0) tpInitialMaxStreamsBidi p.initialMaxStreamsBidi ++
  (number (p.initialMaxStreamsUni ≠ 0) tpInitialMaxStreamsUni p.initialMaxStreamsUni ++
  (number (p.ackDelayExponent ≠ dfltAckDelayComponent) tpAckDelayExponent p.ackDelayExponent ++
  (number (p.maxAckDelay ≠ dfltMaxAckDelay) tpMaxAckDelay p.maxAckDelay ++
  (Param.optional p.disableActiveMigration (tpDisableActiveMigration, []) ++
  number (p.activeConnectionIdLimit ≠ 0) tpActiveConnectionIdLimit
    p.activeConnectionIdLimit))))))))))))

def bytes (p : TransportParams) (server : Bool) : List UInt8 :=
  (p.params server).flatMap Param.bytes

def numbers (p : TransportParams) : List ℕ :=
  [p.idleTimeout, p.maxPacketSize, p.initialMaxData, p.initialMaxStreamDataBidiLocal,
    p.initialMaxStreamDataBidiRemote, p.initialMaxStreamDataUni, p.initialMaxStreamsBidi,
    p.initialMaxStreamsUni, p.ackDelayExponent, p.maxAckDelay, p.activeConnectionIdLimit]

/-- A set of parameters that can be sent: the numbers are in their range and the arrays have
their sizes, and only servers have parameters of servers. -/
structure Proper (p : TransportParams) (server : Bool) : Prop where
  numbers : ∀ v ∈ p.numbers, v < 2 ^ 62
  ackDelayExponent : p.ackDelayExponent ≤ tpAckDelayExponentLimit
  maxAckDelay : p.maxAckDelay ≤ tpMaxAckDelayLimit
  statelessResetToken : p.statelessResetToken.length = 16
  originalDestinationConnectionId : p.originalDestinationConnectionId.length ≤ 20
  initialSourceConnectionId : p.initialSourceConnectionId.length ≤ 20
  preferredAddress : p.preferredAddress.Sized
  client : server = false → p.originalDestinationConnectionId = [] ∧
    p.withStatelessResetToken = false ∧ p.withPreferredAddress = false

end TransportParams

/-! ### Encoding -/

theorem builds_tpEncodeTypeLen {len : ℕ} (ht : type < 2 ^ 62) (hl : len < 2 ^ 62) :
    Builds (tpEncodeTypeLen type len) (quicInt type ++ quicInt len) :=
  (builds_quicEncInt ht).bind (builds_quicEncInt hl)

theorem builds_tpEncMem {param : List UInt8} (ht : type < 2 ^ 62) (hl : param.length < 2 ^ 62) :
    Builds (tpEncMem type param) (Param.bytes (type, param)) := by
  have hbuilds := (builds_tpEncodeTypeLen ht hl).bind (builds_put param)
  rw [List.append_assoc] at hbuilds
  exact hbuilds

theorem builds_tpEncInt (ht : type < 2 ^ 62) (hv : val < 2 ^ 62) :
    Builds (tpEncInt type val) (Param.bytes (type, quicInt val)) := by
  have hsize := quicIntGetsize_le val
  have hbuilds := (builds_tpEncodeTypeLen ht (by omega : quicIntGetsize val < 2 ^ 62)).bind
    (builds_quicEncInt hv)
  rw [List.append_assoc] at hbuilds
  have hne : quicIntGetsize val ≠ 0 := Nat.pos_iff_ne_zero.mp (quicIntGetsize_pos hv)
  rw [← length_quicInt val] at hbuilds
  intro l size hl
  rw [tpEncInt, if_neg hne, ← length_quicInt val]
  exact hbuilds l size hl

theorem put_prefAddr (addr : PreferredAddress) (l : List UInt8) (size : ℕ) :
    tpEncPrefAddrVal addr (.of l size) = .of (l ++ addr.bytes) size := by
  simp only [tpEncPrefAddrVal, OutBuf.put_of, PreferredAddress.bytes, List.append_assoc]

theorem builds_tpEncPrefAddr (h : addr.Sized) :
    Builds (tpEncPrefAddr addr) (Param.bytes (tpPreferredAddress, addr.bytes)) := by
  have hlen := h.length_bytes
  have hcid := h.cid
  have hval : Builds (fun buf => if buf.room < addr.bytes.length then none
      else some (tpEncPrefAddrVal addr buf)) addr.bytes := by
    intro l size hl
    show (if (OutBuf.of l size).room < _ then none else _) = _
    rw [OutBuf.room_of, put_prefAddr]
    by_cases hfit : l.length + addr.bytes.length ≤ size
    · rw [if_neg (by omega), if_pos hfit]
    · rw [if_pos (by omega), if_neg hfit]
  have hsmall : addr.bytes.length < 2 ^ 62 := by
    rw [hlen, statelessResetTokenLen]
    omega
  have hbuilds := (builds_tpEncodeTypeLen (by decide : tpPreferredAddress < 2 ^ 62) hsmall).bind
    hval
  rw [List.append_assoc] at hbuilds
  intro l size hl
  rw [tpEncPrefAddr, ← hlen]
  exact hbuilds l size hl

theorem builds_tpEncIf {enc : OutBuf → Option OutBuf} (h : Builds enc x.bytes) :
    Builds (tpEncIf cond enc) ((Param.optional cond x).flatMap Param.bytes) := by
  rcases cond with - | -
  · exact builds_nil
  · rw [Param.optional, if_pos rfl, List.flatMap_singleton]
    exact h

variable {p q : TransportParams} {server : Bool}

/-- **The encoder** writes the list of parameters. -/
theorem builds_transportParamsEncode (h : p.Proper server) :
    Builds (transportParamsEncode p server) (p.bytes server) := by
  have hmem : ∀ {type : ℕ} {param : List UInt8}, type < 2 ^ 62 → param.length ≤ 20 →
      Builds (tpEncMem type param) (Param.bytes (type, param)) :=
    fun ht hl => builds_tpEncMem ht (by omega)
  have hnum : ∀ {cond : Bool} {type val : ℕ}, type < 2 ^ 62 → val ∈ p.numbers →
      Builds (tpEncIf cond (tpEncInt type val))
        ((TransportParams.number cond type val).flatMap Param.bytes) :=
    fun ht hv => builds_tpEncIf (builds_tpEncInt ht (h.numbers _ hv))
  have hserver : Builds (tpEncIf server (transportParamsEncodeServer p))
      ((if server then p.serverParams else []).flatMap Param.bytes) := by
    rcases server with - | -
    · exact builds_nil
    · have htoken : Builds (tpEncMem tpStatelessResetToken p.statelessResetToken)
          (Param.bytes (tpStatelessResetToken, p.statelessResetToken)) :=
        hmem (by decide) (by rw [h.statelessResetToken]; decide)
      have hcid : Builds (tpEncMem tpOriginalDestinationConnectionId
          p.originalDestinationConnectionId) ([(tpOriginalDestinationConnectionId,
            p.originalDestinationConnectionId)].flatMap Param.bytes) := by
        rw [List.flatMap_singleton]
        exact hmem (by decide) h.originalDestinationConnectionId
      rw [if_pos rfl, TransportParams.serverParams, List.flatMap_append, List.flatMap_append]
      exact hcid.bind ((builds_tpEncIf htoken).bind
        (builds_tpEncIf (builds_tpEncPrefAddr h.preferredAddress)))
  have hmig : Builds (tpEncodeTypeLen tpDisableActiveMigration 0)
      (Param.bytes (tpDisableActiveMigration, [])) := by
    have hbuilds := builds_tpEncodeTypeLen (by decide : tpDisableActiveMigration < 2 ^ 62)
      (by decide : 0 < 2 ^ 62)
    rw [Param.bytes, List.append_nil]
    exact hbuilds
  rw [TransportParams.bytes, TransportParams.params]
  simp only [List.flatMap_append, List.flatMap_singleton]
  exact hserver.bind <| (hmem (by decide) h.initialSourceConnectionId).bind <|
    (hnum (by decide) (by simp [TransportParams.numbers])).bind <|
    (hnum (by decide) (by simp [TransportParams.numbers])).bind <|
    (hnum (by decide) (by simp [TransportParams.numbers])).bind <|
    (hnum (by decide) (by simp [TransportParams.numbers])).bind <|
    (hnum (by decide) (by simp [TransportParams.numbers])).bind <|
    (hnum (by decide) (by simp [TransportParams.numbers])).bind <|
    (hnum (by decide) (by simp [TransportParams.numbers])).bind <|
    (hnum (by decide) (by simp [TransportParams.numbers])).bind <|
    (hnum (by decide) (by simp [TransportParams.numbers])).bind <|
    (hnum (by decide) (by simp [TransportParams.numbers])).bind <|
    (builds_tpEncIf hmig).bind <|
    hnum (by decide) (by simp [TransportParams.numbers])

/-! ### Decoding -/

theorem quicDecInt_self (h : val < 2 ^ 62) : quicDecInt (quicInt val) = some (val, []) := by
  have hdec := quicDecInt_append h []
  rwa [List.append_nil] at hdec

theorem tpDecInt_self (h : val < 2 ^ 62) (set : ℕ → Option TransportParams) :
    tpDecInt (quicInt val) set = set val := by
  rw [tpDecInt, quicDecInt_self h]

def decodeParam (server : Bool) (q : TransportParams) (x : Param) : Option TransportParams :=
  transportParamDecode q server x.1 x.2

/-- **The decoder** takes the parameters one by one. -/
theorem transportParamsLoop_eq (hL : ∀ x ∈ L, x.Small) {fuel : ℕ}
    (hfuel : (L.flatMap Param.bytes).length ≤ fuel) (q : TransportParams) :
    transportParamsLoop server fuel q (L.flatMap Param.bytes) =
      L.foldlM (decodeParam server) q := by
  induction L generalizing fuel q with
  | nil => cases fuel <;> rfl
  | cons x L ih =>
    obtain ⟨htype, hlen⟩ := hL x List.mem_cons_self
    have hpos : 0 < (quicInt x.1).length := by
      rw [length_quicInt]
      exact quicIntGetsize_pos htype
    rw [List.flatMap_cons, Param.bytes, List.append_assoc, List.append_assoc] at hfuel ⊢
    rcases fuel with - | fuel
    · rw [List.length_append] at hfuel
      omega
    · obtain ⟨b, bs, hcons⟩ : ∃ b bs, quicInt x.1 ++ (quicInt x.2.length ++
          (x.2 ++ L.flatMap Param.bytes)) = b :: bs := by
        apply List.exists_cons_of_ne_nil
        intro hnil
        have := congrArg List.length hnil
        rw [List.length_append, List.length_nil] at this
        omega
      have hrest : (L.flatMap Param.bytes).length ≤ fuel := by
        simp only [List.length_append] at hfuel
        omega
      rw [hcons, transportParamsLoop, ← hcons, quicDecInt_append htype]
      · dsimp only
        rw [quicDecInt_append hlen]
        dsimp only
        rw [if_neg (by rw [List.length_append]; omega), List.take_left, List.drop_left,
          List.foldlM_cons, decodeParam]
        rcases transportParamDecode q server x.1 x.2 with - | q'
        · rfl
        · exact ih (fun y hy => hL y (List.mem_cons_of_mem _ hy)) hrest q'
      · exact List.cons_ne_nil b bs

theorem foldlM_optional {q' : TransportParams} (h : decodeParam server q x = some q') :
    (Param.optional cond x ++ L).foldlM (decodeParam server) q =
      L.foldlM (decodeParam server) (if cond then q' else q) := by
  rcases cond with - | -
  · rfl
  · rw [Param.optional, if_pos rfl, if_pos rfl, List.singleton_append, List.foldlM_cons, h]
    rfl

/-- A number that is sent under a condition, or else the one of the decoder. -/
def sentOr (cond : Bool) (val init : ℕ) : ℕ := if cond then val else init

/-- The parameter `type` is the number `get`. -/
structure NumberParam (type : ℕ) (get : TransportParams → ℕ)
    (set : TransportParams → ℕ → TransportParams) (ok : ℕ → Prop) : Prop where
  set_get : ∀ q, set q (get q) = q
  decode : ∀ q server v, v < 2 ^ 62 → ok v →
    transportParamDecode q server type (quicInt v) = some (set q v)

theorem NumberParam.foldlM {get : TransportParams → ℕ} {set : TransportParams → ℕ → TransportParams}
    {ok : ℕ → Prop} (h : NumberParam type get set ok) (hv : val < 2 ^ 62) (hok : ok val) :
    (TransportParams.number cond type val ++ L).foldlM (decodeParam server) q =
      L.foldlM (decodeParam server) (set q (sentOr cond val (get q))) := by
  have hstep : decodeParam server q (type, quicInt val) = some (set q val) :=
    h.decode q server val hv hok
  rw [TransportParams.number, foldlM_optional hstep]
  rcases cond with - | -
  · rw [sentOr, if_neg Bool.false_ne_true, if_neg Bool.false_ne_true, h.set_get]
  · rw [sentOr, if_pos rfl, if_pos rfl]

theorem numberParam_idleTimeout : NumberParam tpIdleTimeout TransportParams.idleTimeout
    (fun q v => { q with idleTimeout := v }) fun _ => True :=
  ⟨fun _ => rfl, fun _ _ _ hv _ => tpDecInt_self hv _⟩

theorem numberParam_maxPacketSize : NumberParam tpMaxPacketSize TransportParams.maxPacketSize
    (fun q v => { q with maxPacketSize := v }) fun _ => True :=
  ⟨fun _ => rfl, fun _ _ _ hv _ => tpDecInt_self hv _⟩

theorem numberParam_initialMaxData : NumberParam tpInitialMaxData TransportParams.initialMaxData
    (fun q v => { q with initialMaxData := v }) fun _ => True :=
  ⟨fun _ => rfl, fun _ _ _ hv _ => tpDecInt_self hv _⟩

theorem numberParam_bidiLocal : NumberParam tpInitialMaxStreamDataBidiLocal
    TransportParams.initialMaxStreamDataBidiLocal
    (fun q v => { q with initialMaxStreamDataBidiLocal := v }) fun _ => True :=
  ⟨fun _ => rfl, fun _ _ _ hv _ => tpDecInt_self hv _⟩

theorem numberParam_bidiRemote : NumberParam tpInitialMaxStreamDataBidiRemote
    TransportParams.initialMaxStreamDataBidiRemote
    (fun q v => { q with initialMaxStreamDataBidiRemote := v }) fun _ => True :=
  ⟨fun _ => rfl, fun _ _ _ hv _ => tpDecInt_self hv _⟩

theorem numberParam_uni : NumberParam tpInitialMaxStreamDataUni
    TransportParams.initialMaxStreamDataUni
    (fun q v => { q with initialMaxStreamDataUni := v }) fun _ => True :=
  ⟨fun _ => rfl, fun _ _ _ hv _ => tpDecInt_self hv _⟩

theorem numberParam_streamsBidi : NumberParam tpInitialMaxStreamsBidi
    TransportParams.initialMaxStreamsBidi
    (fun q v => { q with initialMaxStreamsBidi := v }) fun _ => True :=
  ⟨fun _ => rfl, fun _ _ _ hv _ => tpDecInt_self hv _⟩

theorem numberParam_streamsUni : NumberParam tpInitialMaxStreamsUni
    TransportParams.initialMaxStreamsUni
    (fun q v => { q with initialMaxStreamsUni := v }) fun _ => True :=
  ⟨fun _ => rfl, fun _ _ _ hv _ => tpDecInt_self hv _⟩

theorem numberParam_ackDelayExponent : NumberParam tpAckDelayExponent
    TransportParams.ackDelayExponent (fun q v => { q with ackDelayExponent := v })
    fun v => v ≤ tpAckDelayExponentLimit :=
  ⟨fun _ => rfl, fun _ _ _ hv hle => (tpDecInt_self hv _).trans (if_neg (Nat.not_lt.mpr hle))⟩

theorem numberParam_maxAckDelay : NumberParam tpMaxAckDelay TransportParams.maxAckDelay
    (fun q v => { q with maxAckDelay := v }) fun v => v ≤ tpMaxAckDelayLimit :=
  ⟨fun _ => rfl, fun _ _ _ hv hle => (tpDecInt_self hv _).trans (if_neg (Nat.not_lt.mpr hle))⟩

theorem numberParam_cidLimit : NumberParam tpActiveConnectionIdLimit
    TransportParams.activeConnectionIdLimit
    (fun q v => { q with activeConnectionIdLimit := v }) fun _ => True :=
  ⟨fun _ => rfl, fun _ _ _ hv _ => tpDecInt_self hv _⟩

/-! ### Preferred addresses -/

/-- A preferred address without a connection identifier is decoded, any other one is
refused. -/
theorem tpDecPrefAddr_bytes (h : addr.Sized) :
    tpDecPrefAddr addr.bytes = if addr.cid = [] then some addr else none := by
  have hport : ∀ port : UInt16, UInt16.ofNat (beFold 0 (beBytes 2 port.toNat)) = port := by
    intro port
    have hlt := port.toNat_lt
    rw [beFold_beBytes]
    apply UInt16.toNat_inj.mp
    rw [UInt16.toNat_ofNat']
    omega
  have htwo : ∀ (v : ℕ) (bs : List UInt8), (beBytes 2 v ++ bs).take 2 = beBytes 2 v ∧
      (beBytes 2 v ++ bs).drop 2 = bs :=
    fun v bs => ⟨List.take_left' (length_beBytes 2 v), List.drop_left' (length_beBytes 2 v)⟩
  have hcid := h.cid
  have hbyte : (UInt8.ofNat addr.cid.length).toNat = addr.cid.length := by
    rw [UInt8.toNat_ofNat']
    exact Nat.mod_eq_of_lt (by omega)
  have hlen : beFold 0 [UInt8.ofNat addr.cid.length] = addr.cid.length := by
    show (0 <<< 8) ||| (UInt8.ofNat addr.cid.length).toNat = _
    rw [shiftLeft_or_byte, hbyte]
    omega
  have hlong := h.length_bytes
  have htoken := h.statelessResetToken
  rw [statelessResetTokenLen] at hlong
  rw [tpDecPrefAddr, if_neg (by omega), PreferredAddress.bytes]
  simp only [htwo, hport, List.take_left' h.ipv4Addr, List.drop_left' h.ipv4Addr,
    List.take_left' h.ipv6Addr, List.drop_left' h.ipv6Addr]
  have hone : ∀ bs : List UInt8, ([UInt8.ofNat addr.cid.length] ++ bs).take 1 =
      [UInt8.ofNat addr.cid.length] ∧ ([UInt8.ofNat addr.cid.length] ++ bs).drop 1 = bs :=
    fun _ => ⟨rfl, rfl⟩
  simp only [hone, hlen, List.take_left, List.drop_left, statelessResetTokenLen]
  by_cases hnil : addr.cid = []
  · have hzero : addr.cid.length = 0 := by rw [hnil, List.length_nil]
    rw [if_pos hnil, if_neg (by omega), if_neg (by omega)]
  · have hpos : 0 < addr.cid.length := List.length_pos_iff.mpr hnil
    rw [if_neg hnil, if_pos]
    refine ⟨by omega, .inl ?_⟩
    rw [List.length_append]
    omega

/-! ### What is decoded -/

namespace TransportParams

/-- **What the decoder makes of the encoded parameters.** -/
def decoded (p : TransportParams) (server : Bool) : TransportParams where
  idleTimeout := sentOr (p.idleTimeout ≠ 0) p.idleTimeout 30000
  maxPacketSize := p.maxPacketSize
  initialMaxData := sentOr (p.initialMaxData ≠ 0) p.initialMaxData (1 * 1024 * 1024)
  initialMaxStreamDataBidiLocal :=
    sentOr (p.initialMaxStreamDataBidiLocal ≠ 0) p.initialMaxStreamDataBidiLocal
      (256 * 1024)
  initialMaxStreamDataBidiRemote :=
    sentOr (p.initialMaxStreamDataBidiRemote ≠ 0) p.initialMaxStreamDataBidiRemote
      (256 * 1024)
  initialMaxStreamDataUni :=
    sentOr (p.initialMaxStreamDataUni ≠ 0) p.initialMaxStreamDataUni
      (256 * 1024)
  initialMaxStreamsBidi := sentOr (p.initialMaxStreamsBidi ≠ 0) p.initialMaxStreamsBidi 100
  initialMaxStreamsUni := sentOr (p.initialMaxStreamsUni ≠ 0) p.initialMaxStreamsUni 3
  ackDelayExponent := p.ackDelayExponent
  maxAckDelay := p.maxAckDelay
  activeConnectionIdLimit := sentOr (p.activeConnectionIdLimit ≠ 0) p.activeConnectionIdLimit 8
  disableActiveMigration := p.disableActiveMigration
  withStatelessResetToken := server
  withPreferredAddress := p.withPreferredAddress
  originalDestinationConnectionIdPresent := server
  initialSourceConnectionIdPresent := true
  statelessResetToken :=
    if p.withStatelessResetToken then p.statelessResetToken else List.replicate 16 0
  originalDestinationConnectionId := p.originalDestinationConnectionId
  initialSourceConnectionId := p.initialSourceConnectionId
  preferredAddress :=
    if p.withPreferredAddress then p.preferredAddress else zeroed.preferredAddress

end TransportParams

theorem sentOr_self (v d : ℕ) : sentOr (v ≠ d) v d = v := by
  rw [sentOr]
  by_cases h : v = d
  · rw [if_neg (by simp [h]), h]
  · rw [if_pos (decide_eq_true h)]

/-- The parameters of servers. -/
theorem decode_serverParams (h : p.Proper true) (L : List Param) :
    (p.serverParams ++ L).foldlM (decodeParam true) q =
      if p.withPreferredAddress = true ∧ p.preferredAddress.cid ≠ [] then none
      else L.foldlM (decodeParam true)
        { q with
          originalDestinationConnectionId := p.originalDestinationConnectionId
          originalDestinationConnectionIdPresent := true
          statelessResetToken :=
            if p.withStatelessResetToken then p.statelessResetToken else q.statelessResetToken
          withStatelessResetToken := p.withStatelessResetToken || q.withStatelessResetToken
          preferredAddress :=
            if p.withPreferredAddress then p.preferredAddress else q.preferredAddress
          withPreferredAddress := p.withPreferredAddress || q.withPreferredAddress } := by
  have hcid : decodeParam true q (tpOriginalDestinationConnectionId,
      p.originalDestinationConnectionId) =
        some { q with originalDestinationConnectionId := p.originalDestinationConnectionId
                      originalDestinationConnectionIdPresent := true } := by
    have hle := h.originalDestinationConnectionId
    have hnot : ¬ (true = false ∨ cidDataSize ≤ p.originalDestinationConnectionId.length) := by
      rintro (hf | hge)
      · cases hf
      · rw [cidDataSize] at hge
        omega
    exact if_neg hnot
  have htoken : ∀ q : TransportParams, decodeParam true q
      (tpStatelessResetToken, p.statelessResetToken) =
        some { q with statelessResetToken := p.statelessResetToken
                      withStatelessResetToken := true } := by
    intro q
    have hnot : ¬ (true = false ∨ p.statelessResetToken.length ≠ statelessResetTokenLen) := by
      rintro (hf | hne)
      · cases hf
      · exact hne h.statelessResetToken
    exact if_neg hnot
  -- an address with a connection ID is refused by its own decoder
  have haddr : ∀ q : TransportParams, decodeParam true q
      (tpPreferredAddress, p.preferredAddress.bytes) =
        if p.preferredAddress.cid = [] then
          some { q with preferredAddress := p.preferredAddress
                        withPreferredAddress := true }
        else none := by
    intro q
    have hrun : decodeParam true q (tpPreferredAddress, p.preferredAddress.bytes) =
        (tpDecPrefAddr p.preferredAddress.bytes).map fun addr =>
          { q with preferredAddress := addr, withPreferredAddress := true } := rfl
    rw [hrun, tpDecPrefAddr_bytes h.preferredAddress]
    by_cases hnil : p.preferredAddress.cid = []
    · rw [if_pos hnil, if_pos hnil]
      rfl
    · rw [if_neg hnil, if_neg hnil]
      rfl
  have hlast : ∀ q : TransportParams, (Param.optional p.withPreferredAddress
      (tpPreferredAddress, p.preferredAddress.bytes) ++ L).foldlM (decodeParam true) q =
        if p.withPreferredAddress = true ∧ p.preferredAddress.cid ≠ [] then none
        else L.foldlM (decodeParam true)
          { q with
            preferredAddress :=
              if p.withPreferredAddress then p.preferredAddress else q.preferredAddress
            withPreferredAddress := p.withPreferredAddress || q.withPreferredAddress } := by
    intro q
    rcases p.withPreferredAddress with - | -
    · rfl
    · rw [Param.optional, if_pos rfl, List.singleton_append, List.foldlM_cons, haddr]
      by_cases hnil : p.preferredAddress.cid = []
      · rw [if_pos hnil, if_neg fun hne => hne.2 hnil]
        rfl
      · rw [if_neg hnil, if_pos ⟨rfl, hnil⟩]
        rfl
  rw [TransportParams.serverParams, List.append_assoc, List.append_assoc, List.singleton_append,
    List.foldlM_cons, hcid, Option.bind_eq_bind, Option.bind_some, foldlM_optional (htoken _),
    hlast]
  rcases p.withStatelessResetToken with - | - <;> rfl

/-- What follows them, decoded into `q`. -/
def TransportParams.decodedInto (p q : TransportParams) : TransportParams :=
  { q with
    initialSourceConnectionId := p.initialSourceConnectionId
    initialSourceConnectionIdPresent := true
    disableActiveMigration := p.disableActiveMigration || q.disableActiveMigration
    idleTimeout := sentOr (p.idleTimeout ≠ 0) p.idleTimeout q.idleTimeout
    maxPacketSize := sentOr (p.maxPacketSize ≠ dfltMaxPacketSize) p.maxPacketSize q.maxPacketSize
    initialMaxData := sentOr (p.initialMaxData ≠ 0) p.initialMaxData q.initialMaxData
    initialMaxStreamDataBidiLocal :=
      sentOr (p.initialMaxStreamDataBidiLocal ≠ 0) p.initialMaxStreamDataBidiLocal
        q.initialMaxStreamDataBidiLocal
    initialMaxStreamDataBidiRemote :=
      sentOr (p.initialMaxStreamDataBidiRemote ≠ 0) p.initialMaxStreamDataBidiRemote
        q.initialMaxStreamDataBidiRemote
    initialMaxStreamDataUni :=
      sentOr (p.initialMaxStreamDataUni ≠ 0) p.initialMaxStreamDataUni
        q.initialMaxStreamDataUni
    initialMaxStreamsBidi :=
      sentOr (p.initialMaxStreamsBidi ≠ 0) p.initialMaxStreamsBidi
        q.initialMaxStreamsBidi
    initialMaxStreamsUni :=
      sentOr (p.initialMaxStreamsUni ≠ 0) p.initialMaxStreamsUni
        q.initialMaxStreamsUni
    ackDelayExponent :=
      sentOr (p.ackDelayExponent ≠ dfltAckDelayComponent) p.ackDelayExponent
        q.ackDelayExponent
    maxAckDelay := sentOr (p.maxAckDelay ≠ dfltMaxAckDelay) p.maxAckDelay q.maxAckDelay
    activeConnectionIdLimit :=
      sentOr (p.activeConnectionIdLimit ≠ 0) p.activeConnectionIdLimit
        q.activeConnectionIdLimit }

theorem decode_params (h : p.Proper server) :
    (p.params false).foldlM (decodeParam server) q = some (p.decodedInto q) := by
  have hnum : ∀ {v : ℕ}, v ∈ p.numbers → v < 2 ^ 62 := fun hv => h.numbers _ hv
  have hcid : decodeParam server q (tpInitialSourceConnectionId, p.initialSourceConnectionId) =
      some { q with initialSourceConnectionId := p.initialSourceConnectionId
                    initialSourceConnectionIdPresent := true } := by
    have hle := h.initialSourceConnectionId
    have hnot : ¬ cidDataSize ≤ p.initialSourceConnectionId.length := by
      rw [cidDataSize]
      omega
    exact if_neg hnot
  have hmig : ∀ (q : TransportParams) (L : List Param),
      (Param.optional p.disableActiveMigration (tpDisableActiveMigration, []) ++ L).foldlM
          (decodeParam server) q =
        L.foldlM (decodeParam server)
          { q with
            disableActiveMigration := p.disableActiveMigration || q.disableActiveMigration } := by
    intro q L
    rcases p.disableActiveMigration with - | - <;> rfl
  have hlast : ∀ q : TransportParams,
      (TransportParams.number (p.activeConnectionIdLimit ≠ 0) tpActiveConnectionIdLimit
        p.activeConnectionIdLimit).foldlM (decodeParam server) q =
      some { q with
        activeConnectionIdLimit :=
          sentOr (p.activeConnectionIdLimit ≠ 0) p.activeConnectionIdLimit
            q.activeConnectionIdLimit } := by
    intro q
    rw [← List.append_nil (TransportParams.number _ _ _),
      numberParam_cidLimit.foldlM (hnum (by simp [TransportParams.numbers])) trivial]
    rfl
  rw [TransportParams.params, if_neg Bool.false_ne_true, List.nil_append, List.singleton_append,
    List.foldlM_cons, hcid, Option.bind_eq_bind, Option.bind_some,
    numberParam_idleTimeout.foldlM (hnum (by simp [TransportParams.numbers])) trivial,
    numberParam_maxPacketSize.foldlM (hnum (by simp [TransportParams.numbers])) trivial,
    numberParam_initialMaxData.foldlM (hnum (by simp [TransportParams.numbers])) trivial,
    numberParam_bidiLocal.foldlM (hnum (by simp [TransportParams.numbers])) trivial,
    numberParam_bidiRemote.foldlM (hnum (by simp [TransportParams.numbers])) trivial,
    numberParam_uni.foldlM (hnum (by simp [TransportParams.numbers])) trivial,
    numberParam_streamsBidi.foldlM (hnum (by simp [TransportParams.numbers])) trivial,
    numberParam_streamsUni.foldlM (hnum (by simp [TransportParams.numbers])) trivial,
    numberParam_ackDelayExponent.foldlM (hnum (by simp [TransportParams.numbers]))
      h.ackDelayExponent,
    numberParam_maxAckDelay.foldlM (hnum (by simp [TransportParams.numbers])) h.maxAckDelay,
    hmig, hlast]
  rfl

theorem small_number (ht : type < 2 ^ 62) :
    ∀ x ∈ TransportParams.number cond type val, x.Small := by
  intro x hx
  rw [TransportParams.number, Param.optional] at hx
  have hsize := quicIntGetsize_le val
  rcases cond with - | -
  · cases hx
  · obtain rfl := List.mem_singleton.mp hx
    refine ⟨ht, ?_⟩
    show (quicInt val).length < 2 ^ 62
    rw [length_quicInt]
    omega

theorem small_optional (hx : x.Small) : ∀ y ∈ Param.optional cond x, y.Small := by
  intro y hy
  rcases cond with - | -
  · cases hy
  · obtain rfl := List.mem_singleton.mp hy
    exact hx

theorem TransportParams.Proper.small (h : p.Proper server) : ∀ x ∈ p.params server, x.Small := by
  have hparam : ∀ {type : ℕ} {param : List UInt8}, type < 2 ^ 62 → param.length ≤ 20 →
      Param.Small (type, param) := by
    intro type param ht hl
    exact ⟨ht, Nat.lt_of_le_of_lt hl (by decide)⟩
  have hserver : ∀ x ∈ (if server then p.serverParams else []), x.Small := by
    rcases server with - | -
    · intro x hx
      cases hx
    · rw [if_pos rfl, TransportParams.serverParams]
      have haddr : Param.Small (tpPreferredAddress, p.preferredAddress.bytes) := by
        have hlen := h.preferredAddress.length_bytes
        have hcid := h.preferredAddress.cid
        rw [statelessResetTokenLen] at hlen
        refine ⟨(by decide : tpPreferredAddress < 2 ^ 62), ?_⟩
        show p.preferredAddress.bytes.length < 2 ^ 62
        omega
      intro x hx
      rcases List.mem_append.mp hx with hx | hx
      · obtain rfl := List.mem_singleton.mp hx
        exact hparam (by decide) h.originalDestinationConnectionId
      · rcases List.mem_append.mp hx with hx | hx
        · apply small_optional _ x hx
          exact hparam (by decide) (by rw [h.statelessResetToken]; decide)
        · exact small_optional haddr x hx
  have hmig : Param.Small (tpDisableActiveMigration, []) := hparam (by decide) (Nat.zero_le _)
  intro x hx
  rw [TransportParams.params] at hx
  simp only [List.mem_append, List.mem_singleton] at hx
  rcases hx with hx | rfl | hx | hx | hx | hx | hx | hx | hx | hx | hx | hx | hx | hx
  · exact hserver x hx
  · exact hparam (by decide) h.initialSourceConnectionId
  all_goals first
    | exact small_number (by decide) x hx
    | exact small_optional hmig x hx

theorem decodedInto_client (h : p.Proper false) :
    p.decodedInto (transportParamsInit .zeroed false) = p.decoded false := by
  obtain ⟨hcid, htoken, haddr⟩ := h.client rfl
  have htoken' : List.replicate 16 0 =
      if p.withStatelessResetToken then p.statelessResetToken else List.replicate 16 0 := by
    rw [htoken, if_neg Bool.false_ne_true]
  have haddr' : TransportParams.zeroed.preferredAddress =
      if p.withPreferredAddress then p.preferredAddress
      else TransportParams.zeroed.preferredAddress := by
    rw [haddr, if_neg Bool.false_ne_true]
  exact TransportParams.ext rfl (sentOr_self _ _) rfl rfl rfl rfl rfl rfl (sentOr_self _ _)
    (sentOr_self _ _) rfl (Bool.or_false _) rfl haddr.symm rfl rfl htoken' hcid.symm rfl haddr'

theorem decodedInto_server (p : TransportParams) :
    p.decodedInto
      { transportParamsInit .zeroed true with
        originalDestinationConnectionId := p.originalDestinationConnectionId
        originalDestinationConnectionIdPresent := true
        statelessResetToken :=
          if p.withStatelessResetToken then p.statelessResetToken
          else (transportParamsInit .zeroed true).statelessResetToken
        withStatelessResetToken :=
          p.withStatelessResetToken || (transportParamsInit .zeroed true).withStatelessResetToken
        preferredAddress :=
          if p.withPreferredAddress then p.preferredAddress
          else (transportParamsInit .zeroed true).preferredAddress
        withPreferredAddress :=
          p.withPreferredAddress || (transportParamsInit .zeroed true).withPreferredAddress } =
      p.decoded true :=
  TransportParams.ext rfl (sentOr_self _ _) rfl rfl rfl rfl rfl rfl (sentOr_self _ _)
    (sentOr_self _ _) rfl (Bool.or_false _) (Bool.or_true _) (Bool.or_false _) rfl rfl rfl rfl rfl
    rfl

/-- **What is decoded.** -/
theorem transportParamsDecode_bytes (h : p.Proper server) :
    transportParamsDecode .zeroed server (p.bytes server) =
      if p.withPreferredAddress = true ∧ p.preferredAddress.cid ≠ [] then none
      else some (p.decoded server) := by
  have hsplit : p.params server = (if server then p.serverParams else []) ++ p.params false := by
    rw [TransportParams.params, TransportParams.params, if_neg Bool.false_ne_true, List.nil_append]
  rw [transportParamsDecode, TransportParams.bytes, transportParamsLoop_eq h.small (Nat.le_refl _),
    hsplit]
  rcases server with - | -
  · have haddr := (h.client rfl).2.2
    rw [if_neg Bool.false_ne_true, List.nil_append, decode_params h, decodedInto_client h, haddr,
      if_neg fun hp => Bool.false_ne_true hp.1]
    rfl
  · rw [if_pos rfl, decode_serverParams h]
    by_cases hbad : p.withPreferredAddress = true ∧ p.preferredAddress.cid ≠ []
    · rw [if_pos hbad, if_pos hbad]
    · rw [if_neg hbad, if_neg hbad, decode_params h, decodedInto_server]
      rfl

/-! ### Round trips -/

namespace TransportParams

/-- `q` has the values of `p`.  A token and a preferred address are values of the sets that say
that they have one. -/
structure Agrees (p q : TransportParams) : Prop where
  numbers : q.numbers = p.numbers
  disableActiveMigration : q.disableActiveMigration = p.disableActiveMigration
  withStatelessResetToken : q.withStatelessResetToken = p.withStatelessResetToken
  withPreferredAddress : q.withPreferredAddress = p.withPreferredAddress
  originalDestinationConnectionId :
    q.originalDestinationConnectionId = p.originalDestinationConnectionId
  initialSourceConnectionId : q.initialSourceConnectionId = p.initialSourceConnectionId
  statelessResetToken :
    p.withStatelessResetToken = true → q.statelessResetToken = p.statelessResetToken
  preferredAddress : p.withPreferredAddress = true → q.preferredAddress = p.preferredAddress

/-- The numbers that are left out when they are 0, although this is not their initial value. -/
def omitted (p : TransportParams) : List ℕ :=
  [p.idleTimeout, p.initialMaxData, p.initialMaxStreamDataBidiLocal,
    p.initialMaxStreamDataBidiRemote, p.initialMaxStreamDataUni, p.initialMaxStreamsBidi,
    p.initialMaxStreamsUni, p.activeConnectionIdLimit]

/-- The sets that survive: none of these numbers is 0, a server has a token, and a preferred
address comes without a connection identifier. -/
structure Kept (p : TransportParams) (server : Bool) : Prop where
  omitted : 0 ∉ p.omitted
  statelessResetToken : server = true → p.withStatelessResetToken = true
  preferredAddress : p.withPreferredAddress = true → p.preferredAddress.cid = []

end TransportParams

theorem sentOr_eq_iff {v init : ℕ} (hinit : init ≠ 0) : sentOr (v ≠ 0) v init = v ↔ v ≠ 0 := by
  rw [sentOr]
  by_cases h : v = 0
  · rw [if_neg (by simp [h]), h]
    exact ⟨fun heq => absurd heq hinit, fun hne => absurd rfl hne⟩
  · rw [if_pos (decide_eq_true h)]
    exact ⟨fun _ => h, fun _ => rfl⟩

theorem numbers_decoded_iff : (p.decoded server).numbers = p.numbers ↔ 0 ∉ p.omitted := by
  simp only [TransportParams.numbers, TransportParams.decoded, TransportParams.omitted,
    List.cons.injEq, List.mem_cons, List.not_mem_nil, not_or, or_false, and_true, true_and,
    sentOr_eq_iff (by decide : (30000 : ℕ) ≠ 0),
    sentOr_eq_iff (by decide : (1 * 1024 * 1024 : ℕ) ≠ 0),
    sentOr_eq_iff (by decide : (256 * 1024 : ℕ) ≠ 0), sentOr_eq_iff (by decide : (100 : ℕ) ≠ 0),
    sentOr_eq_iff (by decide : (3 : ℕ) ≠ 0), sentOr_eq_iff (by decide : (8 : ℕ) ≠ 0), ne_comm]

theorem agrees_decoded_iff (h : p.Proper server) :
    p.Agrees (p.decoded server) ↔
      0 ∉ p.omitted ∧ (server = true → p.withStatelessResetToken = true) := by
  constructor
  · intro ha
    refine ⟨numbers_decoded_iff.mp ha.numbers, ?_⟩
    rintro rfl
    exact ha.withStatelessResetToken.symm
  · rintro ⟨hzero, htoken⟩
    refine ⟨numbers_decoded_iff.mpr hzero, rfl, ?_, rfl, rfl, rfl, fun hp => if_pos hp,
      fun hp => if_pos hp⟩
    rcases server with - | -
    · exact (h.client rfl).2.1.symm
    · exact (htoken rfl).symm

/-- **The round trip** keeps the values of a set of parameters if and only if the set is
`Kept`. -/
theorem transportParams_roundTrip_iff (p : TransportParams) (server : Bool)
    (h : p.Proper server) (size : ℕ) (hsize : (p.bytes server).length ≤ size) :
    (∃ buf q, transportParamsEncode p server (.of [] size) = some buf ∧
      transportParamsDecode .zeroed server buf.out = some q ∧ p.Agrees q) ↔ p.Kept server := by
  have henc : transportParamsEncode p server (.of [] size) = some (.of (p.bytes server) size) := by
    rw [builds_transportParamsEncode h [] size (Nat.zero_le _), List.length_nil, Nat.zero_add,
      if_pos hsize, List.nil_append]
  have hdec := transportParamsDecode_bytes h
  constructor
  · rintro ⟨buf, q, hbuf, hq, hagrees⟩
    obtain rfl := Option.some.inj (henc.symm.trans hbuf)
    rw [show (OutBuf.of (p.bytes server) size).out = p.bytes server from rfl, hdec] at hq
    by_cases hbad : p.withPreferredAddress = true ∧ p.preferredAddress.cid ≠ []
    · rw [if_pos hbad] at hq
      cases hq
    · rw [if_neg hbad] at hq
      obtain rfl := Option.some.inj hq
      obtain ⟨hzero, htoken⟩ := (agrees_decoded_iff h).mp hagrees
      exact ⟨hzero, htoken, fun hp => not_not.mp fun hne => hbad ⟨hp, hne⟩⟩
  · intro hk
    refine ⟨_, p.decoded server, henc, ?_, (agrees_decoded_iff h).mpr ⟨hk.1, hk.2⟩⟩
    exact hdec.trans (if_neg fun hbad => hbad.2 (hk.preferredAddress hbad.1))

/-- The parameters of a listener, but with the idle timeout 0, which means none. -/
def noIdleTimeout : TransportParams :=
  { transportParamsInit .zeroed true with idleTimeout := 0 }

theorem proper_noIdleTimeout : noIdleTimeout.Proper true where
  numbers := by decide
  ackDelayExponent := by decide
  maxAckDelay := by decide
  statelessResetToken := rfl
  originalDestinationConnectionId := by decide
  initialSourceConnectionId := by decide
  preferredAddress := ⟨rfl, rfl, by decide, rfl⟩
  client := by intro h; cases h

/-- The parameters of a listener survive. -/
theorem transportParams_roundTrip_iff_listener :
    (∃ buf q,
      transportParamsEncode (transportParamsInit .zeroed true) true (.of [] 128) = some buf ∧
      transportParamsDecode .zeroed true buf.out = some q ∧
      (transportParamsInit .zeroed true).Agrees q) ↔
    (transportParamsInit .zeroed true).Kept true :=
  transportParams_roundTrip_iff (transportParamsInit .zeroed true) true
    ⟨by decide, by decide, by decide, rfl, by decide, by decide, ⟨rfl, rfl, by decide, rfl⟩,
      by intro h; cases h⟩ 128 (by decide)

set_option maxRecDepth 8000 in
/-- The peer takes an idle timeout of 30 seconds from a listener that has none. -/
theorem not_transportParams_roundTrip :
    ¬ ∀ (p : TransportParams) (server : Bool), p.Proper server →
      ∀ size, (p.bytes server).length ≤ size →
        ∃ buf q, transportParamsEncode p server (.of [] size) = some buf ∧
          transportParamsDecode .zeroed server buf.out = some q ∧ p.Agrees q := by
  intro hall
  obtain ⟨buf, q, hbuf, hq, hagrees⟩ := hall noIdleTimeout true proper_noIdleTimeout 128 (by decide)
  have hrun : (transportParamsEncode noIdleTimeout true (.of [] 128)).bind (fun buf =>
      (transportParamsDecode .zeroed true buf.out).map TransportParams.idleTimeout) =
        some 30000 := by decide
  rw [hbuf, Option.bind_some, hq, Option.map_some] at hrun
  have hzero : q.idleTimeout = 0 := (List.cons.inj hagrees.numbers).1
  rw [hzero] at hrun
  cases hrun

end Quic

end SmartHAProxy
