/-
The builders of QUIC frames (quic_frame.c), and round trips of frames.

A type byte selects a builder from the table, like a parser.  The packet then receives the
flags of an entry of this table, but not of the right one: `qc_build_frm` has a pointer to the
entry of the type and takes from there the entry with the number of the type, which is the one
of twice the type.  From `QUIC_FT_MAX_DATA` on this is behind the end of the table.

Two builders do not move the position as they should, or write what does not fit:
`quic_build_new_token_frame` copies the token and leaves the position in front of it, and
`quic_build_stream_frame` does not check the room for data that come without a length.

Main results: `writesFrm` and `readsAll_frm`, the two directions, and
`quicFrm_roundTrips_iff`.
-/
import SmartHAProxy.Quic.Frame

namespace SmartHAProxy

variable {v offset : ℕ} {vals : List ℕ} {frm : QuicFrame} {data : List UInt8}

namespace Quic

/-! ### Frames that are sent -/

/-- `struct quic_frame`, as it is sent.  The data of CRYPTO frames are in the buffers of the
encryption level, of which `bufs` are the used parts; the other frames have the fields that
are received. -/
inductive TxFrame
  | ack (txAck : QuicTxAck)
  | crypto (offset len : ℕ) (bufs : List (List UInt8))
  | frm (frm : QuicFrame)

def quicCryptoBufShift : ℕ := 10

def quicCryptoBufMask : ℕ := 2 ^ quicCryptoBufShift - 1

/-! ### Builders -/

/-- Integers, up to the first one that cannot be encoded. -/
def encInts (vals : List ℕ) (buf : OutBuf) : Option OutBuf := vals.foldlM quicEncInt buf

def encData (data : List UInt8) (buf : OutBuf) : Option OutBuf :=
  if buf.room < data.length then none else some (buf.put data)

def quicBuildPaddingFrame : TxFrame → OutBuf → Option OutBuf
  | .frm (.padding len), buf => encData (List.replicate (len - 1) 0) buf
  | _, _ => none

def quicBuildPingFrame : TxFrame → OutBuf → Option OutBuf
  | _, buf => some buf

/-- `quic_build_ack_frame`, of the ranges. -/
def quicBuildAckFrameOf : TxFrame → OutBuf → Option OutBuf
  | .ack txAck, buf => quicBuildAckFrame txAck buf
  | _, _ => none

def quicBuildAckEcnFrame : TxFrame → OutBuf → Option OutBuf
  | .frm (.ackEcn ack), buf =>
    encInts [ack.largestAck, ack.ackDelay, ack.firstAckRange, ack.ackRangeNum] buf
  | _, _ => none

def quicBuildResetStreamFrame : TxFrame → OutBuf → Option OutBuf
  | .frm (.resetStream id appErrorCode finalSize), buf =>
    encInts [id, appErrorCode, finalSize] buf
  | _, _ => none

def quicBuildStopSendingFrame : TxFrame → OutBuf → Option OutBuf
  | .frm (.stopSending id appErrorCode), buf => encInts [id, appErrorCode] buf
  | _, _ => none

/-- The loop of `quic_build_crypto_frame`, for a number of turns: no result if it is not done by
then, or comes to a buffer that is not there. -/
def cryptoCopyLoop (bufs : List (List UInt8)) : ℕ → ℕ → ℕ → OutBuf → Option OutBuf
  | _, _, 0, buf => some buf
  | 0, _, _, _ => none
  | turns + 1, offset, len + 1, buf =>
    match bufs[offset >>> quicCryptoBufShift]? with
    | none => none
    | some data =>
      let start := offset &&& quicCryptoBufMask
      let toCopy := min (data.length - start) (len + 1)
      cryptoCopyLoop bufs turns (offset + toCopy) (len + 1 - toCopy)
        (buf.put ((data.drop start).take toCopy))

def quicBuildCryptoFrame : TxFrame → OutBuf → Option OutBuf
  | .crypto offset len bufs, buf =>
    (encInts [offset, len] buf).bind fun buf =>
      if buf.room < len then none else cryptoCopyLoop bufs len offset len buf
  | _, _ => none

/-- `quic_build_new_token_frame`: the position stays in front of the token. -/
def quicBuildNewTokenFrame : TxFrame → OutBuf → Option OutBuf
  | .frm (.newToken data), buf =>
    (encInts [data.length] buf).bind fun buf =>
      if buf.room < data.length then none else some (buf.write data)
  | _, _ => none

/-- The offset of a STREAM frame, with `QUIC_STREAM_FRAME_TYPE_OFF_BIT`. -/
def encStreamOffset (type : UInt8) (offset : ℕ) (buf : OutBuf) : Option OutBuf :=
  if type &&& 4 = 0 then some buf else encInts [offset] buf

/-- The data of a STREAM frame, with `QUIC_STREAM_FRAME_TYPE_LEN_BIT`: without a length, there
is no check of the room. -/
def encStreamData (type : UInt8) (data : List UInt8) (buf : OutBuf) : Option OutBuf :=
  if type &&& 2 = 0 then some (buf.put data)
  else (encInts [data.length] buf).bind (encData data)

def quicBuildStreamFrame (type : UInt8) : TxFrame → OutBuf → Option OutBuf
  | .frm (.stream id offset data), buf =>
    (encInts [id] buf).bind fun buf =>
      (encStreamOffset type offset buf).bind fun buf => encStreamData type data buf
  | _, _ => none

def quicBuildMaxDataFrame : TxFrame → OutBuf → Option OutBuf
  | .frm (.maxData maxData), buf => encInts [maxData] buf
  | _, _ => none

def quicBuildMaxStreamDataFrame : TxFrame → OutBuf → Option OutBuf
  | .frm (.maxStreamData id maxStreamData), buf => encInts [id, maxStreamData] buf
  | _, _ => none

def quicBuildMaxStreamsBidiFrame : TxFrame → OutBuf → Option OutBuf
  | .frm (.maxStreamsBidi maxStreams), buf => encInts [maxStreams] buf
  | _, _ => none

def quicBuildMaxStreamsUniFrame : TxFrame → OutBuf → Option OutBuf
  | .frm (.maxStreamsUni maxStreams), buf => encInts [maxStreams] buf
  | _, _ => none

def quicBuildDataBlockedFrame : TxFrame → OutBuf → Option OutBuf
  | .frm (.dataBlocked limit), buf => encInts [limit] buf
  | _, _ => none

def quicBuildStreamDataBlockedFrame : TxFrame → OutBuf → Option OutBuf
  | .frm (.streamDataBlocked id limit), buf => encInts [id, limit] buf
  | _, _ => none

def quicBuildStreamsBlockedBidiFrame : TxFrame → OutBuf → Option OutBuf
  | .frm (.streamsBlockedBidi limit), buf => encInts [limit] buf
  | _, _ => none

def quicBuildStreamsBlockedUniFrame : TxFrame → OutBuf → Option OutBuf
  | .frm (.streamsBlockedUni limit), buf => encInts [limit] buf
  | _, _ => none

def quicBuildNewConnectionIdFrame : TxFrame → OutBuf → Option OutBuf
  | .frm (.newConnectionId seqNum retirePriorTo cid statelessResetToken), buf =>
    (encInts [seqNum, retirePriorTo] buf).bind fun buf =>
      if buf.room < 1 + cid.length + 16 then none
      else some (((buf.put [UInt8.ofNat cid.length]).put cid).put statelessResetToken)
  | _, _ => none

def quicBuildRetireConnectionIdFrame : TxFrame → OutBuf → Option OutBuf
  | .frm (.retireConnectionId seqNum), buf => encInts [seqNum] buf
  | _, _ => none

def quicBuildPathChallengeFrame : TxFrame → OutBuf → Option OutBuf
  | .frm (.pathChallenge data), buf => encData data buf
  | _, _ => none

def quicBuildPathResponseFrame : TxFrame → OutBuf → Option OutBuf
  | .frm (.pathResponse data), buf => encData data buf
  | _, _ => none

def quicBuildConnectionCloseFrame : TxFrame → OutBuf → Option OutBuf
  | .frm (.connectionClose errorCode frameType reasonPhrase), buf =>
    (encInts [errorCode, frameType, reasonPhrase.length] buf).bind (encData reasonPhrase)
  | _, _ => none

def quicBuildConnectionCloseAppFrame : TxFrame → OutBuf → Option OutBuf
  | .frm (.connectionCloseApp errorCode reasonPhrase), buf =>
    (encInts [errorCode, reasonPhrase.length] buf).bind (encData reasonPhrase)
  | _, _ => none

def quicBuildHandshakeDoneFrame : TxFrame → OutBuf → Option OutBuf
  | _, buf => some buf

/-! ### The table -/

/-- `struct quic_frame_builder`. -/
structure QuicFrameBuilder where
  func : UInt8 → TxFrame → OutBuf → Option OutBuf
  flags : ℕ

def quicFrameBuilders : List QuicFrameBuilder :=
  [⟨fun _ => quicBuildPaddingFrame, txPacketPadding⟩,
    ⟨fun _ => quicBuildPingFrame, txPacketAckEliciting⟩,
    ⟨fun _ => quicBuildAckFrameOf, 0⟩,
    ⟨fun _ => quicBuildAckEcnFrame, 0⟩,
    ⟨fun _ => quicBuildResetStreamFrame, txPacketAckEliciting⟩,
    ⟨fun _ => quicBuildStopSendingFrame, txPacketAckEliciting⟩,
    ⟨fun _ => quicBuildCryptoFrame, txPacketAckEliciting⟩,
    ⟨fun _ => quicBuildNewTokenFrame, txPacketAckEliciting⟩,
    -- QUIC_FT_STREAM_8 to QUIC_FT_STREAM_F
    ⟨quicBuildStreamFrame, txPacketAckEliciting⟩,
    ⟨quicBuildStreamFrame, txPacketAckEliciting⟩,
    ⟨quicBuildStreamFrame, txPacketAckEliciting⟩,
    ⟨quicBuildStreamFrame, txPacketAckEliciting⟩,
    ⟨quicBuildStreamFrame, txPacketAckEliciting⟩,
    ⟨quicBuildStreamFrame, txPacketAckEliciting⟩,
    ⟨quicBuildStreamFrame, txPacketAckEliciting⟩,
    ⟨quicBuildStreamFrame, txPacketAckEliciting⟩,
    ⟨fun _ => quicBuildMaxDataFrame, txPacketAckEliciting⟩,
    ⟨fun _ => quicBuildMaxStreamDataFrame, txPacketAckEliciting⟩,
    ⟨fun _ => quicBuildMaxStreamsBidiFrame, txPacketAckEliciting⟩,
    ⟨fun _ => quicBuildMaxStreamsUniFrame, txPacketAckEliciting⟩,
    ⟨fun _ => quicBuildDataBlockedFrame, txPacketAckEliciting⟩,
    ⟨fun _ => quicBuildStreamDataBlockedFrame, txPacketAckEliciting⟩,
    ⟨fun _ => quicBuildStreamsBlockedBidiFrame, txPacketAckEliciting⟩,
    ⟨fun _ => quicBuildStreamsBlockedUniFrame, txPacketAckEliciting⟩,
    ⟨fun _ => quicBuildNewConnectionIdFrame, txPacketAckEliciting⟩,
    ⟨fun _ => quicBuildRetireConnectionIdFrame, txPacketAckEliciting⟩,
    ⟨fun _ => quicBuildPathChallengeFrame, txPacketAckEliciting⟩,
    ⟨fun _ => quicBuildPathResponseFrame, txPacketAckEliciting⟩,
    ⟨fun _ => quicBuildConnectionCloseFrame, 0⟩,
    ⟨fun _ => quicBuildConnectionCloseAppFrame, 0⟩,
    ⟨fun _ => quicBuildHandshakeDoneFrame, txPacketAckEliciting⟩]

/-- `qc_build_frm`: the buffer and the flags of the packet, or none if there is no room. -/
def qcBuildFrm (type : UInt8) (frm : TxFrame) (flags : ℕ) (buf : OutBuf) :
    Except MemFault (Option (OutBuf × ℕ)) :=
  if buf.size ≤ buf.pos then .ok none
  else
    match quicFrameBuilders[type.toNat]? with
    | none => .error .index
    | some builder =>
      match builder.func type frm (buf.put [type]) with
      | none => .ok none
      | some buf =>
        -- builder[frm->type], from the entry of the type on
        match (quicFrameBuilders.drop type.toNat)[type.toNat]? with
        | none => .error .index
        | some entry => .ok (some (buf, flags ||| entry.flags))

/-! ### The bytes of a frame -/

def ints (vals : List ℕ) : List UInt8 := vals.flatMap quicInt

def Small (vals : List ℕ) : Prop := ∀ v ∈ vals, v < 2 ^ 62

namespace QuicFrame

/-- The bytes of a frame behind its type.  An ACK frame is not one of these. -/
def body (type : UInt8) : QuicFrame → List UInt8
  | padding len => List.replicate (len - 1) 0
  | ping => []
  | ack _ => []
  | ackEcn a => ints [a.largestAck, a.ackDelay, a.firstAckRange, a.ackRangeNum]
  | resetStream id appErrorCode finalSize => ints [id, appErrorCode, finalSize]
  | stopSending id appErrorCode => ints [id, appErrorCode]
  | crypto offset data => ints [offset, data.length] ++ data
  | newToken data => ints [data.length] ++ data
  | stream id offset data =>
    ints [id] ++ ((if type &&& 4 = 0 then [] else ints [offset]) ++
      ((if type &&& 2 = 0 then [] else ints [data.length]) ++ data))
  | maxData v => ints [v]
  | maxStreamData id v => ints [id, v]
  | maxStreamsBidi maxStreams => ints [maxStreams]
  | maxStreamsUni maxStreams => ints [maxStreams]
  | dataBlocked limit => ints [limit]
  | streamDataBlocked id limit => ints [id, limit]
  | streamsBlockedBidi limit => ints [limit]
  | streamsBlockedUni limit => ints [limit]
  | newConnectionId seqNum retirePriorTo cid statelessResetToken =>
    ints [seqNum, retirePriorTo] ++ ([UInt8.ofNat cid.length] ++ (cid ++ statelessResetToken))
  | retireConnectionId seqNum => ints [seqNum]
  | pathChallenge data => data
  | pathResponse data => data
  | connectionClose errorCode frameType reasonPhrase =>
    ints [errorCode, frameType, reasonPhrase.length] ++ reasonPhrase
  | connectionCloseApp errorCode reasonPhrase =>
    ints [errorCode, reasonPhrase.length] ++ reasonPhrase
  | handshakeDone => []

/-- The bytes for which no room is checked: data of a STREAM frame without a length. -/
def unchecked (type : UInt8) : QuicFrame → ℕ
  | stream _ _ data => if type &&& 2 = 0 then data.length else 0
  | _ => 0

/-- The bytes behind the position that is left. -/
def lag : QuicFrame → ℕ
  | newToken data => data.length
  | _ => 0

/-- The frame with these fields, as it is sent. -/
def tx (bufs : List (List UInt8)) : QuicFrame → TxFrame
  | crypto offset data => .crypto offset data.length bufs
  | f => .frm f

end QuicFrame

/-- Buffers of CRYPTO data: all but the last one are full. -/
def Filled : List (List UInt8) → Prop
  | [] => True
  | [data] => data.length ≤ 1024
  | data :: bufs => data.length = 1024 ∧ Filled bufs

/-- The data at an offset of the CRYPTO stream are in the buffers. -/
structure Stored (bufs : List (List UInt8)) (offset : ℕ) (data : List UInt8) : Prop where
  filled : Filled bufs
  bound : offset + data.length ≤ bufs.flatten.length
  data : (bufs.flatten.drop offset).take data.length = data

/-- A frame of the type, with fields that can be encoded. -/
def QuicFrame.Proper (bufs : List (List UInt8)) (type : UInt8) : QuicFrame → Prop
  | padding len => type = 0x00 ∧ 1 ≤ len
  | ping => type = 0x01
  | ack _ => False
  | ackEcn a => type = 0x03 ∧ Small [a.largestAck, a.ackDelay, a.firstAckRange, a.ackRangeNum]
  | resetStream id appErrorCode finalSize => type = 0x04 ∧ Small [id, appErrorCode, finalSize]
  | stopSending id appErrorCode => type = 0x05 ∧ Small [id, appErrorCode]
  | crypto offset data => type = 0x06 ∧ Small [offset, data.length] ∧ Stored bufs offset data
  | newToken data => type = 0x07 ∧ Small [data.length]
  | stream id offset data =>
    type ∈ ([0x08, 0x09, 0x0a, 0x0b, 0x0c, 0x0d, 0x0e, 0x0f] : List UInt8) ∧
      Small [id, offset, data.length] ∧ (type &&& 4 = 0 → offset = 0)
  | maxData v => type = 0x10 ∧ Small [v]
  | maxStreamData id v => type = 0x11 ∧ Small [id, v]
  | maxStreamsBidi maxStreams => type = 0x12 ∧ Small [maxStreams]
  | maxStreamsUni maxStreams => type = 0x13 ∧ Small [maxStreams]
  | dataBlocked limit => type = 0x14 ∧ Small [limit]
  | streamDataBlocked id limit => type = 0x15 ∧ Small [id, limit]
  | streamsBlockedBidi limit => type = 0x16 ∧ Small [limit]
  | streamsBlockedUni limit => type = 0x17 ∧ Small [limit]
  | newConnectionId seqNum retirePriorTo cid statelessResetToken =>
    type = 0x18 ∧ Small [seqNum, retirePriorTo] ∧ cid.length ≤ 255 ∧
      statelessResetToken.length = 16
  | retireConnectionId seqNum => type = 0x19 ∧ Small [seqNum]
  | pathChallenge data => type = 0x1a ∧ data.length = 8
  | pathResponse data => type = 0x1b ∧ data.length = 8
  | connectionClose errorCode frameType reasonPhrase =>
    type = 0x1c ∧ Small [errorCode, frameType, reasonPhrase.length]
  | connectionCloseApp errorCode reasonPhrase =>
    type = 0x1d ∧ Small [errorCode, reasonPhrase.length]
  | handshakeDone => type = 0x1e

/-! ### What the builders write -/

theorem Small.head (h : Small (v :: vals)) : v < 2 ^ 62 :=
  h v List.mem_cons_self

theorem Small.tail (h : Small (v :: vals)) : Small vals :=
  fun w hw => h w (List.mem_cons_of_mem _ hw)

theorem builds_encInts (h : Small vals) : Builds (encInts vals) (ints vals) := by
  induction vals with
  | nil => exact builds_nil
  | cons v vals ih => exact (builds_quicEncInt h.head).bind (ih h.tail)

theorem builds_encData (data : List UInt8) : Builds (encData data) data := builds_put data

theorem Filled.getElem? {bufs : List (List UInt8)} (h : Filled bufs)
    (hoff : offset < bufs.flatten.length) :
    ∃ data rest, bufs[offset / 1024]? = some data ∧ offset % 1024 < data.length ∧
      bufs.flatten.drop offset = data.drop (offset % 1024) ++ rest := by
  induction bufs generalizing offset with
  | nil => cases hoff
  | cons data bufs ih =>
    rw [List.flatten_cons] at hoff ⊢
    have hlen : data.length ≤ 1024 ∧ (bufs ≠ [] → data.length = 1024 ∧ Filled bufs) := by
      rcases bufs with - | ⟨b, bufs⟩
      · exact ⟨h, fun hne => absurd rfl hne⟩
      · exact ⟨Nat.le_of_eq h.1, fun _ => h⟩
    rw [List.length_append] at hoff
    by_cases hfirst : offset < data.length
    · refine ⟨data, bufs.flatten, ?_, ?_, ?_⟩
      · rw [Nat.div_eq_of_lt (by omega)]
        rfl
      · rwa [Nat.mod_eq_of_lt (by omega)]
      · rw [Nat.mod_eq_of_lt (by omega), List.drop_append_of_le_length (Nat.le_of_lt hfirst)]
    · have hne : bufs ≠ [] := by
        rintro rfl
        rw [List.flatten_nil, List.length_nil] at hoff
        omega
      obtain ⟨hfull, hfilled⟩ := hlen.2 hne
      obtain ⟨data', rest, hget, hlt, hdrop⟩ := ih hfilled (by omega : offset - 1024 < _)
      have hdiv : offset / 1024 = (offset - 1024) / 1024 + 1 := by omega
      have hmod : offset % 1024 = (offset - 1024) % 1024 := by omega
      refine ⟨data', rest, ?_, ?_, ?_⟩
      · rw [hdiv, List.getElem?_cons_succ, hget]
      · rwa [hmod]
      · rw [hmod, ← hdrop, List.drop_append, List.drop_of_length_le (by omega), hfull,
          List.nil_append]

/-- **The copy of CRYPTO data**, over any number of buffers. -/
theorem cryptoCopyLoop_of {bufs : List (List UInt8)} (h : Filled bufs) {turns len : ℕ}
    (hbound : offset + len ≤ bufs.flatten.length) (hturns : len ≤ turns) (l : List UInt8)
    (size : ℕ) :
    cryptoCopyLoop bufs turns offset len (.of l size) =
      some (.of (l ++ (bufs.flatten.drop offset).take len) size) := by
  induction turns generalizing offset len l with
  | zero =>
    obtain rfl := Nat.le_zero.mp hturns
    rw [cryptoCopyLoop, List.take_zero, List.append_nil]
  | succ turns ih =>
    rcases len with - | len
    · rw [cryptoCopyLoop, List.take_zero, List.append_nil]
    · obtain ⟨data, rest, hget, hlt, hdrop⟩ := h.getElem? (by omega : offset < _)
      have hidx : offset >>> quicCryptoBufShift = offset / 1024 := Nat.shiftRight_eq_div_pow _ _
      have hmask : offset &&& quicCryptoBufMask = offset % 1024 :=
        Nat.and_two_pow_sub_one_eq_mod offset 10
      rw [cryptoCopyLoop, hidx, hget, hmask]
      dsimp only
      obtain ⟨n, hn⟩ : ∃ n, min (data.length - offset % 1024) (len + 1) = n := ⟨_, rfl⟩
      rw [hn, OutBuf.put_of, ih (by omega) (by omega), List.append_assoc]
      have hsplit : (bufs.flatten.drop offset).take (len + 1) =
          (data.drop (offset % 1024)).take n ++
            (bufs.flatten.drop (offset + n)).take (len + 1 - n) := by
        have hsum : len + 1 = n + (len + 1 - n) := by omega
        rw [← List.drop_drop, hdrop]
        conv_lhs => rw [hsum, List.take_add]
        rw [List.take_append_of_le_length (by rw [List.length_drop]; omega)]
      rw [hsplit]

/-- What a builder does to a buffer into which `l` has been written. -/
def WritesFrm (build : OutBuf → Option OutBuf) (type : UInt8) (frm : QuicFrame) : Prop :=
  ∀ (l : List UInt8) (size : ℕ), l.length ≤ size →
    build (.of l size) =
      if l.length + ((frm.body type).length - frm.unchecked type) ≤ size then
        some ⟨l ++ frm.body type, l.length + ((frm.body type).length - frm.lag), size⟩
      else none

theorem writesFrm_of_builds {build : OutBuf → Option OutBuf} {type : UInt8}
    (h : Builds build (frm.body type)) (hunchecked : frm.unchecked type = 0) (hlag : frm.lag = 0) :
    WritesFrm build type frm := by
  intro l size hl
  rw [h l size hl, hunchecked, hlag, Nat.sub_zero, OutBuf.of, List.length_append]

variable {bufs : List (List UInt8)} {type : UInt8}

theorem writesFrm_crypto (hsmall : Small [offset, data.length])
    (hstored : Stored bufs offset data) :
    WritesFrm (quicBuildCryptoFrame (.crypto offset data.length bufs)) type
      (.crypto offset data) := by
  apply writesFrm_of_builds _ rfl rfl
  refine (builds_encInts hsmall).bind fun l size hl => ?_
  show (if (OutBuf.of l size).room < data.length then none else _) = _
  rw [OutBuf.room_of, cryptoCopyLoop_of hstored.filled hstored.bound (Nat.le_refl _), hstored.data]
  by_cases hfit : l.length + data.length ≤ size
  · rw [if_neg (by omega), if_pos hfit]
  · rw [if_pos (by omega), if_neg hfit]

theorem writesFrm_newToken (hsmall : Small [data.length]) :
    WritesFrm (quicBuildNewTokenFrame (.frm (.newToken data))) type (.newToken data) := by
  intro l size hl
  have hlen : ((QuicFrame.newToken data).body type).length =
      (ints [data.length]).length + data.length := List.length_append
  have hunchecked : (QuicFrame.newToken data).unchecked type = 0 := rfl
  have hlag : (QuicFrame.newToken data).lag = data.length := rfl
  rw [quicBuildNewTokenFrame, builds_encInts hsmall l size hl, hlen, hunchecked, hlag]
  by_cases hint : l.length + (ints [data.length]).length ≤ size
  · rw [if_pos hint, Option.bind_some, OutBuf.room_of, OutBuf.write_of, List.length_append,
      List.append_assoc, Nat.add_sub_cancel]
    by_cases hfit : l.length + ((ints [data.length]).length + data.length) ≤ size
    · rw [if_neg (by omega), Nat.sub_zero, if_pos hfit]
      rfl
    · rw [if_pos (by omega), Nat.sub_zero, if_neg hfit]
  · rw [if_neg hint, if_neg (by omega)]
    rfl

theorem writesFrm_stream {id : ℕ} (hsmall : Small [id, offset, data.length]) :
    WritesFrm (quicBuildStreamFrame type (.frm (.stream id offset data))) type
      (.stream id offset data) := by
  have hid : Small [id] :=
    fun v hv => hsmall v (List.mem_cons.mpr (.inl (List.mem_singleton.mp hv)))
  have hoff : Small [offset] := fun v hv => by
    obtain rfl := List.mem_singleton.mp hv
    exact hsmall v (List.mem_cons_of_mem _ List.mem_cons_self)
  have hlen : Small [data.length] := hsmall.tail.tail
  have hoffset : Builds (encStreamOffset type offset)
      (if type &&& 4 = 0 then [] else ints [offset]) := by
    by_cases h4 : type &&& 4 = 0
    · intro l size hl
      rw [encStreamOffset, if_pos h4, if_pos h4]
      exact builds_nil l size hl
    · intro l size hl
      rw [encStreamOffset, if_neg h4, if_neg h4]
      exact builds_encInts hoff l size hl
  by_cases h2 : type &&& 2 = 0
  · -- the data come without a check
    intro l size hl
    have hhead := (builds_encInts hid).bind hoffset l size hl
    beta_reduce at hhead
    have hbody : (QuicFrame.stream id offset data).body type =
        (ints [id] ++ if type &&& 4 = 0 then [] else ints [offset]) ++ data := by
      rw [QuicFrame.body, if_pos h2, List.nil_append, List.append_assoc]
    have hunchecked : (QuicFrame.stream id offset data).unchecked type = data.length := if_pos h2
    have hlag : (QuicFrame.stream id offset data).lag = 0 := rfl
    have hbuild : quicBuildStreamFrame type (.frm (.stream id offset data)) (.of l size) =
        ((encInts [id] (.of l size)).bind (encStreamOffset type offset)).map fun buf =>
          buf.put data := by
      rw [quicBuildStreamFrame]
      rcases encInts [id] (.of l size) with - | buf
      · rfl
      · rw [Option.bind_some, Option.bind_some]
        rcases encStreamOffset type offset buf with - | buf
        · rfl
        · exact if_pos h2
    rw [hbuild, hhead, hunchecked, hlag, hbody]
    generalize (ints [id] ++ if type &&& 4 = 0 then [] else ints [offset]) = head
    rw [List.length_append, Nat.add_sub_cancel]
    by_cases hfit : l.length + head.length ≤ size
    · rw [if_pos hfit, if_pos hfit, Option.map_some, OutBuf.put_of, OutBuf.of, List.append_assoc,
        List.length_append, List.length_append, Nat.sub_zero]
    · rw [if_neg hfit, if_neg hfit]
      rfl
  · have hunchecked : (QuicFrame.stream id offset data).unchecked type = 0 := if_neg h2
    apply writesFrm_of_builds _ hunchecked rfl
    have hdata : Builds (encStreamData type data) (ints [data.length] ++ data) := by
      intro l size hl
      rw [encStreamData, if_neg h2]
      exact (builds_encInts hlen).bind (builds_encData data) l size hl
    have hbody : (QuicFrame.stream id offset data).body type =
        ints [id] ++ ((if type &&& 4 = 0 then [] else ints [offset]) ++
          (ints [data.length] ++ data)) := by
      rw [QuicFrame.body, if_neg h2]
    rw [hbody]
    exact (builds_encInts hid).bind (hoffset.bind hdata)

theorem writesFrm_newConnectionId {seqNum retirePriorTo : ℕ} {cid token : List UInt8}
    (hsmall : Small [seqNum, retirePriorTo]) (htoken : token.length = 16) :
    WritesFrm (quicBuildNewConnectionIdFrame
      (.frm (.newConnectionId seqNum retirePriorTo cid token))) type
      (.newConnectionId seqNum retirePriorTo cid token) := by
  apply writesFrm_of_builds _ rfl rfl
  have hput : Builds (fun buf => if buf.room < 1 + cid.length + 16 then none
      else some (((buf.put [UInt8.ofNat cid.length]).put cid).put token))
      ([UInt8.ofNat cid.length] ++ (cid ++ token)) := by
    intro l size hl
    show (if (OutBuf.of l size).room < _ then none else _) = _
    simp only [OutBuf.room_of, OutBuf.put_of, List.length_append, List.length_singleton, htoken,
      List.append_assoc]
    by_cases hfit : l.length + (1 + (cid.length + 16)) ≤ size
    · rw [if_neg (by omega), if_pos hfit]
    · rw [if_pos (by omega), if_neg hfit]
  exact (builds_encInts hsmall).bind hput

/-- **What the builder of a type writes**, for the frames of this type. -/
theorem writesFrm (h : frm.Proper bufs type) :
    ∃ builder, quicFrameBuilders[type.toNat]? = some builder ∧
      WritesFrm (builder.func type (frm.tx bufs)) type frm := by
  cases frm with
  | padding len =>
    obtain ⟨rfl, -⟩ := h
    exact ⟨_, rfl, writesFrm_of_builds (builds_encData _) rfl rfl⟩
  | ping =>
    obtain rfl := h
    exact ⟨_, rfl, writesFrm_of_builds builds_nil rfl rfl⟩
  | ack a => exact h.elim
  | crypto offset data =>
    obtain ⟨rfl, hsmall, hstored⟩ := h
    exact ⟨_, rfl, writesFrm_crypto hsmall hstored⟩
  | newToken data =>
    obtain ⟨rfl, hsmall⟩ := h
    exact ⟨_, rfl, writesFrm_newToken hsmall⟩
  | stream id offset data =>
    obtain ⟨htype, hsmall, -⟩ := h
    refine ⟨⟨quicBuildStreamFrame, txPacketAckEliciting⟩, ?_, writesFrm_stream hsmall⟩
    simp only [List.mem_cons, List.not_mem_nil, or_false] at htype
    rcases htype with rfl | rfl | rfl | rfl | rfl | rfl | rfl | rfl <;> rfl
  | newConnectionId seqNum retirePriorTo cid token =>
    obtain ⟨rfl, hsmall, -, htoken⟩ := h
    exact ⟨_, rfl, writesFrm_newConnectionId hsmall htoken⟩
  | pathChallenge data =>
    obtain ⟨rfl, -⟩ := h
    exact ⟨_, rfl, writesFrm_of_builds (builds_encData data) rfl rfl⟩
  | pathResponse data =>
    obtain ⟨rfl, -⟩ := h
    exact ⟨_, rfl, writesFrm_of_builds (builds_encData data) rfl rfl⟩
  | connectionClose errorCode frameType reasonPhrase =>
    obtain ⟨rfl, hsmall⟩ := h
    exact ⟨_, rfl, writesFrm_of_builds ((builds_encInts hsmall).bind (builds_encData _)) rfl rfl⟩
  | connectionCloseApp errorCode reasonPhrase =>
    obtain ⟨rfl, hsmall⟩ := h
    exact ⟨_, rfl, writesFrm_of_builds ((builds_encInts hsmall).bind (builds_encData _)) rfl rfl⟩
  | handshakeDone =>
    obtain rfl := h
    exact ⟨_, rfl, writesFrm_of_builds builds_nil rfl rfl⟩
  | _ =>
    -- integers only
    obtain ⟨rfl, hsmall⟩ := h
    exact ⟨_, rfl, writesFrm_of_builds (builds_encInts hsmall) rfl rfl⟩

/-! ### What the parsers read -/

theorem readsFirst_int (h : v < 2 ^ 62) : Cursor.ReadsFirst quicDecIntAt (quicInt v) v := by
  intro pre rest
  have hlen : pre.length ≤ (pre ++ (quicInt v ++ rest)).length := by
    rw [List.length_append]
    omega
  rw [quicDecIntAt_run hlen, List.drop_left, quicDecInt_append h]
  dsimp only
  congr 2
  simp only [List.length_append]
  omega

theorem readsAll_data (data : List UInt8) (frm : List UInt8 → QuicFrame) :
    Cursor.ReadsAll (Cursor.take data.length >>= fun data => pure (frm data)) data (frm data) := by
  intro pre
  rw [Cursor.bind_run ((Cursor.readsFirst_take data).all pre), Cursor.pure_run]

theorem readsAll_padding {len : ℕ} (h : 1 ≤ len) :
    Cursor.ReadsAll quicParsePaddingFrame (List.replicate (len - 1) 0) (.padding len) := by
  intro pre
  have hlen : pre.length ≤ (pre ++ List.replicate (len - 1) (0 : UInt8)).length := by
    rw [List.length_append]
    omega
  have hroom : (pre ++ List.replicate (len - 1) (0 : UInt8)).length - pre.length = len - 1 := by
    rw [List.length_append, Nat.add_sub_cancel_left, List.length_replicate]
  rw [quicParsePaddingFrame, Cursor.bind_run (Cursor.room_run hlen), hroom,
    Cursor.bind_run (Cursor.zeros_run (len - 1) pre), Cursor.pure_run, Nat.add_sub_cancel' h]

theorem readsAll_stream {id : ℕ} (hsmall : Small [id, offset, data.length])
    (hoffset : type &&& 4 = 0 → offset = 0) :
    Cursor.ReadsAll (quicParseStreamFrame type) ((QuicFrame.stream id offset data).body type)
      (.stream id offset data) := by
  have hdata : Cursor.ReadsAll (streamData type >>= fun data => pure (.stream id offset data))
      ((if type &&& 2 = 0 then [] else ints [data.length]) ++ data)
      (QuicFrame.stream id offset data) := by
    by_cases h2 : type &&& 2 = 0
    · intro pre
      rw [streamData, if_pos h2, if_pos h2, List.nil_append,
        Cursor.bind_run (Cursor.readsAll_rest data pre), Cursor.pure_run]
    · intro pre
      have hread := (readsFirst_int hsmall.tail.tail.head).bind (Cursor.readsFirst_take data).all pre
      have hints : ints [data.length] = quicInt data.length := List.append_nil _
      rw [streamData, if_neg h2, if_neg h2, hints, Cursor.bind_run hread, Cursor.pure_run]
  have htail : Cursor.ReadsAll (streamOffset type >>= fun offset =>
        streamData type >>= fun data => pure (.stream id offset data))
      ((if type &&& 4 = 0 then [] else ints [offset]) ++
        ((if type &&& 2 = 0 then [] else ints [data.length]) ++ data))
      (QuicFrame.stream id offset data) := by
    by_cases h4 : type &&& 4 = 0
    · intro pre
      rw [streamOffset, if_pos h4, if_pos h4, List.nil_append]
      have hrun := hdata pre
      rw [hoffset h4] at hrun ⊢
      exact hrun
    · have hints : ints [offset] = quicInt offset := List.append_nil _
      rw [streamOffset, if_neg h4, if_neg h4, hints]
      exact (readsFirst_int hsmall.tail.head).bind hdata
  have hints : ints [id] = quicInt id := List.append_nil _
  rw [QuicFrame.body, hints]
  exact (readsFirst_int hsmall.head).bind htail

theorem readsAll_newConnectionId {seqNum retirePriorTo : ℕ} {cid token : List UInt8}
    (hsmall : Small [seqNum, retirePriorTo]) (hcid : cid.length ≤ 255)
    (htoken : token.length = 16) :
    Cursor.ReadsAll quicParseNewConnectionIdFrame
      ((QuicFrame.newConnectionId seqNum retirePriorTo cid token).body type)
      (.newConnectionId seqNum retirePriorTo cid token) := by
  have hlen : (UInt8.ofNat cid.length).toNat = cid.length := by
    rw [UInt8.toNat_ofNat']
    exact Nat.mod_eq_of_lt (by omega)
  have htotal : cid.length + 16 = (cid ++ token).length := by rw [List.length_append, htoken]
  have hdata : Cursor.ReadsAll (Cursor.take ((UInt8.ofNat cid.length).toNat + 16) >>= fun data =>
      pure (.newConnectionId seqNum retirePriorTo
        (data.take (UInt8.ofNat cid.length).toNat) (data.drop (UInt8.ofNat cid.length).toNat)))
      (cid ++ token) (QuicFrame.newConnectionId seqNum retirePriorTo cid token) := by
    have hread := readsAll_data (cid ++ token) fun data =>
      .newConnectionId seqNum retirePriorTo (data.take cid.length) (data.drop cid.length)
    rw [hlen, htotal]
    rwa [List.take_left, List.drop_left] at hread
  have hints : ints [seqNum, retirePriorTo] = quicInt seqNum ++ quicInt retirePriorTo :=
    congrArg (quicInt seqNum ++ ·) (List.append_nil _)
  rw [QuicFrame.body, hints, List.append_assoc]
  exact (readsFirst_int hsmall.head).bind <| (readsFirst_int hsmall.tail.head).bind <|
    (Cursor.readsFirst_next _).bind hdata

/-- The packets of a type may have frames of a type. -/
def Allowed (pktType : QuicPktType) (type : UInt8) : Prop :=
  ∃ parser, quicFrameParsers[type.toNat]? = some parser ∧ parser.mask &&& pktType.bit ≠ 0

/-- **What the parser of a type reads**: the fields of the frame. -/
theorem readsAll_frm (h : frm.Proper bufs type) {parser : QuicFrameParser}
    (hparser : quicFrameParsers[type.toNat]? = some parser) :
    Cursor.ReadsAll (parser.func type) (frm.body type) frm := by
  have hint := fun {α : Type} {v : ℕ} {f : ℕ → Cursor α} {bs : List UInt8} {a : α}
    (hv : v < 2 ^ 62) (hf : Cursor.ReadsAll (f v) bs a) => (readsFirst_int hv).bind hf
  cases frm with
  | padding len =>
    obtain ⟨rfl, hlen⟩ := h
    obtain rfl := Option.some.inj hparser
    exact readsAll_padding hlen
  | ping =>
    obtain rfl := h
    obtain rfl := Option.some.inj hparser
    exact Cursor.readsAll_pure _
  | ack a => exact h.elim
  | ackEcn a =>
    obtain ⟨rfl, hsmall⟩ := h
    obtain rfl := Option.some.inj hparser
    exact hint hsmall.head <| hint hsmall.tail.head <| hint hsmall.tail.tail.head <|
      hint hsmall.tail.tail.tail.head <| Cursor.readsAll_pure _
  | resetStream id appErrorCode finalSize =>
    obtain ⟨rfl, hsmall⟩ := h
    obtain rfl := Option.some.inj hparser
    exact hint hsmall.head <| hint hsmall.tail.head <| hint hsmall.tail.tail.head <|
      Cursor.readsAll_pure _
  | stopSending id appErrorCode =>
    obtain ⟨rfl, hsmall⟩ := h
    obtain rfl := Option.some.inj hparser
    exact hint hsmall.head <| hint hsmall.tail.head <| Cursor.readsAll_pure _
  | crypto offset data =>
    obtain ⟨rfl, hsmall, -⟩ := h
    obtain rfl := Option.some.inj hparser
    have hints : ints [offset, data.length] = quicInt offset ++ quicInt data.length :=
      congrArg (quicInt offset ++ ·) (List.append_nil _)
    rw [QuicFrame.body, hints, List.append_assoc]
    exact hint hsmall.head <| hint hsmall.tail.head <| readsAll_data _ _
  | newToken data =>
    obtain ⟨rfl, hsmall⟩ := h
    obtain rfl := Option.some.inj hparser
    have hints : ints [data.length] = quicInt data.length := List.append_nil _
    rw [QuicFrame.body, hints]
    exact hint hsmall.head <| readsAll_data _ _
  | stream id offset data =>
    obtain ⟨htype, hsmall, hoffset⟩ := h
    have hfunc : parser.func = quicParseStreamFrame := by
      simp only [List.mem_cons, List.not_mem_nil, or_false] at htype
      rcases htype with rfl | rfl | rfl | rfl | rfl | rfl | rfl | rfl <;>
        (obtain rfl := Option.some.inj hparser; rfl)
    rw [hfunc]
    exact readsAll_stream hsmall hoffset
  | maxStreamData id v =>
    obtain ⟨rfl, hsmall⟩ := h
    obtain rfl := Option.some.inj hparser
    exact hint hsmall.head <| hint hsmall.tail.head <| Cursor.readsAll_pure _
  | streamDataBlocked id limit =>
    obtain ⟨rfl, hsmall⟩ := h
    obtain rfl := Option.some.inj hparser
    exact hint hsmall.head <| hint hsmall.tail.head <| Cursor.readsAll_pure _
  | newConnectionId seqNum retirePriorTo cid token =>
    obtain ⟨rfl, hsmall, hcid, htoken⟩ := h
    obtain rfl := Option.some.inj hparser
    exact readsAll_newConnectionId hsmall hcid htoken
  | pathChallenge data =>
    obtain ⟨rfl, hlen⟩ := h
    obtain rfl := Option.some.inj hparser
    have hreads := readsAll_data data .pathChallenge
    rw [hlen] at hreads
    exact hreads
  | pathResponse data =>
    obtain ⟨rfl, hlen⟩ := h
    obtain rfl := Option.some.inj hparser
    have hreads := readsAll_data data .pathResponse
    rw [hlen] at hreads
    exact hreads
  | connectionClose errorCode frameType reasonPhrase =>
    obtain ⟨rfl, hsmall⟩ := h
    obtain rfl := Option.some.inj hparser
    have hints : ints [errorCode, frameType, reasonPhrase.length] =
        quicInt errorCode ++ (quicInt frameType ++ quicInt reasonPhrase.length) :=
      congrArg (fun bs => quicInt errorCode ++ (quicInt frameType ++ bs)) (List.append_nil _)
    rw [QuicFrame.body, hints, List.append_assoc, List.append_assoc]
    exact hint hsmall.head <| hint hsmall.tail.head <| hint hsmall.tail.tail.head <|
      readsAll_data _ _
  | connectionCloseApp errorCode reasonPhrase =>
    obtain ⟨rfl, hsmall⟩ := h
    obtain rfl := Option.some.inj hparser
    have hints : ints [errorCode, reasonPhrase.length] =
        quicInt errorCode ++ quicInt reasonPhrase.length :=
      congrArg (quicInt errorCode ++ ·) (List.append_nil _)
    rw [QuicFrame.body, hints, List.append_assoc]
    exact hint hsmall.head <| hint hsmall.tail.head <| readsAll_data _ _
  | handshakeDone =>
    obtain rfl := h
    obtain rfl := Option.some.inj hparser
    exact Cursor.readsAll_pure _
  | _ =>
    -- one integer
    obtain ⟨rfl, hsmall⟩ := h
    obtain rfl := Option.some.inj hparser
    exact hint hsmall.head <| Cursor.readsAll_pure _

theorem qcParseFrm_step (pktType : QuicPktType) {n : ℕ} (hn : n < data.length) :
    qcParseFrm pktType data n = parseTyped pktType data[n] data (n + 1) := by
  show (if data.length ≤ n then Cursor.fail else _ : Cursor _) data n = _
  rw [if_neg (Nat.not_le.mpr hn), Cursor.bind_run (Cursor.byte_run hn)]

/-- **`qc_parse_frm`** reads the frame. -/
theorem qcParseFrm_body (h : frm.Proper bufs type) {pktType : QuicPktType}
    (hallowed : Allowed pktType type) :
    ∃ ackEliciting, qcParseFrm pktType (type :: frm.body type) 0 =
      .ok (some (frm, ackEliciting), (type :: frm.body type).length) := by
  obtain ⟨parser, hparser, hmask⟩ := hallowed
  obtain ⟨hindex, -⟩ := List.getElem?_eq_some_iff.mp hparser
  have htype : ¬ quicFtMax < type := by
    rw [UInt8.lt_iff_toNat_lt]
    exact Nat.not_lt.mpr (Nat.le_of_lt hindex)
  have hpos : 0 < (type :: frm.body type).length := Nat.succ_pos _
  refine ⟨parser.ackEliciting, ?_⟩
  rw [qcParseFrm_step pktType hpos]
  show parseTyped pktType type (type :: frm.body type) 1 = _
  rw [parseTyped, if_neg htype, hparser]
  dsimp only
  have hread : parser.func type (type :: frm.body type) 1 =
      .ok (some frm, (type :: frm.body type).length) := readsAll_frm h hparser [type]
  rw [if_neg hmask, Cursor.bind_run hread, Cursor.pure_run]

/-! ### Round trips -/

def builderFlags (type : UInt8) : ℕ :=
  match quicFrameBuilders[type.toNat]? with
  | none => 0
  | some builder => builder.flags

/-- What is expected of a frame that was built behind `l` in a buffer of `size` bytes. -/
structure FrmTrip (pktType : QuicPktType) (type : UInt8) (frm : QuicFrame) (l : List UInt8)
    (size flags : ℕ) (buf : OutBuf) (flags' : ℕ) : Prop where
  bounds : buf.out.length ≤ size
  kept : buf.out.take l.length = l
  position : buf.pos = buf.out.length
  typeByte : (buf.out.drop l.length).head? = some type
  parsed : ∃ ackEliciting, qcParseFrm pktType (buf.out.drop l.length) 0 =
    .ok (some (frm, ackEliciting), (buf.out.drop l.length).length)
  flags : flags' = flags ||| builderFlags type

/-- A frame that is built is read again, and the packet receives the flags of its type. -/
def RoundTrips (pktType : QuicPktType) (bufs : List (List UInt8)) (type : UInt8)
    (frm : QuicFrame) (l : List UInt8) (size : ℕ) : Prop :=
  ∀ flags, match qcBuildFrm type (frm.tx bufs) flags (.of l size) with
    | .error _ => False
    | .ok none => True
    | .ok (some (buf, flags')) => FrmTrip pktType type frm l size flags buf flags'

/-- The types for which the entry that is used has the flags of the right one. -/
def flaggedTypes : List UInt8 :=
  [0x00, 0x04, 0x05, 0x06, 0x07, 0x08, 0x09, 0x0a, 0x0b, 0x0c, 0x0d, 0x0f]

/-- The frame is not built for want of room; or its type is one of these, it is not a token and
all of it fits. -/
def FrmKept (type : UInt8) (frm : QuicFrame) (l : List UInt8) (size : ℕ) : Prop :=
  size < l.length + 1 + ((frm.body type).length - frm.unchecked type) ∨
    type ∈ flaggedTypes ∧ frm.lag = 0 ∧ l.length + 1 + (frm.body type).length ≤ size

theorem entry_flags_iff {type : UInt8} (h : type.toNat < 31) :
    ((quicFrameBuilders.drop type.toNat)[type.toNat]?.map QuicFrameBuilder.flags =
      some (builderFlags type)) ↔ type ∈ flaggedTypes := by
  have hall : ∀ n < 31,
      ((quicFrameBuilders.drop n)[n]?.map QuicFrameBuilder.flags =
        some (builderFlags (UInt8.ofNat n))) ↔ UInt8.ofNat n ∈ flaggedTypes := by
    decide
  have hn := hall type.toNat h
  rwa [UInt8.ofNat_toNat] at hn

theorem lag_le (type : UInt8) (frm : QuicFrame) : frm.lag ≤ (frm.body type).length := by
  cases frm with
  | newToken data =>
    rw [QuicFrame.body, List.length_append]
    exact Nat.le_add_left _ _
  | _ => exact Nat.zero_le _

/-- The frame that was built. -/
theorem frmTrip_iff (h : frm.Proper bufs type) {pktType : QuicPktType}
    (hallowed : Allowed pktType type) {l : List UInt8} {size flags flags' : ℕ} :
    FrmTrip pktType type frm l size flags
        ⟨(l ++ [type]) ++ frm.body type,
          (l ++ [type]).length + ((frm.body type).length - frm.lag), size⟩ flags' ↔
      l.length + 1 + (frm.body type).length ≤ size ∧ frm.lag = 0 ∧
        flags' = flags ||| builderFlags type := by
  have hlen : ((l ++ [type]) ++ frm.body type).length = l.length + 1 + (frm.body type).length := by
    simp only [List.length_append, List.length_singleton]
  have hlen' : (l ++ [type]).length = l.length + 1 := List.length_append
  have hout : (l ++ [type]) ++ frm.body type = l ++ (type :: frm.body type) := by
    rw [List.append_assoc, List.singleton_append]
  have hlag := lag_le type frm
  constructor
  · intro ht
    have hbounds := ht.bounds
    have hposition := ht.position
    dsimp only at hbounds hposition
    rw [hlen] at hbounds hposition
    rw [hlen'] at hposition
    exact ⟨hbounds, by omega, ht.flags⟩
  · rintro ⟨hbounds, hzero, hflags⟩
    refine ⟨?_, ?_, ?_, ?_, ?_, hflags⟩
    · show ((l ++ [type]) ++ frm.body type).length ≤ size
      rwa [hlen]
    · show ((l ++ [type]) ++ frm.body type).take l.length = l
      rw [hout, List.take_left]
    · show (l ++ [type]).length + ((frm.body type).length - frm.lag) = _
      rw [hlen, hlen', hzero, Nat.sub_zero]
    · show (((l ++ [type]) ++ frm.body type).drop l.length).head? = some type
      rw [hout, List.drop_left]
      rfl
    · show ∃ ackEliciting, qcParseFrm pktType (((l ++ [type]) ++ frm.body type).drop l.length) 0 =
        .ok (some (frm, ackEliciting), (((l ++ [type]) ++ frm.body type).drop l.length).length)
      rw [hout, List.drop_left]
      exact qcParseFrm_body h hallowed

/-- **The round trip of frames** is what it should be if and only if the frame is `FrmKept`. -/
theorem quicFrm_roundTrips_iff (bufs : List (List UInt8)) (type : UInt8) (frm : QuicFrame)
    (h : frm.Proper bufs type) (pktType : QuicPktType) (hallowed : Allowed pktType type)
    (l : List UInt8) (size : ℕ) :
    RoundTrips pktType bufs type frm l size ↔ FrmKept type frm l size := by
  obtain ⟨builder, hbuilder, hwrites⟩ := writesFrm h
  obtain ⟨hindex, -⟩ := List.getElem?_eq_some_iff.mp hbuilder
  have hlen : (l ++ [type]).length = l.length + 1 := List.length_append
  have hstart : ∀ flags, qcBuildFrm type (frm.tx bufs) flags (.of l size) =
      if size ≤ l.length then .ok none
      else if l.length + 1 + ((frm.body type).length - frm.unchecked type) ≤ size then
        match (quicFrameBuilders.drop type.toNat)[type.toNat]? with
        | none => .error .index
        | some entry => .ok (some
            (⟨(l ++ [type]) ++ frm.body type,
              (l ++ [type]).length + ((frm.body type).length - frm.lag), size⟩,
              flags ||| entry.flags))
      else .ok none := by
    intro flags
    rw [qcBuildFrm]
    show (if size ≤ l.length then _ else _) = _
    by_cases hroom : size ≤ l.length
    · rw [if_pos hroom, if_pos hroom]
    · rw [if_neg hroom, if_neg hroom, hbuilder]
      dsimp only
      rw [OutBuf.put_of, hwrites (l ++ [type]) size (by rw [hlen]; omega), hlen]
      by_cases hfit : l.length + 1 + ((frm.body type).length - frm.unchecked type) ≤ size
      · rw [if_pos hfit, if_pos hfit]
      · rw [if_neg hfit, if_neg hfit]
  -- the frame is not built
  have hnone : (∀ flags, qcBuildFrm type (frm.tx bufs) flags (.of l size) = .ok none) →
      RoundTrips pktType bufs type frm l size := by
    intro hall flags
    rw [hall flags]
    exact trivial
  by_cases hroom : size ≤ l.length
  · refine ⟨fun _ => .inl (by omega), fun _ => hnone fun flags => ?_⟩
    rw [hstart, if_pos hroom]
  by_cases hfit : l.length + 1 + ((frm.body type).length - frm.unchecked type) ≤ size
  swap
  · refine ⟨fun _ => .inl (by omega), fun _ => hnone fun flags => ?_⟩
    rw [hstart, if_neg hroom, if_neg hfit]
  have hkept : FrmKept type frm l size ↔
      type ∈ flaggedTypes ∧ frm.lag = 0 ∧ l.length + 1 + (frm.body type).length ≤ size :=
    or_iff_right (Nat.not_lt.mpr hfit)
  have hflags := entry_flags_iff hindex
  rw [hkept]
  rcases hentry : (quicFrameBuilders.drop type.toNat)[type.toNat]? with - | entry
  · -- behind the end of the table
    rw [hentry] at hflags
    constructor
    · intro htrips
      have hfalse := htrips 0
      rw [hstart, if_neg hroom, if_pos hfit, hentry] at hfalse
      exact hfalse.elim
    · rintro ⟨htype, -, -⟩
      cases hflags.mpr htype
  · rw [hentry, Option.map_some] at hflags
    constructor
    · intro htrips
      have htrip := htrips 0
      rw [hstart, if_neg hroom, if_pos hfit, hentry] at htrip
      obtain ⟨hbounds, hlag, hor⟩ := (frmTrip_iff h hallowed).mp htrip
      rw [Nat.zero_or, Nat.zero_or] at hor
      exact ⟨hflags.mp (congrArg some hor), hlag, hbounds⟩
    · rintro ⟨htype, hlag, hbounds⟩ flags
      rw [hstart, if_neg hroom, if_pos hfit, hentry]
      refine (frmTrip_iff h hallowed).mpr ⟨hbounds, hlag, ?_⟩
      rw [Option.some.inj (hflags.mpr htype)]

/-- A RESET_STREAM frame in a buffer that is large enough. -/
theorem quicFrm_roundTrips_iff_resetStream :
    RoundTrips .short [] 0x04 (.resetStream 1 2 3) [] 16 ↔
      FrmKept 0x04 (.resetStream 1 2 3) [] 16 :=
  quicFrm_roundTrips_iff [] 0x04 (.resetStream 1 2 3)
    ⟨rfl, (by decide : ∀ v ∈ [1, 2, 3], v < 2 ^ 62)⟩ .short ⟨_, rfl, by decide⟩ [] 16

/-- The packet with a PING frame does not have to be acknowledged. -/
theorem not_quicFrm_roundTrips :
    ¬ ∀ (bufs : List (List UInt8)) (type : UInt8) (frm : QuicFrame), frm.Proper bufs type →
      ∀ pktType, Allowed pktType type → ∀ (l : List UInt8) (size : ℕ),
        RoundTrips pktType bufs type frm l size := by
  intro hall
  have htrip := hall [] 0x01 .ping rfl .initial ⟨_, rfl, by decide⟩ [] 16 0
  have hflags := FrmTrip.flags htrip
  revert hflags
  decide

end Quic

end SmartHAProxy
