/-
The CRYPTO data that an encryption level receives (xprt_quic.c).

Data at the current offset go to the TLS stack at once; those of other frames wait in a tree
and are given to it at the end of `qc_treat_rx_pkts`, as long as the first frame of the tree
begins at the current offset.  A frame that begins below this offset is stored like any other,
is the first one of the tree from then on, and never leaves it (`CryptoRx.Stuck`): all that is
stored waits behind it.

The packets are taken as their frames, the way `qc_parse_frm` gives them; `simulates_pktFrmSwitch`
connects the frames with the loop over the bytes of a packet.
-/
import SmartHAProxy.Quic.Payload

namespace SmartHAProxy

variable {data : List UInt8} {offset turns : ℕ} {pkt : RxPacket} {p : PktState}

namespace Quic

/-! ### The source -/

/-- The TLS stack takes the data, and the handshake does not fail. -/
def SslAnswer.ok (answer : SslAnswer) : Bool :=
  match answer.handshake with
  | .fails => false
  | _ => answer.provided

/-- A frame: CRYPTO data, with the answers of the allocator and of the TLS stack, or another
frame that is accepted or not. -/
inductive RxFrame
  | crypto (offset : ℕ) (data : List UInt8) (alloc : Bool) (ssl : SslAnswer)
  | other (accepted : Bool)

/-- `struct quic_rx_packet`, with the results of its decryption and of the update of the ranges
to acknowledge. -/
structure RxPacket where
  pn : ℕ
  decrypted : Bool
  frms : List RxFrame
  ranges : Bool

/-- The receiving side of an encryption level: the current offset, the frames that wait and the
packets that wait.  `given` are the data given to `qc_provide_cdata` so far, and `received` are
the CRYPTO frames that were taken. -/
structure CryptoRx where
  offset : ℕ
  frms : EbTree ℕ (List UInt8)
  pkts : EbTree ℕ RxPacket
  given : List UInt8
  received : List (ℕ × List UInt8)

namespace CryptoRx

/-- Nothing has been received yet. -/
def init : CryptoRx := ⟨0, .empty, .empty, [], []⟩

/-- `qc_provide_cdata`. -/
def provideCdata (s : CryptoRx) (data : List UInt8) (ssl : SslAnswer) : Bool × CryptoRx :=
  let s := { s with given := s.given ++ data }
  if ¬ ssl.provided then (false, s)
  else (ssl.ok, { s with offset := s.offset + data.length })

def take (s : CryptoRx) (offset : ℕ) (data : List UInt8) : CryptoRx :=
  { s with received := s.received ++ [(offset, data)] }

/-- The switch of `qc_parse_pkt_frms`: whether the loop goes on. -/
def parseFrm (s : CryptoRx) : RxFrame → Bool × CryptoRx
  | .crypto offset data alloc ssl =>
    if offset ≠ s.offset then
      if alloc then (true, { s.take offset data with frms := s.frms.insert offset data })
      else (false, s)
    else (s.take offset data).provideCdata data ssl
  | .other accepted => (accepted, s)

/-- The loop of `qc_parse_pkt_frms`. -/
def parsePktFrms (s : CryptoRx) : List RxFrame → Bool × CryptoRx
  | [] => (true, s)
  | frm :: frms =>
    match s.parseFrm frm with
    | (false, s) => (false, s)
    | (true, s) => s.parsePktFrms frms

/-- The loop of `qc_treat_rx_crypto_frms`, for a number of turns that is the one of the frames:
`ssl` are the answers to the calls. -/
def treatRxCryptoFrmsLoop (ssl : ℕ → SslAnswer) : ℕ → ℕ → CryptoRx → Bool × CryptoRx
  | 0, _, s => (true, s)
  | turns + 1, calls, s =>
    match s.frms.firstNode with
    | none => (true, s)
    | some (key, data) =>
      if key ≠ s.offset then (true, s)
      else
        match s.provideCdata data (ssl calls) with
        | (false, s) => (false, s)
        | (true, s) =>
          treatRxCryptoFrmsLoop ssl turns (calls + 1) { s with frms := s.frms.dropFirst }

/-- `qc_treat_rx_crypto_frms`. -/
def treatRxCryptoFrms (s : CryptoRx) (ssl : ℕ → SslAnswer) : Bool × CryptoRx :=
  treatRxCryptoFrmsLoop ssl s.frms.nodes.length 0 s

/-- One turn of the loop of `qc_treat_rx_pkts`, for the packet `pkt`: whether the loop goes on.
The packet is deleted in any case. -/
def treatRxPkt (s : CryptoRx) (pkt : RxPacket) : Bool × CryptoRx :=
  let r := if pkt.decrypted then s.parsePktFrms pkt.frms else (false, s)
  (!r.1 || pkt.ranges, { r.2 with pkts := r.2.pkts.dropFirst })

/-- The loop of `qc_treat_rx_pkts`. -/
def treatRxPktsLoop : ℕ → CryptoRx → Bool × CryptoRx
  | 0, s => (true, s)
  | turns + 1, s =>
    match s.pkts.first with
    | none => (true, s)
    | some pkt =>
      match s.treatRxPkt pkt with
      | (false, s) => (false, s)
      | (true, s) => treatRxPktsLoop turns s

/-- `qc_treat_rx_pkts`. -/
def treatRxPkts (s : CryptoRx) (ssl : ℕ → SslAnswer) : Bool × CryptoRx :=
  match treatRxPktsLoop s.pkts.nodes.length s with
  | (false, s) => (false, s)
  | (true, s) => s.treatRxCryptoFrms ssl

end CryptoRx

/-- What happens to an encryption level: a packet arrives, or the packets are treated. -/
inductive RxAct
  | receive (pkt : RxPacket)
  | treat (ssl : ℕ → SslAnswer)

def CryptoRx.step (s : CryptoRx) : RxAct → CryptoRx
  | .receive pkt => { s with pkts := s.pkts.insert pkt.pn pkt }
  | .treat ssl => (s.treatRxPkts ssl).2

/-! ### Data of a stream -/

/-- The place `i` of the stream is in a frame. -/
def Covers (n : ℕ × List UInt8) (i : ℕ) : Prop := n.1 ≤ i ∧ i < n.1 + n.2.length

/-- A frame is a part of a stream. -/
structure CutFrom (S : List UInt8) (n : ℕ × List UInt8) : Prop where
  bound : n.1 + n.2.length ≤ S.length
  data : n.2 = (S.drop n.1).take n.2.length

/-- The frame is a part of the stream if it has CRYPTO data. -/
def RxFrame.CutFrom (S : List UInt8) : RxFrame → Prop
  | .crypto offset data _ _ => Quic.CutFrom S (offset, data)
  | .other _ => True

/-- The TLS stack takes the data. -/
def RxFrame.Quiet : RxFrame → Prop
  | .crypto _ _ _ ssl => ssl.ok = true
  | .other _ => True

/-- A packet with parts of the stream. -/
structure RxPacket.CutFrom (S : List UInt8) (pkt : RxPacket) : Prop where
  frms : ∀ frm ∈ pkt.frms, frm.CutFrom S

/-- The TLS stack takes the data of a packet, and the ranges to acknowledge are updated. -/
structure RxPacket.Quiet (pkt : RxPacket) : Prop where
  frms : ∀ frm ∈ pkt.frms, frm.Quiet
  ranges : pkt.ranges = true

/-- Packets have parts of the stream. -/
def RxAct.CutFrom (S : List UInt8) : RxAct → Prop
  | .receive pkt => pkt.CutFrom S
  | .treat _ => True

/-- Nothing fails outside of the code. -/
def RxAct.Quiet : RxAct → Prop
  | .receive pkt => pkt.Quiet
  | .treat ssl => ∀ calls, (ssl calls).ok = true

namespace CryptoRx

/-- The place `i` of the stream has been received. -/
def Received (s : CryptoRx) (i : ℕ) : Prop := ∃ n ∈ s.received, Covers n i

/-- The longest beginning of the stream that has been received is what was given. -/
structure Delivered (s : CryptoRx) : Prop where
  all : ∀ i < s.given.length, s.Received i
  longest : ¬ s.Received s.given.length

/-- **The invariant**: what was given is the stream up to the current offset, and all that was
received was given or waits. -/
structure Inv (S : List UInt8) (s : CryptoRx) : Prop where
  given : s.given = S.take s.offset
  offset : s.offset ≤ S.length
  frms : ∀ n ∈ s.frms.nodes, Quic.CutFrom S n
  received : ∀ i, s.Received i ↔ i < s.offset ∨ ∃ n ∈ s.frms.nodes, Covers n i
  pkts : ∀ pkt ∈ s.pkts.items, pkt.CutFrom S ∧ pkt.Quiet

/-- No frame that waits begins below the current offset. -/
def Fresh (s : CryptoRx) : Prop := ∀ n ∈ s.frms.nodes, s.offset ≤ n.1

end CryptoRx

variable {S : List UInt8} {s : CryptoRx}

theorem SslAnswer.provided_of_ok {ssl : SslAnswer} (h : ssl.ok = true) : ssl.provided = true := by
  rcases ssl with ⟨provided, handshake⟩
  rcases handshake with - | - | -
  · exact h
  · exact h
  · cases h

theorem provideCdata_of_ok {ssl : SslAnswer} (h : ssl.ok = true) :
    s.provideCdata data ssl =
      (true, { s with given := s.given ++ data, offset := s.offset + data.length }) := by
  rw [CryptoRx.provideCdata, if_neg (not_not.mpr (SslAnswer.provided_of_ok h)), h]

theorem received_take (offset : ℕ) (data : List UInt8) (i : ℕ) :
    (s.take offset data).Received i ↔ s.Received i ∨ Covers (offset, data) i := by
  constructor
  · rintro ⟨n, hn, hi⟩
    rcases List.mem_append.mp hn with hn | hn
    · exact .inl ⟨n, hn, hi⟩
    · obtain rfl := List.mem_singleton.mp hn
      exact .inr hi
  · rintro (⟨n, hn, hi⟩ | hi)
    · exact ⟨n, List.mem_append_left _ hn, hi⟩
    · exact ⟨_, List.mem_append_right _ (List.mem_singleton.mpr rfl), hi⟩

theorem CutFrom.take_add (h : CutFrom S (offset, data)) :
    S.take (offset + data.length) = S.take offset ++ data := by
  rw [List.take_add, ← h.data]

theorem CryptoRx.Inv.provide (h : s.Inv S) (hcut : CutFrom S (s.offset, data))
    (frms : EbTree ℕ (List UInt8)) (hfrms : ∀ n ∈ frms.nodes, n ∈ s.frms.nodes)
    (received : List (ℕ × List UInt8))
    (hreceived : ∀ i, (∃ n ∈ received, Covers n i) ↔ s.Received i ∨ Covers (s.offset, data) i)
    (hkept : ∀ n ∈ s.frms.nodes, n ∈ frms.nodes ∨ n = (s.offset, data)) :
    CryptoRx.Inv S { s with
      given := s.given ++ data, offset := s.offset + data.length, frms := frms
      received := received } where
  given := by
    rw [hcut.take_add, ← h.given]
  offset := hcut.bound
  frms := fun n hn => h.frms n (hfrms n hn)
  received := by
    intro i
    have hcovers : Covers (s.offset, data) i ↔ s.offset ≤ i ∧ i < s.offset + data.length := Iff.rfl
    refine (hreceived i).trans ?_
    rw [h.received i, hcovers]
    show _ ↔ i < s.offset + data.length ∨ ∃ n ∈ frms.nodes, Covers n i
    constructor
    · rintro ((hlt | ⟨n, hn, hi⟩) | ⟨-, hlt⟩)
      · exact .inl (by omega)
      · rcases hkept n hn with hn | rfl
        · exact .inr ⟨n, hn, hi⟩
        · exact .inl hi.2
      · exact .inl hlt
    · rintro (hlt | ⟨n, hn, hi⟩)
      · by_cases hold : i < s.offset
        · exact .inl (.inl hold)
        · exact .inr ⟨by omega, hlt⟩
      · exact .inl (.inr ⟨n, hfrms n hn, hi⟩)
  pkts := h.pkts

/-! ### Frames of a packet -/

/-- The frame is not stored below the current offset, and its data are not given across the
beginning of a frame that waits. -/
def CryptoRx.FrmMeets (s : CryptoRx) : RxFrame → Prop
  | .crypto offset data alloc _ =>
    if offset ≠ s.offset then alloc = true → s.offset < offset
    else ∀ n ∈ s.frms.nodes, s.offset + data.length ≤ n.1
  | .other _ => True

theorem CryptoRx.Inv.store (h : s.Inv S) (hcut : CutFrom S (offset, data)) :
    CryptoRx.Inv S { s.take offset data with frms := s.frms.insert offset data } where
  given := h.given
  offset := h.offset
  frms := by
    intro n hn
    rcases EbTree.mem_nodes_insert.mp hn with rfl | hn
    · exact hcut
    · exact h.frms n hn
  received := by
    intro i
    refine (received_take offset data i).trans ?_
    rw [h.received i]
    show _ ↔ i < s.offset ∨ ∃ n ∈ (s.frms.insert offset data).nodes, Covers n i
    constructor
    · rintro ((hlt | ⟨n, hn, hi⟩) | hi)
      · exact .inl hlt
      · exact .inr ⟨n, EbTree.mem_nodes_insert.mpr (.inr hn), hi⟩
      · exact .inr ⟨_, EbTree.mem_nodes_insert.mpr (.inl rfl), hi⟩
    · rintro (hlt | ⟨n, hn, hi⟩)
      · exact .inl (.inl hlt)
      · rcases EbTree.mem_nodes_insert.mp hn with rfl | hn
        · exact .inr hi
        · exact .inl (.inr ⟨n, hn, hi⟩)
  pkts := h.pkts

/-- **One frame** keeps the invariant. -/
theorem CryptoRx.Inv.parseFrm (h : s.Inv S) {frm : RxFrame} (hcut : frm.CutFrom S)
    (hquiet : frm.Quiet) : (s.parseFrm frm).2.Inv S := by
  cases frm with
  | other accepted => exact h
  | crypto offset data alloc ssl =>
    rw [CryptoRx.parseFrm]
    by_cases hoff : offset = s.offset
    · subst hoff
      rw [if_neg (not_not.mpr rfl), provideCdata_of_ok hquiet]
      exact h.provide hcut s.frms (fun _ hn => hn) _ (received_take _ _) fun _ hn => .inl hn
    · rw [if_pos hoff]
      rcases alloc with - | -
      · exact h
      · exact h.store hcut

theorem CryptoRx.Fresh.parseFrm (h : s.Fresh) {frm : RxFrame} (hquiet : frm.Quiet)
    (hmeets : s.FrmMeets frm) : (s.parseFrm frm).2.Fresh := by
  cases frm with
  | other accepted => exact h
  | crypto offset data alloc ssl =>
    rw [CryptoRx.FrmMeets] at hmeets
    rw [CryptoRx.parseFrm]
    by_cases hoff : offset = s.offset
    · subst hoff
      rw [if_neg (not_not.mpr rfl)] at hmeets
      rw [if_neg (not_not.mpr rfl), provideCdata_of_ok hquiet]
      exact hmeets
    · rw [if_pos hoff] at hmeets
      rw [if_pos hoff]
      rcases alloc with - | -
      · exact h
      · intro n hn
        rcases EbTree.mem_nodes_insert.mp hn with rfl | hn
        · exact Nat.le_of_lt (hmeets rfl)
        · exact h n hn

/-- The condition on the frames of a packet, each in the state before it. -/
def CryptoRx.FrmsMeet (s : CryptoRx) : List RxFrame → Prop
  | [] => True
  | frm :: frms =>
    s.FrmMeets frm ∧ ((s.parseFrm frm).1 = true → (s.parseFrm frm).2.FrmsMeet frms)

theorem parsePktFrms_cons (s : CryptoRx) (frm : RxFrame) (frms : List RxFrame) :
    s.parsePktFrms (frm :: frms) =
      if (s.parseFrm frm).1 = true then (s.parseFrm frm).2.parsePktFrms frms
      else (false, (s.parseFrm frm).2) := by
  rw [CryptoRx.parsePktFrms]
  rcases s.parseFrm frm with ⟨- | -, s'⟩ <;> rfl

theorem CryptoRx.Inv.parsePktFrms (h : s.Inv S) {frms : List RxFrame}
    (hcut : ∀ frm ∈ frms, frm.CutFrom S) (hquiet : ∀ frm ∈ frms, frm.Quiet) :
    (s.parsePktFrms frms).2.Inv S := by
  induction frms generalizing s with
  | nil => exact h
  | cons frm frms ih =>
    have hfrm := h.parseFrm (hcut frm List.mem_cons_self) (hquiet frm List.mem_cons_self)
    rw [parsePktFrms_cons]
    by_cases hok : (s.parseFrm frm).1 = true
    · rw [if_pos hok]
      exact ih hfrm (fun f hf => hcut f (List.mem_cons_of_mem _ hf))
        fun f hf => hquiet f (List.mem_cons_of_mem _ hf)
    · rw [if_neg hok]
      exact hfrm

theorem CryptoRx.Fresh.parsePktFrms (h : s.Fresh) {frms : List RxFrame}
    (hquiet : ∀ frm ∈ frms, frm.Quiet) (hmeet : s.FrmsMeet frms) :
    (s.parsePktFrms frms).2.Fresh := by
  induction frms generalizing s with
  | nil => exact h
  | cons frm frms ih =>
    have hfrm := h.parseFrm (hquiet frm List.mem_cons_self) hmeet.1
    rw [parsePktFrms_cons]
    by_cases hok : (s.parseFrm frm).1 = true
    · rw [if_pos hok]
      exact ih hfrm (fun f hf => hquiet f (List.mem_cons_of_mem _ hf)) (hmeet.2 hok)
    · rw [if_neg hok]
      exact hfrm

/-! ### Packets -/

theorem parseFrm_pkts (s : CryptoRx) (frm : RxFrame) : (s.parseFrm frm).2.pkts = s.pkts := by
  cases frm with
  | other accepted => rfl
  | crypto offset data alloc ssl =>
    rw [CryptoRx.parseFrm, CryptoRx.provideCdata]
    split_ifs <;> rfl

theorem parsePktFrms_pkts (s : CryptoRx) (frms : List RxFrame) :
    (s.parsePktFrms frms).2.pkts = s.pkts := by
  induction frms generalizing s with
  | nil => rfl
  | cons frm frms ih =>
    rw [parsePktFrms_cons]
    split_ifs with hok
    · rw [ih, parseFrm_pkts]
    · exact parseFrm_pkts s frm

/-- The condition on a packet: on its frames, if it is decrypted. -/
def CryptoRx.PktMeets (s : CryptoRx) (pkt : RxPacket) : Prop :=
  pkt.decrypted = true → s.FrmsMeet pkt.frms

theorem treatRxPkt_pkts (s : CryptoRx) (pkt : RxPacket) :
    (s.treatRxPkt pkt).2.pkts = s.pkts.dropFirst := by
  rw [CryptoRx.treatRxPkt]
  split_ifs
  · show (s.parsePktFrms pkt.frms).2.pkts.dropFirst = _
    rw [parsePktFrms_pkts]
  · rfl

theorem CryptoRx.Inv.dropPkt (h : s.Inv S) :
    CryptoRx.Inv S { s with pkts := s.pkts.dropFirst } where
  given := h.given
  offset := h.offset
  frms := h.frms
  received := h.received
  pkts := by
    intro pkt hpkt
    rw [EbTree.items, EbTree.dropFirst, List.map_tail] at hpkt
    exact h.pkts pkt (List.mem_of_mem_tail hpkt)

theorem CryptoRx.Inv.treatRxPkt (h : s.Inv S) (hpkt : pkt ∈ s.pkts.items) :
    (s.treatRxPkt pkt).1 = true ∧ (s.treatRxPkt pkt).2.Inv S := by
  obtain ⟨hcut, hquiet⟩ := h.pkts pkt hpkt
  constructor
  · rw [CryptoRx.treatRxPkt, hquiet.ranges]
    exact Bool.or_true _
  · rw [CryptoRx.treatRxPkt]
    split_ifs
    · exact (h.parsePktFrms hcut.frms hquiet.frms).dropPkt
    · exact h.dropPkt

theorem CryptoRx.Fresh.treatRxPkt (h : s.Fresh) (hquiet : pkt.Quiet) (hmeets : s.PktMeets pkt) :
    (s.treatRxPkt pkt).2.Fresh := by
  rw [CryptoRx.treatRxPkt]
  split_ifs with hdec
  · exact h.parsePktFrms hquiet.frms (hmeets hdec)
  · exact h

/-- The condition on the packets, each in the state before it. -/
def CryptoRx.PktsMeet : ℕ → CryptoRx → Prop
  | 0, _ => True
  | turns + 1, s =>
    ∀ pkt, s.pkts.first = some pkt → s.PktMeets pkt ∧ PktsMeet turns (s.treatRxPkt pkt).2

theorem treatRxPktsLoop_succ (hfirst : s.pkts.first = some pkt)
    (hok : (s.treatRxPkt pkt).1 = true) :
    CryptoRx.treatRxPktsLoop (turns + 1) s =
      CryptoRx.treatRxPktsLoop turns (s.treatRxPkt pkt).2 := by
  rw [CryptoRx.treatRxPktsLoop, hfirst]
  dsimp only
  rcases hrun : s.treatRxPkt pkt with ⟨- | -, s'⟩
  · rw [hrun] at hok
    cases hok
  · rfl

/-- **The packets** keep the invariant, and none is left. -/
theorem CryptoRx.Inv.treatRxPktsLoop (h : s.Inv S) (hturns : s.pkts.nodes.length = turns) :
    (CryptoRx.treatRxPktsLoop turns s).1 = true ∧ (CryptoRx.treatRxPktsLoop turns s).2.Inv S ∧
      (CryptoRx.treatRxPktsLoop turns s).2.pkts.nodes = [] ∧
      (s.Fresh → CryptoRx.PktsMeet turns s → (CryptoRx.treatRxPktsLoop turns s).2.Fresh) := by
  induction turns generalizing s with
  | zero => exact ⟨rfl, h, List.eq_nil_of_length_eq_zero hturns, fun hfresh _ => hfresh⟩
  | succ turns ih =>
    obtain ⟨pkt, hfirst, hmem, hlen⟩ := EbTree.first_of_length hturns
    obtain ⟨hok, hinv⟩ := h.treatRxPkt hmem
    rw [treatRxPktsLoop_succ hfirst hok]
    rw [← treatRxPkt_pkts s pkt] at hlen
    obtain ⟨hok', hinv', hnil, hfresh'⟩ := ih hinv hlen
    refine ⟨hok', hinv', hnil, fun hfresh hmeet => ?_⟩
    obtain ⟨hpkt, hrest⟩ := hmeet pkt hfirst
    exact hfresh' (hfresh.treatRxPkt (h.pkts pkt hmem).2 hpkt) hrest

/-! ### Frames that wait -/

/-- The condition on the frames that leave the tree, each in the state before it: its data are
not given across the beginning of a frame that waits. -/
def CryptoRx.DrainMeets (ssl : ℕ → SslAnswer) : ℕ → ℕ → CryptoRx → Prop
  | 0, _, _ => True
  | turns + 1, calls, s =>
    ∀ key data, s.frms.firstNode = some (key, data) → key = s.offset →
      (∀ n ∈ s.frms.dropFirst.nodes, s.offset + data.length ≤ n.1) ∧
        DrainMeets ssl turns (calls + 1)
          { (s.provideCdata data (ssl calls)).2 with frms := s.frms.dropFirst }

/-- **The frames that wait** are given as long as the first one begins at the offset. -/
theorem CryptoRx.Inv.treatRxCryptoFrmsLoop {ssl : ℕ → SslAnswer}
    (hssl : ∀ calls, (ssl calls).ok = true) (calls : ℕ) (h : s.Inv S)
    (hturns : s.frms.nodes.length = turns) :
    (CryptoRx.treatRxCryptoFrmsLoop ssl turns calls s).2.Inv S ∧
      (CryptoRx.treatRxCryptoFrmsLoop ssl turns calls s).2.pkts = s.pkts ∧
      (s.Fresh → CryptoRx.DrainMeets ssl turns calls s →
        ∀ n ∈ (CryptoRx.treatRxCryptoFrmsLoop ssl turns calls s).2.frms.nodes,
          (CryptoRx.treatRxCryptoFrmsLoop ssl turns calls s).2.offset < n.1) := by
  induction turns generalizing calls s with
  | zero =>
    refine ⟨h, rfl, fun _ _ n hn => ?_⟩
    rw [CryptoRx.treatRxCryptoFrmsLoop, List.eq_nil_of_length_eq_zero hturns] at hn
    cases hn
  | succ turns ih =>
    obtain ⟨⟨key, data⟩, l, hl⟩ := List.exists_cons_of_length_eq_add_one hturns
    have hfirst : s.frms.firstNode = some (key, data) := by
      rw [EbTree.firstNode, hl]
      rfl
    have hdrop : s.frms.dropFirst.nodes = l := by
      rw [EbTree.nodes_dropFirst, hl]
      rfl
    have hlen : l.length = turns := by
      rw [hl] at hturns
      exact Nat.succ.inj hturns
    rw [CryptoRx.treatRxCryptoFrmsLoop, hfirst]
    dsimp only
    by_cases hkey : key = s.offset
    · rw [if_neg (not_not.mpr hkey), provideCdata_of_ok (hssl calls)]
      subst hkey
      have hmem : (s.offset, data) ∈ s.frms.nodes := by
        rw [hl]
        exact List.mem_cons_self
      have hinv := h.provide (h.frms _ hmem) s.frms.dropFirst
        (fun n hn => by rw [hdrop] at hn; rw [hl]; exact List.mem_cons_of_mem _ hn) s.received
        (fun i => ⟨.inl, fun hi => hi.elim id fun hi => (h.received i).mpr (.inr ⟨_, hmem, hi⟩)⟩)
        (fun n hn => by rw [hl] at hn; rw [hdrop]; exact (List.mem_cons.mp hn).symm)
      obtain ⟨hinv', hpkts, hlt⟩ := ih (calls + 1) hinv (by rw [hdrop]; exact hlen)
      refine ⟨hinv', hpkts, fun hfresh hmeet => ?_⟩
      obtain ⟨hbeyond, hrest⟩ := hmeet s.offset data hfirst rfl
      rw [provideCdata_of_ok (hssl calls)] at hrest
      exact hlt hbeyond hrest
    · rw [if_pos hkey]
      refine ⟨h, rfl, fun hfresh _ n hn => ?_⟩
      -- the first frame begins beyond the offset, and the others behind it
      have hbeg : s.offset ≤ key := hfresh (key, data) (by rw [hl]; exact List.mem_cons_self)
      have hsorted := s.frms.sorted
      rw [hl] at hsorted hn
      have hle : key ≤ n.1 := by
        rcases List.mem_cons.mp hn with rfl | hn
        · exact Nat.le_refl _
        · exact (List.pairwise_cons.mp hsorted).1 n hn
      show s.offset < n.1
      omega

/-! ### Runs -/

/-- The condition on a step: on the packets that are treated and on the frames that leave the
tree after them. -/
def CryptoRx.ActMeets (s : CryptoRx) : RxAct → Prop
  | .receive _ => True
  | .treat ssl =>
    CryptoRx.PktsMeet s.pkts.nodes.length s ∧
      CryptoRx.DrainMeets ssl (CryptoRx.treatRxPktsLoop s.pkts.nodes.length s).2.frms.nodes.length
        0 (CryptoRx.treatRxPktsLoop s.pkts.nodes.length s).2

/-- All steps of a run meet the condition. -/
def CryptoRx.Meets : CryptoRx → List RxAct → Prop
  | _, [] => True
  | s, act :: acts => s.ActMeets act ∧ (s.step act).Meets acts

theorem treatRxPkts_of_ok {ssl : ℕ → SslAnswer}
    (h : (CryptoRx.treatRxPktsLoop s.pkts.nodes.length s).1 = true) :
    s.treatRxPkts ssl =
      (CryptoRx.treatRxPktsLoop s.pkts.nodes.length s).2.treatRxCryptoFrms ssl := by
  rw [CryptoRx.treatRxPkts]
  rcases hrun : CryptoRx.treatRxPktsLoop s.pkts.nodes.length s with ⟨- | -, s'⟩
  · rw [hrun] at h
    cases h
  · rfl

theorem CryptoRx.Inv.delivered (h : s.Inv S) (hlt : ∀ n ∈ s.frms.nodes, s.offset < n.1) :
    s.Delivered := by
  have hlen : s.given.length = s.offset := by
    rw [h.given, List.length_take]
    exact Nat.min_eq_left h.offset
  constructor
  · intro i hi
    rw [hlen] at hi
    exact (h.received i).mpr (.inl hi)
  · rw [hlen, h.received]
    rintro (hself | ⟨n, hn, hi⟩)
    · exact Nat.lt_irrefl _ hself
    · exact Nat.not_lt.mpr hi.1 (hlt n hn)

/-- **One step** keeps the invariant; under the condition, no frame begins below the offset, and
what was given after the packets were treated is all that could be. -/
theorem CryptoRx.Inv.step (h : s.Inv S) {act : RxAct} (hcut : act.CutFrom S) (hquiet : act.Quiet) :
    (s.step act).Inv S ∧ (s.Fresh → s.ActMeets act → (s.step act).Fresh ∧
      ∀ ssl, act = .treat ssl → (s.step act).pkts.nodes = [] ∧ (s.step act).Delivered) := by
  cases act with
  | receive pkt =>
    refine ⟨⟨h.given, h.offset, h.frms, h.received, ?_⟩, fun hfresh _ => ⟨hfresh, ?_⟩⟩
    · intro pkt' hpkt'
      rcases EbTree.mem_insert.mp hpkt' with rfl | hpkt'
      · exact ⟨hcut, hquiet⟩
      · exact h.pkts pkt' hpkt'
    · intro ssl hact
      cases hact
  | treat ssl =>
    obtain ⟨hok, hinv, hnil, hfresh⟩ := h.treatRxPktsLoop rfl
    obtain ⟨hinv', hpkts, hlt⟩ := hinv.treatRxCryptoFrmsLoop hquiet 0 rfl
    rw [CryptoRx.step, treatRxPkts_of_ok hok]
    refine ⟨hinv', fun hstart hmeet => ?_⟩
    have hall := hlt (hfresh hstart hmeet.1) hmeet.2
    refine ⟨fun n hn => Nat.le_of_lt (hall n hn), fun _ _ => ⟨?_, hinv'.delivered hall⟩⟩
    exact (congrArg EbTree.nodes hpkts).trans hnil

theorem inv_init (S : List UInt8) : CryptoRx.init.Inv S where
  given := rfl
  offset := Nat.zero_le _
  frms := by
    intro n hn
    cases hn
  received := by
    intro i
    constructor
    · rintro ⟨n, hn, -⟩
      cases hn
    · rintro (hlt | ⟨n, hn, -⟩)
      · cases hlt
      · cases hn
  pkts := by
    intro pkt hpkt
    cases hpkt

/-- **Runs**: what is given is at every moment a beginning of the stream. -/
theorem CryptoRx.Inv.run (h : s.Inv S) {acts : List RxAct} (hcut : ∀ act ∈ acts, act.CutFrom S)
    (hquiet : ∀ act ∈ acts, act.Quiet) :
    (acts.foldl CryptoRx.step s).Inv S ∧
      (s.Fresh → s.Meets acts → (acts.foldl CryptoRx.step s).Fresh ∧
        ∀ pre ssl, acts = pre ++ [.treat ssl] →
          (acts.foldl CryptoRx.step s).pkts.nodes = [] ∧
            (acts.foldl CryptoRx.step s).Delivered) := by
  induction acts generalizing s with
  | nil =>
    refine ⟨h, fun hfresh _ => ⟨hfresh, fun pre ssl hnil => ?_⟩⟩
    exact absurd hnil (List.append_ne_nil_of_right_ne_nil pre (List.cons_ne_nil _ _)).symm
  | cons act acts ih =>
    obtain ⟨hinv, hstep⟩ := h.step (hcut act List.mem_cons_self) (hquiet act List.mem_cons_self)
    obtain ⟨hinv', hrun⟩ := ih hinv (fun a ha => hcut a (List.mem_cons_of_mem _ ha))
      fun a ha => hquiet a (List.mem_cons_of_mem _ ha)
    rw [List.foldl_cons]
    refine ⟨hinv', fun hfresh hmeet => ?_⟩
    obtain ⟨hfresh', htreat⟩ := hstep hfresh hmeet.1
    obtain ⟨hlast, hdone⟩ := hrun hfresh' hmeet.2
    refine ⟨hlast, fun pre ssl hacts => ?_⟩
    rcases pre with - | ⟨a, pre⟩
    · obtain ⟨hact, hnil⟩ := List.cons.inj hacts
      rw [hnil]
      exact htreat ssl hact
    · exact hdone pre ssl (List.cons.inj hacts).2

/-- The data that are given are at every moment a beginning of the stream, and after each call
of `qc_treat_rx_pkts` they are the longest one that has been received, if all steps meet the
condition. -/
theorem crypto_delivered (S : List UInt8) (acts : List RxAct) (hcut : ∀ act ∈ acts, act.CutFrom S)
    (hquiet : ∀ act ∈ acts, act.Quiet) (hmeet : CryptoRx.init.Meets acts) :
    (acts.foldl CryptoRx.step .init).given <+: S ∧
      ∀ pre ssl, acts = pre ++ [.treat ssl] →
        (acts.foldl CryptoRx.step .init).pkts.nodes = [] ∧
          (acts.foldl CryptoRx.step .init).Delivered := by
  obtain ⟨hinv, hrun⟩ := (inv_init S).run hcut hquiet
  refine ⟨?_, (hrun (fun n hn => absurd hn List.not_mem_nil) hmeet).2⟩
  rw [hinv.given]
  exact List.take_prefix _ S

/-- The TLS stack takes all data, and wants more. -/
def takesAll : SslAnswer := ⟨true, .wants⟩

/-- A packet with one CRYPTO frame. -/
def cryptoPkt (pn offset : ℕ) (data : List UInt8) : RxPacket :=
  ⟨pn, true, [.crypto offset data true takesAll], true⟩

theorem cutFrom_cryptoPkt {S : List UInt8} {pn : ℕ} (h : CutFrom S (offset, data)) :
    RxAct.CutFrom S (.receive (cryptoPkt pn offset data)) := by
  refine ⟨fun frm hfrm => ?_⟩
  obtain rfl := List.mem_singleton.mp hfrm
  exact h

theorem quiet_cryptoPkt (pn offset : ℕ) (data : List UInt8) :
    RxAct.Quiet (.receive (cryptoPkt pn offset data)) := by
  refine ⟨fun frm hfrm => ?_, rfl⟩
  obtain rfl := List.mem_singleton.mp hfrm
  rfl

/-- The second half of a stream comes before the first one. -/
theorem crypto_delivered_reordered :
    (([.receive ⟨0, true, [.crypto 1 [2, 3] true takesAll, .crypto 0 [1] true takesAll], true⟩,
      .treat fun _ => takesAll] : List RxAct).foldl CryptoRx.step .init).given <+: [1, 2, 3] := by
  refine (crypto_delivered [1, 2, 3] _ ?_ ?_ ?_).1
  · intro act hact
    rcases List.mem_cons.mp hact with rfl | hact
    · refine ⟨fun frm hfrm => ?_⟩
      rcases List.mem_cons.mp hfrm with rfl | hfrm
      · exact ⟨by decide, rfl⟩
      · obtain rfl := List.mem_singleton.mp hfrm
        exact ⟨by decide, rfl⟩
    · obtain rfl := List.mem_singleton.mp hact
      exact trivial
  · intro act hact
    rcases List.mem_cons.mp hact with rfl | hact
    · refine ⟨fun frm hfrm => ?_, rfl⟩
      rcases List.mem_cons.mp hfrm with rfl | hfrm
      · rfl
      · obtain rfl := List.mem_singleton.mp hfrm
        rfl
    · obtain rfl := List.mem_singleton.mp hact
      exact fun _ => rfl
  · refine ⟨trivial, ⟨?_, ?_⟩, trivial⟩
    · intro pkt hpkt
      obtain rfl := Option.some.inj hpkt
      have hwait : ∀ n ∈ ([(1, [2, 3])] : List (ℕ × List UInt8)), 0 + 1 ≤ n.1 := by decide
      exact ⟨fun _ => ⟨fun _ => (by decide : 0 < 1), fun _ => ⟨hwait, fun _ => trivial⟩⟩, trivial⟩
    · intro key data hfirst hkey
      obtain ⟨rfl, rfl⟩ := Prod.mk.inj (Option.some.inj hfirst)
      exact ⟨fun n hn => absurd hn List.not_mem_nil, trivial⟩

/-- The first byte of three comes twice, the second time together with the third one, and then
the second byte. -/
def retransmitted : List RxAct :=
  [.receive (cryptoPkt 0 0 [1]), .treat fun _ => takesAll, .receive (cryptoPkt 1 0 [1]),
    .receive (cryptoPkt 2 2 [3]), .treat fun _ => takesAll, .receive (cryptoPkt 3 1 [2]),
    .treat fun _ => takesAll]

/-- All bytes have been received, but the third one waits behind the first. -/
theorem not_crypto_delivered :
    ¬ ∀ (S : List UInt8) (acts : List RxAct), (∀ act ∈ acts, act.CutFrom S) →
      (∀ act ∈ acts, act.Quiet) →
        (acts.foldl CryptoRx.step .init).given <+: S ∧
          ∀ pre ssl, acts = pre ++ [.treat ssl] →
            (acts.foldl CryptoRx.step .init).Delivered := by
  intro hall
  have hdone := (hall [1, 2, 3] retransmitted
    (by
      simp only [retransmitted, List.forall_mem_cons]
      exact ⟨cutFrom_cryptoPkt ⟨by decide, rfl⟩, trivial, cutFrom_cryptoPkt ⟨by decide, rfl⟩,
        cutFrom_cryptoPkt ⟨by decide, rfl⟩, trivial, cutFrom_cryptoPkt ⟨by decide, rfl⟩, trivial,
        fun _ hnil => absurd hnil List.not_mem_nil⟩)
    (by
      simp only [retransmitted, List.forall_mem_cons]
      exact ⟨quiet_cryptoPkt .., fun _ => rfl, quiet_cryptoPkt .., quiet_cryptoPkt ..,
        fun _ => rfl, quiet_cryptoPkt .., fun _ => rfl,
        fun _ hnil => absurd hnil List.not_mem_nil⟩)).2 (retransmitted.take 6) _ rfl
  exact hdone.longest ⟨(2, [3]), by decide, ⟨by decide, by decide⟩⟩

/-- What is given is a beginning of the stream, and what has been received is given or waits: no
byte is lost, given twice or given in another order, whether or not the steps meet the condition. -/
theorem crypto_conserved (S : List UInt8) (acts : List RxAct) (hcut : ∀ act ∈ acts, act.CutFrom S)
    (hquiet : ∀ act ∈ acts, act.Quiet) :
    (acts.foldl CryptoRx.step .init).given <+: S ∧
      ∀ i, (acts.foldl CryptoRx.step .init).Received i ↔
        i < (acts.foldl CryptoRx.step .init).given.length ∨
          ∃ n ∈ (acts.foldl CryptoRx.step .init).frms.nodes, Covers n i := by
  have hinv := ((inv_init S).run hcut hquiet).1
  have hlen := congrArg List.length hinv.given
  rw [List.length_take, Nat.min_eq_left hinv.offset] at hlen
  refine ⟨hinv.given ▸ List.take_prefix _ S, ?_⟩
  rw [hlen]
  exact hinv.received

/-- The second half comes first, and twice, and the first byte behind it. -/
def reordered : List RxAct :=
  [.receive (cryptoPkt 0 1 [2, 3]), .treat fun _ => takesAll, .receive (cryptoPkt 1 1 [2, 3]),
    .receive (cryptoPkt 2 0 [1]), .treat fun _ => takesAll]

/-- The stream is given once, and the second copy waits. -/
theorem crypto_conserved_reordered :
    (reordered.foldl CryptoRx.step .init).given = [1, 2, 3] ∧
      (reordered.foldl CryptoRx.step .init).frms.nodes = [(1, [2, 3])] ∧
      (reordered.foldl CryptoRx.step .init).given <+: [1, 2, 3] ∧
      ∀ i, (reordered.foldl CryptoRx.step .init).Received i ↔
        i < 3 ∨ ∃ n ∈ [(1, ([2, 3] : List UInt8))], Covers n i := by
  obtain ⟨hgiven, hreceived⟩ := crypto_conserved [1, 2, 3] reordered
    (by
      simp only [reordered, List.forall_mem_cons]
      exact ⟨cutFrom_cryptoPkt ⟨by decide, rfl⟩, trivial, cutFrom_cryptoPkt ⟨by decide, rfl⟩,
        cutFrom_cryptoPkt ⟨by decide, rfl⟩, trivial, fun _ hnil => absurd hnil List.not_mem_nil⟩)
    (by
      simp only [reordered, List.forall_mem_cons]
      exact ⟨quiet_cryptoPkt .., fun _ => rfl, quiet_cryptoPkt .., quiet_cryptoPkt ..,
        fun _ => rfl, fun _ hnil => absurd hnil List.not_mem_nil⟩)
  exact ⟨by decide, by decide, hgiven, hreceived⟩

/-! ### A frame below the offset -/

/-- The frames `l` wait, and one of them begins below the current offset. -/
def CryptoRx.Stuck (l : List (ℕ × List UInt8)) (s : CryptoRx) : Prop :=
  (∀ n ∈ l, n ∈ s.frms.nodes) ∧ ∃ n ∈ l, n.1 < s.offset

variable {l : List (ℕ × List UInt8)}

/-- **No frame leaves the tree** any more. -/
theorem treatRxCryptoFrms_of_stuck (h : s.Stuck l) (ssl : ℕ → SslAnswer) :
    s.treatRxCryptoFrms ssl = (true, s) := by
  obtain ⟨hl, n, hn, hlt⟩ := h
  replace hn := hl n hn
  obtain ⟨⟨key, data⟩, l, hl⟩ := List.exists_cons_of_ne_nil (List.ne_nil_of_mem hn)
  have hsorted := s.frms.sorted
  have hle : key ≤ n.1 := by
    rw [hl] at hsorted hn
    rcases List.mem_cons.mp hn with rfl | hn
    · exact Nat.le_refl _
    · exact (List.pairwise_cons.mp hsorted).1 n hn
  have hfirst : s.frms.firstNode = some (key, data) := by
    rw [EbTree.firstNode, hl]
    rfl
  rw [CryptoRx.treatRxCryptoFrms, hl, List.length_cons, CryptoRx.treatRxCryptoFrmsLoop, hfirst]
  exact if_pos (by omega)

theorem CryptoRx.Stuck.parseFrm (h : s.Stuck l) (frm : RxFrame) :
    (s.parseFrm frm).2.Stuck l := by
  obtain ⟨hl, n, hn, hlt⟩ := h
  cases frm with
  | other accepted => exact ⟨hl, n, hn, hlt⟩
  | crypto offset data alloc ssl =>
    rw [CryptoRx.parseFrm, CryptoRx.provideCdata]
    split_ifs
    · exact ⟨fun m hm => EbTree.mem_nodes_insert.mpr (.inr (hl m hm)), n, hn, hlt⟩
    · exact ⟨hl, n, hn, hlt⟩
    · exact ⟨hl, n, hn, Nat.lt_of_lt_of_le hlt (Nat.le_add_right _ _)⟩
    · exact ⟨hl, n, hn, hlt⟩

theorem CryptoRx.Stuck.treatRxPkt (h : s.Stuck l) (pkt : RxPacket) :
    (s.treatRxPkt pkt).2.Stuck l := by
  have hfrms : ∀ frms : List RxFrame, (s.parsePktFrms frms).2.Stuck l := by
    intro frms
    induction frms generalizing s with
    | nil => exact h
    | cons frm frms ih =>
      rw [parsePktFrms_cons]
      split_ifs
      · exact ih (h.parseFrm frm)
      · exact h.parseFrm frm
  rw [CryptoRx.treatRxPkt]
  split_ifs
  · exact hfrms pkt.frms
  · exact h

/-- **It stays so**, whatever happens. -/
theorem CryptoRx.Stuck.step (h : s.Stuck l) (act : RxAct) : (s.step act).Stuck l := by
  have hloop : ∀ turns, (CryptoRx.treatRxPktsLoop turns s).2.Stuck l := by
    intro turns
    induction turns generalizing s with
    | zero => exact h
    | succ turns ih =>
      rw [CryptoRx.treatRxPktsLoop]
      rcases s.pkts.first with - | pkt
      · exact h
      · have hpkt := h.treatRxPkt pkt
        dsimp only
        rcases hrun : s.treatRxPkt pkt with ⟨- | -, s'⟩
        · rw [hrun] at hpkt
          exact hpkt
        · rw [hrun] at hpkt
          exact ih hpkt
  cases act with
  | receive pkt => exact h
  | treat ssl =>
    have hall := hloop s.pkts.nodes.length
    rw [CryptoRx.step, CryptoRx.treatRxPkts]
    rcases hrun : CryptoRx.treatRxPktsLoop s.pkts.nodes.length s with ⟨- | -, s'⟩
    · rw [hrun] at hall
      exact hall
    · rw [hrun] at hall
      dsimp only
      rw [treatRxCryptoFrms_of_stuck hall]
      exact hall

/-- Once a frame waits below the current offset, all that waits waits for ever: whatever packets
arrive and whatever the TLS stack answers, no frame leaves the tree. -/
theorem crypto_stuck (h : ∃ n ∈ s.frms.nodes, n.1 < s.offset) (acts : List RxAct) :
    (acts.foldl CryptoRx.step s).Stuck s.frms.nodes := by
  -- the frames are those at the start, while the state goes on
  have hstuck : s.Stuck s.frms.nodes := ⟨fun _ hn => hn, h⟩
  clear h
  generalize s.frms.nodes = l at hstuck
  induction acts generalizing s with
  | nil => exact hstuck
  | cons act acts ih => exact ih (hstuck.step act)

/-- The third byte of the retransmitted stream still waits when it has been sent once more. -/
theorem crypto_stuck_retransmitted : (2, [3]) ∈
    (([.receive (cryptoPkt 4 2 [3]), .treat fun _ => takesAll] : List RxAct).foldl CryptoRx.step
      (retransmitted.foldl CryptoRx.step .init)).frms.nodes :=
  (crypto_stuck ⟨(0, [1]), by decide, by decide⟩ _).1 (2, [3]) (by decide)

/-! ### The bytes of a packet -/

/-- The frame at the place `beg` of a payload. -/
def QuicFrame.rx (ctx : PktCtx) (beg : ℕ) (accepted : Bool) : QuicFrame → RxFrame
  | .crypto offset bytes => .crypto offset bytes (ctx.alloc beg) (ctx.ssl beg)
  | _ => .other accepted

/-- The same offset, and the same frames that wait. -/
structure Simulates (s : CryptoRx) (p : PktState) : Prop where
  offset : s.offset = p.cryptoOffset
  frms : s.frms.nodes.Perm p.cryptoFrms

theorem simulates_qcProvideCdata (h : Simulates s p) (ctx : PktCtx) (offset : ℕ) (data : List UInt8)
    (ssl : SslAnswer) :
    ((s.take offset data).provideCdata data ssl).1 = (qcProvideCdata ctx ssl p data.length).1 ∧
      Simulates ((s.take offset data).provideCdata data ssl).2
        (qcProvideCdata ctx ssl p data.length).2 := by
  have hoff : s.offset + data.length = p.cryptoOffset + data.length := by rw [h.offset]
  rcases ssl with ⟨- | -, handshake⟩
  · exact ⟨rfl, h.offset, h.frms⟩
  · rcases handshake with - | - | -
    · rw [qcProvideCdata, if_neg (not_not.mpr rfl)]
      dsimp only
      split_ifs <;> exact ⟨rfl, hoff, h.frms⟩
    · exact ⟨rfl, hoff, h.frms⟩
    · exact ⟨rfl, hoff, h.frms⟩

/-- **The frames of the bytes of a packet** do the same. -/
theorem simulates_pktFrmSwitch (h : Simulates s p) (ctx : PktCtx) (data : List UInt8) (beg : ℕ)
    (frm : QuicFrame) (n : ℕ) :
    (s.parseFrm (frm.rx ctx beg (pktFrmSwitch ctx data beg p frm n).1)).1 =
        (pktFrmSwitch ctx data beg p frm n).1 ∧
      Simulates (s.parseFrm (frm.rx ctx beg (pktFrmSwitch ctx data beg p frm n).1)).2
        (pktFrmSwitch ctx data beg p frm n).2.1 := by
  cases frm with
  | crypto offset bytes =>
    rw [QuicFrame.rx, pktFrmSwitch, CryptoRx.parseFrm, ← h.offset]
    by_cases hoff : offset = s.offset
    · rw [if_neg (not_not.mpr hoff), if_neg (not_not.mpr hoff)]
      exact simulates_qcProvideCdata h ctx offset bytes (ctx.ssl beg)
    · rw [if_pos hoff, if_pos hoff]
      rcases ctx.alloc beg with - | -
      · exact ⟨rfl, h⟩
      · rw [if_pos rfl, if_pos rfl]
        refine ⟨rfl, rfl, ?_⟩
        exact (s.frms.nodes_insert_perm offset bytes).trans
          ((h.frms.cons _).trans (List.perm_append_singleton _ _).symm)
  | ack ack =>
    refine ⟨rfl, ?_⟩
    show Simulates s (pktFrmSwitch ctx data beg p (.ack ack) n).2.1
    rw [pktFrmSwitch]
    split
    · exact ⟨h.offset, h.frms⟩
    · exact ⟨h.offset, h.frms⟩
  | stream id offset bytes =>
    refine ⟨rfl, ?_⟩
    show Simulates s (pktFrmSwitch ctx data beg p (.stream id offset bytes) n).2.1
    rw [pktFrmSwitch]
    split_ifs <;> exact h
  | handshakeDone =>
    refine ⟨rfl, ?_⟩
    show Simulates s (pktFrmSwitch ctx data beg p .handshakeDone n).2.1
    rw [pktFrmSwitch]
    split_ifs
    · exact h
    · exact ⟨h.offset, h.frms⟩
  | _ => exact ⟨rfl, h⟩

/-- The frames of a payload, from the place `n` on and in the state `p`, as they are read one after
the other: all of them, or up to one that is not read or not accepted. -/
inductive RxFrms (ctx : PktCtx) (data : List UInt8) : PktState → ℕ → List RxFrame → Prop
  | done {p : PktState} {n : ℕ} (h : ¬ n < data.length) : RxFrms ctx data p n []
  | fails {p : PktState} {n m : ℕ} (h : qcParseFrm ctx.pktType data n = .ok (none, m)) :
      RxFrms ctx data p n [.other false]
  | rejected {p p' : PktState} {n m m' : ℕ} {frm : QuicFrame} {ackEliciting : Bool}
      (h : qcParseFrm ctx.pktType data n = .ok (some (frm, ackEliciting), m))
      (hswitch : pktFrmSwitch ctx data n
        { p with ackEliciting := p.ackEliciting || ackEliciting } frm m = (false, p', m')) :
      RxFrms ctx data p n [frm.rx ctx n false]
  | accepted {p p' : PktState} {n m m' : ℕ} {frm : QuicFrame} {ackEliciting : Bool}
      {frms : List RxFrame} (h : qcParseFrm ctx.pktType data n = .ok (some (frm, ackEliciting), m))
      (hswitch : pktFrmSwitch ctx data n
        { p with ackEliciting := p.ackEliciting || ackEliciting } frm m = (true, p', m'))
      (hrest : RxFrms ctx data p' m' frms) : RxFrms ctx data p n (frm.rx ctx n true :: frms)

/-- **The loop over the bytes** does what the loop over the frames does. -/
theorem simulates_qcParsePktFrmsLoop (ctx : PktCtx) (data : List UInt8) {n m : ℕ} {p' : PktState}
    {ok : Bool} (h : Simulates s p)
    (hrun : qcParsePktFrmsLoop ctx data turns p n = some (.ok (ok, p', m))) :
    ∃ frms, RxFrms ctx data p n frms ∧ (s.parsePktFrms frms).1 = ok ∧
      Simulates (s.parsePktFrms frms).2 p' := by
  induction turns generalizing s p n with
  | zero =>
    rw [qcParsePktFrmsLoop] at hrun
    split_ifs at hrun with hn
    obtain ⟨rfl, rfl, -⟩ : true = ok ∧ p = p' ∧ n = m := by simpa using hrun
    exact ⟨[], .done hn, rfl, h⟩
  | succ turns ih =>
    rw [qcParsePktFrmsLoop] at hrun
    split_ifs at hrun with hn
    · rcases hfrm : qcParseFrm ctx.pktType data n with e | ⟨- | ⟨frm, ackEliciting⟩, m₁⟩
      · rw [pktFrmStep, hfrm] at hrun
        cases hrun
      · rw [pktFrmStep, hfrm] at hrun
        obtain ⟨rfl, rfl, -⟩ : false = ok ∧ p = p' ∧ m₁ = m := by simpa using hrun
        exact ⟨_, .fails hfrm, rfl, h⟩
      · rw [pktFrmStep, hfrm] at hrun
        obtain ⟨haccepted, hsim⟩ := simulates_pktFrmSwitch
          (p := { p with ackEliciting := p.ackEliciting || ackEliciting })
          ⟨h.offset, h.frms⟩ ctx data n frm m₁
        dsimp only at hrun
        rcases hswitch : pktFrmSwitch ctx data n
          { p with ackEliciting := p.ackEliciting || ackEliciting } frm m₁ with ⟨- | -, p₂, m₂⟩
        · rw [hswitch] at hrun haccepted hsim
          obtain ⟨rfl, rfl, -⟩ : false = ok ∧ p₂ = p' ∧ m₂ = m := by simpa using hrun
          -- the frame is not accepted: neither loop goes on
          refine ⟨[frm.rx ctx n false], .rejected hfrm hswitch, ?_⟩
          rw [parsePktFrms_cons, haccepted]
          exact ⟨rfl, hsim⟩
        · rw [hswitch] at hrun haccepted hsim
          obtain ⟨frms, hread, hok, hsim'⟩ := ih hsim hrun
          refine ⟨frm.rx ctx n true :: frms, .accepted hfrm hswitch hread, ?_⟩
          rw [parsePktFrms_cons, haccepted]
          exact ⟨hok, hsim'⟩
    · obtain ⟨rfl, rfl, -⟩ : true = ok ∧ p = p' ∧ n = m := by simpa using hrun
      exact ⟨[], .done hn, rfl, h⟩

/-- `qc_parse_pkt_frms` does with the bytes of a packet what the loop over the frames does with
those that it reads. -/
theorem simulates_qcParsePktFrms (ctx : PktCtx) (data : List UInt8) {m : ℕ} {p' : PktState}
    {ok : Bool} (h : Simulates s p) (hrun : qcParsePktFrms ctx data p = some (.ok (ok, p', m))) :
    ∃ frms, RxFrms ctx data p 0 frms ∧ (s.parsePktFrms frms).1 = ok ∧
      Simulates (s.parsePktFrms frms).2 p' :=
  simulates_qcParsePktFrmsLoop ctx data h hrun

/-- A packet with CRYPTO data of two bytes at the place 3, in the Handshake space. -/
theorem simulates_qcParsePktFrms_handshake : ∃ frms,
    RxFrms { listenerCtx with pktType := .handshake } [0x06, 3, 2, 7, 8]
        ⟨newConn, .confirmed, 0, [], false⟩ 0 frms ∧
      (CryptoRx.init.parsePktFrms frms).1 = true ∧ Simulates (CryptoRx.init.parsePktFrms frms).2
        ⟨newConn, .confirmed, 0, [(3, [7, 8])], true⟩ :=
  simulates_qcParsePktFrms (m := 5) (p := ⟨newConn, .confirmed, 0, [], false⟩)
    { listenerCtx with pktType := .handshake } _ ⟨rfl, .refl _⟩ rfl

end Quic

end SmartHAProxy
