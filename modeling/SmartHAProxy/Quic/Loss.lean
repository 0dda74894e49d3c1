/-
Which packets `qc_packet_loss_lookup` takes for lost (xprt_quic.c).

A packet below the largest acknowledged one is lost when it was sent long enough ago, or
when three later numbers have been acknowledged.  The loop compares the date at which the
packet was sent with the current one, and not the date plus the delay: as packets are not
sent in the future, it takes all of them (`qcPacketLossLookup_eq`).  `lossDetected_iff`
says when this is right.
-/
import SmartHAProxy.Quic.Ack

namespace SmartHAProxy

namespace Quic

/-! ### The rule -/

def lossDelay (ql : QuicLoss) : UInt32 :=
  let delay := max ql.latestRtt (ql.srtt >>> 3)
  max (delay + (delay >>> 3)) 1

/-- The packet was sent at least `loss_delay` ago, or its number is at least 3
(`QUIC_LOSS_PACKET_THRESHOLD`) below the largest acknowledged one. -/
def IsLost (now : UInt32) (ql : QuicLoss) (largestAckedPn : ℤ) (pkt : ℕ × QuicTxPacket) : Prop :=
  (lossDelay ql).toNat ≤ (now - pkt.2.timeSent).toNat ∨ (pkt.1 : ℤ) + 3 ≤ largestAckedPn

instance IsLost.decidable (now : UInt32) (ql : QuicLoss) (largestAckedPn : ℤ)
    (pkt : ℕ × QuicTxPacket) : Decidable (IsLost now ql largestAckedPn pkt) :=
  inferInstanceAs (Decidable (_ ∨ _))

/-- The earliest of the dates at which the packets will be lost; 0 without packets. -/
def EarliestLoss (ql : QuicLoss) (kept : List (ℕ × QuicTxPacket)) (lossTime : UInt32) : Prop :=
  kept = [] ∧ lossTime = 0 ∨
    ∃ pkt ∈ kept, lossTime = tickAdd pkt.2.timeSent (lossDelay ql) ∧
      ∀ pkt' ∈ kept, tickIsLe lossTime (tickAdd pkt'.2.timeSent (lossDelay ql)) = true

/-- The packets up to the largest acknowledged one that are lost leave the tree, the others
stay, and `loss_time` is the earliest date at which one of those will be lost. -/
def LossDetected (now : UInt32) (ql : QuicLoss) (tx : QuicPktnsTx) : Prop :=
  let lost := fun pkt : ℕ × QuicTxPacket =>
    (pkt.1 : ℤ) ≤ tx.largestAckedPn ∧ IsLost now ql tx.largestAckedPn pkt
  let kept := fun pkt : ℕ × QuicTxPacket =>
    (pkt.1 : ℤ) ≤ tx.largestAckedPn ∧ ¬ IsLost now ql tx.largestAckedPn pkt
  let r := qcPacketLossLookup now ql tx
  r.2 = tx.pkts.nodes.filter (fun pkt => lost pkt) ∧
    r.1.pkts.nodes = tx.pkts.nodes.filter (fun pkt => ¬ lost pkt) ∧
    EarliestLoss ql (tx.pkts.nodes.filter fun pkt => kept pkt) r.1.lossTime

/-! ### The loop -/

theorem tickIsLe_of_past {t now : UInt32} (h : (now - t).toNat ≤ 2 ^ 30) :
    tickIsLe t now = true := by
  rw [tickIsLe, Bool.or_eq_true, signBit, decide_eq_true_iff, beq_iff_eq, ← UInt32.toNat_inj]
  rw [UInt32.toNat_sub] at h ⊢
  have ht := t.toNat_lt
  have hn := now.toNat_lt
  show _ ∨ _ = 0
  omega

/-- The loop takes every packet up to the largest acknowledged one. -/
theorem packetLossLoop_eq {now delay : UInt32} (la : ℤ) {nodes : List (ℕ × QuicTxPacket)}
    (hpast : ∀ n ∈ nodes, tickIsLe n.2.timeSent now = true)
    (hsorted : nodes.Pairwise fun a b => a.1 < b.1) (tx : QuicPktnsTx)
    (lost : List (ℕ × QuicTxPacket)) :
    (packetLossLoop now delay la nodes tx lost).2 =
        lost ++ nodes.filter (fun n => (n.1 : ℤ) ≤ la) ∧
      (packetLossLoop now delay la nodes tx lost).1.lossTime = tx.lossTime ∧
      (packetLossLoop now delay la nodes tx lost).1.pkts.nodes =
        tx.pkts.nodes.filter
          (fun n => n.1 ∉ (nodes.filter (fun m => (m.1 : ℤ) ≤ la)).map Prod.fst) := by
  induction nodes generalizing tx lost with
  | nil => simp [packetLossLoop]
  | cons node nodes ih =>
    rw [List.pairwise_cons] at hsorted
    by_cases hla : la < node.1
    · -- the packets that follow have higher numbers
      have hall : ∀ n ∈ node :: nodes, ¬ (n.1 : ℤ) ≤ la := by
        intro n hn
        rcases List.mem_cons.mp hn with rfl | hn
        · omega
        · have := hsorted.1 n hn
          omega
      have hnone : (node :: nodes).filter (fun n => (n.1 : ℤ) ≤ la) = [] :=
        List.filter_eq_nil_iff.mpr (by simpa using hall)
      rw [packetLossLoop, if_pos hla, hnone]
      refine ⟨(List.append_nil lost).symm, rfl, ?_⟩
      symm
      rw [List.filter_eq_self]
      intro n _
      simp
    · have hnode : tickIsLe node.2.timeSent now = true := hpast node List.mem_cons_self
      rw [packetLossLoop, if_neg hla, if_pos (.inl hnode)]
      obtain ⟨h1, h2, h3⟩ := ih (fun n hn => hpast n (List.mem_cons_of_mem _ hn)) hsorted.2
        { tx with pkts := tx.pkts.delete node.1 } (lost ++ [node])
      have htake : (node :: nodes).filter (fun n => (n.1 : ℤ) ≤ la) =
          node :: nodes.filter (fun n => (n.1 : ℤ) ≤ la) :=
        List.filter_cons_of_pos (by simpa using hla)
      rw [htake]
      refine ⟨?_, h2, ?_⟩
      · rw [h1, List.append_assoc]
        rfl
      · rw [h3]
        show List.filter _ (List.filter _ _) = _
        rw [List.filter_filter]
        apply List.filter_congr
        intro n _
        rw [List.map_cons, ← Bool.decide_and, decide_eq_decide, List.mem_cons, not_or]
        exact and_comm

/-- **All packets up to the largest acknowledged one are taken for lost.** -/
theorem qcPacketLossLookup_eq {now : UInt32} (ql : QuicLoss) {tx : QuicPktnsTx}
    (hpast : ∀ n ∈ tx.pkts.nodes, (now - n.2.timeSent).toNat ≤ 2 ^ 30) :
    (qcPacketLossLookup now ql tx).2 =
        tx.pkts.nodes.filter (fun n => (n.1 : ℤ) ≤ tx.largestAckedPn) ∧
      (qcPacketLossLookup now ql tx).1.lossTime = 0 ∧
      (qcPacketLossLookup now ql tx).1.pkts.nodes =
        tx.pkts.nodes.filter (fun n => ¬ (n.1 : ℤ) ≤ tx.largestAckedPn) := by
  rw [qcPacketLossLookup]
  dsimp only
  split_ifs with hempty
  · simp [hempty]
  · obtain ⟨h1, h2, h3⟩ := packetLossLoop_eq tx.largestAckedPn
      (fun n hn => tickIsLe_of_past (hpast n hn)) tx.pkts.sorted { tx with lossTime := 0 } []
    refine ⟨h1, h2, h3.trans ?_⟩
    apply List.filter_congr
    intro n hn
    rw [decide_eq_decide, not_iff_not]
    constructor
    · -- a number that is taken is the number of this packet
      intro hm
      obtain ⟨m, hm, hmn⟩ := List.mem_map.mp hm
      have hle : (m.1 : ℤ) ≤ tx.largestAckedPn := by simpa using (List.mem_filter.mp hm).2
      rw [← hmn]
      exact hle
    · exact fun hle => List.mem_map_of_mem (List.mem_filter.mpr ⟨hn, by simpa using hle⟩)

/-! ### The exact condition -/

/-- **Losses are detected as they should** exactly if every packet up to the largest
acknowledged one is lost. -/
theorem lossDetected_iff {now : UInt32} {ql : QuicLoss} {tx : QuicPktnsTx}
    (hpast : ∀ n ∈ tx.pkts.nodes, (now - n.2.timeSent).toNat ≤ 2 ^ 30) :
    LossDetected now ql tx ↔
      ∀ n ∈ tx.pkts.nodes, (n.1 : ℤ) ≤ tx.largestAckedPn → IsLost now ql tx.largestAckedPn n := by
  obtain ⟨h1, h2, h3⟩ := qcPacketLossLookup_eq ql hpast
  rw [LossDetected]
  dsimp only
  rw [h1, h2, h3]
  constructor
  · rintro ⟨hlost, -, -⟩ n hn hle
    have hmem : n ∈ tx.pkts.nodes.filter (fun n => (n.1 : ℤ) ≤ tx.largestAckedPn) :=
      List.mem_filter.mpr ⟨hn, decide_eq_true hle⟩
    rw [hlost] at hmem
    exact (of_decide_eq_true (List.mem_filter.mp hmem).2).2
  · intro hall
    refine ⟨?_, ?_, .inl ⟨?_, rfl⟩⟩
    · apply List.filter_congr
      intro n hn
      rw [decide_eq_decide]
      exact ⟨fun hle => ⟨hle, hall n hn hle⟩, fun h => h.1⟩
    · apply List.filter_congr
      intro n hn
      rw [decide_eq_decide, not_iff_not]
      exact ⟨fun hle => ⟨hle, hall n hn hle⟩, fun h => h.1⟩
    · rw [List.filter_eq_nil_iff]
      intro n hn
      rw [decide_eq_true_iff]
      exact fun h => h.2 (hall n hn h.1)

/-- A packet with the number 1, sent at the date 1000. -/
def onePacket : EbUniq ℕ QuicTxPacket :=
  EbUniq.empty.insert 1 ⟨100, 0, [], 1000, txPacketAckEliciting⟩

def steadyRtt : QuicLoss := ⟨100, 800, 50, 100, 0⟩

/-- The packet 1 is sent, and the packet 2 acknowledged. -/
def oneInFlight : QuicPktnsTx := ⟨[], 3, 2, onePacket, 1000, 0, 0, 100⟩

/-- 200 ms later the packet is lost, and this is detected. -/
theorem lossDetected_late : LossDetected 1200 steadyRtt oneInFlight :=
  (lossDetected_iff (by decide)).mpr (by decide)

/-- 1 ms later it is not lost, and yet it is taken for lost. -/
theorem not_lossDetected : ¬ LossDetected 1001 steadyRtt oneInFlight := by
  rintro ⟨hlost, -⟩
  exact absurd hlost (by decide)

end Quic

end SmartHAProxy
