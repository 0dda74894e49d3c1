/-
An ACK frame means the same to both ends.

`ackRangesLoop_spec`: reading the ranges of a frame takes exactly the packets with a number
in one of them out of the tree, whatever packets are missing there.  What is done with lost
packets afterwards does not take any other packet for acknowledged (`ackDone_spec`).

`ackFrame_agrees_iff` says for which limits a frame that has been cut down is the frame that
was promised: those that do not cut it down, and those that make the call fail.
-/
import SmartHAProxy.Quic.Ack
import SmartHAProxy.Quic.AckReduce

namespace SmartHAProxy

variable {n limit : ℕ} {s : AckPass} {largestNode : Option (ℕ × QuicTxPacket)} {ar : ℕ × ℕ}
  {txAck : QuicTxAck}

namespace Quic

open RangeSet

/-! ### One range -/

/-- A packet whose frames have been freed. -/
def freed (n : ℕ × QuicTxPacket) : ℕ × QuicTxPacket := (n.1, { n.2 with frms := [] })

/-- The lookups end at the highest packet of the range, if there is one. -/
theorem lookupDown_spec (pkts : EbUniq ℕ QuicTxPacket) {largest : ℕ} (hn : n ≤ largest) :
    (∀ node, lookupDown pkts largest n = some node →
      node ∈ pkts.nodes ∧ largest - n ≤ node.1 ∧ node.1 ≤ largest ∧
        ∀ a ∈ pkts.nodes, a.1 ≤ largest → a.1 ≤ node.1) ∧
    (lookupDown pkts largest n = none →
      ∀ a ∈ pkts.nodes, ¬ (largest - n ≤ a.1 ∧ a.1 ≤ largest)) := by
  induction n generalizing largest with
  | zero =>
    constructor
    · intro node h
      obtain ⟨pkt, hpkt, rfl⟩ := Option.map_eq_some_iff.mp h
      exact ⟨EbUniq.lookup_eq_some.mp hpkt, Nat.le_refl _, Nat.le_refl _, fun _ _ h => h⟩
    · intro h a ha hrange
      have hkey := EbUniq.lookup_eq_none.mp (Option.map_eq_none_iff.mp h) a ha
      omega
  | succ n ih =>
    rw [lookupDown]
    cases hfind : pkts.lookup largest with
    | some pkt =>
      refine ⟨fun node h => ?_, nofun⟩
      obtain rfl := Option.some.inj h
      exact ⟨EbUniq.lookup_eq_some.mp hfind, Nat.sub_le _ _, Nat.le_refl _, fun _ _ h => h⟩
    | none =>
      have hnot := EbUniq.lookup_eq_none.mp hfind
      obtain ⟨hsome, hnone⟩ := ih (show n ≤ largest - 1 by omega)
      constructor
      · intro node h
        obtain ⟨hmem, hlow, hhigh, hmax⟩ := hsome node h
        refine ⟨hmem, by omega, by omega, fun a ha hle => hmax a ha ?_⟩
        have hne := hnot a ha
        omega
      · intro h a ha hrange
        have hne := hnot a ha
        exact hnone h a ha (by omega)

/-- The loop takes the packets in front of a place out, down to `smallest`. -/
theorem ackrngLoop_spec (smallest : ℕ) {fuel : ℕ} {pre post : List (ℕ × QuicTxPacket)}
    (h : s.pkts.nodes = pre ++ post) (hfuel : pre.length ≤ fuel) :
    (ackrngLoop smallest fuel pre.getLast? s).pkts.nodes = pre.filter (·.1 < smallest) ++ post ∧
      (ackrngLoop smallest fuel pre.getLast? s).newlyAcked =
        (pre.filter (smallest ≤ ·.1)).map freed ++ s.newlyAcked := by
  induction pre using List.reverseRecOn generalizing s post fuel with
  | nil => cases fuel <;> exact ⟨h, rfl⟩
  | append_singleton pre node ih =>
    obtain ⟨fuel, rfl, hfuel'⟩ := exists_succ_of_concat_le hfuel
    have hsplit : s.pkts.nodes = pre ++ node :: post := by
      rw [h, List.append_assoc]
      rfl
    obtain ⟨hkeys, -⟩ := EbUniq.keys_lt_of_split hsplit
    rw [List.getLast?_concat, ackrngLoop]
    by_cases hstop : node.1 < smallest
    · have hall : ∀ a ∈ pre ++ [node], a.1 < smallest := by
        intro a ha
        rcases List.mem_append.mp ha with ha | ha
        · exact (hkeys a ha).trans hstop
        · obtain rfl := List.mem_singleton.mp ha
          exact hstop
      rw [if_pos hstop, List.filter_eq_self.mpr, List.filter_eq_nil_iff.mpr]
      · exact ⟨h, rfl⟩
      · exact fun a ha => by simpa using hall a ha
      · exact fun a ha => decide_eq_true (hall a ha)
    · rw [if_neg hstop, EbUniq.prev_of_split hsplit]
      obtain ⟨hnodes, hacked⟩ := ih (s := AckPass.mk (s.pkts.delete node.1)
        (s.pktFlags ||| node.2.flags) (freed node :: s.newlyAcked))
        (EbUniq.nodes_delete_of_split hsplit) hfuel'
      rw [List.filter_append, List.filter_append, List.filter_cons_of_neg (by simpa using hstop),
        List.filter_cons_of_pos (by simpa using hstop), List.filter_nil, List.filter_nil,
        List.append_nil, List.map_append]
      refine ⟨hnodes, hacked.trans ?_⟩
      rw [List.append_assoc]
      rfl

/-- **One range**: its packets go from the tree to the acknowledged ones. -/
theorem qcAckrngPkts_spec {largest smallest : ℕ} (hle : smallest ≤ largest)
    (hnode : ∀ node, largestNode = some node → node ∈ s.pkts.nodes ∧ node.1 = largest) :
    (∀ n, n ∈ (qcAckrngPkts s largestNode largest smallest).pkts.nodes ↔
      n ∈ s.pkts.nodes ∧ ¬ (smallest ≤ n.1 ∧ n.1 ≤ largest)) ∧
    (∀ n, n ∈ (qcAckrngPkts s largestNode largest smallest).newlyAcked ↔
      n ∈ s.newlyAcked ∨ ∃ m ∈ s.pkts.nodes, (smallest ≤ m.1 ∧ m.1 ≤ largest) ∧ n = freed m) := by
  obtain ⟨hsome, hnone⟩ := lookupDown_spec s.pkts (Nat.sub_le largest smallest)
  -- the node where the loop starts is the highest one of the range, however it is found
  obtain ⟨node, hfind, hprop⟩ : ∃ node, ackrngFirst s.pkts largestNode largest smallest = node ∧
      (∀ n, node = some n → n ∈ s.pkts.nodes ∧ smallest ≤ n.1 ∧ n.1 ≤ largest ∧
        ∀ a ∈ s.pkts.nodes, a.1 ≤ largest → a.1 ≤ n.1) ∧
      (node = none → ∀ a ∈ s.pkts.nodes, ¬ (smallest ≤ a.1 ∧ a.1 ≤ largest)) := by
    refine ⟨_, rfl, ?_⟩
    have hback : largest - (largest - smallest) = smallest := Nat.sub_sub_self hle
    rw [hback] at hsome hnone
    cases largestNode with
    | none => exact ⟨hsome, hnone⟩
    | some n =>
      refine ⟨fun n' hn' => ?_, nofun⟩
      obtain rfl := Option.some.inj hn'
      obtain ⟨hmem, rfl⟩ := hnode n rfl
      exact ⟨hmem, hle, Nat.le_refl _, fun _ _ h => h⟩
  rw [qcAckrngPkts, hfind]
  cases node with
  | none =>
    have hout := hprop.2 rfl
    have hstay : ackrngLoop smallest s.pkts.nodes.length none s = s := by
      cases s.pkts.nodes.length <;> rfl
    show (∀ n, n ∈ (ackrngLoop smallest _ none s).pkts.nodes ↔ _) ∧
      ∀ n, n ∈ (ackrngLoop smallest _ none s).newlyAcked ↔ _
    rw [hstay]
    refine ⟨fun n => ⟨fun hn => ⟨hn, hout n hn⟩, fun hn => hn.1⟩, fun n => ⟨.inl, ?_⟩⟩
    rintro (hn | ⟨m, hm, hrange, -⟩)
    · exact hn
    · exact absurd hrange (hout m hm)
  | some node =>
    obtain ⟨hmem, hlow, hhigh, hmax⟩ := hprop.1 node rfl
    obtain ⟨pre, post, hsplit⟩ := List.append_of_mem hmem
    obtain ⟨-, hpost⟩ := EbUniq.keys_lt_of_split hsplit
    have hpre : s.pkts.nodes = (pre ++ [node]) ++ post := by
      rw [hsplit, List.append_assoc]
      rfl
    -- behind it all are above the range, and the loop goes through those before it
    have habove : ∀ a ∈ post, largest < a.1 := by
      intro a ha
      by_contra hle'
      have h1 := hmax a (hsplit ▸ List.mem_append_right pre (List.mem_cons_of_mem node ha))
        (Nat.not_lt.mp hle')
      exact Nat.not_lt.mpr h1 (hpost a ha)
    have hbelow : ∀ a ∈ pre ++ [node], a.1 ≤ largest := by
      intro a ha
      obtain ⟨hkeys, -⟩ := EbUniq.keys_lt_of_split hsplit
      rcases List.mem_append.mp ha with ha | ha
      · exact (hkeys a ha).le.trans hhigh
      · obtain rfl := List.mem_singleton.mp ha
        exact hhigh
    obtain ⟨hnodes, hacked⟩ := ackrngLoop_spec smallest hpre
      (show (pre ++ [node]).length ≤ s.pkts.nodes.length by rw [hpre]; simp)
    rw [List.getLast?_concat] at hnodes hacked
    show (∀ n, n ∈ (ackrngLoop smallest _ (some node) s).pkts.nodes ↔ _) ∧
      ∀ n, n ∈ (ackrngLoop smallest _ (some node) s).newlyAcked ↔ _
    rw [hnodes, hacked]
    refine ⟨fun n => ?_, fun n => ?_⟩
    · rw [hpre, List.mem_append, List.mem_append, List.mem_filter, decide_eq_true_iff]
      constructor
      · rintro (⟨hn, hlt⟩ | hn)
        · exact ⟨.inl hn, fun h => Nat.not_lt.mpr h.1 hlt⟩
        · exact ⟨.inr hn, fun h => Nat.not_lt.mpr h.2 (habove n hn)⟩
      · rintro ⟨hn | hn, hout⟩
        · exact .inl ⟨hn, Nat.not_le.mp fun h => hout ⟨h, hbelow n hn⟩⟩
        · exact .inr hn
    · rw [List.mem_append, List.mem_map, or_comm]
      refine or_congr_right ⟨?_, ?_⟩
      · rintro ⟨m, hm, rfl⟩
        obtain ⟨hm, hge⟩ := List.mem_filter.mp hm
        exact ⟨m, hpre ▸ List.mem_append_left post hm,
          ⟨of_decide_eq_true hge, hbelow m hm⟩, rfl⟩
      · rintro ⟨m, hm, ⟨hge, hle'⟩, rfl⟩
        rw [hpre] at hm
        rcases List.mem_append.mp hm with hm | hm
        · exact ⟨m, List.mem_filter.mpr ⟨hm, decide_eq_true hge⟩, rfl⟩
        · exact absurd (habove m hm) (Nat.not_lt.mpr hle')

/-! ### All ranges -/

def Took (s s' : AckPass) (rs : List (ℕ × ℕ)) : Prop :=
  (∀ n, n ∈ s'.pkts.nodes ↔ n ∈ s.pkts.nodes ∧ ¬ Covers rs n.1) ∧
    ∀ n, n ∈ s'.newlyAcked ↔
      n ∈ s.newlyAcked ∨ ∃ m ∈ s.pkts.nodes, Covers rs m.1 ∧ n = freed m

theorem Took.trans {s' s'' : AckPass} {r : ℕ × ℕ} {rs : List (ℕ × ℕ)} (h : Took s s' [r])
    (h' : Took s' s'' rs) : Took s s'' (r :: rs) := by
  refine ⟨fun n => ?_, fun n => ?_⟩
  · rw [h'.1, h.1, covers_cons, covers_cons, and_assoc, not_or]
    simp [covers_nil]
  · rw [h'.2, h.2, or_assoc]
    refine or_congr_right ⟨?_, ?_⟩
    · rintro (⟨m, hm, hcovers, rfl⟩ | ⟨m, hm, hcovers, rfl⟩)
      · exact ⟨m, hm, covers_cons.mpr (.inl ((covers_cons.mp hcovers).resolve_right
          (covers_nil _))), rfl⟩
      · exact ⟨m, ((h.1 m).mp hm).1, covers_cons.mpr (.inr hcovers), rfl⟩
    · rintro ⟨m, hm, hcovers, rfl⟩
      by_cases hfirst : Covers [r] m.1
      · exact .inl ⟨m, hm, hfirst, rfl⟩
      · refine .inr ⟨m, (h.1 m).mpr ⟨hm, hfirst⟩, ?_, rfl⟩
        exact (covers_cons.mp hcovers).resolve_left fun h => hfirst (covers_cons.mpr (.inl h))

theorem took_one (hle : ar.1 ≤ ar.2)
    (hnode : ∀ node, largestNode = some node → node ∈ s.pkts.nodes ∧ node.1 = ar.2) :
    Took s (qcAckrngPkts s largestNode ar.2 ar.1) [ar] := by
  obtain ⟨hnodes, hacked⟩ := qcAckrngPkts_spec hle hnode
  have hone : ∀ n, Covers [ar] n ↔ ar.1 ≤ n ∧ n ≤ ar.2 := fun n => by
    rw [covers_cons]
    exact or_iff_left (covers_nil n)
  refine ⟨fun n => ?_, fun n => ?_⟩
  · rw [hnodes, hone]
  · rw [hacked]
    simp only [hone]

/-- **The ranges of a frame**, read back from its bytes. -/
theorem ackRangesLoop_spec (ar : ℕ × ℕ) (qs : List (ℕ × ℕ)) (henc : Encodable (ar :: qs).reverse)
    (hnode : ∀ node, largestNode = some node → node ∈ s.pkts.nodes ∧ node.1 = ar.2)
    (rest : List UInt8) :
    ∃ s', ackRangesLoop qs.length largestNode ar.2 ar.1 s (tailBytes ar qs ++ rest) =
      (s', some rest) ∧ Took s s' (ar :: qs) := by
  have hvalid : ar.1 ≤ ar.2 := henc.apart.valid ar (by simp)
  have hone := took_one (s := s) hvalid hnode
  induction qs generalizing s largestNode ar with
  | nil => exact ⟨_, rfl, hone⟩
  | cons q qs ih =>
    have hsplit : (ar :: q :: qs).reverse = qs.reverse ++ q :: ar :: [] := by simp
    obtain ⟨hgap, hgap_lt⟩ := (hsplit ▸ henc).gap
    obtain ⟨hdiff, hdiff_lt⟩ := henc.diff (r := q) (by simp)
    have hq : q.1 ≤ q.2 := henc.apart.valid q (by simp)
    have hqar : q.2 + 1 < ar.1 := by
      have htail := (apart_append.mp (hsplit ▸ henc.apart)).2.1
      exact (apart_cons.mp htail).2.1 ar List.mem_cons_self
    have hrest : Encodable (q :: qs).reverse := by
      have hrev : (ar :: q :: qs).reverse = (q :: qs).reverse ++ [ar] := List.reverse_cons
      exact (hrev ▸ henc).of_append.1
    have htook := took_one (s := qcAckrngPkts s largestNode ar.2 ar.1) hq
      (fun _ (h : none = some _) => by cases h)
    obtain ⟨s', hs', hall⟩ := ih q hrest (fun _ h => by cases h) hq htook
    refine ⟨s', ?_, hone.trans hall⟩
    rw [tailBytes, List.append_assoc, List.append_assoc, List.length_cons, ackRangesLoop, hgap,
      hdiff, quicDecInt_append hgap_lt]
    simp only []
    rw [if_neg (by omega), quicDecInt_append hdiff_lt]
    simp only []
    have hlargest : ar.1 - (ar.1 - q.2 - 2) - 2 = q.2 := by omega
    have hsmallest : q.2 - (q.2 - q.1) = q.1 := Nat.sub_sub_self hq
    rw [hlargest, if_neg (by omega), hsmallest]
    exact hs'

/-! ### What follows the ranges -/

theorem packetLossLoop_nodes {now lossDelay : UInt32} {largestAckedPn : ℤ}
    {nodes : List (ℕ × QuicTxPacket)} {tx : QuicPktnsTx} {lost : List (ℕ × QuicTxPacket)}
    (hmem : ∀ n ∈ nodes, n ∈ tx.pkts.nodes) (hnodup : (nodes.map Prod.fst).Nodup) :
    ∀ n, (n ∈ (packetLossLoop now lossDelay largestAckedPn nodes tx lost).1.pkts.nodes ∨
      n ∈ (packetLossLoop now lossDelay largestAckedPn nodes tx lost).2) ↔
      (n ∈ tx.pkts.nodes ∨ n ∈ lost) := by
  induction nodes generalizing tx lost with
  | nil => exact fun n => Iff.rfl
  | cons node nodes ih =>
    rw [List.map_cons, List.nodup_cons] at hnodup
    intro n
    rw [packetLossLoop]
    split_ifs with hstop hlost
    · exact Iff.rfl
    · have hdelete : ∀ m, m ∈ (tx.pkts.delete node.1).nodes ↔
          m ∈ tx.pkts.nodes ∧ m.1 ≠ node.1 := fun m => by
        show m ∈ tx.pkts.nodes.filter _ ↔ _
        rw [List.mem_filter, decide_eq_true_iff]
      rw [ih (fun m hm => ?_) hnodup.2]
      · show n ∈ (tx.pkts.delete node.1).nodes ∨ _ ↔ _
        rw [hdelete, List.mem_append, List.mem_singleton]
        have hnode := hmem node List.mem_cons_self
        constructor
        · rintro (⟨hn, -⟩ | hn | rfl)
          · exact .inl hn
          · exact .inr hn
          · exact .inl hnode
        · rintro (hn | hn)
          · by_cases hkey : n.1 = node.1
            · have hn' : (node.1, n.2) ∈ tx.pkts.nodes := by
                rw [← hkey]
                exact hn
              have hval := EbUniq.lookup_eq_some.mpr hn'
              have hval' := EbUniq.lookup_eq_some.mpr (show (node.1, node.2) ∈ _ from hnode)
              have hsnd := Option.some.inj (hval.symm.trans hval')
              exact .inr (.inr (Prod.ext hkey hsnd))
            · exact .inl ⟨hn, hkey⟩
          · exact .inr (.inl hn)
      · refine (hdelete m).mpr ⟨hmem m (List.mem_cons_of_mem node hm), fun hkey => ?_⟩
        exact hnodup.1 (hkey ▸ List.mem_map_of_mem hm)
    · refine ih ?_ hnodup.2 n
      exact fun m hm => hmem m (List.mem_cons_of_mem node hm)

theorem qcPacketLossLookup_nodes (now : UInt32) (ql : QuicLoss) (tx : QuicPktnsTx) :
    ∀ n, (n ∈ (qcPacketLossLookup now ql tx).1.pkts.nodes ∨ n ∈ (qcPacketLossLookup now ql tx).2) ↔
      n ∈ tx.pkts.nodes := by
  intro n
  rw [qcPacketLossLookup]
  dsimp only
  split_ifs with hempty
  · simp
  · refine (packetLossLoop_nodes ?_ (EbUniq.nodup_keys tx.pkts) n).trans ?_
    · exact fun n hn => hn
    · simp

theorem pkts_treatNewlyAcked (i : QuicTlsPktns) (qc : QuicConn)
    (acked : List (ℕ × QuicTxPacket)) :
    ((qcTreatNewlyAckedPkts i qc acked).pktns i).tx.pkts = (qc.pktns i).tx.pkts := by
  induction acked generalizing qc with
  | nil => rfl
  | cons pkt acked ih =>
    rw [qcTreatNewlyAckedPkts, List.foldl_cons]
    refine (ih _).trans ?_
    simp only [treatNewlyAckedPkt, QuicConn.updTx_same]

theorem pkts_foldl_releaseLost (i : QuicTlsPktns) (qc : QuicConn)
    (lost : List (ℕ × QuicTxPacket)) :
    ((lost.foldl (releaseLostPkt i) qc).pktns i).tx.pkts = (qc.pktns i).tx.pkts := by
  induction lost generalizing qc with
  | nil => rfl
  | cons pkt lost ih =>
    rw [List.foldl_cons]
    refine (ih _).trans ?_
    simp only [releaseLostPkt, QuicConn.updTx_same]

theorem pkts_releaseLost (now : UInt32) (i : QuicTlsPktns) (qc : QuicConn)
    (lost : List (ℕ × QuicTxPacket)) :
    ((qcReleaseLostPkts now i qc lost).pktns i).tx.pkts = (qc.pktns i).tx.pkts := by
  rw [qcReleaseLostPkts, ← pkts_foldl_releaseLost i qc lost]
  split
  · split_ifs <;> rfl
  · rfl

/-- Behind the ranges no packet is taken for acknowledged, and those that leave the tree are
the lost ones. -/
theorem ackDone_spec (now : UInt32) (peer : Bool) (qc : QuicConn) (i : QuicTlsPktns)
    (ack : QuicAck) (timeSent : UInt32) (s : AckPass) (pos : List UInt8) :
    (ackDone now peer qc i ack timeSent s pos).pos = some pos ∧
      (ackDone now peer qc i ack timeSent s pos).acked = s.newlyAcked ∧
      ∀ n, (n ∈ ((ackDone now peer qc i ack timeSent s pos).qc.pktns i).tx.pkts.nodes ∨
        n ∈ (ackDone now peer qc i ack timeSent s pos).lost) ↔ n ∈ (qc.pktns i).tx.pkts.nodes := by
  rw [ackDone]
  dsimp only
  generalize hqc : (if timeSent ≠ 0 ∧ s.pktFlags &&& txPacketAckEliciting ≠ 0 then _ else _) = qc'
  have hpkts : (qc'.pktns i).tx.pkts = (qc.pktns i).tx.pkts := by
    rw [← hqc]
    split_ifs
    · rw [QuicConn.updTx_same]
      simp
    · simp
  by_cases hnone : s.newlyAcked = []
  · rw [if_pos hnone, hnone]
    refine ⟨rfl, rfl, fun n => ?_⟩
    show n ∈ (qc'.pktns i).tx.pkts.nodes ∨ n ∈ [] ↔ _
    rw [hpkts]
    simp
  · rw [if_neg hnone]
    refine ⟨rfl, rfl, fun n => ?_⟩
    generalize hfound : (if (qc'.pktns i).tx.pkts.nodes = [] then _ else _) = found
    have hnodes : ∀ n, (n ∈ found.1.pkts.nodes ∨ n ∈ found.2) ↔ n ∈ (qc.pktns i).tx.pkts.nodes := by
      intro n
      rw [← hpkts, ← hfound]
      split_ifs
      · simp
      · exact qcPacketLossLookup_nodes now _ _ n
    rw [← hnodes n]
    refine or_congr_left (Iff.of_eq ?_)
    have hfinal : ∀ qc₀ : QuicConn, ((if peer = true then
        { qc₀ with path := { qc₀.path with loss := { qc₀.path.loss with ptoCount := 0 } } }
        else qc₀ : QuicConn).pktns i).tx.pkts = (qc₀.pktns i).tx.pkts := by
      intro qc₀
      split_ifs <;> rfl
    show (n ∈ ((if peer = true then _ else _ : QuicConn).pktns i).tx.pkts.nodes) = _
    rw [hfinal, pkts_treatNewlyAcked]
    split_ifs
    · rw [QuicConn.updTx_same]
    · rw [pkts_releaseLost, QuicConn.updTx_same]

/-! ### Both ends -/

theorem quicParseAckFrameHeader_append {a b c d : ℕ} (ha : a < 2 ^ 62) (hb : b < 2 ^ 62)
    (hc : c < 2 ^ 62) (hd : d < 2 ^ 62) (rest : List UInt8) :
    quicParseAckFrameHeader (quicInt a ++ (quicInt b ++ (quicInt c ++ (quicInt d ++ rest)))) =
      some (⟨a, b, c, d⟩, rest) := by
  rw [quicParseAckFrameHeader, quicDecInt_append ha]
  simp only [Option.bind_eq_bind, Option.bind_some]
  rw [quicDecInt_append hb]
  simp only [Option.bind_some]
  rw [quicDecInt_append hc]
  simp only [Option.bind_some]
  rw [quicDecInt_append hd]
  simp only [Option.bind_some]

theorem quicParseAckFrameHeader_frame {ackDelay sz d : ℕ} {qs : List (ℕ × ℕ)} (hsz : sub64 sz 1 = n)
    (hdiff : sub64 ar.2 ar.1 = d) (hlargest : ar.2 < 2 ^ 62) (hdelay : ackDelay < 2 ^ 62)
    (hn : n < 2 ^ 62) (hd : d < 2 ^ 62) (rest : List UInt8) :
    quicParseAckFrameHeader (frameBytes ackDelay sz (ar :: qs) ++ rest) =
      some (⟨ar.2, ackDelay, n, d⟩, tailBytes ar qs ++ rest) := by
  rw [frameBytes, hsz, hdiff, List.append_assoc, List.append_assoc, List.append_assoc,
    List.append_assoc]
  exact quicParseAckFrameHeader_append hlargest hdelay hn hd _

/-- Packets get the numbers up to `next_pn`, which are below 2^62. -/
structure SentUpTo (tx : QuicPktnsTx) : Prop where
  le : ∀ n ∈ tx.pkts.nodes, (n.1 : ℤ) ≤ tx.nextPn
  lt : tx.nextPn < 2 ^ 62

/-- A receiver of the frame that has sent the packet `largest` takes exactly the packets it
has sent with a number in the ranges for acknowledged. -/
def MeansRanges (rs : List (ℕ × ℕ)) (largest : ℕ) (frame : List UInt8) : Prop :=
  ∀ (now : UInt32) (peer : Bool) (qc : QuicConn) (i : QuicTlsPktns) (rest : List UInt8),
    SentUpTo (qc.pktns i).tx → (∃ pkt, (largest, pkt) ∈ (qc.pktns i).tx.pkts.nodes) →
    ∃ ack pos, quicParseAckFrameHeader (frame ++ rest) = some (ack, pos) ∧
      (qcParseAckFrm now peer qc i ack pos).pos = some rest ∧
      (∀ pn, (∃ pkt, (pn, pkt) ∈ (qcParseAckFrm now peer qc i ack pos).acked) ↔
        (∃ pkt, (pn, pkt) ∈ (qc.pktns i).tx.pkts.nodes) ∧ Covers rs pn) ∧
      ∀ n, (n ∈ ((qcParseAckFrm now peer qc i ack pos).qc.pktns i).tx.pkts.nodes ∨
        n ∈ (qcParseAckFrm now peer qc i ack pos).lost) ↔
          n ∈ (qc.pktns i).tx.pkts.nodes ∧ ¬ Covers rs n.1

theorem covers_reverse {rs : List (ℕ × ℕ)} (n : ℕ) : Covers rs.reverse n ↔ Covers rs n := by
  simp [Covers]

/-- **The receiver's side** of a frame. -/
theorem meansRanges_frame {a : QuicArngs} {ackDelay : ℕ} (ha : a.Good)
    (hlast : a.root.last = some ar) (hdelay : ackDelay < 2 ^ 62) :
    MeansRanges a.root.nodes ar.2 (frameBytes ackDelay a.sz a.root.nodes.reverse) := by
  intro now peer qc i rest hsent hlargest
  obtain ⟨pre, hnodes⟩ := List.getLast?_eq_some_iff.mp hlast
  have hne : a.root.nodes ≠ [] := by
    rw [hnodes]
    exact List.append_ne_nil_of_right_ne_nil pre (List.cons_ne_nil _ _)
  have hmem : ar ∈ a.root.nodes := by simp [hnodes]
  have hrev : a.root.nodes.reverse = ar :: pre.reverse := by rw [hnodes, List.reverse_concat]
  obtain ⟨hdiff, hdiff_lt⟩ := ha.enc.diff hmem
  obtain ⟨hsz, hsz_lt⟩ := ha.sz_encodable hne
  have hvalid := ha.enc.apart.valid ar hmem
  have hcount : a.sz - 1 = pre.reverse.length := by
    rw [ha.sz, hnodes]
    simp
  have hheader : quicParseAckFrameHeader (frameBytes ackDelay a.sz a.root.nodes.reverse ++ rest) =
      some (⟨ar.2, ackDelay, pre.reverse.length, ar.2 - ar.1⟩, tailBytes ar pre.reverse ++ rest) := by
    rw [hrev]
    exact quicParseAckFrameHeader_frame (hsz.trans hcount) hdiff (ha.enc.bound ar hmem) hdelay
      (hcount ▸ hsz_lt) hdiff_lt rest
  refine ⟨_, _, hheader, ?_⟩
  obtain ⟨pkt, hpkt⟩ := hlargest
  have hle := hsent.le _ hpkt
  have hlt := hsent.lt
  have hnext : ¬ (qc.pktns i).tx.nextPn % 2 ^ 64 < (ar.2 : ℤ) := by
    have hle' : (ar.2 : ℤ) ≤ (qc.pktns i).tx.nextPn := hle
    rw [Int.emod_eq_of_lt (by omega) (by omega)]
    omega
  have hfirst : ¬ ar.2 < ar.2 - ar.1 := by omega
  have hsmallest : ar.2 - (ar.2 - ar.1) = ar.1 := by omega
  have hfound := EbUniq.lookup_eq_some.mpr hpkt
  generalize hcall : qcParseAckFrm now peer qc i _ _ = res
  rw [qcParseAckFrm] at hcall
  dsimp only at hcall
  rw [if_neg hnext, if_neg hfirst, hsmallest, hfound] at hcall
  -- the largest number is new or not; the node is the same
  obtain ⟨largestNode, hnode, hcall⟩ : ∃ largestNode : Option QuicTxPacket,
      (∀ p, largestNode = some p → p = pkt) ∧
      (match ackRangesLoop pre.reverse.length (largestNode.map fun pkt => (ar.2, pkt)) ar.2 ar.1
          ⟨(qc.pktns i).tx.pkts, 0, []⟩ (tailBytes ar pre.reverse ++ rest) with
        | (pass, none) => ⟨qc.updTx i fun tx => { tx with pkts := pass.pkts }, 0,
            pass.newlyAcked, [], none⟩
        | (pass, some pos) => ackDone now peer (qc.updTx i fun tx => { tx with pkts := pass.pkts })
            i ⟨ar.2, ackDelay, pre.reverse.length, ar.2 - ar.1⟩
            ((largestNode.map QuicTxPacket.timeSent).getD 0) pass pos) = res := by
    by_cases hnew : (qc.pktns i).tx.largestAckedPn < (ar.2 : ℤ)
    · refine ⟨some pkt, fun p hp => (Option.some.inj hp).symm, ?_⟩
      simp only [hnew, if_true] at hcall
      rw [if_neg (by simp)] at hcall
      rw [← hcall]
      rcases ackRangesLoop _ _ _ _ _ _ with ⟨pass, - | pos⟩ <;> rfl
    · refine ⟨none, nofun, ?_⟩
      simp only [hnew, if_false, false_and] at hcall
      rw [← hcall]
      rcases ackRangesLoop _ _ _ _ _ _ with ⟨pass, - | pos⟩ <;> rfl
  obtain ⟨pass, hpass, htook⟩ := ackRangesLoop_spec (s := ⟨(qc.pktns i).tx.pkts, 0, []⟩)
    ar pre.reverse
    (by rw [← hrev, List.reverse_reverse]; exact ha.enc)
    (fun node h => by
      obtain ⟨p, hp, rfl⟩ := Option.map_eq_some_iff.mp h
      obtain rfl := hnode p hp
      exact ⟨hpkt, rfl⟩) rest
  rw [hpass] at hcall
  dsimp only at hcall
  obtain ⟨hpos, hacked, htree⟩ := ackDone_spec now peer
    (qc.updTx i fun tx => { tx with pkts := pass.pkts }) i
    ⟨ar.2, ackDelay, pre.reverse.length, ar.2 - ar.1⟩
    ((largestNode.map QuicTxPacket.timeSent).getD 0) pass rest
  rw [hcall] at hpos hacked htree
  have hcovers : ∀ n, Covers (ar :: pre.reverse) n ↔ Covers a.root.nodes n := fun n => by
    rw [← hrev, covers_reverse]
  refine ⟨hpos, fun pn => ?_, fun n => ?_⟩
  · rw [hacked]
    constructor
    · rintro ⟨p, hp⟩
      obtain ⟨m, hm, hcov, heq⟩ := ((htook.2 _).mp hp).resolve_left List.not_mem_nil
      obtain ⟨rfl, -⟩ := Prod.mk.inj heq
      exact ⟨⟨m.2, hm⟩, (hcovers _).mp hcov⟩
    · rintro ⟨⟨p, hp⟩, hcov⟩
      exact ⟨_, (htook.2 (freed (pn, p))).mpr (.inr ⟨(pn, p), hp, (hcovers pn).mpr hcov, rfl⟩)⟩
  · rw [htree, QuicConn.updTx_same]
    exact (htook.1 n).trans (and_congr_right fun _ => not_congr (hcovers n.1))

/-! ### The limit -/

theorem bmod_small {m : ℕ} (h : 2 * n < m) : (n : ℤ).bmod m = n :=
  Int.bmod_eq_of_le (by omega) (by omega)

theorem small_of_bmod {m : ℕ} (hm : 0 < m) (h : (n : ℤ).bmod m = n) : n < (m + 1) / 2 := by
  have hlt := Int.bmod_lt (x := n) hm
  omega

theorem toInt32_of_lt (h : n < 2 ^ 31) : toInt32 n = n := by
  unfold toInt32
  exact bmod_small (by omega)

theorem lt_of_toInt32 (h : toInt32 n = n) : n < 2 ^ 31 := by
  unfold toInt32 at h
  have hsmall : n < (2 ^ 32 + 1) / 2 := small_of_bmod (Nat.two_pow_pos 32) h
  omega

theorem encSz_of_exact {a : QuicArngs} (ha : a.Good) (hne : a.root.nodes ≠ [])
    (h : a.EncSzExact) : a.encSz = rangesSize a.sz a.root.nodes.reverse := by
  obtain ⟨hsz, hsz_lt⟩ := ha.sz_encodable hne
  have hbuilds := builds_ackFrame ⟨0, a⟩ ha.enc hne (Nat.two_pow_pos 62) (hsz ▸ hsz_lt)
  have hlen : (frameBytes 0 a.sz a.root.nodes.reverse).length = _ :=
    length_frameBytes fun h => hne (List.reverse_eq_nil_iff.mp h)
  generalize frameBytes 0 a.sz a.root.nodes.reverse = frame at hbuilds hlen
  obtain ⟨hpos, -⟩ := h hne 0 (Nat.two_pow_pos 62) [] frame.length (Nat.zero_le _)
  have hbuild := hbuilds [] frame.length (Nat.zero_le _)
  rw [List.length_nil, Nat.zero_add, if_pos (Nat.le_refl _), List.nil_append] at hbuild
  have hframe : frame.length = 0 + (a.encSz + quicIntGetsize 0) := hpos _ hbuild
  omega

/-- The ranges of `txAck` are sent in a frame of `n` bytes with its type, within the limit;
the frame has the range of `last` and means its ranges to a receiver. -/
def QuicTxAck.SentAs (txAck : QuicTxAck) (last : Option (ℕ × ℕ)) (n : ℤ) (limit : ℕ) : Prop :=
  ∃ frame, Builds (quicBuildAckFrame txAck) frame ∧ n = 1 + frame.length ∧ n ≤ limit ∧
    ∀ ar, last = some ar →
      ar ∈ txAck.arngs.root.nodes ∧ MeansRanges txAck.arngs.root.nodes ar.2 frame

/-- A frame that is promised to take `n` bytes does so, `n` is within the limit, and the
frame has the range of the largest number and means its ranges to a receiver. -/
def AckFrameAgrees (txAck : QuicTxAck) (limit : ℕ) : Prop :=
  0 < (quicAckFrmReduceSz txAck limit).2 →
    (quicAckFrmReduceSz txAck limit).1.SentAs txAck.arngs.root.last
      (quicAckFrmReduceSz txAck limit).2 limit

def QuicTxAck.frameSize (txAck : QuicTxAck) : ℕ :=
  1 + quicIntGetsize txAck.ackDelay + txAck.arngs.encSz

/-- What `limit` leaves for the ranges. -/
def QuicTxAck.roomFor (txAck : QuicTxAck) (limit : ℕ) : ℕ :=
  sub64 (sub64 limit (quicIntGetsize txAck.ackDelay)) 1

/-- The estimate without the `j` highest ranges. -/
def QuicTxAck.estimate (txAck : QuicTxAck) (j : ℕ) : ℕ :=
  leftover txAck.arngs.encSz txAck.arngs.sz txAck.arngs.root.nodes.reverse j

theorem roomFor_eq (h : 1 + quicIntGetsize txAck.ackDelay ≤ limit) (hlimit : limit < 2 ^ 64) :
    txAck.roomFor limit = limit - quicIntGetsize txAck.ackDelay - 1 := by
  unfold QuicTxAck.roomFor
  rw [sub64_eq (by omega) hlimit, sub64_eq (by omega) (Nat.lt_of_le_of_lt (Nat.sub_le _ _) hlimit)]

theorem quicAckFrmReduceSz_eq {arngs : QuicArngs} {ok : Bool}
    (h : quicRmLastAckRanges txAck.arngs (txAck.roomFor limit) = (arngs, ok)) :
    quicAckFrmReduceSz txAck limit = (({ txAck with arngs := arngs } : QuicTxAck),
      if ok then toInt32 (1 + quicIntGetsize txAck.ackDelay + arngs.encSz) else 0) := by
  unfold QuicTxAck.roomFor at h
  unfold quicAckFrmReduceSz
  simp only [h]
  cases ok
  · rw [if_neg Bool.false_ne_true, if_neg Bool.false_ne_true]
  · rw [if_pos rfl, if_pos rfl]

/-- The whole frame is sent as promised if it is within the limit and its size is an `int`. -/
theorem sentAs_whole_iff (hgood : txAck.arngs.Good) (hne : txAck.arngs.root.nodes ≠ [])
    (henc : txAck.arngs.encSz = rangesSize txAck.arngs.sz txAck.arngs.root.nodes.reverse)
    (hdelay : txAck.ackDelay < 2 ^ 62) :
    txAck.SentAs txAck.arngs.root.last (toInt32 txAck.frameSize) limit ↔
      txAck.frameSize ≤ limit ∧ txAck.frameSize < 2 ^ 31 := by
  obtain ⟨hsz, hsz_lt⟩ := hgood.sz_encodable hne
  have hbuilds := builds_ackFrame txAck hgood.enc hne hdelay (hsz ▸ hsz_lt)
  have hlen : 1 + (frameBytes txAck.ackDelay txAck.arngs.sz
      txAck.arngs.root.nodes.reverse).length = txAck.frameSize := by
    rw [length_frameBytes (fun h => hne (List.reverse_eq_nil_iff.mp h)), ← henc,
      QuicTxAck.frameSize]
    omega
  constructor
  · rintro ⟨frame, hframe, hn, hle, -⟩
    -- there is only one frame that can be built
    have hsame : 1 + frame.length = txAck.frameSize := by
      have hbuild := hframe [] frame.length (Nat.zero_le _)
      rw [if_pos (by simp)] at hbuild
      obtain ⟨-, heq⟩ := hbuilds.eq_some (Nat.zero_le _) hbuild
      have hpos := congrArg OutBuf.pos heq
      simp only [OutBuf.of, List.nil_append] at hpos
      rw [hpos]
      exact hlen
    have hint : toInt32 txAck.frameSize = (txAck.frameSize : ℤ) := by
      rw [hn, ← hsame]
      push_cast
      rfl
    rw [hint] at hle
    exact ⟨Int.ofNat_le.mp hle, lt_of_toInt32 hint⟩
  · rintro ⟨hfit, hsmall⟩
    rw [toInt32_of_lt hsmall]
    refine ⟨_, hbuilds, ?_, Int.ofNat_le.mpr hfit, fun ar har =>
      ⟨List.mem_of_getLast? har, meansRanges_frame hgood har hdelay⟩⟩
    rw [← hlen]
    push_cast
    rfl

theorem forall_first_iff {f : ℕ → ℕ} {room m j : ℕ} {P : ℕ → Prop} (hj : j < m)
    (hle : f j ≤ room) (hgt : ∀ i < j, room < f i) :
    (∀ j < m, f j ≤ room → (∀ i < j, room < f i) → P j) ↔ P j := by
  refine ⟨fun h => h j hj hle hgt, fun h j' _ hle' hgt' => ?_⟩
  obtain rfl : j' = j := by
    rcases Nat.lt_trichotomy j' j with hlt | heq | hlt
    · exact absurd hle' (Nat.not_le.mpr (hgt j' hlt))
    · exact heq
    · exact absurd hle (Nat.not_le.mpr (hgt' j hlt))
  exact h

/-- **A frame agrees with what has been promised**, and means the same to both ends, if and
only if it does not have to be cut down for the limit and its size is an `int`, or the call
returns nothing positive: no estimate is within the limit, or the first one that is turns
negative as an `int`. -/
theorem ackFrame_agrees_iff (hgood : txAck.arngs.Good) (hne : txAck.arngs.root.nodes ≠ [])
    (hexact : txAck.arngs.EncSzExact) (hdelay : txAck.ackDelay < 2 ^ 62)
    (hsize : txAck.arngs.encSz < 2 ^ 64) (hlimit : limit < 2 ^ 64) :
    AckFrameAgrees txAck limit ↔
      (txAck.frameSize ≤ limit ∧ txAck.frameSize < 2 ^ 31) ∨
        ∀ j < txAck.arngs.sz, txAck.estimate j ≤ txAck.roomFor limit →
          (∀ i < j, txAck.roomFor limit < txAck.estimate i) →
          toInt32 (1 + quicIntGetsize txAck.ackDelay + txAck.estimate j) ≤ 0 := by
  have henc := encSz_of_exact hgood hne hexact
  have hspec := quicRmLastAckRanges_spec hgood hne henc hsize (txAck.roomFor limit)
  rcases hrm : quicRmLastAckRanges txAck.arngs (txAck.roomFor limit) with ⟨arngs, ok⟩
  rw [hrm] at hspec
  rw [AckFrameAgrees, quicAckFrmReduceSz_eq hrm]
  dsimp only
  rcases hspec with ⟨j, hj, hle, hgt, hok, hnodes, hsz, hest⟩ | ⟨hgt, hok⟩
  · replace hok : ok = true := hok
    subst hok
    replace hest : arngs.encSz = txAck.estimate j := hest
    replace hle : txAck.estimate j ≤ txAck.roomFor limit := hle
    replace hgt : ∀ i < j, txAck.roomFor limit < txAck.estimate i := hgt
    rw [← hgood.sz] at hj
    rw [if_pos rfl, hest, forall_first_iff hj hle hgt]
    cases j with
    | zero =>
      -- nothing has been removed
      have hroot : arngs.root = txAck.arngs.root := EbUniq.ext (by
        refine hnodes.trans ?_
        rw [Nat.sub_zero, List.take_length])
      have hzero : txAck.estimate 0 = txAck.arngs.encSz := rfl
      have hsame : arngs = txAck.arngs := by
        replace hsz : arngs.sz = txAck.arngs.sz := hsz
        rw [hzero] at hest
        exact QuicArngs.ext hroot hsz hest
      rw [hsame, hzero]
      show (0 < toInt32 txAck.frameSize → txAck.SentAs _ (toInt32 txAck.frameSize) _) ↔
        _ ∨ toInt32 txAck.frameSize ≤ 0
      rw [sentAs_whole_iff hgood hne henc hdelay]
      by_cases hpos : 0 < toInt32 txAck.frameSize
      · exact ⟨fun h => .inl (h hpos),
          fun h _ => h.resolve_right (Int.not_le.mpr hpos)⟩
      · exact ⟨fun _ => .inr (Int.not_lt.mp hpos), fun _ h => absurd h hpos⟩
    | succ j =>
      -- the highest range is gone
      obtain ⟨ar, har⟩ : ∃ ar, txAck.arngs.root.last = some ar :=
        ⟨_, List.getLast?_eq_some_getLast hne⟩
      have hgone : ar ∉ arngs.root.nodes := by
        intro hmem
        obtain ⟨pre, hpre⟩ := List.getLast?_eq_some_iff.mp har
        rw [hnodes, hpre, List.take_append_of_le_length (by simp)] at hmem
        obtain ⟨hkeys, -⟩ := EbUniq.keys_lt_of_split hpre
        exact (hkeys ar (List.mem_of_mem_take hmem)).false
      have hfirst : txAck.roomFor limit < txAck.arngs.encSz := hgt 0 (Nat.succ_pos j)
      constructor
      · intro hagrees
        right
        by_contra hpos
        obtain ⟨frame, -, -, -, hrange⟩ := hagrees (Int.not_le.mp hpos)
        exact hgone (hrange ar har).1
      · rintro (⟨hfit, -⟩ | hcond) hpos
        · rw [QuicTxAck.frameSize] at hfit
          have hroom := roomFor_eq (show 1 + quicIntGetsize txAck.ackDelay ≤ limit by omega) hlimit
          omega
        · exact absurd hpos (Int.not_lt.mpr hcond)
  · replace hok : ok = false := hok
    subst hok
    rw [if_neg Bool.false_ne_true]
    refine ⟨fun _ => .inr fun j hj hle _ => ?_, fun _ h => absurd h (Int.lt_irrefl 0)⟩
    rw [hgood.sz] at hj
    exact absurd hle (Nat.not_le.mpr (hgt j hj))

def twoRanges : QuicArngs :=
  [QuicArng.mk 0 0, ⟨2, 2⟩].foldl quicUpdateAckRangesList quicPktnsInit.rx.arngs

theorem twoRanges_exact :
    twoRanges.Good ∧ twoRanges.root.nodes ≠ [] ∧ twoRanges.EncSzExact := by
  have hrun : RangesRun [QuicArng.mk 0 0, ⟨2, 2⟩] twoRanges := rangesRun_foldl (by decide)
  refine ⟨hrun.good, hrun.ne (List.cons_ne_nil _ _), encSzExact_of_eq hrun.good ?_⟩
  exact hrun.computed ⟨0, 0⟩ rfl ⟨⟨2, 2⟩, by decide, .inr (by decide)⟩

/-- Two ranges within the limit. -/
theorem ackFrame_agrees_two :
    (twoRanges.Good ∧ twoRanges.root.nodes ≠ [] ∧ twoRanges.EncSzExact) ∧
      AckFrameAgrees ⟨0, twoRanges⟩ 7 := by
  obtain ⟨hgood, hne, hexact⟩ := twoRanges_exact
  have hfits : 1 + quicIntGetsize 0 + twoRanges.encSz = 7 := by decide +kernel
  have hsize : twoRanges.encSz < 2 ^ 64 := by decide +kernel
  refine ⟨⟨hgood, hne, hexact⟩, (ackFrame_agrees_iff hgood hne hexact
    (by decide) hsize (by decide)).mpr (.inl ?_)⟩
  show 1 + quicIntGetsize 0 + twoRanges.encSz ≤ 7 ∧ 1 + quicIntGetsize 0 + twoRanges.encSz < 2 ^ 31
  rw [hfits]
  decide

/-- Cut down to 6 bytes, the frame of two ranges loses the one of the largest number. -/
theorem not_ackFrame_agrees :
    ¬ ∀ (txAck : QuicTxAck) (limit : ℕ), txAck.arngs.Good → txAck.arngs.root.nodes ≠ [] →
      txAck.arngs.EncSzExact → txAck.ackDelay < 2 ^ 62 → txAck.arngs.encSz < 2 ^ 64 →
      limit < 2 ^ 64 → AckFrameAgrees txAck limit := by
  intro h
  obtain ⟨hgood, hne, hexact⟩ := twoRanges_exact
  have hpos : 0 < (quicAckFrmReduceSz ⟨0, twoRanges⟩ 6).2 := by decide +kernel
  have hlast : twoRanges.root.last = some (2, 2) := by decide +kernel
  have hgone : (2, 2) ∉ (quicAckFrmReduceSz ⟨0, twoRanges⟩ 6).1.arngs.root.nodes := by
    decide +kernel
  obtain ⟨frame, -, -, -, hrange⟩ := h ⟨0, twoRanges⟩ 6 hgood hne hexact (by decide)
    (show twoRanges.encSz < 2 ^ 64 by decide +kernel) (by decide) hpos
  exact hgone (hrange (2, 2) hlast).1

end Quic

end SmartHAProxy
