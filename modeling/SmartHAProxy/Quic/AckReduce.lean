/-
ACK frames that are cut down to a limit (xprt_quic.c).

`quic_rm_last_ack_ranges` removes the highest ranges one by one, with an estimate of the
size that it updates on the way.  `rmLastLoop_spec` gives the estimate after `j` removals
as a function of the ranges (`leftover`): the gaps are never taken off it, since the
operands of `sack_gap` are exchanged.
-/
import SmartHAProxy.Quic.AckExact

namespace SmartHAProxy

namespace Quic

open RangeSet

/-! ### The source -/

/-- The loop of `quic_rm_last_ack_ranges`, at the node `last`. -/
def rmLastLoop (limit : ℕ) : ℕ → ℕ × ℕ → QuicArngs → QuicArngs × Bool
  | 0, _, arngs => (arngs, true)
  | fuel + 1, lastNode, arngs =>
    if arngs.encSz ≤ limit then (arngs, true)
    else
      match arngs.root.prev lastNode.1 with
      | none => (arngs, false)
      | some prevNode =>
        let encSz := sub64 arngs.encSz (quicIntGetsize (sub64 lastNode.2 lastNode.1))
        let encSz := sub64 encSz (quicIntGetsize (sackGap prevNode lastNode))
        let encSz := sub64 encSz (quicDecintSizeDiff arngs.sz)
        rmLastLoop limit fuel prevNode
          { root := arngs.root.delete lastNode.1, sz := arngs.sz - 1, encSz := encSz }

def quicRmLastAckRanges (arngs : QuicArngs) (limit : ℕ) : QuicArngs × Bool :=
  match arngs.root.last with
  | none => (arngs, true)
  | some lastNode => rmLastLoop limit (arngs.root.nodes.length + 1) lastNode arngs

/-- A `size_t` that is returned as an `int`. -/
@[irreducible] def toInt32 (n : ℕ) : ℤ := (n : ℤ).bmod (2 ^ 32)

/-- `quic_ack_frm_reduce_sz`: the frame with the ranges that are left, and what is returned. -/
def quicAckFrmReduceSz (txAck : QuicTxAck) (limit : ℕ) : QuicTxAck × ℤ :=
  let ackDelaySz := quicIntGetsize txAck.ackDelay
  -- a frame is made of 1 byte for the frame type
  let room := sub64 (sub64 limit ackDelaySz) 1
  let (arngs, ok) := quicRmLastAckRanges txAck.arngs room
  let txAck := { txAck with arngs := arngs }
  if ok then (txAck, toInt32 (1 + ackDelaySz + arngs.encSz)) else (txAck, 0)

/-! ### The estimate -/

/-- What is left of an estimate of `encSz` for `sz` ranges after `j` of them have been
removed, in descending order. -/
def leftover : ℕ → ℕ → List (ℕ × ℕ) → ℕ → ℕ
  | encSz, _, _, 0 => encSz
  | encSz, _, [], _ + 1 => encSz
  | encSz, sz, d :: ds, j + 1 =>
    leftover (encSz - quicIntGetsize (sub64 d.2 d.1) - quicDecintSizeDiff sz) (sz - 1) ds j

def lengthsSize (ds : List (ℕ × ℕ)) : ℕ := (ds.map fun d => quicIntGetsize (sub64 d.2 d.1)).sum

theorem lengthsSize_cons (d : ℕ × ℕ) (ds : List (ℕ × ℕ)) :
    lengthsSize (d :: ds) = quicIntGetsize (sub64 d.2 d.1) + lengthsSize ds := by
  rw [lengthsSize, List.map_cons, List.sum_cons]
  rfl

theorem lengthsSize_le_tailSize (ar : ℕ × ℕ) (qs : List (ℕ × ℕ)) :
    lengthsSize qs ≤ tailSize ar qs := by
  induction qs generalizing ar with
  | nil => exact Nat.le_refl 0
  | cons q qs ih =>
    have hq := ih q
    rw [lengthsSize_cons, tailSize]
    omega

theorem sackGap_swapped {rs ss : List (ℕ × ℕ)} {p q : ℕ × ℕ} (h : Encodable (rs ++ q :: p :: ss)) :
    quicIntGetsize (sackGap q p) = 0 := by
  obtain ⟨-, hqs⟩ := h.of_append
  obtain ⟨hq, hgap, hrest⟩ := apart_cons.mp hqs.apart
  have hqp : q.2 + 1 < p.1 := hgap p List.mem_cons_self
  have hp := hrest.valid p List.mem_cons_self
  have hlt := hqs.bound p (List.mem_cons_of_mem q List.mem_cons_self)
  apply quicIntGetsize_eq_zero
  rw [sackGap, sub64, sub64]
  omega

/-- What the removal of ranges leaves: the first `j` whose estimate is within the limit, or
none. -/
inductive RmResult (limit : ℕ) (a : QuicArngs) (res : QuicArngs × Bool) : Prop
  | kept (j : ℕ) (hj : j < a.root.nodes.length)
      (hle : leftover a.encSz a.sz a.root.nodes.reverse j ≤ limit)
      (hgt : ∀ i < j, limit < leftover a.encSz a.sz a.root.nodes.reverse i)
      (hok : res.2 = true) (hnodes : res.1.root.nodes = a.root.nodes.take (a.root.nodes.length - j))
      (hsz : res.1.sz = a.sz - j)
      (henc : res.1.encSz = leftover a.encSz a.sz a.root.nodes.reverse j)
  | failed (hgt : ∀ j < a.root.nodes.length,
      limit < leftover a.encSz a.sz a.root.nodes.reverse j) (hok : res.2 = false)

theorem rmLastLoop_spec {limit fuel : ℕ} {a : QuicArngs} {pre : List (ℕ × ℕ)} {lastNode : ℕ × ℕ}
    (hnodes : a.root.nodes = pre ++ [lastNode]) (hfuel : a.root.nodes.length ≤ fuel)
    (ha : a.Good) (hlow : lengthsSize a.root.nodes.reverse + quicIntGetsize a.sz ≤ a.encSz)
    (hhigh : a.encSz < 2 ^ 64) :
    RmResult limit a (rmLastLoop limit fuel lastNode a) := by
  induction pre using List.reverseRecOn generalizing a lastNode fuel with
  | nil =>
    obtain ⟨fuel, rfl⟩ : ∃ n, fuel = n + 1 := Nat.exists_eq_add_one.mpr (by
      rw [hnodes] at hfuel
      exact hfuel)
    rw [rmLastLoop, EbUniq.prev_of_split hnodes]
    by_cases hle : a.encSz ≤ limit
    · rw [if_pos hle]
      exact .kept 0 (by rw [hnodes]; exact Nat.succ_pos _) hle nofun rfl
        (List.take_length ..).symm rfl rfl
    · rw [if_neg hle]
      refine .failed (fun j hj => ?_) rfl
      obtain rfl : j = 0 := by
        rw [hnodes] at hj
        exact Nat.lt_one_iff.mp hj
      exact Nat.not_le.mp hle
  | append_singleton pre q ih =>
    have hlen : a.root.nodes.length = pre.length + 2 := by
      rw [hnodes]
      simp
    obtain ⟨fuel, rfl⟩ : ∃ n, fuel = n + 1 := Nat.exists_eq_add_one.mpr (by omega)
    have hq : a.root.nodes = pre ++ q :: [lastNode] := by
      rw [hnodes, List.append_assoc]
      rfl
    have hrev : a.root.nodes.reverse = lastNode :: (pre ++ [q]).reverse := by
      rw [hnodes, List.reverse_concat]
    rw [rmLastLoop, EbUniq.prev_of_split hnodes, List.getLast?_concat]
    by_cases hle : a.encSz ≤ limit
    · rw [if_pos hle]
      exact .kept 0 (by omega) hle nofun rfl (List.take_length ..).symm rfl rfl
    rw [if_neg hle]
    have hswap := sackGap_swapped (p := lastNode) (q := q) (hq ▸ ha.enc)
    have hdelete := EbUniq.nodes_delete_of_split hnodes
    rw [List.append_nil] at hdelete
    -- the subtractions do not wrap around
    have hstep : sub64 (sub64 (sub64 a.encSz (quicIntGetsize (sub64 lastNode.2 lastNode.1)))
        (quicIntGetsize (sackGap q lastNode))) (quicDecintSizeDiff a.sz) =
        a.encSz - quicIntGetsize (sub64 lastNode.2 lastNode.1) - quicDecintSizeDiff a.sz ∧
        lengthsSize (pre ++ [q]).reverse + quicIntGetsize (a.sz - 1) ≤
        a.encSz - quicIntGetsize (sub64 lastNode.2 lastNode.1) - quicDecintSizeDiff a.sz := by
      have hsz : a.sz < 2 ^ 62 := by
        obtain ⟨hpre, htail, hfront⟩ := apart_append.mp (hq ▸ ha.enc.apart)
        obtain ⟨hqv, hgap, hrest⟩ := apart_cons.mp htail
        have hcount := hpre.length_le (k := 0) (m := q.1) (fun r _ => Nat.zero_le _)
          fun r hr => by
            have h1 := hfront r hr q List.mem_cons_self
            omega
        have hq2 := hgap lastNode List.mem_cons_self
        have hlast := hrest.valid lastNode List.mem_cons_self
        have hb := ha.enc.bound lastNode (hnodes ▸ by simp)
        rw [ha.sz]
        omega
      have hdiff := quicIntGetsize_succ (a.sz - 1) (by omega)
      rw [show a.sz - 1 + 1 = a.sz by rw [ha.sz]; omega] at hdiff
      rw [hrev, lengthsSize_cons] at hlow
      rw [hswap, sub64_eq (b := quicIntGetsize (sub64 lastNode.2 lastNode.1)) (by omega) hhigh,
        sub64_eq (b := 0) (by omega) (by omega), Nat.sub_zero, sub64_eq (by omega) (by omega)]
      exact ⟨rfl, by omega⟩
    simp only []
    rw [hstep.1]
    have hgood : QuicArngs.Good ⟨a.root.delete lastNode.1, a.sz - 1,
        a.encSz - quicIntGetsize (sub64 lastNode.2 lastNode.1) - quicDecintSizeDiff a.sz⟩ := by
      refine ⟨?_, ?_⟩
      · show Encodable (a.root.delete lastNode.1).nodes
        rw [hdelete]
        exact (Encodable.of_append (hnodes ▸ ha.enc)).1
      · show a.sz - 1 = (a.root.delete lastNode.1).nodes.length
        rw [hdelete, ha.sz, hlen]
        simp
    have hrec := ih (a := ⟨_, _, _⟩) hdelete
      (show (a.root.delete lastNode.1).nodes.length ≤ fuel by
        rw [hdelete]
        simp only [List.length_append, List.length_singleton]
        omega)
      hgood
      (by
        show lengthsSize (a.root.delete lastNode.1).nodes.reverse + quicIntGetsize (a.sz - 1) ≤ _
        rw [hdelete]
        exact hstep.2)
      (by
        show a.encSz - _ - _ < 2 ^ 64
        omega)
    have hleft : ∀ j, leftover a.encSz a.sz a.root.nodes.reverse (j + 1) =
        leftover (a.encSz - quicIntGetsize (sub64 lastNode.2 lastNode.1) -
          quicDecintSizeDiff a.sz) (a.sz - 1) (a.root.delete lastNode.1).nodes.reverse j := by
      intro j
      rw [hrev, leftover, hdelete]
    have hlen' : (a.root.delete lastNode.1).nodes.length = pre.length + 1 := by
      rw [hdelete]
      simp
    rcases hrec with ⟨j, hj, hle', hgt, hok, hnodes', hsz, henc⟩ | ⟨hgt, hok⟩
    · refine .kept (j + 1) ?_ ?_ ?_ hok ?_ ?_ ?_
      · have hj' : j < (a.root.delete lastNode.1).nodes.length := hj
        omega
      · rw [hleft]
        exact hle'
      · intro i hi
        cases i with
        | zero => exact Nat.not_le.mp hle
        | succ i =>
          rw [hleft]
          exact hgt i (Nat.lt_of_succ_lt_succ hi)
      · refine hnodes'.trans ?_
        show (a.root.delete lastNode.1).nodes.take
          ((a.root.delete lastNode.1).nodes.length - j) = _
        have htake : a.root.nodes.take (pre.length + 1 - j) =
            (pre ++ [q]).take (pre.length + 1 - j) := by
          rw [hnodes]
          exact List.take_append_of_le_length (by simp)
        have hcount : pre.length + 1 - j = pre.length + 2 - (j + 1) := by omega
        rw [hlen', hdelete, hlen, ← htake, hcount]
      · refine hsz.trans ?_
        show a.sz - 1 - j = a.sz - (j + 1)
        omega
      · rw [hleft]
        exact henc
    · refine .failed (fun j hj => ?_) hok
      cases j with
      | zero => exact Nat.not_le.mp hle
      | succ j =>
        rw [hleft]
        refine hgt j ?_
        show j < (a.root.delete lastNode.1).nodes.length
        omega

theorem quicIntGetsize_succ_le {val : ℕ} (h : val < 2 ^ 62) :
    quicIntGetsize (val + 1) ≤ 2 * quicIntGetsize val := by
  have hspec := quicIntGetsize_spec val
  have hsucc := quicIntGetsize_spec (val + 1)
  omega

/-- **The removal of ranges**, for an exact size. -/
theorem quicRmLastAckRanges_spec {a : QuicArngs} (ha : a.Good) (hne : a.root.nodes ≠ [])
    (henc : a.encSz = rangesSize a.sz a.root.nodes.reverse) (hhigh : a.encSz < 2 ^ 64)
    (limit : ℕ) : RmResult limit a (quicRmLastAckRanges a limit) := by
  obtain ⟨pre, lastNode, hnodes⟩ : ∃ pre ar, a.root.nodes = pre ++ [ar] :=
    ⟨_, _, (List.dropLast_append_getLast hne).symm⟩
  have hlast : a.root.last = some lastNode := by
    rw [EbUniq.last, hnodes, List.getLast?_concat]
  have hmem : lastNode ∈ a.root.nodes := by simp [hnodes]
  rw [quicRmLastAckRanges, hlast]
  refine rmLastLoop_spec hnodes (Nat.le_succ _) ha ?_ hhigh
  -- the largest number is not below the number of the other ranges
  have hcount : a.sz - 1 ≤ lastNode.2 := by
    have hpre := (apart_append.mp (hnodes ▸ ha.enc.apart)).1.length_le (k := 0) (m := lastNode.1)
      (fun r _ => Nat.zero_le _) fun r hr => by
        have h1 := (apart_append.mp (hnodes ▸ ha.enc.apart)).2.2 r hr lastNode List.mem_cons_self
        omega
    have hvalid := ha.enc.apart.valid lastNode hmem
    rw [ha.sz, hnodes, List.length_append, List.length_singleton]
    omega
  obtain ⟨hsz, hsz_lt⟩ := ha.sz_encodable hne
  have hmono := quicIntGetsize_mono hcount (ha.enc.bound lastNode hmem)
  have hdouble := quicIntGetsize_succ_le hsz_lt
  have hpos : a.sz - 1 + 1 = a.sz := by
    have h0 := List.length_pos_of_ne_nil hne
    rw [ha.sz]
    omega
  have htail := lengthsSize_le_tailSize lastNode pre.reverse
  rw [hpos] at hdouble
  have hrev : a.root.nodes.reverse = lastNode :: pre.reverse := by
    rw [hnodes, List.reverse_concat]
  rw [henc, hrev, lengthsSize_cons, rangesSize, hsz]
  omega

end Quic

end SmartHAProxy
