/-
The ranges of packet numbers to acknowledge (xprt_quic.c) and the frame that carries them
(quic_frame.c).

The ranges are kept in a tree, under their first numbers, beside their number `sz` and the
size `enc_sz` of their encoding.  `quicArngsSetEncSz_eq` and `builds_ackFrame` say what the two
loops over the tree come to: the size and the bytes of the ranges in descending order.
-/
import Mathlib.Data.List.Induction
import SmartHAProxy.Lib.EbUniq
import SmartHAProxy.Lib.RangeSet
import SmartHAProxy.Quic.Int

namespace SmartHAProxy

namespace Quic

/-! ### The source -/

/-- The difference of two 64-bit numbers. -/
@[irreducible] def sub64 (a b : ℕ) : ℕ := (a + 2 ^ 64 - b) % 2 ^ 64

/-- `struct quic_arng`. -/
structure QuicArng where
  first : ℕ
  last : ℕ
  deriving DecidableEq

/-- `struct quic_arngs`: a node of the tree has the first number of a range as its key and
the last one beside it. -/
@[ext] structure QuicArngs where
  root : EbUniq ℕ ℕ
  sz : ℕ
  encSz : ℕ

def sackGap (p q : ℕ × ℕ) : ℕ := sub64 (sub64 p.1 q.2) 2

/-- The loop of `quic_arngs_set_enc_sz`, from the node `ar` down. -/
def setEncSzLoop (root : EbUniq ℕ ℕ) : ℕ → ℕ × ℕ → ℕ → ℕ
  | 0, _, encSz => encSz
  | fuel + 1, ar, encSz =>
    match root.prev ar.1 with
    | none => encSz
    | some next =>
      setEncSzLoop root fuel next
        (encSz + quicIntGetsize (sackGap ar next) + quicIntGetsize (sub64 next.2 next.1))

def quicArngsSetEncSz (arngs : QuicArngs) : QuicArngs :=
  match arngs.root.last with
  | none => arngs
  | some ar =>
    { arngs with
      encSz := setEncSzLoop arngs.root arngs.root.nodes.length ar
        (quicIntGetsize ar.2 + quicIntGetsize (sub64 ar.2 ar.1) +
          quicIntGetsize (sub64 arngs.sz 1)) }

def quicInsertNewRange (root : EbUniq ℕ ℕ) (ar : QuicArng) : EbUniq ℕ ℕ :=
  root.insert ar.first ar.last

/-- The loop of `quic_update_ack_ranges_list` behind the node with the key `new`, whose range
ended at `newNodeLast` at first. -/
def mergeNextRanges (new newNodeLast : ℕ) : ℕ → QuicArngs → QuicArngs
  | 0, arngs => arngs
  | fuel + 1, arngs =>
    match arngs.root.next new with
    | none => arngs
    | some next =>
      if newNodeLast + 1 < next.1 then arngs
      else
        mergeNextRanges new newNodeLast fuel
          { arngs with
            root := (arngs.root.modify new
              fun last => if last < next.2 then next.2 else last).delete next.1
            sz := arngs.sz - 1 }

def quicUpdateAckRangesList (arngs : QuicArngs) (ar : QuicArng) : QuicArngs :=
  if arngs.root.nodes = [] then
    { arngs with root := quicInsertNewRange arngs.root ar, sz := arngs.sz + 1 }
  else
    let newInsertion : QuicArngs :=
      { arngs with root := quicInsertNewRange arngs.root ar, sz := arngs.sz + 1 }
    match arngs.root.lookupLe ar.first with
    | none =>
      quicArngsSetEncSz
        (mergeNextRanges ar.first ar.last newInsertion.root.nodes.length newInsertion)
    | some le =>
      -- an existing range
      if le.1 ≤ ar.first ∧ ar.last ≤ le.2 then arngs
      else if ar.first ≤ le.2 + 1 then
        quicArngsSetEncSz (mergeNextRanges le.1 ar.last arngs.root.nodes.length
          { arngs with root := arngs.root.modify le.1 fun _ => ar.last })
      else
        quicArngsSetEncSz
          (mergeNextRanges ar.first ar.last newInsertion.root.nodes.length newInsertion)

/-- `struct quic_tx_ack`. -/
structure QuicTxAck where
  ackDelay : ℕ
  arngs : QuicArngs

/-- The loop of `quic_build_ack_frame`, from the node `ar` down. -/
def buildAckLoop (root : EbUniq ℕ ℕ) : ℕ → ℕ × ℕ → OutBuf → Option OutBuf
  | 0, _, buf => some buf
  | fuel + 1, ar, buf =>
    match root.prev ar.1 with
    | none => some buf
    | some prevAr => do
      let buf ← quicEncInt buf (sub64 (sub64 ar.1 prevAr.2) 2)
      let buf ← quicEncInt buf (sub64 prevAr.2 prevAr.1)
      buildAckLoop root fuel prevAr buf

/-- `quic_build_ack_frame`.  It is called for trees that are not empty only. -/
def quicBuildAckFrame (txAck : QuicTxAck) (buf : OutBuf) : Option OutBuf :=
  match txAck.arngs.root.last with
  | none => none
  | some ar => do
    let buf ← quicEncInt buf ar.2
    let buf ← quicEncInt buf txAck.ackDelay
    let buf ← quicEncInt buf (sub64 txAck.arngs.sz 1)
    let buf ← quicEncInt buf (sub64 ar.2 ar.1)
    buildAckLoop txAck.arngs.root txAck.arngs.root.nodes.length ar buf

/-! ### Descending order -/

theorem sub64_eq {a b : ℕ} (hb : b ≤ a) (ha : a < 2 ^ 64) : sub64 a b = a - b := by
  rw [sub64]
  omega

/-- The size of the ranges below `ar`. -/
def tailSize : ℕ × ℕ → List (ℕ × ℕ) → ℕ
  | _, [] => 0
  | ar, q :: qs =>
    quicIntGetsize (sackGap ar q) + quicIntGetsize (sub64 q.2 q.1) + tailSize q qs

/-- The bytes of the ranges below `ar`. -/
def tailBytes : ℕ × ℕ → List (ℕ × ℕ) → List UInt8
  | _, [] => []
  | ar, q :: qs => quicInt (sackGap ar q) ++ (quicInt (sub64 q.2 q.1) ++ tailBytes q qs)

/-- The size of `sz` ranges, without the delay. -/
def rangesSize (sz : ℕ) : List (ℕ × ℕ) → ℕ
  | [] => 0
  | ar :: qs => quicIntGetsize ar.2 + quicIntGetsize (sub64 ar.2 ar.1) +
      quicIntGetsize (sub64 sz 1) + tailSize ar qs

def frameBytes (ackDelay sz : ℕ) : List (ℕ × ℕ) → List UInt8
  | [] => []
  | ar :: qs => quicInt ar.2 ++ (quicInt ackDelay ++ (quicInt (sub64 sz 1) ++
      (quicInt (sub64 ar.2 ar.1) ++ tailBytes ar qs)))

theorem length_tailBytes (ar : ℕ × ℕ) (qs : List (ℕ × ℕ)) :
    (tailBytes ar qs).length = tailSize ar qs := by
  induction qs generalizing ar with
  | nil => rfl
  | cons q qs ih =>
    rw [tailBytes, tailSize, List.length_append, List.length_append, length_quicInt,
      length_quicInt, ih, Nat.add_assoc]

theorem length_frameBytes {ackDelay sz : ℕ} {ds : List (ℕ × ℕ)} (h : ds ≠ []) :
    (frameBytes ackDelay sz ds).length = rangesSize sz ds + quicIntGetsize ackDelay := by
  cases ds with
  | nil => exact absurd rfl h
  | cons ar qs =>
    simp only [frameBytes, rangesSize, List.length_append, length_quicInt, length_tailBytes]
    omega

theorem exists_succ_of_concat_le {α : Type*} {pre : List α} {x : α} {fuel : ℕ}
    (h : (pre ++ [x]).length ≤ fuel) : ∃ n, fuel = n + 1 ∧ pre.length ≤ n := by
  rw [List.length_append, List.length_singleton] at h
  exact ⟨fuel - 1, by omega, by omega⟩

theorem setEncSzLoop_eq {root : EbUniq ℕ ℕ} {pre post : List (ℕ × ℕ)} {ar : ℕ × ℕ} {fuel : ℕ}
    (h : root.nodes = pre ++ ar :: post) (hfuel : pre.length ≤ fuel) (encSz : ℕ) :
    setEncSzLoop root fuel ar encSz = encSz + tailSize ar pre.reverse := by
  induction pre using List.reverseRecOn generalizing ar post fuel encSz with
  | nil =>
    cases fuel with
    | zero => rfl
    | succ fuel =>
      rw [setEncSzLoop, EbUniq.prev_of_split h]
      rfl
  | append_singleton pre q ih =>
    obtain ⟨fuel, rfl, hfuel'⟩ := exists_succ_of_concat_le hfuel
    have hq : root.nodes = pre ++ q :: (ar :: post) := by rw [h, List.append_assoc]; rfl
    rw [setEncSzLoop, EbUniq.prev_of_split h, List.getLast?_concat]
    show setEncSzLoop root fuel q _ = _
    rw [ih hq hfuel', List.reverse_concat, tailSize]
    omega

theorem quicArngsSetEncSz_eq (arngs : QuicArngs) (h : arngs.root.nodes ≠ []) :
    quicArngsSetEncSz arngs =
      { arngs with encSz := rangesSize arngs.sz arngs.root.nodes.reverse } := by
  obtain ⟨pre, ar, hnodes⟩ : ∃ pre ar, arngs.root.nodes = pre ++ [ar] :=
    ⟨_, _, (List.dropLast_append_getLast h).symm⟩
  have hlast : arngs.root.last = some ar := by rw [EbUniq.last, hnodes, List.getLast?_concat]
  have hlen : pre.length ≤ arngs.root.nodes.length := by
    rw [hnodes, List.length_append]
    omega
  rw [quicArngsSetEncSz, hlast]
  show QuicArngs.mk _ _ _ = QuicArngs.mk _ _ _
  rw [setEncSzLoop_eq hnodes hlen, hnodes, List.reverse_concat]
  rfl

/-! ### The frame -/

/-- The numbers of the ranges are below 2^62, and lower ranges are apart from higher ones. -/
structure Encodable (rs : List (ℕ × ℕ)) : Prop where
  apart : RangeSet.Apart rs
  bound : ∀ r ∈ rs, r.2 < 2 ^ 62

theorem Encodable.of_append {rs ss : List (ℕ × ℕ)} (h : Encodable (rs ++ ss)) :
    Encodable rs ∧ Encodable ss :=
  ⟨⟨(RangeSet.apart_append.mp h.apart).1, fun r hr => h.bound r (List.mem_append_left ss hr)⟩,
    ⟨(RangeSet.apart_append.mp h.apart).2.1, fun r hr => h.bound r (List.mem_append_right rs hr)⟩⟩

theorem Encodable.diff {rs : List (ℕ × ℕ)} (h : Encodable rs) {r : ℕ × ℕ} (hr : r ∈ rs) :
    sub64 r.2 r.1 = r.2 - r.1 ∧ r.2 - r.1 < 2 ^ 62 := by
  have hle := h.apart.valid r hr
  have hlt := h.bound r hr
  exact ⟨sub64_eq hle (by omega), by omega⟩

theorem Encodable.gap {rs : List (ℕ × ℕ)} {p q : ℕ × ℕ} {ss : List (ℕ × ℕ)}
    (h : Encodable (rs ++ q :: p :: ss)) :
    sackGap p q = p.1 - q.2 - 2 ∧ p.1 - q.2 - 2 < 2 ^ 62 := by
  obtain ⟨-, hqs⟩ := h.of_append
  obtain ⟨-, hgap, hrest⟩ := RangeSet.apart_cons.mp hqs.apart
  have hpq : q.2 + 1 < p.1 := hgap p List.mem_cons_self
  have hp := hrest.valid p List.mem_cons_self
  have hlt := hqs.bound p (List.mem_cons_of_mem q List.mem_cons_self)
  rw [sackGap, sub64_eq (a := p.1) (by omega) (by omega), sub64_eq (by omega) (by omega)]
  exact ⟨rfl, by omega⟩

theorem buildAckLoop_builds {root : EbUniq ℕ ℕ} {pre post : List (ℕ × ℕ)} {ar : ℕ × ℕ}
    {fuel : ℕ} (henc : Encodable root.nodes) (h : root.nodes = pre ++ ar :: post)
    (hfuel : pre.length ≤ fuel) :
    Builds (buildAckLoop root fuel ar) (tailBytes ar pre.reverse) := by
  induction pre using List.reverseRecOn generalizing ar post fuel with
  | nil =>
    intro l size hl
    cases fuel with
    | zero => exact builds_nil l size hl
    | succ fuel =>
      rw [buildAckLoop, EbUniq.prev_of_split h]
      exact builds_nil l size hl
  | append_singleton pre q ih =>
    obtain ⟨fuel, rfl, hfuel'⟩ := exists_succ_of_concat_le hfuel
    have hq : root.nodes = pre ++ q :: (ar :: post) := by rw [h, List.append_assoc]; rfl
    obtain ⟨hgap, hgap_lt⟩ := (hq ▸ henc).gap
    obtain ⟨hdiff, hdiff_lt⟩ := (hq ▸ henc).diff (r := q)
      (List.mem_append_right pre List.mem_cons_self)
    have hstep : buildAckLoop root (fuel + 1) ar = fun buf =>
        (quicEncInt buf (sackGap ar q)).bind fun buf =>
          (quicEncInt buf (sub64 q.2 q.1)).bind (buildAckLoop root fuel q) := by
      funext buf
      rw [buildAckLoop, EbUniq.prev_of_split h, List.getLast?_concat]
      rfl
    rw [hstep, List.reverse_concat, tailBytes]
    exact (builds_quicEncInt (hgap ▸ hgap_lt)).bind
      ((builds_quicEncInt (hdiff ▸ hdiff_lt)).bind (ih hq hfuel'))

/-- **The frame** of ranges that can be encoded. -/
theorem builds_ackFrame (txAck : QuicTxAck) (henc : Encodable txAck.arngs.root.nodes)
    (hne : txAck.arngs.root.nodes ≠ []) (hdelay : txAck.ackDelay < 2 ^ 62)
    (hsz : sub64 txAck.arngs.sz 1 < 2 ^ 62) :
    Builds (quicBuildAckFrame txAck)
      (frameBytes txAck.ackDelay txAck.arngs.sz txAck.arngs.root.nodes.reverse) := by
  obtain ⟨pre, ar, hnodes⟩ : ∃ pre ar, txAck.arngs.root.nodes = pre ++ [ar] :=
    ⟨_, _, (List.dropLast_append_getLast hne).symm⟩
  have hlast : txAck.arngs.root.last = some ar := by rw [EbUniq.last, hnodes, List.getLast?_concat]
  have hmem : ar ∈ txAck.arngs.root.nodes := hnodes ▸ List.mem_append_right pre List.mem_cons_self
  have hlen : pre.length ≤ txAck.arngs.root.nodes.length := by
    rw [hnodes, List.length_append]
    omega
  obtain ⟨hdiff, hdiff_lt⟩ := henc.diff hmem
  have hbuild : quicBuildAckFrame txAck = fun buf =>
      (quicEncInt buf ar.2).bind fun buf => (quicEncInt buf txAck.ackDelay).bind fun buf =>
        (quicEncInt buf (sub64 txAck.arngs.sz 1)).bind fun buf =>
          (quicEncInt buf (sub64 ar.2 ar.1)).bind
            (buildAckLoop txAck.arngs.root txAck.arngs.root.nodes.length ar) := by
    funext buf
    rw [quicBuildAckFrame, hlast]
    rfl
  have hrev : txAck.arngs.root.nodes.reverse = ar :: pre.reverse := by
    rw [hnodes, List.reverse_concat]
  rw [hbuild, hrev, frameBytes]
  exact (builds_quicEncInt (henc.bound ar hmem)).bind ((builds_quicEncInt hdelay).bind
    ((builds_quicEncInt hsz).bind ((builds_quicEncInt (hdiff ▸ hdiff_lt)).bind
      (buildAckLoop_builds henc hnodes hlen))))

end Quic

end SmartHAProxy
