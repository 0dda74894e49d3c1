/-
Blocks are removed from a message.

A removal changes no payload and no other descriptor.  Whatever it does to the
rooms, the head and the tail, the used blocks that remain are those that were
not removed.
-/
import Mathlib.Data.List.Sort
import SmartHAProxy.Htx.Shape

namespace SmartHAProxy

namespace HtxBuf

variable {htx htx' : HtxBuf} {h n p e : ℕ}

/-! ### One block -/

/-- `htx'` is `htx` without the block at the position `p`. -/
structure Removed (htx htx' : HtxBuf) (p : ℕ) : Prop where
  mem : ∀ q, q ∈ htx'.usedSlots ↔ q ∈ htx.usedSlots ∧ q ≠ p
  blk : ∀ q, q ≠ p → htx'.blk q = htx.blk q
  area : htx'.area = htx.area

theorem entry_congr (hblk : htx'.blk p = htx.blk p) (harea : htx'.area = htx.area) :
    htx'.entry p = htx.entry p := by
  rw [entry, entry, payload, payload, hblk, harea]

/-- The marks that a removal leaves: the head or the tail moves, and the block is unused. -/
structure Marked (htx htx' : HtxBuf) (h n p : ℕ) : Prop where
  head : htx'.head = if p = h then some (h + 1) else some h
  tail : htx'.tail = if p ≠ h ∧ p + 1 = n then posBefore p else posBefore n
  blk : ∀ q, q ≠ p → htx'.blk q = htx.blk q
  unused : (htx'.blk p).used = false
  area : htx'.area = htx.area
  data : htx'.data = if (htx.blk p).used then sub32 htx.data (htx.blk p).getBlksz else htx.data
  size : htx'.size = htx.size

theorem tail_eq_some (ht : htx.tail = posBefore n) (hlt : h < n) (p : ℕ) :
    htx.tail = some p ↔ p + 1 = n := by
  obtain ⟨n, rfl⟩ : ∃ k, n = k + 1 := ⟨n - 1, by omega⟩
  rw [ht, posBefore_succ, Option.some.injEq]
  omega

theorem head_ne_tail (hh : htx.head = some h) (ht : htx.tail = posBefore n) (hlt : h < n) :
    htx.head = htx.tail ↔ h + 1 = n := by
  rw [hh, ← tail_eq_some ht hlt h]
  exact eq_comm

theorem removeBlk_last (hh : htx.head = some h) (ht : htx.tail = posBefore n) (hone : h + 1 = n) :
    htx.removeBlk p = (none, { htx.reset with flags := htx.flags }) :=
  if_pos ((head_ne_tail hh ht (by omega)).mpr hone)

theorem removeBlk_marked (hh : htx.head = some h) (ht : htx.tail = posBefore n) (hlow : h ≤ p)
    (hhigh : p < n) (hmore : h + 1 ≠ n) :
    (htx.removeBlk p).1 = (if p + 1 < n then some (p + 1) else none) ∧
      Marked htx (htx.removeBlk p).2 h n p := by
  have hlt : h < n := by omega
  have hhead : htx.head = some p ↔ p = h := by
    rw [hh, Option.some.injEq]
    exact eq_comm
  have hlast := tail_eq_some ht hlt p
  rw [removeBlk, if_neg fun heq => hmore ((head_ne_tail hh ht hlt).mp heq)]
  refine ⟨?_, ?_, ?_, fun q hq => ?_, ?_, rfl, rfl, rfl⟩
  · simp only [hlast, hhead, ne_eq]
    by_cases hend : p + 1 = n
    · rw [if_pos ⟨by omega, hend⟩, if_neg (by omega)]
    · rw [if_neg fun hand => hend hand.2, if_pos (by omega)]
  · simp only [hhead]
    by_cases hph : p = h
    · rw [if_pos hph, if_pos hph, hph]
    · rw [if_neg hph, if_neg hph, hh]
  · simp only [hlast, hhead, ne_eq]
    rw [ht]
  · dsimp only [markUnused]
    split_ifs
    · exact Function.update_of_ne hq _ _
    · rfl
  · dsimp only [markUnused]
    split_ifs with hused
    · rw [Function.update_self]
      show (htxBlkUnused * 2 ^ 28 / 2 ^ 28 != htxBlkUnused) = false
      decide
    · exact Bool.eq_false_iff.mpr hused

theorem mem_usedSlots_iff (hh : htx.head = some h) (ht : htx.tail = posBefore n) {q : ℕ} :
    q ∈ htx.usedSlots ↔ (h ≤ q ∧ q < n) ∧ (htx.blk q).used = true := by
  rw [mem_usedSlots, slots_eq hh ht, List.mem_range'_1]
  refine and_congr_left fun _ => ?_
  omega

theorem usedSlots_ext {us : List ℕ} (hus : us.Pairwise (· < ·))
    (h : ∀ q, q ∈ htx.usedSlots ↔ q ∈ us) : htx.usedSlots = us :=
  (usedSlots_pairwise htx).eq_of_mem_iff hus h

theorem Marked.removed (hh : htx.head = some h) (ht : htx.tail = posBefore n) (hlow : h ≤ p)
    (hhigh : p < n) (hm : Marked htx htx' h n p) : Removed htx htx' p := by
  refine ⟨fun q => ?_, hm.blk, hm.area⟩
  have hhead := hm.head
  have htail := hm.tail
  rw [mem_usedSlots_iff hh ht]
  -- the head moves, or the tail, or only the mark is left
  by_cases hph : p = h
  · rw [if_pos hph] at hhead
    rw [if_neg fun hand => hand.1 hph] at htail
    rw [mem_usedSlots_iff hhead htail]
    constructor
    · rintro ⟨hrange, hused⟩
      have hne : q ≠ p := by omega
      rw [hm.blk q hne] at hused
      exact ⟨⟨by omega, hused⟩, hne⟩
    · rintro ⟨⟨hrange, hused⟩, hne⟩
      rw [hm.blk q hne]
      exact ⟨by omega, hused⟩
  rw [if_neg hph] at hhead
  have hrange : ∃ m, htx'.tail = posBefore m ∧ m ≤ n ∧ ∀ q, q ≠ p → (q < m ↔ q < n) := by
    by_cases hend : p + 1 = n
    · rw [if_pos ⟨hph, hend⟩] at htail
      exact ⟨p, htail, by omega, fun q hq => by omega⟩
    · rw [if_neg fun hand => hend hand.2] at htail
      exact ⟨n, htail, Nat.le_refl n, fun q _ => Iff.rfl⟩
  obtain ⟨m, hm', -, hiff⟩ := hrange
  rw [mem_usedSlots_iff hhead hm']
  constructor
  · rintro ⟨⟨hq, hqm⟩, hused⟩
    have hne : q ≠ p := by
      rintro rfl
      exact absurd (hm.unused.symm.trans hused) Bool.false_ne_true
    rw [hm.blk q hne] at hused
    exact ⟨⟨⟨hq, (hiff q hne).mp hqm⟩, hused⟩, hne⟩
  · rintro ⟨⟨⟨hq, hqn⟩, hused⟩, hne⟩
    rw [hm.blk q hne]
    exact ⟨⟨hq, (hiff q hne).mpr hqn⟩, hused⟩

/-- **One removal.**  The next position is the one above, if there is one. -/
theorem removeBlk_removed (hh : htx.head = some h) (ht : htx.tail = posBefore n) (hlow : h ≤ p)
    (hhigh : p < n) :
    (htx.removeBlk p).1 = (if p + 1 < n then some (p + 1) else none) ∧
      Removed htx (htx.removeBlk p).2 p ∧
      (p + 1 < n → (htx.removeBlk p).2.head = (if p = h then some (h + 1) else some h) ∧
        (htx.removeBlk p).2.tail = posBefore n) := by
  by_cases hone : h + 1 = n
  · rw [removeBlk_last hh ht hone]
    have hp : p = h := by omega
    refine ⟨(if_neg (by omega)).symm, ⟨fun q => ?_, fun _ _ => rfl, rfl⟩, fun hlt => by omega⟩
    rw [mem_usedSlots_iff hh ht, usedSlots, slots_blank rfl]
    constructor
    · intro hq
      cases hq
    · rintro ⟨⟨hrange, -⟩, hne⟩
      omega
  · obtain ⟨hnext, hm⟩ := removeBlk_marked hh ht hlow hhigh hone
    refine ⟨hnext, hm.removed hh ht hlow hhigh, fun hlt => ⟨hm.head, ?_⟩⟩
    rw [hm.tail, if_neg (by omega)]

/-! ### Several blocks -/

/-- `htx'` is `htx` without the blocks from `p` on and below `e`. -/
structure Cleared (htx htx' : HtxBuf) (p e : ℕ) : Prop where
  mem : ∀ q, q ∈ htx'.usedSlots ↔ q ∈ htx.usedSlots ∧ (q < p ∨ e ≤ q)
  entry : ∀ q, q < p ∨ e ≤ q → htx'.entry q = htx.entry q

theorem cleared_refl (htx : HtxBuf) (p : ℕ) : Cleared htx htx p p :=
  ⟨fun q => (and_iff_left (Nat.lt_or_ge q p)).symm, fun _ _ => rfl⟩

theorem Removed.cleared {htx₁ : HtxBuf} (hr : Removed htx htx₁ p)
    (hc : Cleared htx₁ htx' (p + 1) e) (hpe : p < e) : Cleared htx htx' p e := by
  refine ⟨fun q => ?_, fun q hq => ?_⟩
  · rw [hc.mem, hr.mem, and_assoc]
    refine and_congr_right fun _ => ?_
    omega
  · have hne : q ≠ p := by omega
    rw [hc.entry q (by omega), entry_congr (hr.blk q hne) hr.area]

theorem Cleared.content (hc : Cleared htx htx' p e) {us : List ℕ} (hus : us.Pairwise (· < ·))
    (hmem : ∀ q, q ∈ us ↔ q ∈ htx.usedSlots ∧ (q < p ∨ e ≤ q)) :
    htx'.content = us.map htx.entry := by
  have hslots : htx'.usedSlots = us := usedSlots_ext hus fun q => (hc.mem q).trans (hmem q).symm
  rw [HtxBuf.content, hslots]
  exact List.map_congr_left fun q hq => hc.entry q ((hmem q).mp hq).2

/-- **The loops** up to the block at `e`, or to the end. -/
theorem removeUntil_cleared (stop : Option ℕ) (fuel : ℕ) (hh : htx.head = some h)
    (ht : htx.tail = posBefore n) (hlow : h ≤ p) (hhigh : p < n) (hpe : p ≤ e)
    (hfuel : e - p < fuel) (hstop : stop = none ∧ e = n ∨ stop = some e ∧ e < n) :
    Cleared htx (removeUntil stop fuel (some p) htx) p e ∧
      (e < n → (removeUntil stop fuel (some p) htx).head = (if p = h then some e else some h) ∧
        (removeUntil stop fuel (some p) htx).tail = posBefore n) := by
  induction fuel generalizing htx h p with
  | zero => exact absurd hfuel (Nat.not_lt_zero _)
  | succ fuel ih =>
    rw [removeUntil]
    by_cases hend : some p = stop
    · -- the block to stop at
      have heq : e = p := by
        rcases hstop with ⟨rfl, -⟩ | ⟨rfl, -⟩
        · cases hend
        · exact (Option.some.inj hend).symm
      rw [if_pos hend, heq]
      refine ⟨cleared_refl htx p, fun _ => ⟨?_, ht⟩⟩
      rw [hh]
      split_ifs with hph
      · rw [hph]
      · rfl
    rw [if_neg hend]
    have hlt : p < e := by
      rcases hstop with ⟨-, rfl⟩ | ⟨rfl, -⟩
      · exact hhigh
      · exact lt_of_le_of_ne hpe fun heq => hend (congrArg some heq)
    obtain ⟨hnext, hr, hframe⟩ := removeBlk_removed hh ht hlow hhigh
    generalize htx.removeBlk p = r at hnext hr hframe ⊢
    obtain ⟨next, htx₁⟩ := r
    dsimp only at hnext hr hframe ⊢
    by_cases hmore : p + 1 < n
    · rw [if_pos hmore] at hnext
      obtain ⟨hh₁, ht₁⟩ := hframe hmore
      obtain ⟨h₁, hh₁', hlow₁, hiff⟩ : ∃ h₁, htx₁.head = some h₁ ∧ h₁ ≤ p + 1 ∧
          (if p + 1 = h₁ then some e else some h₁) = if p = h then some e else some h := by
        rw [hh₁]
        by_cases hph : p = h
        · exact ⟨h + 1, if_pos hph, by omega, by rw [if_pos hph, if_pos (by omega)]⟩
        · exact ⟨h, if_neg hph, by omega, by rw [if_neg hph, if_neg (by omega)]⟩
      obtain ⟨hc, hrest⟩ := ih hh₁' ht₁ hlow₁ hmore (by omega) (by omega)
      rw [hnext, ← hiff]
      exact ⟨hr.cleared hc hlt, hrest⟩
    · have hen : e = n := by omega
      rw [if_neg hmore] at hnext
      have hdone : removeUntil stop fuel next htx₁ = htx₁ := by
        rw [hnext]
        cases fuel <;> rfl
      have hep : e = p + 1 := by omega
      rw [hdone, hep]
      refine ⟨hr.cleared (cleared_refl htx₁ (p + 1)) (Nat.lt_succ_self p), fun hlt' => ?_⟩
      omega

end HtxBuf

end SmartHAProxy
