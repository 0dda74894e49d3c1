/-
Turns shared by the quotients of scores.

The candidates of a finite set have weights, `W` in total.  In each turn every candidate gains
its weight, and the one that takes the turn pays `W`.  It is a candidate of the highest level,
where the level is the quotient of the score by `W`, rounded down; which one of them does not
matter.

A score never falls below `-W` (`turns_le`): the scores of a turn add up to `W`, so that
somebody has a positive one, and a candidate of the highest level pays with a score of 0 at
least.  After `W` turns each candidate has had as many turns as its weight (`turns_eq`): in the
last one exactly one score is a whole `W`, and all others are 0.
-/
import Mathlib.Algebra.Order.BigOperators.Group.Finset
import Mathlib.Algebra.BigOperators.Ring.Finset
import Mathlib.Tactic.Linarith
import Mathlib.Tactic.Ring

namespace SmartHAProxy

namespace Quota

variable {ι : Type*} [DecidableEq ι]

/-- The number of turns that `i` takes among the first `n`. -/
def turns (pick : ℕ → ι) (i : ι) (n : ℕ) : ℕ := ((Finset.range n).filter (pick · = i)).card

theorem turns_zero (pick : ℕ → ι) (i : ι) : turns pick i 0 = 0 := rfl

theorem turns_succ (pick : ℕ → ι) (i : ι) (n : ℕ) :
    turns pick i (n + 1) = turns pick i n + if pick n = i then 1 else 0 := by
  rw [turns, Finset.range_add_one, Finset.filter_insert]
  split_ifs with h
  · rw [Finset.card_insert_of_notMem fun hmem => Finset.notMem_range_self (Finset.mem_filter.mp hmem).1]
    rfl
  · rfl

theorem turns_congr {pick pick' : ℕ → ι} {n : ℕ} (h : ∀ m < n, pick m = pick' m) (i : ι) :
    turns pick i n = turns pick' i n := by
  refine congrArg Finset.card (Finset.filter_congr fun m hm => ?_)
  rw [h m (Finset.mem_range.mp hm)]

variable (s : Finset ι) (w : ι → ℕ) (pick : ℕ → ι)

/-- The score of `i` in turn `n`, once its weight is gained. -/
def score (i : ι) (n : ℕ) : ℤ := (n + 1) * w i - (∑ j ∈ s, w j : ℕ) * turns pick i n

/-- A candidate of the highest level takes turn `n`. -/
def Highest (n : ℕ) : Prop :=
  pick n ∈ s ∧ ∀ j ∈ s, score s w pick j n / (∑ j ∈ s, w j : ℕ) ≤
    score s w pick (pick n) n / (∑ j ∈ s, w j : ℕ)

variable {s w pick}

theorem sum_turns {n : ℕ} (h : ∀ m < n, pick m ∈ s) : ∑ i ∈ s, turns pick i n = n := by
  refine Eq.trans ?_ (Finset.card_range n)
  exact (Finset.card_eq_sum_card_fiberwise fun m hm => h m (Finset.mem_range.mp hm)).symm

theorem sum_score {n : ℕ} (h : ∀ m < n, pick m ∈ s) :
    ∑ i ∈ s, score s w pick i n = (∑ j ∈ s, w j : ℕ) := by
  have hturns : ∑ i ∈ s, (turns pick i n : ℤ) = n := by
    rw [← Nat.cast_sum, sum_turns h]
  simp only [score]
  rw [Finset.sum_sub_distrib, ← Finset.mul_sum, ← Finset.mul_sum, hturns]
  push_cast
  ring

theorem Highest.nonneg {n : ℕ} (hn : Highest s w pick n) (h : ∀ m < n, pick m ∈ s)
    (hpos : 0 < ∑ j ∈ s, w j) : 0 ≤ score s w pick (pick n) n := by
  obtain ⟨j, hj, hscore⟩ : ∃ j ∈ s, 0 < score s w pick j n := by
    apply Finset.exists_lt_of_sum_lt
    rw [Finset.sum_const_zero, sum_score h]
    exact Int.natCast_pos.mpr hpos
  have hlevel := hn.2 j hj
  have hnonneg := Int.ediv_nonneg hscore.le (Int.natCast_nonneg (∑ j ∈ s, w j))
  exact (Int.ediv_nonneg_iff_of_pos (Int.natCast_pos.mpr hpos)).mp (hnonneg.trans hlevel)

/-- **No score falls below the total**, with its sign changed. -/
theorem turns_le {n : ℕ} (h : ∀ m < n, Highest s w pick m) (hpos : 0 < ∑ j ∈ s, w j) (i : ι) :
    (∑ j ∈ s, w j) * turns pick i n ≤ n * w i + ∑ j ∈ s, w j := by
  induction n with
  | zero => simp [turns_zero]
  | succ n ih =>
    have hle := ih fun m hm => h m (Nat.lt_succ_of_lt hm)
    rw [turns_succ]
    split_ifs with hpick
    · -- who takes the turn can pay for it without going below
      have hnonneg := (h n (Nat.lt_succ_self n)).nonneg
        (fun m hm => (h m (Nat.lt_succ_of_lt hm)).1) hpos
      rw [hpick, score] at hnonneg
      have hcast : (((∑ j ∈ s, w j) * turns pick i n : ℕ) : ℤ) ≤ (((n + 1) * w i : ℕ) : ℤ) := by
        push_cast
        push_cast at hnonneg
        linarith
      rw [Nat.mul_add, Nat.mul_one]
      exact Nat.add_le_add_right (Int.ofNat_le.mp hcast) _
    · rw [Nat.add_zero]
      exact hle.trans (Nat.add_le_add_right (Nat.mul_le_mul_right _ (Nat.le_succ n)) _)

/-- **Every candidate takes as many turns as its weight**, in as many turns as all weights. -/
theorem turns_eq (h : ∀ m < ∑ j ∈ s, w j, Highest s w pick m) (hw : ∀ i ∈ s, 0 < w i) {i : ι}
    (hi : i ∈ s) : turns pick i (∑ j ∈ s, w j) = w i := by
  have hmem : ∀ m < ∑ j ∈ s, w j, pick m ∈ s := fun m hm => (h m hm).1
  have hle : ∀ i ∈ s, turns pick i (∑ j ∈ s, w j) ≤ w i := by
    intro i hi
    have hpos : 0 < ∑ j ∈ s, w j := Finset.sum_pos hw ⟨i, hi⟩
    obtain ⟨n, hn⟩ : ∃ n, ∑ j ∈ s, w j = n + 1 := Nat.exists_eq_add_one.mpr hpos
    have hlast : n < ∑ j ∈ s, w j := hn ▸ Nat.lt_succ_self n
    -- before the last turn nobody has had too many
    have hbefore : ∀ j ∈ s, turns pick j n ≤ w j := by
      intro j hj
      have hbound := turns_le (fun m hm => h m (Nat.lt_trans hm hlast)) hpos j
      have hwj := hw j hj
      by_contra hgt
      have hmul : (∑ j ∈ s, w j) * (w j + 1) ≤ (∑ j ∈ s, w j) * turns pick j n :=
        Nat.mul_le_mul_left _ (Nat.lt_of_not_le hgt)
      rw [hn] at hmul hbound
      have hexpand : (n + 1) * (w j + 1) = n * w j + w j + (n + 1) := by ring
      omega
    have hlevel : ∀ j, score s w pick j n / (∑ j ∈ s, w j : ℕ) = (w j : ℤ) - turns pick j n := by
      intro j
      have hscore : score s w pick j n = (∑ j ∈ s, w j : ℕ) * ((w j : ℤ) - turns pick j n) := by
        rw [score, hn]
        push_cast
        ring
      rw [hscore]
      exact Int.mul_ediv_cancel_left _ (Int.natCast_ne_zero.mpr hpos.ne')
    rw [hn, turns_succ]
    split_ifs with hpick
    · -- somebody is still owed a turn, and so is who takes the last one
      obtain ⟨j, hj, hless⟩ : ∃ j ∈ s, turns pick j n < w j := by
        apply Finset.exists_lt_of_sum_lt
        rw [sum_turns fun m hm => hmem m (Nat.lt_trans hm hlast)]
        exact hlast
      have hhigh := (h n hlast).2 j hj
      rw [hlevel, hlevel, hpick] at hhigh
      omega
    · exact hbefore i hi
  exact (Finset.sum_eq_sum_iff_of_le hle).mp (sum_turns hmem) i hi

end Quota

end SmartHAProxy
