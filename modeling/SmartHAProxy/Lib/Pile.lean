/-
Sharing a number of slots among weighted members, the remainder included.

Each member has an interval of its weight.  When the intervals are piled up,
each one starting where the one before it ends, the quotients at the ends of
the intervals telescope: what the members get of a remainder adds up to the
remainder (`Piled.sum_share`), and the shares of all slots to all slots
(`Piled.sum_slots`).
-/
import Mathlib.Algebra.BigOperators.Ring.List
import Mathlib.Algebra.Order.Ring.Nat
import Mathlib.Data.List.Nodup

namespace SmartHAProxy

/-- The intervals `[base i, base i + w i)` of a list of members are piled up, from `a` on. -/
def Piled {ι : Type*} (w base : ι → ℕ) : ℕ → List ι → Prop
  | _, [] => True
  | a, i :: l => base i = a ∧ Piled w base (a + w i) l

namespace Piled

variable {ι : Type*} {w base w' base' : ι → ℕ} {a : ℕ} {l l' : List ι}

theorem append : Piled w base a (l ++ l') ↔
    Piled w base a l ∧ Piled w base (a + (l.map w).sum) l' := by
  induction l generalizing a with
  | nil => exact (true_and _).symm ▸ Iff.rfl
  | cons i l ih =>
    show _ ∧ Piled w base (a + w i) (l ++ l') ↔ (_ ∧ Piled w base (a + w i) l) ∧ _
    rw [ih, List.map_cons, List.sum_cons, ← Nat.add_assoc, and_assoc]

theorem congr (h : Piled w base a l) (hw : ∀ i ∈ l, w' i = w i) (hb : ∀ i ∈ l, base' i = base i) :
    Piled w' base' a l := by
  induction l generalizing a with
  | nil => trivial
  | cons i l ih =>
    refine ⟨(hb i List.mem_cons_self).trans h.1, ?_⟩
    rw [hw i List.mem_cons_self]
    exact ih h.2 (fun j hj => hw j (List.mem_cons_of_mem _ hj))
      fun j hj => hb j (List.mem_cons_of_mem _ hj)

/-- What a member gets of a remainder `r` of slots. -/
def share (w base : ι → ℕ) (W r : ℕ) (i : ι) : ℕ := (base i + w i) * r / W - base i * r / W

theorem share_le_of_le {W r : ℕ} {i : ι} (hi : w i ≤ W) : share w base W r i ≤ r := by
  unfold share
  rcases Nat.eq_zero_or_pos W with rfl | hW
  · rw [Nat.div_zero, Nat.zero_sub]
    exact Nat.zero_le r
  · have hle : (base i + w i) * r / W ≤ (base i * r + r * W) / W := by
      apply Nat.div_le_div_right
      rw [Nat.add_mul, Nat.mul_comm (w i)]
      exact Nat.add_le_add_left (Nat.mul_le_mul_left r hi) _
    rw [Nat.add_mul_div_right _ _ hW] at hle
    omega

/-- **The shares of a remainder telescope.** -/
theorem sum_share (h : Piled w base a l) (W r : ℕ) :
    a * r / W + (l.map (share w base W r)).sum = (a + (l.map w).sum) * r / W := by
  induction l generalizing a with
  | nil => rfl
  | cons i l ih =>
    have hle : a * r / W ≤ (a + w i) * r / W :=
      Nat.div_le_div_right (Nat.mul_le_mul_right r (Nat.le_add_right a _))
    have htail := ih h.2
    rw [List.map_cons, List.sum_cons, List.map_cons, List.sum_cons, ← Nat.add_assoc a, ← htail,
      share, h.1]
    omega

/-- **Every slot is somebody's**, when the weights add up to the divisor. -/
theorem sum_slots (h : Piled w base a l) {W : ℕ} (hW : (l.map w).sum = W) (hpos : 0 < W)
    (slots : ℕ) :
    (l.map fun i => w i * (slots / W) + share w base W (slots % W) i).sum = slots := by
  have hshare := h.sum_share W (slots % W)
  rw [hW, Nat.add_mul, Nat.mul_comm W, Nat.add_mul_div_right _ _ hpos] at hshare
  have hsplit : (l.map fun i => w i * (slots / W) + share w base W (slots % W) i).sum =
      (l.map w).sum * (slots / W) + (l.map (share w base W (slots % W))).sum := by
    rw [List.sum_map_add, List.sum_map_mul_right]
  rw [hsplit, hW, Nat.add_left_cancel hshare]
  exact Nat.div_add_mod slots W

theorem push {i : ι} (h : Piled w base 0 l) (hbase : base i = (l.map w).sum) :
    Piled w base 0 (l ++ [i]) :=
  append.mpr ⟨h, hbase.trans (Nat.zero_add _).symm, trivial⟩

theorem takeOff [DecidableEq ι] {i : ι} (h : Piled w base 0 l) (hl : l.Nodup)
    (hpos : ∀ j ∈ l, 0 < w j) (hbase : base i = ((l.filter (· ≠ i)).map w).sum) :
    Piled w base 0 (l.filter (· ≠ i)) := by
  have hself {l : List ι} (hil : i ∉ l) : l.filter (· ≠ i) = l := by
    rw [List.filter_eq_self]
    exact fun j hj => decide_eq_true fun he => hil (he ▸ hj)
  by_cases hi : i ∈ l
  · obtain ⟨p, q, rfl⟩ := List.append_of_mem hi
    rw [List.nodup_append] at hl
    obtain ⟨-, hq, hpq⟩ := hl
    have hip : i ∉ p := fun hmem => hpq i hmem i List.mem_cons_self rfl
    have hiq : i ∉ q := (List.nodup_cons.mp hq).1
    rw [List.filter_append, hself hip, List.filter_cons_of_neg (by simp), hself hiq] at hbase ⊢
    obtain ⟨hp, hstart, -⟩ := append.mp h
    rw [List.map_append, List.sum_append] at hbase
    -- nothing with a weight is above it
    cases q with
    | nil => rwa [List.append_nil]
    | cons j q =>
      have hj := hpos j (by simp)
      rw [List.map_cons, List.sum_cons] at hbase
      omega
  · rwa [hself hi]

end Piled

end SmartHAProxy
