/-
Tests on all the bytes of a word at once.

A word is a list of bytes, the lowest one first (`digitsWord`).  The same byte is
subtracted from each byte, modulo the size of the word, and the top bits are
tested: they are all clear exactly if no byte leaves a range of 128 values
(`topBits_sub_iff`).  A borrow does not matter: the lowest byte that borrows has
its top bit set.
-/
import Mathlib.Data.Nat.Bitwise

namespace SmartHAProxy

variable {bs : List ℕ} {k : ℕ}

/-! ### Words -/

/-- The word with the given bytes, the lowest one first. -/
def digitsWord : List ℕ → ℕ
  | [] => 0
  | b :: bs => b + 256 * digitsWord bs

/-- The same byte in all places of a word. -/
def repeated (k : ℕ) : ℕ → ℕ
  | 0 => 0
  | n + 1 => k + 256 * repeated k n

/-- A word minus the same byte in each place, as the machine subtracts. -/
def subRepeated (k : ℕ) (bs : List ℕ) : ℕ :=
  (256 ^ bs.length - repeated k bs.length + digitsWord bs) % 256 ^ bs.length

theorem digitsWord_lt (h : ∀ b ∈ bs, b < 256) : digitsWord bs < 256 ^ bs.length := by
  induction bs with
  | nil => exact Nat.one_pos
  | cons b bs ih =>
    obtain ⟨hb, hbs⟩ := List.forall_mem_cons.mp h
    have := ih hbs
    rw [digitsWord, List.length_cons, Nat.pow_succ]
    omega

theorem repeated_le (hk : k < 256) (n : ℕ) : repeated k n < 256 ^ n := by
  induction n with
  | zero => exact Nat.one_pos
  | succ n ih =>
    rw [repeated, Nat.pow_succ]
    omega

/-! ### Subtraction -/

theorem subRepeated_cons {b : ℕ} (hk : k < 256) (hb : b < 256) (h : k ≤ b) :
    subRepeated k (b :: bs) = b - k + 256 * subRepeated k bs := by
  have hr := repeated_le hk bs.length
  unfold subRepeated
  rw [List.length_cons, repeated, digitsWord, Nat.pow_succ]
  have hsum : 256 ^ bs.length * 256 - (k + 256 * repeated k bs.length) +
      (b + 256 * digitsWord bs) =
      b - k + 256 * (256 ^ bs.length - repeated k bs.length + digitsWord bs) := by
    omega
  have hlow : b - k < 256 := (Nat.sub_le b k).trans_lt hb
  rw [hsum, Nat.mul_comm (256 ^ bs.length) 256, Nat.mod_mul, Nat.add_mul_mod_self_left,
    Nat.mod_eq_of_lt hlow, Nat.add_mul_div_left _ _ (by decide : 0 < 256),
    Nat.div_eq_of_lt hlow, Nat.zero_add]

theorem subRepeated_borrow {b : ℕ} (hk : k < 256) (h : b < k) :
    subRepeated k (b :: bs) % 256 = b + 256 - k := by
  have hr := repeated_le hk bs.length
  unfold subRepeated
  rw [List.length_cons, repeated, digitsWord, Nat.pow_succ, Nat.mul_comm (256 ^ bs.length) 256,
    Nat.mod_mul_right_mod]
  omega

/-! ### Top bits -/

theorem and_top_eq_zero {d : ℕ} (hd : d < 256) : d &&& 128 = 0 ↔ d < 128 := by
  have htop : d &&& 2 ^ 7 = (d.testBit 7).toNat * 2 ^ 7 := Nat.and_two_pow d 7
  have hbit : d.testBit 7 = decide (d / 2 ^ 7 % 2 = 1) := Nat.testBit_eq_decide_div_mod_eq
  show d &&& 2 ^ 7 = 0 ↔ _
  rw [htop, hbit]
  by_cases h : d < 128
  · have hzero : ¬d / 2 ^ 7 % 2 = 1 := by omega
    rw [decide_eq_false hzero]
    exact iff_of_true rfl h
  · have hone : d / 2 ^ 7 % 2 = 1 := by omega
    rw [decide_eq_true hone]
    exact iff_of_false (by decide) h

theorem and_repeated_eq_zero (x n : ℕ) :
    x &&& repeated 128 (n + 1) = 0 ↔ x % 256 < 128 ∧ x / 256 &&& repeated 128 n = 0 := by
  have hmod : (x &&& repeated 128 (n + 1)) % 2 ^ 8 = x % 256 &&& 128 := by
    have h128 : repeated 128 (n + 1) % 2 ^ 8 = 128 := by
      rw [repeated]
      omega
    rw [Nat.and_mod_two_pow, h128]
  have hdiv : (x &&& repeated 128 (n + 1)) / 2 ^ 8 = x / 256 &&& repeated 128 n := by
    have h128 : repeated 128 (n + 1) / 2 ^ 8 = repeated 128 n := by
      rw [repeated]
      omega
    rw [Nat.and_div_two_pow, h128]
  rw [← and_top_eq_zero (Nat.mod_lt x (by decide)), ← hmod, ← hdiv]
  omega

/-- **The top bits after a subtraction** are clear if each byte is in the range from `k` on. -/
theorem topBits_sub_iff (hk : k ≤ 128) (h : ∀ b ∈ bs, b < 256) :
    subRepeated k bs &&& repeated 128 bs.length = 0 ↔ ∀ b ∈ bs, k ≤ b ∧ b < k + 128 := by
  induction bs with
  | nil => simp [repeated]
  | cons b bs ih =>
    obtain ⟨hb, hbs⟩ := List.forall_mem_cons.mp h
    rw [List.length_cons, and_repeated_eq_zero, List.forall_mem_cons, ← ih hbs]
    by_cases hkb : k ≤ b
    · rw [subRepeated_cons (by omega) hb hkb]
      have hmod : (b - k + 256 * subRepeated k bs) % 256 = b - k := by omega
      have hdiv : (b - k + 256 * subRepeated k bs) / 256 = subRepeated k bs := by omega
      rw [hmod, hdiv]
      refine and_congr_left' ?_
      omega
    · rw [subRepeated_borrow (by omega) (Nat.lt_of_not_le hkb)]
      refine iff_of_false (fun h => ?_) fun h => hkb h.1.1
      omega

theorem subRepeated_eq (hk : k < 256) (h : ∀ b ∈ bs, k ≤ b ∧ b < 256) :
    subRepeated k bs = digitsWord (bs.map (· - k)) := by
  induction bs with
  | nil => exact Nat.mod_one _
  | cons b bs ih =>
    obtain ⟨⟨hkb, hb⟩, hbs⟩ := List.forall_mem_cons.mp h
    rw [subRepeated_cons hk hb hkb, ih hbs]
    rfl

end SmartHAProxy
