/-
Strings of bits and the numbers they are, most significant bit first.

A number of `n` bits is written with `toBits n`, and `bitsVal` reads it.  The first
`k` bits of a string are its number without the other bits (`bitsVal_take`), so that
a prefix of a string is told from a quotient (`prefix_iff_bitsVal`).  A string of zero
bits goes on behind every string (`window`): that is what a reader of fixed words
gets at the end of its input.
-/
import Mathlib.Data.List.Infix
import Mathlib.Tactic.Ring

namespace SmartHAProxy

open scoped List

def bitsVal : List Bool → ℕ
  | [] => 0
  | b :: bs => b.toNat * 2 ^ bs.length + bitsVal bs

/-- The last `n` bits of a number. -/
def toBits : ℕ → ℕ → List Bool
  | 0, _ => []
  | n + 1, v => (v / 2 ^ n % 2 == 1) :: toBits n v

@[simp] theorem length_toBits (n v : ℕ) : (toBits n v).length = n := by
  induction n with
  | zero => rfl
  | succ n ih => rw [toBits, List.length_cons, ih]

theorem bitsVal_append (xs ys : List Bool) :
    bitsVal (xs ++ ys) = bitsVal xs * 2 ^ ys.length + bitsVal ys := by
  induction xs with
  | nil => rw [List.nil_append, bitsVal, Nat.zero_mul, Nat.zero_add]
  | cons x xs ih =>
    rw [List.cons_append, bitsVal, bitsVal, ih, List.length_append, pow_add]
    ring

theorem bitsVal_lt (xs : List Bool) : bitsVal xs < 2 ^ xs.length := by
  induction xs with
  | nil => exact Nat.one_pos
  | cons x xs ih =>
    rw [bitsVal, List.length_cons, pow_succ]
    rcases x with - | -
    · rw [Bool.toNat_false, Nat.zero_mul]
      omega
    · rw [Bool.toNat_true, Nat.one_mul]
      omega

theorem eq_of_bitsVal_eq : ∀ {xs ys : List Bool}, xs.length = ys.length →
    bitsVal xs = bitsVal ys → xs = ys := by
  intro xs
  induction xs with
  | nil =>
    intro ys hlen _
    exact (List.length_eq_zero_iff.mp hlen.symm).symm
  | cons x xs ih =>
    intro ys hlen hval
    rcases ys with - | ⟨y, ys⟩
    · cases hlen
    have hlen' : xs.length = ys.length := Nat.succ.inj hlen
    have hx := bitsVal_lt xs
    have hy := bitsVal_lt ys
    rw [bitsVal, bitsVal, hlen'] at hval
    rw [hlen'] at hx
    -- the first bits are the quotients, the others the remainders
    rcases x with - | - <;> rcases y with - | -
    · rw [ih hlen' (by simpa using hval)]
    · simp only [Bool.toNat_false, Bool.toNat_true, Nat.zero_mul, Nat.one_mul] at hval
      omega
    · simp only [Bool.toNat_false, Bool.toNat_true, Nat.zero_mul, Nat.one_mul] at hval
      omega
    · rw [ih hlen' (by simpa using hval)]

theorem bitsVal_toBits (n v : ℕ) : bitsVal (toBits n v) = v % 2 ^ n := by
  induction n with
  | zero => rw [toBits, bitsVal, pow_zero, Nat.mod_one]
  | succ n ih =>
    have hbit : (v / 2 ^ n % 2 == 1).toNat = v / 2 ^ n % 2 := by
      rcases Nat.mod_two_eq_zero_or_one (v / 2 ^ n) with h | h <;> rw [h] <;> rfl
    rw [toBits, bitsVal, ih, length_toBits, hbit, pow_succ, Nat.mod_mul, Nat.mul_comm,
      Nat.add_comm]

theorem bitsVal_toBits_of_lt {n v : ℕ} (h : v < 2 ^ n) : bitsVal (toBits n v) = v := by
  rw [bitsVal_toBits, Nat.mod_eq_of_lt h]

/-! ### Parts of a string -/

theorem bitsVal_take (xs : List Bool) (k : ℕ) :
    bitsVal (xs.take k) = bitsVal xs / 2 ^ (xs.length - k) := by
  have hsplit : bitsVal xs = bitsVal (xs.take k) * 2 ^ (xs.drop k).length
      + bitsVal (xs.drop k) := by
    rw [← bitsVal_append, List.take_append_drop]
  have hlt := bitsVal_lt (xs.drop k)
  rw [List.length_drop] at hsplit hlt
  rw [hsplit, Nat.mul_comm, Nat.mul_add_div (Nat.two_pow_pos _), Nat.div_eq_of_lt hlt, Nat.add_zero]

/-- **A prefix is a quotient.** -/
theorem prefix_iff_bitsVal {xs ys : List Bool} (hlen : xs.length ≤ ys.length) :
    xs <+: ys ↔ bitsVal xs = bitsVal ys / 2 ^ (ys.length - xs.length) := by
  rw [List.prefix_iff_eq_take, ← bitsVal_take]
  constructor
  · intro heq
    rw [← heq]
  · intro hval
    refine eq_of_bitsVal_eq ?_ hval
    rw [List.length_take, Nat.min_eq_left hlen]

theorem bitsVal_replicate_true (k : ℕ) : bitsVal (List.replicate k true) = 2 ^ k - 1 := by
  induction k with
  | zero => rfl
  | succ k ih =>
    rw [List.replicate_succ, bitsVal, ih, List.length_replicate, Bool.toNat_true, Nat.one_mul,
      pow_succ]
    have := Nat.two_pow_pos k
    omega

theorem bitsVal_replicate_false (k : ℕ) : bitsVal (List.replicate k false) = 0 := by
  induction k with
  | zero => rfl
  | succ k ih => rw [List.replicate_succ, bitsVal, ih, Bool.toNat_false, Nat.zero_mul]

/-! ### Words -/

/-- The first `n` bits of a string, with zero bits behind its end. -/
def window (n : ℕ) (bits : List Bool) : List Bool := (bits ++ List.replicate n false).take n

@[simp] theorem window_length (n : ℕ) (bits : List Bool) : (window n bits).length = n := by
  rw [window, List.length_take, List.length_append, List.length_replicate]
  omega

theorem prefix_window {n : ℕ} {xs bits : List Bool} (h : xs <+: bits) (hn : xs.length ≤ n) :
    xs <+: window n bits :=
  List.prefix_take_iff.mpr ⟨h.trans (List.prefix_append _ _), hn⟩

theorem prefix_of_window {n : ℕ} {xs bits : List Bool} (h : xs <+: window n bits)
    (hlen : xs.length ≤ bits.length) : xs <+: bits :=
  List.prefix_of_prefix_length_le (h.trans (List.take_prefix _ _)) (List.prefix_append _ _) hlen

theorem window_append (m n : ℕ) (bits : List Bool) :
    window (m + n) bits = window m bits ++ window n (bits.drop m) := by
  apply List.ext_getElem?
  intro i
  simp only [window, List.getElem?_append, List.getElem?_take, List.getElem?_replicate,
    List.getElem?_drop, List.length_take, List.length_append, List.length_replicate,
    List.length_drop]
  split_ifs <;> first | rfl | omega | (congr 1; omega)

/-- **A word at another place**, from the two words around it. -/
theorem bitsVal_window_drop {n s : ℕ} (hs : s ≤ n) (bits : List Bool) :
    bitsVal (window n (bits.drop s))
      = (bitsVal (window n bits) * 2 ^ s + bitsVal (window n (bits.drop n)) / 2 ^ (n - s))
          % 2 ^ n := by
  have hsum : bitsVal (window n bits) * 2 ^ n + bitsVal (window n (bits.drop n))
      = (bitsVal (window s bits) * 2 ^ n + bitsVal (window n (bits.drop s))) * 2 ^ (n - s)
          + bitsVal (window (n - s) ((bits.drop s).drop n)) := by
    have hword : window n bits ++ window n (bits.drop n)
        = window s bits ++ (window n (bits.drop s)
            ++ window (n - s) ((bits.drop s).drop n)) := by
      rw [← window_append, ← window_append, ← window_append]
      congr 1
      omega
    have hval := congrArg bitsVal hword
    rw [bitsVal_append, bitsVal_append, bitsVal_append, List.length_append, window_length,
      window_length, window_length, pow_add] at hval
    rw [hval]
    ring
  have hquot : (bitsVal (window n bits) * 2 ^ n + bitsVal (window n (bits.drop n))) / 2 ^ (n - s)
      = bitsVal (window n bits) * 2 ^ s + bitsVal (window n (bits.drop n)) / 2 ^ (n - s) := by
    have hpow : (2 : ℕ) ^ n = 2 ^ (n - s) * 2 ^ s := by
      rw [← pow_add, Nat.sub_add_cancel hs]
    conv_lhs => rw [hpow]
    rw [Nat.mul_left_comm, Nat.mul_add_div (Nat.two_pow_pos _)]
  have hlt : bitsVal (window (n - s) ((bits.drop s).drop n)) < 2 ^ (n - s) := by
    have h := bitsVal_lt (window (n - s) ((bits.drop s).drop n))
    rwa [window_length] at h
  have hmod : bitsVal (window n (bits.drop s)) < 2 ^ n := by
    have h := bitsVal_lt (window n (bits.drop s))
    rwa [window_length] at h
  rw [← hquot, hsum, Nat.mul_comm _ (2 ^ (n - s)), Nat.mul_add_div (Nat.two_pow_pos _),
    Nat.div_eq_of_lt hlt, Nat.add_zero, Nat.mul_add_mod_self_right, Nat.mod_eq_of_lt hmod]

end SmartHAProxy
