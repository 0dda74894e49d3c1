/-
Sliding averages (haproxy/freq_ctr.h).

The sum of a sliding window of `n` samples keeps the fraction `(n - 1) / n` of its
value and receives the new sample.  With samples of at most `v`, the sum should
never leave `0 .. n * v`: the value `n * v` is a fixed point of the update, and the
update is monotone in the sum.

`swrateAdd` never takes more than the sum holds.  `swrateAddScaled`, which accounts
for `s` samples at once, takes `s` and the fraction `s / n`; with a sample of 0
nothing makes up for the `s`, and the 32-bit sum passes below 0.

Main results: `swrateAddScaled_le_iff` for one call, `swrate_in_range_iff` for runs.
-/
import Mathlib.Data.List.Infix
import Mathlib.Tactic.Linarith

namespace SmartHAProxy

/-! ### The functions -/

/-- `div64_32`: the quotient is cut to 32 bits. -/
def div6432 (o1 : UInt64) (o2 : UInt32) : UInt32 := (o1 / o2.toUInt64).toUInt32

def swrateAdd (sum n v : UInt32) : UInt32 := sum - (sum + n - 1) / n + v

def swrateAddScaled (sum n v s : UInt32) : UInt32 :=
  sum + v * s - div6432 ((sum + n).toUInt64 * s.toUInt64) n

def swrateAvg (sum n : UInt32) : UInt32 := (sum + n - 1) / n

theorem toNat_div6432 (o1 : UInt64) (o2 : UInt32) (h : o1.toNat / o2.toNat < 2 ^ 32) :
    (div6432 o1 o2).toNat = o1.toNat / o2.toNat := by
  rw [div6432, UInt64.toNat_toUInt32, UInt64.toNat_div, UInt32.toNat_toUInt64]
  exact Nat.mod_eq_of_lt h

/-! ### One update, as numbers -/

section Step

variable {sum n : UInt32} {v : ℕ}

theorem toNat_swrateAvg (hn : 1 ≤ n.toNat) (h : sum.toNat + n.toNat < 2 ^ 32) :
    (swrateAvg sum n).toNat = (sum.toNat + n.toNat - 1) / n.toNat := by
  rw [swrateAvg, UInt32.toNat_div, UInt32.toNat_sub_of_le, UInt32.toNat_add,
    Nat.mod_eq_of_lt h]
  · rfl
  · rw [UInt32.le_iff_toNat_le, UInt32.toNat_add, Nat.mod_eq_of_lt h]
    exact hn.trans (Nat.le_add_left _ _)

theorem swrateAvg_le (hn : 1 ≤ n.toNat) (h : n.toNat * v + n.toNat < 2 ^ 32)
    (hsum : sum.toNat ≤ n.toNat * v) : (swrateAvg sum n).toNat ≤ v := by
  rw [toNat_swrateAvg hn (by omega), Nat.div_le_iff_le_mul hn, Nat.mul_comm v]
  omega

theorem ceil_room {a n v : ℕ} (hn : 1 ≤ n) (ha : a ≤ n * v) :
    (a + n - 1) / n ≤ a ∧ a + v ≤ n * v + (a + n - 1) / n := by
  constructor
  · rw [Nat.div_le_iff_le_mul hn]
    have := Nat.le_mul_of_pos_right a hn
    omega
  · -- a smaller quotient `c` would leave `n * (v - c) < v - c`
    have hceil : a ≤ (a + n - 1) / n * n := by
      have := Nat.lt_div_mul_add (a := a + n - 1) hn
      omega
    by_contra hlt
    push Not at hlt
    nlinarith

theorem toNat_swrateAdd {w : UInt32} (hn : 1 ≤ n.toNat) (h : n.toNat * v + n.toNat < 2 ^ 32)
    (hsum : sum.toNat ≤ n.toNat * v) (hw : w.toNat ≤ v) :
    (swrateAdd sum n w).toNat
      = sum.toNat - (sum.toNat + n.toNat - 1) / n.toNat + w.toNat := by
  obtain ⟨hle, hroom⟩ := ceil_room hn hsum
  have havg := toNat_swrateAvg hn (by omega : sum.toNat + n.toNat < 2 ^ 32)
  show (sum - swrateAvg sum n + w).toNat = _
  have hsub : swrateAvg sum n ≤ sum := by
    rw [UInt32.le_iff_toNat_le, havg]
    exact hle
  rw [UInt32.toNat_add, UInt32.toNat_sub_of_le _ _ hsub, havg]
  exact Nat.mod_eq_of_lt (by omega)

/-- **`swrateAdd` keeps the sum in range.** -/
theorem swrateAdd_le {w : UInt32} (hn : 1 ≤ n.toNat) (h : n.toNat * v + n.toNat < 2 ^ 32)
    (hsum : sum.toNat ≤ n.toNat * v) (hw : w.toNat ≤ v) :
    (swrateAdd sum n w).toNat ≤ n.toNat * v := by
  have := ceil_room hn hsum
  rw [toNat_swrateAdd hn h hsum hw]
  omega

/-- What `swrateAddScaled` takes away. -/
def scaledPart (sum n s : ℕ) : ℕ := s + sum * s / n

theorem scaledPart_le {a n s : ℕ} (hs : s ≤ n) : scaledPart a n s ≤ a + s := by
  have : a * s / n ≤ a := Nat.div_le_of_le_mul (by
    rw [Nat.mul_comm a s]
    exact Nat.mul_le_mul_right a hs)
  rw [scaledPart]
  omega

theorem scaled_room {a n s v : ℕ} (hn : 1 ≤ n) (hs : s ≤ n) (ha : a ≤ n * v) :
    a + v * s ≤ n * v + scaledPart a n s := by
  obtain ⟨d, hd⟩ := Nat.exists_eq_add_of_le ha
  have hquot : v * s - d ≤ a * s / n := by
    rw [Nat.le_div_iff_mul_le hn, Nat.sub_mul]
    have hds : d * s ≤ d * n := Nat.mul_le_mul_left d hs
    have hsplit : v * s * n = a * s + d * s := by
      rw [← Nat.add_mul, ← hd, Nat.mul_comm n v, Nat.mul_right_comm]
    omega
  rw [scaledPart]
  omega

theorem toNat_taken {s : UInt32} (hn : 1 ≤ n.toNat) (h : n.toNat * v + n.toNat < 2 ^ 32)
    (hsum : sum.toNat ≤ n.toNat * v) (hs : s.toNat ≤ n.toNat) :
    (div6432 ((sum + n).toUInt64 * s.toUInt64) n).toNat
      = scaledPart sum.toNat n.toNat s.toNat := by
  have hadd : (sum + n).toNat = sum.toNat + n.toNat := by
    rw [UInt32.toNat_add]
    exact Nat.mod_eq_of_lt (by omega)
  have hmul : ((sum + n).toUInt64 * s.toUInt64).toNat = (sum.toNat + n.toNat) * s.toNat := by
    rw [UInt64.toNat_mul, UInt32.toNat_toUInt64, UInt32.toNat_toUInt64, hadd]
    apply Nat.mod_eq_of_lt
    calc (sum.toNat + n.toNat) * s.toNat < 2 ^ 32 * 2 ^ 32 :=
          Nat.mul_lt_mul'' (by omega) s.toNat_lt
      _ = 2 ^ 64 := rfl
  have hquot : (sum.toNat + n.toNat) * s.toNat / n.toNat
      = scaledPart sum.toNat n.toNat s.toNat := by
    rw [scaledPart, Nat.add_mul, Nat.add_comm, Nat.add_comm s.toNat, Nat.add_comm (n.toNat * _),
      Nat.add_mul_div_left _ _ hn]
  rw [toNat_div6432, hmul, hquot]
  rw [hmul, hquot]
  have := scaledPart_le (a := sum.toNat) hs
  omega

/-- **`swrateAddScaled` keeps the sum in range exactly when the sum and the samples hold what
it takes away.** -/
theorem swrateAddScaled_le_iff {w s : UInt32} (hn : 1 ≤ n.toNat)
    (h : n.toNat * v + n.toNat < 2 ^ 32) (hsum : sum.toNat ≤ n.toNat * v) (hw : w.toNat ≤ v)
    (hs : s.toNat ≤ n.toNat) :
    (swrateAddScaled sum n w s).toNat ≤ n.toNat * v
      ↔ scaledPart sum.toNat n.toNat s.toNat ≤ sum.toNat + w.toNat * s.toNat := by
  have htaken := toNat_taken hn h hsum hs
  have hpart := scaledPart_le (a := sum.toNat) hs
  have hroom := scaled_room hn hs hsum
  have hws : w.toNat * s.toNat ≤ v * s.toNat := Nat.mul_le_mul_right _ hw
  have hvs : v * s.toNat ≤ n.toNat * v := by
    rw [Nat.mul_comm]
    exact Nat.mul_le_mul_right v hs
  have hmul : (w * s).toNat = w.toNat * s.toNat := by
    rw [UInt32.toNat_mul]
    exact Nat.mod_eq_of_lt (by omega)
  -- all the numbers are below 2^32, so the sum is the exact one or 2^32 above it
  have hexact : (swrateAddScaled sum n w s).toNat
      = (2 ^ 32 - scaledPart sum.toNat n.toNat s.toNat
          + (sum.toNat + w.toNat * s.toNat) % 2 ^ 32) % 2 ^ 32 := by
    rw [swrateAddScaled, UInt32.toNat_sub, htaken, UInt32.toNat_add, hmul]
  rw [hexact]
  omega

end Step

/-! ### Runs -/

/-- A call that updates a sum: `swrate_add` of a sample, or `swrate_add_scaled` of a sample
that stands for several. -/
inductive SwrateCall
  | add (v : UInt32)
  | addScaled (v s : UInt32)

def SwrateCall.apply (n sum : UInt32) : SwrateCall → UInt32
  | .add v => swrateAdd sum n v
  | .addScaled v s => swrateAddScaled sum n v s

/-- The samples of the call are at most `V`, and there are at most as many as the window holds. -/
def SwrateCall.Admissible (n V : UInt32) : SwrateCall → Prop
  | .add v => v ≤ V
  | .addScaled v s => v ≤ V ∧ 1 ≤ s ∧ s ≤ n

/-- A call that finds in the sum what it takes away: only `addScaled` of samples 0 may not. -/
def SwrateCall.Covered (n sum : UInt32) : SwrateCall → Prop
  | .add _ => True
  | .addScaled v s => v = 0 → scaledPart sum.toNat n.toNat s.toNat ≤ sum.toNat

def swrateRun (n : UInt32) (calls : List SwrateCall) : UInt32 :=
  calls.foldl (SwrateCall.apply n) 0

theorem swrateRun_concat (n : UInt32) (calls : List SwrateCall) (c : SwrateCall) :
    swrateRun n (calls ++ [c]) = c.apply n (swrateRun n calls) := by
  simp [swrateRun, List.foldl_append]

theorem SwrateCall.covered_iff {n sum v s : UInt32} (hs : s ≤ n) :
    (SwrateCall.addScaled v s).Covered n sum
      ↔ scaledPart sum.toNat n.toNat s.toNat ≤ sum.toNat + v.toNat * s.toNat := by
  show (v = 0 → _) ↔ _
  have hpart := scaledPart_le (a := sum.toNat) (UInt32.le_iff_toNat_le.mp hs)
  by_cases hv : v = 0
  · subst hv
    simp
  · have hpos : 1 ≤ v.toNat := Nat.one_le_iff_ne_zero.mpr fun h0 => hv (UInt32.toNat_inj.mp h0)
    have := Nat.le_mul_of_pos_left s.toNat hpos
    simp only [hv, false_implies, true_iff]
    omega

theorem SwrateCall.apply_le_iff {n V sum : UInt32} {c : SwrateCall} (hn : 1 ≤ n.toNat)
    (h : n.toNat * V.toNat + n.toNat < 2 ^ 32) (hc : c.Admissible n V)
    (hsum : sum.toNat ≤ n.toNat * V.toNat) :
    (c.apply n sum).toNat ≤ n.toNat * V.toNat ↔ c.Covered n sum := by
  cases c with
  | add v => exact iff_of_true (swrateAdd_le hn h hsum (UInt32.le_iff_toNat_le.mp hc)) trivial
  | addScaled v s =>
    obtain ⟨hv, -, hs⟩ := hc
    rw [SwrateCall.covered_iff hs]
    exact swrateAddScaled_le_iff hn h hsum (UInt32.le_iff_toNat_le.mp hv)
      (UInt32.le_iff_toNat_le.mp hs)

theorem swrateRun_le {n V : UInt32} (hn : 1 ≤ n.toNat)
    (h : n.toNat * V.toNat + n.toNat < 2 ^ 32) {calls : List SwrateCall}
    (hcalls : ∀ c ∈ calls, c.Admissible n V)
    (hcov : ∀ pre c, pre ++ [c] <+: calls → c.Covered n (swrateRun n pre)) :
    (swrateRun n calls).toNat ≤ n.toNat * V.toNat := by
  induction calls using List.reverseRecOn with
  | nil => exact Nat.zero_le _
  | append_singleton calls c ih =>
    rw [swrateRun_concat]
    have hsum := ih (fun d hd => hcalls d (by simp [hd]))
      (fun pre d hpre => hcov pre d (hpre.trans (List.prefix_append _ _)))
    exact (SwrateCall.apply_le_iff hn h (hcalls c (by simp)) hsum).mpr
      (hcov calls c List.prefix_rfl)

/-- **Sliding averages stay within the samples exactly when no scaled sample of 0 takes away more
than the sum holds.**  In every state that a sequence of calls reaches, the sum is at most
`n * V` and the average at most `V`. -/
theorem swrate_in_range_iff (n V : UInt32) (hn : 1 ≤ n)
    (h : n.toNat * V.toNat + n.toNat < 2 ^ 32) (calls : List SwrateCall)
    (hcalls : ∀ c ∈ calls, c.Admissible n V) :
    (∀ pre, pre <+: calls → (swrateRun n pre).toNat ≤ n.toNat * V.toNat
        ∧ swrateAvg (swrateRun n pre) n ≤ V)
      ↔ ∀ pre c, pre ++ [c] <+: calls → c.Covered n (swrateRun n pre) := by
  have hn' : 1 ≤ n.toNat := UInt32.le_iff_toNat_le.mp hn
  constructor
  · intro hin pre c hpre
    have hc := hcalls c (hpre.subset (by simp))
    rw [← SwrateCall.apply_le_iff hn' h hc (hin pre ((List.prefix_append _ _).trans hpre)).1,
      ← swrateRun_concat]
    exact (hin _ hpre).1
  · intro hcov pre hpre
    have hsum := swrateRun_le hn' h (fun c hc => hcalls c (hpre.subset hc))
      fun q c hq => hcov q c (hq.trans hpre)
    exact ⟨hsum, UInt32.le_iff_toNat_le.mpr (swrateAvg_le hn' h hsum)⟩

/-- A window of 4 samples of at most 10: one scaled sample after a plain one. -/
theorem swrate_in_range_two :
    (∀ pre, pre <+: [SwrateCall.add 10, .addScaled 0 1] →
        (swrateRun 4 pre).toNat ≤ (4 : UInt32).toNat * (10 : UInt32).toNat
          ∧ swrateAvg (swrateRun 4 pre) 4 ≤ 10)
      ↔ ∀ pre c, pre ++ [c] <+: [SwrateCall.add 10, .addScaled 0 1] →
          c.Covered 4 (swrateRun 4 pre) :=
  swrate_in_range_iff 4 10 (by decide) (by decide) [SwrateCall.add 10, .addScaled 0 1] (by
    intro c hc
    rcases List.mem_cons.mp hc with rfl | hc
    · show (10 : UInt32) ≤ 10
      decide
    · obtain rfl := List.mem_singleton.mp hc
      show (0 : UInt32) ≤ 10 ∧ (1 : UInt32) ≤ 1 ∧ (1 : UInt32) ≤ 4
      decide)

/-- One scaled sample of 0 on the sum 0: the sum is 2^32 - 1. -/
theorem swrate_out_of_range :
    ¬ ∀ (n V : UInt32), 1 ≤ n → n.toNat * V.toNat + n.toNat < 2 ^ 32 →
      ∀ calls : List SwrateCall, (∀ c ∈ calls, c.Admissible n V) →
        (swrateRun n calls).toNat ≤ n.toNat * V.toNat ∧ swrateAvg (swrateRun n calls) n ≤ V := by
  intro hall
  have hbad := (hall 4 10 (by decide) (by decide) [SwrateCall.addScaled 0 1] (by
    intro c hc
    obtain rfl := List.mem_singleton.mp hc
    show (0 : UInt32) ≤ 10 ∧ (1 : UInt32) ≤ 1 ∧ (1 : UInt32) ≤ 4
    decide)).1
  revert hbad
  decide

end SmartHAProxy
