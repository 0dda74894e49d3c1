/-
Frequency counters (src/freq_ctr.c, haproxy/freq_ctr.h).

A counter holds the number of events of the current period and of the previous
one, and the date at which the current period started, on an even tick: the low bit
is set while a rotation is in progress, and the functions then wait.  `freqCtrTotal`
weighs the previous count with what remains of the current period.

The remaining time is a difference of 32-bit dates read as a signed number.  An
idle time of more than half a turn of the clock after the period makes it positive
again: `freqCtrTotal_eq_iff` tells exactly when the reading is still right.
-/
import SmartHAProxy.Lib.Circle
import SmartHAProxy.Freq.Swrate

namespace SmartHAProxy

/-! ### The counter -/

/-- `struct freq_ctr`. -/
structure FreqCtr where
  currTick : UInt32
  currCtr : UInt32
  prevCtr : UInt32
  deriving DecidableEq

/-- The low bit of the tick: a rotation is in progress. -/
def FreqCtr.rotating (ctr : FreqCtr) : Prop := ctr.currTick &&& 1 ≠ 0

instance FreqCtr.decidableRotating (ctr : FreqCtr) : Decidable ctr.rotating :=
  inferInstanceAs (Decidable (_ ≠ _))

/-- The counter after `update_freq_ctr_period` has rotated it. -/
def FreqCtr.rotate (ctr : FreqCtr) (period inc nowMs : UInt32) : FreqCtr :=
  let currTick := ctr.currTick + period
  -- we missed at least two periods
  let missed := nowMs - currTick ≥ period
  { currTick := (if missed then nowMs else currTick) &&& ~~~1
    currCtr := inc
    prevCtr := if missed then 0 else ctr.currCtr }

/-- `update_freq_ctr_period` at the date `nowMs`: the counter after it and the returned count;
`none` when it waits for the end of a rotation. -/
def updateFreqCtrPeriod (ctr : FreqCtr) (period inc nowMs : UInt32) : Option (FreqCtr × UInt32) :=
  if nowMs - ctr.currTick < period then
    some ({ ctr with currCtr := ctr.currCtr + inc }, ctr.currCtr + inc)
  else if ctr.rotating then none
  else some (ctr.rotate period inc nowMs, inc)

/-- The sum that `freq_ctr_total` ends with: `past` events weighed with the remaining time, which
is sign-extended to 64 bits. -/
def weighedTotal (curr past : UInt64) (remain pend : Int32) (period : UInt32) : UInt64 :=
  past * remain.toInt64.toUInt64 + (curr + pend.toInt64.toUInt64) * period.toUInt64

/-- `freq_ctr_total` at the date `nowMs`; `none` when it waits for the end of a rotation. -/
def freqCtrTotal (ctr : FreqCtr) (period : UInt32) (pend : Int32) (nowMs : UInt32) :
    Option UInt64 :=
  if ctr.rotating then none
  else
    let remain : Int32 := (ctr.currTick + period - nowMs).toInt32
    -- past the first period: a part of it, or too far away
    let remain' : Int32 := if remain < 0 then (remain.toUInt32 + period).toInt32 else remain
    let past : UInt64 :=
      if remain < 0 then if remain' ≥ 0 then ctr.currCtr.toUInt64 else 0
      else ctr.prevCtr.toUInt64
    let curr : UInt64 := if remain < 0 then 0 else ctr.currCtr.toUInt64
    if pend < 0 then
      -- flapping correction at very low rates
      if curr = 0 ∧ past ≤ 1 then some (past * period.toUInt64)
      else some (weighedTotal curr past remain' 0 period)
    else some (weighedTotal curr past remain' pend period)

def freqCtrRemainPeriod (ctr : FreqCtr) (period freq pend nowMs : UInt32) : Option UInt32 :=
  (freqCtrTotal ctr period pend.toInt32 nowMs).map fun total =>
    let avg := div6432 total period
    freq - if avg > freq then freq else avg

def nextEventDelayPeriod (ctr : FreqCtr) (period freq pend nowMs : UInt32) : Option UInt32 :=
  (freqCtrTotal ctr period pend.toInt32 nowMs).map fun total =>
    let limit := freq.toUInt64 * period.toUInt64
    if total < limit then 0
    else max (div6432 (total - limit) (if freq ≠ 0 then freq else 1)) 1

/-! ### The total -/

/-- The total that the functions are about: the events of the current period, and the part of
those of the previous one that is still in the window, `e` ms after the start of the period. -/
def windowTotal (P curr prev e : ℕ) : ℕ :=
  if e ≤ P then prev * (P - e) + curr * P
  else if e ≤ 2 * P then curr * (2 * P - e)
  else 0

theorem toNat_signExtend {r : Int32} (h : 0 ≤ r.toInt) :
    (r.toInt64.toUInt64.toNat : ℤ) = r.toInt := by
  have h64 : 0 ≤ r.toInt64 := by
    rw [Int64.le_iff_toInt_le, Int32.toInt_toInt64]
    exact h
  rw [Int64.toNat_toUInt64_of_le h64, Int64.toNatClampNeg, Int32.toInt_toInt64]
  exact Int.toNat_of_nonneg h

theorem toNat_weighedTotal {curr past period : UInt32} {remain : Int32} {r : ℕ}
    (hr : remain.toInt = r) (hsum : past.toNat * r + curr.toNat * period.toNat < 2 ^ 64) :
    (weighedTotal curr.toUInt64 past.toUInt64 remain 0 period).toNat
      = past.toNat * r + curr.toNat * period.toNat := by
  have hext : remain.toInt64.toUInt64.toNat = r := by
    have := toNat_signExtend (r := remain) (by omega)
    omega
  show (_ + (curr.toUInt64 + 0) * _ : UInt64).toNat = _
  simp only [UInt64.add_zero, UInt64.toNat_add, UInt64.toNat_mul, UInt32.toNat_toUInt64, hext]
  omega

theorem total_bound {curr past period : UInt32} {remain : Int32} {r : ℕ}
    (hr : remain.toInt = r) (hP : period.toNat < 2 ^ 31) :
    past.toNat * r + curr.toNat * period.toNat < 2 ^ 64 := by
  have hlt : r < 2 ^ 31 := by
    have := remain.toInt_lt
    omega
  have hpast : past.toNat * r ≤ (2 ^ 32 - 1) * (2 ^ 31 - 1) := by
    have := past.toNat_lt
    exact Nat.mul_le_mul (by omega) (by omega)
  have hcurr : curr.toNat * period.toNat ≤ (2 ^ 32 - 1) * (2 ^ 31 - 1) := by
    have := curr.toNat_lt
    exact Nat.mul_le_mul (by omega) (by omega)
  omega

theorem toNat_remain {tick period nowMs : UInt32} {e : ℕ} (he : (nowMs - tick).toNat = e) :
    (tick + period - nowMs).toNat = (2 ^ 32 + period.toNat - e) % 2 ^ 32 := by
  have h1 := tick.toNat_lt
  have h2 := nowMs.toNat_lt
  rw [UInt32.toNat_sub] at he
  rw [UInt32.toNat_sub, UInt32.toNat_add]
  omega

theorem toInt_add_period {remain : Int32} {period : UInt32} (hneg : remain < 0)
    (hP : period.toNat < 2 ^ 31) :
    ((remain.toUInt32 + period).toInt32).toInt = remain.toInt + period.toNat := by
  have hr := toInt_toInt32 remain.toUInt32
  rw [Int32.toInt32_toUInt32] at hr
  rw [Int32.lt_iff_toInt_lt] at hneg
  have hneg' : remain.toInt < (0 : ℤ) := hneg
  have hlt := remain.toUInt32.toNat_lt
  rw [toInt_toInt32, UInt32.toNat_add]
  split_ifs at hr ⊢ <;> omega

variable {ctr : FreqCtr} {period nowMs : UInt32} {e : ℕ}

/-- **What `freqCtrTotal` computes**, at any date: the total, unless the idle time is long enough
for the remaining time to look positive. -/
theorem toNat_freqCtrTotal (hctr : ¬ ctr.rotating) (hP : period.toNat < 2 ^ 31)
    (he : (nowMs - ctr.currTick).toNat = e) :
    (freqCtrTotal ctr period 0 nowMs).map UInt64.toNat
      = some (if e ≤ period.toNat + 2 ^ 31
          then windowTotal period.toNat ctr.currCtr.toNat ctr.prevCtr.toNat e
          else ctr.prevCtr.toNat * (2 ^ 32 + period.toNat - e)
            + ctr.currCtr.toNat * period.toNat) := by
  have helt : e < 2 ^ 32 := he ▸ (nowMs - ctr.currTick).toNat_lt
  have hint := toInt_toInt32 (ctr.currTick + period - nowMs)
  rw [toNat_remain he] at hint
  rw [freqCtrTotal, if_neg hctr]
  dsimp only
  generalize (ctr.currTick + period - nowMs).toInt32 = remain at hint
  rw [if_neg (by decide : ¬ (0 : Int32) < 0), Option.map_some]
  apply congrArg some
  by_cases hpos : e ≤ period.toNat
  · -- within the period
    have hr : remain.toInt = (period.toNat - e : ℕ) := by
      rw [hint, if_pos (by omega)]
      omega
    have hneg : ¬ remain < 0 := by
      rw [Int32.lt_iff_toInt_lt, hr]
      exact not_lt.mpr (Int.natCast_nonneg _)
    simp only [hneg, if_false]
    rw [toNat_weighedTotal hr (total_bound hr hP), if_pos (by omega), windowTotal, if_pos hpos]
  · by_cases hfar : e ≤ period.toNat + 2 ^ 31
    · -- the remaining time is negative, and one period is added to it
      have hr : remain.toInt = (period.toNat : ℤ) - e := by
        rw [hint, if_neg (by omega)]
        omega
      have hneg : remain < 0 := by
        rw [Int32.lt_iff_toInt_lt, hr]
        show _ < (0 : ℤ)
        omega
      have hr' := toInt_add_period hneg hP
      rw [hr, show (period.toNat : ℤ) - e + period.toNat = 2 * period.toNat - e by omega] at hr'
      simp only [hneg, if_true]
      rw [if_pos hfar, windowTotal, if_neg hpos]
      by_cases hpart : e ≤ 2 * period.toNat
      · have hge : (remain.toUInt32 + period).toInt32 ≥ 0 := by
          rw [ge_iff_le, Int32.le_iff_toInt_le, hr']
          show (0 : ℤ) ≤ _
          omega
        have hr2 : ((remain.toUInt32 + period).toInt32).toInt = (2 * period.toNat - e : ℕ) := by
          omega
        rw [if_pos hge, if_pos hpart]
        have hbound : ctr.currCtr.toNat * (2 * period.toNat - e) + (0 : UInt32).toNat * _ < _ :=
          total_bound hr2 hP
        exact (toNat_weighedTotal hr2 hbound).trans (by simp)
      · have hlt : ¬ (remain.toUInt32 + period).toInt32 ≥ 0 := by
          rw [ge_iff_le, Int32.le_iff_toInt_le, hr']
          show ¬ (0 : ℤ) ≤ _
          omega
        rw [if_neg hlt, if_neg hpart]
        show (0 * _ + (0 + 0) * _ : UInt64).toNat = 0
        simp
    · have hr : remain.toInt = (2 ^ 32 + period.toNat - e : ℕ) := by
        rw [hint, if_pos (by omega)]
        omega
      have hneg : ¬ remain < 0 := by
        rw [Int32.lt_iff_toInt_lt, hr]
        exact not_lt.mpr (Int.natCast_nonneg _)
      simp only [hneg, if_false]
      rw [toNat_weighedTotal hr (total_bound hr hP), if_neg hfar]

/-! ### Reading after any idle time -/

/-- **The reading is right exactly when the idle time is at most half a turn of the clock longer
than the period**, or when there is nothing to read. -/
theorem freqCtrTotal_eq_iff (ctr : FreqCtr) (period e : UInt32) (htick : ctr.currTick &&& 1 = 0)
    (hP : period.toNat < 2 ^ 30) :
    (freqCtrTotal ctr period 0 (ctr.currTick + e)).map UInt64.toNat
        = some (windowTotal period.toNat ctr.currCtr.toNat ctr.prevCtr.toNat e.toNat)
      ↔ e.toNat ≤ period.toNat + 2 ^ 31 ∨
        ctr.prevCtr = 0 ∧ (ctr.currCtr = 0 ∨ period = 0) := by
  have hsub : (ctr.currTick + e - ctr.currTick).toNat = e.toNat := by
    rw [UInt32.add_comm, UInt32.add_sub_cancel]
  have helt := e.toNat_lt
  rw [toNat_freqCtrTotal (not_not.mpr htick) (by omega) hsub, Option.some_inj]
  by_cases hfar : e.toNat ≤ period.toNat + 2 ^ 31
  · rw [if_pos hfar]
    exact iff_of_true rfl (.inl hfar)
  · -- the right total is 0, and each product of the other one is 0 for lack of a factor
    rw [if_neg hfar, windowTotal, if_neg (by omega), if_neg (by omega), Nat.add_eq_zero_iff,
      Nat.mul_eq_zero, Nat.mul_eq_zero,
      or_iff_left (by omega : ¬ 2 ^ 32 + period.toNat - e.toNat = 0)]
    simp only [hfar, false_or, ← UInt32.toNat_inj, UInt32.toNat_zero]

/-- A counter of a period of 1 s read at its end. -/
theorem freqCtrTotal_at_end :
    (freqCtrTotal ⟨10, 7, 3⟩ 1000 0 (10 + 1000)).map UInt64.toNat
        = some (windowTotal (1000 : UInt32).toNat (7 : UInt32).toNat (3 : UInt32).toNat
            (1000 : UInt32).toNat)
      ↔ (1000 : UInt32).toNat ≤ (1000 : UInt32).toNat + 2 ^ 31 ∨
        (3 : UInt32) = 0 ∧ ((7 : UInt32) = 0 ∨ (1000 : UInt32) = 0) :=
  freqCtrTotal_eq_iff ⟨10, 7, 3⟩ 1000 1000 (by decide) (by decide)

/-- Thirty days after one event in a period of 1 s, the total still holds the whole event. -/
theorem freqCtrTotal_long_idle :
    ¬ ∀ (ctr : FreqCtr) (period e : UInt32), ctr.currTick &&& 1 = 0 → period.toNat < 2 ^ 30 →
      (freqCtrTotal ctr period 0 (ctr.currTick + e)).map UInt64.toNat
        = some (windowTotal period.toNat ctr.currCtr.toNat ctr.prevCtr.toNat e.toNat) := by
  intro hall
  have hbad := hall ⟨0, 1, 0⟩ 1000 2592000000 (by decide) (by decide)
  revert hbad
  decide

end SmartHAProxy
