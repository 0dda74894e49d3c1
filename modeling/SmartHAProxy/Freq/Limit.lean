/-
Rate limiting over whole runs (haproxy/freq_ctr.h).

Events happen at non-decreasing dates, and an event is recorded when
`freqCtrRemainPeriod` finds room for it.  What the two counts say about the recorded
events is an invariant over the dates (`RateCore`): from the first event of the
current period on, a window holds at most `F + curr` events, and what lies after the
start of the period is, but for one event, what the current count holds.

The one event is due to the rounding of the start of a period to an even tick: a
period may be rotated at a date that is already out of it.  With a period of 1 ms
this happens at every odd date, and nothing is limited.

Main results: `RateInv.step`, the invariant, and `rate_limited_iff`, for which periods
and limits it bounds every window.
-/
import SmartHAProxy.Freq.Counter
import Mathlib.Data.List.Chain
import Mathlib.Data.Nat.Bitwise

namespace SmartHAProxy

/-! ### The decisions -/

theorem windowTotal_anti {P curr prev e e' : ℕ} (h : e ≤ e') :
    windowTotal P curr prev e' ≤ windowTotal P curr prev e := by
  unfold windowTotal
  have hprev : prev * (P - e') ≤ prev * (P - e) := Nat.mul_le_mul_left _ (by omega)
  have hcurr : curr * (2 * P - e') ≤ curr * (2 * P - e) := Nat.mul_le_mul_left _ (by omega)
  have hend : P ≤ e' → curr * (2 * P - e') ≤ curr * P := fun _ =>
    Nat.mul_le_mul_left _ (by omega)
  split_ifs <;> omega

@[simp] theorem windowTotal_zero (P e : ℕ) : windowTotal P 0 0 e = 0 := by
  simp [windowTotal]

section Decide

variable {ctr : FreqCtr} {P F nowMs : UInt32} {total : UInt64}

theorem remain_pos_iff (htotal : freqCtrTotal ctr P 0 nowMs = some total) (hP : 1 ≤ P.toNat)
    (hlt : total.toNat < (F.toNat + 1) * P.toNat) :
    ∃ remain, freqCtrRemainPeriod ctr P F 0 nowMs = some remain ∧
      (0 < remain ↔ total.toNat < F.toNat * P.toNat) := by
  refine ⟨_, by rw [freqCtrRemainPeriod]; exact congrArg (Option.map _) htotal, ?_⟩
  have hF := F.toNat_lt
  have hquot : total.toNat / P.toNat < F.toNat + 1 := Nat.div_lt_of_lt_mul (by
    rw [Nat.mul_comm]
    exact hlt)
  have havg : (div6432 total P).toNat = total.toNat / P.toNat := toNat_div6432 _ _ (by omega)
  rw [← Nat.div_lt_iff_lt_mul hP, ← havg, UInt32.lt_iff_toNat_lt, UInt32.toNat_zero]
  dsimp only
  rw [if_neg (by rw [gt_iff_lt, UInt32.lt_iff_toNat_lt, havg]; omega),
    UInt32.toNat_sub_of_le _ _ (by rw [UInt32.le_iff_toNat_le, havg]; omega)]
  omega

theorem delay_zero_iff (htotal : freqCtrTotal ctr P 0 nowMs = some total) :
    ∃ delay, nextEventDelayPeriod ctr P F 0 nowMs = some delay ∧
      (delay = 0 ↔ total.toNat < F.toNat * P.toNat) := by
  refine ⟨_, by rw [nextEventDelayPeriod]; exact congrArg (Option.map _) htotal, ?_⟩
  have hlimit : (F.toUInt64 * P.toUInt64).toNat = F.toNat * P.toNat := by
    rw [UInt64.toNat_mul, UInt32.toNat_toUInt64, UInt32.toNat_toUInt64]
    apply Nat.mod_eq_of_lt
    calc F.toNat * P.toNat < 2 ^ 32 * 2 ^ 32 := Nat.mul_lt_mul'' F.toNat_lt P.toNat_lt
      _ = 2 ^ 64 := rfl
  dsimp only
  rw [← hlimit, ← UInt64.lt_iff_toNat_lt]
  by_cases hlt : total < F.toUInt64 * P.toUInt64
  · rw [if_pos hlt]
    exact iff_of_true rfl hlt
  · rw [if_neg hlt]
    refine iff_of_false (fun hmax => ?_) hlt
    have hone : (1 : UInt32) ≤ max (div6432 (total - F.toUInt64 * P.toUInt64)
      (if F ≠ 0 then F else 1)) 1 := le_max_right _ _
    rw [hmax] at hone
    exact absurd hone (by decide)

end Decide

/-! ### Dates on the clock -/

theorem toNat_tick_sub {T d : ℕ} (hle : T ≤ d) (hlt : d - T < 2 ^ 32) :
    (tick d - tick T).toNat = d - T := by
  have h := toNat_tick ((d : ℤ) - T)
  rw [tick_sub]
  omega

theorem tick_and_one (T : ℕ) : tick T &&& 1 = 0 ↔ T % 2 = 0 := by
  have h := toNat_tick (T : ℤ)
  rw [← UInt32.toNat_inj, UInt32.toNat_and]
  show _ &&& 1 = 0 ↔ _
  rw [Nat.and_one_is_mod]
  omega

theorem toNat_clear_low (x : UInt32) : (x &&& ~~~1).toNat = x.toNat - x.toNat % 2 := by
  have hsub : x.toNat - x.toNat % 2 = x.toNat >>> 1 <<< 1 := by
    rw [Nat.shiftRight_eq_div_pow, Nat.shiftLeft_eq]
    omega
  have hmask : (~~~1 : UInt32).toNat = (2 ^ 31 - 1) <<< 1 := by decide
  rw [hsub, UInt32.toNat_and, hmask]
  apply Nat.eq_of_testBit_eq
  intro i
  simp only [Nat.testBit_and, Nat.testBit_shiftLeft, Nat.testBit_shiftRight,
    Nat.testBit_two_pow_sub_one]
  by_cases hi : i < 32
  · cases i with
    | zero => simp
    | succ i =>
      simp only [Nat.add_sub_cancel, Nat.add_comm 1 i]
      simp
      omega
  · have hpow : x.toNat < 2 ^ i :=
      lt_of_lt_of_le x.toNat_lt (Nat.pow_le_pow_right (by decide) (by omega))
    cases i with
    | zero => simp
    | succ i => simp [Nat.testBit_lt_two_pow hpow, Nat.add_comm 1]

theorem tick_clear_low (d : ℕ) : tick d &&& ~~~1 = tick ((d - d % 2 : ℕ) : ℤ) := by
  apply UInt32.toNat_inj.mp
  have h1 := toNat_tick (d : ℤ)
  have h2 := toNat_tick ((d - d % 2 : ℕ) : ℤ)
  rw [toNat_clear_low]
  omega

/-! ### What the counts say -/

/-- The number of dates of `h` from `y` on. -/
def countFrom (h : List ℕ) (y : ℕ) : ℕ := h.countP fun x => decide (y ≤ x)

/-- The number of dates of `h` in the `P` ms from `t` on. -/
def countWindow (P : ℕ) (h : List ℕ) (t : ℕ) : ℕ :=
  h.countP fun x => decide (t ≤ x ∧ x < t + P)

theorem countFrom_concat (h : List ℕ) (d y : ℕ) :
    countFrom (h ++ [d]) y = countFrom h y + if y ≤ d then 1 else 0 := by
  simp [countFrom, List.countP_append, List.countP_cons]

theorem countFrom_concat_le (h : List ℕ) (d y : ℕ) :
    countFrom (h ++ [d]) y ≤ countFrom h y + 1 := by
  rw [countFrom_concat]
  split_ifs <;> omega

theorem countFrom_eq_zero {h : List ℕ} {last y : ℕ} (hall : ∀ x ∈ h, x ≤ last) (hy : last < y) :
    countFrom h y = 0 := by
  apply List.countP_eq_zero.mpr
  intro x hx
  have := hall x hx
  simp only [decide_eq_true_iff]
  omega

theorem countWindow_concat_le {P bound d : ℕ} {h : List ℕ} (hold : ∀ t, countWindow P h t ≤ bound)
    (hnew : ∀ y, d < y + P → countFrom h y + 1 ≤ bound) (t : ℕ) :
    countWindow P (h ++ [d]) t ≤ bound := by
  have happ : countWindow P (h ++ [d]) t
      = countWindow P h t + if t ≤ d ∧ d < t + P then 1 else 0 := by
    simp [countWindow, List.countP_append, List.countP_cons]
  rw [happ]
  split_ifs with hin
  · have hsub : countWindow P h t ≤ countFrom h t :=
      List.countP_mono_left fun x _ hx => by
        simp only [decide_eq_true_iff] at hx ⊢
        exact hx.1
    have := hnew t hin.2
    omega
  · exact hold t

/-- What the counter says about the recorded dates `h`: `T` is the start of the current period,
`r` a date not after its first event, `last` one not before any event. -/
structure RateCore (P F : ℕ) (ctr : FreqCtr) (h : List ℕ) (T r last : ℕ) : Prop where
  tick_eq : ctr.currTick = tick T
  even : T % 2 = 0
  le_first : T ≤ r
  first_le : r ≤ last
  -- a period that starts out of itself has one event
  last_le : last < T + P ∨ last = T + P ∧ ctr.currCtr.toNat ≤ 1
  curr_le : ctr.currCtr.toNat ≤ F
  prev_le : ctr.prevCtr.toNat ≤ F
  total_lt : windowTotal P ctr.currCtr.toNat ctr.prevCtr.toNat (last - T) < (F + 1) * P
  from_first : ∀ y, r < y + P → countFrom h y ≤ F + ctr.currCtr.toNat
  from_one : ∀ y, T + 1 ≤ y → countFrom h y ≤ ctr.currCtr.toNat + 1
  from_two : ∀ y, T + 2 ≤ y → countFrom h y ≤ ctr.currCtr.toNat
  all_le : ∀ x ∈ h, x ≤ last
  window_le : ∀ t, countWindow P h t ≤ 2 * F

theorem RateCore.fresh {P F T : ℕ} (hP : 1 ≤ P) (hT : T % 2 ^ 32 = 0) :
    RateCore P F ⟨0, 0, 0⟩ [] T T T where
  tick_eq := by
    apply UInt32.toNat_inj.mp
    have h := toNat_tick (T : ℤ)
    rw [UInt32.toNat_zero]
    omega
  even := by omega
  le_first := le_rfl
  first_le := le_rfl
  last_le := .inl (by omega)
  curr_le := Nat.zero_le _
  prev_le := Nat.zero_le _
  total_lt := by
    show windowTotal P 0 0 _ < _
    rw [windowTotal_zero]
    exact Nat.mul_pos F.succ_pos hP
  from_first _ _ := Nat.zero_le _
  from_one _ _ := Nat.zero_le _
  from_two _ _ := Nat.zero_le _
  all_le x hx := absurd hx List.not_mem_nil
  window_le _ := Nat.zero_le _

section Record

variable {P F T r last d : ℕ} {period : UInt32} {ctr : FreqCtr} {h : List ℕ}

/-- Recording within the period. -/
theorem RateCore.count (hcore : RateCore P F ctr h T r last) (hF : F < 2 ^ 32) (hd : last ≤ d)
    (hin : d < T + P)
    (hroom : windowTotal P ctr.currCtr.toNat ctr.prevCtr.toNat (d - T) < F * P) :
    RateCore P F { ctr with currCtr := ctr.currCtr + 1 } (h ++ [d]) T r d := by
  have hTd := hcore.le_first.trans (hcore.first_le.trans hd)
  have htotal : ctr.prevCtr.toNat * (P - (d - T)) + ctr.currCtr.toNat * P < F * P := by
    rwa [windowTotal, if_pos (by omega)] at hroom
  have hcurr : ctr.currCtr.toNat < F := by
    by_contra hge
    have := Nat.mul_le_mul_right P (not_lt.mp hge)
    omega
  have hnext : (ctr.currCtr + 1).toNat = ctr.currCtr.toNat + 1 := by
    rw [UInt32.toNat_add]
    exact Nat.mod_eq_of_lt (by show _ + 1 < _; omega)
  -- every count grows by one at most, as the current count does
  have hmore : ∀ y, countFrom (h ++ [d]) y ≤ countFrom h y + 1 := countFrom_concat_le h d
  exact
    { tick_eq := hcore.tick_eq
      even := hcore.even
      le_first := hcore.le_first
      first_le := hcore.first_le.trans hd
      last_le := .inl hin
      curr_le := by
        show (ctr.currCtr + 1).toNat ≤ F
        omega
      prev_le := hcore.prev_le
      total_lt := by
        show windowTotal P (ctr.currCtr + 1).toNat ctr.prevCtr.toNat (d - T) < _
        rw [hnext, windowTotal, if_pos (by omega), Nat.add_mul, Nat.add_mul]
        omega
      from_first := by
        intro y hy
        show _ ≤ F + (ctr.currCtr + 1).toNat
        have := hcore.from_first y hy
        have := hmore y
        omega
      from_one := by
        intro y hy
        show _ ≤ (ctr.currCtr + 1).toNat + 1
        have := hcore.from_one y hy
        have := hmore y
        omega
      from_two := by
        intro y hy
        show _ ≤ (ctr.currCtr + 1).toNat
        have := hcore.from_two y hy
        have := hmore y
        omega
      all_le := by
        intro x hx
        rcases List.mem_append.mp hx with hx | hx
        · exact (hcore.all_le x hx).trans hd
        · exact (List.mem_singleton.mp hx).le
      window_le := countWindow_concat_le hcore.window_le fun y hy => by
        have := hcore.from_first y (by have := hcore.first_le; omega)
        omega }

/-- The parts of the invariant that a rotation at the date `d` sets up, from how few recorded
dates there are near it. -/
theorem RateCore.rotated (prev : ℕ) {T' : ℕ} {ctr' : FreqCtr} (hF : 1 ≤ F)
    (hold : ∀ t, countWindow P h t ≤ 2 * F) (hall : ∀ x ∈ h, x ≤ last) (hd : last ≤ d)
    (htick : ctr'.currTick = tick T') (hcurr : ctr'.currCtr = 1) (hprev : ctr'.prevCtr.toNat = prev)
    (heven : T' % 2 = 0) (hle : T' ≤ d) (hend : d ≤ T' + P) (hprevF : prev ≤ F)
    (htotal : prev * (P - (d - T')) < F * P)
    (hnear : ∀ y, d < y + P → countFrom h y ≤ F)
    (hone : ∀ y, T' + 1 ≤ y → countFrom h y ≤ 1) (htwo : ∀ y, T' + 2 ≤ y → countFrom h y = 0) :
    RateCore P F ctr' (h ++ [d]) T' d d := by
  have hmore : ∀ y, countFrom (h ++ [d]) y ≤ countFrom h y + 1 := countFrom_concat_le h d
  have hcurr' : ctr'.currCtr.toNat = 1 := by rw [hcurr]; rfl
  exact
    { tick_eq := htick
      even := heven
      le_first := hle
      first_le := le_rfl
      last_le := by omega
      curr_le := by omega
      prev_le := by omega
      total_lt := by
        rw [hcurr', hprev, windowTotal, if_pos (by omega), Nat.add_mul]
        omega
      from_first := by
        intro y hy
        have := hnear y hy
        have := hmore y
        omega
      from_one := by
        intro y hy
        have := hone y hy
        have := hmore y
        omega
      from_two := by
        intro y hy
        have := htwo y hy
        have := hmore y
        omega
      all_le := by
        intro x hx
        rcases List.mem_append.mp hx with hx | hx
        · exact (hall x hx).trans hd
        · exact (List.mem_singleton.mp hx).le
      window_le := countWindow_concat_le hold fun y hy => by
        have := hnear y hy
        omega }

/-- Rotation at a date of the next period. -/
theorem RateCore.rotate_next (hcore : RateCore P F ctr h T r last) (hP : 1 ≤ P)
    (hsafe : 2 ≤ P ∨ F ≤ 1) (hd : last ≤ d) (hout : T + P ≤ d) (hin : d < T + 2 * P)
    (hroom : windowTotal P ctr.currCtr.toNat ctr.prevCtr.toNat (d - T) < F * P) {ctr' : FreqCtr}
    (htick : ctr'.currTick = tick ((T + P - (T + P) % 2 : ℕ) : ℤ)) (hcurr : ctr'.currCtr = 1)
    (hprev : ctr'.prevCtr = ctr.currCtr) :
    RateCore P F ctr' (h ++ [d]) (T + P - (T + P) % 2) d d := by
  have heven := hcore.even
  have hlast := hcore.last_le
  have htotal : ctr.currCtr.toNat * (2 * P - (d - T)) < F * P := by
    refine lt_of_le_of_lt (le_of_eq ?_) hroom
    rw [windowTotal]
    split_ifs with h1 h2
    · obtain hP' : d - T = P := by omega
      rw [hP', Nat.sub_self, Nat.mul_zero, Nat.zero_add, Nat.two_mul, Nat.add_sub_cancel]
    · rfl
    · omega
  have hF : 1 ≤ F := by
    by_contra hF
    obtain rfl : F = 0 := by omega
    omega
  -- at the very end of the period, the current count is still below the limit
  have hedge : d = T + P → ctr.currCtr.toNat < F := by
    rintro rfl
    rw [show 2 * P - (T + P - T) = P by omega] at htotal
    exact lt_of_mul_lt_mul_right' htotal
  refine RateCore.rotated ctr.currCtr.toNat hF hcore.window_le hcore.all_le hd htick hcurr
    (by rw [hprev]) (by omega) (by omega) (by omega) hcore.curr_le
    (lt_of_le_of_lt (Nat.mul_le_mul_left _ (by omega)) htotal) ?_ ?_ ?_
  · intro y hy
    by_cases hy2 : T + 2 ≤ y
    · exact (hcore.from_two y hy2).trans hcore.curr_le
    · have := hedge (by omega)
      have := hcore.from_one y (by omega)
      omega
  · intro y hy
    rcases hlast with hlast | ⟨hlast, hone⟩
    · rw [countFrom_eq_zero hcore.all_le (by omega)]
      exact Nat.zero_le _
    · rcases hsafe with hP2 | hF1
      · exact (hcore.from_two y (by omega)).trans hone
      · have := hcore.from_one y (by omega)
        by_cases hP2 : 2 ≤ P
        · exact (hcore.from_two y (by omega)).trans hone
        · have := hedge (by omega)
          omega
  · intro y hy
    exact countFrom_eq_zero hcore.all_le (by omega)

theorem RateCore.rotate_far (hcore : RateCore P F ctr h T r last) (hP : 1 ≤ P) (hF : 1 ≤ F)
    (hout : T + 2 * P ≤ d) {ctr' : FreqCtr} (htick : ctr'.currTick = tick ((d - d % 2 : ℕ) : ℤ))
    (hcurr : ctr'.currCtr = 1) (hprev : ctr'.prevCtr = 0) :
    RateCore P F ctr' (h ++ [d]) (d - d % 2) d d := by
  have hlast := hcore.last_le
  have hnone : ∀ y, d < y + P → countFrom h y = 0 := fun y hy =>
    countFrom_eq_zero hcore.all_le (by omega)
  refine RateCore.rotated 0 hF hcore.window_le hcore.all_le (by omega) htick hcurr
    (by rw [hprev]; rfl) (by omega) (by omega) (by omega) (Nat.zero_le _) ?_ ?_ ?_ ?_
  · rw [Nat.zero_mul]
    exact Nat.mul_pos hF hP
  · intro y hy
    rw [hnone y hy]
    exact Nat.zero_le _
  · intro y hy
    rw [hnone y (by omega)]
    exact Nat.zero_le _
  · intro y hy
    exact hnone y (by omega)

end Record

theorem tick_add_period (T : ℕ) (period : UInt32) :
    tick T + period = tick ((T + period.toNat : ℕ) : ℤ) := by
  apply UInt32.toNat_inj.mp
  have h1 := toNat_tick (T : ℤ)
  have h2 := toNat_tick ((T + period.toNat : ℕ) : ℤ)
  rw [UInt32.toNat_add]
  omega

section Update

variable {P F : UInt32} {T r last d : ℕ} {ctr : FreqCtr} {h : List ℕ}

/-- **Recording an event that the limit admits keeps the invariant.** -/
theorem RateCore.update (hcore : RateCore P.toNat F.toNat ctr h T r last) (hP : 1 ≤ P.toNat)
    (hsafe : 2 ≤ P.toNat ∨ F.toNat ≤ 1) (hd : last ≤ d) (hturn : d - T < 2 ^ 32)
    (hroom : windowTotal P.toNat ctr.currCtr.toNat ctr.prevCtr.toNat (d - T)
      < F.toNat * P.toNat) :
    ∃ ctr' n T' r', updateFreqCtrPeriod ctr P 1 (tick d) = some (ctr', n) ∧
      RateCore P.toNat F.toNat ctr' (h ++ [d]) T' r' d := by
  have hTd := hcore.le_first.trans (hcore.first_le.trans hd)
  have hF : 1 ≤ F.toNat := by
    by_contra hF
    rw [show F.toNat = 0 by omega, Nat.zero_mul] at hroom
    exact Nat.not_lt_zero _ hroom
  have hidle : tick d - ctr.currTick < P ↔ d < T + P.toNat := by
    rw [UInt32.lt_iff_toNat_lt, hcore.tick_eq, toNat_tick_sub hTd hturn]
    omega
  have hstill : ¬ ctr.rotating := by
    rw [FreqCtr.rotating, hcore.tick_eq, not_not]
    exact (tick_and_one T).mpr hcore.even
  by_cases hin : d < T + P.toNat
  · refine ⟨_, ctr.currCtr + 1, T, r, ?_, hcore.count F.toNat_lt hd hin hroom⟩
    rw [updateFreqCtrPeriod, if_pos (hidle.mpr hin)]
  · have hmissed : tick d - (ctr.currTick + P) ≥ P ↔ T + 2 * P.toNat ≤ d := by
      rw [ge_iff_le, UInt32.le_iff_toNat_le, hcore.tick_eq, tick_add_period,
        toNat_tick_sub (by omega) (by omega)]
      omega
    have hupdate : updateFreqCtrPeriod ctr P 1 (tick d) = some (ctr.rotate P 1 (tick d), 1) := by
      rw [updateFreqCtrPeriod, if_neg (mt hidle.mp hin), if_neg hstill]
    by_cases hfar : T + 2 * P.toNat ≤ d
    · refine ⟨_, _, _, _, hupdate, hcore.rotate_far hP hF hfar ?_ rfl ?_⟩
      · rw [← tick_clear_low]
        exact congrArg (· &&& ~~~1) (if_pos (hmissed.mpr hfar))
      · exact if_pos (hmissed.mpr hfar)
    · refine ⟨_, _, _, _, hupdate,
        hcore.rotate_next hP hsafe hd (by omega) (by omega) hroom ?_ rfl ?_⟩
      · rw [← tick_clear_low, ← tick_add_period, ← hcore.tick_eq]
        exact congrArg (· &&& ~~~1) (if_neg (mt hmissed.mp hfar))
      · exact if_neg (mt hmissed.mp hfar)

end Update

/-! ### Runs -/

/-- An event at the date `d`: it is recorded when there is room for it.  The state is the counter
with the dates recorded so far. -/
def rateStep (P F : UInt32) (s : FreqCtr × List ℕ) (d : ℕ) : Option (FreqCtr × List ℕ) :=
  (freqCtrRemainPeriod s.1 P F 0 (tick d)).bind fun remain =>
    if 0 < remain then
      (updateFreqCtrPeriod s.1 P 1 (tick d)).map fun u => (u.1, s.2 ++ [d])
    else some s

/-- The events at the dates, from a null counter. -/
def rateRun (P F : UInt32) (dates : List ℕ) : Option (FreqCtr × List ℕ) :=
  dates.foldlM (rateStep P F) (⟨0, 0, 0⟩, [])

/-- The dates do not decrease, and consecutive ones are less than 2^31 ms apart. -/
def Spaced (dates : List ℕ) : Prop := dates.IsChain fun a b => a ≤ b ∧ b < a + 2 ^ 31

/-- The period is such that the counter limits to `F`. -/
def RateSafe (P F : UInt32) : Prop := F = 0 ∨ P.toNat < 2 ^ 31 ∧ (2 ≤ P.toNat ∨ F = 1)

/-- What rate limiting promises of the events at the dates: the bounds on the counts, the bound on
every window of the recorded ones, and that the two decisions agree at the next date. -/
def RateLimited (P F : UInt32) (dates : List ℕ) : Prop :=
  ∃ ctr h, rateRun P F dates = some (ctr, h) ∧ ctr.currCtr ≤ F ∧ ctr.prevCtr ≤ F ∧
    (∀ t, countWindow P.toNat h t ≤ 2 * F.toNat) ∧
    ∀ d : ℕ, Spaced (dates ++ [d]) → ∃ remain delay,
      freqCtrRemainPeriod ctr P F 0 (tick d) = some remain ∧
      nextEventDelayPeriod ctr P F 0 (tick d) = some delay ∧ (delay = 0 ↔ 0 < remain)

/-- The counter is null, or the invariant holds and the last date is not long after the start of
the period. -/
inductive RateInv (P F : UInt32) (dates : List ℕ) : FreqCtr × List ℕ → Prop
  | fresh : dates = [] ∨ F = 0 → RateInv P F dates (⟨0, 0, 0⟩, [])
  | started {ctr h T r last a} : F ≠ 0 → RateCore P.toNat F.toNat ctr h T r last →
      dates.getLast? = some a → last ≤ a → a ≤ T + P.toNat → RateInv P F dates (ctr, h)

theorem freqCtrTotal_zero (P nowMs : UInt32) : freqCtrTotal ⟨0, 0, 0⟩ P 0 nowMs = some 0 := by
  have hzero (remain : Int32) : weighedTotal 0 0 remain 0 P = 0 := by
    show 0 * _ + (0 + 0) * _ = (0 : UInt64)
    simp
  rw [freqCtrTotal, if_neg (by decide)]
  dsimp only
  rw [if_neg (by decide : ¬ (0 : Int32) < 0)]
  simp only [show (0 : UInt32).toUInt64 = 0 from rfl, ite_self, hzero]

section Run

variable {P F : UInt32} {dates : List ℕ} {s : FreqCtr × List ℕ} {d : ℕ}

theorem RateInv.reading (hinv : RateInv P F dates s) (hP : 1 ≤ P.toNat) (hsafe : RateSafe P F)
    (hsp : Spaced (dates ++ [d])) :
    ∃ T r last total, RateCore P.toNat F.toNat s.1 s.2 T r last ∧ last ≤ d ∧ d - T < 2 ^ 32 ∧
      freqCtrTotal s.1 P 0 (tick d) = some total ∧
      total.toNat = windowTotal P.toNat s.1.currCtr.toNat s.1.prevCtr.toNat (d - T) := by
  cases hinv with
  | fresh =>
    refine ⟨d - d % 2 ^ 32, _, _, 0, RateCore.fresh hP (by omega), by omega, by omega,
      freqCtrTotal_zero _ _, ?_⟩
    exact (windowTotal_zero _ _).symm
  | @started ctr h T r last a hF hcore ha hlast hend =>
    obtain ⟨hPlt, -⟩ := hsafe.resolve_left hF
    obtain ⟨hle, hlt⟩ := (List.isChain_append.mp hsp).2.2 a ha d rfl
    have hTd := hcore.le_first.trans (hcore.first_le.trans (hlast.trans hle))
    have hstill : ¬ ctr.rotating := by
      rw [FreqCtr.rotating, hcore.tick_eq, not_not]
      exact (tick_and_one T).mpr hcore.even
    have he : (tick d - ctr.currTick).toNat = d - T := by
      rw [hcore.tick_eq]
      exact toNat_tick_sub hTd (by omega)
    have htotal := toNat_freqCtrTotal hstill hPlt he
    rw [if_pos (by omega), Option.map_eq_some_iff] at htotal
    obtain ⟨total, htotal, hval⟩ := htotal
    exact ⟨T, r, last, total, hcore, hlast.trans hle, by omega, htotal, hval⟩

theorem RateCore.total_lt_of_le {P F T r last d : ℕ} {ctr : FreqCtr} {h : List ℕ}
    (hcore : RateCore P F ctr h T r last) (hd : last ≤ d) :
    windowTotal P ctr.currCtr.toNat ctr.prevCtr.toNat (d - T) < (F + 1) * P :=
  lt_of_le_of_lt (windowTotal_anti (by omega)) hcore.total_lt

theorem RateCore.total_lt_late {P F T r last d : ℕ} {ctr : FreqCtr} {h : List ℕ}
    (hcore : RateCore P F ctr h T r last) (hP : 1 ≤ P) (hF : F ≠ 0) (hlate : T + P < d) :
    windowTotal P ctr.currCtr.toNat ctr.prevCtr.toNat (d - T) < F * P := by
  rw [windowTotal, if_neg (by omega)]
  split_ifs with hpart
  · calc ctr.currCtr.toNat * (2 * P - (d - T)) ≤ F * (2 * P - (d - T)) :=
          Nat.mul_le_mul_right _ hcore.curr_le
      _ < F * P := Nat.mul_lt_mul_of_pos_left (by omega) (Nat.pos_of_ne_zero hF)
  · exact Nat.mul_pos (Nat.pos_of_ne_zero hF) hP

/-- **An event keeps the invariant.** -/
theorem RateInv.step (hinv : RateInv P F dates s) (hP : 1 ≤ P.toNat) (hsafe : RateSafe P F)
    (hsp : Spaced (dates ++ [d])) :
    ∃ s', rateStep P F s d = some s' ∧ RateInv P F (dates ++ [d]) s' := by
  obtain ⟨T, r, last, total, hcore, hd, hturn, htotal, hval⟩ := hinv.reading hP hsafe hsp
  obtain ⟨remain, hremain, hpos⟩ := remain_pos_iff (F := F) htotal hP
    (hval ▸ hcore.total_lt_of_le hd)
  have hlast : (dates ++ [d]).getLast? = some d := List.getLast?_concat
  rw [rateStep, hremain, Option.bind_some]
  by_cases hroom : 0 < remain
  · have hwin := hval ▸ hpos.mp hroom
    have hF : F ≠ 0 := by
      rintro rfl
      exact absurd hwin (by simp)
    have hsafe' : 2 ≤ P.toNat ∨ F.toNat ≤ 1 :=
      ((hsafe.resolve_left hF).2).imp_right fun h1 => by rw [h1]; exact le_rfl
    obtain ⟨ctr', n, T', r', hupdate, hcore'⟩ := hcore.update hP hsafe' hd hturn hwin
    rw [if_pos hroom, hupdate]
    refine ⟨_, rfl, .started hF hcore' hlast le_rfl ?_⟩
    have := hcore'.last_le
    omega
  · rw [if_neg hroom]
    refine ⟨s, rfl, ?_⟩
    have hfull := mt hpos.mpr hroom
    rw [hval] at hfull
    cases hinv with
    | fresh hF =>
      refine .fresh (.inr ?_)
      rw [UInt32.toNat_zero, windowTotal_zero, not_lt, Nat.le_zero, Nat.mul_eq_zero,
        or_iff_left (by omega)] at hfull
      exact UInt32.toNat_inj.mp hfull
    | @started ctr h T₀ r₀ last₀ a hF hcore₀ ha hlast₀ hend =>
      refine .started hF hcore hlast hd (not_lt.mp fun hlate => hfull ?_)
      exact hcore.total_lt_late hP (fun h0 => hF (UInt32.toNat_inj.mp h0)) hlate

theorem RateInv.run (hP : 1 ≤ P.toNat) (hsafe : RateSafe P F) (hsp : Spaced dates) :
    ∃ s, rateRun P F dates = some s ∧ RateInv P F dates s := by
  induction dates using List.reverseRecOn with
  | nil => exact ⟨_, rfl, .fresh (.inl rfl)⟩
  | append_singleton dates d ih =>
    obtain ⟨s, hs, hinv⟩ := ih hsp.left_of_append
    obtain ⟨s', hs', hinv'⟩ := hinv.step hP hsafe hsp
    refine ⟨s', ?_, hinv'⟩
    rw [rateRun, List.foldlM_append, ← rateRun, hs]
    simpa using hs'

theorem RateInv.core (hinv : RateInv P F dates s) (hP : 1 ≤ P.toNat) :
    ∃ T r last, RateCore P.toNat F.toNat s.1 s.2 T r last := by
  cases hinv with
  | fresh => exact ⟨0, 0, 0, RateCore.fresh hP rfl⟩
  | started _ hcore => exact ⟨_, _, _, hcore⟩

theorem rateLimited_of_safe (hP : 1 ≤ P.toNat) (hsafe : RateSafe P F) (hsp : Spaced dates) :
    RateLimited P F dates := by
  obtain ⟨⟨ctr, h⟩, hrun, hinv⟩ := RateInv.run hP hsafe hsp
  obtain ⟨T, r, last, hcore⟩ := hinv.core hP
  refine ⟨ctr, h, hrun, UInt32.le_iff_toNat_le.mpr hcore.curr_le,
    UInt32.le_iff_toNat_le.mpr hcore.prev_le, hcore.window_le, fun d hd => ?_⟩
  obtain ⟨T, r, last, total, hcore, hle, -, htotal, hval⟩ := hinv.reading hP hsafe hd
  obtain ⟨remain, hremain, hpos⟩ := remain_pos_iff (F := F) htotal hP
    (hval ▸ hcore.total_lt_of_le hle)
  obtain ⟨delay, hdelay, hzero⟩ := delay_zero_iff (F := F) htotal
  exact ⟨remain, delay, hremain, hdelay, hzero.trans hpos.symm⟩

/-! ### Periods that limit nothing -/

theorem rateRun_flood {Q : ℕ → FreqCtr → Prop} {N : ℕ} (hzero : Q 0 ⟨0, 0, 0⟩)
    (hstep : ∀ n ctr, n < N → Q n ctr → ∃ remain ctr' k,
      freqCtrRemainPeriod ctr P F 0 (tick d) = some remain ∧ 0 < remain ∧
      updateFreqCtrPeriod ctr P 1 (tick d) = some (ctr', k) ∧ Q (n + 1) ctr') :
    ∀ n ≤ N, ∃ ctr,
      rateRun P F (List.replicate n d) = some (ctr, List.replicate n d) ∧ Q n ctr := by
  intro n
  induction n with
  | zero => exact fun _ => ⟨_, rfl, hzero⟩
  | succ n ih =>
    intro hn
    obtain ⟨ctr, hrun, hQ⟩ := ih (by omega)
    obtain ⟨remain, ctr', k, hremain, hpos, hupdate, hQ'⟩ := hstep n ctr hn hQ
    refine ⟨ctr', ?_, hQ'⟩
    have hone : rateStep P F (ctr, List.replicate n d) d
        = some (ctr', List.replicate (n + 1) d) := by
      rw [rateStep, hremain, Option.bind_some, if_pos hpos, hupdate, List.replicate_succ']
      rfl
    rw [List.replicate_succ', rateRun, List.foldlM_append, ← rateRun, hrun,
      ← List.replicate_succ']
    simpa using hone

theorem not_rateLimited_of_flood {ctr : FreqCtr} (hP : 1 ≤ P.toNat)
    (hrun : rateRun P F (List.replicate (2 * F.toNat + 1) d)
      = some (ctr, List.replicate (2 * F.toNat + 1) d)) :
    ¬ RateLimited P F (List.replicate (2 * F.toNat + 1) d) := by
  rintro ⟨ctr', h, hrun', -, -, hwin, -⟩
  obtain ⟨-, rfl⟩ : ctr = ctr' ∧ List.replicate (2 * F.toNat + 1) d = h := by
    simpa using hrun.symm.trans hrun'
  have hfull := hwin d
  rw [countWindow, List.countP_replicate] at hfull
  simp only [le_rfl, true_and] at hfull
  rw [if_pos (by rw [decide_eq_true_iff]; omega)] at hfull
  omega

theorem spaced_replicate (n d : ℕ) : Spaced (List.replicate n d) := by
  apply List.isChain_replicate_of_rel
  exact ⟨le_rfl, by omega⟩

theorem flood_one (hF : 2 ≤ F.toNat) :
    ∃ ctr, rateRun 1 F (List.replicate (2 * F.toNat + 1) 1)
      = some (ctr, List.replicate (2 * F.toNat + 1) 1) := by
  have hflood := rateRun_flood (P := 1) (F := F) (d := 1) (N := 2 * F.toNat + 1)
    (Q := fun _ ctr => ctr = ⟨0, 0, 0⟩ ∨ ctr = ⟨0, 1, 0⟩ ∨ ctr = ⟨0, 1, 1⟩) (.inl rfl) ?_
  · obtain ⟨ctr, hrun, -⟩ := hflood _ le_rfl
    exact ⟨ctr, hrun⟩
  · intro n ctr _ hctr
    -- the total is the current count, and the counter has its second event in the next state
    have hread : ∃ total, freqCtrTotal ctr 1 0 (tick (1 : ℕ)) = some total ∧ total.toNat ≤ 1 := by
      rcases hctr with rfl | rfl | rfl <;> exact ⟨_, rfl, by decide⟩
    have hrotate : ∃ ctr', updateFreqCtrPeriod ctr 1 1 (tick (1 : ℕ)) = some (ctr', 1) ∧
        (ctr' = ⟨0, 0, 0⟩ ∨ ctr' = ⟨0, 1, 0⟩ ∨ ctr' = ⟨0, 1, 1⟩) := by
      rcases hctr with rfl | rfl | rfl <;> exact ⟨_, rfl, by decide⟩
    obtain ⟨total, htotal, hle⟩ := hread
    obtain ⟨ctr', hupdate, hctr'⟩ := hrotate
    have hone : (1 : UInt32).toNat = 1 := rfl
    obtain ⟨remain, hremain, hpos⟩ := remain_pos_iff (F := F) htotal (by decide)
      (by rw [hone]; omega)
    exact ⟨remain, ctr', 1, hremain, hpos.mpr (by rw [hone]; omega), hupdate, hctr'⟩

/-- The total of a long period at the date `P - 2^31`, where what remains of it looks negative. -/
theorem total_long (curr : UInt32) (hP : 2 ^ 31 ≤ P.toNat) :
    ∃ total, freqCtrTotal ⟨0, curr, 0⟩ P 0 (tick ((P.toNat - 2 ^ 31 : ℕ) : ℤ)) = some total ∧
      total.toNat = curr.toNat * (P.toNat - 2 ^ 31) := by
  have hlt := P.toNat_lt
  have hdate := toNat_tick ((P.toNat - 2 ^ 31 : ℕ) : ℤ)
  have hhalf : 0 + P - tick ((P.toNat - 2 ^ 31 : ℕ) : ℤ) = 2 ^ 31 := by
    apply UInt32.toNat_inj.mp
    show _ = 2 ^ 31
    rw [UInt32.toNat_sub, UInt32.zero_add]
    omega
  have hr : ((2 ^ 31 + P : UInt32).toInt32).toInt = (P.toNat - 2 ^ 31 : ℕ) := by
    have hsum : (2 ^ 31 + P : UInt32).toNat = P.toNat - 2 ^ 31 := by
      rw [UInt32.toNat_add]
      show (2 ^ 31 + P.toNat) % 2 ^ 32 = _
      omega
    rw [toInt_toInt32, hsum, if_pos (by omega)]
  have hbound : curr.toNat * (P.toNat - 2 ^ 31) + (0 : UInt32).toNat * P.toNat < 2 ^ 64 := by
    have hcurr := curr.toNat_lt
    have : curr.toNat * (P.toNat - 2 ^ 31) ≤ (2 ^ 32 - 1) * 2 ^ 31 :=
      Nat.mul_le_mul (by omega) (by omega)
    rw [UInt32.toNat_zero, Nat.zero_mul]
    omega
  refine ⟨_, ?_, (toNat_weighedTotal hr hbound).trans (by simp)⟩
  have hneg : (2 ^ 31 : UInt32).toInt32 < 0 := by decide
  have hge : (2 ^ 31 + P : UInt32).toInt32 ≥ 0 := by
    rw [ge_iff_le, Int32.le_iff_toInt_le, hr]
    exact Int.natCast_nonneg _
  have hstill : ¬ FreqCtr.rotating ⟨0, curr, 0⟩ := by
    show ¬ (0 &&& 1 : UInt32) ≠ 0
    decide
  rw [freqCtrTotal, if_neg hstill]
  dsimp only
  rw [hhalf, if_neg (by decide : ¬ (0 : Int32) < 0)]
  simp only [hneg, if_true, UInt32.toUInt32_toInt32, hge]
  rfl

theorem flood_long (hP : 2 ^ 31 ≤ P.toNat) (hF : F ≠ 0) :
    ∃ ctr, rateRun P F (List.replicate (2 * F.toNat + 1) (P.toNat - 2 ^ 31))
      = some (ctr, List.replicate (2 * F.toNat + 1) (P.toNat - 2 ^ 31)) := by
  have hlt := P.toNat_lt
  have hF' : 1 ≤ F.toNat := Nat.one_le_iff_ne_zero.mpr fun h0 => hF (UInt32.toNat_inj.mp h0)
  have hflood := rateRun_flood (P := P) (F := F) (d := P.toNat - 2 ^ 31) (N := 2 * F.toNat + 1)
    (Q := fun n ctr => ctr.currTick = 0 ∧ ctr.prevCtr = 0 ∧ ctr.currCtr.toNat ≤ n)
    ⟨rfl, rfl, le_rfl⟩ ?_
  · obtain ⟨ctr, hrun, -⟩ := hflood _ le_rfl
    exact ⟨ctr, hrun⟩
  · rintro n ⟨t, curr, prev⟩ hn ⟨rfl, rfl, hcurr⟩
    obtain ⟨total, htotal, hval⟩ := total_long curr hP
    have hbelow : total.toNat < F.toNat * P.toNat := by
      have hdate : (P.toNat - 2 ^ 31) * 2 < P.toNat := by omega
      have hcurr' : curr.toNat ≤ F.toNat * 2 := le_trans hcurr (by omega)
      calc total.toNat ≤ F.toNat * 2 * (P.toNat - 2 ^ 31) := by
            rw [hval]
            exact Nat.mul_le_mul_right _ hcurr'
        _ = F.toNat * ((P.toNat - 2 ^ 31) * 2) := by
            rw [Nat.mul_assoc, Nat.mul_comm 2]
        _ < F.toNat * P.toNat := Nat.mul_lt_mul_of_pos_left hdate hF'
    obtain ⟨remain, hremain, hpos⟩ := remain_pos_iff (F := F) htotal (by omega)
      (hbelow.trans_le (Nat.mul_le_mul_right _ (Nat.le_succ _)))
    refine ⟨remain, ⟨0, curr + 1, 0⟩, curr + 1, hremain, hpos.mpr hbelow, ?_, rfl, rfl, ?_⟩
    · have hdate := toNat_tick ((P.toNat - 2 ^ 31 : ℕ) : ℤ)
      have hin : tick ((P.toNat - 2 ^ 31 : ℕ) : ℤ) - 0 < P := by
        rw [UInt32.sub_zero, UInt32.lt_iff_toNat_lt]
        omega
      rw [updateFreqCtrPeriod, if_pos hin]
    · show (curr + 1).toNat ≤ n + 1
      rw [UInt32.toNat_add]
      exact (Nat.mod_le _ _).trans (Nat.succ_le_succ hcurr)

end Run

/-- **Rate limiting holds over whole runs exactly when the period is at least 2 ms and less than
2^31 ms, or the limit is 0 or, for a period of 1 ms, 1.** -/
theorem rate_limited_iff (P F : UInt32) (hP : 1 ≤ P) :
    (∀ dates, Spaced dates → RateLimited P F dates) ↔ RateSafe P F := by
  have hP' : 1 ≤ P.toNat := UInt32.le_iff_toNat_le.mp hP
  refine ⟨fun hall => ?_, fun hsafe dates hsp => rateLimited_of_safe hP' hsafe hsp⟩
  by_contra hunsafe
  obtain ⟨hF, hperiod⟩ := not_or.mp hunsafe
  by_cases hlong : 2 ^ 31 ≤ P.toNat
  · obtain ⟨ctr, hrun⟩ := flood_long hlong hF
    exact not_rateLimited_of_flood hP' hrun (hall _ (spaced_replicate _ _))
  · obtain ⟨hP1, hF1⟩ := not_or.mp fun h => hperiod ⟨not_le.mp hlong, h⟩
    obtain rfl : P = 1 := UInt32.toNat_inj.mp (by show P.toNat = 1; omega)
    have hF2 : 2 ≤ F.toNat := by
      have h0 : F.toNat ≠ 0 := fun h => hF (UInt32.toNat_inj.mp h)
      have h1 : F.toNat ≠ 1 := fun h => hF1 (UInt32.toNat_inj.mp h)
      omega
    obtain ⟨ctr, hrun⟩ := flood_one hF2
    exact not_rateLimited_of_flood hP' hrun (hall _ (spaced_replicate _ _))

/-- A limit of 100 events in 10 s. -/
theorem rate_limited_iff_ten :
    (∀ dates, Spaced dates → RateLimited 10000 100 dates) ↔ RateSafe 10000 100 :=
  rate_limited_iff 10000 100 (by decide)

/-- A limit of 2 events in 1 ms: 5 events at the date 1 are all recorded. -/
theorem rate_unlimited :
    ¬ ∀ (P F : UInt32), 1 ≤ P → ∀ dates, Spaced dates → RateLimited P F dates := by
  intro hall
  obtain ⟨ctr, h, hrun, -, -, hwin, -⟩ := hall 1 2 (by decide) [1, 1, 1, 1, 1]
    (spaced_replicate 5 1)
  have hrec : rateRun 1 2 [1, 1, 1, 1, 1] = some (⟨0, 1, 1⟩, [1, 1, 1, 1, 1]) := by decide
  obtain ⟨-, rfl⟩ : (⟨0, 1, 1⟩ : FreqCtr) = ctr ∧ [1, 1, 1, 1, 1] = h := by
    simpa using hrec.symm.trans hrun
  exact absurd (hwin 1) (by decide)

end SmartHAProxy
