/-
The dynamic limit of the connections of a server (queue.c).

`srv_dynamic_maxconn` scales `maxconn` twice: by the number of connections of the backend
against its `fullconn`, and by the progress of the slow start.  Each product is taken in 32
bits.  The bounds of the result do not depend on that, since a product that wraps around only
gets smaller (`limitAt_bounds`).  That the limit grows with the number of connections does: it
grows unless the first product wraps around and the loss shows (`fullLimit_mono_iff`).
`srvDynamicMaxconn_bounds_iff` is the whole of it, with the condition on the configured numbers.
-/
import SmartHAProxy.Lb.Backend
import Mathlib.Algebra.Order.Ring.Nat

namespace SmartHAProxy

variable {s : Server} {now : ℤ}

/-! ### Products in 32 bits -/

/-- `x * y / z`, with the product in 32 bits. -/
def scaled (x y z : ℕ) : ℕ := x * y % 2 ^ 32 / z

theorem scaled_le {x y z : ℕ} (h : x ≤ z) : scaled x y z ≤ y := by
  have hmod : x * y % 2 ^ 32 ≤ z * y := (Nat.mod_le _ _).trans (Nat.mul_le_mul_right y h)
  exact Nat.div_le_of_le_mul hmod

theorem scaled_mono {x x' y z : ℕ} (hle : x ≤ x') (hlt : x' * y < 2 ^ 32) :
    scaled x y z ≤ scaled x' y z := by
  have hprod : x * y ≤ x' * y := Nat.mul_le_mul_right y hle
  apply Nat.div_le_div_right
  rwa [Nat.mod_eq_of_lt (Nat.lt_of_le_of_lt hprod hlt), Nat.mod_eq_of_lt hlt]

/-- The last number whose product with `y` is below `n`. -/
theorem eq_pred_div_iff {b y n : ℕ} (hy : 0 < y) (hn : 0 < n) :
    b = (n - 1) / y ↔ b * y < n ∧ n ≤ (b + 1) * y := by
  rw [eq_comm, Nat.div_eq_iff hy, Nat.add_mul]
  omega

/-- **The wrap**: the product with `y` passes the `k`-th multiple of 2^32 between `b` and `b + 1`.
Before it is short of the multiple by the rest of `k * 2^32 - 1`, and by one. -/
theorem scaled_wrap {b y k : ℕ} (hy : y < 2 ^ 32) (hk : 0 < k)
    (hlt : b * y < k * 2 ^ 32) (hge : k * 2 ^ 32 ≤ (b + 1) * y) (z : ℕ) :
    scaled b y z = (2 ^ 32 - 1 - (k * 2 ^ 32 - 1) % y) / z ∧
      scaled (b + 1) y z = (y - 1 - (k * 2 ^ 32 - 1) % y) / z := by
  have hpos : 0 < y := Nat.pos_of_ne_zero fun h => by
    rw [h, Nat.mul_zero] at hge
    omega
  have hquot := (eq_pred_div_iff hpos (by omega)).mpr ⟨hlt, hge⟩
  have hdiv := Nat.div_add_mod' (k * 2 ^ 32 - 1) y
  rw [← hquot] at hdiv
  have hrest := Nat.mod_lt (k * 2 ^ 32 - 1) hpos
  rw [Nat.add_mul, Nat.one_mul] at hge
  obtain ⟨j, rfl⟩ : ∃ j, k = j + 1 := ⟨k - 1, by omega⟩
  rw [Nat.add_mul, Nat.one_mul] at hlt hge hdiv hrest ⊢
  generalize (j * 2 ^ 32 + 2 ^ 32 - 1) % y = rest at hdiv hrest ⊢
  have hbefore : b * y = 2 ^ 32 - 1 - rest + 2 ^ 32 * j := by omega
  have hbehind : (b + 1) * y = y - 1 - rest + 2 ^ 32 * (j + 1) := by
    rw [Nat.add_mul, Nat.one_mul]
    omega
  rw [scaled, scaled, hbefore, hbehind, Nat.add_mul_mod_self_left, Nat.add_mul_mod_self_left,
    Nat.mod_eq_of_lt (by omega), Nat.mod_eq_of_lt (by omega)]
  exact ⟨rfl, rfl⟩

/-- Where the product with `y` passes the `k`-th multiple of 2^32, the loss does not show: the
quotient before is at most `m`, or `y` is so close to 2^32 that the quotient stays the same. -/
def LossHidden (y z m k : ℕ) : Prop :=
  2 ^ 32 ≤ z * (m + 1) + (k * 2 ^ 32 - 1) % y ∨
    2 ^ 32 - y ≤ (2 ^ 32 - 1 - (k * 2 ^ 32 - 1) % y) % z

theorem scaled_step_iff {b y z m : ℕ} (hpos : 0 < y) (hy : y < 2 ^ 32) (hz : 0 < z) :
    scaled b y z ≤ max m (scaled (b + 1) y z) ↔
      ∀ k, 0 < k → b = (k * 2 ^ 32 - 1) / y → LossHidden y z m k := by
  have hnext : (b + 1) * y = b * y + y := by rw [Nat.add_mul, Nat.one_mul]
  by_cases hwrap : ∃ k, 0 < k ∧ b * y < k * 2 ^ 32 ∧ k * 2 ^ 32 ≤ (b + 1) * y
  · obtain ⟨k, hk, hlt, hge⟩ := hwrap
    have hlast := (eq_pred_div_iff hpos (by omega)).mpr ⟨hlt, hge⟩
    have hhidden : scaled b y z ≤ max m (scaled (b + 1) y z) ↔ LossHidden y z m k := by
      obtain ⟨hbefore, hbehind⟩ := scaled_wrap hy hk hlt hge z
      have hrest := Nat.mod_lt (k * 2 ^ 32 - 1) hpos
      rw [hbefore, hbehind, LossHidden, le_max_iff]
      generalize (k * 2 ^ 32 - 1) % y = rest at hrest ⊢
      rw [← Nat.lt_succ_iff, Nat.div_lt_iff_lt_mul hz, Nat.mul_comm m.succ, Nat.succ_eq_add_one,
        Nat.le_div_iff_mul_le hz]
      have hdiv := Nat.div_add_mod' (2 ^ 32 - 1 - rest) z
      omega
    rw [hhidden]
    constructor
    · intro h k' hk' hlast'
      -- the product passes one multiple at most
      obtain ⟨hlt', hge'⟩ := (eq_pred_div_iff hpos (by omega)).mp hlast'
      obtain rfl : k' = k := by omega
      exact h
    · exact fun h => h k hk hlast
  · have hsame : b * y / 2 ^ 32 = (b + 1) * y / 2 ^ 32 := by
      by_contra hne
      exact hwrap ⟨(b + 1) * y / 2 ^ 32, by omega, by omega, by omega⟩
    have hle : scaled b y z ≤ scaled (b + 1) y z := Nat.div_le_div_right (by omega)
    refine iff_of_true (hle.trans (Nat.le_max_right _ _)) fun k hk hlast => ?_
    exact absurd ⟨k, hk, (eq_pred_div_iff hpos (by omega)).mp hlast⟩ hwrap

theorem toNat_scaled (x y z : UInt32) : (x * y / z).toNat = scaled x.toNat y.toNat z.toNat := by
  rw [UInt32.toNat_div, UInt32.toNat_mul, scaled]

theorem toNat_max (x y : UInt32) : (max x y).toNat = max x.toNat y.toNat := by
  show (if x ≤ y then y else x).toNat = _
  split_ifs with h
  · exact (max_eq_right (UInt32.le_iff_toNat_le.mp h)).symm
  · exact (max_eq_left (Nat.le_of_lt (UInt32.lt_iff_toNat_lt.mp (UInt32.not_le.mp h)))).symm

/-! ### The two steps -/

variable {ι L : Type*}
variable {px : Proxy ι L}

def Server.SlowStarting (s : Server) (now : ℤ) : Prop :=
  s.curState = .starting ∧ now < s.lastChange + s.slowstart ∧ now ≥ s.lastChange

instance Server.decidableSlowStarting (s : Server) (now : ℤ) : Decidable (s.SlowStarting now) :=
  inferInstanceAs (Decidable (_ ∧ _ ∧ _))

/-- The progress of the slow start, in percent. -/
def Server.slowRatio (s : Server) (now : ℤ) : ℕ :=
  (UInt32.ofInt ((100 * (now - s.lastChange)).tdiv s.slowstart)).toNat

/-- The limit before the slow start, for `beconn` connections of the backend. -/
def Proxy.fullLimit (px : Proxy ι L) (s : Server) (beconn : ℕ) : ℕ :=
  if px.fullconn.toNat ≤ beconn ∨ s.minconn = s.maxconn then s.maxconn.toNat
  else max s.minconn.toNat (scaled beconn s.maxconn.toNat px.fullconn.toNat)

/-- The limit, for `beconn` connections of the backend. -/
def Proxy.limitAt (px : Proxy ι L) (now : ℤ) (s : Server) (beconn : ℕ) : ℕ :=
  if s.SlowStarting now then max 1 (scaled (px.fullLimit s beconn) (s.slowRatio now) 100)
  else px.fullLimit s beconn

theorem toNat_srvDynamicMaxconn (px : Proxy ι L) (now : ℤ) (s : Server) (beconn : UInt32) :
    (srvDynamicMaxconn { px with beconn := beconn } now s).toNat =
      px.limitAt now s beconn.toNat := by
  have hfull : (if beconn ≥ px.fullconn then s.maxconn
      else if s.minconn = s.maxconn then s.maxconn
      else max s.minconn (beconn * s.maxconn / px.fullconn)).toNat =
        px.fullLimit s beconn.toNat := by
    rw [Proxy.fullLimit]
    by_cases hle : px.fullconn ≤ beconn
    · rw [if_pos hle, if_pos (.inl (UInt32.le_iff_toNat_le.mp hle))]
    · rw [if_neg hle]
      by_cases hmin : s.minconn = s.maxconn
      · rw [if_pos hmin, if_pos (.inr hmin)]
      · have hnot : ¬ (px.fullconn.toNat ≤ beconn.toNat ∨ s.minconn = s.maxconn) :=
          fun h => h.elim (fun h => hle (UInt32.le_iff_toNat_le.mpr h)) hmin
        rw [if_neg hmin, if_neg hnot, toNat_max, toNat_scaled]
  unfold srvDynamicMaxconn
  dsimp only
  generalize (if beconn ≥ px.fullconn then s.maxconn
    else if s.minconn = s.maxconn then s.maxconn
    else max s.minconn (beconn * s.maxconn / px.fullconn)) = max₀ at hfull ⊢
  rw [Proxy.limitAt, ← hfull]
  by_cases hslow : s.SlowStarting now
  · rw [if_pos hslow]
    refine (congrArg UInt32.toNat (if_pos hslow)).trans ?_
    rw [toNat_max, toNat_scaled]
    rfl
  · rw [if_neg hslow]
    exact congrArg UInt32.toNat (if_neg hslow)

/-! ### Bounds -/

theorem slowRatio_spec (h : s.SlowStarting now) :
    s.slowRatio now = (100 * (now - s.lastChange) / s.slowstart).toNat ∧ s.slowRatio now < 100 := by
  obtain ⟨-, hlt, hge⟩ := h
  have hpos : 0 < s.slowstart := by omega
  have hquot : (100 * (now - s.lastChange)).tdiv s.slowstart =
      100 * (now - s.lastChange) / s.slowstart := Int.tdiv_eq_ediv_of_nonneg (by omega)
  have hnonneg : 0 ≤ 100 * (now - s.lastChange) / s.slowstart :=
    Int.ediv_nonneg (by omega) (Int.le_of_lt hpos)
  have hlt' : 100 * (now - s.lastChange) / s.slowstart < 100 :=
    Int.ediv_lt_of_lt_mul hpos (by omega)
  rw [Server.slowRatio, hquot]
  generalize 100 * (now - s.lastChange) / s.slowstart = ratio at hnonneg hlt'
  have hsmall : ratio % 2 ^ 32 = ratio := Int.emod_eq_of_lt hnonneg (by omega)
  have hlt'' : ratio.toNat < 100 := by omega
  rw [UInt32.ofInt, hsmall, UInt32.toNat_ofNat_of_lt' (Nat.lt_trans hlt'' (by decide))]
  exact ⟨rfl, hlt''⟩

theorem fullLimit_bounds (px : Proxy ι L) (h : s.minconn ≤ s.maxconn) (beconn : ℕ) :
    s.minconn.toNat ≤ px.fullLimit s beconn ∧ px.fullLimit s beconn ≤ s.maxconn.toNat := by
  have hle := UInt32.le_iff_toNat_le.mp h
  rw [Proxy.fullLimit]
  split_ifs with hfull
  · exact ⟨hle, Nat.le_refl _⟩
  · have hlt : beconn ≤ px.fullconn.toNat := Nat.le_of_not_le fun hge => hfull (.inl hge)
    exact ⟨Nat.le_max_left _ _, max_le hle (scaled_le hlt)⟩

theorem limitAt_bounds (px : Proxy ι L) (hmin : 0 < s.minconn) (h : s.minconn ≤ s.maxconn)
    (hslow : s.SlowStarting now) (beconn : ℕ) :
    1 ≤ px.limitAt now s beconn ∧ px.limitAt now s beconn ≤ s.maxconn.toNat := by
  obtain ⟨hge, hle⟩ := fullLimit_bounds px h beconn
  have hpos : 1 ≤ s.minconn.toNat := UInt32.lt_iff_toNat_lt.mp hmin
  rw [Proxy.limitAt, if_pos hslow]
  refine ⟨Nat.le_max_left _ _, max_le (by omega) ?_⟩
  have hscaled : scaled (s.slowRatio now) (px.fullLimit s beconn) 100 ≤ px.fullLimit s beconn :=
    scaled_le (Nat.le_of_lt (slowRatio_spec hslow).2)
  rw [scaled, Nat.mul_comm] at hscaled
  exact hscaled.trans hle

/-! ### Monotonicity -/

/-- The limit is static, or at every multiple of 2^32 that the product of the connections and
`maxconn` passes below `fullconn`, `minconn` hides the loss. -/
def Proxy.LossHidden (px : Proxy ι L) (s : Server) : Prop :=
  s.minconn = s.maxconn ∨
    ∀ k, 0 < k → (k * 2 ^ 32 - 1) / s.maxconn.toNat + 1 < px.fullconn.toNat →
      SmartHAProxy.LossHidden s.maxconn.toNat px.fullconn.toNat s.minconn.toNat k

theorem fullLimit_step_iff (h : s.minconn ≤ s.maxconn) {beconn : ℕ} :
    px.fullLimit s beconn ≤ px.fullLimit s (beconn + 1) ↔
      (beconn + 1 < px.fullconn.toNat → s.minconn ≠ s.maxconn →
        scaled beconn s.maxconn.toNat px.fullconn.toNat ≤ max s.minconn.toNat
          (scaled (beconn + 1) s.maxconn.toNat px.fullconn.toNat)) := by
  by_cases hfull : px.fullconn.toNat ≤ beconn + 1 ∨ s.minconn = s.maxconn
  · rw [Proxy.fullLimit.eq_1 px s (beconn + 1), if_pos hfull]
    refine iff_of_true (fullLimit_bounds px h beconn).2 fun hlt hne => ?_
    exact absurd hfull (not_or.mpr ⟨Nat.not_le_of_lt hlt, hne⟩)
  · obtain ⟨hlt, hne⟩ := not_or.mp hfull
    have hfull' : ¬ (px.fullconn.toNat ≤ beconn ∨ s.minconn = s.maxconn) :=
      not_or.mpr ⟨by omega, hne⟩
    rw [Proxy.fullLimit, Proxy.fullLimit, if_neg hfull, if_neg hfull', max_le_iff]
    exact ⟨fun hle _ _ => hle.2, fun hle => ⟨Nat.le_max_left _ _, hle (by omega) hne⟩⟩

/-- **The limit before the slow start grows** if and only if no loss shows. -/
theorem fullLimit_mono_iff (hmin : 0 < s.minconn) (h : s.minconn ≤ s.maxconn) :
    (∀ beconn < px.fullconn.toNat, px.fullLimit s beconn ≤ px.fullLimit s (beconn + 1)) ↔
      px.LossHidden s := by
  have hpos : 0 < s.maxconn.toNat :=
    Nat.lt_of_lt_of_le (UInt32.lt_iff_toNat_lt.mp hmin) (UInt32.le_iff_toNat_le.mp h)
  by_cases hstatic : s.minconn = s.maxconn
  · refine iff_of_true (fun beconn _ => ?_) (.inl hstatic)
    exact (fullLimit_step_iff h).mpr fun _ hne => absurd hstatic hne
  · constructor
    · intro hmono
      refine .inr fun k hk hlt => ?_
      have hstep := (fullLimit_step_iff h).mp (hmono _ (Nat.lt_of_succ_lt hlt)) hlt hstatic
      exact (scaled_step_iff hpos s.maxconn.toNat_lt (Nat.zero_lt_of_lt hlt)).mp hstep k hk rfl
    · intro hhidden beconn _
      refine (fullLimit_step_iff h).mpr fun hlt _ => ?_
      refine (scaled_step_iff hpos s.maxconn.toNat_lt (Nat.zero_lt_of_lt hlt)).mpr fun k hk hb => ?_
      exact hhidden.resolve_left hstatic k hk (hb ▸ hlt)

/-- A limit that grows up to `fullconn` connections grows. -/
theorem fullLimit_monotone
    (h : ∀ beconn < px.fullconn.toNat, px.fullLimit s beconn ≤ px.fullLimit s (beconn + 1)) :
    Monotone (px.fullLimit s) := by
  refine monotone_nat_of_le_succ fun beconn => ?_
  by_cases hlt : beconn < px.fullconn.toNat
  · exact h beconn hlt
  · have hge : px.fullconn.toNat ≤ beconn := Nat.le_of_not_lt hlt
    rw [Proxy.fullLimit, Proxy.fullLimit, if_pos (.inl hge), if_pos (.inl (Nat.le_succ_of_le hge))]

/-- The progress of the slow start of `maxconn` connections fits into 32 bits. -/
def Server.SlowFits (s : Server) (now : ℤ) : Prop :=
  s.maxconn.toNat * (100 * (now - s.lastChange) / s.slowstart).toNat < 2 ^ 32

instance Server.decidableSlowFits (s : Server) (now : ℤ) : Decidable (s.SlowFits now) :=
  Nat.decLt _ _

theorem limitAt_monotone (hmin : 0 < s.minconn) (h : s.minconn ≤ s.maxconn)
    (hslow : s.SlowStarting now)
    (hcond : s.minconn = s.maxconn ∨ px.LossHidden s ∧ s.SlowFits now) :
    Monotone (px.limitAt now s) := by
  intro beconn beconn' hle
  rw [Proxy.limitAt, Proxy.limitAt, if_pos hslow, if_pos hslow]
  refine max_le_max_left _ ?_
  rcases hcond with hstatic | ⟨hhidden, hfits⟩
  · rw [Proxy.fullLimit, Proxy.fullLimit, if_pos (.inr hstatic), if_pos (.inr hstatic)]
  · refine scaled_mono (fullLimit_monotone ((fullLimit_mono_iff hmin h).mpr hhidden) hle) ?_
    rw [(slowRatio_spec hslow).1]
    exact Nat.lt_of_le_of_lt (Nat.mul_le_mul_right _ (fullLimit_bounds px h beconn').2) hfits

structure MaxconnBounds (px : Proxy ι L) (now : ℤ) (s : Server) : Prop where
  bounds : ¬ s.SlowStarting now → ∀ beconn,
    s.minconn ≤ srvDynamicMaxconn { px with beconn := beconn } now s ∧
      srvDynamicMaxconn { px with beconn := beconn } now s ≤ s.maxconn
  slow : s.SlowStarting now → ∀ beconn,
    1 ≤ srvDynamicMaxconn { px with beconn := beconn } now s ∧
      srvDynamicMaxconn { px with beconn := beconn } now s ≤ s.maxconn
  mono : ∀ beconn beconn', beconn ≤ beconn' →
    srvDynamicMaxconn { px with beconn := beconn } now s ≤
      srvDynamicMaxconn { px with beconn := beconn' } now s
  full : ¬ s.SlowStarting now → ∀ beconn, px.fullconn ≤ beconn →
    srvDynamicMaxconn { px with beconn := beconn } now s = s.maxconn

theorem maxconnBounds_iff (hmin : 0 < s.minconn) (hmax : s.minconn ≤ s.maxconn) :
    MaxconnBounds px now s ↔ ∀ beconn beconn', beconn ≤ beconn' → beconn' < 2 ^ 32 →
      px.limitAt now s beconn ≤ px.limitAt now s beconn' := by
  constructor
  · intro h beconn beconn' hle hlt
    have hmono := h.mono (.ofNat beconn) (.ofNat beconn')
    simp only [UInt32.le_iff_toNat_le, toNat_srvDynamicMaxconn] at hmono
    rw [UInt32.toNat_ofNat_of_lt' hlt,
      UInt32.toNat_ofNat_of_lt' (Nat.lt_of_le_of_lt hle hlt)] at hmono
    exact hmono hle
  · intro hmono
    constructor
    · intro hslow beconn
      have hbounds := fullLimit_bounds px hmax beconn.toNat
      simp only [UInt32.le_iff_toNat_le, toNat_srvDynamicMaxconn]
      rwa [Proxy.limitAt, if_neg hslow]
    · intro hslow beconn
      have hbounds := limitAt_bounds px hmin hmax hslow beconn.toNat
      simp only [UInt32.le_iff_toNat_le, toNat_srvDynamicMaxconn]
      exact hbounds
    · intro beconn beconn' hle
      simp only [UInt32.le_iff_toNat_le, toNat_srvDynamicMaxconn] at hle ⊢
      exact hmono _ _ hle beconn'.toNat_lt
    · intro hslow beconn hle
      apply UInt32.toNat.inj
      rw [toNat_srvDynamicMaxconn, Proxy.limitAt, if_neg hslow, Proxy.fullLimit,
        if_pos (.inl (UInt32.le_iff_toNat_le.mp hle))]

/-- **The limit stays within its bounds, and it grows with the connections of the backend** if
and only if the loss of the first product is hidden.  During a slow start this is enough when
the second product fits into 32 bits. -/
theorem srvDynamicMaxconn_bounds_iff (px : Proxy ι L) (now : ℤ) (s : Server)
    (hmin : 0 < s.minconn) (hmax : s.minconn ≤ s.maxconn) :
    (¬ s.SlowStarting now → (MaxconnBounds px now s ↔ px.LossHidden s)) ∧
      (s.SlowStarting now → (s.minconn = s.maxconn ∨ px.LossHidden s ∧ s.SlowFits now) →
        MaxconnBounds px now s) := by
  constructor
  · intro hslow
    have hlimit : px.limitAt now s = px.fullLimit s := funext fun _ => if_neg hslow
    rw [maxconnBounds_iff hmin hmax, hlimit, ← fullLimit_mono_iff hmin hmax]
    constructor
    · intro hmono beconn hlt
      exact hmono _ _ (Nat.le_succ beconn) (Nat.lt_of_le_of_lt hlt px.fullconn.toNat_lt)
    · intro hstep beconn beconn' hle _
      exact fullLimit_monotone hstep hle
  · intro hslow hcond
    refine (maxconnBounds_iff hmin hmax).mpr fun beconn beconn' hle _ => ?_
    exact limitAt_monotone hmin hmax hslow hcond hle

/-- No product up to `fullconn` connections wraps around. -/
theorem lossHidden_of_le (hmin : 0 < s.minconn) (hmax : s.minconn ≤ s.maxconn)
    (hle : px.fullconn.toNat * s.maxconn.toNat ≤ 2 ^ 32) : px.LossHidden s := by
  have hpos : 0 < s.maxconn.toNat :=
    Nat.lt_of_lt_of_le (UInt32.lt_iff_toNat_lt.mp hmin) (UInt32.le_iff_toNat_le.mp hmax)
  refine .inr fun k hk hlt => ?_
  have hpast := ((eq_pred_div_iff hpos (by omega : 0 < k * 2 ^ 32)).mp rfl).2
  have hprod := Nat.mul_le_mul_right s.maxconn.toNat (Nat.succ_le_of_lt hlt)
  rw [Nat.succ_mul] at hprod
  omega

def proxyOf (fullconn : UInt32) : Proxy Unit Unit :=
  { newProxy [] List.nodup_nil with fullconn := fullconn }

def serverOf (minconn maxconn : UInt32) : Server :=
  { serverS1 with minconn := minconn, maxconn := maxconn }

/-- The server in the middle of its slow start. -/
def serverSlow : Server :=
  { serverOf 10 1000 with curState := .starting, lastChange := 0, slowstart := 10 }

/-- Products within 32 bits. -/
theorem srvDynamicMaxconn_bounds_small :
    MaxconnBounds (proxyOf 5000) 0 (serverOf 10 1000) ∧
      MaxconnBounds (proxyOf 5000) 5 serverSlow := by
  have hhidden : (proxyOf 5000).LossHidden (serverOf 10 1000) :=
    lossHidden_of_le (by decide) (by decide) (by decide)
  obtain ⟨hiff, -⟩ := srvDynamicMaxconn_bounds_iff (proxyOf 5000) 0 (serverOf 10 1000)
    (by decide) (by decide)
  obtain ⟨-, hslow⟩ := srvDynamicMaxconn_bounds_iff (proxyOf 5000) 5 serverSlow
    (by decide) (by decide)
  exact ⟨(hiff (by decide)).mpr hhidden, hslow (by decide) (.inr ⟨hhidden, by decide⟩)⟩

/-- One connection more takes the limit of a server from 85898 down to 1. -/
theorem not_srvDynamicMaxconn_bounds :
    ¬ ∀ (px : Proxy Unit Unit) (now : ℤ) (s : Server), 0 < s.minconn → s.minconn ≤ s.maxconn →
      0 < px.fullconn → MaxconnBounds px now s := by
  intro h
  have hmono := (h (proxyOf 50000) 0 (serverOf 1 100000) (by decide) (by decide) (by decide)).mono
  exact absurd (hmono 42949 42950 (by decide)) (by decide)

end SmartHAProxy
